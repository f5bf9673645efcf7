import Mathlib.Data.List.Forall2
import Mathlib.Data.List.Nodup
import Mathlib.Data.List.Pairwise

/-!
Lists whose items carry pairwise distinct keys, and rows of values laid out
position by position along such a list. A lookup by key and a lookup by
position agree only because the keys are distinct; the lemmas here carry that
argument once, so that a development can reason about membership instead.
-/

namespace Keyed

variable {α β κ : Type} [DecidableEq κ] (key : α → κ)

/-- The first item with the given key. -/
def find (items : List α) (k : κ) : Option α :=
  items.find? fun a => key a = k

/-- The value standing at the position of the first item with the given key. -/
def valueAt (items : List α) (row : List β) (k : κ) : Option β :=
  ((items.zip row).find? fun p => key p.1 = k).map Prod.snd

/-- The values standing at the positions of the items that satisfy `keep`. -/
def pick (keep : α → Bool) (items : List α) (row : List β) : List β :=
  ((items.zip row).filter fun p => keep p.1).map Prod.snd

section Lookup

variable {key}

omit [DecidableEq κ] in
theorem eq_of_mem {items : List α} (hnodup : (items.map key).Nodup) {a b : α}
    (ha : a ∈ items) (hb : b ∈ items) (hkey : key a = key b) : a = b :=
  List.inj_on_of_nodup_map hnodup ha hb hkey

theorem find_mem {items : List α} {k : κ} {a : α} (h : find key items k = some a) :
    a ∈ items ∧ key a = k :=
  ⟨List.mem_of_find?_eq_some h, by simpa using List.find?_some h⟩

/-- With distinct keys a lookup is membership: it does not depend on the order
of the items. -/
theorem find_eq_some_iff {items : List α} (hnodup : (items.map key).Nodup) {k : κ} {a : α} :
    find key items k = some a ↔ a ∈ items ∧ key a = k := by
  constructor
  · exact find_mem
  · rintro ⟨hmem, rfl⟩
    cases hfind : find key items (key a) with
    | none =>
        have habsent := List.find?_eq_none.mp hfind a hmem
        simp at habsent
    | some b =>
        obtain ⟨hb, hkey⟩ := find_mem hfind
        rw [eq_of_mem hnodup hb hmem hkey]

theorem find_eq_none_iff {items : List α} {k : κ} :
    find key items k = none ↔ k ∉ items.map key := by
  simp [find, List.find?_eq_none]

theorem find_isSome_iff {items : List α} {k : κ} :
    (find key items k).isSome ↔ k ∈ items.map key := by
  rw [← not_iff_not, ← find_eq_none_iff]
  simp

omit [DecidableEq κ] in
/-- The blocks of two items have no key in common, when all keys are distinct. -/
theorem key_ne_of_blocks {ι : Type} {blocks : List ι} {block : ι → List α}
    (hnodup : ((blocks.flatMap block).map key).Nodup) {i j : ι} (hi : i ∈ blocks)
    (hj : j ∈ blocks) (hne : i ≠ j) {a b : α} (ha : a ∈ block i) (hb : b ∈ block j) :
    key a ≠ key b := by
  rw [List.map_flatMap, List.nodup_flatMap] at hnodup
  have hsymm : Std.Symm (Function.onFun List.Disjoint fun i => (block i).map key) :=
    ⟨fun _ _ hdisjoint _ hright hleft => hdisjoint hleft hright⟩
  have hdisjoint := hnodup.2.forall hi hj hne
  intro hkey
  apply hdisjoint (List.mem_map_of_mem ha)
  rw [hkey]
  exact List.mem_map_of_mem hb

end Lookup

section Rows

variable {key} {R : β → α → Prop} {items : List α} {row : List β}

/-- In an aligned row the value found under a key stands in the relation to
the item found under that key. -/
theorem valueAt_of_find (haligned : List.Forall₂ R row items) {k : κ} {a : α}
    (hfind : find key items k = some a) :
    ∃ v, valueAt key items row k = some v ∧ R v a := by
  induction haligned with
  | nil => simp [find] at hfind
  | @cons v b row items hv _ ih =>
      by_cases hkey : key b = k
      · have hab : b = a := by simpa [find, hkey] using hfind
        subst hab
        exact ⟨v, by simp [valueAt, hkey], hv⟩
      · obtain ⟨w, hw, hR⟩ := ih (by simpa [find, hkey] using hfind)
        exact ⟨w, by simpa [valueAt, hkey] using hw, hR⟩

theorem valueAt_of_mem (hnodup : (items.map key).Nodup) (haligned : List.Forall₂ R row items)
    {a : α} (hmem : a ∈ items) :
    ∃ v, valueAt key items row (key a) = some v ∧ R v a :=
  valueAt_of_find haligned ((find_eq_some_iff hnodup).mpr ⟨hmem, rfl⟩)

theorem valueAt_eq_none {k : κ} (habsent : k ∉ items.map key) :
    valueAt key items row k = none := by
  simp only [valueAt, Option.map_eq_none_iff, List.find?_eq_none, decide_eq_true_eq]
  rintro ⟨a, v⟩ hmem rfl
  exact habsent (List.mem_map_of_mem (List.of_mem_zip hmem).1)

omit [DecidableEq κ] in
theorem forall₂_mem_right (haligned : List.Forall₂ R row items) :
    List.Forall₂ (fun v a => a ∈ items ∧ R v a) row items := by
  apply List.Forall₂.flip
  exact (List.forall₂_and_left _ _).mpr ⟨fun _ ha => ha, haligned.flip⟩

omit [DecidableEq κ] in
theorem forall₂_of_forall_mem (hlength : row.length = items.length)
    (hall : ∀ v, ∀ a ∈ items, R v a) : List.Forall₂ R row items :=
  List.forall₂_iff_get.mpr ⟨hlength, fun _ _ _ => hall _ _ (List.get_mem _ _)⟩

/-- Every value of a row is the one found under the key of its item. -/
theorem forall₂_cells (hnodup : (items.map key).Nodup) (hlength : row.length = items.length) :
    List.Forall₂ (fun v a => a ∈ items ∧ valueAt key items row (key a) = some v) row items := by
  induction row generalizing items with
  | nil =>
      obtain rfl := List.eq_nil_of_length_eq_zero hlength.symm
      exact .nil
  | cons v row ih =>
      cases items with
      | nil => simp at hlength
      | cons a items =>
          obtain ⟨hfirst, hrest⟩ := List.nodup_cons.mp hnodup
          have hcells := ih hrest (Nat.succ.inj hlength)
          refine .cons (by simp [valueAt]) (hcells.imp ?_)
          intro w b h
          obtain ⟨hb, hw⟩ := h
          have hne : key a ≠ key b := by
            intro hsame
            exact hfirst (hsame ▸ List.mem_map_of_mem hb)
          simp only [valueAt] at hw
          simp [valueAt, hne, hb, hw]

/-- A value is found in the first of two blocks, or else in the second. -/
theorem valueAt_append (hlength : items.length = row.length) (items' : List α) (row' : List β)
    (k : κ) :
    valueAt key (items ++ items') (row ++ row') k =
      (valueAt key items row k).or (valueAt key items' row' k) := by
  simp only [valueAt, List.zip_append hlength, List.find?_append, Option.map_or]

/-- Values computed from the items are found with the items. -/
theorem valueAt_map (items : List α) (value : α → β) (k : κ) :
    valueAt key items (items.map value) k = (find key items k).map value := by
  induction items with
  | nil => rfl
  | cons a items ih =>
      by_cases hkey : key a = k
      · simp [valueAt, find, hkey]
      · simp only [valueAt, find] at ih
        simp [valueAt, find, hkey, ih]

/-- A value appended together with its item is found under the item's key, when
no earlier item has it. -/
theorem valueAt_concat (hlength : items.length = row.length) (a : α) (v : β) (k : κ) :
    valueAt key (items ++ [a]) (row ++ [v]) k =
      (valueAt key items row k).or (if key a = k then some v else none) := by
  rw [valueAt_append hlength]
  congr 1
  by_cases hkey : key a = k
  · simp [valueAt, hkey]
  · simp [valueAt, hkey]

theorem exists_valueAt (hlength : items.length = row.length) {k : κ} (hk : k ∈ items.map key) :
    ∃ v, valueAt key items row k = some v := by
  have haligned : List.Forall₂ (fun _ _ => True) row items :=
    List.forall₂_iff_get.mpr ⟨hlength.symm, fun _ _ _ => trivial⟩
  obtain ⟨a, hfind⟩ := Option.isSome_iff_exists.mp (find_isSome_iff.mpr hk)
  obtain ⟨v, hv, -⟩ := valueAt_of_find haligned hfind
  exact ⟨v, hv⟩

/-- With distinct keys the values do not depend on the order in which items and
values stand together. -/
theorem valueAt_perm {items' : List α} {row' : List β} (hnodup : (items.map key).Nodup)
    (hlength : items.length = row.length)
    (hperm : (items.zip row).Perm (items'.zip row')) (k : κ) :
    valueAt key items row k = valueAt key items' row' k := by
  have hkeys : ((items.zip row).map fun p => key p.1).Nodup := by
    have hfst : (items.zip row).map Prod.fst = items := List.map_fst_zip (Nat.le_of_eq hlength)
    rw [← hfst, List.map_map] at hnodup
    exact hnodup
  have hkeys' := (hperm.map fun p => key p.1).nodup_iff.mp hkeys
  have hfind : find (fun p : α × β => key p.1) (items.zip row) k =
      find (fun p : α × β => key p.1) (items'.zip row') k := by
    ext p
    rw [find_eq_some_iff hkeys, find_eq_some_iff hkeys', hperm.mem_iff]
  exact congrArg (Option.map Prod.snd) hfind

omit [DecidableEq κ] in
/-- Two lists that answer a common list of questions are aligned, when any two
answers to one question are related. -/
theorem forall₂_common {γ : Type} {P : γ → β → Prop} {Q : γ → α → Prop}
    (hanswers : ∀ c v a, P c v → Q c a → R v a) {questions : List γ}
    (hleft : List.Forall₂ P questions row) (hright : List.Forall₂ Q questions items) :
    List.Forall₂ R row items := by
  induction hleft generalizing items with
  | nil =>
      rw [List.forall₂_nil_left_iff.mp hright]
      exact .nil
  | cons hvalue _ ih =>
      obtain ⟨a, rest, hitem, hrest, rfl⟩ := List.forall₂_cons_left_iff.mp hright
      exact .cons (hanswers _ _ _ hvalue hitem) (ih hrest)

/-- Values looked up by keys are aligned with the items looked up by the same
keys. -/
theorem forall₂_valueAt (haligned : List.Forall₂ R row items) {keys : List κ} {values : List β}
    {selected : List α}
    (hvalues : List.Forall₂ (fun k v => valueAt key items row k = some v) keys values)
    (hselected : List.Forall₂ (fun k a => find key items k = some a) keys selected) :
    List.Forall₂ R values selected := by
  refine forall₂_common (fun k v a hvalue hfind => ?_) hvalues hselected
  obtain ⟨w, hw, hR⟩ := valueAt_of_find haligned hfind
  obtain rfl := Option.some.inj (hvalue.symm.trans hw)
  exact hR

/-- Dropping the same positions from a row and from its items keeps them
aligned. -/
theorem forall₂_pick (haligned : List.Forall₂ R row items) (keep : α → Bool) :
    List.Forall₂ R (pick keep items row) (items.filter keep) := by
  induction haligned with
  | nil => exact .nil
  | @cons v a row items hv _ ih =>
      cases hkeep : keep a with
      | false =>
          rw [List.filter_cons_of_neg (by simp [hkeep])]
          have hpick : pick keep (a :: items) (v :: row) = pick keep items row := by
            simp [pick, hkeep]
          exact hpick ▸ ih
      | true =>
          rw [List.filter_cons_of_pos hkeep]
          have hpick : pick keep (a :: items) (v :: row) = v :: pick keep items row := by
            simp [pick, hkeep]
          exact hpick ▸ .cons hv ih

/-- Replacing every position of a row and of its items by aligned blocks keeps
them aligned. -/
theorem forall₂_flatMap_zip {γ δ : Type} {S : δ → γ → Prop}
    (haligned : List.Forall₂ R row items) (values : α × β → List δ) (columns : α → List γ)
    (hblock : ∀ v a, a ∈ items → R v a → List.Forall₂ S (values (a, v)) (columns a)) :
    List.Forall₂ S ((items.zip row).flatMap values) (items.flatMap columns) := by
  induction haligned with
  | nil => exact .nil
  | @cons v a row items hv _ ih =>
      simp only [List.zip_cons_cons, List.flatMap_cons]
      refine List.rel_append (hblock v a (by simp) hv) (ih ?_)
      intro w b hb hw
      exact hblock w b (by simp [hb]) hw

/-- Replacing every position of a row and of its items keeps them aligned. -/
theorem forall₂_map_zip {γ δ : Type} {S : δ → γ → Prop}
    (haligned : List.Forall₂ R row items) (value : α × β → δ) (column : α → γ)
    (hposition : ∀ v a, a ∈ items → R v a → S (value (a, v)) (column a)) :
    List.Forall₂ S ((items.zip row).map value) (items.map column) := by
  have hblock := forall₂_flatMap_zip haligned (fun p => [value p]) (fun a => [column a])
    fun v a ha hv => .cons (hposition v a ha hv) .nil
  rwa [List.map_eq_flatMap, List.map_eq_flatMap]

end Rows

end Keyed
