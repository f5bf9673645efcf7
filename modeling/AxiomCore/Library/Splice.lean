import Mathlib.Data.List.Perm.Subperm
import AxiomCore.Library.Keyed

/-!
One position of a keyed list. With distinct keys the item of a key stands at a
single position, and replacing it, splicing a block in its place and dropping it
are each a change between the items before and the items after.
-/

namespace Keyed

variable {α κ : Type} [DecidableEq κ] (key : α → κ)

/-- `items` has `a` between `before` and `after`, where its key does not
occur. -/
structure Split (items before after : List α) (a : α) : Prop where
  eq : items = before ++ a :: after
  notBefore : ∀ x ∈ before, key x ≠ key a
  notAfter : ∀ x ∈ after, key x ≠ key a

variable {key} {items before after : List α} {a : α}

omit [DecidableEq κ] in
theorem exists_split (hnodup : (items.map key).Nodup) (ha : a ∈ items) :
    ∃ before after, Split key items before after a := by
  obtain ⟨before, after, rfl⟩ := List.append_of_mem ha
  rw [List.map_append, List.map_cons, List.nodup_middle, List.nodup_cons] at hnodup
  have habsent := hnodup.1
  refine ⟨before, after, rfl, ?_, ?_⟩
  · intro x hx hkey
    exact habsent (List.mem_append_left _ (hkey ▸ List.mem_map_of_mem hx))
  · intro x hx hkey
    exact habsent (List.mem_append_right _ (hkey ▸ List.mem_map_of_mem hx))

/-- Splicing a block at the position of a key. -/
theorem Split.flatMap (h : Split key items before after a) (block : List α) :
    (items.flatMap fun x => if key x = key a then block else [x]) = before ++ block ++ after := by
  have hkeep : ∀ l : List α, (∀ x ∈ l, key x ≠ key a) →
      (l.flatMap fun x => if key x = key a then block else [x]) = l := by
    intro l hl
    have hsingle : (l.flatMap fun x => if key x = key a then block else [x]) =
        l.flatMap fun x => [x] := by
      apply List.flatMap_congr
      intro x hx
      exact if_neg (hl x hx)
    rw [hsingle, List.flatMap_singleton']
  rw [h.eq, List.flatMap_append, List.flatMap_cons, hkeep before h.notBefore,
    hkeep after h.notAfter, if_pos rfl, List.append_assoc]

/-- Replacing the item of a key. -/
theorem Split.map (h : Split key items before after a) (b : α) :
    (items.map fun x => if key x = key a then b else x) = before ++ b :: after := by
  have hblock := h.flatMap [b]
  rw [List.append_assoc, List.singleton_append] at hblock
  rw [← hblock, List.map_eq_flatMap]
  apply List.flatMap_congr
  intro x _
  split <;> rfl

/-- Dropping the item of a key. -/
theorem Split.filter (h : Split key items before after a) :
    (items.filter fun x => key x ≠ key a) = before ++ after := by
  have hkeep : ∀ l : List α, (∀ x ∈ l, key x ≠ key a) → l.filter (fun x => key x ≠ key a) = l := by
    intro l hl
    apply List.filter_eq_self.mpr
    intro x hx
    exact decide_eq_true (hl x hx)
  rw [h.eq, List.filter_append, List.filter_cons_of_neg (by simp), hkeep before h.notBefore,
    hkeep after h.notAfter]

omit [DecidableEq κ] in
/-- In the place of an item stands another item of its key. -/
theorem Split.replace (h : Split key items before after a) {b : α} (hkey : key b = key a) :
    Split key (before ++ b :: after) before after b where
  eq := rfl
  notBefore x hx := by
    rw [hkey]
    exact h.notBefore x hx
  notAfter x hx := by
    rw [hkey]
    exact h.notAfter x hx

omit [DecidableEq κ] in
/-- The keys of a spliced list are distinct exactly when those of the block are,
those around it are, and no key is among both. -/
theorem nodup_spliced {block : List α} :
    ((before ++ block ++ after).map key).Nodup ↔
      (block.map key).Nodup ∧ ((before ++ after).map key).Nodup ∧
        List.Disjoint (block.map key) ((before ++ after).map key) := by
  rw [← List.nodup_append', ← List.map_append]
  apply List.Perm.nodup_iff
  apply List.Perm.map
  rw [List.append_assoc, ← List.append_assoc block]
  exact (List.perm_append_comm_assoc before block after).trans (by rw [List.append_assoc])

/-- Dropping the keys of the block from a spliced list leaves what is around it. -/
theorem filter_spliced {block : List α} (hnodup : ((before ++ block ++ after).map key).Nodup) :
    (before ++ block ++ after).filter (fun x => key x ∉ block.map key) = before ++ after := by
  obtain ⟨-, -, hdisjoint⟩ := nodup_spliced.mp hnodup
  have hdrop : block.filter (fun x => key x ∉ block.map key) = [] := by
    apply List.filter_eq_nil_iff.mpr
    intro x hx
    simpa using List.mem_map_of_mem hx
  have hkeep : (before ++ after).filter (fun x => key x ∉ block.map key) = before ++ after := by
    apply List.filter_eq_self.mpr
    intro x hx
    exact decide_eq_true fun hblock => hdisjoint hblock (List.mem_map_of_mem hx)
  rw [List.filter_append, List.filter_append, hdrop, List.append_nil, ← List.filter_append, hkeep]

omit [DecidableEq κ] in
/-- The keys around an item are the other keys. -/
theorem Split.mem_around (h : Split key items before after a) {k : κ} :
    k ∈ (before ++ after).map key ↔ k ∈ items.map key ∧ k ≠ key a := by
  rw [h.eq, List.map_append, List.map_append, List.map_cons, List.mem_append, List.mem_append,
    List.mem_cons]
  constructor
  · rintro (hk | hk)
    · obtain ⟨x, hx, rfl⟩ := List.mem_map.mp hk
      exact ⟨Or.inl hk, h.notBefore x hx⟩
    · obtain ⟨x, hx, rfl⟩ := List.mem_map.mp hk
      exact ⟨Or.inr (Or.inr hk), h.notAfter x hx⟩
  · rintro ⟨hk | rfl | hk, hne⟩
    · exact Or.inl hk
    · exact absurd rfl hne
    · exact Or.inr hk

omit [DecidableEq κ] in
/-- A spliced list has distinct keys exactly when the block repeats no key but the
one it replaces. -/
theorem Split.nodup_spliced_iff (h : Split key items before after a)
    (hitems : (items.map key).Nodup) {block : List α} (hblock : (block.map key).Nodup) :
    ((before ++ block ++ after).map key).Nodup ↔
      ∀ k ∈ block.map key, k ∈ items.map key → k = key a := by
  have haround : ((before ++ after).map key).Nodup := by
    rw [h.eq, List.map_append, List.map_cons, List.nodup_middle, ← List.map_append] at hitems
    exact hitems.of_cons
  rw [nodup_spliced]
  constructor
  · rintro ⟨-, -, hdisjoint⟩ k hk hitem
    by_contra hne
    exact hdisjoint hk (h.mem_around.mpr ⟨hitem, hne⟩)
  · intro hreplaced
    refine ⟨hblock, haround, ?_⟩
    intro k hk hother
    obtain ⟨hitem, hne⟩ := h.mem_around.mp hother
    exact hne (hreplaced k hk hitem)

/-- A list without repetitions that stands inside another in order is the
items of that list that it has. -/
theorem eq_filter_of_sublist [DecidableEq α] {kept : List α} (hnodup : items.Nodup)
    (hsub : kept.Sublist items) : kept = items.filter (· ∈ kept) := by
  have hinside : kept.Sublist (items.filter (· ∈ kept)) := by
    have hfilter := hsub.filter (· ∈ kept)
    rwa [List.filter_eq_self.mpr (by simp)] at hfilter
  have hsubset : items.filter (· ∈ kept) ⊆ kept := by
    intro x hx
    simpa using (List.mem_filter.mp hx).2
  exact hinside.eq_of_length_le ((hnodup.filter _).length_le_of_subset hsubset)

end Keyed
