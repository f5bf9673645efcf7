import Mathlib.Data.Finset.Sort
import Mathlib.Data.List.FinRange
import Mathlib.Data.List.Forall2

/-!
Fail-fast computations in `Except`. A constructor that validates its input is
a chain of checks, each of which either continues or returns the first error.
The lemmas here turn the acceptance of such a chain into the conjunction of
the conditions of its steps, and its rejection into the first step that fails.
-/

namespace Checked

variable {ε ε' α β : Type}

/-- Continue exactly when `condition` holds. -/
def ensure (condition : Prop) [Decidable condition] (error : ε) : Except ε Unit :=
  if condition then .ok () else .error error

/-- Unwrap an optional value, with an error for the missing case. -/
def okOr (found : Option α) (error : ε) : Except ε α :=
  match found with
  | some value => .ok value
  | none => .error error

@[simp] theorem pure_eq_ok (a b : α) : (pure a : Except ε α) = .ok b ↔ a = b := by
  simp [pure, Except.pure]

@[simp] theorem pure_ne_error (a : α) (e : ε) : (pure a : Except ε α) ≠ .error e := by
  simp [pure, Except.pure]

@[simp] theorem bind_eq_ok (x : Except ε α) (f : α → Except ε β) (b : β) :
    (x >>= f) = .ok b ↔ ∃ a, x = .ok a ∧ f a = .ok b := by
  cases x with
  | error e => simp [bind, Except.bind]
  | ok a => simp [bind, Except.bind]

@[simp] theorem bind_eq_error (x : Except ε α) (f : α → Except ε β) (e : ε) :
    (x >>= f) = .error e ↔ x = .error e ∨ ∃ a, x = .ok a ∧ f a = .error e := by
  cases x with
  | error e' => simp [bind, Except.bind]
  | ok a => simp [bind, Except.bind]

@[simp] theorem map_eq_error (x : Except ε α) (f : α → β) (e : ε) :
    f <$> x = .error e ↔ x = .error e := by
  cases x <;> simp [Functor.map, Except.map]

@[simp] theorem mapError_eq_ok (x : Except ε α) (f : ε → ε') (a : α) :
    x.mapError f = .ok a ↔ x = .ok a := by
  cases x <;> simp [Except.mapError]

@[simp] theorem mapError_eq_error (x : Except ε α) (f : ε → ε') (e : ε') :
    x.mapError f = .error e ↔ ∃ e', x = .error e' ∧ f e' = e := by
  cases x <;> simp [Except.mapError]

@[simp] theorem ensure_eq_ok (condition : Prop) [Decidable condition] (error : ε) (u : Unit) :
    ensure condition error = .ok u ↔ condition := by
  unfold ensure
  split <;> simp_all

@[simp] theorem ensure_eq_error (condition : Prop) [Decidable condition] (error e : ε) :
    ensure condition error = .error e ↔ ¬ condition ∧ error = e := by
  unfold ensure
  split <;> simp_all

@[simp] theorem okOr_eq_ok (found : Option α) (error : ε) (a : α) :
    okOr found error = .ok a ↔ found = some a := by
  cases found <;> simp [okOr]

@[simp] theorem okOr_eq_error (found : Option α) (error e : ε) :
    okOr found error = .error e ↔ found = none ∧ error = e := by
  cases found <;> simp [okOr]

@[simp] theorem exists_unit_eq_ok (x : Except ε Unit) : (∃ u, x = .ok u) ↔ x = .ok () :=
  ⟨fun ⟨(), h⟩ => h, fun h => ⟨(), h⟩⟩

/-- A mapping loop succeeds exactly when its body succeeds on every item, and
then its output is the list of the outputs, position by position. -/
@[simp] theorem mapM_eq_ok (f : α → Except ε β) (items : List α) (outputs : List β) :
    items.mapM f = .ok outputs ↔ List.Forall₂ (fun a b => f a = .ok b) items outputs := by
  induction items generalizing outputs with
  | nil => simp [List.mapM_nil, pure, Except.pure, eq_comm]
  | cons head tail ih =>
      simp only [List.mapM_cons, bind_eq_ok, pure_eq_ok, ih, List.forall₂_cons_left_iff]
      constructor
      · rintro ⟨b, hhead, rest, htail, rfl⟩
        exact ⟨b, rest, hhead, htail, rfl⟩
      · rintro ⟨b, rest, hhead, htail, rfl⟩
        exact ⟨b, hhead, rest, htail, rfl⟩

/-- Every item of a mapping loop has an output. -/
theorem exists_output {R : α → β → Prop} {items : List α} {outputs : List β}
    (h : List.Forall₂ R items outputs) {a : α} (ha : a ∈ items) : ∃ b ∈ outputs, R a b := by
  induction h with
  | nil => simp at ha
  | @cons head b items outputs hhead _ ih =>
      rcases List.mem_cons.mp ha with rfl | ha
      · exact ⟨b, by simp, hhead⟩
      · obtain ⟨c, hc, hR⟩ := ih ha
        exact ⟨c, by simp [hc], hR⟩

/-- A list can be related item by item exactly when every item is related to
something. -/
theorem exists_outputs_iff {R : α → β → Prop} {items : List α} :
    (∃ outputs, List.Forall₂ R items outputs) ↔ ∀ a ∈ items, ∃ b, R a b := by
  constructor
  · rintro ⟨outputs, houtputs⟩ a ha
    obtain ⟨b, -, hb⟩ := exists_output houtputs ha
    exact ⟨b, hb⟩
  · intro h
    induction items with
    | nil => exact ⟨[], .nil⟩
    | cons head tail ih =>
        obtain ⟨⟨b, hhead⟩, htail⟩ := List.forall_mem_cons.mp h
        obtain ⟨outputs, houtputs⟩ := ih htail
        exact ⟨b :: outputs, .cons hhead houtputs⟩

/-- The error of a mapping loop is the error of one of its items. -/
theorem exists_of_mapM_eq_error {f : α → Except ε β} {items : List α} {e : ε}
    (h : items.mapM f = .error e) : ∃ a ∈ items, f a = .error e := by
  induction items with
  | nil => exact absurd h nofun
  | cons head tail ih =>
      simp only [List.mapM_cons, bind_eq_error, pure_ne_error, and_false, exists_false,
        or_false] at h
      rcases h with hhead | ⟨_, -, htail⟩
      · exact ⟨head, List.mem_cons_self, hhead⟩
      · obtain ⟨a, ha, hfail⟩ := ih htail
        exact ⟨a, List.mem_cons_of_mem head ha, hfail⟩

/-- The same loop over bodies that may be undefined. -/
theorem mapM_eq_some (f : α → Option β) (items : List α) (outputs : List β) :
    items.mapM f = some outputs ↔ List.Forall₂ (fun a b => f a = some b) items outputs := by
  induction items generalizing outputs with
  | nil => simp [List.mapM_nil, eq_comm]
  | cons head tail ih =>
      simp only [List.mapM_cons, Option.bind_eq_bind, Option.bind_eq_some_iff, Option.pure_def,
        Option.some.injEq, ih, List.forall₂_cons_left_iff]
      constructor
      · rintro ⟨b, hhead, rest, htail, rfl⟩
        exact ⟨b, rest, hhead, htail, rfl⟩
      · rintro ⟨b, rest, hhead, htail, rfl⟩
        exact ⟨b, hhead, rest, htail, rfl⟩

/-- A checking loop succeeds exactly when its body succeeds on every item. -/
@[simp] theorem forM_eq_ok (f : α → Except ε Unit) (items : List α) (u : Unit) :
    forM items f = .ok u ↔ ∀ a ∈ items, f a = .ok () := by
  induction items with
  | nil => simp [List.forM_nil, pure, Except.pure]
  | cons head tail ih => simp [List.forM_cons, ih]

/-- A checking loop reports the error of the first item that has one. -/
theorem forM_eq_error (f : α → Except ε Unit) (items : List α) (e : ε) :
    forM items f = .error e ↔
      ∃ i a, items[i]? = some a ∧ f a = .error e ∧ ∀ b ∈ items.take i, f b = .ok () := by
  induction items with
  | nil => simp [List.forM_nil, pure, Except.pure]
  | cons head tail ih =>
      simp only [List.forM_cons, bind_eq_error, ih]
      constructor
      · rintro (hhead | ⟨_, hhead, i, a, hget, hfail, hbefore⟩)
        · exact ⟨0, head, by simp, hhead, by simp⟩
        · have hall : ∀ b ∈ head :: tail.take i, f b = .ok () :=
            List.forall_mem_cons.mpr ⟨hhead, hbefore⟩
          exact ⟨i + 1, a, by simpa using hget, hfail, by simpa using hall⟩
      · rintro ⟨i, a, hget, hfail, hbefore⟩
        cases i with
        | zero =>
            have hhead : head = a := by simpa using hget
            exact Or.inl (hhead ▸ hfail)
        | succ i =>
            rw [List.take_succ_cons, List.forall_mem_cons] at hbefore
            exact Or.inr ⟨(), hbefore.1, i, a, by simpa using hget, hfail, hbefore.2⟩

/-- A checking loop over the positions of a vector reports the error of the first
position that has one. -/
theorem forM_finRange_eq_error {n : Nat} (f : Fin n → Except ε Unit) (e : ε) :
    forM (List.finRange n) f = .error e ↔ ∃ i, f i = .error e ∧ ∀ j < i, f j = .ok () := by
  have hget : ∀ (k : Nat) (i : Fin n), (List.finRange n)[k]? = some i ↔ i.val = k := by
    intro k i
    rw [List.getElem?_eq_some_iff]
    simp only [List.length_finRange, List.getElem_finRange]
    constructor
    · rintro ⟨_, rfl⟩
      rfl
    · rintro rfl
      exact ⟨i.isLt, rfl⟩
  have hbefore : ∀ (k : Nat) (j : Fin n), j ∈ (List.finRange n).take k ↔ j.val < k := by
    intro k j
    simp only [List.mem_take_iff_getElem, List.length_finRange, List.getElem_finRange]
    constructor
    · rintro ⟨m, hm, rfl⟩
      simp only [Fin.val_cast]
      omega
    · intro hlt
      have hj := j.isLt
      exact ⟨j.val, by omega, rfl⟩
  simp only [forM_eq_error, hget, hbefore]
  constructor
  · rintro ⟨k, i, rfl, hfail, hpassed⟩
    exact ⟨i, hfail, hpassed⟩
  · rintro ⟨i, hfail, hpassed⟩
    exact ⟨i.val, i, rfl, hfail, hpassed⟩

/-- A checking loop over a set in ascending order reports the error of the least item
that has one. -/
theorem forM_sort_eq_error [LinearOrder α] (f : α → Except ε Unit) (items : Finset α) (e : ε) :
    forM (items.sort (· ≤ ·)) f = .error e ↔
      ∃ a ∈ items, f a = .error e ∧ ∀ b ∈ items, b < a → f b = .ok () := by
  have hsorted : (items.sort (· ≤ ·)).Pairwise (· < ·) := items.sortedLT_sort.pairwise
  rw [List.pairwise_iff_getElem] at hsorted
  rw [forM_eq_error]
  constructor
  · rintro ⟨i, a, hget, hfail, hbefore⟩
    obtain ⟨hi, rfl⟩ := List.getElem?_eq_some_iff.mp hget
    refine ⟨_, (Finset.mem_sort _).mp (List.getElem_mem hi), hfail, ?_⟩
    intro b hb hless
    obtain ⟨j, hj, rfl⟩ := List.mem_iff_getElem.mp ((Finset.mem_sort (· ≤ ·)).mpr hb)
    apply hbefore
    rw [List.mem_take_iff_getElem]
    refine ⟨j, ?_, rfl⟩
    have hji : j < i := by
      by_contra hle
      rcases Nat.lt_or_eq_of_le (Nat.le_of_not_lt hle) with hlt | rfl
      · exact absurd (hsorted i j hi hj hlt) hless.asymm
      · exact absurd hless (lt_irrefl _)
    omega
  · rintro ⟨a, ha, hfail, hbefore⟩
    obtain ⟨i, hi, rfl⟩ := List.mem_iff_getElem.mp ((Finset.mem_sort (· ≤ ·)).mpr ha)
    refine ⟨i, _, List.getElem?_eq_getElem hi, hfail, ?_⟩
    intro b hb
    obtain ⟨j, hj, rfl⟩ := List.mem_take_iff_getElem.mp hb
    have hless := hsorted j i (by omega) hi (by omega)
    exact hbefore _ ((Finset.mem_sort _).mp (List.getElem_mem _)) hless

/-- The first item of a list on which a check fails, with its error. -/
def FirstFailure (f : α → Except ε β) (items : List α) (a : α) (e : ε) : Prop :=
  ∃ before after, items = before ++ a :: after ∧ (∀ b ∈ before, ∃ o, f b = .ok o) ∧ f a = .error e

theorem firstFailure_singleton {f : α → Except ε β} {a : α} {e : ε} (h : f a = .error e) :
    FirstFailure f [a] a e :=
  ⟨[], [], rfl, by simp, h⟩

theorem FirstFailure.append_right {f : α → Except ε β} {items : List α} {a : α} {e : ε}
    (h : FirstFailure f items a e) (more : List α) : FirstFailure f (items ++ more) a e := by
  obtain ⟨before, after, rfl, hbefore, hfail⟩ := h
  exact ⟨before, after ++ more, by simp, hbefore, hfail⟩

theorem FirstFailure.append_left {f : α → Except ε β} {items : List α} {a : α} {e : ε}
    (h : FirstFailure f items a e) {passed : List α} (hpassed : ∀ b ∈ passed, ∃ o, f b = .ok o) :
    FirstFailure f (passed ++ items) a e := by
  obtain ⟨before, after, rfl, hbefore, hfail⟩ := h
  refine ⟨passed ++ before, after, by simp, ?_, hfail⟩
  intro b hb
  rcases List.mem_append.mp hb with hb | hb
  · exact hpassed b hb
  · exact hbefore b hb

theorem exists_ok_iff {x : Except ε α} : (∃ a, x = .ok a) ↔ ¬ ∃ e, x = .error e := by
  cases x <;> simp

/-- The first item of a list with a property. -/
def First (P : α → Prop) (items : List α) (a : α) : Prop :=
  ∃ before after, items = before ++ a :: after ∧ (∀ b ∈ before, ¬ P b) ∧ P a

theorem First.mem {P : α → Prop} {items : List α} {a : α} (h : First P items a) :
    a ∈ items ∧ P a := by
  obtain ⟨before, after, rfl, -, ha⟩ := h
  exact ⟨by simp, ha⟩

theorem First.map {P : β → Prop} {g : α → β} {items : List α} {b : β} :
    First P (items.map g) b ↔ ∃ a, First (fun a => P (g a)) items a ∧ g a = b := by
  constructor
  · rintro ⟨before, after, hitems, hbefore, hb⟩
    obtain ⟨before', rest, rfl, rfl, hrest⟩ := List.map_eq_append_iff.mp hitems
    obtain ⟨a, after', rfl, rfl, rfl⟩ := List.map_eq_cons_iff.mp hrest
    exact ⟨a, ⟨before', after', rfl, by simpa using hbefore, hb⟩, rfl⟩
  · rintro ⟨a, ⟨before, after, rfl, hbefore, ha⟩, rfl⟩
    exact ⟨before.map g, after.map g, by simp, by simpa using hbefore, ha⟩

/-- A check that fails exactly on the items with a property first fails on the
first of them. -/
theorem firstFailure_iff {f : α → Except ε β} {P : α → Prop}
    (hfails : ∀ b, (∃ o, f b = .ok o) ↔ ¬ P b) {items : List α} {a : α} {e : ε} :
    FirstFailure f items a e ↔ First P items a ∧ f a = .error e := by
  simp only [FirstFailure, First, hfails]
  constructor
  · rintro ⟨before, after, hitems, hbefore, ha⟩
    refine ⟨⟨before, after, hitems, hbefore, ?_⟩, ha⟩
    by_contra hpass
    obtain ⟨o, ho⟩ := (hfails a).mpr hpass
    rw [ha] at ho
    exact absurd ho (by simp)
  · rintro ⟨⟨before, after, hitems, hbefore, -⟩, ha⟩
    exact ⟨before, after, hitems, hbefore, ha⟩

/-- A mapping loop fails with the error of the first item that has one. -/
theorem mapM_eq_error {f : α → Except ε β} {items : List α} {e : ε} :
    items.mapM f = .error e ↔ ∃ a, FirstFailure f items a e := by
  induction items with
  | nil => simp [List.mapM_nil, FirstFailure]
  | cons head tail ih =>
      simp only [List.mapM_cons, bind_eq_error, pure_ne_error, and_false, exists_false, or_false,
        ih]
      constructor
      · rintro (hhead | ⟨o, hhead, a, hfail⟩)
        · exact ⟨head, [], tail, rfl, by simp, hhead⟩
        · have hpassed : ∀ b ∈ [head], ∃ o, f b = .ok o := by simp [hhead]
          exact ⟨a, hfail.append_left hpassed⟩
      · rintro ⟨a, before, after, hitems, hbefore, ha⟩
        cases before with
        | nil =>
            obtain ⟨rfl, rfl⟩ := List.cons.inj hitems
            exact Or.inl ha
        | cons first before =>
            obtain ⟨rfl, rfl⟩ := List.cons.inj hitems
            obtain ⟨⟨o, hhead⟩, hrest⟩ := List.forall_mem_cons.mp hbefore
            exact Or.inr ⟨o, hhead, a, before, after, rfl, hrest, ha⟩

/-- A checking loop fails with the error of the first item that has one. -/
theorem forM_eq_error_first {f : α → Except ε Unit} {items : List α} {e : ε} :
    forM items f = .error e ↔ ∃ a, FirstFailure f items a e := by
  rw [← mapM_eq_error]
  induction items with
  | nil => simp [List.forM_nil, List.mapM_nil]
  | cons head tail ih => simp [List.forM_cons, List.mapM_cons, ih]

/-- Two checking loops whose bodies agree on the items are one loop. -/
theorem forM_congr {f g : α → Except ε Unit} {items : List α} (h : ∀ a ∈ items, f a = g a) :
    forM items f = forM items g := by
  induction items with
  | nil => rfl
  | cons head tail ih =>
      obtain ⟨hhead, htail⟩ := List.forall_mem_cons.mp h
      rw [List.forM_cons, List.forM_cons, hhead, ih htail]

/-- A loop over the kept items skips the others. -/
theorem forM_filter (keep : α → Bool) (f : α → Except ε Unit) (items : List α) :
    forM (items.filter keep) f = forM items fun a => if keep a then f a else .ok () := by
  induction items with
  | nil => rfl
  | cons head tail ih =>
      rw [List.forM_cons, ← ih, List.filter_cons]
      split
      · rw [List.forM_cons]
      · rfl

end Checked
