import AxiomCore.Library.Checked
import AxiomCore.Library.Refined

/-!
The interface of the refinement crate the kernel is written against. Its code
is not part of this repository, so its three collection rules are a parameter
of the development: a verdict for each rule, together with what the kernel's
own comments and tests rely on. The length rule reports the observed length,
the uniqueness rule reports the first position that repeats an earlier key,
and a composition runs its first rule first.
-/

namespace AxiomCore

open Checked Refined

variable {α κ ε : Type}

/-- `CollectionError`. Payloads of variants that no rule used here reports are
left out. -/
inductive CollectionError where
  | lenOutOfRange (actual : Nat)
  | duplicateKey (index : Nat)
  | badItem
  | matchingItem
  | noMatchingItem
  | notSorted
  deriving DecidableEq

/-- `index` is the first position whose key already stands at an earlier one. -/
def FirstRepeat (keys : List κ) (index : Nat) : Prop :=
  (keys.take index).Nodup ∧ ∃ k, keys[index]? = some k ∧ k ∈ keys.take index

theorem FirstRepeat.not_nodup {keys : List κ} {index : Nat} (h : FirstRepeat keys index) :
    ¬ keys.Nodup := by
  obtain ⟨_, k, hk, hmem⟩ := h
  intro hnodup
  obtain ⟨hindex, hget⟩ := List.getElem?_eq_some_iff.mp hk
  obtain ⟨j, hj, hkj⟩ := List.mem_take_iff_getElem.mp hmem
  have hsame := (List.Nodup.getElem_inj_iff hnodup).mp (hkj.trans hget.symm)
  omega

/-- The first repeated position is unique, so the law of `uniqueByKey` fixes
its error. -/
theorem FirstRepeat.unique {keys : List κ} {i j : Nat} (hi : FirstRepeat keys i)
    (hj : FirstRepeat keys j) : i = j := by
  have hle : ∀ {i j}, FirstRepeat keys i → FirstRepeat keys j → i ≤ j := by
    intro i j hi hj
    by_contra hlt
    obtain ⟨_, k, hk, hmem⟩ := hj
    have hrepeat : FirstRepeat (keys.take i) j := by
      refine ⟨?_, k, ?_, ?_⟩
      · exact hi.1.sublist (by rw [List.take_take]; exact List.take_sublist_take_left (by omega))
      · rw [List.getElem?_take_of_lt (by omega)]
        exact hk
      · rw [List.take_take, Nat.min_eq_left (by omega)]
        exact hmem
    exact hrepeat.not_nodup hi.1
  exact Nat.le_antisymm (hle hi hj) (hle hj hi)

/-- The rules `LenItems<MIN, MAX>`, `UniqueByKey<T, K>` and `And<A, B>`, each
as its verdict on a list. -/
class Whittle where
  lenItems : {α : Type} → Nat → Nat → List α → Except CollectionError Unit
  uniqueByKey : {α κ : Type} → [DecidableEq κ] → (α → κ) → List α → Except CollectionError Unit
  and : {α : Type} → (List α → Except CollectionError Unit) →
    (List α → Except CollectionError Unit) → List α → Except CollectionError Unit
  lenItems_ok {α : Type} {min max : Nat} {items : List α} :
    lenItems min max items = .ok () ↔ LengthRule min max items
  lenItems_error {α : Type} {min max : Nat} {items : List α} {e : CollectionError} :
    lenItems min max items = .error e → e = .lenOutOfRange items.length
  uniqueByKey_ok {α κ : Type} [DecidableEq κ] {key : α → κ} {items : List α} :
    uniqueByKey key items = .ok () ↔ (items.map key).Nodup
  uniqueByKey_error {α κ : Type} [DecidableEq κ] {key : α → κ} {items : List α}
    {e : CollectionError} : uniqueByKey key items = .error e →
      ∃ index, FirstRepeat (items.map key) index ∧ e = .duplicateKey index
  and_eq {α : Type} (first second : List α → Except CollectionError Unit) (items : List α) :
    and first second items = (first items >>= fun _ => second items)

section Verdicts

variable [Whittle] [DecidableEq κ]

/-- The verdict of `And<LenItems<MIN, MAX>, UniqueByKey<T, K>>`. -/
def keyedVerdict (min max : Nat) (key : α → κ) (items : List α) : Except CollectionError Unit :=
  Whittle.and (Whittle.lenItems min max) (Whittle.uniqueByKey key) items

theorem lenItems_error_iff {min max : Nat} {items : List α} {e : CollectionError} :
    Whittle.lenItems min max items = .error e ↔
      ¬ LengthRule min max items ∧ e = .lenOutOfRange items.length := by
  cases hverdict : Whittle.lenItems min max items with
  | ok u => simp [Whittle.lenItems_ok.mp hverdict]
  | error e' =>
      have hlen : ¬ LengthRule min max items := by
        rw [← Whittle.lenItems_ok, hverdict]
        simp
      simp [hlen, Whittle.lenItems_error hverdict, eq_comm]

theorem keyedVerdict_ok_iff {min max : Nat} {key : α → κ} {items : List α} :
    keyedVerdict min max key items = .ok () ↔ KeyedRule min max key items := by
  simp only [keyedVerdict, Whittle.and_eq, bind_eq_ok, Whittle.uniqueByKey_ok]
  constructor
  · rintro ⟨_, hlen, hnodup⟩
    exact ⟨Whittle.lenItems_ok.mp hlen, hnodup⟩
  · rintro ⟨hlen, hnodup⟩
    exact ⟨(), Whittle.lenItems_ok.mpr hlen, hnodup⟩

theorem keyedVerdict_error_iff {min max : Nat} {key : α → κ} {items : List α}
    {e : CollectionError} :
    keyedVerdict min max key items = .error e ↔
      (¬ LengthRule min max items ∧ e = .lenOutOfRange items.length) ∨
      (LengthRule min max items ∧
        ∃ index, FirstRepeat (items.map key) index ∧ e = .duplicateKey index) := by
  simp only [keyedVerdict, Whittle.and_eq, bind_eq_error, lenItems_error_iff]
  refine or_congr Iff.rfl ?_
  constructor
  · rintro ⟨_, hlen, hunique⟩
    exact ⟨Whittle.lenItems_ok.mp hlen, Whittle.uniqueByKey_error hunique⟩
  · rintro ⟨hlen, index, hrepeat, rfl⟩
    refine ⟨(), Whittle.lenItems_ok.mpr hlen, ?_⟩
    cases hverdict : Whittle.uniqueByKey key items with
    | ok u => exact absurd (Whittle.uniqueByKey_ok.mp hverdict) hrepeat.not_nodup
    | error e' =>
        obtain ⟨index', hrepeat', rfl⟩ := Whittle.uniqueByKey_error hverdict
        rw [hrepeat.unique hrepeat']

/-- `Refined::try_new` over `LenItems<MIN, MAX>`, with the length error mapped
to the caller's own. A verdict other than the length error is unreachable. -/
def tryBounded (min max : Nat) (onLength : Nat → ε) (items : List α) :
    Except ε (BoundedVec α min max) :=
  match hverdict : Whittle.lenItems min max items with
  | .ok () => .ok (.ofList items (Whittle.lenItems_ok.mp hverdict))
  | .error (.lenOutOfRange actual) => .error (onLength actual)
  | .error (.duplicateKey _) => absurd (Whittle.lenItems_error hverdict) nofun
  | .error .badItem => absurd (Whittle.lenItems_error hverdict) nofun
  | .error .matchingItem => absurd (Whittle.lenItems_error hverdict) nofun
  | .error .noMatchingItem => absurd (Whittle.lenItems_error hverdict) nofun
  | .error .notSorted => absurd (Whittle.lenItems_error hverdict) nofun

/-- `Refined::try_new` over `And<LenItems<MIN, MAX>, UniqueByKey<T, K>>`, with
the two errors mapped to the caller's own. Any other verdict is unreachable. -/
def tryKeyed (min max : Nat) (key : α → κ) (onLength onDuplicate : Nat → ε) (items : List α) :
    Except ε (KeyedList α κ min max key) :=
  match hverdict : keyedVerdict min max key items with
  | .ok () => .ok ⟨items, keyedVerdict_ok_iff.mp hverdict⟩
  | .error (.lenOutOfRange actual) => .error (onLength actual)
  | .error (.duplicateKey index) => .error (onDuplicate index)
  | .error .badItem => absurd (keyedVerdict_error_iff.mp hverdict) (by simp)
  | .error .matchingItem => absurd (keyedVerdict_error_iff.mp hverdict) (by simp)
  | .error .noMatchingItem => absurd (keyedVerdict_error_iff.mp hverdict) (by simp)
  | .error .notSorted => absurd (keyedVerdict_error_iff.mp hverdict) (by simp)

theorem tryBounded_eq_ok {min max : Nat} {onLength : Nat → ε} {items : List α}
    {v : BoundedVec α min max} :
    tryBounded min max onLength items = .ok v ↔ v.toList = items := by
  unfold tryBounded
  split
  · rename_i hverdict
    constructor
    · rintro ⟨⟩
      simp
    · intro h
      exact congrArg _ (BoundedVec.toList_injective (by simp [h]))
  · rename_i actual hverdict
    have hlen := (lenItems_error_iff.mp hverdict).1
    simp only [reduceCtorEq, false_iff]
    rintro rfl
    exact hlen v.lengthRule_toList
  all_goals
    rename_i hverdict
    exact absurd (Whittle.lenItems_error hverdict) (by simp)

theorem tryBounded_eq_error {min max : Nat} {onLength : Nat → ε} {items : List α} {e : ε} :
    tryBounded min max onLength items = .error e ↔
      ¬ LengthRule min max items ∧ e = onLength items.length := by
  unfold tryBounded
  split
  · rename_i hverdict
    simp [Whittle.lenItems_ok.mp hverdict]
  · rename_i actual hverdict
    obtain ⟨hlen, hactual⟩ := lenItems_error_iff.mp hverdict
    obtain rfl := CollectionError.lenOutOfRange.inj hactual
    simp [hlen, eq_comm]
  all_goals
    rename_i hverdict
    exact absurd (Whittle.lenItems_error hverdict) (by simp)

theorem tryKeyed_eq_ok {min max : Nat} {key : α → κ} {onLength onDuplicate : Nat → ε}
    {items : List α} {kept : KeyedList α κ min max key} :
    tryKeyed min max key onLength onDuplicate items = .ok kept ↔ kept.items = items := by
  unfold tryKeyed
  split
  · constructor
    · rintro ⟨⟩
      rfl
    · rintro rfl
      rfl
  · rename_i actual hverdict
    simp only [reduceCtorEq, false_iff]
    rintro rfl
    rw [keyedVerdict_ok_iff.mpr kept.rule] at hverdict
    exact absurd hverdict nofun
  · rename_i index hverdict
    simp only [reduceCtorEq, false_iff]
    rintro rfl
    rw [keyedVerdict_ok_iff.mpr kept.rule] at hverdict
    exact absurd hverdict nofun
  all_goals
    rename_i hverdict
    exact absurd (keyedVerdict_error_iff.mp hverdict) (by simp)

theorem tryKeyed_eq_error {min max : Nat} {key : α → κ} {onLength onDuplicate : Nat → ε}
    {items : List α} {e : ε} :
    tryKeyed min max key onLength onDuplicate items = .error e ↔
      (¬ LengthRule min max items ∧ e = onLength items.length) ∨
      (LengthRule min max items ∧
        ∃ index, FirstRepeat (items.map key) index ∧ e = onDuplicate index) := by
  unfold tryKeyed
  split
  · rename_i hverdict
    have hrule := keyedVerdict_ok_iff.mp hverdict
    simp only [reduceCtorEq, false_iff]
    rintro (⟨hlen, -⟩ | ⟨-, index, hrepeat, -⟩)
    · exact hlen hrule.toLengthRule
    · exact hrepeat.not_nodup hrule.nodup
  · rename_i actual hverdict
    obtain ⟨hlen, hactual⟩ | ⟨-, index, -, hindex⟩ := keyedVerdict_error_iff.mp hverdict
    · obtain rfl := CollectionError.lenOutOfRange.inj hactual
      simp [hlen, eq_comm]
    · exact absurd hindex nofun
  · rename_i index hverdict
    obtain ⟨-, hlength⟩ | ⟨hlen, index', hrepeat, hindex⟩ := keyedVerdict_error_iff.mp hverdict
    · exact absurd hlength nofun
    · obtain rfl := CollectionError.duplicateKey.inj hindex
      simp only [hlen, not_true_eq_false, false_and, true_and, false_or, Except.error.injEq]
      constructor
      · rintro rfl
        exact ⟨index, hrepeat, rfl⟩
      · rintro ⟨other, hother, rfl⟩
        rw [hrepeat.unique hother]
  all_goals
    rename_i hverdict
    exact absurd (keyedVerdict_error_iff.mp hverdict) (by simp)

end Verdicts

section Documented

variable [DecidableEq κ]

/-- The first position of `keys`, counted after `seen`, whose key was seen. -/
def firstRepeat (seen : List κ) : List κ → Option Nat
  | [] => none
  | k :: rest => if k ∈ seen then some seen.length else firstRepeat (seen ++ [k]) rest

theorem firstRepeat_none {seen keys : List κ} (hseen : seen.Nodup) :
    firstRepeat seen keys = none ↔ (seen ++ keys).Nodup := by
  induction keys generalizing seen with
  | nil => simp [firstRepeat, hseen]
  | cons k rest ih =>
      unfold firstRepeat
      split
      · rename_i hmem
        simp only [reduceCtorEq, false_iff]
        intro hnodup
        exact (List.disjoint_of_nodup_append hnodup) hmem (by simp)
      · rename_i hmem
        have hsnoc : (seen ++ [k]).Nodup := by
          rw [List.nodup_append']
          exact ⟨hseen, by simp, by simpa using hmem⟩
        rw [ih hsnoc, List.append_assoc, List.singleton_append]

theorem firstRepeat_some {seen keys : List κ} (hseen : seen.Nodup) {index : Nat}
    (h : firstRepeat seen keys = some index) : FirstRepeat (seen ++ keys) index := by
  induction keys generalizing seen with
  | nil => simp [firstRepeat] at h
  | cons k rest ih =>
      unfold firstRepeat at h
      split at h
      · rename_i hmem
        obtain rfl := Option.some.inj h
        exact ⟨by simpa using hseen, k, by simp, by simpa using hmem⟩
      · rename_i hmem
        have hsnoc : (seen ++ [k]).Nodup := by
          rw [List.nodup_append']
          exact ⟨hseen, by simp, by simpa using hmem⟩
        simpa using ih hsnoc h

/-- Some position is the first repeat exactly when the keys are not distinct. -/
theorem exists_firstRepeat_iff {keys : List κ} :
    (∃ index, FirstRepeat keys index) ↔ ¬ keys.Nodup := by
  constructor
  · rintro ⟨index, hrepeat⟩
    exact hrepeat.not_nodup
  · intro hkeys
    cases hfirst : firstRepeat [] keys with
    | none => exact absurd ((firstRepeat_none List.nodup_nil).mp hfirst) hkeys
    | some index => exact ⟨index, firstRepeat_some List.nodup_nil hfirst⟩

/-- The rules as the kernel's comments and tests describe them. -/
instance (priority := low) Whittle.documented : Whittle where
  lenItems min max items :=
    ensure (min ≤ items.length ∧ items.length ≤ max) (.lenOutOfRange items.length)
  uniqueByKey key items :=
    match firstRepeat [] (items.map key) with
    | none => .ok ()
    | some index => .error (.duplicateKey index)
  and first second items := first items >>= fun _ => second items
  lenItems_ok := by
    intro α min max items
    rw [ensure_eq_ok]
    exact ⟨fun h => ⟨h.1, h.2⟩, fun h => ⟨h.1, h.2⟩⟩
  lenItems_error := by
    intro α min max items e h
    exact ((ensure_eq_error _ _ _).mp h).2.symm
  uniqueByKey_ok := by
    intro α κ _ key items
    rw [← List.nil_append (items.map key), ← firstRepeat_none List.nodup_nil]
    split <;> simp_all
  uniqueByKey_error := by
    intro α κ _ key items e h
    split at h
    · exact absurd h nofun
    · rename_i index hindex
      exact ⟨index, firstRepeat_some List.nodup_nil hindex, (Except.error.inj h).symm⟩
  and_eq _ _ _ := rfl

end Documented

end AxiomCore
