import Mathlib.Data.List.OfFn
import Mathlib.Data.List.FinRange
import Mathlib.Data.List.Nodup

/-!
Lists refined by a length bound and by distinct keys. `KeyedList` is the plain
carrier. `BoundedVec` and `KeyedVec` are carriers in which no field's type
mentions an element, so that an inductive type can nest itself inside them and
still carry the bound and the distinctness of its keys in every value.
-/

namespace Refined

variable {α κ : Type} {min max : Nat}

/-- The number of items lies between two bounds, both inclusive. -/
structure LengthRule (min max : Nat) (items : List α) : Prop where
  min_le : min ≤ items.length
  le_max : items.length ≤ max

/-- A length bound together with pairwise distinct keys. -/
structure KeyedRule (min max : Nat) (key : α → κ) (items : List α) : Prop
    extends LengthRule min max items where
  nodup : (items.map key).Nodup

instance (items : List α) : Decidable (LengthRule min max items) :=
  decidable_of_iff (min ≤ items.length ∧ items.length ≤ max)
    ⟨fun h => ⟨h.1, h.2⟩, fun h => ⟨h.min_le, h.le_max⟩⟩

instance [DecidableEq κ] (key : α → κ) (items : List α) :
    Decidable (KeyedRule min max key items) :=
  decidable_of_iff (LengthRule min max items ∧ (items.map key).Nodup)
    ⟨fun h => ⟨h.1, h.2⟩, fun h => ⟨h.toLengthRule, h.nodup⟩⟩

/-- Dropping items keeps the upper bound and the distinct keys. -/
theorem KeyedRule.sublist {key : α → κ} {items kept : List α} (rule : KeyedRule min max key items)
    (hsub : kept.Sublist items) (hmin : min ≤ kept.length) : KeyedRule min max key kept where
  min_le := hmin
  le_max := hsub.length_le.trans rule.le_max
  nodup := rule.nodup.sublist (hsub.map key)

/-- A list that satisfies its rule. -/
structure KeyedList (α κ : Type) (min max : Nat) (key : α → κ) where
  items : List α
  rule : KeyedRule min max key items

/-- A vector of bounded length. -/
structure BoundedVec (α : Type) (min max : Nat) where
  length : Nat
  min_le : min ≤ length
  le_max : length ≤ max
  get : Fin length → α

/-- The list with every item changed, when the keys change injectively with the items. -/
def KeyedList.map {β κ' : Type} {key : α → κ} {key' : β → κ'} (f : α → β) {g : κ → κ'}
    (hinjective : Function.Injective g) (hkey : ∀ a, key' (f a) = g (key a))
    (list : KeyedList α κ min max key) : KeyedList β κ' min max key' where
  items := list.items.map f
  rule :=
    { min_le := by simpa using list.rule.min_le
      le_max := by simpa using list.rule.le_max
      nodup := by
        have hkeys : (list.items.map f).map key' = (list.items.map key).map g := by
          simp [hkey]
        rw [hkeys]
        exact list.rule.nodup.map hinjective }

@[simp] theorem KeyedList.items_map {β κ' : Type} {key : α → κ} {key' : β → κ'} {f : α → β}
    {g : κ → κ'} (hinjective : Function.Injective g) (hkey : ∀ a, key' (f a) = g (key a))
    (list : KeyedList α κ min max key) : (list.map f hinjective hkey).items = list.items.map f :=
  rfl

/-- A vector of bounded length whose entries have pairwise distinct keys. -/
structure KeyedVec (κ α : Type) (min max : Nat) where
  length : Nat
  min_le : min ≤ length
  le_max : length ≤ max
  key : Fin length → κ
  key_injective : Function.Injective key
  get : Fin length → α

namespace BoundedVec

def toList (v : BoundedVec α min max) : List α := List.ofFn v.get

def ofList (items : List α) (rule : LengthRule min max items) : BoundedVec α min max where
  length := items.length
  min_le := rule.min_le
  le_max := rule.le_max
  get := items.get

@[simp] theorem toList_ofList (items : List α) (rule : LengthRule min max items) :
    (ofList items rule).toList = items :=
  List.ofFn_get items

@[simp] theorem length_toList (v : BoundedVec α min max) : v.toList.length = v.length :=
  List.length_ofFn

theorem lengthRule_toList (v : BoundedVec α min max) : LengthRule min max v.toList where
  min_le := by simpa using v.min_le
  le_max := by simpa using v.le_max

theorem forall_mem_toList {v : BoundedVec α min max} {P : α → Prop} :
    (∀ a ∈ v.toList, P a) ↔ ∀ i, P (v.get i) := by
  simp [toList, List.mem_ofFn]

/-- The items with their indices. -/
theorem zipIdx_toList (v : BoundedVec α min max) :
    v.toList.zipIdx = (List.finRange v.length).map fun i => (v.get i, i.val) := by
  apply List.ext_getElem
  · simp
  · intro i hi hj
    simp [toList]

/-- A vector that cannot be empty has a first item. -/
theorem toList_eq_cons (v : BoundedVec α 1 max) :
    v.toList = v.get ⟨0, v.min_le⟩ :: v.toList.tail := by
  obtain ⟨n, hmin, hmax, f⟩ := v
  cases n with
  | zero => simp at hmin
  | succ n => simp [toList, List.ofFn_succ]

theorem toList_injective {v w : BoundedVec α min max} (h : v.toList = w.toList) : v = w := by
  obtain ⟨n, _, _, f⟩ := v
  obtain ⟨m, _, _, g⟩ := w
  have hlen : n = m := by simpa [toList] using congrArg List.length h
  subst hlen
  have hget : f = g := List.ofFn_injective h
  subst hget
  rfl

end BoundedVec

namespace KeyedVec

def entries (v : KeyedVec κ α min max) : List (κ × α) :=
  List.ofFn fun i => (v.key i, v.get i)

def ofEntries (entries : List (κ × α)) (rule : KeyedRule min max Prod.fst entries) :
    KeyedVec κ α min max where
  length := entries.length
  min_le := rule.min_le
  le_max := rule.le_max
  key i := entries[i].1
  key_injective := by
    intro i j hkey
    have hij : (⟨i, by simp⟩ : Fin (entries.map Prod.fst).length) = ⟨j, by simp⟩ :=
      List.nodup_iff_injective_get.mp rule.nodup (by simpa using hkey)
    exact Fin.ext (Fin.mk.inj hij)
  get i := entries[i].2

@[simp] theorem entries_ofEntries (entries : List (κ × α))
    (rule : KeyedRule min max Prod.fst entries) : (ofEntries entries rule).entries = entries :=
  List.ofFn_get entries

@[simp] theorem length_entries (v : KeyedVec κ α min max) : v.entries.length = v.length :=
  List.length_ofFn

theorem keyedRule_entries (v : KeyedVec κ α min max) :
    KeyedRule min max Prod.fst v.entries where
  min_le := by simpa using v.min_le
  le_max := by simpa using v.le_max
  nodup := by
    have hmap : v.entries.map Prod.fst = List.ofFn v.key := by
      simp [entries, List.map_ofFn, Function.comp_def]
    rw [hmap]
    exact List.nodup_ofFn.mpr v.key_injective

theorem entries_injective {v w : KeyedVec κ α min max} (h : v.entries = w.entries) : v = w := by
  obtain ⟨n, _, _, keys, _, f⟩ := v
  obtain ⟨m, _, _, keys', _, g⟩ := w
  have hlen : n = m := by simpa [entries] using congrArg List.length h
  subst hlen
  have hpairs : (fun i => (keys i, f i)) = fun i => (keys' i, g i) := List.ofFn_injective h
  have hkeys : keys = keys' := funext fun i => congrArg Prod.fst (congrFun hpairs i)
  have hget : f = g := funext fun i => congrArg Prod.snd (congrFun hpairs i)
  subst hkeys hget
  rfl

/-- The vector with every entry changed, the keys injectively. -/
theorem entries_map {κ' β : Type} {g : κ → κ'} {f : α → β} (hinjective : Function.Injective g)
    (v : KeyedVec κ α min max) :
    (⟨v.length, v.min_le, v.le_max, g ∘ v.key, hinjective.comp v.key_injective, f ∘ v.get⟩ :
      KeyedVec κ' β min max).entries = v.entries.map (Prod.map g f) := by
  simp [entries, List.map_ofFn, Function.comp_def]

end KeyedVec

end Refined
