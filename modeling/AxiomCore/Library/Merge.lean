import Mathlib.Data.Finset.Dedup
import Mathlib.Data.Finset.Card
import Mathlib.Data.List.Perm.Subperm
import AxiomCore.Library.Keyed

/-!
Merging keyed lists: the items of one list, followed by those items of another
whose keys the first does not have. Two lists agree when items with one key are
one item. Over lists that agree merging is the union of two finite maps, so it
is associative, idempotent and, up to the order of the items, commutative.
-/

namespace Keyed

variable {α κ : Type} [DecidableEq κ] (key : α → κ)

/-- The items of `left`, then those of `right` whose key `left` does not
have. -/
def merge (left right : List α) : List α :=
  left ++ right.filter fun b => key b ∉ left.map key

omit [DecidableEq κ] in
/-- Items with one key are one item. -/
def Agree (left right : List α) : Prop :=
  ∀ a ∈ left, ∀ b ∈ right, key a = key b → a = b

variable {key}

section Merge

variable {left right : List α}

theorem merge_of_disjoint (h : ∀ k ∈ left.map key, k ∉ right.map key) :
    merge key left right = left ++ right := by
  have hkept : right.filter (fun b => key b ∉ left.map key) = right := by
    apply List.filter_eq_self.mpr
    intro b hb
    have hright : key b ∈ right.map key := List.mem_map_of_mem hb
    have hleft : key b ∉ left.map key := fun hmem => h _ hmem hright
    exact decide_eq_true hleft
  rw [merge, hkept]

theorem merge_of_subset (h : ∀ b ∈ right, key b ∈ left.map key) :
    merge key left right = left := by
  have hnone : right.filter (fun b => key b ∉ left.map key) = [] := by
    apply List.filter_eq_nil_iff.mpr
    intro b hb
    simpa using h b hb
  rw [merge, hnone, List.append_nil]

@[simp] theorem merge_self : merge key left left = left :=
  merge_of_subset fun _ hb => List.mem_map_of_mem hb

theorem map_key_merge :
    (merge key left right).map key =
      left.map key ++ (right.map key).filter (· ∉ left.map key) := by
  rw [merge, List.map_append, List.filter_map]
  rfl

theorem mem_keys_merge {k : κ} :
    k ∈ (merge key left right).map key ↔ k ∈ left.map key ∨ k ∈ right.map key := by
  rw [map_key_merge, List.mem_append, List.mem_filter, decide_eq_true_iff]
  tauto

theorem merge_assoc (a b c : List α) :
    merge key (merge key a b) c = merge key a (merge key b c) := by
  have hrest : c.filter (fun x => key x ∉ (merge key a b).map key) =
      (c.filter fun x => key x ∉ b.map key).filter fun x => key x ∉ a.map key := by
    rw [List.filter_filter]
    apply List.filter_congr
    intro x _
    rw [← Bool.decide_and, decide_eq_decide, mem_keys_merge]
    tauto
  calc merge key (merge key a b) c
      = merge key a b ++ c.filter (fun x => key x ∉ (merge key a b).map key) := rfl
    _ = a ++ (b.filter (fun x => key x ∉ a.map key) ++
          (c.filter fun x => key x ∉ b.map key).filter fun x => key x ∉ a.map key) := by
        rw [hrest, merge, List.append_assoc]
    _ = merge key a (merge key b c) := by rw [← List.filter_append, ← merge, ← merge]

theorem nodup_merge (hleft : (left.map key).Nodup) (hright : (right.map key).Nodup) :
    ((merge key left right).map key).Nodup := by
  rw [map_key_merge, List.nodup_append']
  refine ⟨hleft, hright.filter _, ?_⟩
  intro k hk hkept
  have habsent : k ∉ left.map key := by simpa using (List.mem_filter.mp hkept).2
  exact habsent hk

/-- The merged list is as long as its sides have keys together. -/
theorem length_merge (hleft : (left.map key).Nodup) (hright : (right.map key).Nodup) :
    (merge key left right).length =
      ((left.map key).toFinset ∪ (right.map key).toFinset).card := by
  have hkeys : ((merge key left right).map key).toFinset =
      (left.map key).toFinset ∪ (right.map key).toFinset := by
    ext k
    rw [List.mem_toFinset, mem_keys_merge, Finset.mem_union, List.mem_toFinset, List.mem_toFinset]
  rw [← hkeys, List.toFinset_card_of_nodup (nodup_merge hleft hright), List.length_map]

theorem length_le_merge_left : left.length ≤ (merge key left right).length := by
  rw [merge, List.length_append]
  exact Nat.le_add_right _ _

theorem length_le_merge_right (hright : (right.map key).Nodup) :
    right.length ≤ (merge key left right).length := by
  have hsubset : right.map key ⊆ (merge key left right).map key := by
    intro k hk
    exact mem_keys_merge.mpr (Or.inr hk)
  simpa using hright.length_le_of_subset hsubset

end Merge

section Agree

variable {left right : List α}

omit [DecidableEq κ] in
theorem Agree.symm (h : Agree key left right) : Agree key right left :=
  fun b hb a ha hkey => (h a ha b hb hkey.symm).symm

/-- Over lists that agree, merging is the union. -/
theorem mem_merge (h : Agree key left right) {a : α} :
    a ∈ merge key left right ↔ a ∈ left ∨ a ∈ right := by
  rw [merge, List.mem_append, List.mem_filter, decide_eq_true_iff]
  constructor
  · rintro (ha | ⟨ha, -⟩)
    · exact Or.inl ha
    · exact Or.inr ha
  · rintro (ha | ha)
    · exact Or.inl ha
    · by_cases hshared : key a ∈ left.map key
      · obtain ⟨b, hb, hkey⟩ := List.mem_map.mp hshared
        obtain rfl := h b hb a ha hkey
        exact Or.inl hb
      · exact Or.inr ⟨ha, hshared⟩

theorem merge_perm (h : Agree key left right) (hleft : (left.map key).Nodup)
    (hright : (right.map key).Nodup) :
    (merge key left right).Perm (merge key right left) := by
  apply (List.perm_ext_iff_of_nodup (nodup_merge hleft hright).of_map
    (nodup_merge hright hleft).of_map).mpr
  intro a
  rw [mem_merge h, mem_merge h.symm, or_comm]

theorem agree_merge_left {a b c : List α} (h : Agree key a b) :
    Agree key (merge key a b) c ↔ Agree key a c ∧ Agree key b c := by
  constructor
  · intro hmerged
    constructor
    · intro x hx
      exact hmerged x ((mem_merge h).mpr (Or.inl hx))
    · intro x hx
      exact hmerged x ((mem_merge h).mpr (Or.inr hx))
  · rintro ⟨ha, hb⟩ x hx
    exact ((mem_merge h).mp hx).elim (ha x) (hb x)

/-- Three lists agree pairwise, in whichever order they are merged. -/
theorem agree_assoc {a b c : List α} :
    Agree key a b ∧ Agree key (merge key a b) c ↔
      Agree key b c ∧ Agree key a (merge key b c) := by
  constructor
  · rintro ⟨hab, habc⟩
    obtain ⟨hac, hbc⟩ := (agree_merge_left hab).mp habc
    have hmerged := (agree_merge_left hbc).mpr ⟨hab.symm, hac.symm⟩
    exact ⟨hbc, hmerged.symm⟩
  · rintro ⟨hbc, habc⟩
    obtain ⟨hba, hca⟩ := (agree_merge_left hbc).mp habc.symm
    exact ⟨hba.symm, (agree_merge_left hba.symm).mpr ⟨hca.symm, hbc⟩⟩

end Agree

end Keyed
