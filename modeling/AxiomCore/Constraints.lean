import Mathlib.Data.String.Basic
import Mathlib.Order.Bounds.Basic
import AxiomCore.FreeNames

/-!
Constraints on the rows of a relation. An attribute constraint is a canonical predicate
that mentions exactly its own attribute, and a constraint set keeps one constraint at
most for each attribute, next to the constraints on whole rows. Both are closed: their
values carry the rules that their constructors check.
-/

namespace AxiomCore

open Checked Refined

theorem AttributeName.text_injective : Function.Injective AttributeName.text := by
  intro a b htext
  cases a
  cases b
  simpa using htext

/-- Names are ordered as their texts. -/
instance : LinearOrder AttributeName :=
  LinearOrder.lift' AttributeName.text AttributeName.text_injective

/-- A predicate on the values of one attribute. -/
structure AttributeConstraint where
  attr : AttributeName
  predicate : CanonicalPredicate
  mentions : predicate.freeAttributes = {attr}

inductive AttributeConstraintError where
  | foreignAttribute (scope foreign : AttributeName)
  | constantPredicate (scope : AttributeName)
  | missingScope (scope : AttributeName)
  deriving DecidableEq

namespace AttributeConstraint

/-- The scope check: the predicate mentions something, it mentions the scope, and in
ascending order it mentions nothing else. -/
def checkScope (attr : AttributeName) (free : Finset AttributeName) :
    Except AttributeConstraintError Unit := do
  ensure (free ≠ ∅) (.constantPredicate attr)
  ensure (attr ∈ free) (.missingScope attr)
  forM (free.sort (· ≤ ·)) fun name => ensure (name = attr) (.foreignAttribute attr name)

theorem checkScope_eq_ok {attr : AttributeName} {free : Finset AttributeName} {u : Unit} :
    checkScope attr free = .ok u ↔ free = {attr} := by
  simp only [checkScope, bind_eq_ok, ensure_eq_ok, forM_eq_ok, Finset.mem_sort, exists_const]
  rw [Finset.eq_singleton_iff_unique_mem]
  constructor
  · intro hchecks
    obtain ⟨-, hscope, honly⟩ := hchecks
    exact ⟨hscope, honly⟩
  · intro hsingleton
    obtain ⟨hscope, honly⟩ := hsingleton
    exact ⟨Finset.ne_empty_of_mem hscope, hscope, honly⟩

/-- A name is the least other one when no other name is below it. -/
theorem isLeast_other_iff {attr foreign : AttributeName} {free : Finset AttributeName} :
    IsLeast {other | other ∈ free ∧ other ≠ attr} foreign ↔
      foreign ∈ free ∧ foreign ≠ attr ∧ ∀ name ∈ free, name < foreign → name = attr := by
  constructor
  · intro hleast
    obtain ⟨⟨hmem, hother⟩, hbelow⟩ := hleast
    refine ⟨hmem, hother, ?_⟩
    intro name hname hless
    by_contra hdiffer
    have hle : foreign ≤ name := hbelow ⟨hname, hdiffer⟩
    exact absurd hless (not_lt.mpr hle)
  · intro hfirst
    obtain ⟨hmem, hother, hbefore⟩ := hfirst
    refine ⟨⟨hmem, hother⟩, ?_⟩
    intro name hname
    by_contra hle
    exact hname.2 (hbefore name hname.1 (not_le.mp hle))

/-- The first fault of the scope check; a foreign name is the least one. -/
theorem checkScope_eq_error {attr : AttributeName} {free : Finset AttributeName}
    {e : AttributeConstraintError} :
    checkScope attr free = .error e ↔
      (free = ∅ ∧ e = .constantPredicate attr) ∨
      (free ≠ ∅ ∧ attr ∉ free ∧ e = .missingScope attr) ∨
      (attr ∈ free ∧ ∃ foreign, IsLeast {other | other ∈ free ∧ other ≠ attr} foreign ∧
        e = .foreignAttribute attr foreign) := by
  simp only [checkScope, bind_eq_error, ensure_eq_error, ensure_eq_ok, forM_sort_eq_error,
    isLeast_other_iff]
  constructor
  · intro hfail
    rcases hfail with ⟨hempty, rfl⟩ | ⟨-, hnonempty, hscope⟩
    · exact Or.inl ⟨not_not.mp hempty, rfl⟩
    · rcases hscope with ⟨hmissing, rfl⟩ | ⟨-, hscope, foreign, hmem, ⟨hother, rfl⟩, hbefore⟩
      · exact Or.inr (Or.inl ⟨hnonempty, hmissing, rfl⟩)
      · exact Or.inr (Or.inr ⟨hscope, foreign, ⟨hmem, hother, hbefore⟩, rfl⟩)
  · intro hfault
    rcases hfault with ⟨hempty, rfl⟩ | ⟨hnonempty, hmissing, rfl⟩ | ⟨hscope, foreign, hleast, rfl⟩
    · exact Or.inl ⟨not_not.mpr hempty, rfl⟩
    · exact Or.inr ⟨(), hnonempty, Or.inl ⟨hmissing, rfl⟩⟩
    · obtain ⟨hmem, hother, hbefore⟩ := hleast
      have hnonempty : free ≠ ∅ := Finset.ne_empty_of_mem hscope
      exact Or.inr ⟨(), hnonempty, Or.inr ⟨(), hscope, foreign, hmem, ⟨hother, rfl⟩, hbefore⟩⟩

/-- Build a constraint whose predicate mentions exactly its attribute. -/
def tryNew (attr : AttributeName) (predicate : CanonicalPredicate) :
    Except AttributeConstraintError AttributeConstraint :=
  match hscope : checkScope attr predicate.freeAttributes with
  | .error e => .error e
  | .ok () => .ok ⟨attr, predicate, checkScope_eq_ok.mp hscope⟩

theorem tryNew_eq_ok {attr : AttributeName} {predicate : CanonicalPredicate}
    {c : AttributeConstraint} :
    tryNew attr predicate = .ok c ↔ c.attr = attr ∧ c.predicate = predicate := by
  unfold tryNew
  split
  · rename_i e hscope
    simp only [reduceCtorEq, false_iff]
    rintro ⟨rfl, rfl⟩
    rw [(checkScope_eq_ok (u := ())).mpr c.mentions] at hscope
    simp at hscope
  · obtain ⟨attr', predicate', hmentions⟩ := c
    simp [eq_comm]

theorem tryNew_eq_error {attr : AttributeName} {predicate : CanonicalPredicate}
    {e : AttributeConstraintError} :
    tryNew attr predicate = .error e ↔ checkScope attr predicate.freeAttributes = .error e := by
  unfold tryNew
  split
  · rename_i e' hscope
    simp [hscope]
  · rename_i hscope
    simp [hscope]

section Verdicts

variable {attr : AttributeName} {predicate : CanonicalPredicate}

theorem exists_tryNew_ok_iff :
    (∃ c, tryNew attr predicate = .ok c) ↔ predicate.freeAttributes = {attr} := by
  simp only [tryNew_eq_ok]
  constructor
  · intro haccepted
    obtain ⟨c, rfl, rfl⟩ := haccepted
    exact c.mentions
  · intro hmentions
    exact ⟨⟨attr, predicate, hmentions⟩, rfl, rfl⟩

theorem tryNew_constant_iff :
    tryNew attr predicate = .error (.constantPredicate attr) ↔
      predicate.freeAttributes = ∅ := by
  simp [tryNew_eq_error, checkScope_eq_error]

theorem tryNew_missing_iff :
    tryNew attr predicate = .error (.missingScope attr) ↔
      predicate.freeAttributes ≠ ∅ ∧ attr ∉ predicate.freeAttributes := by
  simp [tryNew_eq_error, checkScope_eq_error]

theorem tryNew_foreign_iff {foreign : AttributeName} :
    tryNew attr predicate = .error (.foreignAttribute attr foreign) ↔
      attr ∈ predicate.freeAttributes ∧
        IsLeast {other | other ∈ predicate.freeAttributes ∧ other ≠ attr} foreign := by
  simp [tryNew_eq_error, checkScope_eq_error]

/-- A set of names with another name has a least other name. -/
theorem exists_isLeast_other {free : Finset AttributeName}
    (hother : ∃ other ∈ free, other ≠ attr) :
    ∃ foreign, IsLeast {other | other ∈ free ∧ other ≠ attr} foreign := by
  obtain ⟨other, hmem, hdiffer⟩ := hother
  have hnonempty : (free.erase attr).Nonempty :=
    ⟨other, Finset.mem_erase.mpr ⟨hdiffer, hmem⟩⟩
  have hset : {other | other ∈ free ∧ other ≠ attr} = (free.erase attr : Set AttributeName) := by
    ext name
    simp [and_comm]
  rw [hset]
  exact ⟨_, (free.erase attr).isLeast_min' hnonempty⟩

end Verdicts

end AttributeConstraint

/-- An accepted predicate mentions the names of the leaves of its expression. -/
theorem CanonicalPredicate.freeAttributes_eq_leaves {s : Schema} {e : Expression}
    {p : CanonicalPredicate} (hp : tryNew s e = .ok p) :
    p.freeAttributes = e.attributeLeaves.toFinset := by
  obtain ⟨hagg, -, rfl⟩ := tryNew_eq_ok.mp hp
  ext name
  rw [List.mem_toFinset]
  exact Expression.mem_freeAttrs_iff_mem_leaves hagg

/-- An accepted predicate mentions only columns of the header it was checked over. -/
theorem CanonicalPredicate.leaves_subset_names {s : Schema} {e : Expression}
    {p : CanonicalPredicate} (hp : tryNew s e = .ok p) :
    ∀ name ∈ e.attributeLeaves, name ∈ s.names := by
  obtain ⟨hagg, hty, -⟩ := tryNew_eq_ok.mp hp
  intro name hname
  exact freeAttrs_subset_names hagg hty name
    ((Expression.mem_freeAttrs_iff_mem_leaves hagg).mpr hname)

/-- A predicate on whole rows. -/
structure RowConstraint where
  predicate : CanonicalPredicate

inductive ConstraintSetError where
  | perAttributeLength (source : CollectionError)
  | perAttributeDuplicate (source : CollectionError)
  | perRow (source : CollectionError)
  deriving DecidableEq

/-- The constraints of a relation. -/
structure ConstraintSet where
  perAttr : KeyedList AttributeConstraint AttributeName 0 maxSchemaAttributes
    AttributeConstraint.attr
  perRow : BoundedVec RowConstraint 0 maxSchemaAttributes

namespace ConstraintSet

/-- Check the attribute constraints, their number before their scopes, and then the
number of row constraints. -/
def tryNew [Whittle] (perAttr : List AttributeConstraint) (perRow : List RowConstraint) :
    Except ConstraintSetError ConstraintSet := do
  let perAttr ← tryKeyed 0 maxSchemaAttributes AttributeConstraint.attr
    (fun actual => .perAttributeLength (.lenOutOfRange actual))
    (fun index => .perAttributeDuplicate (.duplicateKey index)) perAttr
  let perRow ← tryBounded 0 maxSchemaAttributes (fun actual => .perRow (.lenOutOfRange actual))
    perRow
  pure ⟨perAttr, perRow⟩

def perAttribute (set : ConstraintSet) : List AttributeConstraint := set.perAttr.items

/-- No constraints. -/
def empty : ConstraintSet := ⟨⟨[], by decide⟩, .ofList [] (by decide)⟩

section Construction

variable [Whittle] {perAttr : List AttributeConstraint} {perRow : List RowConstraint}

theorem tryNew_eq_ok {set : ConstraintSet} :
    tryNew perAttr perRow = .ok set ↔
      set.perAttr.items = perAttr ∧ set.perRow.toList = perRow := by
  simp only [tryNew, bind_eq_ok, tryKeyed_eq_ok, tryBounded_eq_ok, pure_eq_ok]
  constructor
  · intro hkept
    obtain ⟨keptAttr, rfl, keptRow, rfl, rfl⟩ := hkept
    exact ⟨rfl, rfl⟩
  · intro hlists
    obtain ⟨rfl, rfl⟩ := hlists
    exact ⟨_, rfl, _, rfl, rfl⟩

theorem tryNew_eq_error {e : ConstraintSetError} :
    tryNew perAttr perRow = .error e ↔
      (maxSchemaAttributes < perAttr.length ∧
        e = .perAttributeLength (.lenOutOfRange perAttr.length)) ∨
      (perAttr.length ≤ maxSchemaAttributes ∧
        ∃ index, FirstRepeat (perAttr.map AttributeConstraint.attr) index ∧
          e = .perAttributeDuplicate (.duplicateKey index)) ∨
      (perAttr.length ≤ maxSchemaAttributes ∧ (perAttr.map AttributeConstraint.attr).Nodup ∧
        maxSchemaAttributes < perRow.length ∧ e = .perRow (.lenOutOfRange perRow.length)) := by
  have hbound : ∀ {α : Type} (items : List α),
      LengthRule 0 maxSchemaAttributes items ↔ items.length ≤ maxSchemaAttributes :=
    fun items => ⟨fun rule => rule.le_max, fun hle => ⟨Nat.zero_le _, hle⟩⟩
  have hkept : (∃ kept : KeyedList AttributeConstraint AttributeName 0 maxSchemaAttributes
        AttributeConstraint.attr, kept.items = perAttr) ↔
      perAttr.length ≤ maxSchemaAttributes ∧ (perAttr.map AttributeConstraint.attr).Nodup := by
    constructor
    · intro hkept
      obtain ⟨kept, rfl⟩ := hkept
      exact ⟨kept.rule.le_max, kept.rule.nodup⟩
    · intro hbounds
      obtain ⟨hle, hnodup⟩ := hbounds
      exact ⟨⟨perAttr, ⟨Nat.zero_le _, hle⟩, hnodup⟩, rfl⟩
  simp only [tryNew, bind_eq_error, tryKeyed_eq_error, tryBounded_eq_error, tryKeyed_eq_ok,
    hbound, not_le, pure_ne_error, and_false, exists_false, or_false, exists_and_right, hkept,
    or_assoc, and_assoc]

/-- No constraints always make a set. -/
theorem tryNew_nil : tryNew [] [] = .ok empty :=
  tryNew_eq_ok.mpr ⟨rfl, by simp [empty]⟩

end Construction

end ConstraintSet

/-- Which names a canonical predicate mentions and which attribute constraints it makes,
and what a constraint set holds or reports. A predicate mentions the names of the
attribute leaves of its expression, all of them columns of the header it was checked
over. It is a constraint on an attribute when it mentions that attribute and nothing
else; otherwise it is constant, or misses the attribute, or mentions others too, and then
the least of them is reported. -/
theorem constraints_scoped [Whittle] :
    (∀ (s : Schema) (e : Expression) (p : CanonicalPredicate),
      CanonicalPredicate.tryNew s e = .ok p →
        p.freeAttributes = e.attributeLeaves.toFinset ∧
        (∀ name ∈ e.attributeLeaves, name ∈ s.names) ∧
        ∀ a : AttributeName,
          ((∃ c, AttributeConstraint.tryNew a p = .ok c) ↔ e.attributeLeaves.toFinset = {a}) ∧
          (AttributeConstraint.tryNew a p = .error (.constantPredicate a) ↔
            e.attributeLeaves.toFinset = ∅) ∧
          (AttributeConstraint.tryNew a p = .error (.missingScope a) ↔
            e.attributeLeaves.toFinset ≠ ∅ ∧ a ∉ e.attributeLeaves) ∧
          ((∃ foreign, AttributeConstraint.tryNew a p = .error (.foreignAttribute a foreign)) ↔
            a ∈ e.attributeLeaves ∧ ∃ other ∈ e.attributeLeaves, other ≠ a) ∧
          ∀ foreign, AttributeConstraint.tryNew a p = .error (.foreignAttribute a foreign) →
            IsLeast {other | other ∈ e.attributeLeaves ∧ other ≠ a} foreign) ∧
    (∀ (perAttr : List AttributeConstraint) (perRow : List RowConstraint) (set : ConstraintSet),
      ConstraintSet.tryNew perAttr perRow = .ok set →
        set.perAttribute = perAttr ∧ set.perRow.toList = perRow ∧ perAttr.length ≤ 256 ∧
        (perAttr.map AttributeConstraint.attr).Nodup ∧
        (∀ c ∈ perAttr, c.predicate.freeAttributes = {c.attr}) ∧ perRow.length ≤ 256) ∧
    ∀ (perAttr : List AttributeConstraint) (perRow : List RowConstraint) (e : ConstraintSetError),
      ConstraintSet.tryNew perAttr perRow = .error e ↔
        (256 < perAttr.length ∧ e = .perAttributeLength (.lenOutOfRange perAttr.length)) ∨
        (perAttr.length ≤ 256 ∧
          ∃ index, FirstRepeat (perAttr.map AttributeConstraint.attr) index ∧
            e = .perAttributeDuplicate (.duplicateKey index)) ∨
        (perAttr.length ≤ 256 ∧ (perAttr.map AttributeConstraint.attr).Nodup ∧
          256 < perRow.length ∧ e = .perRow (.lenOutOfRange perRow.length)) := by
  refine ⟨?_, ?_, ?_⟩
  · intro s e p hp
    have hfree := CanonicalPredicate.freeAttributes_eq_leaves hp
    have hmem : ∀ name, name ∈ p.freeAttributes ↔ name ∈ e.attributeLeaves := by
      intro name
      rw [hfree, List.mem_toFinset]
    refine ⟨hfree, CanonicalPredicate.leaves_subset_names hp, ?_⟩
    intro a
    simp only [AttributeConstraint.exists_tryNew_ok_iff, AttributeConstraint.tryNew_constant_iff,
      AttributeConstraint.tryNew_missing_iff, AttributeConstraint.tryNew_foreign_iff, hmem]
    refine ⟨by rw [hfree], by rw [hfree], by rw [hfree], ?_, ?_⟩
    · constructor
      · intro hforeign
        obtain ⟨foreign, hscope, ⟨hforeign, hdiffer⟩, -⟩ := hforeign
        exact ⟨hscope, foreign, hforeign, hdiffer⟩
      · intro hnames
        obtain ⟨hscope, hother⟩ := hnames
        simp only [← hmem] at hother
        obtain ⟨foreign, hleast⟩ := AttributeConstraint.exists_isLeast_other hother
        simp only [hmem] at hleast
        exact ⟨foreign, hscope, hleast⟩
    · rintro foreign ⟨-, hleast⟩
      exact hleast
  · intro perAttr perRow set hset
    obtain ⟨rfl, rfl⟩ := ConstraintSet.tryNew_eq_ok.mp hset
    have hrule := set.perAttr.rule
    have hrows := set.perRow.lengthRule_toList
    exact ⟨rfl, rfl, hrule.le_max, hrule.nodup, fun c _ => c.mentions, hrows.le_max⟩
  · intro perAttr perRow e
    exact ConstraintSet.tryNew_eq_error

/-- The id of the users is seven: a constraint on the id, but not on the name. -/
theorem constraints_scoped_users :
    ∃ p c set, CanonicalPredicate.tryNew Catalogue.users.schema Catalogue.idIsSeven = .ok p ∧
      AttributeConstraint.tryNew Catalogue.id p = .ok c ∧
      AttributeConstraint.tryNew Catalogue.name p = .error (.missingScope Catalogue.name) ∧
      ConstraintSet.tryNew [c] [] = .ok set ∧ (∀ c ∈ set.perAttribute, c.predicate = p) := by
  obtain ⟨hpredicates, hsets, -⟩ := constraints_scoped
  obtain ⟨p, hp⟩ : ∃ p, CanonicalPredicate.tryNew Catalogue.users.schema Catalogue.idIsSeven =
      .ok p := ⟨_, rfl⟩
  obtain ⟨-, -, hverdicts⟩ := hpredicates _ _ p hp
  have hleaves : Catalogue.idIsSeven.attributeLeaves = [Catalogue.id] := rfl
  obtain ⟨c, hc⟩ := (hverdicts Catalogue.id).1.mpr (by simp [hleaves])
  have hmissing := (hverdicts Catalogue.name).2.2.1.mpr (by rw [hleaves]; decide)
  obtain ⟨set, hset⟩ : ∃ set, ConstraintSet.tryNew [c] [] = .ok set := ⟨_, rfl⟩
  obtain ⟨hitems, -⟩ := hsets _ _ set hset
  refine ⟨p, c, set, hp, hc, hmissing, hset, ?_⟩
  intro kept hkept
  rw [hitems, List.mem_singleton] at hkept
  rw [hkept]
  exact (AttributeConstraint.tryNew_eq_ok.mp hc).2

end AxiomCore
