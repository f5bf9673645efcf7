import AxiomCore.Library.Keyed
import AxiomCore.Ty
import AxiomCore.Whittle

/-!
Headers as ordered lists of columns. A header is determined by its column
list, construction accepts exactly the lists that obey the header rule, and a
lookup by name is membership in the list.
-/

namespace AxiomCore

open Checked Refined

/-- The header rule: the length bound, then distinct column names. -/
abbrev HeaderRule (attributes : List Attribute) : Prop :=
  KeyedRule 1 maxSchemaAttributes Attribute.name attributes

inductive SchemaError where
  | cardinality (actual : Nat)
  | duplicateAttribute (index : Nat)
  deriving DecidableEq

namespace Schema

/-- The columns in order. -/
def attributes (s : Schema) : List Attribute :=
  s.header.entries.map fun e => ⟨e.1, e.2⟩

def names (s : Schema) : List AttributeName := s.attributes.map Attribute.name

def cardinality (s : Schema) : Nat := s.header.length

/-- The header with the given columns. -/
def ofAttributes (attributes : List Attribute) (rule : HeaderRule attributes) : Schema :=
  ⟨.ofEntries (attributes.map fun a => (a.name, a.ty))
    { min_le := by simpa using rule.min_le
      le_max := by simpa using rule.le_max
      nodup := by simpa [Function.comp_def] using rule.nodup }⟩

/-- The column with the given name, if there is one. -/
def find (s : Schema) (name : AttributeName) : Option Attribute :=
  Keyed.find Attribute.name s.attributes name

def contains (s : Schema) (name : AttributeName) : Bool := (s.find name).isSome

/-- The type of the column with the given name, if there is one. -/
def lookup (s : Schema) (name : AttributeName) : Option Ty := (s.find name).map Attribute.ty

/-- Check the header rule and wrap. -/
def tryNew [Whittle] (attributes : List Attribute) : Except SchemaError Schema := do
  let kept ← tryKeyed 1 maxSchemaAttributes Attribute.name .cardinality .duplicateAttribute
    attributes
  pure (ofAttributes kept.items kept.rule)

theorem headerRule (s : Schema) : HeaderRule s.attributes where
  min_le := by simpa [attributes] using s.header.min_le
  le_max := by simpa [attributes] using s.header.le_max
  nodup := by simpa [attributes, Function.comp_def] using s.header.keyedRule_entries.nodup

theorem nodup_names (s : Schema) : s.names.Nodup := s.headerRule.nodup

/-- The names of a header are themselves a valid attribute list. -/
theorem keyedRule_names (s : Schema) : KeyedRule 1 maxSchemaAttributes id s.names where
  min_le := by simpa [names] using s.headerRule.min_le
  le_max := by simpa [names] using s.headerRule.le_max
  nodup := by simpa using s.nodup_names

@[simp] theorem length_attributes (s : Schema) : s.attributes.length = s.cardinality := by
  simp [attributes, cardinality]

@[simp] theorem attributes_ofAttributes (attributes : List Attribute)
    (rule : HeaderRule attributes) : (ofAttributes attributes rule).attributes = attributes := by
  simp [Schema.attributes, ofAttributes, Function.comp_def]

/-- A header is its column list. -/
theorem attributes_injective {s t : Schema} (h : s.attributes = t.attributes) : s = t := by
  have hpair : Function.Injective fun e : AttributeName × Ty => (⟨e.1, e.2⟩ : Attribute) := by
    rintro ⟨n, a⟩ ⟨m, b⟩ heq
    simpa using heq
  have hheader : s.header = t.header := KeyedVec.entries_injective (hpair.list_map h)
  cases s
  cases t
  exact congrArg mk hheader

theorem exists_attributes_iff {attributes : List Attribute} :
    (∃ s : Schema, s.attributes = attributes) ↔ HeaderRule attributes := by
  constructor
  · rintro ⟨s, rfl⟩
    exact s.headerRule
  · intro rule
    exact ⟨ofAttributes attributes rule, attributes_ofAttributes attributes rule⟩

/-- A part of a header that has a column is a header. -/
theorem exists_part {s : Schema} {part : List Attribute} (hsub : part.Sublist s.attributes)
    (hpos : 1 ≤ part.length) : ∃ t : Schema, t.attributes = part :=
  exists_attributes_iff.mpr (s.headerRule.sublist hsub hpos)

/-- The columns of a header in another order are a header. -/
theorem exists_of_perm {s : Schema} {columns : List Attribute}
    (hperm : columns.Perm s.attributes) : ∃ t : Schema, t.attributes = columns := by
  have hlength := hperm.length_eq
  have hmin := s.headerRule.min_le
  have hmax := s.headerRule.le_max
  have hnodup := (hperm.map Attribute.name).nodup_iff.mpr s.headerRule.nodup
  exact exists_attributes_iff.mpr ⟨⟨by omega, by omega⟩, hnodup⟩

section Construction

variable [Whittle]

/-- Construction succeeds with exactly the header that has these columns. -/
@[simp] theorem tryNew_eq_ok {attributes : List Attribute} {s : Schema} :
    tryNew attributes = .ok s ↔ s.attributes = attributes := by
  simp only [tryNew, bind_eq_ok, tryKeyed_eq_ok, pure_eq_ok]
  constructor
  · rintro ⟨kept, rfl, rfl⟩
    simp
  · rintro rfl
    exact ⟨⟨s.attributes, s.headerRule⟩, rfl, attributes_injective (by simp)⟩

/-- Construction reports the length first and then the first repeated name. -/
theorem tryNew_eq_error {attributes : List Attribute} {e : SchemaError} :
    tryNew attributes = .error e ↔
      (¬ LengthRule 1 maxSchemaAttributes attributes ∧ e = .cardinality attributes.length) ∨
      (LengthRule 1 maxSchemaAttributes attributes ∧
        ∃ index, FirstRepeat (attributes.map Attribute.name) index ∧
          e = .duplicateAttribute index) := by
  simp [tryNew, tryKeyed_eq_error]

end Construction

section Lookup

variable {s : Schema} {name : AttributeName}

theorem find_eq_some_iff {a : Attribute} :
    s.find name = some a ↔ a ∈ s.attributes ∧ a.name = name :=
  Keyed.find_eq_some_iff s.headerRule.nodup

theorem find_eq_none_iff : s.find name = none ↔ name ∉ s.names :=
  Keyed.find_eq_none_iff

@[simp] theorem contains_iff : s.contains name = true ↔ name ∈ s.names :=
  Keyed.find_isSome_iff

theorem mem_names_of_mem {a : Attribute} (h : a ∈ s.attributes) : a.name ∈ s.names :=
  List.mem_map_of_mem h

theorem eq_of_mem {a b : Attribute} (ha : a ∈ s.attributes) (hb : b ∈ s.attributes)
    (hname : a.name = b.name) : a = b :=
  Keyed.eq_of_mem s.headerRule.nodup ha hb hname

/-- A lookup does not depend on the order of the columns. -/
theorem lookup_eq_some_iff {ty : Ty} : s.lookup name = some ty ↔ ⟨name, ty⟩ ∈ s.attributes := by
  simp only [lookup, Option.map_eq_some_iff, find_eq_some_iff]
  constructor
  · rintro ⟨a, ⟨hmem, rfl⟩, rfl⟩
    exact hmem
  · intro hmem
    exact ⟨⟨name, ty⟩, ⟨hmem, rfl⟩, rfl⟩

theorem lookup_eq_none_iff : s.lookup name = none ↔ name ∉ s.names := by
  simp [lookup, find_eq_none_iff]

theorem mem_names_iff : name ∈ s.names ↔ ∃ ty, ⟨name, ty⟩ ∈ s.attributes := by
  simp only [names, List.mem_map]
  constructor
  · rintro ⟨a, hmem, rfl⟩
    exact ⟨a.ty, hmem⟩
  · rintro ⟨ty, hmem⟩
    exact ⟨⟨name, ty⟩, hmem, rfl⟩

end Lookup

/-- A header that keeps a column of another keeps its lookup. -/
theorem lookup_eq_of_mem {s t : Schema} {name : AttributeName} (hname : name ∈ s.names)
    (hkeep : ∀ a ∈ s.attributes, a.name = name → a ∈ t.attributes) :
    t.lookup name = s.lookup name := by
  obtain ⟨ty, hmem⟩ := mem_names_iff.mp hname
  rw [lookup_eq_some_iff.mpr hmem, lookup_eq_some_iff]
  exact hkeep _ hmem rfl

end Schema

end AxiomCore
