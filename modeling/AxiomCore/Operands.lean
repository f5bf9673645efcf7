import AxiomCore.Predicate
import AxiomCore.Whittle

/-!
What the operators take besides their inputs: attribute sets, aggregate lists,
order keys, equi-join pairs and paths. Each list carries its length bound and
the distinctness of its keys.
-/

namespace AxiomCore

open Refined

inductive JoinKind where
  | inner
  | leftOuter
  | rightOuter
  | fullOuter
  deriving DecidableEq

/-- The columns of a projection or of a nest. -/
abbrev AttributeSet : Type :=
  KeyedList AttributeName AttributeName 1 maxSchemaAttributes id

inductive AttributeSetError where
  | attributeCount (actual : Nat)
  | duplicateAttribute (index : Nat)
  deriving DecidableEq

def AttributeSet.tryNew [Whittle] (attrs : List AttributeName) :
    Except AttributeSetError AttributeSet :=
  tryKeyed 1 maxSchemaAttributes id .attributeCount .duplicateAttribute attrs

/-- The grouping columns of a summary; none for a grand total. -/
abbrev GroupingSet : Type :=
  KeyedList AttributeName AttributeName 0 maxSchemaAttributes id

inductive GroupingSetError where
  | groupCount (actual : Nat)
  | duplicateAttribute (index : Nat)
  deriving DecidableEq

def GroupingSet.tryNew [Whittle] (keys : List AttributeName) :
    Except GroupingSetError GroupingSet :=
  tryKeyed 0 maxSchemaAttributes id .groupCount .duplicateAttribute keys

/-- The aggregates of a summary, with distinct output names. -/
abbrev NamedAggSet : Type :=
  KeyedList NamedAgg AttributeName 1 maxSchemaAttributes NamedAgg.name

inductive NamedAggSetError where
  | aggregateCount (actual : Nat)
  | duplicateOutputName (index : Nat)
  deriving DecidableEq

def NamedAggSet.tryNew [Whittle] (aggs : List NamedAgg) : Except NamedAggSetError NamedAggSet :=
  tryKeyed 1 maxSchemaAttributes NamedAgg.name .aggregateCount .duplicateOutputName aggs

inductive Direction where
  | ascending
  | descending
  deriving DecidableEq

inductive NullOrder where
  | nullsFirst
  | nullsLast
  deriving DecidableEq

structure OrderKey where
  attr : AttributeName
  direction : Direction
  nulls : NullOrder
  deriving DecidableEq

/-- The keys of a sort, with distinct columns. -/
abbrev OrderKeys : Type :=
  KeyedList OrderKey AttributeName 1 maxSchemaAttributes OrderKey.attr

inductive OrderKeysError where
  | keyCount (actual : Nat)
  | duplicateKey (index : Nat)
  deriving DecidableEq

def OrderKeys.tryNew [Whittle] (keys : List OrderKey) : Except OrderKeysError OrderKeys :=
  tryKeyed 1 maxSchemaAttributes OrderKey.attr .keyCount .duplicateKey keys

/-- A left and a right column to be equated. -/
structure EquiPair where
  left : AttributeName
  right : AttributeName
  deriving DecidableEq

/-- The pairs of an equi-join, with distinct left columns. -/
abbrev EquiPairs : Type :=
  KeyedList EquiPair AttributeName 1 maxSchemaAttributes EquiPair.left

inductive EquiPairsError where
  | pairCount (actual : Nat)
  | duplicateLeftAttribute (index : Nat)
  deriving DecidableEq

def EquiPairs.tryNew [Whittle] (pairs : List EquiPair) : Except EquiPairsError EquiPairs :=
  tryKeyed 1 maxSchemaAttributes EquiPair.left .pairCount .duplicateLeftAttribute pairs

/-- How a join equates rows. -/
inductive JoinOn where
  | natural
  | equi (pairs : EquiPairs)
  | theta (predicate : Predicate)

inductive PathStep where
  | field (name : AttributeName)
  | index (i : BoundedIndex)
  | each
  deriving DecidableEq

/-- A path that focuses one position: no `each` step. -/
structure LensPath where
  steps : List PathStep
  len_items : steps.length ≤ maxPathSteps
  no_each : .each ∉ steps
  deriving DecidableEq

/-- A path that focuses every element of a collection: some `each` step. -/
structure TraversalPath where
  steps : List PathStep
  len_items : steps.length ≤ maxPathSteps
  has_each : .each ∈ steps
  deriving DecidableEq

inductive AnyPath where
  | lens (path : LensPath)
  | traversal (path : TraversalPath)
  deriving DecidableEq

/-- The column named by a path of the one supported shape, a lens of a single
field step. -/
def AnyPath.target : AnyPath → Option AttributeName
  | .lens ⟨[.field name], _, _⟩ => some name
  | _ => none

/-- The path to a top-level column. -/
def AnyPath.column (name : AttributeName) : AnyPath :=
  .lens ⟨[.field name], by simp [maxPathSteps], by simp⟩

@[simp] theorem AnyPath.target_column (name : AttributeName) :
    (AnyPath.column name).target = some name := rfl

end AxiomCore
