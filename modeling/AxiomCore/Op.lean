import AxiomCore.Operands
import AxiomCore.Source

/-!
The operator tree and its smart constructors. Every node caches its output
header; a constructor validates its operands against the cached headers of its
inputs and computes the new one. Fields of a node are visible here, but outside
the kernel a node can only be made by the constructors below.
-/

namespace AxiomCore

open Checked Refined

mutual

/-- The shape of a node. -/
inductive OpKind where
  | source (src : Source)
  | project (input : Op) (attrs : AttributeSet)
  | restrict (input : Op) (predicate : Predicate)
  | rename (input : Op) (fromName toName : AttributeName)
  | extend (input : Op) (name : AttributeName) (expr : Expression)
  | join (left right : Op) (kind : JoinKind) (joinOn : JoinOn)
  | product (left right : Op)
  | union (left right : Op)
  | intersect (left right : Op)
  | difference (left right : Op)
  | summarize (input : Op) (keys : GroupingSet) (aggs : NamedAggSet)
  | order (input : Op) (keys : OrderKeys)
  | limit (input : Op) (offset : Offset) (count : LimitCount)
  | modify (input : Op) (path : AnyPath) (sub : Op)
  | unnest (input : Op) (path : AnyPath)
  | nest (input : Op) (attrs : AttributeSet) (into : AttributeName)

/-- A node with its cached output header. -/
structure Op where
  kind : OpKind
  schema : Schema

end

inductive OpError where
  | unknownAttribute (attr : AttributeName)
  | attributeAlreadyExists (attr : AttributeName)
  | schemaMismatch
  | joinTypeMismatch (attr : AttributeName)
  | infer (source : InferError)
  | aggregateOutsideSummarize
  | notARelation (attr : AttributeName)
  | unsupportedPathShape
  | duplicateAcrossOperands (attr : AttributeName)
  | schema (source : SchemaError)
  deriving DecidableEq

/-- The column with the given name, or the error that names it. -/
def Schema.findOrUnknown (s : Schema) (name : AttributeName) : Except OpError Attribute :=
  okOr (s.find name) (.unknownAttribute name)

/-- The header nested in the type of the column `target`, or the error that
names it. -/
def nestedSchema (target : AttributeName) : Ty → Except OpError Schema
  | .relation schema => .ok schema
  | _ => .error (.notARelation target)

/-- The check that `restrict` and a theta join make of a predicate: no
aggregate, and boolean over this header, whatever header it was proved over. -/
def checkPredicate (schema : Schema) : Predicate → Except OpError Unit
  | .expr boolExpr => do
    ensure (containsAggregate boolExpr.expr = false) .aggregateOutsideSummarize
    let ty ← (infer boolExpr.expr schema).mapError .infer
    ensure (ty = .bool) (.infer (.typeMismatch .bool ty))
  | .opaqueClosure _ => pure ()

namespace Op

section Constructors

variable [Whittle]

/-- Close a constructor: check the computed columns and cache their header. -/
def withColumns (kind : OpKind) (columns : List Attribute) : Except OpError Op := do
  let schema ← (Schema.tryNew columns).mapError .schema
  pure ⟨kind, schema⟩

def source (src : Source) : Op := ⟨.source src, src.schema⟩

/-- Keep the columns in `attrs`, in that order. -/
def project (input : Op) (attrs : AttributeSet) : Except OpError Op := do
  let projected ← attrs.items.mapM input.schema.findOrUnknown
  withColumns (.project input attrs) projected

/-- Keep the rows that satisfy a predicate. -/
def restrict (input : Op) (predicate : Predicate) : Except OpError Op := do
  checkPredicate input.schema predicate
  pure ⟨.restrict input predicate, input.schema⟩

/-- Rename one column in place. -/
def rename (input : Op) (fromName toName : AttributeName) : Except OpError Op := do
  ensure (input.schema.contains fromName) (.unknownAttribute fromName)
  ensure (¬ (fromName ≠ toName ∧ input.schema.contains toName)) (.attributeAlreadyExists toName)
  withColumns (.rename input fromName toName) <| input.schema.attributes.map fun a =>
    if a.name = fromName then ⟨toName, a.ty⟩ else a

/-- Order the rows. The keys are not checked against the input's header. -/
def order (input : Op) (keys : OrderKeys) : Op := ⟨.order input keys, input.schema⟩

def limit (input : Op) (offset : Offset) (count : LimitCount) : Op :=
  ⟨.limit input offset count, input.schema⟩

/-- Append a computed column. -/
def extend (input : Op) (name : AttributeName) (expr : Expression) : Except OpError Op := do
  ensure (¬ input.schema.contains name) (.attributeAlreadyExists name)
  ensure (containsAggregate expr = false) .aggregateOutsideSummarize
  let ty ← (infer expr input.schema).mapError .infer
  withColumns (.extend input name expr) (input.schema.attributes ++ [⟨name, ty⟩])

/-- Replace a nested relation column by the output of a sub-operator. -/
def modify (input : Op) (path : AnyPath) (sub : Op) : Except OpError Op := do
  let target ← okOr path.target .unsupportedPathShape
  let column ← input.schema.findOrUnknown target
  let _ ← nestedSchema target column.ty
  withColumns (.modify input path sub) <| input.schema.attributes.map fun a =>
    if a.name = target then ⟨a.name, .relation sub.schema⟩ else a

/-- Replace a nested relation column by its own columns. -/
def unnest (input : Op) (path : AnyPath) : Except OpError Op := do
  let target ← okOr path.target .unsupportedPathShape
  let column ← input.schema.findOrUnknown target
  let sub ← nestedSchema target column.ty
  withColumns (.unnest input path) <| input.schema.attributes.flatMap fun a =>
    if a.name = target then sub.attributes else [a]

/-- Bundle columns into one nested relation column, appended last. -/
def nest (input : Op) (attrs : AttributeSet) (into : AttributeName) : Except OpError Op := do
  let nested ← attrs.items.mapM input.schema.findOrUnknown
  let sub ← (Schema.tryNew nested).mapError .schema
  ensure (¬ (input.schema.contains into ∧ into ∉ attrs.items)) (.attributeAlreadyExists into)
  let remaining := input.schema.attributes.filter fun a => a.name ∉ attrs.items
  withColumns (.nest input attrs into) (remaining ++ [⟨into, .relation sub⟩])

/-- The output column of one aggregate of a summary. -/
def aggregateColumn (input : Op) (keys : GroupingSet) (agg : NamedAgg) :
    Except OpError Attribute := do
  ensure (agg.name ∉ keys.items) (.attributeAlreadyExists agg.name)
  let ty ← (aggTy agg.agg input.schema).mapError .infer
  pure ⟨agg.name, ty⟩

/-- Group by `keys` and compute the aggregates. -/
def summarize (input : Op) (keys : GroupingSet) (aggs : NamedAggSet) : Except OpError Op := do
  let grouped ← keys.items.mapM input.schema.findOrUnknown
  let computed ← aggs.items.mapM (aggregateColumn input keys)
  withColumns (.summarize input keys aggs) (grouped ++ computed)

/-- The common body of the three set operators. -/
def setOperator (kind : OpKind) (left right : Op) : Except OpError Op := do
  ensure (left.schema = right.schema) .schemaMismatch
  pure ⟨kind, left.schema⟩

def union (left right : Op) : Except OpError Op := setOperator (.union left right) left right

def intersect (left right : Op) : Except OpError Op :=
  setOperator (.intersect left right) left right

def difference (left right : Op) : Except OpError Op :=
  setOperator (.difference left right) left right

/-- Concatenate two headers that share no name. -/
def concatDisjointSchemas (left right : Op) : Except OpError Schema := do
  forM right.schema.attributes fun r =>
    ensure (¬ left.schema.contains r.name) (.duplicateAcrossOperands r.name)
  (Schema.tryNew (left.schema.attributes ++ right.schema.attributes)).mapError .schema

def product (left right : Op) : Except OpError Op := do
  let schema ← concatDisjointSchemas left right
  pure ⟨.product left right, schema⟩

/-- One step of the search for shared columns: a column of left that right
also has is shared, and an error when its two types differ. -/
def shareColumn (right : Op) (shared : List AttributeName) (l : Attribute) :
    Except OpError (List AttributeName) :=
  match right.schema.find l.name with
  | some r => do
    ensure (r.ty = l.ty) (.joinTypeMismatch l.name)
    pure (shared ++ [l.name])
  | none => pure shared

/-- The names of a natural join's shared columns, in left order. -/
def sharedNames (left right : Op) : Except OpError (List AttributeName) :=
  left.schema.attributes.foldlM (shareColumn right) []

/-- The check of one pair of an equi-join. -/
def checkPair (left right : Op) (pair : EquiPair) : Except OpError Unit := do
  let l ← left.schema.findOrUnknown pair.left
  let r ← right.schema.findOrUnknown pair.right
  ensure (l.ty = r.ty) (.joinTypeMismatch pair.left)

/-- Join two relations. An inner natural join without shared columns is built
as a product. -/
def join (left right : Op) (kind : JoinKind) (joinOn : JoinOn) : Except OpError Op :=
  match joinOn with
  | .natural => do
    let shared ← sharedNames left right
    if shared = [] ∧ kind = .inner then
      product left right
    else
      withColumns (.join left right kind joinOn) <| left.schema.attributes ++
        right.schema.attributes.filter fun r => r.name ∉ shared
  | .equi pairs => do
    forM pairs.items (checkPair left right)
    let schema ← concatDisjointSchemas left right
    pure ⟨.join left right kind joinOn, schema⟩
  | .theta predicate => do
    let schema ← concatDisjointSchemas left right
    checkPredicate schema predicate
    pure ⟨.join left right kind joinOn, schema⟩

end Constructors

end Op

end AxiomCore
