import Mathlib.Logic.Equiv.Basic
import AxiomCore.Constraints
import AxiomCore.Faults
import AxiomCore.Library.Transport
import AxiomCore.Relabelling

/-!
Other spellings of the names. A permutation of the names acts on everything that
has names in it: on types and headers at every depth, on expressions with the
targets of their casts, on operands, sources and predicates, and on the errors of
the checks. The checks compare names and types for equality only, so each of them
commutes with the action. Only the report of a foreign name of a constraint follows
the order of the names.
-/

namespace AxiomCore

open Checked Refined

/-- A list of keys repeats a key where the list of other keys does. -/
theorem firstRepeat_map {κ κ' : Type} {g : κ → κ'} (hinjective : Function.Injective g)
    {keys : List κ} {index : Nat} : FirstRepeat (keys.map g) index ↔ FirstRepeat keys index := by
  rw [FirstRepeat, ← List.map_take, List.nodup_map_iff hinjective, List.getElem?_map]
  apply and_congr_right
  intro _
  constructor
  · rintro ⟨_, hget, hmem⟩
    obtain ⟨k, hk, rfl⟩ := Option.map_eq_some_iff.mp hget
    exact ⟨k, hk, (List.mem_map_of_injective hinjective).mp hmem⟩
  · rintro ⟨k, hk, hmem⟩
    exact ⟨g k, by rw [hk, Option.map_some], List.mem_map_of_mem hmem⟩

section Headers

variable (σ : Equiv.Perm AttributeName)

mutual

/-- The type with every name in it replaced, nested headers included. -/
def Ty.respell : Ty → Ty
  | .bool => .bool
  | .int32 => .int32
  | .int64 => .int64
  | .float64 => .float64
  | .decimal => .decimal
  | .string => .string
  | .bytes => .bytes
  | .dateTime => .dateTime
  | .json => .json
  | .relation schema => .relation schema.respell
  | .array item => .array item.respell
  | .optional inner => .optional inner.respell

def Schema.respell : Schema → Schema
  | ⟨⟨length, min_le, le_max, names, injective, types⟩⟩ =>
    ⟨⟨length, min_le, le_max, σ ∘ names, σ.injective.comp injective, fun i => (types i).respell⟩⟩

end

mutual

theorem Ty.respell_inj : ∀ a b : Ty, a.respell σ = b.respell σ ↔ a = b
  | .bool, b | .int32, b | .int64, b | .float64, b | .decimal, b | .string, b | .bytes, b
  | .dateTime, b | .json, b => by cases b <;> simp [Ty.respell]
  | .relation s, b => by cases b <;> simp [Ty.respell, Schema.respell_inj s]
  | .array a, b => by cases b <;> simp [Ty.respell, Ty.respell_inj a]
  | .optional a, b => by cases b <;> simp [Ty.respell, Ty.respell_inj a]

theorem Schema.respell_inj : ∀ s t : Schema, s.respell σ = t.respell σ ↔ s = t
  | ⟨⟨n, _, _, names, _, types⟩⟩, ⟨⟨m, _, _, names', _, types'⟩⟩ => by
    by_cases h : n = m
    · subst h
      simp [Schema.respell, funext_iff, Ty.respell_inj (types _)]
    · simp [Schema.respell, h]

end

def Attribute.respell (a : Attribute) : Attribute := ⟨σ a.name, a.ty.respell σ⟩

namespace Schema

variable (s : Schema) (name : AttributeName)

@[simp] theorem attributes_respell :
    (s.respell σ).attributes = s.attributes.map (Attribute.respell σ) := by
  obtain ⟨⟨n, hmin, hmax, names, hinjective, types⟩⟩ := s
  have hentries := KeyedVec.entries_map (f := Ty.respell σ) σ.injective
    ⟨n, hmin, hmax, names, hinjective, types⟩
  rw [respell, attributes, attributes]
  refine (congrArg _ hentries).trans ?_
  simp [Attribute.respell]

@[simp] theorem names_respell : (s.respell σ).names = s.names.map σ := by
  simp [names, Attribute.respell]

@[simp] theorem mem_names_respell : σ name ∈ (s.respell σ).names ↔ name ∈ s.names := by
  rw [names_respell, List.mem_map_of_injective σ.injective]

@[simp] theorem find_respell :
    (s.respell σ).find (σ name) = (s.find name).map (Attribute.respell σ) := by
  cases hfound : s.find name with
  | none =>
      rw [find_eq_none_iff] at hfound
      rwa [Option.map_none, find_eq_none_iff, mem_names_respell]
  | some a =>
      obtain ⟨ha, rfl⟩ := find_eq_some_iff.mp hfound
      rw [Option.map_some, find_eq_some_iff, attributes_respell]
      exact ⟨List.mem_map_of_mem ha, rfl⟩

@[simp] theorem contains_respell : (s.respell σ).contains (σ name) = s.contains name := by
  simp [contains]

@[simp] theorem lookup_respell :
    (s.respell σ).lookup (σ name) = (s.lookup name).map (Ty.respell σ) := by
  simp [lookup, Function.comp_def, Attribute.respell]

/-- A header is built over the other names exactly when it is built over these. -/
theorem tryNew_respell [Whittle] (attributes : List Attribute) :
    tryNew (attributes.map (Attribute.respell σ)) =
      transport id (Schema.respell σ) (tryNew attributes) := by
  cases hbuilt : tryNew attributes with
  | ok s =>
      obtain rfl := tryNew_eq_ok.mp hbuilt
      exact tryNew_eq_ok.mpr (attributes_respell σ s)
  | error e =>
      have hrule : LengthRule 1 maxSchemaAttributes (attributes.map (Attribute.respell σ)) ↔
          LengthRule 1 maxSchemaAttributes attributes := by
        constructor
        · intro h
          exact ⟨by simpa using h.min_le, by simpa using h.le_max⟩
        · intro h
          exact ⟨by simpa using h.min_le, by simpa using h.le_max⟩
      have hnames : (attributes.map (Attribute.respell σ)).map Attribute.name =
          (attributes.map Attribute.name).map σ := by
        simp [Attribute.respell]
      apply tryNew_eq_error.mpr
      simp only [hrule, hnames, firstRepeat_map σ.injective, List.length_map]
      exact tryNew_eq_error.mp hbuilt

end Schema

end Headers

section Inference

variable (σ : Equiv.Perm AttributeName)

/-- The expression with every name in it replaced, also in the targets of casts. -/
def Expression.respell : Expression → Expression
  | .attr name => .attr (σ name)
  | .lit value => .lit value
  | .binOp op lhs rhs => .binOp op lhs.respell rhs.respell
  | .unOp op operand => .unOp op operand.respell
  | .like operand pattern => .like operand.respell pattern
  | .inList operand values => .inList operand.respell values
  | .isNull operand => .isNull operand.respell
  | .cast operand target => .cast operand.respell (target.respell σ)
  | .agg a => .agg (a.mapNames σ)

def InferError.respell : InferError → InferError
  | .unknownAttribute name => .unknownAttribute (σ name)
  | .ambiguousLiteral => .ambiguousLiteral
  | .typeMismatch expected got => .typeMismatch (expected.respell σ) (got.respell σ)
  | .operatorNotApplicable got => .operatorNotApplicable (got.respell σ)
  | .binOpTypeMismatch left right => .binOpTypeMismatch (left.respell σ) (right.respell σ)
  | .inListElementMismatch index scrutinee got =>
    .inListElementMismatch index (scrutinee.respell σ) (got.respell σ)

@[simp] theorem isNumeric_respell (ty : Ty) : isNumeric (ty.respell σ) = isNumeric ty := by
  cases ty <;> rfl

@[simp] theorem Ty.respell_eq_bool {ty : Ty} : ty.respell σ = .bool ↔ ty = .bool := by
  cases ty <;> simp [respell]

@[simp] theorem Ty.respell_eq_string {ty : Ty} : ty.respell σ = .string ↔ ty = .string := by
  cases ty <;> simp [respell]

/-- Literals have no names in their types. -/
theorem inferValue_respell (value : Value) :
    inferValue value = transport (InferError.respell σ) (Ty.respell σ) (inferValue value) := by
  cases value <;> rfl

theorem lookup_respell (s : Schema) (name : AttributeName) :
    lookup (s.respell σ) (σ name) =
      transport (InferError.respell σ) (Ty.respell σ) (lookup s name) :=
  transport_okOr (Schema.lookup_respell σ s name) rfl

theorem sumTy_respell (ty : Ty) :
    sumTy (ty.respell σ) = transport (InferError.respell σ) (Ty.respell σ) (sumTy ty) := by
  cases ty <;> rfl

theorem extremumTy_respell (ty : Ty) :
    extremumTy (ty.respell σ) =
      transport (InferError.respell σ) (Ty.respell σ) (extremumTy ty) := by
  cases ty <;> rfl

theorem avgTy_respell (ty : Ty) :
    avgTy (ty.respell σ) = transport (InferError.respell σ) (Ty.respell σ) (avgTy ty) := by
  cases ty <;> rfl

theorem aggTy_respell (a : Agg) (s : Schema) :
    aggTy (a.mapNames σ) (s.respell σ) =
      transport (InferError.respell σ) (Ty.respell σ) (aggTy a s) := by
  cases a with
  | count attr => rfl
  | sum name => exact transport_bind (lookup_respell σ s name) (sumTy_respell σ)
  | min name | max name => exact transport_bind (lookup_respell σ s name) (extremumTy_respell σ)
  | avg name => exact transport_bind (lookup_respell σ s name) (avgTy_respell σ)

theorem requireSame_respell (lt rt : Ty) :
    requireSame (lt.respell σ) (rt.respell σ) =
      transport (InferError.respell σ) id (requireSame lt rt) :=
  transport_ensure (Ty.respell_inj σ lt rt) rfl

theorem inferBinop_respell (op : BinOp) (lt rt : Ty) :
    inferBinop op (lt.respell σ) (rt.respell σ) =
      transport (InferError.respell σ) (Ty.respell σ) (inferBinop op lt rt) := by
  cases op with
  | add | sub | mul | div =>
      apply transport_bind (requireSame_respell σ lt rt)
      intro _
      exact transport_bind (transport_ensure (by simp) rfl) fun _ => rfl
  | concat =>
      apply transport_bind (requireSame_respell σ lt rt)
      intro _
      exact transport_bind (transport_ensure (Ty.respell_eq_string σ) rfl) fun _ => rfl
  | eq | ne | lt | le | gt | ge =>
      exact transport_bind (requireSame_respell σ lt rt) fun _ => rfl
  | and | or =>
      refine transport_bind (f := id) (transport_ensure (Ty.respell_eq_bool σ) rfl) ?_
      intro _
      exact transport_bind (transport_ensure (Ty.respell_eq_bool σ) rfl) fun _ => rfl

theorem inferUnop_respell (op : UnOp) (ot : Ty) :
    inferUnop op (ot.respell σ) =
      transport (InferError.respell σ) (Ty.respell σ) (inferUnop op ot) := by
  cases op with
  | neg => exact transport_bind (transport_ensure (by simp) rfl) fun _ => rfl
  | not => exact transport_bind (transport_ensure (by simp) rfl) fun _ => rfl

/-- Inference over the other names infers the type with the other names, and blames
what it would blame. -/
theorem infer_respell (e : Expression) (s : Schema) :
    infer (e.respell σ) (s.respell σ) =
      transport (InferError.respell σ) (Ty.respell σ) (infer e s) := by
  induction e with
  | attr name => exact lookup_respell σ s name
  | lit value => exact inferValue_respell σ value
  | binOp op lhs rhs ihl ihr =>
      apply transport_bind ihl
      intro lt
      exact transport_bind ihr (inferBinop_respell σ op lt)
  | unOp op operand ih => exact transport_bind ih (inferUnop_respell σ op)
  | like operand pattern ih =>
      apply transport_bind ih
      intro ot
      exact transport_bind (transport_ensure (by simp) rfl) fun _ => rfl
  | inList operand values ih =>
      apply transport_bind ih
      intro ot
      refine transport_bind (f := id) (transport_forM ?_) fun _ => rfl
      rintro ⟨value, index⟩ _
      apply transport_bind (inferValue_respell σ value)
      intro vt
      exact transport_ensure (Ty.respell_inj σ vt ot) rfl
  | isNull operand ih => exact transport_bind ih fun _ => rfl
  | cast operand target ih => exact transport_bind ih fun _ => rfl
  | agg a => exact aggTy_respell σ a s

end Inference

section Operands

variable (σ : Equiv.Perm AttributeName)

@[simp] theorem containsAggregate_respell (e : Expression) :
    containsAggregate (e.respell σ) = containsAggregate e := by
  induction e with
  | attr name | lit value | agg a => rfl
  | binOp op lhs rhs ihl ihr => simp only [Expression.respell, containsAggregate, ihl, ihr]
  | unOp op operand ih | like operand pattern ih | inList operand values ih | isNull operand ih
  | cast operand target ih => simp only [Expression.respell, containsAggregate, ih]

def BoolExpression.respell (b : BoolExpression) : BoolExpression where
  expr := b.expr.respell σ
  proved := by
    obtain ⟨s, hty⟩ := b.proved
    exact ⟨s.respell σ, by rw [infer_respell, hty]; rfl⟩

def Predicate.respell : Predicate → Predicate
  | .expr boolExpr => .expr (boolExpr.respell σ)
  | .opaqueClosure id => .opaqueClosure id

def AttributeSet.respell (attrs : AttributeSet) : AttributeSet :=
  attrs.map σ σ.injective fun _ => rfl

def GroupingSet.respell (keys : GroupingSet) : GroupingSet :=
  keys.map σ σ.injective fun _ => rfl

def NamedAgg.respell (agg : NamedAgg) : NamedAgg := ⟨σ agg.name, agg.agg.mapNames σ⟩

def NamedAggSet.respell (aggs : NamedAggSet) : NamedAggSet :=
  aggs.map (NamedAgg.respell σ) σ.injective fun _ => rfl

def OrderKeys.respell (keys : OrderKeys) : OrderKeys :=
  keys.map (fun key => { key with attr := σ key.attr }) σ.injective fun _ => rfl

def EquiPair.respell (pair : EquiPair) : EquiPair := ⟨σ pair.left, σ pair.right⟩

def EquiPairs.respell (pairs : EquiPairs) : EquiPairs :=
  pairs.map (EquiPair.respell σ) σ.injective fun _ => rfl

@[simp] theorem AttributeSet.mem_respell {attrs : AttributeSet} {name : AttributeName} :
    σ name ∈ (attrs.respell σ).items ↔ name ∈ attrs.items :=
  List.mem_map_of_injective σ.injective

@[simp] theorem GroupingSet.mem_respell {keys : GroupingSet} {name : AttributeName} :
    σ name ∈ (keys.respell σ).items ↔ name ∈ keys.items :=
  List.mem_map_of_injective σ.injective

theorem NamedAggSet.items_respell (aggs : NamedAggSet) :
    (aggs.respell σ).items = aggs.items.map (NamedAgg.respell σ) := rfl

theorem EquiPairs.items_respell (pairs : EquiPairs) :
    (pairs.respell σ).items = pairs.items.map (EquiPair.respell σ) := rfl

def JoinOn.respell : JoinOn → JoinOn
  | .natural => .natural
  | .equi pairs => .equi (pairs.respell σ)
  | .theta predicate => .theta (predicate.respell σ)

def PathStep.respell : PathStep → PathStep
  | .field name => .field (σ name)
  | .index i => .index i
  | .each => .each

theorem PathStep.each_mem_respell {steps : List PathStep} :
    .each ∈ steps.map (PathStep.respell σ) ↔ .each ∈ steps := by
  have heach : ∀ step, PathStep.respell σ step = .each ↔ step = .each := by
    intro step
    cases step <;> simp [respell]
  simp [heach]

def AnyPath.respell : AnyPath → AnyPath
  | .lens path => .lens
    { steps := path.steps.map (PathStep.respell σ)
      len_items := by simpa using path.len_items
      no_each := by simpa only [PathStep.each_mem_respell] using path.no_each }
  | .traversal path => .traversal
    { steps := path.steps.map (PathStep.respell σ)
      len_items := by simpa using path.len_items
      has_each := (PathStep.each_mem_respell σ).mpr path.has_each }

theorem AnyPath.target_respell (path : AnyPath) : (path.respell σ).target = path.target.map σ := by
  cases path with
  | traversal path => rfl
  | lens path =>
      obtain ⟨steps, hlen, heach⟩ := path
      match steps with
      | [] => rfl
      | [.field name] => rfl
      | [.index i] => rfl
      | [.each] => rfl
      | first :: second :: rest => cases first <;> rfl

mutual

/-- Conformance does not read a name. -/
theorem valueMatchesType_respell : ∀ (v : Value) (ty : Ty),
    valueMatchesType v (ty.respell σ) = valueMatchesType v ty
  | .bool _, ty | .int32 _, ty | .int64 _, ty | .float64 _, ty | .decimal _, ty | .string _, ty
  | .bytes _, ty | .dateTime _, ty | .json _, ty | .optional none, ty => by
    cases ty <;> rfl
  | .optional (some inner), ty => by
    cases ty <;> simp only [Ty.respell, valueMatchesType, valueMatchesType_respell inner]
  | .array ⟨count, _, _, values⟩, ty => by
    cases ty <;> simp only [Ty.respell, valueMatchesType, valueMatchesType_respell (values _)]
  | .relation ⟨count, _, _, rows⟩, ty => by
    cases ty <;> simp only [Ty.respell, valueMatchesType, rowMatchesSchema_respell (rows _)]

theorem rowMatchesSchema_respell : ∀ (row : Row) (s : Schema),
    rowMatchesSchema row (s.respell σ) = rowMatchesSchema row s
  | ⟨⟨width, hmin, hmax, values⟩⟩, s => by
    have hcardinality : (s.respell σ).cardinality = s.cardinality := by
      rw [← Schema.length_attributes, Schema.attributes_respell, List.length_map,
        Schema.length_attributes]
    simp only [rowMatchesSchema, hcardinality, Schema.attributes_respell, List.zip_map_right,
      List.forM_map, Prod.map, Attribute.respell, valueMatchesType_respell (values _), id]

end

/-- Inline data with the same rows. -/
def MemorySource.respell (memory : MemorySource) : MemorySource where
  schema := memory.schema.respell σ
  rows := memory.rows
  matched := by simpa only [rowMatchesSchema_respell] using memory.matched

theorem MemorySource.tryNew_respell [Whittle] (s : Schema) (rawRows : List Row) :
    tryNew (s.respell σ) rawRows = transport id (respell σ) (tryNew s rawRows) := by
  have hchecks : checkRows (s.respell σ) rawRows = checkRows s rawRows := by
    simp only [checkRows, rowMatchesSchema_respell]
  cases hbuilt : tryNew s rawRows with
  | ok memory =>
      obtain ⟨rfl, hrows⟩ := tryNew_eq_ok.mp hbuilt
      exact tryNew_eq_ok.mpr ⟨rfl, hrows⟩
  | error e =>
      apply tryNew_eq_error.mpr
      simp only [hchecks, rowMatchesSchema_respell]
      exact tryNew_eq_error.mp hbuilt

/-- A source with the same rows. The name of a table is not the name of a column. -/
def Source.respell : Source → Source
  | .memory m => .memory (m.respell σ)
  | .table schema name => .table (schema.respell σ) name

@[simp] theorem Source.schema_respell (src : Source) :
    (src.respell σ).schema = src.schema.respell σ := by
  cases src <;> rfl

theorem Source.tryMemory_respell [Whittle] (s : Schema) (rawRows : List Row) :
    tryMemory (s.respell σ) rawRows = transport id (respell σ) (tryMemory s rawRows) :=
  transport_bind (MemorySource.tryNew_respell σ s rawRows) fun _ => rfl

end Operands

section Predicates

variable (σ : Equiv.Perm AttributeName)

theorem freeAttrsInto_respell (e : Expression) (out : Finset AttributeName) :
    freeAttrsInto (e.respell σ) (out.map σ.toEmbedding) =
      (freeAttrsInto e out).map σ.toEmbedding := by
  induction e generalizing out with
  | attr name => simp [Expression.respell, freeAttrsInto, Finset.map_insert]
  | lit value => rfl
  | binOp op lhs rhs ihl ihr => simp only [Expression.respell, freeAttrsInto, ihl, ihr]
  | unOp op operand ih | like operand pattern ih | inList operand values ih | isNull operand ih
  | cast operand target ih => simp only [Expression.respell, freeAttrsInto, ih]
  | agg a =>
      cases a with
      | count attr =>
          cases attr <;>
            simp [Expression.respell, freeAttrsInto, Agg.mapNames, aggregateAttributeNames,
              Finset.map_insert]
      | sum name | min name | max name | avg name =>
          simp [Expression.respell, freeAttrsInto, Agg.mapNames, aggregateAttributeNames,
            Finset.map_insert]

def CanonicalPredicate.respell (p : CanonicalPredicate) : CanonicalPredicate where
  inner := p.inner.respell σ
  aggregateFree := (containsAggregate_respell σ p.inner.expr).trans p.aggregateFree

def CanonicalPredicateError.respell : CanonicalPredicateError → CanonicalPredicateError
  | .infer source => .infer (source.respell σ)
  | .containsAggregate => .containsAggregate

theorem CanonicalPredicate.freeAttributes_respell (p : CanonicalPredicate) :
    (p.respell σ).freeAttributes = p.freeAttributes.map σ.toEmbedding :=
  freeAttrsInto_respell σ p.inner.expr ∅

theorem BoolExpression.tryNew_respell (s : Schema) (e : Expression) :
    tryNew (s.respell σ) (e.respell σ) =
      transport (InferError.respell σ) (BoolExpression.respell σ) (tryNew s e) := by
  have hinfer := infer_respell σ e s
  cases hbuilt : tryNew s e with
  | ok b =>
      obtain ⟨hty, rfl⟩ := tryNew_eq_ok.mp hbuilt
      rw [hty] at hinfer
      exact tryNew_eq_ok.mpr ⟨hinfer, rfl⟩
  | error err =>
      apply tryNew_eq_error.mpr
      rcases tryNew_eq_error.mp hbuilt with hfault | ⟨ty, hty, hbool, rfl⟩
      · rw [hfault] at hinfer
        exact Or.inl hinfer
      · rw [hty] at hinfer
        exact Or.inr ⟨ty.respell σ, hinfer, (Ty.respell_eq_bool σ).not.mpr hbool, rfl⟩

theorem CanonicalPredicate.tryNew_respell (s : Schema) (e : Expression) :
    tryNew (s.respell σ) (e.respell σ) =
      transport (CanonicalPredicateError.respell σ) (respell σ) (tryNew s e) := by
  by_cases hagg : containsAggregate e = true
  · simp [tryNew, hagg, CanonicalPredicateError.respell]
  · have hfree : containsAggregate e = false := by simpa using hagg
    have hbool := BoolExpression.tryNew_respell σ s e
    cases hbuilt : BoolExpression.tryNew s e with
    | ok b =>
        obtain ⟨hty, rfl⟩ := BoolExpression.tryNew_eq_ok.mp hbuilt
        have hp : tryNew s b.expr = .ok ⟨b, hfree⟩ := tryNew_eq_ok.mpr ⟨hfree, hty, rfl⟩
        rw [hbuilt] at hbool
        rw [hp]
        exact tryNew_eq_ok.mpr ⟨(containsAggregate_respell σ b.expr).trans hfree,
          (BoolExpression.tryNew_eq_ok.mp hbool).1, rfl⟩
    | error err =>
        rw [hbuilt] at hbool
        rw [tryNew_eq_infer_error hfree hbuilt]
        exact tryNew_eq_infer_error ((containsAggregate_respell σ e).trans hfree) hbool

def AttributeConstraint.respell (c : AttributeConstraint) : AttributeConstraint where
  attr := σ c.attr
  predicate := c.predicate.respell σ
  mentions := by
    rw [CanonicalPredicate.freeAttributes_respell, c.mentions]
    exact Finset.map_singleton σ.toEmbedding c.attr

def AttributeConstraintError.respell : AttributeConstraintError → AttributeConstraintError
  | .foreignAttribute scope foreign => .foreignAttribute (σ scope) (σ foreign)
  | .constantPredicate scope => .constantPredicate (σ scope)
  | .missingScope scope => .missingScope (σ scope)

namespace AttributeConstraint

variable {σ} {attr : AttributeName} {p : CanonicalPredicate}

theorem exists_tryNew_respell :
    (∃ c, tryNew (σ attr) (p.respell σ) = .ok c) ↔ ∃ c, tryNew attr p = .ok c := by
  have hscope : ({σ attr} : Finset AttributeName) = Finset.map σ.toEmbedding {attr} :=
    (Finset.map_singleton σ.toEmbedding attr).symm
  rw [exists_tryNew_ok_iff, exists_tryNew_ok_iff, CanonicalPredicate.freeAttributes_respell,
    hscope, Finset.map_inj]

/-- The least foreign name stays the least when the names keep their order. -/
theorem isLeast_respell {free : Finset AttributeName} {foreign : AttributeName}
    (hkept : ∀ a ∈ free, ∀ b ∈ free, a ≤ b → σ a ≤ σ b)
    (hleast : IsLeast {other | other ∈ free ∧ other ≠ attr} foreign) :
    IsLeast {other | other ∈ free.map σ.toEmbedding ∧ other ≠ σ attr} (σ foreign) := by
  obtain ⟨⟨hmem, hother⟩, hbelow⟩ := hleast
  refine ⟨⟨Finset.mem_map_of_mem σ.toEmbedding hmem, σ.injective.ne hother⟩, ?_⟩
  rintro _ ⟨hrespelled, hdiffer⟩
  obtain ⟨name, hname, rfl⟩ := Finset.mem_map.mp hrespelled
  have hne : name ≠ attr := by
    rintro rfl
    exact hdiffer rfl
  exact hkept foreign hmem name hname (hbelow ⟨hname, hne⟩)

/-- The whole outcome follows the names that keep their order. -/
theorem tryNew_respell
    (hkept : ∀ a ∈ p.freeAttributes, ∀ b ∈ p.freeAttributes, a ≤ b → σ a ≤ σ b) :
    tryNew (σ attr) (p.respell σ) =
      transport (AttributeConstraintError.respell σ) (respell σ) (tryNew attr p) := by
  cases hbuilt : tryNew attr p with
  | ok c =>
      obtain ⟨rfl, rfl⟩ := tryNew_eq_ok.mp hbuilt
      exact tryNew_eq_ok.mpr ⟨rfl, rfl⟩
  | error e =>
      apply tryNew_eq_error.mpr
      rw [CanonicalPredicate.freeAttributes_respell]
      apply checkScope_eq_error.mpr
      have hmem : ∀ name, σ name ∈ p.freeAttributes.map σ.toEmbedding ↔ name ∈ p.freeAttributes :=
        fun name => Finset.mem_map' σ.toEmbedding
      rcases checkScope_eq_error.mp (tryNew_eq_error.mp hbuilt) with
        ⟨hempty, rfl⟩ | ⟨hnonempty, hmissing, rfl⟩ | ⟨hscope, foreign, hleast, rfl⟩
      · exact Or.inl ⟨Finset.map_eq_empty.mpr hempty, rfl⟩
      · exact Or.inr (Or.inl ⟨Finset.map_eq_empty.not.mpr hnonempty,
          (hmem attr).not.mpr hmissing, rfl⟩)
      · exact Or.inr (Or.inr ⟨(hmem attr).mpr hscope, σ foreign,
          isLeast_respell hkept hleast, rfl⟩)

end AttributeConstraint

end Predicates

end AxiomCore
