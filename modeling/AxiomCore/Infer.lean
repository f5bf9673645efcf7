import AxiomCore.Expression
import AxiomCore.Schema

/-!
Type inference for expressions. Inference reads a header only through lookups
of the names an expression mentions, it succeeds on every node of an accepted
expression, and an accepted aggregate-free expression mentions only names of
the header.
-/

namespace AxiomCore

open Checked Refined

inductive InferError where
  | unknownAttribute (name : AttributeName)
  | ambiguousLiteral
  | typeMismatch (expected got : Ty)
  | operatorNotApplicable (got : Ty)
  | binOpTypeMismatch (left right : Ty)
  | inListElementMismatch (index : Nat) (scrutinee got : Ty)
  deriving DecidableEq

/-- The type of a scalar literal; compound literals need a context. -/
def inferValue : Value → Except InferError Ty
  | .bool _ => .ok .bool
  | .int32 _ => .ok .int32
  | .int64 _ => .ok .int64
  | .float64 _ => .ok .float64
  | .decimal _ => .ok .decimal
  | .string _ => .ok .string
  | .bytes _ => .ok .bytes
  | .dateTime _ => .ok .dateTime
  | .json _ => .ok .json
  | .relation _ | .array _ | .optional _ => .error .ambiguousLiteral

def lookup (schema : Schema) (name : AttributeName) : Except InferError Ty :=
  okOr (schema.lookup name) (.unknownAttribute name)

/-- The output type of `SUM` over a column of the given type. -/
def sumTy : Ty → Except InferError Ty
  | .int32 | .int64 => .ok .int64
  | .float64 => .ok .float64
  | .decimal => .ok .decimal
  | other => .error (.operatorNotApplicable other)

/-- The output type of `MIN` and `MAX`. -/
def extremumTy : Ty → Except InferError Ty
  | .json => .error (.operatorNotApplicable .json)
  | .relation schema => .error (.operatorNotApplicable (.relation schema))
  | other => .ok other

/-- The output type of `AVG`. -/
def avgTy : Ty → Except InferError Ty
  | .int32 | .int64 | .float64 => .ok .float64
  | .decimal => .ok .decimal
  | other => .error (.operatorNotApplicable other)

/-- The output type of an aggregate. `COUNT` does not look its operand up. -/
def aggTy : Agg → Schema → Except InferError Ty
  | .count _, _ => .ok .int64
  | .sum name, schema => lookup schema name >>= sumTy
  | .min name, schema | .max name, schema => lookup schema name >>= extremumTy
  | .avg name, schema => lookup schema name >>= avgTy

def isNumeric : Ty → Bool
  | .int32 | .int64 | .float64 | .decimal => true
  | _ => false

def requireSame (lt rt : Ty) : Except InferError Unit :=
  ensure (lt = rt) (.binOpTypeMismatch lt rt)

def inferBinop (op : BinOp) (lt rt : Ty) : Except InferError Ty :=
  match op with
  | .add | .sub | .mul | .div => do
    requireSame lt rt
    ensure (isNumeric lt) (.operatorNotApplicable lt)
    pure lt
  | .concat => do
    requireSame lt rt
    ensure (lt = .string) (.operatorNotApplicable lt)
    pure .string
  | .eq | .ne | .lt | .le | .gt | .ge => do
    requireSame lt rt
    pure .bool
  | .and | .or => do
    ensure (lt = .bool) (.typeMismatch .bool lt)
    ensure (rt = .bool) (.typeMismatch .bool rt)
    pure .bool

def inferUnop (op : UnOp) (ot : Ty) : Except InferError Ty :=
  match op with
  | .neg => do
    ensure (isNumeric ot) (.operatorNotApplicable ot)
    pure ot
  | .not => do
    ensure (ot = .bool) (.typeMismatch .bool ot)
    pure .bool

/-- The static type of an expression over a header. -/
def infer : Expression → Schema → Except InferError Ty
  | .attr name, schema => okOr (schema.lookup name) (.unknownAttribute name)
  | .lit value, _ => inferValue value
  | .binOp op lhs rhs, schema => do
    let lt ← infer lhs schema
    let rt ← infer rhs schema
    inferBinop op lt rt
  | .unOp op operand, schema => do
    let ot ← infer operand schema
    inferUnop op ot
  | .like operand _, schema => do
    let ot ← infer operand schema
    ensure (ot = .string) (.typeMismatch .string ot)
    pure .bool
  | .inList operand values, schema => do
    let ot ← infer operand schema
    forM values.toList.zipIdx fun (v, index) => do
      let vt ← inferValue v
      ensure (vt = ot) (.inListElementMismatch index ot vt)
    pure .bool
  | .isNull operand, schema => do
    let _ ← infer operand schema
    pure .bool
  | .cast operand target, schema => do
    let _ ← infer operand schema
    pure target
  | .agg a, schema => aggTy a schema

/-- Two headers agree on a set of names when every lookup of one of them has
the same answer. -/
def AgreeOn (names : Finset AttributeName) (s t : Schema) : Prop :=
  ∀ name ∈ names, s.lookup name = t.lookup name

theorem AgreeOn.symm {names : Finset AttributeName} {s t : Schema} (h : AgreeOn names s t) :
    AgreeOn names t s :=
  fun name hname => (h name hname).symm

theorem AgreeOn.mono {names names' : Finset AttributeName} {s t : Schema}
    (h : AgreeOn names s t) (hsub : names' ⊆ names) : AgreeOn names' s t :=
  fun name hname => h name (hsub hname)

theorem aggTy_congr {a : Agg} {s t : Schema}
    (h : ∀ name ∈ aggregateAttributeNames a, s.lookup name = t.lookup name) :
    aggTy a s = aggTy a t := by
  cases a with
  | count attr => rfl
  | sum name | min name | max name | avg name =>
      simp only [aggTy, lookup, h name (by simp [aggregateAttributeNames])]

/-- Inference depends on a header only through the lookups of the names that
the expression mentions. -/
theorem infer_congr {e : Expression} {s t : Schema} (h : AgreeOn e.freeAttrs s t) :
    infer e s = infer e t := by
  induction e with
  | attr name =>
      have hname := h name (by simp [Expression.mem_freeAttrs_iff, Expression.postOrder])
      simp only [infer, hname]
  | lit value => rfl
  | binOp op lhs rhs ihl ihr =>
      have hl := ihl (h.mono (Expression.freeAttrs_node (by simp [Expression.postOrder])))
      have hr := ihr (h.mono (Expression.freeAttrs_node (by simp [Expression.postOrder])))
      simp only [infer, hl, hr]
  | unOp op operand ih | like operand pattern ih | inList operand values ih | isNull operand ih
  | cast operand target ih =>
      have ho := ih (h.mono (Expression.freeAttrs_node (by simp [Expression.postOrder])))
      simp only [infer, ho]
  | agg a =>
      refine aggTy_congr fun name hname => h name ?_
      rw [Expression.mem_freeAttrs_iff]
      exact Or.inr ⟨a, by simp [Expression.postOrder], hname⟩

/-- Inference accepts every node of an expression it accepts. -/
theorem infer_node {e : Expression} {s : Schema} {ty : Ty} (h : infer e s = .ok ty) :
    ∀ node ∈ e.postOrder, ∃ nodeTy, infer node s = .ok nodeTy := by
  induction e generalizing ty with
  | attr name | lit value | agg a =>
      intro node hnode
      simp only [Expression.postOrder, List.mem_singleton] at hnode
      exact ⟨ty, hnode ▸ h⟩
  | binOp op lhs rhs ihl ihr =>
      intro node hnode
      simp only [Expression.postOrder, List.mem_append, List.mem_singleton] at hnode
      have hparts := h
      simp only [infer, bind_eq_ok] at hparts
      obtain ⟨lt, hl, rt, hr, -⟩ := hparts
      rcases hnode with (hnode | hnode) | rfl
      · exact ihl hl node hnode
      · exact ihr hr node hnode
      · exact ⟨ty, h⟩
  | unOp op operand ih | like operand pattern ih | inList operand values ih | isNull operand ih
  | cast operand target ih =>
      intro node hnode
      simp only [Expression.postOrder, List.mem_append, List.mem_singleton] at hnode
      have hparts := h
      simp only [infer, bind_eq_ok] at hparts
      obtain ⟨ot, ho, -⟩ := hparts
      rcases hnode with hnode | rfl
      · exact ih ho node hnode
      · exact ⟨ty, h⟩

theorem mem_names_of_lookup_ok {s : Schema} {name : AttributeName} {ty : Ty}
    (h : lookup s name = .ok ty) : name ∈ s.names := by
  rw [lookup, okOr_eq_ok, Schema.lookup_eq_some_iff] at h
  exact Schema.mem_names_of_mem h

/-- An accepted aggregate-free expression mentions only names of the header. -/
theorem freeAttrs_subset_names {e : Expression} {s : Schema} {ty : Ty}
    (hagg : containsAggregate e = false) (h : infer e s = .ok ty) :
    ∀ name ∈ e.freeAttrs, name ∈ s.names := by
  intro name hname
  rcases Expression.mem_freeAttrs_iff.mp hname with hattr | ⟨a, hnode, -⟩
  · obtain ⟨nodeTy, hty⟩ := infer_node h _ hattr
    exact mem_names_of_lookup_ok hty
  · have hcontains : containsAggregate e = true := (containsAggregate_iff e).mpr ⟨a, hnode⟩
    rw [hagg] at hcontains
    exact absurd hcontains nofun

end AxiomCore
