import AxiomCore.FaultPaths
import AxiomCore.Library.Safe
import AxiomCore.Predicate
import AxiomCore.RowLayout

/-!
What the inferred types are for. A backend evaluates an expression on a row of
a header; here it is any backend whose primitives return values of the types
that inference assigns. An expression that inference accepts and that holds no
aggregate is never stuck on a matching row: every column it names is there,
every operand has the shape its operator takes, and the value has the inferred
type. Only a primitive without a result, such as a division by zero, can end
the evaluation otherwise.
-/

namespace AxiomCore

open Checked

/-- What a backend provides: the primitives on values, the content of the
tables and the registered closures. -/
structure Backend where
  arith : BinOp → Value → Value → Option Value
  compare : BinOp → Value → Value → Bool
  negate : Value → Option Value
  like : String → Pattern → Bool
  equal : Value → Value → Bool
  convert : Value → Ty → Option Value
  aggregate : Agg → Schema → List Row → Option Value
  accepts : OpaqueId → Row → Bool
  scan : TableName → Schema → List Row

/-- The primitives return values of the types that inference assigns, and a
table read under a header holds rows of that header. -/
structure Backend.Typed (backend : Backend) : Prop where
  arith : ∀ {op l r ty v}, isNumeric ty = true → Conforms l ty → Conforms r ty →
    backend.arith op l r = some v → Conforms v ty
  negate : ∀ {v ty w}, isNumeric ty = true → Conforms v ty → backend.negate v = some w →
    Conforms w ty
  convert : ∀ {v ty w}, backend.convert v ty = some w → Conforms w ty
  aggregate : ∀ {a schema ty group v}, aggTy a schema = .ok ty →
    (∀ row ∈ group, Row.Matches row schema) → backend.aggregate a schema group = some v →
    Conforms v ty
  scan : ∀ {name schema row}, row ∈ backend.scan name schema → row.Matches schema

/-- How an evaluation ends without a value: a primitive has no result, or the
expression does not fit the row. -/
inductive Failure where
  | fault
  | stuck
  deriving DecidableEq

namespace Backend

variable (backend : Backend)

def evalBinop (op : BinOp) (l r : Value) : Except Failure Value :=
  match op with
  | .add | .sub | .mul | .div => do
    let ty ← (inferValue l).mapError fun _ => .stuck
    ensure (inferValue r = .ok ty ∧ isNumeric ty) .stuck
    okOr (backend.arith op l r) .fault
  | .concat =>
    match l, r with
    | .string x, .string y => .ok (.string (x ++ y))
    | _, _ => .error .stuck
  | .eq | .ne | .lt | .le | .gt | .ge => .ok (.bool (backend.compare op l r))
  | .and =>
    match l, r with
    | .bool x, .bool y => .ok (.bool (x && y))
    | _, _ => .error .stuck
  | .or =>
    match l, r with
    | .bool x, .bool y => .ok (.bool (x || y))
    | _, _ => .error .stuck

def evalUnop (op : UnOp) (v : Value) : Except Failure Value :=
  match op with
  | .neg => do
    let ty ← (inferValue v).mapError fun _ => .stuck
    ensure (isNumeric ty) .stuck
    okOr (backend.negate v) .fault
  | .not =>
    match v with
    | .bool x => .ok (.bool (!x))
    | _ => .error .stuck

/-- The value of an expression on a row of a header. There is no row-wise
value of an aggregate. -/
def eval : Expression → Schema → Row → Except Failure Value
  | .attr name, schema, row => okOr (row.valueOf schema name) .stuck
  | .lit value, _, _ => .ok value
  | .binOp op lhs rhs, schema, row => do
    let l ← eval lhs schema row
    let r ← eval rhs schema row
    backend.evalBinop op l r
  | .unOp op operand, schema, row => do
    let v ← eval operand schema row
    backend.evalUnop op v
  | .like operand pattern, schema, row => do
    match ← eval operand schema row with
    | .string text => pure (.bool (backend.like text pattern))
    | _ => .error .stuck
  | .inList operand values, schema, row => do
    let v ← eval operand schema row
    pure (.bool (values.toList.any (backend.equal v)))
  | .isNull operand, schema, row => do
    match ← eval operand schema row with
    | .optional none => pure (.bool true)
    | _ => pure (.bool false)
  | .cast operand target, schema, row => do
    let v ← eval operand schema row
    okOr (backend.convert v target) .fault
  | .agg _, _, _ => .error .stuck

variable {backend}

/-- An evaluation reads a row only through the names of the expression. -/
theorem eval_congr {e : Expression} {s t : Schema} {row row' : Row}
    (hvalues : ∀ name ∈ e.freeAttrs, row.valueOf s name = row'.valueOf t name) :
    backend.eval e s row = backend.eval e t row' := by
  induction e with
  | attr name =>
      have hname := hvalues name (by simp [Expression.mem_freeAttrs_iff, Expression.postOrder])
      simp only [eval, hname]
  | lit value | agg a => rfl
  | binOp op lhs rhs ihl ihr =>
      have hl := ihl fun name hname =>
        hvalues name (Expression.freeAttrs_node (by simp [Expression.postOrder]) hname)
      have hr := ihr fun name hname =>
        hvalues name (Expression.freeAttrs_node (by simp [Expression.postOrder]) hname)
      simp only [eval, hl, hr]
  | unOp op operand ih | like operand pattern ih | inList operand values ih | isNull operand ih
  | cast operand target ih =>
      have ho := ih fun name hname =>
        hvalues name (Expression.freeAttrs_node (by simp [Expression.postOrder]) hname)
      simp only [eval, ho]

end Backend

/-- The only failure a primitive may end in. -/
abbrev Failure.Allowed (failure : Failure) : Prop := failure = .fault

theorem inferValue_of_numeric {v : Value} {ty : Ty} (hnumeric : isNumeric ty = true)
    (hv : Conforms v ty) : inferValue v = .ok ty := by
  cases hv <;> simp_all [isNumeric, inferValue]

section Soundness

variable {backend : Backend} (htyped : backend.Typed)

theorem safe_okOr {found : Option Value} {ty : Ty} (h : ∀ v, found = some v → Conforms v ty) :
    Safe Failure.Allowed (Conforms · ty) (okOr found .fault) := by
  cases found with
  | none => rfl
  | some v => exact h v rfl

theorem not_stuck_of_safe {result : Except Failure Value} {ty : Ty}
    (h : Safe Failure.Allowed (Conforms · ty) result) :
    result ≠ .error .stuck ∧ ∀ v, result = .ok v → valueMatchesType v ty = .ok () := by
  obtain ⟨hvalue, hfailure⟩ := Safe.iff_forall.mp h
  constructor
  · intro hstuck
    exact absurd (hfailure _ hstuck) (by simp)
  · intro v hv
    exact (valueMatchesType_ok_iff _ _).mpr (hvalue v hv)

include htyped

theorem Backend.evalBinop_safe {op : BinOp} {l r : Value} {lt rt ty : Ty} (hl : Conforms l lt)
    (hr : Conforms r rt) (hty : inferBinop op lt rt = .ok ty) :
    Safe Failure.Allowed (Conforms · ty) (backend.evalBinop op l r) := by
  cases op with
  | add | sub | mul | div =>
      simp only [inferBinop, requireSame, bind_eq_ok, ensure_eq_ok, exists_const, pure_eq_ok] at hty
      obtain ⟨rfl, hnumeric, rfl⟩ := hty
      have hltype := inferValue_of_numeric hnumeric hl
      have hrtype := inferValue_of_numeric hnumeric hr
      have hcheck : ensure (inferValue r = .ok lt ∧ isNumeric lt = true) Failure.stuck = .ok () :=
        (ensure_eq_ok _ _ _).mpr ⟨hrtype, hnumeric⟩
      simp only [evalBinop, hltype, Except.mapError, bind, Except.bind, hcheck]
      exact safe_okOr fun v => htyped.arith hnumeric hl hr
  | concat =>
      simp only [inferBinop, requireSame, bind_eq_ok, ensure_eq_ok, exists_const, pure_eq_ok] at hty
      obtain ⟨rfl, rfl, rfl⟩ := hty
      cases hl
      cases hr
      exact .string _
  | and | or =>
      simp only [inferBinop, bind_eq_ok, ensure_eq_ok, exists_const, pure_eq_ok] at hty
      obtain ⟨rfl, rfl, rfl⟩ := hty
      cases hl
      cases hr
      exact .bool _
  | eq | ne | lt | le | gt | ge =>
      simp only [inferBinop, requireSame, bind_eq_ok, ensure_eq_ok, exists_const, pure_eq_ok] at hty
      obtain ⟨-, rfl⟩ := hty
      exact .bool _

theorem Backend.evalUnop_safe {op : UnOp} {v : Value} {ot ty : Ty} (hv : Conforms v ot)
    (hty : inferUnop op ot = .ok ty) :
    Safe Failure.Allowed (Conforms · ty) (backend.evalUnop op v) := by
  cases op with
  | neg =>
      simp only [inferUnop, bind_eq_ok, ensure_eq_ok, exists_const, pure_eq_ok] at hty
      obtain ⟨hnumeric, rfl⟩ := hty
      have hvtype := inferValue_of_numeric hnumeric hv
      have hcheck : ensure (isNumeric ot = true) Failure.stuck = .ok () :=
        (ensure_eq_ok _ _ _).mpr hnumeric
      simp only [evalUnop, hvtype, Except.mapError, bind, Except.bind, hcheck]
      exact safe_okOr fun w => htyped.negate hnumeric hv
  | not =>
      simp only [inferUnop, bind_eq_ok, ensure_eq_ok, exists_const, pure_eq_ok] at hty
      obtain ⟨rfl, rfl⟩ := hty
      cases hv
      exact .bool _

/-- An accepted aggregate-free expression is never stuck on a matching row, and
its value has the inferred type. -/
theorem Backend.eval_safe {e : Expression} {schema : Schema} {row : Row} {ty : Ty}
    (hty : infer e schema = .ok ty) (hfree : containsAggregate e = false)
    (hrow : row.Matches schema) :
    Safe Failure.Allowed (Conforms · ty) (backend.eval e schema row) := by
  induction e generalizing ty with
  | attr name =>
      simp only [infer, okOr_eq_ok, Schema.lookup_eq_some_iff] at hty
      obtain ⟨v, hvalue, hconforms⟩ := Row.exists_valueOf hrow hty
      simp only [eval, hvalue]
      exact hconforms
  | lit value =>
      have hmatches := (valueMatchesType_of_inferValue hty ty).mpr rfl
      exact (valueMatchesType_ok_iff _ _).mp hmatches
  | binOp op lhs rhs ihl ihr =>
      simp only [containsAggregate, Bool.or_eq_false_iff] at hfree
      simp only [infer, bind_eq_ok] at hty
      obtain ⟨lt, hlt, rt, hrt, hop⟩ := hty
      apply (ihl hlt hfree.1).bind
      intro l hl
      apply (ihr hrt hfree.2).bind
      intro r hr
      exact evalBinop_safe htyped hl hr hop
  | unOp op operand ih =>
      simp only [infer, bind_eq_ok] at hty
      obtain ⟨ot, hot, hop⟩ := hty
      apply (ih hot hfree).bind
      intro v hv
      exact evalUnop_safe htyped hv hop
  | like operand pattern ih =>
      simp only [infer, bind_eq_ok, ensure_eq_ok, exists_const, pure_eq_ok] at hty
      obtain ⟨ot, hot, rfl, rfl⟩ := hty
      apply (ih hot hfree).bind
      intro v hv
      cases hv
      exact .bool _
  | inList operand values ih =>
      simp only [infer, bind_eq_ok, pure_eq_ok] at hty
      obtain ⟨ot, hot, -, -, rfl⟩ := hty
      apply (ih hot hfree).bind
      intro v _
      exact .bool _
  | isNull operand ih =>
      simp only [infer, bind_eq_ok, pure_eq_ok] at hty
      obtain ⟨ot, hot, rfl⟩ := hty
      apply (ih hot hfree).bind
      intro v _
      split <;> exact .bool _
  | cast operand target ih =>
      simp only [infer, bind_eq_ok, pure_eq_ok] at hty
      obtain ⟨ot, hot, rfl⟩ := hty
      apply (ih hot hfree).bind
      intro v _
      exact safe_okOr fun w => htyped.convert
  | agg a => simp [containsAggregate] at hfree

/-- What inference accepts never fails on a matching row but for a primitive
without a result, and evaluates to a value of the inferred type. -/
theorem infer_sound {e : Expression} {schema : Schema} {row : Row} {ty : Ty}
    (hty : infer e schema = .ok ty) (hfree : containsAggregate e = false)
    (hrow : rowMatchesSchema row schema = .ok ()) :
    backend.eval e schema row ≠ .error .stuck ∧
      ∀ v, backend.eval e schema row = .ok v → valueMatchesType v ty = .ok () :=
  not_stuck_of_safe (Backend.eval_safe htyped hty hfree hrow)

end Soundness

end AxiomCore
