import AxiomCore.Blame

/-!
Comparisons inside accepted expressions. Two values compare only within one
comparable class, and inference asks only that the two sides have one type.
Whether an accepted expression compares only comparable operands can be read
off the outermost nodes of the operands, without inference.
-/

namespace AxiomCore

open Checked Refined

/-- Whether a type lies in a comparable class: neither JSON nor a relation, at
any depth. -/
def Ty.isComparable : Ty → Bool
  | .json | .relation _ => false
  | .array item => item.isComparable
  | .optional inner => inner.isComparable
  | _ => true

namespace BinOp

def isComparison : BinOp → Bool
  | .eq | .ne | .lt | .le | .gt | .ge => true
  | _ => false

def isOrdering : BinOp → Bool
  | .lt | .le | .gt | .ge => true
  | _ => false

/-- The comparison rule: a comparable class, and booleans for equality only. -/
def Compares (op : BinOp) (ty : Ty) : Prop :=
  ty.isComparable = true ∧ (op.isOrdering = true → ty ≠ .bool)

/-- Whether the operator makes a boolean. -/
def isBoolean : BinOp → Bool
  | .add | .sub | .mul | .div | .concat => false
  | _ => true

end BinOp

namespace Expression

/-- Every comparison in the expression compares two operands of one type, and
that type obeys the comparison rule. -/
def ComparisonsAllowed (e : Expression) (schema : Schema) : Prop :=
  ∀ op lhs rhs, .binOp op lhs rhs ∈ e.postOrder → op.isComparison = true →
    ∃ ty, infer lhs schema = .ok ty ∧ infer rhs schema = .ok ty ∧ op.Compares ty

/-- The type an operand shows on its outermost node: the type of a column, of
the column of a `MIN` or `MAX`, or of a cast, and the types of JSON and boolean
nodes. Every other node makes a number or a string, or is a literal of a type
without restrictions. -/
def shownTy (schema : Schema) : Expression → Option Ty
  | .attr name | .agg (.min name) | .agg (.max name) => schema.lookup name
  | .cast _ target => some target
  | .lit (.json _) => some .json
  | .lit (.bool _) | .unOp .not _ | .like _ _ | .inList _ _ | .isNull _ => some .bool
  | .binOp op _ _ => if op.isBoolean then some .bool else none
  | .lit _ | .unOp .neg _ | .agg _ => none

/-- No operand of a comparison shows a type that the comparison rule forbids. -/
def OperandsAllowed (e : Expression) (schema : Schema) : Prop :=
  ∀ op lhs rhs, .binOp op lhs rhs ∈ e.postOrder → op.isComparison = true →
    ∀ operand ∈ [lhs, rhs], ∀ ty ∈ operand.shownTy schema, op.Compares ty

end Expression

theorem isNumeric_compares {ty : Ty} (h : isNumeric ty = true) (op : BinOp) : op.Compares ty := by
  cases ty <;> simp_all [isNumeric, BinOp.Compares, Ty.isComparable]

theorem isNumeric_of_sumTy {columnTy ty : Ty} (h : sumTy columnTy = .ok ty) :
    isNumeric ty = true := by
  cases columnTy with
  | int32 | int64 | float64 | decimal =>
      obtain rfl := Except.ok.inj h
      rfl
  | _ => simp [sumTy] at h

theorem isNumeric_of_avgTy {columnTy ty : Ty} (h : avgTy columnTy = .ok ty) :
    isNumeric ty = true := by
  cases columnTy with
  | int32 | int64 | float64 | decimal =>
      obtain rfl := Except.ok.inj h
      rfl
  | _ => simp [avgTy] at h

private theorem compares_scalar {ty : Ty} (hclass : ty.isComparable = true) (hbool : ty ≠ .bool)
    (op : BinOp) : op.Compares ty :=
  ⟨hclass, fun _ => hbool⟩

/-- An accepted operand either has the type it shows, or shows none and has a
type that every comparison allows. -/
theorem shownTy_of_infer {e : Expression} {schema : Schema} {ty : Ty}
    (hty : infer e schema = .ok ty) :
    e.shownTy schema = some ty ∨ (e.shownTy schema = none ∧ ∀ op : BinOp, op.Compares ty) := by
  cases e with
  | attr name => exact Or.inl (by simpa [infer, Expression.shownTy] using hty)
  | lit value =>
      cases value with
      | json text | bool b =>
          obtain rfl := Except.ok.inj hty
          exact Or.inl rfl
      | int32 n | int64 n | float64 x | decimal text | string text | bytes data | dateTime text =>
          obtain rfl := Except.ok.inj hty
          exact Or.inr ⟨rfl, compares_scalar rfl (by simp)⟩
      | relation rows | array values | optional inner => simp [infer, inferValue] at hty
  | binOp op lhs rhs =>
      obtain ⟨lt, -, rt, -, hop⟩ := by simpa only [infer, bind_eq_ok] using hty
      cases op with
      | add | sub | mul | div =>
          obtain ⟨-, -, -, hnumeric, hsame⟩ := by
            simpa only [inferBinop, bind_eq_ok, ensure_eq_ok, pure_eq_ok] using hop
          exact Or.inr ⟨rfl, isNumeric_compares (hsame ▸ hnumeric)⟩
      | concat =>
          obtain ⟨-, -, -, -, rfl⟩ := by
            simpa only [inferBinop, bind_eq_ok, ensure_eq_ok, pure_eq_ok] using hop
          exact Or.inr ⟨rfl, compares_scalar rfl (by simp)⟩
      | eq | ne | lt | le | gt | ge =>
          obtain ⟨-, -, rfl⟩ := by simpa only [inferBinop, bind_eq_ok, pure_eq_ok] using hop
          exact Or.inl rfl
      | and | or =>
          obtain ⟨-, -, -, -, rfl⟩ := by
            simpa only [inferBinop, bind_eq_ok, ensure_eq_ok, pure_eq_ok] using hop
          exact Or.inl rfl
  | unOp op operand =>
      obtain ⟨ot, -, hop⟩ := by simpa only [infer, bind_eq_ok] using hty
      cases op with
      | neg =>
          obtain ⟨-, hnumeric, rfl⟩ := by
            simpa only [inferUnop, bind_eq_ok, ensure_eq_ok, pure_eq_ok] using hop
          exact Or.inr ⟨rfl, isNumeric_compares hnumeric⟩
      | not =>
          obtain ⟨-, -, rfl⟩ := by
            simpa only [inferUnop, bind_eq_ok, ensure_eq_ok, pure_eq_ok] using hop
          exact Or.inl rfl
  | like operand pattern | inList operand values =>
      obtain ⟨-, -, -, -, rfl⟩ := by
        simpa only [infer, bind_eq_ok, pure_eq_ok] using hty
      exact Or.inl rfl
  | isNull operand | cast operand target =>
      obtain ⟨-, -, rfl⟩ := by simpa only [infer, bind_eq_ok, pure_eq_ok] using hty
      exact Or.inl rfl
  | agg a =>
      cases a with
      | count attr =>
          obtain rfl := Except.ok.inj hty
          exact Or.inr ⟨rfl, compares_scalar rfl (by simp)⟩
      | sum name =>
          obtain ⟨columnTy, -, hsum⟩ := (bind_eq_ok _ _ _).mp hty
          exact Or.inr ⟨rfl, isNumeric_compares (isNumeric_of_sumTy hsum)⟩
      | avg name =>
          obtain ⟨columnTy, -, havg⟩ := (bind_eq_ok _ _ _).mp hty
          exact Or.inr ⟨rfl, isNumeric_compares (isNumeric_of_avgTy havg)⟩
      | min name | max name =>
          obtain ⟨columnTy, hlookup, hextremum⟩ := (bind_eq_ok _ _ _).mp hty
          obtain ⟨-, rfl⟩ := extremumTy_eq_ok.mp hextremum
          exact Or.inl ((okOr_eq_ok _ _ _).mp hlookup)

/-- For an operand of an accepted expression, the comparison rule on its type
is the comparison rule on the type it shows. -/
theorem compares_iff_shownTy {e : Expression} {schema : Schema} {ty : Ty}
    (hty : infer e schema = .ok ty) (op : BinOp) :
    op.Compares ty ↔ ∀ shown ∈ e.shownTy schema, op.Compares shown := by
  rcases shownTy_of_infer hty with hshown | ⟨hshown, hall⟩
  · simp [hshown]
  · simp [hshown, hall op]

/-- An accepted comparison has two operands of one type. -/
theorem operands_of_comparison {op : BinOp} {lhs rhs : Expression} {schema : Schema} {ty : Ty}
    (hop : op.isComparison = true) (hty : infer (.binOp op lhs rhs) schema = .ok ty) :
    ∃ operandTy, infer lhs schema = .ok operandTy ∧ infer rhs schema = .ok operandTy := by
  obtain ⟨lt, hl, rt, hr, hresult⟩ := by simpa only [infer, bind_eq_ok] using hty
  cases op with
  | eq | ne | lt | le | gt | ge =>
      obtain ⟨-, rfl, -⟩ := by
        simpa only [inferBinop, requireSame, bind_eq_ok, ensure_eq_ok] using hresult
      exact ⟨lt, hl, hr⟩
  | add | sub | mul | div | and | or | concat => simp [BinOp.isComparison] at hop

/-- An accepted expression compares only comparable operands exactly when no
operand of a comparison shows a forbidden type. -/
theorem comparisonsAllowed_iff {e : Expression} {schema : Schema} {ty : Ty}
    (hty : infer e schema = .ok ty) :
    e.ComparisonsAllowed schema ↔ e.OperandsAllowed schema := by
  apply forall₃_congr
  intro op lhs rhs
  apply forall₂_congr
  intro hnode hop
  obtain ⟨nodeTy, hnodeTy⟩ := infer_node hty _ hnode
  obtain ⟨operandTy, hl, hr⟩ := operands_of_comparison hop hnodeTy
  simp only [List.forall_mem_cons, List.not_mem_nil, false_implies, implies_true, and_true,
    ← compares_iff_shownTy hl, ← compares_iff_shownTy hr, and_self]
  constructor
  · rintro ⟨other, hother, -, hcompares⟩
    obtain rfl := Except.ok.inj (hl.symm.trans hother)
    exact hcompares
  · intro hcompares
    exact ⟨operandTy, hl, hr, hcompares⟩

section Kernel

variable [Whittle]

/-- Which accepted expressions compare only comparable operands: for inference,
for the two predicate constructors and for the two operators that take a
predicate, exactly those in which no operand of a comparison shows a forbidden
type on its outermost node. -/
theorem comparisons_allowed_iff :
    (∀ (e : Expression) (schema : Schema) (ty : Ty), infer e schema = .ok ty →
      (e.ComparisonsAllowed schema ↔ e.OperandsAllowed schema)) ∧
    (∀ (schema : Schema) (e : Expression) (b : BoolExpression),
      BoolExpression.tryNew schema e = .ok b →
        (b.expr.ComparisonsAllowed schema ↔ b.expr.OperandsAllowed schema)) ∧
    (∀ (schema : Schema) (e : Expression) (p : CanonicalPredicate),
      CanonicalPredicate.tryNew schema e = .ok p →
        (p.inner.expr.ComparisonsAllowed schema ↔ p.inner.expr.OperandsAllowed schema)) ∧
    (∀ (input : Op) (b : BoolExpression) (op : Op), input.restrict (.expr b) = .ok op →
      (b.expr.ComparisonsAllowed input.schema ↔ b.expr.OperandsAllowed input.schema)) ∧
    (∀ (left right : Op) (kind : JoinKind) (b : BoolExpression) (op : Op),
      left.join right kind (.theta (.expr b)) = .ok op →
        (b.expr.ComparisonsAllowed op.schema ↔ b.expr.OperandsAllowed op.schema)) := by
  refine ⟨?_, ?_, ?_, ?_, ?_⟩
  · intro e schema ty hty
    exact comparisonsAllowed_iff hty
  · intro schema e b hb
    obtain ⟨hty, rfl⟩ := BoolExpression.tryNew_eq_ok.mp hb
    exact comparisonsAllowed_iff hty
  · intro schema e p hp
    obtain ⟨-, hty, rfl⟩ := CanonicalPredicate.tryNew_eq_ok.mp hp
    exact comparisonsAllowed_iff hty
  · intro input b op hop
    obtain ⟨hcheck, -⟩ := Op.restrict_eq_ok.mp hop
    have hty := (checkPredicate_expr_ok.mp hcheck).2
    exact comparisonsAllowed_iff hty
  · intro left right kind b op hop
    obtain ⟨hcheck, -⟩ := Op.join_theta_eq_ok.mp hop
    have hty := (checkPredicate_expr_ok.mp hcheck).2
    exact comparisonsAllowed_iff hty

end Kernel

def Catalogue.jsonIsJson : Expression :=
  .binOp .eq (.lit (.json ⟨"1", by decide⟩)) (.lit (.json ⟨"1.0", by decide⟩))

/-- The id of a user compares with an integer. -/
theorem comparisons_allowed_users :
    Catalogue.idIsSeven.ComparisonsAllowed Catalogue.users.schema := by
  refine (comparisons_allowed_iff.1 Catalogue.idIsSeven Catalogue.users.schema .bool rfl).mpr ?_
  intro op lhs rhs hnode _ operand hoperand ty hty
  simp only [Catalogue.idIsSeven, Expression.postOrder, List.mem_append, List.mem_singleton,
    Expression.binOp.injEq, reduceCtorEq, false_or] at hnode
  obtain ⟨rfl, rfl, rfl⟩ := hnode
  have hid : Catalogue.users.schema.lookup Catalogue.id = some .int64 := by decide
  rcases List.mem_pair.mp hoperand with rfl | rfl
  · obtain rfl : Ty.int64 = ty := by simpa [Expression.shownTy, hid] using hty
    exact isNumeric_compares rfl _
  · simp [Expression.shownTy] at hty

/-- A comparison of two JSON values passes every check. -/
theorem json_comparison_accepted :
    ∃ b op, BoolExpression.tryNew Catalogue.users.schema Catalogue.jsonIsJson = .ok b ∧
      Catalogue.users.restrict (.expr b) = .ok op ∧
      ¬ b.expr.ComparisonsAllowed Catalogue.users.schema := by
  refine ⟨⟨Catalogue.jsonIsJson, Catalogue.users.schema, rfl⟩, _, rfl, rfl, ?_⟩
  intro hallowed
  obtain ⟨ty, hl, -, hcompares⟩ := hallowed .eq _ _ (Expression.mem_postOrder_self _) rfl
  obtain rfl := Except.ok.inj hl
  have hclass := hcompares.1
  simp [Ty.isComparable] at hclass

end AxiomCore
