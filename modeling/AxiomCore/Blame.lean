import AxiomCore.Calls

/-!
Blame. Inference fails on an expression with the error of the first faulty node:
the nodes are visited operands first and left before right, every node before the
faulty one is accepted, and so the fault is in the node itself and not in its
operands. The faults of a single node are listed once, by its outermost form and
the types of its operands.
-/

namespace AxiomCore

open Checked Refined

/-- Literals that only a context gives a type. -/
def Value.isCompound : Value → Bool
  | .relation _ | .array _ | .optional _ => true
  | _ => false

namespace BinOp

def isLogical : BinOp → Bool
  | .and | .or => true
  | _ => false

/-- The types that an operator accepts when both operands have one type. -/
def appliesTo : BinOp → Ty → Bool
  | .add, ty | .sub, ty | .mul, ty | .div, ty => isNumeric ty
  | .concat, ty => ty = .string
  | .eq, _ | .ne, _ | .lt, _ | .le, _ | .gt, _ | .ge, _ => true
  | .and, ty | .or, ty => ty = .bool

end BinOp

/-- The types that are neither JSON nor a relation on the outside. -/
def Ty.hasExtremum : Ty → Bool
  | .json | .relation _ => false
  | _ => true

namespace Agg

/-- The column an aggregate looks up. `COUNT` looks up none. -/
def column : Agg → Option AttributeName
  | .count _ => none
  | .sum name | .min name | .max name | .avg name => some name

/-- The column types that an aggregate accepts. -/
def appliesTo : Agg → Ty → Bool
  | .count _, _ => true
  | .sum _, ty | .avg _, ty => isNumeric ty
  | .min _, ty | .max _, ty => ty.hasExtremum

end Agg

namespace Expression

/-- The immediate operands, left to right. -/
def children : Expression → List Expression
  | .attr _ | .lit _ | .agg _ => []
  | .binOp _ lhs rhs => [lhs, rhs]
  | .unOp _ operand | .like operand _ | .inList operand _ | .isNull operand
  | .cast operand _ => [operand]

/-- The nodes of a tree are the nodes of its operands and then itself. -/
theorem postOrder_eq_children (e : Expression) :
    e.postOrder = e.children.flatMap postOrder ++ [e] := by
  cases e <;> simp [postOrder, children]

end Expression

/-- The faults of a single node whose operands are accepted, with the error that
describes each. -/
inductive NodeFault (s : Schema) : Expression → InferError → Prop
  | attr {name} : name ∉ s.names → NodeFault s (.attr name) (.unknownAttribute name)
  | lit {value : Value} : value.isCompound = true → NodeFault s (.lit value) .ambiguousLiteral
  | operandTypes {op : BinOp} {lhs rhs lt rt} : op.isLogical = false →
      infer lhs s = .ok lt → infer rhs s = .ok rt → lt ≠ rt →
      NodeFault s (.binOp op lhs rhs) (.binOpTypeMismatch lt rt)
  | binOp {op : BinOp} {lhs rhs ty} : op.isLogical = false →
      infer lhs s = .ok ty → infer rhs s = .ok ty → op.appliesTo ty = false →
      NodeFault s (.binOp op lhs rhs) (.operatorNotApplicable ty)
  | leftOperand {op : BinOp} {lhs rhs lt rt} : op.isLogical = true →
      infer lhs s = .ok lt → infer rhs s = .ok rt → lt ≠ .bool →
      NodeFault s (.binOp op lhs rhs) (.typeMismatch .bool lt)
  | rightOperand {op : BinOp} {lhs rhs rt} : op.isLogical = true →
      infer lhs s = .ok .bool → infer rhs s = .ok rt → rt ≠ .bool →
      NodeFault s (.binOp op lhs rhs) (.typeMismatch .bool rt)
  | neg {operand ty} : infer operand s = .ok ty → isNumeric ty = false →
      NodeFault s (.unOp .neg operand) (.operatorNotApplicable ty)
  | not {operand ty} : infer operand s = .ok ty → ty ≠ .bool →
      NodeFault s (.unOp .not operand) (.typeMismatch .bool ty)
  | like {operand pattern ty} : infer operand s = .ok ty → ty ≠ .string →
      NodeFault s (.like operand pattern) (.typeMismatch .string ty)
  | inListLiteral {operand ty} {values : InListValues} (i : Fin values.length) :
      infer operand s = .ok ty → (values.get i).isCompound = true →
      (∀ j < i, inferValue (values.get j) = .ok ty) →
      NodeFault s (.inList operand values) .ambiguousLiteral
  | inListElement {operand ty got} {values : InListValues} (i : Fin values.length) :
      infer operand s = .ok ty → inferValue (values.get i) = .ok got → got ≠ ty →
      (∀ j < i, inferValue (values.get j) = .ok ty) →
      NodeFault s (.inList operand values) (.inListElementMismatch i ty got)
  | aggColumn {a : Agg} {name} : a.column = some name → name ∉ s.names →
      NodeFault s (.agg a) (.unknownAttribute name)
  | agg {a : Agg} {name ty} : a.column = some name → s.lookup name = some ty →
      a.appliesTo ty = false → NodeFault s (.agg a) (.operatorNotApplicable ty)

theorem inferValue_eq_error {v : Value} {err : InferError} :
    inferValue v = .error err ↔ v.isCompound = true ∧ err = .ambiguousLiteral := by
  cases v <;> simp [inferValue, Value.isCompound, eq_comm]

theorem inferBinop_eq_error {op : BinOp} {lt rt : Ty} {err : InferError} :
    inferBinop op lt rt = .error err ↔
      (op.isLogical = false ∧ lt ≠ rt ∧ err = .binOpTypeMismatch lt rt) ∨
      (op.isLogical = false ∧ lt = rt ∧ op.appliesTo rt = false ∧
        err = .operatorNotApplicable rt) ∨
      (op.isLogical = true ∧ lt ≠ .bool ∧ err = .typeMismatch .bool lt) ∨
      (op.isLogical = true ∧ lt = .bool ∧ rt ≠ .bool ∧ err = .typeMismatch .bool rt) := by
  cases op with
  | add | sub | mul | div | concat =>
      by_cases hsame : lt = rt
      · subst hsame
        simp [inferBinop, requireSame, BinOp.isLogical, BinOp.appliesTo, @eq_comm _ err]
      · simp [inferBinop, requireSame, BinOp.isLogical, hsame, @eq_comm _ err]
  | eq | ne | lt | le | gt | ge =>
      simp [inferBinop, requireSame, BinOp.isLogical, BinOp.appliesTo, @eq_comm _ err]
  | and | or =>
      simp [inferBinop, BinOp.isLogical, @eq_comm _ err]

theorem inferUnop_eq_error {op : UnOp} {ty : Ty} {err : InferError} :
    inferUnop op ty = .error err ↔
      (op = .neg ∧ isNumeric ty = false ∧ err = .operatorNotApplicable ty) ∨
      (op = .not ∧ ty ≠ .bool ∧ err = .typeMismatch .bool ty) := by
  cases op <;> simp [inferUnop, @eq_comm _ err]

theorem sumTy_eq_error {ty : Ty} {err : InferError} :
    sumTy ty = .error err ↔ isNumeric ty = false ∧ err = .operatorNotApplicable ty := by
  cases ty <;> simp [sumTy, isNumeric, @eq_comm _ err]

theorem avgTy_eq_error {ty : Ty} {err : InferError} :
    avgTy ty = .error err ↔ isNumeric ty = false ∧ err = .operatorNotApplicable ty := by
  cases ty <;> simp [avgTy, isNumeric, @eq_comm _ err]

theorem extremumTy_eq_ok {columnTy ty : Ty} :
    extremumTy columnTy = .ok ty ↔ columnTy.hasExtremum = true ∧ ty = columnTy := by
  cases columnTy <;> simp [extremumTy, Ty.hasExtremum, eq_comm]

theorem extremumTy_eq_error {ty : Ty} {err : InferError} :
    extremumTy ty = .error err ↔ ty.hasExtremum = false ∧ err = .operatorNotApplicable ty := by
  cases ty <;> simp [extremumTy, Ty.hasExtremum, @eq_comm _ err]

/-- An aggregate fails on its column: the column is missing, or the aggregate does not
accept its type. -/
theorem aggTy_eq_error {a : Agg} {s : Schema} {err : InferError} :
    aggTy a s = .error err ↔ ∃ name, a.column = some name ∧
      ((name ∉ s.names ∧ err = .unknownAttribute name) ∨
        ∃ ty, s.lookup name = some ty ∧ a.appliesTo ty = false ∧
          err = .operatorNotApplicable ty) := by
  cases a with
  | count attr => simp [aggTy, Agg.column]
  | sum name | avg name | min name | max name =>
      simp [aggTy, lookup, Agg.column, Agg.appliesTo, sumTy_eq_error, avgTy_eq_error,
        extremumTy_eq_error, Schema.lookup_eq_none_iff, @eq_comm _ err]

/-- The loop over a list of literals fails on the first literal that is compound or of
another type. -/
theorem inList_loop_eq_error {values : InListValues} {ty : Ty} {err : InferError} :
    (forM values.toList.zipIdx fun (v, index) => do
      let vt ← inferValue v
      ensure (vt = ty) (.inListElementMismatch index ty vt)) = .error err ↔
    ∃ i : Fin values.length, (∀ j < i, inferValue (values.get j) = .ok ty) ∧
      (((values.get i).isCompound = true ∧ err = .ambiguousLiteral) ∨
        ∃ got, inferValue (values.get i) = .ok got ∧ got ≠ ty ∧
          err = .inListElementMismatch i ty got) := by
  simp only [BoundedVec.zipIdx_toList, List.forM_map, forM_finRange_eq_error, bind_eq_error,
    bind_eq_ok, ensure_eq_error, ensure_eq_ok, inferValue_eq_error, exists_eq_right]
  constructor
  · intro hloop
    obtain ⟨i, hfail, hbefore⟩ := hloop
    refine ⟨i, hbefore, ?_⟩
    rcases hfail with hcompound | ⟨got, hgot, hdiffer, herr⟩
    · exact Or.inl hcompound
    · exact Or.inr ⟨got, hgot, hdiffer, herr.symm⟩
  · intro hfirst
    obtain ⟨i, hbefore, hfail⟩ := hfirst
    refine ⟨i, ?_, hbefore⟩
    rcases hfail with hcompound | ⟨got, hgot, hdiffer, herr⟩
    · exact Or.inl hcompound
    · exact Or.inr ⟨got, hgot, hdiffer, herr.symm⟩

/-- Inference fails on a faulty node with the error that describes the fault, although
the operands are accepted. -/
theorem NodeFault.infer_eq_error {s : Schema} {node : Expression} {err : InferError}
    (hfault : NodeFault s node err) :
    infer node s = .error err ∧ ∀ child ∈ node.children, ∃ ty, infer child s = .ok ty := by
  cases hfault with
  | attr hname => simp [infer, Expression.children, Schema.lookup_eq_none_iff, hname]
  | lit hcompound => simp [infer, Expression.children, inferValue_eq_error, hcompound]
  | operandTypes hop hl hr hdiffer =>
      simp [infer, Expression.children, hl, hr, inferBinop_eq_error, hop, hdiffer]
  | binOp hop hl hr happlies =>
      simp [infer, Expression.children, hl, hr, inferBinop_eq_error, hop, happlies]
  | leftOperand hop hl hr hdiffer =>
      simp [infer, Expression.children, hl, hr, inferBinop_eq_error, hop, hdiffer]
  | rightOperand hop hl hr hdiffer =>
      simp [infer, Expression.children, hl, hr, inferBinop_eq_error, hop, hdiffer]
  | neg ho hnumeric =>
      simp [infer, Expression.children, ho, inferUnop_eq_error, hnumeric]
  | not ho hdiffer =>
      simp [infer, Expression.children, ho, inferUnop_eq_error, hdiffer]
  | like ho hdiffer => simp [infer, Expression.children, ho, hdiffer]
  | inListLiteral i ho hcompound hbefore =>
      have hloop := inList_loop_eq_error.mpr ⟨i, hbefore, Or.inl ⟨hcompound, rfl⟩⟩
      simp [infer, Expression.children, ho, hloop]
  | inListElement i ho hgot hdiffer hbefore =>
      have hloop := inList_loop_eq_error.mpr
        ⟨i, hbefore, Or.inr ⟨_, hgot, hdiffer, rfl⟩⟩
      simp [infer, Expression.children, ho, hloop]
  | aggColumn hcolumn hname => simp [infer, Expression.children, aggTy_eq_error, hcolumn, hname]
  | agg hcolumn hlookup happlies =>
      simp [infer, Expression.children, aggTy_eq_error, hcolumn, hlookup, happlies]

/-- A node on which inference fails although the operands are accepted is faulty, and the
error describes the fault. -/
theorem nodeFault_of_infer {s : Schema} {node : Expression} {err : InferError}
    (hfail : infer node s = .error err)
    (hchildren : ∀ child ∈ node.children, ∃ ty, infer child s = .ok ty) :
    NodeFault s node err := by
  cases node with
  | attr name =>
      simp only [infer, okOr_eq_error, Schema.lookup_eq_none_iff] at hfail
      obtain ⟨hname, rfl⟩ := hfail
      exact .attr hname
  | lit value =>
      simp only [infer, inferValue_eq_error] at hfail
      obtain ⟨hcompound, rfl⟩ := hfail
      exact .lit hcompound
  | binOp op lhs rhs =>
      obtain ⟨lt, hl⟩ := hchildren lhs (by simp [Expression.children])
      obtain ⟨rt, hr⟩ := hchildren rhs (by simp [Expression.children])
      have hop : inferBinop op lt rt = .error err := by simpa [infer, hl, hr] using hfail
      rw [inferBinop_eq_error] at hop
      rcases hop with ⟨hop, hdiffer, rfl⟩ | ⟨hop, rfl, happlies, rfl⟩ | ⟨hop, hdiffer, rfl⟩ |
        ⟨hop, rfl, hdiffer, rfl⟩
      · exact .operandTypes hop hl hr hdiffer
      · exact .binOp hop hl hr happlies
      · exact .leftOperand hop hl hr hdiffer
      · exact .rightOperand hop hl hr hdiffer
  | unOp op operand =>
      obtain ⟨ot, ho⟩ := hchildren operand (by simp [Expression.children])
      have hop : inferUnop op ot = .error err := by simpa [infer, ho] using hfail
      rw [inferUnop_eq_error] at hop
      rcases hop with ⟨rfl, hnumeric, rfl⟩ | ⟨rfl, hdiffer, rfl⟩
      · exact .neg ho hnumeric
      · exact .not ho hdiffer
  | like operand pattern =>
      obtain ⟨ot, ho⟩ := hchildren operand (by simp [Expression.children])
      obtain ⟨hdiffer, rfl⟩ : ot ≠ .string ∧ .typeMismatch .string ot = err := by
        simpa [infer, ho] using hfail
      exact .like ho hdiffer
  | inList operand values =>
      obtain ⟨ot, ho⟩ := hchildren operand (by simp [Expression.children])
      simp only [infer, ho, bind_eq_error, inList_loop_eq_error, pure_ne_error, and_false,
        exists_false, or_false, reduceCtorEq, Except.ok.injEq, exists_eq_left', false_or] at hfail
      obtain ⟨i, hbefore, ⟨hcompound, rfl⟩ | ⟨got, hgot, hdiffer, rfl⟩⟩ := hfail
      · exact .inListLiteral i ho hcompound hbefore
      · exact .inListElement i ho hgot hdiffer hbefore
  | isNull operand | cast operand target =>
      obtain ⟨ot, ho⟩ := hchildren operand (by simp [Expression.children])
      simp [infer, ho] at hfail
  | agg a =>
      simp only [infer, aggTy_eq_error] at hfail
      obtain ⟨name, hcolumn, ⟨hname, rfl⟩ | ⟨ty, hlookup, happlies, rfl⟩⟩ := hfail
      · exact .aggColumn hcolumn hname
      · exact .agg hcolumn hlookup happlies

/-- A node whose operands are all accepted is the first failure of its own tree. -/
theorem firstFailure_self {s : Schema} {e : Expression} {err : InferError}
    (hfail : infer e s = .error err)
    (hchildren : ∀ child ∈ e.children, ∃ ty, infer child s = .ok ty) :
    FirstFailure (infer · s) e.postOrder e err := by
  have hself : FirstFailure (infer · s) [e] e err := firstFailure_singleton hfail
  rw [Expression.postOrder_eq_children]
  apply hself.append_left
  intro node hnode
  obtain ⟨child, hchild, hmem⟩ := List.mem_flatMap.mp hnode
  obtain ⟨ty, hty⟩ := hchildren child hchild
  exact infer_node hty node hmem

/-- The error of inference is that of the first faulty node, by induction over the
tree: a failing operand is reported before the operands to its right and before the
operator itself. -/
theorem exists_firstFailure {s : Schema} {e : Expression} {err : InferError}
    (hfail : infer e s = .error err) :
    ∃ node, FirstFailure (infer · s) e.postOrder node err ∧ NodeFault s node err := by
  induction e with
  | attr name | lit value | agg a =>
      have hfault := nodeFault_of_infer hfail (by simp [Expression.children])
      exact ⟨_, firstFailure_singleton hfail, hfault⟩
  | binOp op lhs rhs ihl ihr =>
      cases hl : infer lhs s with
      | error e =>
          obtain rfl : e = err := by simpa [infer, hl] using hfail
          obtain ⟨node, hfirst, hfault⟩ := ihl hl
          exact ⟨node, (hfirst.append_right _).append_right _, hfault⟩
      | ok lt =>
          cases hr : infer rhs s with
          | error e =>
              obtain rfl : e = err := by simpa [infer, hl, hr] using hfail
              obtain ⟨node, hfirst, hfault⟩ := ihr hr
              exact ⟨node, (hfirst.append_left (infer_node hl)).append_right _, hfault⟩
          | ok rt =>
              have hchildren : ∀ child ∈ (Expression.binOp op lhs rhs).children,
                  ∃ ty, infer child s = .ok ty := by simp [Expression.children, hl, hr]
              exact ⟨_, firstFailure_self hfail hchildren, nodeFault_of_infer hfail hchildren⟩
  | unOp op operand ih | like operand pattern ih | inList operand values ih | isNull operand ih
  | cast operand target ih =>
      cases ho : infer operand s with
      | error e =>
          obtain rfl : e = err := by simpa [infer, ho] using hfail
          obtain ⟨node, hfirst, hfault⟩ := ih ho
          exact ⟨node, hfirst.append_right _, hfault⟩
      | ok ot =>
          have hchildren : ∀ child ∈ [operand], ∃ ty, infer child s = .ok ty := by simp [ho]
          exact ⟨_, firstFailure_self hfail hchildren, nodeFault_of_infer hfail hchildren⟩

/-- Inference accepts an expression when it accepts every node of it. Otherwise its
error is that of the first node in post-order that it rejects: the operands of that
node are accepted, inference of the node alone gives the same error, and the error
describes the node. -/
theorem infer_blames_first_fault (e : Expression) (s : Schema) :
    ((∃ ty, infer e s = .ok ty) ↔ ∀ node ∈ e.postOrder, ∃ ty, infer node s = .ok ty) ∧
    ∀ err, infer e s = .error err →
      ∃ before node after, e.postOrder = before ++ node :: after ∧
        (∀ earlier ∈ before, ∃ ty, infer earlier s = .ok ty) ∧
        (∀ child ∈ node.children, ∃ ty, infer child s = .ok ty) ∧
        infer node s = .error err ∧ NodeFault s node err := by
  constructor
  · constructor
    · intro haccepted
      obtain ⟨ty, hty⟩ := haccepted
      exact infer_node hty
    · intro hnodes
      exact hnodes e e.mem_postOrder_self
  · intro err hfail
    obtain ⟨node, ⟨before, after, horder, hbefore, hnode⟩, hfault⟩ := exists_firstFailure hfail
    have hchildren := hfault.infer_eq_error.2
    exact ⟨before, node, after, horder, hbefore, hchildren, hnode, hfault⟩

namespace Catalogue

/-- The name of a user against an integer. -/
def nameIsSeven : Expression := .binOp .eq (.attr name) (.lit (.int64 7))

end Catalogue

/-- A conjunction whose right operand compares a string with an integer is blamed on a
node that reports the two types. -/
theorem infer_blames_first_fault_users :
    ∃ node ∈ (Expression.binOp .and Catalogue.idIsSeven Catalogue.nameIsSeven).postOrder,
      (∀ child ∈ node.children, ∃ ty, infer child Catalogue.users.schema = .ok ty) ∧
        NodeFault Catalogue.users.schema node (.binOpTypeMismatch .string .int64) := by
  have hblame := (infer_blames_first_fault
    (.binOp .and Catalogue.idIsSeven Catalogue.nameIsSeven) Catalogue.users.schema).2
  obtain ⟨before, node, after, horder, -, hchildren, -, hfault⟩ :=
    hblame (.binOpTypeMismatch .string .int64) rfl
  refine ⟨node, ?_, hchildren, hfault⟩
  rw [horder]
  simp

end AxiomCore
