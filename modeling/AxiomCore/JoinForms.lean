import AxiomCore.Calls
import AxiomCore.Outcome

/-!
Three ways of writing a join. A theta join is a product followed by a
restriction, errors included. An equi-join whose columns exist is the theta
join by the conjunction of its equations: each side is looked up in its own
header, and in the concatenation the same lookup finds the same column.
-/

namespace AxiomCore

open Checked

/-- `e` conjoins the listed expressions, in their order and nested in any
way. -/
inductive ConjunctionOf : List Expression → Expression → Prop
  | one (e : Expression) : ConjunctionOf [e] e
  | both {es fs : List Expression} {e f : Expression} : ConjunctionOf es e →
      ConjunctionOf fs f → ConjunctionOf (es ++ fs) (.binOp .and e f)

namespace ConjunctionOf

theorem exists_of_cons (e : Expression) (es : List Expression) :
    ∃ conj, ConjunctionOf (e :: es) conj := by
  induction es generalizing e with
  | nil => exact ⟨e, .one e⟩
  | cons f fs ih =>
      obtain ⟨conj, hrest⟩ := ih f
      exact ⟨.binOp .and e conj, .both (.one e) hrest⟩

/-- A conjunction is boolean exactly when each of its parts is. -/
theorem infer_bool_iff {es : List Expression} {e : Expression} (h : ConjunctionOf es e)
    (s : Schema) : infer e s = .ok .bool ↔ ∀ x ∈ es, infer x s = .ok .bool := by
  induction h with
  | one e => simp
  | both _ _ ihe ihf =>
      rw [List.forall_mem_append, ← ihe, ← ihf]
      simp only [infer, inferBinop, bind_eq_ok, ensure_eq_ok, exists_const, pure_eq_ok, and_true]
      constructor
      · rintro ⟨lt, hl, rt, hr, rfl, rfl⟩
        exact ⟨hl, hr⟩
      · rintro ⟨hl, hr⟩
        exact ⟨.bool, hl, .bool, hr, rfl, rfl⟩

theorem aggregateFree_iff {es : List Expression} {e : Expression} (h : ConjunctionOf es e) :
    containsAggregate e = false ↔ ∀ x ∈ es, containsAggregate x = false := by
  induction h with
  | one e => simp
  | both _ _ ihe ihf =>
      rw [List.forall_mem_append, ← ihe, ← ihf]
      simp [containsAggregate]

end ConjunctionOf

/-- The equation of the two columns of a pair. -/
def EquiPair.equation (pair : EquiPair) : Expression :=
  .binOp .eq (.attr pair.left) (.attr pair.right)

theorem EquiPair.infer_equation_iff {pair : EquiPair} {s : Schema} :
    infer pair.equation s = .ok .bool ↔
      ∃ ty, ⟨pair.left, ty⟩ ∈ s.attributes ∧ ⟨pair.right, ty⟩ ∈ s.attributes := by
  simp only [equation, infer, inferBinop, requireSame, bind_eq_ok, okOr_eq_ok, ensure_eq_ok,
    exists_const, pure_eq_ok, and_true, Schema.lookup_eq_some_iff]
  constructor
  · rintro ⟨ty, hl, _, hr, rfl⟩
    exact ⟨ty, hl, hr⟩
  · rintro ⟨ty, hl, hr⟩
    exact ⟨ty, hl, ty, hr, rfl⟩

namespace Op

theorem checkPair_eq_ok {left right : Op} {pair : EquiPair} {u : Unit} :
    checkPair left right pair = .ok u ↔
      ∃ ty, ⟨pair.left, ty⟩ ∈ left.schema.attributes ∧
        ⟨pair.right, ty⟩ ∈ right.schema.attributes := by
  simp only [checkPair, bind_eq_ok, findOrUnknown_eq_ok, Schema.find_eq_some_iff, ensure_eq_ok]
  constructor
  · rintro ⟨⟨name, ty⟩, ⟨hl, rfl⟩, ⟨name', _⟩, ⟨hr, rfl⟩, rfl⟩
    exact ⟨ty, hl, hr⟩
  · rintro ⟨ty, hl, hr⟩
    exact ⟨_, ⟨hl, rfl⟩, _, ⟨hr, rfl⟩, rfl⟩

section Concatenation

variable {left right : Op} {schema : Schema}
  (hconcat : schema.attributes = left.schema.attributes ++ right.schema.attributes)

include hconcat

/-- A name of left is found in the concatenation where left has it. -/
theorem mem_concat_left {a : Attribute} (hname : a.name ∈ left.schema.names) :
    a ∈ schema.attributes ↔ a ∈ left.schema.attributes := by
  rw [hconcat, List.mem_append, or_iff_left_iff_imp]
  intro hright
  exact absurd (Schema.mem_names_of_mem hright) (disjoint_of_concat hconcat _ hname)

/-- A name of right is found in the concatenation where right has it. -/
theorem mem_concat_right {a : Attribute} (hname : a.name ∈ right.schema.names) :
    a ∈ schema.attributes ↔ a ∈ right.schema.attributes := by
  rw [hconcat, List.mem_append, or_iff_right_iff_imp]
  intro hleft
  exact absurd hname (disjoint_of_concat hconcat _ (Schema.mem_names_of_mem hleft))

/-- The check of a pair and the equation of its columns accept the same
pairs. -/
theorem checkPair_iff_equation {pair : EquiPair} (hleft : pair.left ∈ left.schema.names)
    (hright : pair.right ∈ right.schema.names) :
    checkPair left right pair = .ok () ↔ infer pair.equation schema = .ok .bool := by
  rw [checkPair_eq_ok, EquiPair.infer_equation_iff]
  apply exists_congr
  intro ty
  rw [mem_concat_left hconcat hleft, mem_concat_right hconcat hright]

end Concatenation

/-- The checks of an equi-join over a concatenation are the equations of its
pairs. -/
theorem checkPairs_iff {left right : Op} {schema : Schema} {pairs : EquiPairs} {e : Expression}
    (hconcat : schema.attributes = left.schema.attributes ++ right.schema.attributes)
    (hnames : ∀ pair ∈ pairs.items,
      pair.left ∈ left.schema.names ∧ pair.right ∈ right.schema.names)
    (hconj : ConjunctionOf (pairs.items.map EquiPair.equation) e) :
    (∀ pair ∈ pairs.items, checkPair left right pair = .ok ()) ↔ infer e schema = .ok .bool := by
  rw [hconj.infer_bool_iff, List.forall_mem_map]
  apply forall₂_congr
  intro pair hpair
  obtain ⟨hleft, hright⟩ := hnames pair hpair
  exact checkPair_iff_equation hconcat hleft hright

section Constructors

variable [Whittle]

/-- A theta join is a product and then a restriction. -/
theorem outcome_theta_eq_restrict (left right : Op) (kind : JoinKind) (predicate : Predicate) :
    outcome (left.join right kind (.theta predicate)) =
      outcome (left.product right >>= fun op => op.restrict predicate) := by
  rw [outcome_join_theta, outcome_bind, ← outcome_product]
  simp only [outcome_restrict]
  exact (bind_schema (left.product right) _).symm

theorem equi_iff_product {left right : Op} {kind : JoinKind} {pairs : EquiPairs} {e : Expression}
    (hnames : ∀ pair ∈ pairs.items,
      pair.left ∈ left.schema.names ∧ pair.right ∈ right.schema.names)
    (hconj : ConjunctionOf (pairs.items.map EquiPair.equation) e) :
    (∃ op, left.join right kind (.equi pairs) = .ok op) ↔
      ∃ prod b, left.product right = .ok prod ∧ BoolExpression.tryNew prod.schema e = .ok b := by
  constructor
  · rintro ⟨op, hjoin⟩
    obtain ⟨hpairs, -, hcolumns⟩ := join_equi_eq_ok.mp hjoin
    have hty := (checkPairs_iff hcolumns hnames hconj).mp hpairs
    exact ⟨⟨.product left right, op.schema⟩, ⟨e, op.schema, hty⟩,
      product_eq_ok.mpr ⟨rfl, hcolumns⟩, BoolExpression.tryNew_eq_ok.mpr ⟨hty, rfl⟩⟩
  · rintro ⟨prod, b, hprod, hb⟩
    obtain ⟨-, hcolumns⟩ := product_eq_ok.mp hprod
    obtain ⟨hty, -⟩ := BoolExpression.tryNew_eq_ok.mp hb
    have hpairs := (checkPairs_iff hcolumns hnames hconj).mpr hty
    exact ⟨⟨.join left right kind (.equi pairs), prod.schema⟩,
      join_equi_eq_ok.mpr ⟨hpairs, rfl, hcolumns⟩⟩

/-- The theta join by the accepted conjunction has the header of the product. -/
theorem theta_of_conjunction {left right prod : Op} (kind : JoinKind) {pairs : EquiPairs}
    {e : Expression} {b : BoolExpression}
    (hconj : ConjunctionOf (pairs.items.map EquiPair.equation) e)
    (hprod : left.product right = .ok prod) (hb : BoolExpression.tryNew prod.schema e = .ok b) :
    ∃ op, left.join right kind (.theta (.expr b)) = .ok op ∧ op.schema = prod.schema := by
  obtain ⟨-, hcolumns⟩ := product_eq_ok.mp hprod
  obtain ⟨hty, rfl⟩ := BoolExpression.tryNew_eq_ok.mp hb
  have hfree : containsAggregate b.expr = false := by
    apply hconj.aggregateFree_iff.mpr
    intro x hx
    obtain ⟨pair, -, rfl⟩ := List.mem_map.mp hx
    rfl
  have hcheck : checkPredicate prod.schema (.expr b) = .ok () :=
    checkPredicate_expr_ok.mpr ⟨hfree, hty⟩
  exact ⟨⟨.join left right kind (.theta (.expr b)), prod.schema⟩,
    join_theta_eq_ok.mpr ⟨hcheck, rfl, hcolumns⟩, rfl⟩

/-- The three ways of writing a join agree. A theta join by any predicate is the
product restricted by it, with the same header or the same error. An equi-join
whose columns exist is accepted exactly when the product is and a conjunction of
its equations is boolean over the product, and the theta join by that
conjunction has the same header. -/
theorem join_forms_agree :
    (∀ (l r : Op) (kind : JoinKind) (p : Predicate),
      outcome (l.join r kind (.theta p)) =
        outcome (do let op ← l.product r; op.restrict p)) ∧
    (∀ (l r : Op) (kind kind' : JoinKind) (pairs : EquiPairs),
      (∀ pair ∈ pairs.items, pair.left ∈ l.schema.names ∧ pair.right ∈ r.schema.names) →
      (∃ e, ConjunctionOf (pairs.items.map EquiPair.equation) e) ∧
      ∀ e, ConjunctionOf (pairs.items.map EquiPair.equation) e →
        ((∃ op, l.join r kind (.equi pairs) = .ok op) ↔
          ∃ prod b, l.product r = .ok prod ∧ BoolExpression.tryNew prod.schema e = .ok b) ∧
        ∀ op prod b, l.join r kind (.equi pairs) = .ok op → l.product r = .ok prod →
          BoolExpression.tryNew prod.schema e = .ok b →
          ∃ op', l.join r kind' (.theta (.expr b)) = .ok op' ∧ op'.schema = op.schema) := by
  refine ⟨outcome_theta_eq_restrict, ?_⟩
  intro l r kind kind' pairs hnames
  constructor
  · obtain ⟨pair, rest, hitems⟩ := List.exists_cons_of_length_pos pairs.rule.min_le
    rw [hitems]
    exact ConjunctionOf.exists_of_cons _ _
  · intro e hconj
    refine ⟨equi_iff_product hnames hconj, ?_⟩
    intro op prod b hjoin hprod hb
    obtain ⟨op', hop', hschema⟩ := theta_of_conjunction kind' hconj hprod hb
    have hsame : prod.schema = op.schema := by
      apply Schema.attributes_injective
      rw [(product_eq_ok.mp hprod).2, (join_equi_eq_ok.mp hjoin).2.2]
    exact ⟨op', hop', hschema.trans hsame⟩

end Constructors

end Op

namespace Catalogue

def payer : AttributeName := ⟨"payer", by decide, by decide, by decide⟩

def payments : Op := .source <| .table
  (.ofAttributes [⟨payer, .int64⟩, ⟨total, .int64⟩] (by decide)) ⟨"payments", by decide⟩

def amount : AttributeName := ⟨"amount", by decide, by decide, by decide⟩

def receipts : Op := .source <| .table
  (.ofAttributes [⟨payer, .int64⟩, ⟨amount, .int64⟩] (by decide)) ⟨"receipts", by decide⟩

def byPayerAndAmount : EquiPairs := ⟨[⟨id, payer⟩, ⟨total, amount⟩], by decide⟩

/-- The payer and the amount are those of the order. -/
def sameReceipt : Expression :=
  .binOp .and (.binOp .eq (.attr id) (.attr payer)) (.binOp .eq (.attr total) (.attr amount))

theorem conjunctionOf_sameReceipt :
    ConjunctionOf (byPayerAndAmount.items.map EquiPair.equation) sameReceipt :=
  .both (.one _) (.one _)

end Catalogue

/-- The orders with their receipts, by two pairs or by the conjunction of both. -/
theorem join_forms_agree_receipts :
    ∃ op op' b, Catalogue.orders.join Catalogue.receipts .leftOuter
        (.equi Catalogue.byPayerAndAmount) = .ok op ∧
      b.expr = Catalogue.sameReceipt ∧
      Catalogue.orders.join Catalogue.receipts .leftOuter (.theta (.expr b)) = .ok op' ∧
      op'.schema = op.schema := by
  have hnames : ∀ pair ∈ Catalogue.byPayerAndAmount.items,
      pair.left ∈ Catalogue.orders.schema.names ∧
        pair.right ∈ Catalogue.receipts.schema.names := by
    decide
  obtain ⟨hiff, htheta⟩ := (Op.join_forms_agree.2 _ _ .leftOuter .leftOuter _ hnames).2 _
    Catalogue.conjunctionOf_sameReceipt
  obtain ⟨op, hjoin⟩ : ∃ op, Catalogue.orders.join Catalogue.receipts .leftOuter
      (.equi Catalogue.byPayerAndAmount) = .ok op := ⟨_, rfl⟩
  obtain ⟨prod, b, hprod, hb⟩ := hiff.mp ⟨op, hjoin⟩
  obtain ⟨op', htheta', hschema⟩ := htheta op prod b hjoin hprod hb
  exact ⟨op, op', b, hjoin, (BoolExpression.tryNew_eq_ok.mp hb).2, htheta', hschema⟩

end AxiomCore
