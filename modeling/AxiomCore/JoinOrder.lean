import AxiomCore.JoinForms
import AxiomCore.NaturalJoin
import AxiomCore.Scope

/-!
The order of inner joins. A plan says how a list of operators is joined, in
which shape and order, and at which node each condition is checked. Once one
plan is built, any other plan over the same operators and conditions is built
exactly when every condition stands above the columns it mentions, and else the
first name that is out of scope is the error. The two headers are equal up to
the order of the columns.
-/

namespace AxiomCore

open Checked

inductive JoinPlan where
  | input (op : Op)
  | product (left right : JoinPlan)
  | theta (left right : JoinPlan) (condition : BoolExpression)
  | restrict (plan : JoinPlan) (condition : BoolExpression)

namespace JoinPlan

/-- The operators that are joined, left to right. -/
def inputs : JoinPlan → List Op
  | .input op => [op]
  | .product left right | .theta left right _ => left.inputs ++ right.inputs
  | .restrict plan _ => plan.inputs

/-- The conditions, wherever they are checked. -/
def conditions : JoinPlan → List Expression
  | .input _ => []
  | .product left right => left.conditions ++ right.conditions
  | .theta left right condition => left.conditions ++ right.conditions ++ [condition.expr]
  | .restrict plan condition => plan.conditions ++ [condition.expr]

def columns (plan : JoinPlan) : List Attribute :=
  plan.inputs.flatMap fun op => op.schema.attributes

/-- The first name, in the order of the calls, that a condition mentions out of
its scope. -/
def outOfScope : JoinPlan → Option AttributeName
  | .input _ => none
  | .product left right => left.outOfScope.or right.outOfScope
  | .theta left right condition =>
    (left.outOfScope.or right.outOfScope).or
      (condition.expr.missingIn ((left.columns ++ right.columns).map Attribute.name))
  | .restrict plan condition =>
    plan.outOfScope.or (condition.expr.missingIn (plan.columns.map Attribute.name))

@[simp] theorem columns_input (op : Op) : (input op).columns = op.schema.attributes := by
  simp [columns, inputs]

@[simp] theorem columns_product (left right : JoinPlan) :
    (product left right).columns = left.columns ++ right.columns := by
  simp [columns, inputs]

@[simp] theorem columns_theta (left right : JoinPlan) (condition : BoolExpression) :
    (theta left right condition).columns = left.columns ++ right.columns := by
  simp [columns, inputs]

@[simp] theorem columns_restrict (plan : JoinPlan) (condition : BoolExpression) :
    (restrict plan condition).columns = plan.columns := rfl

theorem one_le_columns (plan : JoinPlan) : 1 ≤ plan.columns.length := by
  induction plan with
  | input op =>
      rw [columns_input]
      exact op.schema.headerRule.min_le
  | product left right ihl _ =>
      rw [columns_product, List.length_append]
      omega
  | theta left right condition ihl _ =>
      rw [columns_theta, List.length_append]
      omega
  | restrict plan condition ih => exact ih

/-- The columns of both sides of a header are headers. -/
theorem exists_sides {left right : JoinPlan} {s : Schema}
    (hs : s.attributes = left.columns ++ right.columns) :
    ∃ sl sr : Schema, sl.attributes = left.columns ∧ sr.attributes = right.columns := by
  have hleft : left.columns.Sublist s.attributes := hs ▸ List.sublist_append_left _ _
  have hright : right.columns.Sublist s.attributes := hs ▸ List.sublist_append_right _ _
  obtain ⟨sl, hsl⟩ := Schema.exists_part hleft left.one_le_columns
  obtain ⟨sr, hsr⟩ := Schema.exists_part hright right.one_le_columns
  exact ⟨sl, sr, hsl, hsr⟩

/-- A condition is checked once the plan below is built. -/
theorem outcome_restricted {built : Except OpError Op} {b : BoolExpression} {s total : Schema}
    {missing : Option AttributeName} (hbuilt : Op.outcome built = Op.verdict missing s)
    (hpart : s.attributes ⊆ total.attributes) (hfree : containsAggregate b.expr = false)
    (hty : infer b.expr total = .ok .bool) :
    Op.outcome (built >>= fun op => op.restrict (.expr b)) =
      Op.verdict (missing.or (b.expr.missingIn s.names)) s := by
  rcases @Op.outcome_bind_verdict built _ _ (fun op => op.restrict (.expr b)) hbuilt with
    ⟨name, rfl, hfail⟩ | ⟨op, rfl, rfl, hnext⟩
  · exact hfail
  · exact hnext.trans (Op.outcome_restrict_part hpart hfree hty)

section Build

variable [Whittle]

/-- The constructor calls of a plan. -/
def build : JoinPlan → Except OpError Op
  | .input op => .ok op
  | .product left right => do
    let l ← left.build
    let r ← right.build
    l.product r
  | .theta left right condition => do
    let l ← left.build
    let r ← right.build
    l.join r .inner (.theta (.expr condition))
  | .restrict plan condition => do
    let op ← plan.build
    op.restrict (.expr condition)

/-- Two plans are joined once both are built. -/
theorem outcome_product {left right : JoinPlan} {sl sr s : Schema} {ml mr : Option AttributeName}
    (hleft : Op.outcome left.build = Op.verdict ml sl)
    (hright : Op.outcome right.build = Op.verdict mr sr)
    (hconcat : s.attributes = sl.attributes ++ sr.attributes) :
    Op.outcome (product left right).build = Op.verdict (ml.or mr) s := by
  rcases @Op.outcome_bind_verdict left.build _ _ (fun l => right.build >>= fun r => l.product r)
      hleft with ⟨name, rfl, hfail⟩ | ⟨l, rfl, rfl, hnext⟩
  · exact hfail
  · rcases @Op.outcome_bind_verdict right.build _ _ (fun r => l.product r) hright with
      ⟨name, rfl, hfail⟩ | ⟨r, rfl, rfl, hnext'⟩
    · exact hnext.trans hfail
    · have hproduct := Op.outcome_product_eq_ok.mpr hconcat
      exact hnext.trans (hnext'.trans hproduct)

/-- A theta join is built as the restriction of the product. -/
theorem outcome_theta (left right : JoinPlan) (condition : BoolExpression) :
    Op.outcome (theta left right condition).build =
      Op.outcome ((product left right).build >>= fun op => op.restrict (.expr condition)) := by
  simp only [build, bind_assoc, Op.outcome_bind, Op.outcome_theta_eq_restrict]

/-- Over a header with all its columns, in any order, that accepts its
conditions, a plan is built unless a name is out of scope. -/
theorem outcome_build {plan : JoinPlan} {s total : Schema} (hs : s.attributes = plan.columns)
    (hpart : plan.columns ⊆ total.attributes)
    (hconditions : ∀ e ∈ plan.conditions,
      containsAggregate e = false ∧ infer e total = .ok .bool) :
    Op.outcome plan.build = Op.verdict plan.outOfScope s := by
  induction plan generalizing s with
  | input op =>
      rw [columns_input] at hs
      obtain rfl := Schema.attributes_injective hs
      rfl
  | product left right ihl ihr =>
      rw [columns_product] at hs hpart
      obtain ⟨sl, sr, hsl, hsr⟩ := exists_sides hs
      rw [List.append_subset] at hpart
      have hleft := ihl hsl hpart.1 fun e he => hconditions e (by simp [conditions, he])
      have hright := ihr hsr hpart.2 fun e he => hconditions e (by simp [conditions, he])
      exact outcome_product hleft hright (by rw [hs, hsl, hsr])
  | theta left right condition ihl ihr =>
      rw [columns_theta] at hs hpart
      obtain ⟨sl, sr, hsl, hsr⟩ := exists_sides hs
      obtain ⟨hfree, hty⟩ := hconditions condition.expr (by simp [conditions])
      have hparts := List.append_subset.mp hpart
      have hleft := ihl hsl hparts.1 fun e he => hconditions e (by simp [conditions, he])
      have hright := ihr hsr hparts.2 fun e he => hconditions e (by simp [conditions, he])
      have hproduct := outcome_product hleft hright (by rw [hs, hsl, hsr])
      rw [← hs] at hpart
      rw [outcome_theta, outcome_restricted hproduct hpart hfree hty, outOfScope, Schema.names, hs]
  | restrict plan condition ih =>
      obtain ⟨hfree, hty⟩ := hconditions condition.expr (by simp [conditions])
      have hplan := ih hs hpart fun e he => hconditions e (by simp [conditions, he])
      rw [columns_restrict] at hs hpart
      rw [← hs] at hpart
      have hrestricted := outcome_restricted hplan hpart hfree hty
      rw [Schema.names, hs] at hrestricted
      exact hrestricted

omit [Whittle] in
/-- Both sides next to each other: what one side accepts, both accept. -/
theorem accepted_sides {left right : JoinPlan} {l r op : Op}
    (hcolumns : op.schema.attributes = l.schema.attributes ++ r.schema.attributes)
    (hleft : l.schema.attributes = left.columns ∧ ∀ e ∈ left.conditions,
      containsAggregate e = false ∧ infer e l.schema = .ok .bool)
    (hright : r.schema.attributes = right.columns ∧ ∀ e ∈ right.conditions,
      containsAggregate e = false ∧ infer e r.schema = .ok .bool) :
    op.schema.attributes = left.columns ++ right.columns ∧
      ∀ e ∈ left.conditions ++ right.conditions,
        containsAggregate e = false ∧ infer e op.schema = .ok .bool := by
  obtain ⟨hlcolumns, hlconditions⟩ := hleft
  obtain ⟨hrcolumns, hrconditions⟩ := hright
  refine ⟨by rw [hcolumns, hlcolumns, hrcolumns], ?_⟩
  intro e he
  rcases List.mem_append.mp he with he | he
  · obtain ⟨hfree, hty⟩ := hlconditions e he
    exact ⟨hfree, infer_whole (by simp [hcolumns]) hfree hty⟩
  · obtain ⟨hfree, hty⟩ := hrconditions e he
    exact ⟨hfree, infer_whole (by simp [hcolumns]) hfree hty⟩

/-- What a built plan has accepted: its header has the columns in order, and
takes every condition. -/
theorem build_eq_ok {plan : JoinPlan} {op : Op} (hbuild : plan.build = .ok op) :
    op.schema.attributes = plan.columns ∧ ∀ e ∈ plan.conditions,
      containsAggregate e = false ∧ infer e op.schema = .ok .bool := by
  induction plan generalizing op with
  | input input =>
      obtain rfl := Except.ok.inj hbuild
      exact ⟨(columns_input _).symm, by simp [conditions]⟩
  | product left right ihl ihr =>
      simp only [build, bind_eq_ok] at hbuild
      obtain ⟨l, hl, r, hr, hproduct⟩ := hbuild
      obtain ⟨-, hcolumns⟩ := Op.product_eq_ok.mp hproduct
      rw [columns_product]
      exact accepted_sides hcolumns (ihl hl) (ihr hr)
  | theta left right condition ihl ihr =>
      simp only [build, bind_eq_ok] at hbuild
      obtain ⟨l, hl, r, hr, hjoin⟩ := hbuild
      obtain ⟨hcheck, -, hcolumns⟩ := Op.join_theta_eq_ok.mp hjoin
      obtain ⟨hboth, hconditions⟩ := accepted_sides hcolumns (ihl hl) (ihr hr)
      rw [columns_theta]
      refine ⟨hboth, ?_⟩
      intro e he
      rcases List.mem_append.mp he with he | he
      · exact hconditions e he
      · obtain rfl := List.mem_singleton.mp he
        exact checkPredicate_expr_ok.mp hcheck
  | restrict plan condition ih =>
      simp only [build, bind_eq_ok] at hbuild
      obtain ⟨input, hinput, hrestrict⟩ := hbuild
      obtain ⟨hcheck, rfl⟩ := Op.restrict_eq_ok.mp hrestrict
      obtain ⟨hcolumns, hconditions⟩ := ih hinput
      refine ⟨hcolumns, ?_⟩
      intro e he
      rcases List.mem_append.mp he with he | he
      · exact hconditions e he
      · obtain rfl := List.mem_singleton.mp he
        exact checkPredicate_expr_ok.mp hcheck

end Build

end JoinPlan

/-- Any plan over the operators and conditions of a plan that is built has the
columns of its header in another order. It is built when every condition stands
above the columns that it mentions, and else the first name out of scope, in the
order of the calls, is the error. -/
theorem join_reordered [Whittle] {plan plan' : JoinPlan} {op : Op}
    (hbuild : plan.build = .ok op) (hinputs : plan'.inputs.Perm plan.inputs)
    (hconditions : plan'.conditions ⊆ plan.conditions) :
    ∃ s : Schema, s.attributes = plan'.columns ∧ s.attributes.Perm op.schema.attributes ∧
      Op.outcome plan'.build =
        match plan'.outOfScope with
        | none => .ok s
        | some name => .error (.infer (.unknownAttribute name)) := by
  obtain ⟨hcolumns, haccepted⟩ := JoinPlan.build_eq_ok hbuild
  have hperm : plan'.columns.Perm op.schema.attributes := by
    rw [hcolumns]
    exact hinputs.flatMap fun _ _ => .refl _
  obtain ⟨s, hs⟩ := Schema.exists_of_perm hperm
  refine ⟨s, hs, hs ▸ hperm, ?_⟩
  exact JoinPlan.outcome_build hs hperm.subset fun e he => haccepted e (hconditions he)

namespace Catalogue

def idIsPayer : BoolExpression :=
  ⟨.binOp .eq (.attr id) (.attr payer),
    .ofAttributes [⟨id, .int64⟩, ⟨payer, .int64⟩] (by decide), rfl⟩

/-- The users with what they paid, as a restricted product. -/
def productFirst (paid : Op) : JoinPlan :=
  .restrict (.product (.input users) (.input paid)) idIsPayer

/-- The same as a join from the other side. -/
def paymentsFirst (paid : Op) : JoinPlan := .theta (.input paid) (.input users) idIsPayer

theorem inputs_swapped (paid : Op) : (paymentsFirst paid).inputs.Perm (productFirst paid).inputs :=
  List.Perm.swap _ _ _

end Catalogue

theorem join_reordered_payments : ∃ op op',
    (Catalogue.productFirst Catalogue.payments).build = .ok op ∧
    (Catalogue.paymentsFirst Catalogue.payments).build = .ok op' ∧
    op'.schema.attributes.Perm op.schema.attributes := by
  obtain ⟨op, hop⟩ : ∃ op, (Catalogue.productFirst Catalogue.payments).build = .ok op := ⟨_, rfl⟩
  obtain ⟨s, -, hperm, houtcome⟩ :=
    join_reordered hop (Catalogue.inputs_swapped _) (fun _ he => he)
  obtain ⟨op', hop', rfl⟩ := Op.outcome_eq_ok.mp houtcome
  exact ⟨op, op', hop, hop', hperm⟩

end AxiomCore
