import AxiomCore.JoinOrder
import AxiomCore.Shapes

/-!
The rows of a join plan. A row of the tree that a plan builds is made of one row
of each operator that is joined, and satisfies every condition, wherever the plan
checks it. So two plans over the same operators and conditions emit the same rows
up to the order of the columns.
-/

namespace AxiomCore

open Checked Refined

theorem Row.asSlice_injective {row row' : Row} (h : row.asSlice = row'.asSlice) : row = row' := by
  cases row
  cases row'
  exact congrArg Row.mk (BoundedVec.toList_injective h)

section Concatenation

variable {left right op : Op} {l r out : Row} {name : AttributeName}

/-- Of two rows side by side, a name is looked up in the first and then in the
second. -/
theorem Row.valueOf_append
    (hcolumns : op.schema.attributes = left.schema.attributes ++ right.schema.attributes)
    (hwidth : l.asSlice.length = left.schema.cardinality)
    (hout : out.asSlice = l.asSlice ++ r.asSlice) :
    out.valueOf op.schema name = (l.valueOf left.schema name).or (r.valueOf right.schema name) := by
  have hlength : left.schema.attributes.length = l.asSlice.length := by simp [hwidth]
  rw [valueOf, hout, hcolumns, Keyed.valueAt_append hlength]
  rfl

theorem Row.valueOf_left
    (hcolumns : op.schema.attributes = left.schema.attributes ++ right.schema.attributes)
    (hwidth : l.asSlice.length = left.schema.cardinality)
    (hout : out.asSlice = l.asSlice ++ r.asSlice) (hname : name ∈ left.schema.names) :
    l.valueOf left.schema name = out.valueOf op.schema name := by
  have hlength : left.schema.attributes.length = l.asSlice.length := by simp [hwidth]
  obtain ⟨v, hv⟩ := Keyed.exists_valueAt hlength hname
  have hvalue : l.valueOf left.schema name = some v := hv
  rw [valueOf_append hcolumns hwidth hout, hvalue, Option.some_or]

theorem Row.valueOf_right
    (hcolumns : op.schema.attributes = left.schema.attributes ++ right.schema.attributes)
    (hwidth : l.asSlice.length = left.schema.cardinality)
    (hout : out.asSlice = l.asSlice ++ r.asSlice) (hname : name ∈ right.schema.names) :
    r.valueOf right.schema name = out.valueOf op.schema name := by
  have habsent : name ∉ left.schema.names :=
    fun hleft => Op.disjoint_of_concat hcolumns _ hleft hname
  rw [valueOf_append hcolumns hwidth hout, valueOf_eq_none habsent, Option.none_or]

/-- Without the names of the other side, the row of one side is whole. -/
theorem Row.without_of_concat
    (hcolumns : op.schema.attributes = left.schema.attributes ++ right.schema.attributes)
    (hwidth : r.asSlice.length = right.schema.cardinality) :
    r.without right.schema left.schema.names = r.asSlice := by
  have hlength : r.asSlice.length ≤ right.schema.attributes.length := by simp [hwidth]
  have hkeep : ∀ p ∈ right.schema.attributes.zip r.asSlice,
      decide (p.1.name ∉ left.schema.names) = true := by
    intro p hp
    have hmem := Schema.mem_names_of_mem (List.of_mem_zip hp).1
    rw [decide_eq_true_eq]
    intro hname
    exact Op.disjoint_of_concat hcolumns _ hname hmem
  rw [without, Keyed.pick, List.filter_eq_self.mpr hkeep, List.map_snd_zip hlength]

variable {backend : Backend}

theorem emits_product_iff {s : Schema} :
    Emits backend ⟨.product left right, s⟩ out ↔
      ∃ l r : Row, Emits backend left l ∧ Emits backend right r ∧
        out.asSlice = l.asSlice ++ r.asSlice := by
  constructor
  · intro hemits
    cases hemits with
    | product hl hr hout => exact ⟨_, _, hl, hr, hout⟩
  · intro hsides
    obtain ⟨l, r, hl, hr, hout⟩ := hsides
    exact .product hl hr hout

/-- An inner theta join emits what the restricted product emits. -/
theorem emits_theta_iff {s : Schema} {b : BoolExpression}
    (hcolumns : s.attributes = left.schema.attributes ++ right.schema.attributes)
    (hwidth : ∀ r, Emits backend right r → r.asSlice.length = right.schema.cardinality) :
    Emits backend ⟨.join left right .inner (.theta (.expr b)), s⟩ out ↔
      (∃ l r : Row, Emits backend left l ∧ Emits backend right r ∧
        out.asSlice = l.asSlice ++ r.asSlice) ∧
        backend.eval b.expr s out = .ok (.bool true) := by
  have hwhole : ∀ r, Emits backend right r →
      r.without right.schema left.schema.names = r.asSlice := by
    intro r hr
    have hconcat : (⟨.product left right, s⟩ : Op).schema.attributes =
        left.schema.attributes ++ right.schema.attributes := hcolumns
    exact Row.without_of_concat hconcat (hwidth r hr)
  constructor
  · intro hemits
    cases hemits with
    | @paired _ _ _ _ _ l r _ hl hr hout hpairs =>
        rw [hwhole r hr] at hout
        exact ⟨⟨l, r, hl, hr, hout⟩, hpairs⟩
    | leftUnmatched hkeeps _ _ => exact absurd hkeeps (by simp [JoinKind.keepsLeft])
    | rightUnmatched hkeeps _ _ => exact absurd hkeeps (by simp [JoinKind.keepsRight])
  · intro hsides
    obtain ⟨⟨l, r, hl, hr, hout⟩, hholds⟩ := hsides
    rw [← hwhole r hr] at hout
    exact .paired hl hr hout hholds

theorem emits_restrict_iff {s : Schema} {b : BoolExpression} :
    Emits backend ⟨.restrict left (.expr b), s⟩ out ↔
      Emits backend left out ∧ backend.eval b.expr left.schema out = .ok (.bool true) := by
  constructor
  · intro hemits
    cases hemits with
    | restrict hrow hholds => exact ⟨hrow, hholds⟩
  · intro hboth
    exact .restrict hboth.1 hboth.2

end Concatenation

/-- Picked rows side by side. -/
def sideBySide (leaves : List (Op × Row)) : List Value :=
  leaves.flatMap fun leaf => leaf.2.asSlice

section SideBySide

variable {leaves : List (Op × Row)}

theorem length_sideBySide
    (hwidth : ∀ leaf ∈ leaves, leaf.2.asSlice.length = leaf.1.schema.cardinality) :
    (sideBySide leaves).length =
      ((leaves.map Prod.fst).flatMap fun op => op.schema.attributes).length := by
  induction leaves with
  | nil => rfl
  | cons leaf leaves ih =>
      have hfirst := hwidth leaf (by simp)
      have hrest := ih fun other hother => hwidth other (by simp [hother])
      simp only [sideBySide, List.flatMap_cons, List.map_cons, List.length_append] at hrest ⊢
      rw [hfirst, hrest, Schema.length_attributes]

theorem zip_sideBySide
    (hwidth : ∀ leaf ∈ leaves, leaf.2.asSlice.length = leaf.1.schema.cardinality) :
    ((leaves.map Prod.fst).flatMap fun op => op.schema.attributes).zip (sideBySide leaves) =
      leaves.flatMap fun leaf => leaf.1.schema.attributes.zip leaf.2.asSlice := by
  induction leaves with
  | nil => rfl
  | cons leaf leaves ih =>
      have hfirst : leaf.1.schema.attributes.length = leaf.2.asSlice.length := by
        simp [hwidth leaf (by simp)]
      have hrest := ih fun other hother => hwidth other (by simp [hother])
      simp only [sideBySide, List.flatMap_cons, List.map_cons, List.zip_append hfirst] at hrest ⊢
      rw [hrest]

end SideBySide

namespace JoinPlan

/-- The inputs emit rows of the width of their headers. -/
def InputsFit (backend : Backend) (plan : JoinPlan) : Prop :=
  ∀ input ∈ plan.inputs, ∀ row, Emits backend input row →
    row.asSlice.length = input.schema.cardinality

/-- One emitted row of each input, left to right. -/
structure Picks (backend : Backend) (plan : JoinPlan) (leaves : List (Op × Row)) : Prop where
  inputs : leaves.map Prod.fst = plan.inputs
  emitted : ∀ leaf ∈ leaves, Emits backend leaf.1 leaf.2

/-- A row made of one row of each input that satisfies every condition. -/
def Combines (backend : Backend) (plan : JoinPlan) (schema : Schema) (out : Row) : Prop :=
  ∃ leaves, plan.Picks backend leaves ∧ out.asSlice = sideBySide leaves ∧
    ∀ e ∈ plan.conditions, backend.eval e schema out = .ok (.bool true)

section Rows

variable {backend : Backend} {plan left right : JoinPlan} {leaves : List (Op × Row)}

theorem Picks.width (hpicks : plan.Picks backend leaves) (hfit : plan.InputsFit backend) :
    ∀ leaf ∈ leaves, leaf.2.asSlice.length = leaf.1.schema.cardinality := by
  intro leaf hleaf
  have hinput : leaf.1 ∈ plan.inputs := hpicks.inputs ▸ List.mem_map_of_mem hleaf
  exact hfit _ hinput _ (hpicks.emitted leaf hleaf)

theorem Picks.length (hpicks : plan.Picks backend leaves) (hfit : plan.InputsFit backend) :
    (sideBySide leaves).length = plan.columns.length := by
  rw [length_sideBySide (hpicks.width hfit), hpicks.inputs]
  rfl

/-- The picks of a product are picks of both sides. -/
theorem picks_product_iff :
    (product left right).Picks backend leaves ↔
      ∃ ll lr, leaves = ll ++ lr ∧ left.Picks backend ll ∧ right.Picks backend lr := by
  constructor
  · intro hpicks
    obtain ⟨ll, lr, rfl, hl, hr⟩ := List.map_eq_append_iff.mp hpicks.inputs
    refine ⟨ll, lr, rfl, ⟨hl, ?_⟩, ⟨hr, ?_⟩⟩
    · intro leaf hleaf
      exact hpicks.emitted leaf (by simp [hleaf])
    · intro leaf hleaf
      exact hpicks.emitted leaf (by simp [hleaf])
  · intro hsides
    obtain ⟨ll, lr, rfl, hl, hr⟩ := hsides
    refine ⟨by rw [List.map_append, hl.inputs, hr.inputs]; rfl, ?_⟩
    intro leaf hleaf
    rcases List.mem_append.mp hleaf with hleaf | hleaf
    · exact hl.emitted leaf hleaf
    · exact hr.emitted leaf hleaf

/-- A condition on top of a plan is checked on the rows of the plan. -/
theorem combines_checked_iff {checked : JoinPlan} {e : Expression} {schema : Schema} {out : Row}
    (hinputs : checked.inputs = plan.inputs)
    (hconditions : checked.conditions = plan.conditions ++ [e]) :
    checked.Combines backend schema out ↔
      plan.Combines backend schema out ∧ backend.eval e schema out = .ok (.bool true) := by
  have hpicks : ∀ leaves, checked.Picks backend leaves ↔ plan.Picks backend leaves := by
    intro leaves
    exact ⟨fun h => ⟨hinputs ▸ h.inputs, h.emitted⟩, fun h => ⟨hinputs ▸ h.inputs, h.emitted⟩⟩
  simp only [Combines, hconditions, hpicks, List.forall_mem_append, List.forall_mem_singleton]
  constructor
  · intro hcombines
    obtain ⟨leaves, hleaves, hout, hbelow, hholds⟩ := hcombines
    exact ⟨⟨leaves, hleaves, hout, hbelow⟩, hholds⟩
  · intro hboth
    obtain ⟨⟨leaves, hleaves, hout, hbelow⟩, hholds⟩ := hboth
    exact ⟨leaves, hleaves, hout, hbelow, hholds⟩

/-- The picked rows of a built plan are a row. -/
theorem Picks.exists_row [Whittle] {op : Op} (hpicks : plan.Picks backend leaves)
    (hfit : plan.InputsFit backend) (hbuild : plan.build = .ok op) :
    ∃ row : Row, row.asSlice = sideBySide leaves := by
  have hlength : (sideBySide leaves).length = op.schema.attributes.length := by
    rw [hpicks.length hfit, (build_eq_ok hbuild).1]
  have rule : LengthRule 1 maxSchemaAttributes (sideBySide leaves) := by
    have hmin := op.schema.headerRule.min_le
    have hmax := op.schema.headerRule.le_max
    exact ⟨by omega, by omega⟩
  exact ⟨.ofValues _ rule, by simp⟩

/-- Two rows side by side combine a product when they combine its sides. -/
theorem combines_product_iff [Whittle] {l r op : Op} (hl : left.build = .ok l)
    (hr : right.build = .ok r) (hfitl : left.InputsFit backend) (hfitr : right.InputsFit backend)
    (hcolumns : op.schema.attributes = l.schema.attributes ++ r.schema.attributes) {out : Row} :
    (product left right).Combines backend op.schema out ↔
      ∃ lrow rrow : Row, left.Combines backend l.schema lrow ∧
        right.Combines backend r.schema rrow ∧ out.asSlice = lrow.asSlice ++ rrow.asSlice := by
  obtain ⟨hlcolumns, hlaccepted⟩ := build_eq_ok hl
  obtain ⟨hrcolumns, hraccepted⟩ := build_eq_ok hr
  have hsides : ∀ {ll} {lrow rrow : Row}, left.Picks backend ll →
      lrow.asSlice = sideBySide ll → out.asSlice = lrow.asSlice ++ rrow.asSlice →
      (∀ e ∈ left.conditions, backend.eval e l.schema lrow = backend.eval e op.schema out) ∧
        ∀ e ∈ right.conditions, backend.eval e r.schema rrow = backend.eval e op.schema out := by
    intro ll lrow rrow hll hlrow hout
    have hwidth : lrow.asSlice.length = l.schema.cardinality := by
      rw [hlrow, hll.length hfitl, ← hlcolumns, Schema.length_attributes]
    constructor
    · intro e he
      obtain ⟨hfree, hty⟩ := hlaccepted e he
      apply Backend.eval_congr
      intro name hname
      exact Row.valueOf_left hcolumns hwidth hout (freeAttrs_subset_names hfree hty name hname)
    · intro e he
      obtain ⟨hfree, hty⟩ := hraccepted e he
      apply Backend.eval_congr
      intro name hname
      exact Row.valueOf_right hcolumns hwidth hout (freeAttrs_subset_names hfree hty name hname)
  constructor
  · intro hcombines
    obtain ⟨leaves, hleaves, hout, hholds⟩ := hcombines
    obtain ⟨ll, lr, rfl, hll, hlr⟩ := picks_product_iff.mp hleaves
    obtain ⟨lrow, hlrow⟩ := hll.exists_row hfitl hl
    obtain ⟨rrow, hrrow⟩ := hlr.exists_row hfitr hr
    rw [sideBySide, List.flatMap_append, ← sideBySide, ← sideBySide, ← hlrow, ← hrrow] at hout
    obtain ⟨hlsame, hrsame⟩ := hsides hll hlrow hout
    refine ⟨lrow, rrow, ⟨ll, hll, hlrow, ?_⟩, ⟨lr, hlr, hrrow, ?_⟩, hout⟩
    · intro e he
      rw [hlsame e he]
      exact hholds e (by simp [conditions, he])
    · intro e he
      rw [hrsame e he]
      exact hholds e (by simp [conditions, he])
  · intro hboth
    obtain ⟨lrow, rrow, ⟨ll, hll, hlrow, hlholds⟩, ⟨lr, hlr, hrrow, hrholds⟩, hout⟩ := hboth
    obtain ⟨hlsame, hrsame⟩ := hsides hll hlrow hout
    refine ⟨ll ++ lr, picks_product_iff.mpr ⟨ll, lr, rfl, hll, hlr⟩, ?_, ?_⟩
    · rw [hout, hlrow, hrrow, sideBySide, sideBySide, sideBySide, List.flatMap_append]
    · intro e he
      rcases List.mem_append.mp he with he | he
      · rw [← hlsame e he]
        exact hlholds e he
      · rw [← hrsame e he]
        exact hrholds e he

theorem inputsFit_append :
    (product left right).InputsFit backend ↔
      left.InputsFit backend ∧ right.InputsFit backend := by
  simp only [InputsFit, inputs, List.forall_mem_append]

/-- A combined row is as wide as the header. -/
theorem Combines.width [Whittle] {op : Op} {out : Row}
    (hcombines : plan.Combines backend op.schema out) (hfit : plan.InputsFit backend)
    (hbuild : plan.build = .ok op) : out.asSlice.length = op.schema.cardinality := by
  obtain ⟨leaves, hleaves, hout, -⟩ := hcombines
  rw [hout, hleaves.length hfit, ← (build_eq_ok hbuild).1, Schema.length_attributes]

/-- A row of the tree that a plan builds is made of one row of each input, and
satisfies every condition of the plan. -/
theorem emits_iff_combines [Whittle] {op : Op} (hbuild : plan.build = .ok op)
    (hfit : plan.InputsFit backend) {out : Row} :
    Emits backend op out ↔ plan.Combines backend op.schema out := by
  induction plan generalizing op out with
  | input input =>
      obtain rfl := Except.ok.inj hbuild
      constructor
      · intro hemits
        exact ⟨[(input, out)], ⟨rfl, by simpa using hemits⟩, by simp [sideBySide],
          by simp [conditions]⟩
      · intro hcombines
        obtain ⟨leaves, hleaves, hout, -⟩ := hcombines
        obtain ⟨leaf, rfl, hinput⟩ := List.map_eq_singleton_iff.mp hleaves.inputs
        subst hinput
        have hrow : out = leaf.2 := Row.asSlice_injective (by simpa [sideBySide] using hout)
        rw [hrow]
        exact hleaves.emitted leaf (by simp)
  | product left right ihl ihr =>
      simp only [build, bind_eq_ok] at hbuild
      obtain ⟨l, hl, r, hr, hproduct⟩ := hbuild
      obtain ⟨hkind, hcolumns⟩ := Op.product_eq_ok.mp hproduct
      obtain ⟨hfitl, hfitr⟩ := inputsFit_append.mp hfit
      have hop : op = ⟨.product l r, op.schema⟩ := by rw [← hkind, Op.eta]
      rw [combines_product_iff hl hr hfitl hfitr hcolumns, hop, emits_product_iff]
      simp only [ihl hl hfitl, ihr hr hfitr]
  | theta left right condition ihl ihr =>
      simp only [build, bind_eq_ok] at hbuild
      obtain ⟨l, hl, r, hr, hjoin⟩ := hbuild
      obtain ⟨-, hkind, hcolumns⟩ := Op.join_theta_eq_ok.mp hjoin
      obtain ⟨hfitl, hfitr⟩ := inputsFit_append.mp hfit
      have hop : op = ⟨.join l r .inner (.theta (.expr condition)), op.schema⟩ := by
        rw [← hkind, Op.eta]
      have hwidth : ∀ row, Emits backend r row → row.asSlice.length = r.schema.cardinality := by
        intro row hrow
        exact ((ihr hr hfitr).mp hrow).width hfitr hr
      have hproduct : (theta left right condition).Combines backend op.schema out ↔
          (product left right).Combines backend op.schema out ∧
            backend.eval condition.expr op.schema out = .ok (.bool true) :=
        combines_checked_iff rfl rfl
      rw [hproduct, combines_product_iff hl hr hfitl hfitr hcolumns, hop,
        emits_theta_iff hcolumns hwidth]
      simp only [ihl hl hfitl, ihr hr hfitr]
  | restrict plan condition ih =>
      simp only [build, bind_eq_ok] at hbuild
      obtain ⟨input, hinput, hrestrict⟩ := hbuild
      obtain ⟨-, rfl⟩ := Op.restrict_eq_ok.mp hrestrict
      have hplan : (restrict plan condition).Combines backend input.schema out ↔
          plan.Combines backend input.schema out ∧
            backend.eval condition.expr input.schema out = .ok (.bool true) :=
        combines_checked_iff rfl rfl
      rw [emits_restrict_iff, hplan, ih hinput hfit]

/-- The rows of a plan over the operators and conditions of another one have the
same values in another order. -/
theorem emits_of_reordered [Whittle] {plan' : JoinPlan} {op op' : Op}
    (hbuild : plan.build = .ok op) (hbuild' : plan'.build = .ok op')
    (hinputs : plan'.inputs.Perm plan.inputs) (hconditions : plan'.conditions ⊆ plan.conditions)
    (hfit : plan.InputsFit backend) {row : Row} (hemits : Emits backend op row) :
    ∃ row', Emits backend op' row' ∧
      ∀ name, row'.valueOf op'.schema name = row.valueOf op.schema name := by
  have hfit' : plan'.InputsFit backend := by
    intro input hinput
    exact hfit input (hinputs.subset hinput)
  obtain ⟨leaves, hleaves, hrow, hholds⟩ := (emits_iff_combines hbuild hfit).mp hemits
  -- The same rows are picked in the order of the other plan.
  obtain ⟨leaves', hinputs', hperm⟩ :
      ∃ leaves' : List (Op × Row), plan'.inputs = leaves'.map Prod.fst ∧ leaves'.Perm leaves := by
    have hcomp := List.eq_map_comp_perm (Prod.fst : Op × Row → Op)
    have hboth : plan'.inputs.Perm (leaves.map Prod.fst) := hleaves.inputs ▸ hinputs
    exact (congrFun₂ hcomp plan'.inputs leaves).mpr hboth
  have hleaves' : plan'.Picks backend leaves' := by
    refine ⟨hinputs'.symm, ?_⟩
    intro leaf hleaf
    exact hleaves.emitted leaf (hperm.subset hleaf)
  obtain ⟨row', hrow'⟩ := hleaves'.exists_row hfit' hbuild'
  obtain ⟨hcolumns, haccepted⟩ := build_eq_ok hbuild
  obtain ⟨hcolumns', -⟩ := build_eq_ok hbuild'
  have hvalues : ∀ name, row'.valueOf op'.schema name = row.valueOf op.schema name := by
    intro name
    have hzip := zip_sideBySide (hleaves.width hfit)
    have hzip' := zip_sideBySide (hleaves'.width hfit')
    have hnodup : (op'.schema.attributes.map Attribute.name).Nodup := op'.schema.nodup_names
    have hlength : op'.schema.attributes.length = row'.asSlice.length := by
      rw [hcolumns', hrow', hleaves'.length hfit']
    apply Keyed.valueAt_perm hnodup hlength
    rw [hcolumns, hcolumns', hrow, hrow', columns, columns, ← hleaves.inputs, ← hleaves'.inputs,
      hzip, hzip']
    exact hperm.flatMap fun _ _ => .refl _
  refine ⟨row', (emits_iff_combines hbuild' hfit').mpr ⟨leaves', hleaves', hrow', ?_⟩, hvalues⟩
  intro e he
  rw [← hholds e (hconditions he)]
  exact Backend.eval_congr fun name _ => hvalues name

end Rows

end JoinPlan

/-- Plans over the same operators and conditions that are both built over
reachable operators emit the same rows up to the order of the columns: each row
of one of them is a row of the other one with the same value under every name. -/
theorem join_rows_reordered [Whittle] {backend : Backend} (htyped : backend.Typed)
    {plan plan' : JoinPlan} {op op' : Op} (hbuild : plan.build = .ok op)
    (hbuild' : plan'.build = .ok op') (hinputs : plan'.inputs.Perm plan.inputs)
    (hconditions : ∀ e, e ∈ plan'.conditions ↔ e ∈ plan.conditions)
    (hreachable : ∀ input ∈ plan.inputs, input.Reachable) :
    (∀ row, Emits backend op row → ∃ row', Emits backend op' row' ∧
      ∀ name, row'.valueOf op'.schema name = row.valueOf op.schema name) ∧
    ∀ row', Emits backend op' row' → ∃ row, Emits backend op row ∧
      ∀ name, row.valueOf op.schema name = row'.valueOf op'.schema name := by
  have hfit : plan.InputsFit backend := by
    intro input hinput row hrow
    have hfits := (hreachable input hinput).fits htyped
    exact (hfits row hrow).width
  have hfit' : plan'.InputsFit backend := by
    intro input hinput
    exact hfit input (hinputs.subset hinput)
  constructor
  · intro row hrow
    exact JoinPlan.emits_of_reordered hbuild hbuild' hinputs (fun e he => (hconditions e).mp he)
      hfit hrow
  · intro row' hrow'
    exact JoinPlan.emits_of_reordered hbuild' hbuild hinputs.symm
      (fun e he => (hconditions e).mpr he) hfit' hrow'

namespace Catalogue

def paymentRow : Row := .ofValues [.int64 7, .int64 5] (by decide)

/-- A payment of the seventh user, inline. -/
def paid : Op := .source <| .memory
  ⟨payments.schema, .ofList [paymentRow] ⟨by decide, by decide⟩, by
    intro row hrow
    rw [BoundedVec.toList_ofList, List.mem_singleton] at hrow
    subst hrow
    rfl⟩

def paidRow : Row :=
  .ofValues [.int64 7, .string "seven", .int64 7, .int64 5] (by decide)

theorem emits_paid : Emits backend paid paymentRow := by
  apply Emits.memory
  rw [BoundedVec.toList_ofList]
  exact List.mem_singleton.mpr rfl

end Catalogue

/-- The user with the payment is emitted from the other side, too. -/
theorem join_rows_reordered_paid : ∃ op op',
    (Catalogue.productFirst Catalogue.paid).build = .ok op ∧
    (Catalogue.paymentsFirst Catalogue.paid).build = .ok op' ∧
    ∃ row', Emits Catalogue.backend op' row' ∧ ∀ name,
      row'.valueOf op'.schema name = Catalogue.paidRow.valueOf op.schema name := by
  obtain ⟨op, hop⟩ : ∃ op, (Catalogue.productFirst Catalogue.paid).build = .ok op := ⟨_, rfl⟩
  obtain ⟨op', hop'⟩ : ∃ op, (Catalogue.paymentsFirst Catalogue.paid).build = .ok op := ⟨_, rfl⟩
  have hreachable : ∀ input ∈ (Catalogue.productFirst Catalogue.paid).inputs,
      input.Reachable := by
    intro input hinput
    simp only [Catalogue.productFirst, JoinPlan.inputs, List.singleton_append, List.mem_cons,
      List.not_mem_nil, or_false] at hinput
    rcases hinput with rfl | rfl
    · exact Catalogue.reachable_users
    · exact Op.reachable_source _
  have hrows := join_rows_reordered Catalogue.backend_typed hop hop'
    (Catalogue.inputs_swapped _) (fun _ => Iff.rfl) hreachable
  have hemits : Emits Catalogue.backend op Catalogue.paidRow := by
    obtain rfl := Except.ok.inj hop
    exact .restrict (.product Catalogue.emits_user Catalogue.emits_paid rfl) rfl
  exact ⟨op, op', hop, hop', hrows.1 _ hemits⟩

end AxiomCore
