import AxiomCore.JoinForms
import AxiomCore.Replay

/-!
Replacing operators inside a tree. A constructor reads its inputs through their
cached headers alone, so operators with equal headers can stand for each other
at any node of any tree: the tree with the replacement is again one that the
constructors build, and it has the header it had.
-/

namespace AxiomCore

open Checked Construction Refined

mutual

/-- Apply a rule at every node, parts before the node itself. A node that the
rule leaves alone keeps its cache. -/
def OpKind.rewriteParts (rule : Op → Option Op) : OpKind → OpKind
  | .source src => .source src
  | .project input attrs => .project (input.rewrite rule) attrs
  | .restrict input predicate => .restrict (input.rewrite rule) predicate
  | .rename input fromName toName => .rename (input.rewrite rule) fromName toName
  | .extend input name expr => .extend (input.rewrite rule) name expr
  | .join left right kind joinOn => .join (left.rewrite rule) (right.rewrite rule) kind joinOn
  | .product left right => .product (left.rewrite rule) (right.rewrite rule)
  | .union left right => .union (left.rewrite rule) (right.rewrite rule)
  | .intersect left right => .intersect (left.rewrite rule) (right.rewrite rule)
  | .difference left right => .difference (left.rewrite rule) (right.rewrite rule)
  | .summarize input keys aggs => .summarize (input.rewrite rule) keys aggs
  | .order input keys => .order (input.rewrite rule) keys
  | .limit input offset count => .limit (input.rewrite rule) offset count
  | .modify input path sub => .modify (input.rewrite rule) path (sub.rewrite rule)
  | .unnest input path => .unnest (input.rewrite rule) path
  | .nest input attrs into => .nest (input.rewrite rule) attrs into

def Op.rewrite (rule : Op → Option Op) : Op → Op
  | ⟨kind, schema⟩ =>
    (rule ⟨kind.rewriteParts rule, schema⟩).getD ⟨kind.rewriteParts rule, schema⟩

end

/-- The node over its rewritten parts, before the rule is applied to it. -/
def Op.rewriteInside (rule : Op → Option Op) (op : Op) : Op :=
  ⟨op.kind.rewriteParts rule, op.schema⟩

theorem Op.rewrite_eq (rule : Op → Option Op) (op : Op) :
    op.rewrite rule = (rule (op.rewriteInside rule)).getD (op.rewriteInside rule) := by
  cases op
  rfl

/-- Rewritten inputs go into the same kind of node: whether a natural join is
built as a product depends on the two headers alone. -/
theorem Call.kind_mapInputs {rule : Op → Option Op} {call : Call}
    (hinputs : ∀ input ∈ call.inputs, (input.rewrite rule).schema = input.schema) :
    (call.mapInputs (Op.rewrite rule)).kind = call.kind.rewriteParts rule := by
  cases call with
  | join left right kind joinOn =>
      cases joinOn with
      | natural =>
          have hleft := hinputs left (by simp [inputs])
          have hright := hinputs right (by simp [inputs])
          simp only [mapInputs, Call.kind, hleft, hright]
          split <;> rfl
      | equi pairs | theta predicate => rfl
  | _ => rfl

namespace Op

section Congruence

variable [Whittle]

theorem concatDisjointSchemas_congr {left right left' right' : Op}
    (hleft : left'.schema = left.schema) (hright : right'.schema = right.schema) :
    concatDisjointSchemas left' right' = concatDisjointSchemas left right := by
  simp only [concatDisjointSchemas, hleft, hright]

omit [Whittle] in
theorem checkPair_congr {left right left' right' : Op} (hleft : left'.schema = left.schema)
    (hright : right'.schema = right.schema) : checkPair left' right' = checkPair left right := by
  funext pair
  simp only [checkPair, hleft, hright]

omit [Whittle] in
theorem aggregateColumn_congr {input input' : Op} (hinput : input'.schema = input.schema) :
    aggregateColumn input' = aggregateColumn input := by
  funext keys agg
  simp only [aggregateColumn, hinput]

/-- Calls with the same parameters over inputs with the same headers have the
same outcome, errors included. -/
theorem outcome_mapInputs {f : Op → Op} {call : Call}
    (hinputs : ∀ input ∈ call.inputs, (f input).schema = input.schema) :
    outcome (call.mapInputs f).run = outcome call.run := by
  cases call with
  | source src => rfl
  | order input keys | limit input offset count =>
      have hinput := hinputs input (by simp [Call.inputs])
      simp only [Call.mapInputs, Call.run, order, limit, outcome_ok, hinput]
  | restrict input predicate =>
      have hinput := hinputs input (by simp [Call.inputs])
      simp only [Call.mapInputs, Call.run, outcome_restrict, hinput]
  | project input attrs | rename input fromName toName | extend input name expr
  | unnest input path | nest input attrs into =>
      have hinput := hinputs input (by simp [Call.inputs])
      simp only [Call.mapInputs, Call.run, project, rename, extend, unnest, nest, outcome_after,
        outcome_withColumns, hinput]
  | summarize input keys aggs =>
      have hinput := hinputs input (by simp [Call.inputs])
      simp only [Call.mapInputs, Call.run, summarize, outcome_after, outcome_withColumns,
        aggregateColumn_congr hinput, hinput]
  | modify input path sub =>
      have hinput := hinputs input (by simp [Call.inputs])
      have hsub := hinputs sub (by simp [Call.inputs])
      simp only [Call.mapInputs, Call.run, modify, outcome_after, outcome_withColumns, hinput,
        hsub]
  | union left right | intersect left right | difference left right =>
      have hleft := hinputs left (by simp [Call.inputs])
      have hright := hinputs right (by simp [Call.inputs])
      simp only [Call.mapInputs, Call.run, union, intersect, difference, setOperator,
        outcome_after, hleft, hright]
      rfl
  | product left right =>
      have hleft := hinputs left (by simp [Call.inputs])
      have hright := hinputs right (by simp [Call.inputs])
      simp only [Call.mapInputs, Call.run, outcome_product,
        concatDisjointSchemas_congr hleft hright]
  | join left right kind joinOn =>
      have hleft := hinputs left (by simp [Call.inputs])
      have hright := hinputs right (by simp [Call.inputs])
      cases joinOn with
      | natural => simp only [Call.mapInputs, Call.run, outcome_join_natural, hleft, hright]
      | equi pairs =>
          simp only [Call.mapInputs, Call.run, outcome_join_equi, checkPair_congr hleft hright,
            concatDisjointSchemas_congr hleft hright]
      | theta predicate =>
          simp only [Call.mapInputs, Call.run, outcome_join_theta,
            concatDisjointSchemas_congr hleft hright]

end Congruence

end Op

section Kernel

variable [Whittle]

/-- One call: when each of its inputs is rewritten to an operator with the same
header, the same call over them makes the node over rewritten parts. -/
theorem Call.run_mapInputs {rule : Op → Option Op} {call : Call} {op : Op}
    (hinputs : ∀ input ∈ call.inputs, (input.rewrite rule).schema = input.schema)
    (hrun : call.run = .ok op) :
    (call.mapInputs (Op.rewrite rule)).run = .ok (op.rewriteInside rule) := by
  have houtcome : Op.outcome (call.mapInputs (Op.rewrite rule)).run = .ok op.schema := by
    rw [Op.outcome_mapInputs hinputs, hrun]
    rfl
  obtain ⟨made, hmade, hschema⟩ := Op.outcome_eq_ok.mp houtcome
  have hkind : made.kind = op.kind.rewriteParts rule := by
    rw [Call.kind_of_run hmade, Call.kind_mapInputs hinputs, Call.kind_of_run hrun]
  rw [hmade, Op.rewriteInside, ← hkind, ← hschema, Op.eta]

/-- A rule may rewrite any reachable operator to a reachable one with the same
header. -/
def PreservesHeaders (rule : Op → Option Op) : Prop :=
  ∀ op op' : Op, op.Reachable → rule op = some op' → op'.Reachable ∧ op'.schema = op.schema

/-- Applying a rule that preserves headers at every node of a reachable tree
gives a reachable tree with the same header. -/
theorem rewrite_reachable {rule : Op → Option Op} (hrule : PreservesHeaders rule) {op : Op}
    (hop : op.Reachable) :
    (op.rewrite rule).Reachable ∧ (op.rewrite rule).schema = op.schema := by
  apply Construction.Reachable.induction _ hop
  intro call op hinputs hrun
  have hrun' := Call.run_mapInputs (fun input hi => (hinputs input hi).2) hrun
  have hinside : (op.rewriteInside rule).Reachable := by
    apply Op.reachable_of_run _ hrun'
    intro input hi
    rw [Call.inputs_mapInputs] at hi
    obtain ⟨before, hbefore, rfl⟩ := List.mem_map.mp hi
    exact (hinputs before hbefore).1
  rw [Op.rewrite_eq]
  cases hrewrite : rule (op.rewriteInside rule) with
  | some op' =>
      have hsound := hrule _ op' hinside hrewrite
      exact hsound
  | none => exact ⟨hinside, rfl⟩

/-- An inner theta join written as a restricted product. -/
def thetaAsRestrict (op : Op) : Option Op :=
  match op.kind with
  | .join left right .inner (.theta predicate) =>
    some ⟨.restrict ⟨.product left right, op.schema⟩ predicate, op.schema⟩
  | _ => none

omit [Whittle] in
theorem thetaAsRestrict_eq_some {op op' : Op} :
    thetaAsRestrict op = some op' ↔ ∃ left right predicate,
      op.kind = .join left right .inner (.theta predicate) ∧
      op' = ⟨.restrict ⟨.product left right, op.schema⟩ predicate, op.schema⟩ := by
  unfold thetaAsRestrict
  constructor
  · intro h
    split at h
    · rename_i left right predicate hkind
      exact ⟨left, right, predicate, hkind, (Option.some.inj h).symm⟩
    · exact absurd h (by simp)
  · intro h
    obtain ⟨left, right, predicate, hkind, rfl⟩ := h
    simp [hkind]

theorem preservesHeaders_thetaAsRestrict : PreservesHeaders thetaAsRestrict := by
  intro op op' hop hrule
  obtain ⟨left, right, predicate, hkind, rfl⟩ := thetaAsRestrict_eq_some.mp hrule
  refine ⟨?_, rfl⟩
  obtain ⟨hrun, hparts⟩ := kernelReadBack.reachable_iff.mp hop
  simp only [kernelReadBack, kernel, hkind, OpKind.call, OpKind.parts] at hrun hparts
  obtain ⟨hcheck, -, hcolumns⟩ := Op.join_theta_eq_ok.mp hrun
  have hproduct : Call.run (.product left right) = .ok ⟨.product left right, op.schema⟩ :=
    Op.product_eq_ok.mpr ⟨rfl, hcolumns⟩
  have hrestrict : Call.run (.restrict ⟨.product left right, op.schema⟩ predicate) =
      .ok ⟨.restrict ⟨.product left right, op.schema⟩ predicate, op.schema⟩ :=
    Op.restrict_eq_ok.mpr ⟨hcheck, rfl⟩
  apply Op.reachable_of_run _ hrestrict
  intro input hinput
  obtain rfl := List.mem_singleton.mp hinput
  exact Op.reachable_of_run _ hproduct hparts

end Kernel

namespace Catalogue

def totalOnly : AttributeSet := ⟨[total], by decide⟩

/-- Users paired with order totals by a closure, as one join or as a restricted
product. -/
theorem rewrite_pairs : ∃ totals pairs, orders.project totalOnly = .ok totals ∧
    users.join totals .inner (.theta (.opaqueClosure ⟨0⟩)) = .ok pairs ∧
    (pairs.rewrite thetaAsRestrict).Reachable ∧
    (pairs.rewrite thetaAsRestrict).schema = pairs.schema := by
  obtain ⟨totals, htotals⟩ : ∃ op, Call.run (.project orders totalOnly) = .ok op := ⟨_, rfl⟩
  obtain ⟨pairs, hpairs⟩ :
      ∃ op, Call.run (.join users totals .inner (.theta (.opaqueClosure ⟨0⟩))) = .ok op := by
    obtain rfl := Except.ok.inj htotals
    exact ⟨_, rfl⟩
  have hreachable : totals.Reachable :=
    Op.reachable_of_run _ htotals (by simp [Call.inputs, reachable_orders])
  have hjoined : pairs.Reachable :=
    Op.reachable_of_run _ hpairs (by simp [Call.inputs, reachable_users, hreachable])
  exact ⟨totals, pairs, htotals, hpairs,
    rewrite_reachable preservesHeaders_thetaAsRestrict hjoined⟩

end Catalogue

/-- Put another source at every leaf and keep the cache. -/
def atLeaves (f : Source → Source) (op : Op) : Option Op :=
  match op.kind with
  | .source src => some ⟨.source (f src), op.schema⟩
  | _ => none

theorem atLeaves_eq_none {f : Source → Source} {op : Op}
    (hinner : ∀ src, op.kind ≠ .source src) : atLeaves f op = none := by
  unfold atLeaves
  split
  · rename_i src hkind
    exact absurd hkind (hinner src)
  · rfl

/-- Rewriting makes no leaf of an inner node. -/
theorem OpKind.rewriteParts_ne_source {rule : Op → Option Op} {kind : OpKind}
    (hinner : ∀ src, kind ≠ .source src) : ∀ src, kind.rewriteParts rule ≠ .source src := by
  cases kind with
  | source src => exact absurd rfl (hinner src)
  | _ => simp [rewriteParts]

/-- The tree over other sources. -/
def Op.relocate (f : Source → Source) : Op → Op := Op.rewrite (atLeaves f)

/-- The call over other sources. -/
def Call.relocate (f : Source → Source) : Call → Call
  | .source src => .source (f src)
  | call => call.mapInputs (Op.relocate f)

/-- A call makes a leaf, or reads its inputs only. -/
theorem Call.relocate_cases (f : Source → Source) (call : Call) :
    (∃ src, call = .source src) ∨
      call.relocate f = call.mapInputs (Op.relocate f) ∧ ∀ src, call.kind ≠ .source src := by
  cases call with
  | source src => exact Or.inl ⟨src, rfl⟩
  | join left right kind joinOn =>
      refine Or.inr ⟨rfl, ?_⟩
      intro src
      rcases kind_join left right kind joinOn with hkind | hkind
      · simp [hkind]
      · simp [hkind]
  | _ => exact Or.inr ⟨rfl, by simp [Call.kind]⟩

theorem Call.inputs_relocate (f : Source → Source) (call : Call) :
    (call.relocate f).inputs = call.inputs.map (Op.relocate f) := by
  cases call <;> rfl

@[simp] theorem Op.schema_relocate (f : Source → Source) (op : Op) :
    (op.relocate f).schema = op.schema := by
  rw [relocate, rewrite_eq]
  cases hleaf : atLeaves f (op.rewriteInside (atLeaves f)) with
  | none => rfl
  | some op' =>
      unfold atLeaves at hleaf
      split at hleaf
      · obtain rfl := Option.some.inj hleaf
        rfl
      · exact absurd hleaf (by simp)

section Relocation

variable [Whittle] {f : Source → Source} (hsource : ∀ src, (f src).schema = src.schema)

include hsource

/-- Over other sources with the same headers every call has the outcome it
had, errors included. -/
theorem Op.outcome_relocate (call : Call) :
    outcome (call.relocate f).run = outcome call.run := by
  rcases Call.relocate_cases f call with ⟨src, rfl⟩ | ⟨hinner, -⟩
  · simp only [Call.relocate, Call.run, source, outcome_ok, hsource]
  · rw [hinner]
    exact outcome_mapInputs fun input _ => schema_relocate f input

theorem Call.run_relocate {call : Call} {op : Op} (hrun : call.run = .ok op) :
    (call.relocate f).run = .ok (op.relocate f) := by
  rcases relocate_cases f call with ⟨src, rfl⟩ | ⟨hcall, hinner⟩
  · obtain rfl := Except.ok.inj hrun
    have hsame := hsource src
    simp only [relocate, Call.run, Op.source, Op.relocate, Op.rewrite, OpKind.rewriteParts,
      atLeaves, Option.getD_some, hsame]
  · rw [← kind_of_run hrun] at hinner
    have hkept : atLeaves f (op.rewriteInside (atLeaves f)) = none :=
      atLeaves_eq_none (OpKind.rewriteParts_ne_source hinner)
    rw [hcall, Op.relocate, Op.rewrite_eq, hkept]
    exact run_mapInputs (fun input _ => Op.schema_relocate f input) hrun

/-- A run goes through over any other sources with the same headers: call by
call it makes the same operators over them, with the same headers, and whatever
is called next succeeds or fails as it did. -/
theorem run_relocated {calls : List Call} {ops : List Op} (hrun : Run kernel calls ops) :
    Run kernel (calls.map (Call.relocate f)) (ops.map (Op.relocate f)) ∧
      (ops.map (Op.relocate f)).map Op.schema = ops.map Op.schema ∧
      ∀ next : Call, Op.outcome (next.relocate f).run = Op.outcome next.run := by
  refine ⟨?_, ?_, Op.outcome_relocate hsource⟩
  · exact hrun.map (Call.inputs_relocate f) fun call op => Call.run_relocate hsource
  · simp

end Relocation

/-- Inline data without rows under the header of another source. -/
def Source.emptied (src : Source) : Source :=
  .memory ⟨src.schema, .ofList [] (by decide), by simp⟩

/-- A run over the two tables goes through over empty inline data. -/
theorem run_relocated_catalogue : ∃ joined,
    Run kernel [.join Catalogue.users Catalogue.orders .inner .natural,
      .source Catalogue.ordersTable, .source Catalogue.usersTable]
      [joined, Catalogue.orders, Catalogue.users] ∧
    Run kernel
      ([.join Catalogue.users Catalogue.orders .inner .natural, .source Catalogue.ordersTable,
        .source Catalogue.usersTable].map (Call.relocate Source.emptied))
      ([joined, Catalogue.orders, Catalogue.users].map (Op.relocate Source.emptied)) := by
  obtain ⟨joined, hjoin⟩ :
      ∃ op, Call.run (.join Catalogue.users Catalogue.orders .inner .natural) = .ok op := ⟨_, rfl⟩
  have hrun : Run kernel [.join Catalogue.users Catalogue.orders .inner .natural,
      .source Catalogue.ordersTable, .source Catalogue.usersTable]
      [joined, Catalogue.orders, Catalogue.users] :=
    .step (.step Catalogue.run_users (by simp [kernel, Call.inputs]) rfl)
      (by simp [kernel, Call.inputs]) hjoin
  have hsource : ∀ src, (Source.emptied src).schema = src.schema := fun _ => rfl
  exact ⟨joined, hrun, (run_relocated hsource hrun).1⟩

end AxiomCore
