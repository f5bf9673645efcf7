import AxiomCore.Constructors
import AxiomCore.Library.Construction

/-!
The constructor calls as data. A call names a constructor and its arguments,
and a run is a finite sequence of calls over the operators made so far. The
operators that runs make are the reachable ones: there is no other way to put
a node together.
-/

namespace AxiomCore

open Checked Construction

/-- One call of a smart constructor. -/
inductive Call where
  | source (src : Source)
  | project (input : Op) (attrs : AttributeSet)
  | restrict (input : Op) (predicate : Predicate)
  | rename (input : Op) (fromName toName : AttributeName)
  | order (input : Op) (keys : OrderKeys)
  | limit (input : Op) (offset : Offset) (count : LimitCount)
  | extend (input : Op) (name : AttributeName) (expr : Expression)
  | modify (input : Op) (path : AnyPath) (sub : Op)
  | unnest (input : Op) (path : AnyPath)
  | nest (input : Op) (attrs : AttributeSet) (into : AttributeName)
  | summarize (input : Op) (keys : GroupingSet) (aggs : NamedAggSet)
  | union (left right : Op)
  | intersect (left right : Op)
  | difference (left right : Op)
  | join (left right : Op) (kind : JoinKind) (joinOn : JoinOn)
  | product (left right : Op)

namespace Call

/-- The operators a call consumes. -/
def inputs : Call → List Op
  | .source _ => []
  | .project input _ | .restrict input _ | .rename input _ _ | .order input _ | .limit input _ _
  | .extend input _ _ | .unnest input _ | .nest input _ _ | .summarize input _ _ => [input]
  | .modify input _ sub => [input, sub]
  | .union left right | .intersect left right | .difference left right | .join left right _ _
  | .product left right => [left, right]

/-- Evaluate a call. -/
def run [Whittle] : Call → Except OpError Op
  | .source src => .ok (Op.source src)
  | .project input attrs => input.project attrs
  | .restrict input predicate => input.restrict predicate
  | .rename input fromName toName => input.rename fromName toName
  | .order input keys => .ok (input.order keys)
  | .limit input offset count => .ok (input.limit offset count)
  | .extend input name expr => input.extend name expr
  | .modify input path sub => input.modify path sub
  | .unnest input path => input.unnest path
  | .nest input attrs into => input.nest attrs into
  | .summarize input keys aggs => input.summarize keys aggs
  | .union left right => left.union right
  | .intersect left right => left.intersect right
  | .difference left right => left.difference right
  | .join left right kind joinOn => left.join right kind joinOn
  | .product left right => left.product right

end Call

/-- The operators a node is put together from, the sub-operator of a `modify`
included. -/
def OpKind.parts : OpKind → List Op
  | .source _ => []
  | .project input _ | .restrict input _ | .rename input _ _ | .order input _ | .limit input _ _
  | .extend input _ _ | .unnest input _ | .nest input _ _ | .summarize input _ _ => [input]
  | .modify input _ sub => [input, sub]
  | .union left right | .intersect left right | .difference left right | .join left right _ _
  | .product left right => [left, right]

namespace Call

/-- The shape of the node a call makes. Only a natural join chooses between
two. -/
def kind : Call → OpKind
  | .source src => .source src
  | .project input attrs => .project input attrs
  | .restrict input predicate => .restrict input predicate
  | .rename input fromName toName => .rename input fromName toName
  | .order input keys => .order input keys
  | .limit input offset count => .limit input offset count
  | .extend input name expr => .extend input name expr
  | .modify input path sub => .modify input path sub
  | .unnest input path => .unnest input path
  | .nest input attrs into => .nest input attrs into
  | .summarize input keys aggs => .summarize input keys aggs
  | .union left right => .union left right
  | .intersect left right => .intersect left right
  | .difference left right => .difference left right
  | .join left right kind .natural =>
    if kind = .inner ∧ ∀ name ∈ left.schema.names, name ∉ right.schema.names
    then .product left right else .join left right kind .natural
  | .join left right kind joinOn => .join left right kind joinOn
  | .product left right => .product left right

/-- A join is built as a product or as itself, over the same inputs. -/
theorem kind_join (left right : Op) (kind : JoinKind) (joinOn : JoinOn) :
    (Call.join left right kind joinOn).kind = .product left right ∨
      (Call.join left right kind joinOn).kind = .join left right kind joinOn := by
  cases joinOn with
  | natural =>
      simp only [Call.kind]
      split
      · exact Or.inl rfl
      · exact Or.inr rfl
  | equi pairs | theta predicate => exact Or.inr rfl

theorem parts_kind (call : Call) : call.kind.parts = call.inputs := by
  cases call with
  | join left right kind joinOn =>
      rcases kind_join left right kind joinOn with hkind | hkind
      · rw [hkind]; rfl
      · rw [hkind]; rfl
  | _ => rfl

variable [Whittle]

theorem kind_of_run {call : Call} {op : Op} (hrun : call.run = .ok op) : op.kind = call.kind := by
  cases call with
  | source src | order input keys | limit input offset count =>
      obtain rfl := Except.ok.inj hrun
      rfl
  | project input attrs => exact (Op.project_eq_ok.mp hrun).1
  | restrict input predicate => exact congrArg Op.kind (Op.restrict_eq_ok.mp hrun).2
  | rename input fromName toName => exact (Op.rename_eq_ok.mp hrun).2.2.1
  | extend input name expr =>
      obtain ⟨ty, -, -, -, hkind, -⟩ := Op.extend_eq_ok.mp hrun
      exact hkind
  | modify input path sub =>
      obtain ⟨target, nested, -, -, hkind, -⟩ := Op.modify_eq_ok.mp hrun
      exact hkind
  | unnest input path =>
      obtain ⟨target, nested, -, -, hkind, -⟩ := Op.unnest_eq_ok.mp hrun
      exact hkind
  | nest input attrs into =>
      obtain ⟨nested, -, -, hkind, -⟩ := Op.nest_eq_ok.mp hrun
      exact hkind
  | summarize input keys aggs =>
      obtain ⟨grouped, computed, -, -, hkind, -⟩ := Op.summarize_eq_ok.mp hrun
      exact hkind
  | union left right | intersect left right | difference left right =>
      exact congrArg Op.kind (Op.setOperator_eq_ok.mp hrun).2
  | product left right => exact (Op.product_eq_ok.mp hrun).1
  | join left right kind joinOn =>
      cases joinOn with
      | natural => exact (Op.join_natural_eq_ok.mp hrun).2.2
      | equi pairs => exact (Op.join_equi_eq_ok.mp hrun).2.1
      | theta predicate => exact (Op.join_theta_eq_ok.mp hrun).2.1

end Call

section Kernel

variable [Whittle]

/-- The kernel as a maker of operators: a constructor puts its node together
from exactly its own inputs. -/
def kernel : Maker Op Call OpError where
  inputs := Call.inputs
  run := Call.run
  parts op := op.kind.parts
  parts_of_run {call _} hrun _ hpart := by
    rwa [Call.kind_of_run hrun, call.parts_kind] at hpart

/-- The operators that some finite sequence of constructor calls makes. -/
abbrev Op.Reachable (op : Op) : Prop := Construction.Reachable kernel op

/-- The nodes of an operator's tree. -/
abbrev Op.Node (op node : Op) : Prop := Construction.Node kernel op node

theorem Op.reachable_of_run (call : Call) {op : Op} (hrun : call.run = .ok op)
    (hinputs : ∀ input ∈ call.inputs, input.Reachable) : op.Reachable :=
  reachable_iff.mpr ⟨call, hrun, hinputs⟩

theorem Op.reachable_source (src : Source) : (Op.source src).Reachable :=
  reachable_of_run (.source src) rfl (by simp [Call.inputs])

/-- A property of single nodes that every call establishes holds everywhere in
a reachable tree. -/
theorem Op.Reachable.forall_node {P : Op → Prop} (hcall : ∀ call op, Call.run call = .ok op → P op)
    {op : Op} (hop : op.Reachable) {node : Op} (hnode : op.Node node) : P node := by
  obtain ⟨call, hrun, -⟩ := (hop.node hnode).made
  exact hcall call node hrun

end Kernel

/-! A small catalogue, after the fixtures of the kernel's own tests. -/

namespace Catalogue

def id : AttributeName := ⟨"id", by decide, by decide, by decide⟩

def name : AttributeName := ⟨"name", by decide, by decide, by decide⟩

def total : AttributeName := ⟨"total", by decide, by decide, by decide⟩

def usersTable : Source :=
  .table (.ofAttributes [⟨id, .int64⟩, ⟨name, .string⟩] (by decide)) ⟨"users", by decide⟩

def ordersTable : Source :=
  .table (.ofAttributes [⟨id, .int64⟩, ⟨total, .int64⟩] (by decide)) ⟨"orders", by decide⟩

def users : Op := .source usersTable

def orders : Op := .source ordersTable

def idIsSeven : Expression := .binOp .eq (.attr id) (.lit (.int64 7))

/-- Proved over the orders. -/
def seventh : BoolExpression := ⟨idIsSeven, orders.schema, rfl⟩

def nameOnly : AttributeSet := ⟨[name], by decide⟩

def userRow : Row := .ofValues [.int64 7, .string "seven"] (by decide)

theorem run_users : Run kernel [.source usersTable] [users] :=
  .step .start (by simp [kernel, Call.inputs]) rfl

theorem reachable_users : users.Reachable := Op.reachable_source _

theorem reachable_orders : orders.Reachable := Op.reachable_source _

end Catalogue

end AxiomCore
