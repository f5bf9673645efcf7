import AxiomCore.Blame

/-!
The names that a tree stores, read where they stand. Predicates and computed
columns are checked by every constructor that stores them, against the header
they are evaluated over. The operand of a `COUNT` and the keys of an order are
stored unchecked, so whether they resolve is up to the calls.
-/

namespace AxiomCore

open Checked Construction Refined

/-- An expression at home over a header: it has the type `ty` there, no node of
it is an aggregate, and it mentions only columns of the header. -/
structure Expression.ValidOver (e : Expression) (schema : Schema) (ty : Ty) : Prop where
  typed : infer e schema = .ok ty
  aggregateFree : ∀ a, Expression.agg a ∉ e.postOrder
  resolved : ∀ name ∈ freeAttrsInto e ∅, name ∈ schema.names

/-- The two checks the constructors make are enough. -/
theorem Expression.validOver_of_checked {e : Expression} {schema : Schema} {ty : Ty}
    (hagg : containsAggregate e = false) (hty : infer e schema = .ok ty) :
    e.ValidOver schema ty where
  typed := hty
  aggregateFree a hnode := by
    have hcontains := (containsAggregate_iff e).mpr ⟨a, hnode⟩
    rw [hagg] at hcontains
    exact absurd hcontains nofun
  resolved := freeAttrs_subset_names hagg hty

namespace Op

/-- The expression a node stores is valid over the header it is evaluated
over: the input's for a restriction and a computed column, both sides' for a
theta join. -/
def ExpressionsValid (op : Op) : Prop :=
  match op.kind with
  | .restrict input (.expr b) => b.expr.ValidOver input.schema .bool
  | .join left right _ (.theta (.expr b)) =>
    ∃ combined : Schema,
      combined.attributes = left.schema.attributes ++ right.schema.attributes ∧
        b.expr.ValidOver combined .bool
  | .extend input name expr =>
    ∃ ty, expr.ValidOver input.schema ty ∧
      op.schema.attributes = input.schema.attributes ++ [⟨name, ty⟩]
  | _ => True

/-- Every name an aggregate of a summary mentions is a column of its input. -/
def AggregatesResolve (op : Op) : Prop :=
  match op.kind with
  | .summarize input _ aggs =>
    ∀ agg ∈ aggs.items, ∀ name ∈ aggregateAttributeNames agg.agg, name ∈ input.schema.names
  | _ => True

/-- Every key of an order is a column of its input. -/
def OrderKeysResolve (op : Op) : Prop :=
  match op.kind with
  | .order input keys => ∀ key ∈ keys.items, key.attr ∈ input.schema.names
  | _ => True

end Op

section Expressions

variable [Whittle]

/-- A constructor checks the expression it stores where it stores it. -/
theorem Call.expressionsValid_of_run {call : Call} {op : Op} (hrun : call.run = .ok op) :
    op.ExpressionsValid := by
  rw [Op.ExpressionsValid, Call.kind_of_run hrun]
  cases call with
  | restrict input predicate =>
      obtain ⟨hcheck, -⟩ := Op.restrict_eq_ok.mp hrun
      cases predicate with
      | expr b =>
          obtain ⟨hagg, hty⟩ := checkPredicate_expr_ok.mp hcheck
          exact Expression.validOver_of_checked hagg hty
      | opaqueClosure id => trivial
  | extend input name expr =>
      obtain ⟨ty, -, hagg, hty, -, hcolumns⟩ := Op.extend_eq_ok.mp hrun
      exact ⟨ty, Expression.validOver_of_checked hagg hty, hcolumns⟩
  | join left right kind joinOn =>
      cases joinOn with
      | natural =>
          rcases Call.kind_join left right kind .natural with hkind | hkind
          · rw [hkind]; trivial
          · rw [hkind]; trivial
      | equi pairs => trivial
      | theta predicate =>
          obtain ⟨hcheck, -, hcolumns⟩ := Op.join_theta_eq_ok.mp hrun
          cases predicate with
          | expr b =>
              obtain ⟨hagg, hty⟩ := checkPredicate_expr_ok.mp hcheck
              exact ⟨op.schema, hcolumns, Expression.validOver_of_checked hagg hty⟩
          | opaqueClosure id => trivial
  | _ => trivial

/-- In every tree that constructor calls can make, every stored expression is
valid where it stands, whatever header its proof was made over. -/
theorem stored_expressions_valid {op node : Op} (hop : op.Reachable) (hnode : op.Node node) :
    node.ExpressionsValid :=
  hop.forall_node (fun _ _ => Call.expressionsValid_of_run) hnode

end Expressions

/-- The users whose id is seven, by a predicate proved over the orders. -/
theorem stored_expressions_valid_users :
    ∃ op, Catalogue.users.restrict (.expr Catalogue.seventh) = .ok op ∧ op.ExpressionsValid := by
  obtain ⟨op, hrestrict⟩ :
      ∃ op, Catalogue.users.restrict (.expr Catalogue.seventh) = .ok op := ⟨_, rfl⟩
  have hop : op.Reachable := Op.reachable_of_run
    (.restrict Catalogue.users (.expr Catalogue.seventh)) hrestrict
    (by simp [Call.inputs, Catalogue.reachable_users])
  exact ⟨op, hrestrict, stored_expressions_valid hop (.root op)⟩

section Aggregates

/-- An aggregate that a header accepts mentions only its columns, except for
the operand of a `COUNT`, which is not looked up. -/
theorem aggTy_names_resolve_iff {a : Agg} {schema : Schema} {ty : Ty}
    (hty : aggTy a schema = .ok ty) :
    (∀ name ∈ aggregateAttributeNames a, name ∈ schema.names) ↔
      ∀ name, a = .count (some name) → name ∈ schema.names := by
  cases a with
  | count attr => simp [aggregateAttributeNames]
  | sum name | min name | max name | avg name =>
      obtain ⟨columnTy, hlookup, -⟩ := (bind_eq_ok _ _ _).mp hty
      simp [aggregateAttributeNames, mem_names_of_lookup_ok hlookup]

/-- An aggregate other than `COUNT` reports a missing operand. -/
theorem aggTy_unknown {a : Agg} {schema : Schema} {name : AttributeName}
    (hname : name ∈ aggregateAttributeNames a) (hcount : ∀ attr, a ≠ .count attr)
    (habsent : name ∉ schema.names) : aggTy a schema = .error (.unknownAttribute name) := by
  have hcolumn : a.column = some name := by
    cases a with
    | count attr => exact absurd rfl (hcount attr)
    | sum n | min n | max n | avg n =>
        obtain rfl := List.mem_singleton.mp hname
        rfl
  exact aggTy_eq_error.mpr ⟨name, hcolumn, Or.inl ⟨habsent, rfl⟩⟩

/-- Every operand of a `COUNT` in a summary call is a column of its input. -/
def Call.CountsResolve : Call → Prop
  | .summarize input _ aggs =>
    ∀ agg ∈ aggs.items, ∀ name, agg.agg = .count (some name) → name ∈ input.schema.names
  | _ => True

variable [Whittle]

/-- One call: the aggregates it stores resolve exactly when its `COUNT`
operands do. -/
theorem Call.aggregatesResolve_iff {call : Call} {op : Op} (hrun : call.run = .ok op) :
    op.AggregatesResolve ↔ call.CountsResolve := by
  rw [Op.AggregatesResolve, Call.kind_of_run hrun]
  cases call with
  | summarize input keys aggs =>
      obtain ⟨grouped, computed, -, hcomputed, -⟩ := Op.summarize_eq_ok.mp hrun
      apply forall₂_congr
      intro agg hagg
      obtain ⟨a, -, hcolumn⟩ := exists_output hcomputed hagg
      have hty := (Op.aggregateColumn_eq_ok.mp hcolumn).2.2
      exact aggTy_names_resolve_iff hty
  | join left right kind joinOn =>
      rcases Call.kind_join left right kind joinOn with hkind | hkind
      · rw [hkind]; rfl
      · rw [hkind]; rfl
  | _ => rfl

/-- Which aggregates mention only columns that exist. For a single aggregate
over a header, to accept only columns of the header and to report a missing one
is exactly not to be a `COUNT` of a missing column. The aggregates inside an
accepted expression resolve exactly when its `COUNT` operands do, and the
aggregates in every tree of a run resolve exactly when the `COUNT` operands of
its summary calls do. -/
theorem aggregate_operands_resolve_iff :
    (∀ (a : Agg) (schema : Schema),
      ((∀ ty, aggTy a schema = .ok ty → ∀ name ∈ aggregateAttributeNames a, name ∈ schema.names) ∧
        ∀ name ∈ aggregateAttributeNames a, name ∉ schema.names →
          aggTy a schema = .error (.unknownAttribute name)) ↔
        ∀ name, a = .count (some name) → name ∈ schema.names) ∧
    (∀ (e : Expression) (schema : Schema) (ty : Ty), infer e schema = .ok ty →
      ((∀ a, Expression.agg a ∈ e.postOrder →
          ∀ name ∈ aggregateAttributeNames a, name ∈ schema.names) ↔
        ∀ name, Expression.agg (.count (some name)) ∈ e.postOrder → name ∈ schema.names)) ∧
    (∀ calls ops, Run kernel calls ops →
      ((∀ op ∈ ops, ∀ node, Op.Node op node → node.AggregatesResolve) ↔
        ∀ call ∈ calls, call.CountsResolve)) := by
  refine ⟨fun a schema => ?_, fun e schema ty hty => ?_, fun calls ops hrun => ?_⟩
  · constructor
    · rintro ⟨haccept, -⟩ name rfl
      exact haccept .int64 rfl name (by simp [aggregateAttributeNames])
    · intro hcount
      constructor
      · intro ty hty
        exact (aggTy_names_resolve_iff hty).mpr hcount
      · intro name hname habsent
        have hother : ∀ attr, a ≠ .count attr := by
          rintro attr rfl
          exact habsent (hcount name (by simpa [aggregateAttributeNames] using hname))
        exact aggTy_unknown hname hother habsent
  · constructor
    · intro hresolve name hnode
      exact hresolve _ hnode name (by simp [aggregateAttributeNames])
    · intro hcount a hnode
      obtain ⟨nodeTy, haccept⟩ := infer_node hty _ hnode
      apply (aggTy_names_resolve_iff haccept).mpr
      rintro name rfl
      exact hcount name hnode
  · exact hrun.forall_node_iff fun call op => Call.aggregatesResolve_iff

end Aggregates

namespace Catalogue

def grandTotal : GroupingSet := ⟨[], by decide⟩

def countOf (column : AttributeName) : NamedAggSet :=
  ⟨[⟨total, .count (some column)⟩], ⟨by simp, by simp [maxSchemaAttributes]⟩, by simp⟩

end Catalogue

/-- The number of users, counted by their id. -/
theorem aggregate_operands_resolve_users :
    ∃ op, Catalogue.users.summarize Catalogue.grandTotal (Catalogue.countOf Catalogue.id) = .ok op ∧
      op.AggregatesResolve := by
  obtain ⟨op, hsummarize⟩ : ∃ op, Catalogue.users.summarize Catalogue.grandTotal
      (Catalogue.countOf Catalogue.id) = .ok op := ⟨_, rfl⟩
  have hrun : Run kernel
      [.summarize Catalogue.users Catalogue.grandTotal (Catalogue.countOf Catalogue.id),
        .source Catalogue.usersTable] [op, Catalogue.users] :=
    .step Catalogue.run_users (by simp [kernel, Call.inputs]) hsummarize
  have hid : Catalogue.id ∈ Catalogue.users.schema.names := by decide
  have hnodes := (aggregate_operands_resolve_iff.2.2 _ _ hrun).mpr
    (by simpa [Call.CountsResolve, Catalogue.countOf] using hid)
  exact ⟨op, hsummarize, hnodes op (by simp) op (.root op)⟩

/-- A summary of the users that counts a column they do not have is built
without an error. -/
theorem aggregate_operand_dangles :
    ∃ op,
      Catalogue.users.summarize Catalogue.grandTotal (Catalogue.countOf Catalogue.total) = .ok op ∧
      op.Reachable ∧ ¬ op.AggregatesResolve ∧
      aggTy (.count (some Catalogue.total)) Catalogue.users.schema = .ok .int64 ∧
      Catalogue.total ∉ Catalogue.users.schema.names := by
  have habsent : Catalogue.total ∉ Catalogue.users.schema.names := by decide
  refine ⟨_, rfl, ?_, ?_, rfl, habsent⟩
  · exact Op.reachable_of_run
      (.summarize Catalogue.users Catalogue.grandTotal (Catalogue.countOf Catalogue.total)) rfl
      (by simp [Call.inputs, Catalogue.reachable_users])
  · intro hresolve
    have hoperand := hresolve ⟨Catalogue.total, .count (some Catalogue.total)⟩
      (by simp [Catalogue.countOf]) Catalogue.total (by simp [aggregateAttributeNames])
    exact habsent hoperand

section Orders

/-- Every key of an order call is a column of its input. -/
def Call.OrderKeysResolve : Call → Prop
  | .order input keys => ∀ key ∈ keys.items, key.attr ∈ input.schema.names
  | _ => True

variable [Whittle]

/-- One call: an order call stores its keys as they are. -/
theorem Call.orderKeysResolve_iff {call : Call} {op : Op} (hrun : call.run = .ok op) :
    op.OrderKeysResolve ↔ call.OrderKeysResolve := by
  rw [Op.OrderKeysResolve, Call.kind_of_run hrun]
  cases call with
  | join left right kind joinOn =>
      rcases Call.kind_join left right kind joinOn with hkind | hkind
      · rw [hkind]; rfl
      · rw [hkind]; rfl
  | _ => rfl

/-- The order keys in every tree of a run resolve exactly when each order call
of the run was given keys among the columns of its own input. -/
theorem order_keys_resolve_iff {calls : List Call} {ops : List Op} (hrun : Run kernel calls ops) :
    (∀ op ∈ ops, ∀ node, Op.Node op node → node.OrderKeysResolve) ↔
      ∀ call ∈ calls, call.OrderKeysResolve :=
  hrun.forall_node_iff fun _ _ => Call.orderKeysResolve_iff

end Orders

def Catalogue.byId : OrderKeys := ⟨[⟨id, .ascending, .nullsLast⟩], by decide⟩

/-- The users ordered by id. -/
theorem order_keys_resolve_users :
    (Catalogue.users.order Catalogue.byId).OrderKeysResolve := by
  have hrun : Run kernel [.order Catalogue.users Catalogue.byId, .source Catalogue.usersTable]
      [Catalogue.users.order Catalogue.byId, Catalogue.users] :=
    .step Catalogue.run_users (by simp [kernel, Call.inputs]) rfl
  have hkeys : ∀ key ∈ Catalogue.byId.items, key.attr ∈ Catalogue.users.schema.names := by decide
  have hnodes := (order_keys_resolve_iff hrun).mpr (by simpa [Call.OrderKeysResolve] using hkeys)
  exact hnodes (Catalogue.users.order Catalogue.byId) (by simp) _ (.root _)

/-- The names of the users have no id, and ordering them by id is built all the
same. -/
theorem order_keys_dangle :
    ∃ named, Catalogue.users.project Catalogue.nameOnly = .ok named ∧
      (named.order Catalogue.byId).Reachable ∧
      ¬ (named.order Catalogue.byId).OrderKeysResolve := by
  obtain ⟨named, hproject⟩ : ∃ op, Catalogue.users.project Catalogue.nameOnly = .ok op := ⟨_, rfl⟩
  refine ⟨named, hproject, ?_, ?_⟩
  · have hnamed : named.Reachable := Op.reachable_of_run
      (.project Catalogue.users Catalogue.nameOnly) hproject
      (by simp [Call.inputs, Catalogue.reachable_users])
    exact Op.reachable_of_run (.order named Catalogue.byId) rfl (by simp [Call.inputs, hnamed])
  · intro hresolve
    have hid : Catalogue.id ∈ named.schema.names :=
      hresolve ⟨Catalogue.id, .ascending, .nullsLast⟩ (by simp [Catalogue.byId])
    rw [Schema.names, (Op.project_eq_ok.mp hproject).2.map_name] at hid
    exact absurd hid (by decide)

end AxiomCore
