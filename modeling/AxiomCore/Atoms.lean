import AxiomCore.Replay
import AxiomCore.Respelling

/-!
Names are atoms. The constructors compare names for equality and do nothing else
with them, so a permutation of the names, applied to everything that goes into a
call, gives the operator or the error of the call with its names permuted.
-/

namespace AxiomCore

open Checked Construction Refined

section Trees

variable (σ : Equiv.Perm AttributeName)

mutual

/-- The tree with every name in it replaced, those of its caches included. -/
def OpKind.respell : OpKind → OpKind
  | .source src => .source (src.respell σ)
  | .project input attrs => .project input.respell (attrs.respell σ)
  | .restrict input predicate => .restrict input.respell (predicate.respell σ)
  | .rename input fromName toName => .rename input.respell (σ fromName) (σ toName)
  | .extend input name expr => .extend input.respell (σ name) (expr.respell σ)
  | .join left right kind joinOn => .join left.respell right.respell kind (joinOn.respell σ)
  | .product left right => .product left.respell right.respell
  | .union left right => .union left.respell right.respell
  | .intersect left right => .intersect left.respell right.respell
  | .difference left right => .difference left.respell right.respell
  | .summarize input keys aggs => .summarize input.respell (keys.respell σ) (aggs.respell σ)
  | .order input keys => .order input.respell (keys.respell σ)
  | .limit input offset count => .limit input.respell offset count
  | .modify input path sub => .modify input.respell (path.respell σ) sub.respell
  | .unnest input path => .unnest input.respell (path.respell σ)
  | .nest input attrs into => .nest input.respell (attrs.respell σ) (σ into)

def Op.respell : Op → Op
  | ⟨kind, schema⟩ => ⟨kind.respell, schema.respell σ⟩

end

@[simp] theorem Op.kind_respell (op : Op) : (op.respell σ).kind = op.kind.respell σ := by
  cases op
  rfl

@[simp] theorem Op.schema_respell (op : Op) : (op.respell σ).schema = op.schema.respell σ := by
  cases op
  rfl

def Call.respell : Call → Call
  | .source src => .source (src.respell σ)
  | .project input attrs => .project (input.respell σ) (attrs.respell σ)
  | .restrict input predicate => .restrict (input.respell σ) (predicate.respell σ)
  | .rename input fromName toName => .rename (input.respell σ) (σ fromName) (σ toName)
  | .order input keys => .order (input.respell σ) (keys.respell σ)
  | .limit input offset count => .limit (input.respell σ) offset count
  | .extend input name expr => .extend (input.respell σ) (σ name) (expr.respell σ)
  | .modify input path sub => .modify (input.respell σ) (path.respell σ) (sub.respell σ)
  | .unnest input path => .unnest (input.respell σ) (path.respell σ)
  | .nest input attrs into => .nest (input.respell σ) (attrs.respell σ) (σ into)
  | .summarize input keys aggs => .summarize (input.respell σ) (keys.respell σ) (aggs.respell σ)
  | .union left right => .union (left.respell σ) (right.respell σ)
  | .intersect left right => .intersect (left.respell σ) (right.respell σ)
  | .difference left right => .difference (left.respell σ) (right.respell σ)
  | .join left right kind joinOn =>
    .join (left.respell σ) (right.respell σ) kind (joinOn.respell σ)
  | .product left right => .product (left.respell σ) (right.respell σ)

def OpError.respell : OpError → OpError
  | .unknownAttribute attr => .unknownAttribute (σ attr)
  | .attributeAlreadyExists attr => .attributeAlreadyExists (σ attr)
  | .schemaMismatch => .schemaMismatch
  | .joinTypeMismatch attr => .joinTypeMismatch (σ attr)
  | .infer source => .infer (source.respell σ)
  | .aggregateOutsideSummarize => .aggregateOutsideSummarize
  | .notARelation attr => .notARelation (σ attr)
  | .unsupportedPathShape => .unsupportedPathShape
  | .duplicateAcrossOperands attr => .duplicateAcrossOperands (σ attr)
  | .schema source => .schema source

end Trees

section Checks

variable (σ : Equiv.Perm AttributeName)

theorem Schema.findOrUnknown_respell (s : Schema) (name : AttributeName) :
    (s.respell σ).findOrUnknown (σ name) =
      transport (OpError.respell σ) (Attribute.respell σ) (s.findOrUnknown name) :=
  transport_okOr (find_respell σ s name) rfl

theorem nestedSchema_respell (target : AttributeName) (ty : Ty) :
    nestedSchema (σ target) (ty.respell σ) =
      transport (OpError.respell σ) (Schema.respell σ) (nestedSchema target ty) := by
  cases ty <;> rfl

/-- Inference as the constructors call it. -/
theorem inferOrError_respell (e : Expression) (s : Schema) :
    (infer (e.respell σ) (s.respell σ)).mapError OpError.infer =
      transport (OpError.respell σ) (Ty.respell σ) ((infer e s).mapError .infer) :=
  transport_mapError (infer_respell σ e s) fun _ => rfl

theorem aggTyOrError_respell (a : Agg) (s : Schema) :
    (aggTy (a.mapNames σ) (s.respell σ)).mapError OpError.infer =
      transport (OpError.respell σ) (Ty.respell σ) ((aggTy a s).mapError .infer) :=
  transport_mapError (aggTy_respell σ a s) fun _ => rfl

/-- The header check as the constructors call it. -/
theorem schemaOrError_respell [Whittle] (columns : List Attribute) :
    (Schema.tryNew (columns.map (Attribute.respell σ))).mapError OpError.schema =
      transport (OpError.respell σ) (Schema.respell σ)
        ((Schema.tryNew columns).mapError .schema) :=
  transport_mapError (Schema.tryNew_respell σ columns) fun _ => rfl

/-- The target of a path as the constructors look for it. -/
theorem targetOrError_respell (path : AnyPath) :
    okOr (path.respell σ).target OpError.unsupportedPathShape =
      transport (OpError.respell σ) σ (okOr path.target .unsupportedPathShape) :=
  transport_okOr (AnyPath.target_respell σ path) rfl

theorem checkPredicate_respell (s : Schema) (predicate : Predicate) :
    checkPredicate (s.respell σ) (predicate.respell σ) =
      transport (OpError.respell σ) id (checkPredicate s predicate) := by
  cases predicate with
  | opaqueClosure id => rfl
  | expr b =>
      refine transport_bind (f := id) (transport_ensure ?_ rfl) ?_
      · rw [BoolExpression.respell, containsAggregate_respell]
      · intro _
        apply transport_bind (inferOrError_respell σ b.expr s)
        intro ty
        exact transport_ensure (Ty.respell_eq_bool σ) rfl

/-- The columns found under a list of names. -/
theorem mapM_findOrUnknown_respell (s : Schema) (names : List AttributeName) :
    (names.map σ).mapM (s.respell σ).findOrUnknown =
      transport (OpError.respell σ) (List.map (Attribute.respell σ))
        (names.mapM s.findOrUnknown) := by
  rw [List.mapM_map]
  exact transport_mapM fun name _ => Schema.findOrUnknown_respell σ s name

end Checks

namespace Op

section Checks

variable (σ : Equiv.Perm AttributeName) (input left right : Op)

theorem restrict_respell (predicate : Predicate) :
    (input.respell σ).restrict (predicate.respell σ) =
      transport (OpError.respell σ) (respell σ) (input.restrict predicate) := by
  rw [restrict, schema_respell]
  exact transport_bind (checkPredicate_respell σ input.schema predicate) fun _ => rfl

theorem aggregateColumn_respell (keys : GroupingSet) (agg : NamedAgg) :
    aggregateColumn (input.respell σ) (keys.respell σ) (agg.respell σ) =
      transport (OpError.respell σ) (Attribute.respell σ) (aggregateColumn input keys agg) := by
  rw [aggregateColumn, schema_respell]
  refine transport_bind (f := id) (transport_ensure (not_congr (GroupingSet.mem_respell σ)) rfl) ?_
  intro _
  exact transport_bind (aggTyOrError_respell σ agg.agg input.schema) fun _ => rfl

theorem setOperator_respell (kind : OpKind) :
    setOperator (kind.respell σ) (left.respell σ) (right.respell σ) =
      transport (OpError.respell σ) (respell σ) (setOperator kind left right) := by
  rw [setOperator, schema_respell, schema_respell]
  exact transport_bind (transport_ensure (Schema.respell_inj σ _ _) rfl) fun _ => rfl

/-- One step of the search for shared columns. -/
theorem shareColumn_respell (shared : List AttributeName) (l : Attribute) :
    shareColumn (right.respell σ) (shared.map σ) (l.respell σ) =
      transport (OpError.respell σ) (List.map σ) (shareColumn right shared l) := by
  have hfind := Schema.find_respell σ right.schema l.name
  rw [shareColumn, shareColumn, schema_respell]
  simp only [Attribute.respell] at hfind ⊢
  rw [hfind]
  cases right.schema.find l.name with
  | none => rfl
  | some r =>
      refine transport_bind (f := id) (transport_ensure (Ty.respell_inj σ r.ty l.ty) rfl) ?_
      intro _
      simp [pure, Except.pure]

theorem sharedNames_respell :
    sharedNames (left.respell σ) (right.respell σ) =
      transport (OpError.respell σ) (List.map σ) (sharedNames left right) := by
  rw [sharedNames, schema_respell, Schema.attributes_respell, List.foldlM_map]
  exact transport_foldlM (g := List.map σ) [] fun shared l _ =>
    shareColumn_respell σ right shared l

theorem checkPair_respell (pair : EquiPair) :
    checkPair (left.respell σ) (right.respell σ) (pair.respell σ) =
      transport (OpError.respell σ) id (checkPair left right pair) := by
  rw [checkPair, schema_respell, schema_respell]
  apply transport_bind (Schema.findOrUnknown_respell σ left.schema pair.left)
  intro l
  apply transport_bind (Schema.findOrUnknown_respell σ right.schema pair.right)
  intro r
  exact transport_ensure (Ty.respell_inj σ l.ty r.ty) rfl

end Checks

variable [Whittle] (σ : Equiv.Perm AttributeName) (input left right : Op)

theorem withColumns_respell (kind : OpKind) (columns : List Attribute) :
    withColumns (kind.respell σ) (columns.map (Attribute.respell σ)) =
      transport (OpError.respell σ) (respell σ) (withColumns kind columns) :=
  transport_bind (schemaOrError_respell σ columns) fun _ => rfl

/-- Closing a constructor over columns that are the old ones with other names. -/
theorem withColumns_eq (kind : OpKind) {columns columns' : List Attribute}
    (hcolumns : columns' = columns.map (Attribute.respell σ)) :
    withColumns (kind.respell σ) columns' =
      transport (OpError.respell σ) (respell σ) (withColumns kind columns) := by
  subst hcolumns
  exact withColumns_respell σ kind columns

theorem project_respell (attrs : AttributeSet) :
    (input.respell σ).project (attrs.respell σ) =
      transport (OpError.respell σ) (respell σ) (input.project attrs) := by
  rw [project, schema_respell]
  apply transport_bind (mapM_findOrUnknown_respell σ input.schema attrs.items)
  exact withColumns_respell σ (.project input attrs)

theorem rename_respell (fromName toName : AttributeName) :
    (input.respell σ).rename (σ fromName) (σ toName) =
      transport (OpError.respell σ) (respell σ) (input.rename fromName toName) := by
  rw [rename, schema_respell]
  refine transport_bind (f := id) (transport_ensure (by simp) rfl) ?_
  intro _
  refine transport_bind (f := id) (transport_ensure (by simp) rfl) ?_
  intro _
  apply withColumns_eq σ (.rename input fromName toName)
  rw [Schema.attributes_respell, List.map_map, List.map_map]
  apply List.map_congr_left
  intro a _
  by_cases hname : a.name = fromName
  · simp [Attribute.respell, hname]
  · simp [Attribute.respell, hname]

theorem extend_respell (name : AttributeName) (expr : Expression) :
    (input.respell σ).extend (σ name) (expr.respell σ) =
      transport (OpError.respell σ) (respell σ) (input.extend name expr) := by
  rw [extend, schema_respell]
  refine transport_bind (f := id) (transport_ensure (by simp) rfl) ?_
  intro _
  refine transport_bind (f := id) (transport_ensure (by simp) rfl) ?_
  intro _
  apply transport_bind (inferOrError_respell σ expr input.schema)
  intro ty
  apply withColumns_eq σ (.extend input name expr)
  simp [Attribute.respell]

theorem modify_respell (path : AnyPath) (sub : Op) :
    (input.respell σ).modify (path.respell σ) (sub.respell σ) =
      transport (OpError.respell σ) (respell σ) (input.modify path sub) := by
  rw [modify, schema_respell]
  apply transport_bind (targetOrError_respell σ path)
  intro target
  apply transport_bind (Schema.findOrUnknown_respell σ input.schema target)
  intro column
  apply transport_bind (nestedSchema_respell σ target column.ty)
  intro _
  apply withColumns_eq σ (.modify input path sub)
  rw [Schema.attributes_respell, List.map_map, List.map_map]
  apply List.map_congr_left
  intro a _
  by_cases hname : a.name = target
  · simp [Attribute.respell, hname, Ty.respell]
  · simp [Attribute.respell, hname]

theorem unnest_respell (path : AnyPath) :
    (input.respell σ).unnest (path.respell σ) =
      transport (OpError.respell σ) (respell σ) (input.unnest path) := by
  rw [unnest, schema_respell]
  apply transport_bind (targetOrError_respell σ path)
  intro target
  apply transport_bind (Schema.findOrUnknown_respell σ input.schema target)
  intro column
  apply transport_bind (nestedSchema_respell σ target column.ty)
  intro nested
  apply withColumns_eq σ (.unnest input path)
  rw [Schema.attributes_respell, Schema.attributes_respell, List.flatMap_map, List.map_flatMap]
  apply List.flatMap_congr
  intro a _
  by_cases hname : a.name = target
  · simp [Attribute.respell, hname]
  · simp [Attribute.respell, hname]

theorem nest_respell (attrs : AttributeSet) (into : AttributeName) :
    (input.respell σ).nest (attrs.respell σ) (σ into) =
      transport (OpError.respell σ) (respell σ) (input.nest attrs into) := by
  rw [nest, schema_respell]
  apply transport_bind (mapM_findOrUnknown_respell σ input.schema attrs.items)
  intro nested
  apply transport_bind (schemaOrError_respell σ nested)
  intro sub
  refine transport_bind (f := id) (transport_ensure (by simp) rfl) ?_
  intro _
  apply withColumns_eq σ (.nest input attrs into)
  have hkept : (input.schema.attributes.map (Attribute.respell σ)).filter
      (fun a => a.name ∉ (attrs.respell σ).items) =
      (input.schema.attributes.filter fun a => a.name ∉ attrs.items).map
        (Attribute.respell σ) := by
    rw [List.filter_map]
    simp only [Function.comp_def, Attribute.respell, AttributeSet.mem_respell]
  rw [Schema.attributes_respell, hkept, List.map_append]
  rfl

theorem summarize_respell (keys : GroupingSet) (aggs : NamedAggSet) :
    (input.respell σ).summarize (keys.respell σ) (aggs.respell σ) =
      transport (OpError.respell σ) (respell σ) (input.summarize keys aggs) := by
  rw [summarize, schema_respell]
  apply transport_bind (mapM_findOrUnknown_respell σ input.schema keys.items)
  intro grouped
  have hcomputed : (aggs.respell σ).items.mapM
      (aggregateColumn (input.respell σ) (keys.respell σ)) =
      transport (OpError.respell σ) (List.map (Attribute.respell σ))
        (aggs.items.mapM (aggregateColumn input keys)) := by
    rw [NamedAggSet.items_respell, List.mapM_map]
    exact transport_mapM fun agg _ => aggregateColumn_respell σ input keys agg
  apply transport_bind hcomputed
  intro computed
  exact withColumns_eq σ (.summarize input keys aggs) List.map_append.symm

theorem concatDisjointSchemas_respell :
    concatDisjointSchemas (left.respell σ) (right.respell σ) =
      transport (OpError.respell σ) (Schema.respell σ) (concatDisjointSchemas left right) := by
  rw [concatDisjointSchemas, schema_respell, schema_respell, Schema.attributes_respell,
    Schema.attributes_respell, List.forM_map, ← List.map_append]
  refine transport_bind (f := id) (transport_forM ?_) ?_
  · intro r _
    exact transport_ensure (by simp [Attribute.respell]) rfl
  · intro _
    exact schemaOrError_respell σ (left.schema.attributes ++ right.schema.attributes)

theorem product_respell :
    (left.respell σ).product (right.respell σ) =
      transport (OpError.respell σ) (respell σ) (left.product right) :=
  transport_bind (concatDisjointSchemas_respell σ left right) fun _ => rfl

theorem join_respell (kind : JoinKind) (joinOn : JoinOn) :
    (left.respell σ).join (right.respell σ) kind (joinOn.respell σ) =
      transport (OpError.respell σ) (respell σ) (left.join right kind joinOn) := by
  cases joinOn with
  | natural =>
      apply transport_bind (sharedNames_respell σ left right)
      intro shared
      by_cases hproduct : shared = [] ∧ kind = .inner
      · have hproduct' : shared.map σ = [] ∧ kind = .inner := by
          rwa [List.map_eq_nil_iff]
        rw [if_pos hproduct, if_pos hproduct']
        exact product_respell σ left right
      · have hproduct' : ¬ (shared.map σ = [] ∧ kind = .inner) := by
          rwa [List.map_eq_nil_iff]
        rw [if_neg hproduct, if_neg hproduct']
        apply withColumns_eq σ (.join left right kind .natural)
        have hadded : (right.schema.attributes.map (Attribute.respell σ)).filter
            (fun r => r.name ∉ shared.map σ) =
            (right.schema.attributes.filter fun r => r.name ∉ shared).map
              (Attribute.respell σ) := by
          rw [List.filter_map]
          simp only [Function.comp_def, Attribute.respell,
            List.mem_map_of_injective σ.injective]
        rw [schema_respell, schema_respell, Schema.attributes_respell, Schema.attributes_respell,
          hadded, List.map_append]
  | equi pairs =>
      have hpairs : forM (pairs.respell σ).items (checkPair (left.respell σ) (right.respell σ)) =
          transport (OpError.respell σ) id (forM pairs.items (checkPair left right)) := by
        rw [EquiPairs.items_respell, List.forM_map]
        exact transport_forM fun pair _ => checkPair_respell σ left right pair
      apply transport_bind hpairs
      intro _
      exact transport_bind (concatDisjointSchemas_respell σ left right) fun _ => rfl
  | theta predicate =>
      apply transport_bind (concatDisjointSchemas_respell σ left right)
      intro schema
      exact transport_bind (checkPredicate_respell σ schema predicate) fun _ => rfl

end Op

/-- A call over the other names makes the operator, or reports the error, of the call
with the other names. -/
theorem Call.run_respell [Whittle] (σ : Equiv.Perm AttributeName) (call : Call) :
    (call.respell σ).run = transport (OpError.respell σ) (Op.respell σ) call.run := by
  cases call with
  | source src => simp [respell, run, Op.source, Op.respell, OpKind.respell]
  | order input keys => simp [respell, run, Op.order, Op.respell, OpKind.respell]
  | limit input offset count => simp [respell, run, Op.limit, Op.respell, OpKind.respell]
  | project input attrs => exact Op.project_respell σ input attrs
  | restrict input predicate => exact Op.restrict_respell σ input predicate
  | rename input fromName toName => exact Op.rename_respell σ input fromName toName
  | extend input name expr => exact Op.extend_respell σ input name expr
  | modify input path sub => exact Op.modify_respell σ input path sub
  | unnest input path => exact Op.unnest_respell σ input path
  | nest input attrs into => exact Op.nest_respell σ input attrs into
  | summarize input keys aggs => exact Op.summarize_respell σ input keys aggs
  | union left right => exact Op.setOperator_respell σ left right (.union left right)
  | intersect left right => exact Op.setOperator_respell σ left right (.intersect left right)
  | difference left right => exact Op.setOperator_respell σ left right (.difference left right)
  | join left right kind joinOn => exact Op.join_respell σ left right kind joinOn
  | product left right => exact Op.product_respell σ left right

section Kernel

variable (σ : Equiv.Perm AttributeName)

theorem Call.inputs_respell (call : Call) :
    (call.respell σ).inputs = call.inputs.map (Op.respell σ) := by
  cases call <;> rfl

theorem OpKind.call_respell (kind : OpKind) : (kind.respell σ).call = kind.call.respell σ := by
  cases kind <;> rfl

theorem OpKind.parts_respell (kind : OpKind) :
    (kind.respell σ).parts = kind.parts.map (Op.respell σ) := by
  cases kind <;> rfl

/-- A node is put together again as it is, or a join is as a product. -/
theorem OpKind.kind_call (kind : OpKind) : kind.call.kind = kind ∨
    ∃ left right joinKind joinOn, kind = .join left right joinKind joinOn ∧
      kind.call.kind = .product left right := by
  cases kind with
  | join left right joinKind joinOn =>
      rcases Call.kind_join left right joinKind joinOn with hproduct | hjoin
      · exact Or.inr ⟨left, right, joinKind, joinOn, rfl, hproduct⟩
      · exact Or.inl hjoin
  | _ => exact Or.inl rfl

variable [Whittle]

/-- A node is made by its own call over the other names exactly when it is made by its
own call. -/
theorem Op.run_call_respell {op : Op} :
    (op.respell σ).kind.call.run = .ok (op.respell σ) ↔ op.kind.call.run = .ok op := by
  rw [kind_respell, OpKind.call_respell, Call.run_respell, transport_eq_ok]
  constructor
  · rintro ⟨made, hrun, hsame⟩
    have hkinds : made.kind.respell σ = op.kind.respell σ := by
      rw [← kind_respell, ← kind_respell, hsame]
    have hschema : made.schema = op.schema := by
      rw [← Schema.respell_inj σ, ← schema_respell, ← schema_respell, hsame]
    have hmade : made.kind = op.kind.call.kind := Call.kind_of_run hrun
    have hkind : made.kind = op.kind := by
      rcases op.kind.kind_call with hkept | ⟨left, right, joinKind, joinOn, hjoin, hproduct⟩
      · exact hmade.trans hkept
      · rw [hmade, hproduct, hjoin] at hkinds
        simp [OpKind.respell] at hkinds
    have hop : made = op := by
      cases made
      cases op
      exact congrArg₂ mk hkind hschema
    rw [hrun, hop]
  · intro hrun
    exact ⟨op, hrun, rfl⟩

/-- A tree is reachable exactly when it is with other names. -/
theorem Op.reachable_respell {op : Op} : (op.respell σ).Reachable ↔ op.Reachable := by
  induction op using Op.induction_parts with
  | h op ih =>
      have hparts : (∀ part ∈ (op.respell σ).kind.parts, part.Reachable) ↔
          ∀ part ∈ op.kind.parts, part.Reachable := by
        rw [kind_respell, OpKind.parts_respell, List.forall_mem_map]
        exact forall₂_congr ih
      exact kernelReadBack.reachable_iff.trans
        ((and_congr (run_call_respell σ) hparts).trans kernelReadBack.reachable_iff.symm)

/-- A run goes through over the other names, and makes the operators with the other
names. -/
theorem run_respell {calls : List Call} {ops : List Op} (hrun : Run kernel calls ops) :
    Run kernel (calls.map (Call.respell σ)) (ops.map (Op.respell σ)) := by
  apply hrun.map (Call.inputs_respell σ)
  intro call op hmade
  exact (Call.run_respell σ call).trans (transport_eq_ok.mpr ⟨op, hmade, rfl⟩)

end Kernel

/-- Names are atoms. Every constructor call over other names makes the operator, or
reports the error, with the other names; runs and reachable trees follow; so do the
sources and the predicates, and a constraint is accepted for one name exactly when it
is for the other. The foreign name that a rejected constraint reports is the same one
when the mentioned names keep their order. -/
theorem names_are_atoms [Whittle] (σ : Equiv.Perm AttributeName) :
    (∀ call : Call, (call.respell σ).run =
      transport (OpError.respell σ) (Op.respell σ) call.run) ∧
    (∀ op : Op, (op.respell σ).Reachable ↔ op.Reachable) ∧
    (∀ calls ops, Run kernel calls ops →
      Run kernel (calls.map (Call.respell σ)) (ops.map (Op.respell σ))) ∧
    (∀ s rawRows, Source.tryMemory (s.respell σ) rawRows =
      transport id (Source.respell σ) (Source.tryMemory s rawRows)) ∧
    (∀ s e, CanonicalPredicate.tryNew (s.respell σ) (e.respell σ) =
      transport (CanonicalPredicateError.respell σ) (CanonicalPredicate.respell σ)
        (CanonicalPredicate.tryNew s e)) ∧
    ∀ attr (p : CanonicalPredicate),
      ((∃ c, AttributeConstraint.tryNew (σ attr) (p.respell σ) = .ok c) ↔
        ∃ c, AttributeConstraint.tryNew attr p = .ok c) ∧
      ((∀ a ∈ p.freeAttributes, ∀ b ∈ p.freeAttributes, a ≤ b → σ a ≤ σ b) →
        AttributeConstraint.tryNew (σ attr) (p.respell σ) =
          transport (AttributeConstraintError.respell σ) (AttributeConstraint.respell σ)
            (AttributeConstraint.tryNew attr p)) :=
  ⟨Call.run_respell σ, fun _ => Op.reachable_respell σ, fun _ _ => run_respell σ,
    Source.tryMemory_respell σ, CanonicalPredicate.tryNew_respell σ,
    fun _ _ => ⟨AttributeConstraint.exists_tryNew_respell, AttributeConstraint.tryNew_respell⟩⟩

end AxiomCore
