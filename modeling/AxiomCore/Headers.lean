import AxiomCore.Calls

/-!
The header of an operator, recomputed from the source leaves and the stored
parameters by the relational rules alone. No rule here reads a cached header,
and no rule checks anything beyond what it needs to name its columns. Every
cache of a reachable tree holds exactly the recomputed header.
-/

namespace AxiomCore

open Checked Refined

namespace Schema

/-- The header with the given columns, when they obey the header rule. -/
def ofColumns (columns : List Attribute) : Option Schema :=
  if rule : HeaderRule columns then some (.ofAttributes columns rule) else none

@[simp] theorem ofColumns_eq_some {columns : List Attribute} {s : Schema} :
    ofColumns columns = some s ↔ s.attributes = columns := by
  unfold ofColumns
  split
  · constructor
    · rintro ⟨⟩
      simp
    · rintro rfl
      exact congrArg some (attributes_injective (by simp))
  · rename_i hrule
    simp only [reduceCtorEq, false_iff]
    rintro rfl
    exact hrule s.headerRule

/-- The columns with the given names, in the order of the names. -/
def select (s : Schema) (names : List AttributeName) : Option (List Attribute) :=
  names.mapM s.find

@[simp] theorem select_eq_some {s : Schema} {names : List AttributeName}
    {columns : List Attribute} : s.select names = some columns ↔ s.Selects names columns :=
  mapM_eq_some s.find names columns

/-- The header nested in the column with the given name. -/
def nestedIn (s : Schema) (name : AttributeName) : Option Schema :=
  match s.lookup name with
  | some (.relation nested) => some nested
  | _ => none

theorem nestedIn_eq_some {s nested : Schema} {name : AttributeName} :
    s.nestedIn name = some nested ↔ ⟨name, .relation nested⟩ ∈ s.attributes := by
  rw [← lookup_eq_some_iff, nestedIn]
  split
  · rename_i nested' hlookup
    simp [hlookup]
  · rename_i hother
    simp only [reduceCtorEq, false_iff]
    exact hother nested

end Schema

/-- The output column of a named aggregate over a header. -/
def NamedAgg.column (s : Schema) (agg : NamedAgg) : Option Attribute := do
  let ty ← (aggTy agg.agg s).toOption
  pure ⟨agg.name, ty⟩

mutual

/-- The header of a node from the headers of its parts. -/
def OpKind.header : OpKind → Option Schema
  | .source src => some src.schema
  | .restrict input _ | .order input _ | .limit input _ _ => input.header
  | .project input attrs => do
    let s ← input.header
    Schema.ofColumns (← s.select attrs.items)
  | .rename input fromName toName => do
    let s ← input.header
    Schema.ofColumns <| s.attributes.map fun a => if a.name = fromName then ⟨toName, a.ty⟩ else a
  | .extend input name expr => do
    let s ← input.header
    let ty ← (infer expr s).toOption
    Schema.ofColumns (s.attributes ++ [⟨name, ty⟩])
  | .join left right _ .natural => do
    let l ← left.header
    let r ← right.header
    Schema.ofColumns (l.attributes ++ r.attributes.filter fun a => a.name ∉ l.names)
  | .join left right _ (.equi _) | .join left right _ (.theta _) | .product left right => do
    let l ← left.header
    let r ← right.header
    Schema.ofColumns (l.attributes ++ r.attributes)
  | .union left right | .intersect left right | .difference left right => do
    let l ← left.header
    let r ← right.header
    if l = r then some l else none
  | .summarize input keys aggs => do
    let s ← input.header
    let grouped ← s.select keys.items
    let computed ← aggs.items.mapM (NamedAgg.column s)
    Schema.ofColumns (grouped ++ computed)
  | .modify input path sub => do
    let s ← input.header
    let inner ← sub.header
    let target ← path.target
    let _ ← s.nestedIn target
    Schema.ofColumns <| s.attributes.map fun a =>
      if a.name = target then ⟨target, .relation inner⟩ else a
  | .unnest input path => do
    let s ← input.header
    let target ← path.target
    let nested ← s.nestedIn target
    Schema.ofColumns <| s.attributes.flatMap fun a =>
      if a.name = target then nested.attributes else [a]
  | .nest input attrs into => do
    let s ← input.header
    let nested ← Schema.ofColumns (← s.select attrs.items)
    Schema.ofColumns <|
      (s.attributes.filter fun a => a.name ∉ attrs.items) ++ [⟨into, .relation nested⟩]

def Op.header : Op → Option Schema
  | ⟨kind, _⟩ => kind.header

end

theorem Op.header_eq (op : Op) : op.header = op.kind.header := by
  cases op
  rfl

/-- A product has the columns of both sides. The rule of an equi-join and of a theta
join is the same. -/
theorem OpKind.header_product {left right : Op} {s : Schema}
    (hl : left.header = some left.schema) (hr : right.header = some right.schema)
    (hcolumns : s.attributes = left.schema.attributes ++ right.schema.attributes) :
    (OpKind.product left right).header = some s := by
  simp only [OpKind.header, hl, hr, Option.bind_eq_bind, Option.bind_eq_some_iff,
    Schema.ofColumns_eq_some]
  exact ⟨_, rfl, _, rfl, hcolumns⟩

/-- The aggregate columns a summary computes are those of the rules. -/
theorem computed_eq_some {input : Op} {keys : GroupingSet} {aggs : List NamedAgg}
    {computed : List Attribute}
    (h : List.Forall₂ (fun agg a => Op.aggregateColumn input keys agg = .ok a) aggs computed) :
    aggs.mapM (NamedAgg.column input.schema) = some computed := by
  rw [mapM_eq_some]
  apply h.imp
  intro agg a hcolumn
  obtain ⟨-, hname, hty⟩ := Op.aggregateColumn_eq_ok.mp hcolumn
  simp [NamedAgg.column, hty, Except.toOption, ← hname]

section Kernel

variable [Whittle]

/-- One call: when the caches of its inputs hold the recomputed headers, so
does the cache of the node it makes. -/
theorem Call.header_of_run {call : Call} {op : Op}
    (hinputs : ∀ input ∈ call.inputs, input.header = some input.schema)
    (hrun : call.run = .ok op) : op.header = some op.schema := by
  rw [Op.header_eq, Call.kind_of_run hrun]
  cases call with
  | source src =>
      obtain rfl := Except.ok.inj hrun
      rfl
  | order input keys | limit input offset count =>
      obtain rfl := Except.ok.inj hrun
      exact hinputs input (by simp [inputs])
  | restrict input predicate =>
      obtain ⟨-, rfl⟩ := Op.restrict_eq_ok.mp hrun
      exact hinputs input (by simp [inputs])
  | project input attrs =>
      obtain ⟨-, hselect⟩ := Op.project_eq_ok.mp hrun
      have hin := hinputs input (by simp [inputs])
      simp only [Call.kind, OpKind.header, hin, Option.bind_eq_bind, Option.bind_eq_some_iff,
        Schema.select_eq_some, Schema.ofColumns_eq_some]
      exact ⟨_, rfl, _, hselect, rfl⟩
  | rename input fromName toName =>
      obtain ⟨-, -, -, hcolumns⟩ := Op.rename_eq_ok.mp hrun
      have hin := hinputs input (by simp [inputs])
      simp only [Call.kind, OpKind.header, hin, Option.bind_eq_bind, Option.bind_eq_some_iff,
        Schema.ofColumns_eq_some]
      exact ⟨_, rfl, hcolumns⟩
  | extend input name expr =>
      obtain ⟨ty, -, -, hty, -, hcolumns⟩ := Op.extend_eq_ok.mp hrun
      have hin := hinputs input (by simp [inputs])
      simp only [Call.kind, OpKind.header, hin, Option.bind_eq_bind, Option.bind_eq_some_iff,
        Schema.ofColumns_eq_some]
      have hinfer : (infer expr input.schema).toOption = some ty := by
        rw [hty]
        rfl
      exact ⟨_, rfl, ty, hinfer, hcolumns⟩
  | modify input path sub =>
      obtain ⟨target, nested, hpath, hmem, -, hcolumns⟩ := Op.modify_eq_ok.mp hrun
      have hin := hinputs input (by simp [inputs])
      have hsub := hinputs sub (by simp [inputs])
      simp only [Call.kind, OpKind.header, hin, hsub, Option.bind_eq_bind, Option.bind_eq_some_iff,
        Schema.nestedIn_eq_some, Schema.ofColumns_eq_some]
      refine ⟨_, rfl, _, rfl, target, hpath, nested, hmem, hcolumns.trans ?_⟩
      apply List.map_congr_left
      intro a _
      by_cases hname : a.name = target <;> simp [hname]
  | unnest input path =>
      obtain ⟨target, nested, hpath, hmem, -, hcolumns⟩ := Op.unnest_eq_ok.mp hrun
      have hin := hinputs input (by simp [inputs])
      simp only [Call.kind, OpKind.header, hin, Option.bind_eq_bind, Option.bind_eq_some_iff,
        Schema.nestedIn_eq_some, Schema.ofColumns_eq_some]
      exact ⟨_, rfl, target, hpath, nested, hmem, hcolumns⟩
  | nest input attrs into =>
      obtain ⟨nested, hselect, -, -, hcolumns⟩ := Op.nest_eq_ok.mp hrun
      have hin := hinputs input (by simp [inputs])
      simp only [Call.kind, OpKind.header, hin, Option.bind_eq_bind, Option.bind_eq_some_iff,
        Schema.select_eq_some, Schema.ofColumns_eq_some]
      exact ⟨_, rfl, _, hselect, nested, rfl, hcolumns⟩
  | summarize input keys aggs =>
      obtain ⟨grouped, computed, hselect, hcomputed, -, hcolumns⟩ := Op.summarize_eq_ok.mp hrun
      have hin := hinputs input (by simp [inputs])
      simp only [Call.kind, OpKind.header, hin, Option.bind_eq_bind, Option.bind_eq_some_iff,
        Schema.select_eq_some, Schema.ofColumns_eq_some]
      exact ⟨_, rfl, grouped, hselect, computed, computed_eq_some hcomputed, hcolumns⟩
  | union left right | intersect left right | difference left right =>
      obtain ⟨hsame, rfl⟩ := Op.setOperator_eq_ok.mp hrun
      have hl := hinputs left (by simp [inputs])
      have hr := hinputs right (by simp [inputs])
      simp [Call.kind, OpKind.header, hl, hr, hsame]
  | product left right =>
      obtain ⟨-, hcolumns⟩ := Op.product_eq_ok.mp hrun
      have hl := hinputs left (by simp [inputs])
      have hr := hinputs right (by simp [inputs])
      exact OpKind.header_product hl hr hcolumns
  | join left right kind joinOn =>
      have hl := hinputs left (by simp [inputs])
      have hr := hinputs right (by simp [inputs])
      cases joinOn with
      | natural =>
          have hshape := Call.kind_of_run hrun
          rcases Call.kind_join left right kind .natural with hkind | hkind
          · have hcolumns := Op.join_natural_product hrun (hshape.trans hkind)
            rw [hkind]
            exact OpKind.header_product hl hr hcolumns
          · obtain ⟨-, hcolumns, -⟩ := Op.join_natural_eq_ok.mp hrun
            simp only [hkind, OpKind.header, hl, hr, Option.bind_eq_bind, Option.bind_eq_some_iff,
              Schema.ofColumns_eq_some]
            exact ⟨_, rfl, _, rfl, hcolumns⟩
      | equi pairs =>
          obtain ⟨-, -, hcolumns⟩ := Op.join_equi_eq_ok.mp hrun
          exact OpKind.header_product hl hr hcolumns
      | theta predicate =>
          obtain ⟨-, -, hcolumns⟩ := Op.join_theta_eq_ok.mp hrun
          exact OpKind.header_product hl hr hcolumns

/-- Every cache of a reachable tree holds the recomputed header. -/
theorem Op.header_of_reachable {op : Op} (hop : op.Reachable) : op.header = some op.schema :=
  hop.induction (P := fun op => op.header = some op.schema) fun _ _ => Call.header_of_run

/-- In every tree that constructor calls can make, the cache of every node is
the header recomputed from its leaves, it has between one and 256 columns with
distinct names, and where the node comes from a natural join its columns are
those of left followed by the columns only right has, whichever shape the join
was built in. -/
theorem cached_header_recomputed {op node : Op} (hop : op.Reachable) (hnode : op.Node node) :
    node.header = some node.schema ∧ 1 ≤ node.schema.cardinality ∧
      node.schema.cardinality ≤ 256 ∧ node.schema.names.Nodup ∧
      ∀ left right kind, Op.join left right kind .natural = .ok node →
        node.schema.attributes = left.schema.attributes ++
          right.schema.attributes.filter fun r => r.name ∉ left.schema.names := by
  have hlength := node.schema.headerRule.toLengthRule
  rw [← Schema.length_attributes]
  have hheader := Op.header_of_reachable (hop.node hnode)
  have hnodup := node.schema.nodup_names
  refine ⟨hheader, hlength.min_le, hlength.le_max, hnodup, ?_⟩
  intro left right kind hjoin
  exact (Op.join_natural_eq_ok.mp hjoin).2.1

end Kernel

/-- The natural join of the users with their orders. -/
theorem cached_header_recomputed_users :
    ∃ op, Catalogue.users.join Catalogue.orders .leftOuter .natural = .ok op ∧
      op.header = some op.schema ∧
      op.schema.names = [Catalogue.id, Catalogue.name, Catalogue.total] := by
  obtain ⟨op, hjoin⟩ :
      ∃ op, Catalogue.users.join Catalogue.orders .leftOuter .natural = .ok op := ⟨_, rfl⟩
  have hop : op.Reachable := Op.reachable_of_run
    (.join Catalogue.users Catalogue.orders .leftOuter .natural) hjoin
    (by simp [Call.inputs, Catalogue.reachable_users, Catalogue.reachable_orders])
  obtain ⟨hheader, -, -, -, hcolumns⟩ := cached_header_recomputed hop (.root op)
  refine ⟨op, hjoin, hheader, ?_⟩
  rw [Schema.names, hcolumns _ _ _ hjoin]
  decide

end AxiomCore
