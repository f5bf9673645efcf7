import AxiomCore.Calls

/-!
What a cached header says about rows. Every operator has a standard row, laid
out position by position from rows of its inputs. Headers are looked up by name
and rows by position; distinct names make the two agree, so that the standard
row of every operator conforms to its cached header.
-/

namespace AxiomCore

open Checked Refined

namespace Row

/-- The row passes the check against the header. -/
abbrev Matches (row : Row) (schema : Schema) : Prop := rowMatchesSchema row schema = .ok ()

/-- The value standing at the position of the named column. -/
def valueOf (row : Row) (schema : Schema) (name : AttributeName) : Option Value :=
  Keyed.valueAt Attribute.name schema.attributes row.asSlice name

/-- The values at the positions of the named columns, in the order of the
names. -/
def ValuesOf (row : Row) (schema : Schema) (names : List AttributeName) (values : List Value) :
    Prop :=
  List.Forall₂ (fun name v => row.valueOf schema name = some v) names values

/-- The values at the positions whose column is not named, in order. -/
def without (row : Row) (schema : Schema) (names : List AttributeName) : List Value :=
  Keyed.pick (fun a => a.name ∉ names) schema.attributes row.asSlice

end Row

/-- The standard rows of an operator, each from rows that match its inputs. -/
inductive StandardRow : OpKind → List Value → Prop
  | memory {memory : MemorySource} {row} : row ∈ memory.rows.toList →
      StandardRow (.source (.memory memory)) row.asSlice
  | table {schema name} {row : Row} : row.Matches schema →
      StandardRow (.source (.table schema name)) row.asSlice
  | project {input attrs values} {row : Row} : row.Matches input.schema →
      row.ValuesOf input.schema attrs.items values → StandardRow (.project input attrs) values
  | restrict {input predicate} {row : Row} : row.Matches input.schema →
      StandardRow (.restrict input predicate) row.asSlice
  | rename {input fromName toName} {row : Row} : row.Matches input.schema →
      StandardRow (.rename input fromName toName) row.asSlice
  | order {input keys} {row : Row} : row.Matches input.schema →
      StandardRow (.order input keys) row.asSlice
  | limit {input offset count} {row : Row} : row.Matches input.schema →
      StandardRow (.limit input offset count) row.asSlice
  | extend {input name expr ty v} {row : Row} : row.Matches input.schema →
      infer expr input.schema = .ok ty → valueMatchesType v ty = .ok () →
      StandardRow (.extend input name expr) (row.asSlice ++ [v])
  | product {left right} {l r : Row} : l.Matches left.schema → r.Matches right.schema →
      StandardRow (.product left right) (l.asSlice ++ r.asSlice)
  | equi {left right pairs} {l r : Row} : l.Matches left.schema → r.Matches right.schema →
      StandardRow (.join left right .inner (.equi pairs)) (l.asSlice ++ r.asSlice)
  | theta {left right predicate} {l r : Row} : l.Matches left.schema → r.Matches right.schema →
      StandardRow (.join left right .inner (.theta predicate)) (l.asSlice ++ r.asSlice)
  | natural {left right} {l r : Row} : l.Matches left.schema → r.Matches right.schema →
      StandardRow (.join left right .inner .natural)
        (l.asSlice ++ r.without right.schema left.schema.names)
  | unnest {input path target rows} {row inner : Row} : path.target = some target →
      row.Matches input.schema → row.valueOf input.schema target = some (.relation rows) →
      inner ∈ rows.toList →
      StandardRow (.unnest input path) ((input.schema.attributes.zip row.asSlice).flatMap fun p =>
        if p.1.name = target then inner.asSlice else [p.2])
  | nest {input attrs into} {row : Row} {rows : Rows} : row.Matches input.schema →
      (∀ nested ∈ rows.toList, ∃ bundled : Row, bundled.Matches input.schema ∧
        bundled.ValuesOf input.schema attrs.items nested.asSlice) →
      StandardRow (.nest input attrs into)
        (row.without input.schema attrs.items ++ [.relation rows])
  | modify {input path target sub} {row : Row} {rows : Rows} : path.target = some target →
      row.Matches input.schema → (∀ inner ∈ rows.toList, inner.Matches sub.schema) →
      StandardRow (.modify input path sub) ((input.schema.attributes.zip row.asSlice).map fun p =>
        if p.1.name = target then .relation rows else p.2)
  | summarize {input keys aggs grouped computed} {row : Row} : row.Matches input.schema →
      row.ValuesOf input.schema keys.items grouped →
      List.Forall₂ (fun agg v => ∃ ty, aggTy agg.agg input.schema = .ok ty ∧
        valueMatchesType v ty = .ok ()) aggs.items computed →
      StandardRow (.summarize input keys aggs) (grouped ++ computed)
  | union {left right} {row : Row} : row.Matches left.schema ∨ row.Matches right.schema →
      StandardRow (.union left right) row.asSlice
  | intersect {left right} {row : Row} : row.Matches left.schema ∨ row.Matches right.schema →
      StandardRow (.intersect left right) row.asSlice
  | difference {left right} {row : Row} : row.Matches left.schema ∨ row.Matches right.schema →
      StandardRow (.difference left right) row.asSlice

/-- Values aligned with columns: at every position a value that is in the relation
`R` with the column's type. -/
abbrev AlignedBy (R : Value → Ty → Prop) (values : List Value) (columns : List Attribute) : Prop :=
  List.Forall₂ (fun v a => R v a.ty) values columns

/-- At every position a value of the column's type. -/
abbrev Aligned : List Value → List Attribute → Prop := AlignedBy Conforms

namespace Row

variable {row : Row} {schema : Schema}

theorem matches_iff : row.Matches schema ↔ Aligned row.asSlice schema.attributes := by
  rw [Matches, rowMatchesSchema_ok_iff, rowConforms_iff_forall₂]

theorem aligned_valuesOf {names : List AttributeName} {values : List Value}
    {columns : List Attribute} (hrow : row.Matches schema)
    (hvalues : row.ValuesOf schema names values) (hselect : schema.Selects names columns) :
    Aligned values columns :=
  Keyed.forall₂_valueAt (matches_iff.mp hrow) hvalues hselect

/-- A matching row has a value for every column, of the column's type. -/
theorem exists_valueOf {name : AttributeName} {ty : Ty} (hrow : row.Matches schema)
    (hmem : ⟨name, ty⟩ ∈ schema.attributes) :
    ∃ v, row.valueOf schema name = some v ∧ Conforms v ty :=
  Keyed.valueAt_of_mem schema.nodup_names (matches_iff.mp hrow) hmem

theorem conforms_valueOf {name : AttributeName} {v : Value} {ty : Ty} (hrow : row.Matches schema)
    (hmem : ⟨name, ty⟩ ∈ schema.attributes) (hvalue : row.valueOf schema name = some v) :
    Conforms v ty := by
  obtain ⟨w, hw, hconforms⟩ := exists_valueOf hrow hmem
  obtain rfl := Option.some.inj (hvalue.symm.trans hw)
  exact hconforms

theorem valueOf_eq_none {name : AttributeName} (habsent : name ∉ schema.names) :
    row.valueOf schema name = none :=
  Keyed.valueAt_eq_none habsent

end Row

theorem conforms_relation_iff {rows : Rows} {schema : Schema} :
    Conforms (.relation rows) (.relation schema) ↔ ∀ row ∈ rows.toList, row.Matches schema := by
  rw [BoundedVec.forall_mem_toList]
  simp only [Row.Matches, rowMatchesSchema_ok_iff]
  constructor
  · intro hconforms
    cases hconforms with
    | relation hrows => exact hrows
  · intro hrows
    exact .relation hrows

namespace Op

section Layouts

/-! The layout of each constructor's rows, in whatever way the values of the input are
related to the types of its columns. -/

variable {R : Value → Ty → Prop} {input left right op : Op} {values : List Value} {row : Row}

theorem setOperator_aligned {kind : OpKind} (hbuilt : setOperator kind left right = .ok op)
    (hrow : AlignedBy R values left.schema.attributes ∨
      AlignedBy R values right.schema.attributes) : AlignedBy R values op.schema.attributes := by
  obtain ⟨hsame, rfl⟩ := setOperator_eq_ok.mp hbuilt
  rcases hrow with hleft | hright
  · exact hleft
  · rwa [← hsame] at hright

variable [Whittle]

theorem project_aligned {attrs : AttributeSet} (hbuilt : input.project attrs = .ok op)
    (hrow : AlignedBy R row.asSlice input.schema.attributes)
    (hvalues : row.ValuesOf input.schema attrs.items values) :
    AlignedBy R values op.schema.attributes :=
  Keyed.forall₂_valueAt hrow hvalues (project_eq_ok.mp hbuilt).2

theorem rename_aligned {fromName toName : AttributeName}
    (hbuilt : input.rename fromName toName = .ok op)
    (hrow : AlignedBy R values input.schema.attributes) :
    AlignedBy R values op.schema.attributes := by
  obtain ⟨-, -, -, hcolumns⟩ := rename_eq_ok.mp hbuilt
  rw [hcolumns, AlignedBy, List.forall₂_map_right_iff]
  apply hrow.imp
  intro v a hv
  split <;> exact hv

theorem extend_aligned {name : AttributeName} {expr : Expression} {v : Value}
    (hbuilt : input.extend name expr = .ok op)
    (hrow : AlignedBy R values input.schema.attributes)
    (hv : ∀ ty, containsAggregate expr = false → infer expr input.schema = .ok ty → R v ty) :
    AlignedBy R (values ++ [v]) op.schema.attributes := by
  obtain ⟨ty, -, hfree, hty, -, hcolumns⟩ := extend_eq_ok.mp hbuilt
  rw [hcolumns]
  exact List.rel_append hrow (.cons (hv ty hfree hty) .nil)

/-- A modify puts one value in the place of the target. -/
theorem modify_aligned {path : AnyPath} {sub : Op} {target : AttributeName} {v : Value}
    (hbuilt : input.modify path sub = .ok op) (hpath : path.target = some target)
    (hrow : AlignedBy R values input.schema.attributes) (hv : R v (.relation sub.schema)) :
    AlignedBy R ((input.schema.attributes.zip values).map fun p =>
      if p.1.name = target then v else p.2) op.schema.attributes := by
  obtain ⟨target', nested, hpath', -, -, hcolumns⟩ := modify_eq_ok.mp hbuilt
  obtain rfl := Option.some.inj (hpath'.symm.trans hpath)
  rw [hcolumns]
  apply Keyed.forall₂_map_zip hrow
  intro w a _ hw
  by_cases hname : a.name = target'
  · simpa [hname] using hv
  · simpa [hname] using hw

/-- An unnest puts the values of one nested row in the place of the target. -/
theorem unnest_aligned {path : AnyPath} {target : AttributeName} {inner : List Value}
    (hbuilt : input.unnest path = .ok op) (hpath : path.target = some target)
    (hrow : AlignedBy R values input.schema.attributes)
    (hinner : ∀ nested, ⟨target, .relation nested⟩ ∈ input.schema.attributes →
      AlignedBy R inner nested.attributes) :
    AlignedBy R ((input.schema.attributes.zip values).flatMap fun p =>
      if p.1.name = target then inner else [p.2]) op.schema.attributes := by
  obtain ⟨target', nested, hpath', hmem, -, hcolumns⟩ := unnest_eq_ok.mp hbuilt
  obtain rfl := Option.some.inj (hpath'.symm.trans hpath)
  have hspliced := hinner nested hmem
  rw [hcolumns]
  apply Keyed.forall₂_flatMap_zip hrow
  intro w a _ hw
  by_cases hname : a.name = target'
  · simpa [hname] using hspliced
  · simpa [hname] using hw

/-- A nest keeps the values of the other columns and appends the bundle. -/
theorem nest_aligned {attrs : AttributeSet} {into : AttributeName} {v : Value}
    (hbuilt : input.nest attrs into = .ok op)
    (hrow : AlignedBy R row.asSlice input.schema.attributes)
    (hv : ∀ nested : Schema, input.schema.Selects attrs.items nested.attributes →
      R v (.relation nested)) :
    AlignedBy R (row.without input.schema attrs.items ++ [v]) op.schema.attributes := by
  obtain ⟨nested, hselect, -, -, hcolumns⟩ := nest_eq_ok.mp hbuilt
  rw [hcolumns]
  exact List.rel_append (Keyed.forall₂_pick hrow _) (.cons (hv nested hselect) .nil)

theorem summarize_aligned {keys : GroupingSet} {aggs : NamedAggSet} {grouped computed : List Value}
    (hbuilt : input.summarize keys aggs = .ok op)
    (hgrouped : ∀ columns, input.schema.Selects keys.items columns → AlignedBy R grouped columns)
    (hcomputed : List.Forall₂ (fun agg v => ∀ ty, aggTy agg.agg input.schema = .ok ty → R v ty)
      aggs.items computed) :
    AlignedBy R (grouped ++ computed) op.schema.attributes := by
  obtain ⟨columns, outputs, hselect, houtputs, -, hcolumns⟩ := summarize_eq_ok.mp hbuilt
  rw [hcolumns]
  apply List.rel_append (hgrouped columns hselect)
  refine Keyed.forall₂_common ?_ hcomputed houtputs
  intro agg v a hv ha
  exact hv a.ty (aggregateColumn_eq_ok.mp ha).2.2

omit [Whittle] in
/-- Two rows side by side, under a header that concatenates their headers. -/
theorem concat_aligned {values' : List Value}
    (hcolumns : op.schema.attributes = left.schema.attributes ++ right.schema.attributes)
    (hleft : AlignedBy R values left.schema.attributes)
    (hright : AlignedBy R values' right.schema.attributes) :
    AlignedBy R (values ++ values') op.schema.attributes := by
  rw [hcolumns]
  exact List.rel_append hleft hright

/-- A row of left and the values that only right has. -/
theorem join_aligned {kind : JoinKind} {joinOn : JoinOn}
    (hbuilt : left.join right kind joinOn = .ok op)
    (hleft : AlignedBy R values left.schema.attributes)
    (hright : AlignedBy R row.asSlice right.schema.attributes) :
    AlignedBy R (values ++ row.without right.schema left.schema.names) op.schema.attributes := by
  rw [(join_columns hbuilt).2]
  exact List.rel_append hleft (Keyed.forall₂_pick hright _)

end Layouts

end Op

section Kernel

variable [Whittle]

omit [Whittle] in
/-- The nested row of a bundle has the values of a row of the input. -/
theorem conforms_bundle {s nested : Schema} {names : List AttributeName} {rows : Rows}
    (hselect : s.Selects names nested.attributes)
    (hrows : ∀ row ∈ rows.toList, ∃ bundled : Row, bundled.Matches s ∧
      bundled.ValuesOf s names row.asSlice) : Conforms (.relation rows) (.relation nested) := by
  apply conforms_relation_iff.mpr
  intro row hrow
  obtain ⟨bundled, hbundled, hvalues⟩ := hrows row hrow
  exact Row.matches_iff.mpr (Row.aligned_valuesOf hbundled hvalues hselect)

/-- The standard rows of a join, also when it is built as a product. -/
theorem Op.aligned_of_join {left right op : Op} {kind : JoinKind} {joinOn : JoinOn}
    {values : List Value} (hrun : left.join right kind joinOn = .ok op)
    (hrow : StandardRow (Call.join left right kind joinOn).kind values) :
    Aligned values op.schema.attributes := by
  cases joinOn with
  | natural =>
      rcases Call.kind_join left right kind .natural with hkind | hkind
      · have hcall : (Call.join left right kind .natural).run = .ok op := hrun
        have hshape : op.kind = .product left right := (Call.kind_of_run hcall).trans hkind
        rw [hkind] at hrow
        cases hrow with
        | product hl hr =>
            exact concat_aligned (join_natural_product hrun hshape) (Row.matches_iff.mp hl)
              (Row.matches_iff.mp hr)
      · rw [hkind] at hrow
        cases hrow with
        | natural hl hr => exact join_aligned hrun (Row.matches_iff.mp hl) (Row.matches_iff.mp hr)
  | equi pairs =>
      cases hrow with
      | equi hl hr =>
          exact concat_aligned (join_equi_eq_ok.mp hrun).2.2 (Row.matches_iff.mp hl)
            (Row.matches_iff.mp hr)
  | theta predicate =>
      cases hrow with
      | theta hl hr =>
          exact concat_aligned (join_theta_eq_ok.mp hrun).2.2 (Row.matches_iff.mp hl)
            (Row.matches_iff.mp hr)

/-- One call: the standard rows of the node it makes are aligned with the
columns of its header. -/
theorem Call.aligned_of_run {call : Call} {op : Op} {values : List Value}
    (hrun : call.run = .ok op) (hrow : StandardRow call.kind values) :
    Aligned values op.schema.attributes := by
  cases call with
  | source src =>
      obtain rfl := Except.ok.inj hrun
      cases hrow with
      | memory hmem => exact Row.matches_iff.mp (MemorySource.matched _ _ hmem)
      | table hmatch => exact Row.matches_iff.mp hmatch
  | order input keys =>
      obtain rfl := Except.ok.inj hrun
      cases hrow with
      | order hmatch => exact Row.matches_iff.mp hmatch
  | limit input offset count =>
      obtain rfl := Except.ok.inj hrun
      cases hrow with
      | limit hmatch => exact Row.matches_iff.mp hmatch
  | restrict input predicate =>
      obtain ⟨-, rfl⟩ := Op.restrict_eq_ok.mp hrun
      cases hrow with
      | restrict hmatch => exact Row.matches_iff.mp hmatch
  | project input attrs =>
      cases hrow with
      | project hmatch hvalues =>
          exact Op.project_aligned hrun (Row.matches_iff.mp hmatch) hvalues
  | rename input fromName toName =>
      cases hrow with
      | rename hmatch => exact Op.rename_aligned hrun (Row.matches_iff.mp hmatch)
  | extend input name expr =>
      cases hrow with
      | extend hmatch hty hv =>
          apply Op.extend_aligned hrun (Row.matches_iff.mp hmatch)
          intro ty _ hty'
          obtain rfl := Except.ok.inj (hty.symm.trans hty')
          exact (valueMatchesType_ok_iff _ _).mp hv
  | modify input path sub =>
      cases hrow with
      | modify hpath hmatch hrows =>
          exact Op.modify_aligned hrun hpath (Row.matches_iff.mp hmatch)
            (conforms_relation_iff.mpr hrows)
  | unnest input path =>
      cases hrow with
      | unnest hpath hmatch hvalue hinner =>
          apply Op.unnest_aligned hrun hpath (Row.matches_iff.mp hmatch)
          intro nested hmem
          have hrows := conforms_relation_iff.mp (Row.conforms_valueOf hmatch hmem hvalue)
          exact Row.matches_iff.mp (hrows _ hinner)
  | nest input attrs into =>
      cases hrow with
      | nest hmatch hrows =>
          apply Op.nest_aligned hrun (Row.matches_iff.mp hmatch)
          intro nested hselect
          exact conforms_bundle hselect hrows
  | summarize input keys aggs =>
      cases hrow with
      | summarize hmatch hvalues haggs =>
          apply Op.summarize_aligned hrun
          · intro columns hselect
            exact Row.aligned_valuesOf hmatch hvalues hselect
          · apply haggs.imp
            intro agg v hv ty hty
            obtain ⟨ty', hty', hmatches⟩ := hv
            obtain rfl := Except.ok.inj (hty.symm.trans hty')
            exact (valueMatchesType_ok_iff _ _).mp hmatches
  | union left right =>
      cases hrow with
      | union hmatch =>
          exact Op.setOperator_aligned hrun (hmatch.imp Row.matches_iff.mp Row.matches_iff.mp)
  | intersect left right =>
      cases hrow with
      | intersect hmatch =>
          exact Op.setOperator_aligned hrun (hmatch.imp Row.matches_iff.mp Row.matches_iff.mp)
  | difference left right =>
      cases hrow with
      | difference hmatch =>
          exact Op.setOperator_aligned hrun (hmatch.imp Row.matches_iff.mp Row.matches_iff.mp)
  | product left right =>
      cases hrow with
      | product hl hr =>
          exact Op.concat_aligned (Op.product_eq_ok.mp hrun).2 (Row.matches_iff.mp hl)
            (Row.matches_iff.mp hr)
  | join left right kind joinOn => exact Op.aligned_of_join hrun hrow

/-- Every standard row of every operator that is built conforms to its cached
header. -/
theorem standard_rows_conform {call : Call} {op : Op} {values : List Value}
    (hrun : call.run = .ok op) (hrow : StandardRow op.kind values) :
    ∃ row : Row, row.asSlice = values ∧ rowMatchesSchema row op.schema = .ok () :=
  exists_row (Call.aligned_of_run hrun (Call.kind_of_run hrun ▸ hrow))

end Kernel

/-- The name of the seventh user, as a row of the projection. -/
theorem standard_rows_conform_users :
    ∃ op, Catalogue.users.project Catalogue.nameOnly = .ok op ∧
      ∃ row : Row, row.asSlice = [.string "seven"] ∧ rowMatchesSchema row op.schema = .ok () := by
  obtain ⟨op, hproject⟩ :
      ∃ op, Call.run (.project Catalogue.users Catalogue.nameOnly) = .ok op := ⟨_, rfl⟩
  have hrow : StandardRow op.kind [.string "seven"] := by
    have hmatch : Catalogue.userRow.Matches Catalogue.users.schema := rfl
    rw [Call.kind_of_run hproject]
    exact .project hmatch (.cons rfl .nil)
  exact ⟨op, hproject, standard_rows_conform hproject hrow⟩

end AxiomCore
