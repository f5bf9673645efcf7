import AxiomCore.Inlining
import AxiomCore.Scope

/-!
The order of computed columns. Once a list of definitions has been appended to
an operator one after the other, the same definitions can be appended in any
other order in which each one stands behind the columns that it mentions, and
else the first name that is not there yet is the error. The header is the same up
to the order of the columns, and so is every row.
-/

namespace AxiomCore

open Checked Refined

/-- The first name, in the order of the calls, that a definition mentions before
it is a column. -/
def firstOutOfScope (names : List AttributeName) : List Definition → Option AttributeName
  | [] => none
  | definition :: definitions =>
    (definition.2.missingIn names).or (firstOutOfScope (names ++ [definition.1]) definitions)

/-- The header has the column of the definition, of the type it has over the
header. -/
def Definition.AcceptedBy (definition : Definition) (total : Schema) : Prop :=
  containsAggregate definition.2 = false ∧
    ∃ ty, ⟨definition.1, ty⟩ ∈ total.attributes ∧ infer definition.2 total = .ok ty

section Headers

variable [Whittle] {input extended : Op} {definitions : List Definition}

/-- The columns of the definitions stand behind those of the input, and the header
accepts all definitions. -/
theorem Op.extendAll_columns (hextend : input.extendAll definitions = .ok extended) :
    (∃ columns, extended.schema.attributes = input.schema.attributes ++ columns ∧
        columns.map Attribute.name = definitions.map Prod.fst) ∧
      ∀ definition ∈ definitions, definition.AcceptedBy extended.schema := by
  induction definitions generalizing input with
  | nil =>
      obtain rfl := Except.ok.inj hextend
      exact ⟨⟨[], by simp, rfl⟩, by simp⟩
  | cons definition definitions ih =>
      rw [extendAll_cons, bind_eq_ok] at hextend
      obtain ⟨op, hfirst, hrest⟩ := hextend
      obtain ⟨ty, -, hfree, hty, -, hcolumns⟩ := extend_eq_ok.mp hfirst
      obtain ⟨⟨columns, hattributes, hnames⟩, haccepted⟩ := ih hrest
      rw [hcolumns, List.append_assoc] at hattributes
      refine ⟨⟨_, hattributes, by simp [hnames]⟩, ?_⟩
      intro d hd
      rcases List.mem_cons.mp hd with rfl | hd
      · have hpart : input.schema.attributes ⊆ extended.schema.attributes := by simp [hattributes]
        exact ⟨hfree, ty, by simp [hattributes], infer_whole hpart hfree hty⟩
      · exact haccepted d hd

/-- Over a header with all the columns, in any order, that accepts the
definitions, they are appended unless a name is out of scope. -/
theorem Op.outcome_extendAll_part {columns : List Attribute} {s total : Schema}
    (hs : s.attributes = input.schema.attributes ++ columns)
    (hnames : columns.map Attribute.name = definitions.map Prod.fst)
    (hpart : s.attributes ⊆ total.attributes)
    (haccepted : ∀ definition ∈ definitions, definition.AcceptedBy total) :
    outcome (input.extendAll definitions) =
      verdict (firstOutOfScope input.schema.names definitions) s := by
  induction definitions generalizing input columns with
  | nil =>
      obtain rfl := List.map_eq_nil_iff.mp hnames
      rw [List.append_nil] at hs
      obtain rfl := Schema.attributes_injective hs
      rfl
  | cons definition definitions ih =>
      obtain ⟨column, columns, rfl, hname, hrest⟩ := List.map_eq_cons_iff.mp hnames
      obtain ⟨hfree, ty, hmem, hty⟩ := haccepted definition (by simp)
      -- the column is the one that the header accepts for the definition
      have hcolumn : column = ⟨definition.1, ty⟩ :=
        Schema.eq_of_mem (hpart (by simp [hs])) hmem hname
      have hsplit : s.attributes = (input.schema.attributes ++ [column]) ++ columns := by simp [hs]
      have hpos : 1 ≤ (input.schema.attributes ++ [column]).length := by simp
      obtain ⟨grown, hgrown⟩ := Schema.exists_part (hsplit ▸ List.sublist_append_left _ _) hpos
      have hinput : input.schema.attributes ⊆ total.attributes := by
        intro a ha
        exact hpart (by simp [hs, ha])
      have hfirst := outcome_extend_part hinput hfree hty (hcolumn ▸ hgrown)
      rw [extendAll_cons]
      rcases @outcome_bind_verdict _ _ _ (fun op => op.extendAll definitions) hfirst with
        ⟨name, hmissing, hfail⟩ | ⟨op, hmissing, rfl, hnext⟩
      · rw [hfail, firstOutOfScope, hmissing]
        rfl
      · have hopnames : op.schema.names = input.schema.names ++ [definition.1] := by
          simp [Schema.names, hgrown, hcolumn]
        rw [← hgrown] at hsplit
        have htail := ih hsplit hrest fun d hd => haccepted d (by simp [hd])
        rw [hnext, htail, firstOutOfScope, hmissing, hopnames]
        rfl

end Headers

/-- Definitions that have been appended to an operator are appended in any other
order in which each of them mentions only columns of the input and of definitions
before it, and the columns are the same in another order. Else the first name that
is not a column yet is the error. -/
theorem computed_reordered [Whittle] {input extended : Op}
    {definitions definitions' : List Definition}
    (hextend : input.extendAll definitions = .ok extended)
    (hperm : definitions'.Perm definitions) :
    ∃ s : Schema, s.names = input.schema.names ++ definitions'.map Prod.fst ∧
      s.attributes.Perm extended.schema.attributes ∧
      Op.outcome (input.extendAll definitions') =
        match firstOutOfScope input.schema.names definitions' with
        | none => .ok s
        | some name => .error (.infer (.unknownAttribute name)) := by
  obtain ⟨⟨columns, hcolumns, hnames⟩, haccepted⟩ := Op.extendAll_columns hextend
  obtain ⟨columns', hnames', hcolumns'⟩ :
      ∃ columns' : List Attribute, definitions'.map Prod.fst = columns'.map Attribute.name ∧
        columns'.Perm columns := by
    have hcomp := List.eq_map_comp_perm Attribute.name
    have hboth : (definitions'.map Prod.fst).Perm (columns.map Attribute.name) :=
      hnames ▸ hperm.map Prod.fst
    exact (congrFun₂ hcomp (definitions'.map Prod.fst) columns).mpr hboth
  have hall : (input.schema.attributes ++ columns').Perm extended.schema.attributes := by
    rw [hcolumns]
    exact hcolumns'.append_left _
  obtain ⟨s, hs⟩ := Schema.exists_of_perm hall
  refine ⟨s, ?_, hs ▸ hall, ?_⟩
  · rw [Schema.names, hs, List.map_append, hnames']
    rfl
  · apply Op.outcome_extendAll_part hs hnames'.symm (hs ▸ hall.subset)
    intro definition hdefinition
    exact haccepted definition (hperm.subset hdefinition)

section Rows

variable [Whittle] {backend : Backend}

/-- The row holds the value of every definition in its column. -/
def Row.Solves (backend : Backend) (row : Row) (schema : Schema)
    (definitions : List Definition) : Prop :=
  ∀ definition ∈ definitions, ∃ v, row.valueOf schema definition.1 = some v ∧
    backend.eval definition.2 schema row = .ok v

/-- The new column holds the appended value, and the others keep theirs. -/
theorem Row.valueOf_extended {input extended : Op} {definition : Definition} {row grown : Row}
    {v : Value} (hextend : input.extend definition.1 definition.2 = .ok extended)
    (hwidth : row.asSlice.length = input.schema.cardinality)
    (hgrown : grown.asSlice = row.asSlice ++ [v]) :
    grown.valueOf extended.schema definition.1 = some v ∧
      ∀ name ∈ input.schema.names,
        grown.valueOf extended.schema name = row.valueOf input.schema name := by
  obtain ⟨ty, hfresh, -, -, -, hcolumns⟩ := Op.extend_eq_ok.mp hextend
  have hfound := Row.valueOf_grown hcolumns hwidth hgrown
  constructor
  · rw [hfound, Row.valueOf_eq_none hfresh]
    simp
  · intro name hname
    have hother : ¬ definition.1 = name := by
      intro hsame
      exact hfresh (hsame ▸ hname)
    rw [hfound]
    simp [hother]

/-- A computed row keeps the values of the input, and holds those of the
definitions. -/
theorem Computed.solves {input extended : Op} {definitions : List Definition} {row out : Row}
    (hextend : input.extendAll definitions = .ok extended)
    (hwidth : row.asSlice.length = input.schema.cardinality)
    (hcomputed : Computed backend input definitions row out) :
    (∀ name ∈ input.schema.names,
        out.valueOf extended.schema name = row.valueOf input.schema name) ∧
      out.Solves backend extended.schema definitions := by
  induction hcomputed with
  | done =>
      obtain rfl := Except.ok.inj hextend
      exact ⟨fun _ _ => rfl, fun _ h => absurd h (by simp)⟩
  | @step input op definition definitions row grown out v hfirst hvalue hgrown _ ih =>
      rw [Op.extendAll_cons, hfirst] at hextend
      have hrest : op.extendAll definitions = .ok extended := hextend
      obtain ⟨ty, -, hfree, hty, -, hcolumns⟩ := Op.extend_eq_ok.mp hfirst
      have hnames : op.schema.names = input.schema.names ++ [definition.1] := by
        simp [Schema.names, hcolumns]
      obtain ⟨hnew, hold⟩ := Row.valueOf_extended hfirst hwidth hgrown
      obtain ⟨hkept, hsolves⟩ := ih hrest (Row.width_grown hcolumns hwidth hgrown)
      have hkeptInput : ∀ name ∈ input.schema.names,
          out.valueOf extended.schema name = row.valueOf input.schema name := by
        intro name hname
        rw [hkept name (by simp [hnames, hname]), hold name hname]
      refine ⟨hkeptInput, ?_⟩
      intro d hd
      rcases List.mem_cons.mp hd with rfl | hd
      · refine ⟨v, by rw [hkept _ (by simp [hnames]), hnew], ?_⟩
        rw [← hvalue]
        apply Backend.eval_congr
        intro name hname
        exact hkeptInput name (freeAttrs_subset_names hfree hty name hname)
      · exact hsolves d hd

/-- Over a row that solves the definitions, they are computed in any order in
which they can be appended, with the values of that row. -/
theorem Computed.of_solves {input extended : Op} {definitions : List Definition}
    {row solved : Row} {total : Schema} (hextend : input.extendAll definitions = .ok extended)
    (hwidth : row.asSlice.length = input.schema.cardinality)
    (hkept : ∀ name ∈ input.schema.names,
      solved.valueOf total name = row.valueOf input.schema name)
    (hsolves : solved.Solves backend total definitions) :
    ∃ out, Computed backend input definitions row out ∧
      ∀ name ∈ extended.schema.names,
        solved.valueOf total name = out.valueOf extended.schema name := by
  induction definitions generalizing input row with
  | nil =>
      obtain rfl := Except.ok.inj hextend
      exact ⟨row, .done, hkept⟩
  | cons definition definitions ih =>
      rw [Op.extendAll_cons, bind_eq_ok] at hextend
      obtain ⟨op, hfirst, hrest⟩ := hextend
      obtain ⟨ty, -, hfree, hty, -, hcolumns⟩ := Op.extend_eq_ok.mp hfirst
      obtain ⟨v, hfound, hsolved⟩ := hsolves definition (by simp)
      have hvalue : backend.eval definition.2 input.schema row = .ok v := by
        rw [← hsolved]
        apply Backend.eval_congr
        intro name hname
        exact (hkept name (freeAttrs_subset_names hfree hty name hname)).symm
      have rule : LengthRule 1 maxSchemaAttributes (row.asSlice ++ [v]) := by
        have hlength : (row.asSlice ++ [v]).length = op.schema.attributes.length := by
          rw [hcolumns, List.length_append, List.length_append, hwidth, Schema.length_attributes]
          rfl
        have hmin := op.schema.headerRule.min_le
        have hmax := op.schema.headerRule.le_max
        exact ⟨by omega, by omega⟩
      let grown : Row := .ofValues (row.asSlice ++ [v]) rule
      have hgrown : grown.asSlice = row.asSlice ++ [v] := Row.asSlice_ofValues _ rule
      obtain ⟨hnew, hold⟩ := Row.valueOf_extended hfirst hwidth hgrown
      have hkeptGrown : ∀ name ∈ op.schema.names,
          solved.valueOf total name = grown.valueOf op.schema name := by
        intro name hname
        rw [Schema.names, hcolumns, List.map_append, List.mem_append] at hname
        rcases hname with hname | hname
        · rw [hkept name hname, hold name hname]
        · obtain rfl := List.mem_singleton.mp hname
          rw [hfound, hnew]
      obtain ⟨out, hout, hvalues⟩ := ih hrest (Row.width_grown hcolumns hwidth hgrown) hkeptGrown
        fun d hd => hsolves d (by simp [hd])
      exact ⟨out, .step hfirst hvalue hgrown hout, hvalues⟩

/-- A row of the input grows by the same computed values in both orders. -/
theorem computed_rows_reordered {input extended extended' : Op}
    {definitions definitions' : List Definition} {row out : Row}
    (hextend : input.extendAll definitions = .ok extended)
    (hextend' : input.extendAll definitions' = .ok extended')
    (hperm : definitions'.Perm definitions)
    (hwidth : row.asSlice.length = input.schema.cardinality)
    (hcomputed : Computed backend input definitions row out) :
    ∃ out', Computed backend input definitions' row out' ∧
      ∀ name, out'.valueOf extended'.schema name = out.valueOf extended.schema name := by
  obtain ⟨hkept, hsolves⟩ := hcomputed.solves hextend hwidth
  have hsolves' : out.Solves backend extended.schema definitions' :=
    fun definition hdefinition => hsolves definition (hperm.subset hdefinition)
  obtain ⟨out', hout', hvalues⟩ := Computed.of_solves hextend' hwidth hkept hsolves'
  refine ⟨out', hout', ?_⟩
  intro name
  by_cases hname : name ∈ extended'.schema.names
  · exact (hvalues name hname).symm
  · have hnames : extended'.schema.names.Perm extended.schema.names := by
      obtain ⟨⟨columns, hcolumns, hdefined⟩, -⟩ := Op.extendAll_columns hextend
      obtain ⟨⟨columns', hcolumns', hdefined'⟩, -⟩ := Op.extendAll_columns hextend'
      rw [Schema.names, Schema.names, hcolumns, hcolumns', List.map_append, List.map_append,
        hdefined, hdefined']
      exact (hperm.map Prod.fst).append_left _
    have habsent : name ∉ extended.schema.names := fun h => hname (hnames.symm.subset h)
    rw [Row.valueOf_eq_none hname, Row.valueOf_eq_none habsent]

end Rows

namespace Catalogue

def isSeventh : AttributeName := ⟨"is_seventh", by decide, by decide, by decide⟩

/-- Whether a user is the seventh. -/
def seventhFlag : Definition := (isSeventh, idIsSeven)

theorem definitions_swapped : [seventhFlag, negatedId].Perm [negatedId, seventhFlag] :=
  List.Perm.swap _ _ _

def userRowWithBoth : Row :=
  .ofValues [.int64 7, .string "seven", .int64 (-7), .bool true] (by decide)

theorem computed_both :
    Computed backend users [negatedId, seventhFlag] userRow userRowWithBoth := by
  have hlast : ∀ op, users.extend negatedId.1 negatedId.2 = .ok op →
      Computed backend op [seventhFlag] userRowWithTotal userRowWithBoth := by
    intro op hop
    obtain rfl := Except.ok.inj hop
    exact .step rfl rfl rfl .done
  exact .step rfl rfl rfl (hlast _ rfl)

end Catalogue

/-- The flag of the seventh user can be computed before the total. -/
theorem computed_reordered_users : ∃ extended s,
    Catalogue.users.extendAll [Catalogue.negatedId, Catalogue.seventhFlag] = .ok extended ∧
    Op.outcome (Catalogue.users.extendAll [Catalogue.seventhFlag, Catalogue.negatedId]) =
      .ok s ∧ s.attributes.Perm extended.schema.attributes := by
  obtain ⟨extended, hextend⟩ : ∃ op,
      Catalogue.users.extendAll [Catalogue.negatedId, Catalogue.seventhFlag] = .ok op := ⟨_, rfl⟩
  obtain ⟨s, -, hperm, houtcome⟩ := computed_reordered hextend Catalogue.definitions_swapped
  exact ⟨extended, s, hextend, houtcome, hperm⟩

theorem computed_rows_reordered_users : ∃ extended extended' out',
    Catalogue.users.extendAll [Catalogue.negatedId, Catalogue.seventhFlag] = .ok extended ∧
    Catalogue.users.extendAll [Catalogue.seventhFlag, Catalogue.negatedId] = .ok extended' ∧
    Computed Catalogue.backend Catalogue.users [Catalogue.seventhFlag, Catalogue.negatedId]
      Catalogue.userRow out' ∧
    ∀ name, out'.valueOf extended'.schema name =
      Catalogue.userRowWithBoth.valueOf extended.schema name := by
  obtain ⟨extended, hextend⟩ : ∃ op,
      Catalogue.users.extendAll [Catalogue.negatedId, Catalogue.seventhFlag] = .ok op := ⟨_, rfl⟩
  obtain ⟨extended', hextend'⟩ : ∃ op,
      Catalogue.users.extendAll [Catalogue.seventhFlag, Catalogue.negatedId] = .ok op := ⟨_, rfl⟩
  obtain ⟨out', hout', hvalues⟩ := computed_rows_reordered hextend hextend'
    Catalogue.definitions_swapped rfl Catalogue.computed_both
  exact ⟨extended, extended', out', hextend, hextend', hout', hvalues⟩

end AxiomCore
