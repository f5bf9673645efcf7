import AxiomCore.JoinForms
import AxiomCore.Lens
import AxiomCore.NaturalJoin
import AxiomCore.Relabelling

/-!
Where the last error of the constructors can come from. Every constructor ends
by checking the header that it computed, after checks of its own. Those checks
leave a projection, a rename, a modify and a nest nothing to fail on, and an
extend, a summary and a join the number of columns alone. An unnest can also
repeat a name.
-/

namespace AxiomCore

open Checked Refined

/-- A header of so many columns is too large, and the error says how many. -/
def Overflows (columns : Nat) (e : SchemaError) : Prop :=
  maxSchemaAttributes < columns ∧ e = .cardinality columns

namespace Schema

/-- The columns with those nested in the target in its place. -/
def flattened (s : Schema) (target : AttributeName) (nested : Schema) : List Attribute :=
  s.attributes.flatMap fun a => if a.name = target then nested.attributes else [a]

/-- Some nested column has the name of a sibling of the target. -/
def Collides (s : Schema) (target : AttributeName) (nested : Schema) : Prop :=
  ∃ name ∈ nested.names, name ∈ s.names ∧ name ≠ target

section Flattened

variable {s nested : Schema} {target : AttributeName}
  (hmem : ⟨target, .relation nested⟩ ∈ s.attributes)

include hmem

theorem exists_flattened : ∃ before after,
    Keyed.Split Attribute.name s.attributes before after ⟨target, .relation nested⟩ ∧
      s.flattened target nested = before ++ nested.attributes ++ after := by
  obtain ⟨before, after, hsplit⟩ := Keyed.exists_split s.headerRule.nodup hmem
  exact ⟨before, after, hsplit, hsplit.flatMap nested.attributes⟩

/-- The nested columns can take the place of the target when no sibling has one of
their names. -/
theorem nodup_flattened_iff :
    ((s.flattened target nested).map Attribute.name).Nodup ↔ ¬ s.Collides target nested := by
  obtain ⟨before, after, hsplit, hspliced⟩ := exists_flattened hmem
  rw [hspliced, hsplit.nodup_spliced_iff s.nodup_names nested.nodup_names]
  simp only [Collides, not_exists, not_and, not_not]
  rfl

theorem one_le_flattened : 1 ≤ (s.flattened target nested).length := by
  obtain ⟨before, after, -, hspliced⟩ := exists_flattened hmem
  have hnested := nested.headerRule.min_le
  rw [hspliced]
  simp only [List.length_append]
  omega

end Flattened

/-- Selecting distinct columns makes a header. -/
theorem Selects.headerRule {s : Schema} {attrs : AttributeSet} {columns : List Attribute}
    (hselect : s.Selects attrs.items columns) : HeaderRule columns where
  min_le := by
    rw [← hselect.length_eq]
    exact attrs.rule.min_le
  le_max := by
    rw [← hselect.length_eq]
    exact attrs.rule.le_max
  nodup := by
    rw [hselect.map_name]
    simpa using attrs.rule.nodup

section Checked

variable [Whittle]

theorem checked_ne_error {columns : List Attribute} {e : OpError} (rule : HeaderRule columns) :
    checked columns ≠ .error e := by
  obtain ⟨s, hs⟩ := exists_attributes_iff.mpr rule
  rw [checked_eq_ok.mpr hs]
  nofun

theorem checked_eq_schema_error {columns : List Attribute} {e : SchemaError}
    (hnodup : (columns.map Attribute.name).Nodup) (hpos : 1 ≤ columns.length) :
    checked columns = .error (.schema e) ↔ Overflows columns.length e := by
  rw [checked_eq_error_of_nodup hnodup hpos, OpError.schema.injEq, Overflows]

end Checked

end Schema

namespace Call

/-- What a call must be for its last check to fail with `e`: all its earlier checks
pass, and the header it would have is none. -/
def SchemaFault : Call → SchemaError → Prop
  | .extend input name expr, e =>
    (name ∉ input.schema.names ∧ containsAggregate expr = false ∧
        ∃ ty, infer expr input.schema = .ok ty) ∧
      input.schema.cardinality = maxSchemaAttributes ∧ e = .cardinality 257
  | .summarize input keys aggs, e =>
    ((∀ key ∈ keys.items, key ∈ input.schema.names) ∧
        ∀ agg ∈ aggs.items, agg.name ∉ keys.items ∧ ∃ ty, aggTy agg.agg input.schema = .ok ty) ∧
      Overflows (keys.items.length + aggs.items.length) e
  | .product left right, e | .join left right _ (.theta _), e =>
    (∀ name ∈ left.schema.names, name ∉ right.schema.names) ∧
      Overflows (left.schema.cardinality + right.schema.cardinality) e
  | .join left right _ (.equi pairs), e =>
    ((∀ pair ∈ pairs.items, ∃ ty, left.schema.lookup pair.left = some ty ∧
          right.schema.lookup pair.right = some ty) ∧
        ∀ name ∈ left.schema.names, name ∉ right.schema.names) ∧
      Overflows (left.schema.cardinality + right.schema.cardinality) e
  | .join left right _ .natural, e =>
    Op.TypesAgree left.schema right.schema ∧
      Overflows (left.schema.names.toFinset ∪ right.schema.names.toFinset).card e
  | .unnest input path, e =>
    ∃ target nested, path.target = some target ∧
      ⟨target, .relation nested⟩ ∈ input.schema.attributes ∧
      (Overflows (input.schema.flattened target nested).length e ∨
        (input.schema.flattened target nested).length ≤ maxSchemaAttributes ∧
          ∃ index, FirstRepeat ((input.schema.flattened target nested).map Attribute.name) index ∧
            e = .duplicateAttribute index)
  | .source _, _ | .project _ _, _ | .restrict _ _, _ | .rename _ _ _, _ | .order _ _, _
  | .limit _ _ _, _ | .modify _ _ _, _ | .nest _ _ _, _ | .union _ _, _ | .intersect _ _, _
  | .difference _ _, _ => False

end Call

namespace Op

section Checks

/-! The checks before the last one report other errors. -/

variable {e : SchemaError}

theorem findOrUnknown_ne_schema {s : Schema} {name : AttributeName} :
    s.findOrUnknown name ≠ .error (.schema e) := by
  simp [Schema.findOrUnknown]

theorem mapM_findOrUnknown_ne_schema {s : Schema} {names : List AttributeName} :
    names.mapM s.findOrUnknown ≠ .error (.schema e) := by
  intro h
  obtain ⟨name, -, hname⟩ := exists_of_mapM_eq_error h
  exact findOrUnknown_ne_schema hname

theorem nestedSchema_ne_schema {target : AttributeName} {ty : Ty} :
    nestedSchema target ty ≠ .error (.schema e) := by
  cases ty <;> simp [nestedSchema]

theorem checkPredicate_ne_schema {schema : Schema} {predicate : Predicate} :
    checkPredicate schema predicate ≠ .error (.schema e) := by
  cases predicate <;> simp [checkPredicate]

theorem aggregateColumn_ne_schema {input : Op} {keys : GroupingSet} {agg : NamedAgg} :
    aggregateColumn input keys agg ≠ .error (.schema e) := by
  simp [aggregateColumn]

theorem mapM_aggregateColumn_ne_schema {input : Op} {keys : GroupingSet} {aggs : List NamedAgg} :
    aggs.mapM (aggregateColumn input keys) ≠ .error (.schema e) := by
  intro h
  obtain ⟨agg, -, hagg⟩ := exists_of_mapM_eq_error h
  exact aggregateColumn_ne_schema hagg

theorem checkPair_ne_schema {left right : Op} {pair : EquiPair} :
    checkPair left right pair ≠ .error (.schema e) := by
  simp [checkPair, Schema.findOrUnknown]

theorem restrict_ne_schema {input : Op} {predicate : Predicate} :
    input.restrict predicate ≠ .error (.schema e) := by
  simp [restrict, checkPredicate_ne_schema]

theorem setOperator_ne_schema {kind : OpKind} {left right : Op} :
    setOperator kind left right ≠ .error (.schema e) := by
  simp [setOperator]

end Checks

/-- A nest takes at least one column for the one it adds. -/
theorem nested_columns_rule {input : Op} {attrs : AttributeSet} {into : AttributeName}
    {nested : Schema}
    (hselect : input.schema.Selects attrs.items nested.attributes)
    (hinto : into ∉ input.schema.names ∨ into ∈ attrs.items) :
    HeaderRule ((input.schema.attributes.filter fun a => a.name ∉ attrs.items) ++
      [⟨into, .relation nested⟩]) := by
  have hlength := (nested_perm hselect).length_eq
  have hparts := List.length_eq_length_filter_add (l := input.schema.attributes)
    (fun a => decide (a.name ∈ attrs.items))
  have hnested := nested.headerRule.min_le
  have hinput := input.schema.headerRule.le_max
  have hkept : (input.schema.attributes.filter fun a => a.name ∉ attrs.items).length <
      input.schema.attributes.length := by
    simp only [decide_not]
    omega
  refine ⟨⟨?_, ?_⟩, ?_⟩
  · simp
  · rw [List.length_append, List.length_singleton]
    omega
  · rw [List.map_append, List.map_singleton, List.nodup_append']
    refine ⟨?_, List.nodup_singleton _, ?_⟩
    · exact input.schema.nodup_names.sublist (List.filter_sublist.map _)
    · rw [List.disjoint_singleton]
      intro hmem
      obtain ⟨a, ha, hname⟩ := List.mem_map.mp hmem
      exact kept_ne_into hinto a ha hname

section Constructors

variable [Whittle] {input left right : Op} {e : SchemaError}

theorem withColumns_eq_error {kind : OpKind} {columns : List Attribute} {e : OpError} :
    withColumns kind columns = .error e ↔ Schema.checked columns = .error e := by
  rw [← outcome_withColumns kind, outcome_eq_error]

theorem project_ne_schema {attrs : AttributeSet} : input.project attrs ≠ .error (.schema e) := by
  intro h
  simp only [project, bind_eq_error, mapM_eq_ok, findOrUnknown_eq_ok] at h
  rcases h with hfind | ⟨columns, hselect, hbuilt⟩
  · exact mapM_findOrUnknown_ne_schema hfind
  · have hrule := Schema.Selects.headerRule hselect
    exact Schema.checked_ne_error hrule (withColumns_eq_error.mp hbuilt)

/-- The new name is available, so the renamed columns are those of a header. -/
theorem rename_ne_schema {fromName toName : AttributeName} :
    input.rename fromName toName ≠ .error (.schema e) := by
  intro h
  simp only [rename, bind_eq_error, ensure_eq_error, ensure_eq_ok, exists_const, reduceCtorEq,
    and_false, false_or, withColumns_eq_error, Schema.contains_iff] at h
  obtain ⟨-, hfree, hbuilt⟩ := h
  have havailable : Available input.schema fromName toName := by
    rw [Available]
    tauto
  rw [renamed_columns havailable] at hbuilt
  exact Schema.checked_ne_error (Schema.headerRule _) hbuilt

/-- The sub-operator changes the type of a column only. -/
theorem modify_ne_schema {path : AnyPath} {sub : Op} :
    input.modify path sub ≠ .error (.schema e) := by
  intro h
  simp only [modify, bind_eq_error, okOr_eq_error, reduceCtorEq, and_false, false_or,
    findOrUnknown_ne_schema, nestedSchema_ne_schema, withColumns_eq_error] at h
  obtain ⟨target, -, column, -, nested, -, hbuilt⟩ := h
  have hrule := Schema.exists_attributes_iff.mp (input.schema.exists_put target sub.schema)
  exact Schema.checked_ne_error hrule hbuilt

theorem nest_ne_schema {attrs : AttributeSet} {into : AttributeName} :
    input.nest attrs into ≠ .error (.schema e) := by
  intro h
  simp only [nest, bind_eq_error, mapM_findOrUnknown_ne_schema, mapM_eq_ok, findOrUnknown_eq_ok,
    false_or, ensure_eq_error, ensure_eq_ok, exists_const, reduceCtorEq, and_false,
    withColumns_eq_error, Schema.contains_iff, mapError_eq_ok, Schema.tryNew_eq_ok] at h
  obtain ⟨columns, hselect, hnested | ⟨nested, rfl, hfree, hbuilt⟩⟩ := h
  · exact Schema.checked_ne_error (Schema.Selects.headerRule hselect) hnested
  · have hinto : into ∉ input.schema.names ∨ into ∈ attrs.items := by tauto
    exact Schema.checked_ne_error (nested_columns_rule hselect hinto) hbuilt

/-- A full header has no room for one more column. -/
theorem checked_extended {s : Schema} {name : AttributeName} {ty : Ty} (hfresh : name ∉ s.names) :
    Schema.checked (s.attributes ++ [⟨name, ty⟩]) = .error (.schema e) ↔
      s.cardinality = maxSchemaAttributes ∧ e = .cardinality 257 := by
  have hnodup : ((s.attributes ++ [(⟨name, ty⟩ : Attribute)]).map Attribute.name).Nodup := by
    rw [List.map_append, List.map_singleton, List.nodup_append']
    exact ⟨s.nodup_names, List.nodup_singleton name, List.disjoint_singleton.mpr hfresh⟩
  have hmax := s.headerRule.le_max
  rw [Schema.checked_eq_schema_error hnodup (by simp), Overflows]
  simp only [List.length_append, List.length_singleton, Schema.length_attributes] at hmax ⊢
  constructor
  · rintro ⟨hlt, rfl⟩
    have hfull : s.cardinality = maxSchemaAttributes := by omega
    exact ⟨hfull, by rw [hfull]⟩
  · rintro ⟨hfull, rfl⟩
    rw [hfull]
    exact ⟨by omega, rfl⟩

theorem extend_eq_schema_error {name : AttributeName} {expr : Expression} :
    input.extend name expr = .error (.schema e) ↔
      (Call.extend input name expr).SchemaFault e := by
  simp only [extend, bind_eq_error, ensure_eq_error, ensure_eq_ok, exists_const, reduceCtorEq,
    and_false, exists_false, false_or, mapError_eq_error, mapError_eq_ok, withColumns_eq_error,
    Schema.contains_iff, Call.SchemaFault]
  constructor
  · rintro ⟨hfresh, hagg, ty, hty, hbuilt⟩
    exact ⟨⟨hfresh, hagg, ty, hty⟩, (checked_extended hfresh).mp hbuilt⟩
  · rintro ⟨⟨hfresh, hagg, ty, hty⟩, hfull⟩
    exact ⟨hfresh, hagg, ty, hty, (checked_extended hfresh).mpr hfull⟩

/-- Grouping columns and aggregates are distinct, so they can only be too many. -/
theorem checked_summary {keys : GroupingSet} {aggs : NamedAggSet}
    {grouped computed : List Attribute} (hselect : input.schema.Selects keys.items grouped)
    (hcomputed : List.Forall₂ (fun agg a => aggregateColumn input keys agg = .ok a) aggs.items
      computed) :
    Schema.checked (grouped ++ computed) = .error (.schema e) ↔
      Overflows (keys.items.length + aggs.items.length) e := by
  have hnames : computed.map Attribute.name = aggs.items.map NamedAgg.name := by
    rw [← List.forall₂_eq_eq_eq, List.forall₂_map_left_iff, List.forall₂_map_right_iff]
    apply hcomputed.flip.imp
    intro a agg hcolumn
    exact (aggregateColumn_eq_ok.mp hcolumn).2.1
  have hnodup : ((grouped ++ computed).map Attribute.name).Nodup := by
    rw [List.map_append, hselect.map_name, hnames, List.nodup_append']
    refine ⟨by simpa using keys.rule.nodup, aggs.rule.nodup, ?_⟩
    intro name hkey hname
    obtain ⟨agg, hagg, rfl⟩ := List.mem_map.mp hname
    obtain ⟨a, -, hcolumn⟩ := exists_output hcomputed hagg
    exact (aggregateColumn_eq_ok.mp hcolumn).1 hkey
  have hlength : (grouped ++ computed).length = keys.items.length + aggs.items.length := by
    rw [List.length_append, hselect.length_eq, hcomputed.length_eq]
  have haggs := aggs.rule.min_le
  rw [Schema.checked_eq_schema_error hnodup (by omega), hlength]

omit [Whittle] in
/-- The aggregates of a summary can be computed when each of them has a type and a
name that is no key. -/
theorem exists_computed_iff {keys : GroupingSet} {aggs : List NamedAgg} :
    (∃ computed, List.Forall₂ (fun agg a => aggregateColumn input keys agg = .ok a) aggs
        computed) ↔
      ∀ agg ∈ aggs, agg.name ∉ keys.items ∧ ∃ ty, aggTy agg.agg input.schema = .ok ty := by
  rw [exists_outputs_iff]
  apply forall₂_congr
  intro agg _
  simp only [aggregateColumn_eq_ok]
  constructor
  · rintro ⟨a, hfresh, -, hty⟩
    exact ⟨hfresh, a.ty, hty⟩
  · rintro ⟨hfresh, ty, hty⟩
    exact ⟨⟨agg.name, ty⟩, hfresh, rfl, hty⟩

theorem summarize_eq_schema_error {keys : GroupingSet} {aggs : NamedAggSet} :
    input.summarize keys aggs = .error (.schema e) ↔
      (Call.summarize input keys aggs).SchemaFault e := by
  have hkeys : (∃ grouped, input.schema.Selects keys.items grouped) ↔
      ∀ key ∈ keys.items, key ∈ input.schema.names :=
    ⟨fun ⟨_, hselect⟩ => hselect.subset_names, Schema.Selects.exists_of_subset⟩
  simp only [summarize, bind_eq_error, mapM_findOrUnknown_ne_schema,
    mapM_aggregateColumn_ne_schema, false_or, mapM_eq_ok, findOrUnknown_eq_ok,
    withColumns_eq_error, Call.SchemaFault, ← hkeys, ← exists_computed_iff]
  constructor
  · rintro ⟨grouped, hselect, computed, hagg, hbuilt⟩
    exact ⟨⟨⟨grouped, hselect⟩, computed, hagg⟩, (checked_summary hselect hagg).mp hbuilt⟩
  · rintro ⟨⟨⟨grouped, hselect⟩, computed, hagg⟩, hover⟩
    exact ⟨grouped, hselect, computed, hagg, (checked_summary hselect hagg).mpr hover⟩

/-- Disjoint headers can only have too many columns together. -/
theorem concat_eq_schema_error :
    concatDisjointSchemas left right = .error (.schema e) ↔
      (∀ name ∈ left.schema.names, name ∉ right.schema.names) ∧
        Overflows (left.schema.cardinality + right.schema.cardinality) e := by
  by_cases hdisjoint : ∀ name ∈ left.schema.names, name ∉ right.schema.names
  · have hnodup := Schema.nodup_merge left.schema right.schema
    have hpos := Schema.one_le_merge left.schema right.schema
    rw [Keyed.merge_of_disjoint hdisjoint] at hnodup hpos
    rw [concatDisjointSchemas_of_disjoint hdisjoint,
      Schema.checked_eq_schema_error hnodup hpos, List.length_append, Schema.length_attributes,
      Schema.length_attributes]
    exact (and_iff_right hdisjoint).symm
  · simp only [hdisjoint, false_and, iff_false]
    intro h
    simp only [concatDisjointSchemas, bind_eq_error, forM_eq_ok, ensure_eq_ok,
      Schema.contains_iff] at h
    rcases h with hshared | ⟨-, hdisjoint', -⟩
    · obtain ⟨_, _, -, hfail, -⟩ := (forM_eq_error _ _ _).mp hshared
      simp at hfail
    · apply hdisjoint
      intro name hleft hright
      obtain ⟨r, hr, rfl⟩ := List.mem_map.mp hright
      exact hdisjoint' r hr hleft

theorem product_eq_schema_error :
    left.product right = .error (.schema e) ↔ (Call.product left right).SchemaFault e := by
  rw [← outcome_eq_error, outcome_product, concat_eq_schema_error, Call.SchemaFault]

/-- The pairs are checked first, and each has one type on both sides. -/
theorem join_equi_eq_schema_error {kind : JoinKind} {pairs : EquiPairs} :
    left.join right kind (.equi pairs) = .error (.schema e) ↔
      (Call.join left right kind (.equi pairs)).SchemaFault e := by
  have hpairs : forM pairs.items (checkPair left right) ≠ .error (.schema e) := by
    intro h
    obtain ⟨_, pair, -, hfail, -⟩ := (forM_eq_error _ _ _).mp h
    exact checkPair_ne_schema hfail
  rw [← outcome_eq_error, outcome_join_equi]
  simp only [bind_eq_error, hpairs, false_or, forM_eq_ok, checkPair_eq_ok, exists_const,
    concat_eq_schema_error, Call.SchemaFault, Schema.lookup_eq_some_iff, and_assoc]

/-- The predicate is checked last, over the header of both sides. -/
theorem join_theta_eq_schema_error {kind : JoinKind} {predicate : Predicate} :
    left.join right kind (.theta predicate) = .error (.schema e) ↔
      (Call.join left right kind (.theta predicate)).SchemaFault e := by
  rw [← outcome_eq_error, outcome_join_theta]
  simp only [bind_eq_error, checkPredicate_ne_schema, reduceCtorEq, and_false, exists_false,
    or_false, concat_eq_schema_error, Call.SchemaFault]

theorem join_natural_eq_schema_error {kind : JoinKind} :
    left.join right kind .natural = .error (.schema e) ↔
      (Call.join left right kind .natural).SchemaFault e := by
  have hcheck : forM left.schema.attributes right.schema.agreesWith ≠ .error (.schema e) := by
    intro h
    obtain ⟨attr, hmismatch⟩ := Schema.agreesWith_error h
    exact absurd hmismatch nofun
  have hlength := Keyed.length_merge left.schema.nodup_names right.schema.nodup_names
  rw [← outcome_eq_error, outcome_join_natural, Schema.naturalJoin_eq_error, Call.SchemaFault,
    typesAgree_iff, hlength, OpError.schema.injEq]
  simp only [hcheck, false_or]
  rfl

/-- An unnest of a column that is a relation fails on a header that is too large,
and otherwise on the first name that it repeats. -/
theorem unnest_eq_error {path : AnyPath} {target : AttributeName} {nested : Schema}
    (hpath : path.target = some target)
    (hmem : ⟨target, .relation nested⟩ ∈ input.schema.attributes) :
    input.unnest path = .error (.schema e) ↔
      Overflows (input.schema.flattened target nested).length e ∨
        (input.schema.flattened target nested).length ≤ maxSchemaAttributes ∧
          ∃ index, FirstRepeat ((input.schema.flattened target nested).map Attribute.name) index ∧
            e = .duplicateAttribute index := by
  have hpos := Schema.one_le_flattened hmem
  have hlength : LengthRule 1 maxSchemaAttributes (input.schema.flattened target nested) ↔
      (input.schema.flattened target nested).length ≤ maxSchemaAttributes :=
    ⟨LengthRule.le_max, fun hle => ⟨hpos, hle⟩⟩
  have hflattened : outcome (input.unnest path) =
      Schema.checked (input.schema.flattened target nested) := outcome_unnest hpath hmem
  rw [← outcome_eq_error, hflattened]
  simp only [Schema.checked, mapError_eq_error, OpError.schema.injEq, exists_eq_right,
    Schema.tryNew_eq_error, hlength, Nat.not_le, Overflows]

theorem unnest_eq_schema_error {path : AnyPath} :
    input.unnest path = .error (.schema e) ↔ (Call.unnest input path).SchemaFault e := by
  rw [Call.SchemaFault]
  constructor
  · intro h
    have hchecks := h
    simp only [unnest, bind_eq_error, okOr_eq_error, okOr_eq_ok, reduceCtorEq, and_false, false_or,
      findOrUnknown_ne_schema, nestedSchema_ne_schema, findOrUnknown_eq_ok,
      nestedSchema_eq_ok] at hchecks
    obtain ⟨target, hpath, ⟨name, ty⟩, hfind, nested, rfl, -⟩ := hchecks
    obtain ⟨hmem, rfl⟩ := Schema.find_eq_some_iff.mp hfind
    exact ⟨_, nested, hpath, hmem, (unnest_eq_error hpath hmem).mp h⟩
  · rintro ⟨target, nested, hpath, hmem, hfault⟩
    exact (unnest_eq_error hpath hmem).mpr hfault

end Constructors

end Op

section Kernel

variable [Whittle]

/-- A constructor fails on the header that it computed only where that header
really breaks. Every call fails so exactly on its faults: a projection, a rename, a
modify and a nest never, an extend, a summary, a product and a join when all their
earlier checks pass and the columns are too many, and an unnest also when the
columns fit but a name is repeated. The latter happens exactly when a nested column
has the name of a sibling of the target. -/
theorem schema_error_iff :
    (∀ (call : Call) (e : SchemaError),
      call.run = .error (.schema e) ↔ call.SchemaFault e) ∧
    ∀ (r : Op) (path : AnyPath) (target : AttributeName) (nested : Schema),
      path.target = some target → ⟨target, .relation nested⟩ ∈ r.schema.attributes →
        (r.schema.flattened target nested).length ≤ maxSchemaAttributes →
          ((∃ index, r.unnest path = .error (.schema (.duplicateAttribute index))) ↔
            r.schema.Collides target nested) := by
  constructor
  · intro call e
    cases call with
    | source src | order input keys | limit input offset count => exact iff_of_false nofun id
    | project input attrs => exact iff_of_false Op.project_ne_schema id
    | restrict input predicate => exact iff_of_false Op.restrict_ne_schema id
    | rename input fromName toName => exact iff_of_false Op.rename_ne_schema id
    | modify input path sub => exact iff_of_false Op.modify_ne_schema id
    | nest input attrs into => exact iff_of_false Op.nest_ne_schema id
    | union left right | intersect left right | difference left right =>
        exact iff_of_false Op.setOperator_ne_schema id
    | extend input name expr => exact Op.extend_eq_schema_error
    | summarize input keys aggs => exact Op.summarize_eq_schema_error
    | product left right => exact Op.product_eq_schema_error
    | unnest input path => exact Op.unnest_eq_schema_error
    | join left right kind joinOn =>
        cases joinOn with
        | natural => exact Op.join_natural_eq_schema_error
        | equi pairs => exact Op.join_equi_eq_schema_error
        | theta predicate => exact Op.join_theta_eq_schema_error
  · intro r path target nested hpath hmem hfits
    have hcollides := (not_congr (Schema.nodup_flattened_iff hmem)).trans not_not
    rw [← hcollides, ← exists_firstRepeat_iff]
    apply exists_congr
    intro index
    rw [Op.unnest_eq_error hpath hmem]
    simp [Overflows, hfits]

end Kernel

/-- The accounts have an id, and so do the profiles nested in them. -/
theorem schema_error_accounts :
    Catalogue.accounts.unnest (.column Catalogue.profile) =
        .error (.schema (.duplicateAttribute 1)) ∧
      Catalogue.accounts.schema.Collides Catalogue.profile Catalogue.users.schema := by
  have hprofile : ⟨Catalogue.profile, .relation Catalogue.users.schema⟩ ∈
      Catalogue.accounts.schema.attributes := by decide
  have hrepeat : Catalogue.accounts.unnest (.column Catalogue.profile) =
      .error (.schema (.duplicateAttribute 1)) := rfl
  exact ⟨hrepeat, (schema_error_iff.2 _ _ _ _ (AnyPath.target_column _) hprofile
    (by decide)).mp ⟨1, hrepeat⟩⟩

end AxiomCore
