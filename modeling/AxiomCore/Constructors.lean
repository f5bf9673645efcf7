import AxiomCore.Op

/-!
What each smart constructor accepts and what it builds. Every lemma here says
when a constructor succeeds and which columns the new header has, so that no
later argument unfolds a constructor.
-/

namespace AxiomCore

open Checked Refined

/-- `columns` are the columns of `s` with the given names, in the order of the
names. -/
def Schema.Selects (s : Schema) (names : List AttributeName) (columns : List Attribute) : Prop :=
  List.Forall₂ (fun name a => s.find name = some a) names columns

namespace Schema.Selects

variable {s : Schema} {names : List AttributeName} {columns : List Attribute}

theorem map_name (h : s.Selects names columns) : columns.map Attribute.name = names := by
  induction h with
  | nil => rfl
  | cons hfind _ ih => simp [ih, (find_eq_some_iff.mp hfind).2]

theorem mem_iff (h : s.Selects names columns) {a : Attribute} :
    a ∈ columns ↔ a ∈ s.attributes ∧ a.name ∈ names := by
  induction h with
  | nil => simp
  | @cons name b names columns hfind _ ih =>
      obtain ⟨hmem, rfl⟩ := find_eq_some_iff.mp hfind
      rw [List.mem_cons, List.mem_cons, ih]
      constructor
      · rintro (rfl | ⟨ha, hname⟩)
        · exact ⟨hmem, Or.inl rfl⟩
        · exact ⟨ha, Or.inr hname⟩
      · rintro ⟨ha, hname | hname⟩
        · exact Or.inl (eq_of_mem ha hmem hname)
        · exact Or.inr ⟨ha, hname⟩

theorem subset_names (h : s.Selects names columns) : ∀ name ∈ names, name ∈ s.names := by
  intro name hname
  rw [← h.map_name] at hname
  obtain ⟨a, ha, rfl⟩ := List.mem_map.mp hname
  exact mem_names_of_mem (h.mem_iff.mp ha).1

theorem unique {columns' : List Attribute} (h : s.Selects names columns)
    (h' : s.Selects names columns') : columns = columns' := by
  induction h generalizing columns' with
  | nil => exact (List.forall₂_nil_left_iff.mp h').symm
  | cons hfind _ ih =>
      obtain ⟨b, rest, hfind', hrest, rfl⟩ := List.forall₂_cons_left_iff.mp h'
      rw [ih hrest, Option.some.inj (hfind.symm.trans hfind')]

theorem exists_of_subset (h : ∀ name ∈ names, name ∈ s.names) :
    ∃ columns, s.Selects names columns := by
  apply exists_outputs_iff.mpr
  intro name hname
  obtain ⟨a, ha, rfl⟩ := List.mem_map.mp (h name hname)
  exact ⟨a, find_eq_some_iff.mpr ⟨ha, rfl⟩⟩

theorem of_subset {columns : List Attribute} (h : ∀ a ∈ columns, a ∈ s.attributes) :
    s.Selects (columns.map Attribute.name) columns := by
  rw [Selects, List.forall₂_map_left_iff, List.forall₂_same]
  intro a ha
  exact find_eq_some_iff.mpr ⟨h a ha, rfl⟩

end Schema.Selects

@[simp] theorem findOrUnknown_eq_ok {s : Schema} {name : AttributeName} {a : Attribute} :
    s.findOrUnknown name = .ok a ↔ s.find name = some a := by
  simp [Schema.findOrUnknown]

@[simp] theorem nestedSchema_eq_ok {target : AttributeName} {ty : Ty} {s : Schema} :
    nestedSchema target ty = .ok s ↔ ty = .relation s := by
  cases ty <;> simp [nestedSchema]

/-- A predicate expression passes exactly when it has no aggregate and is
boolean over the header at hand. -/
theorem checkPredicate_expr_ok {schema : Schema} {b : BoolExpression} {u : Unit} :
    checkPredicate schema (.expr b) = .ok u ↔
      containsAggregate b.expr = false ∧ infer b.expr schema = .ok .bool := by
  simp [checkPredicate]

namespace Op

@[simp] theorem eta (op : Op) : (⟨op.kind, op.schema⟩ : Op) = op := by
  cases op
  rfl

theorem restrict_eq_ok {input op : Op} {predicate : Predicate} :
    restrict input predicate = .ok op ↔
      checkPredicate input.schema predicate = .ok () ∧
        op = ⟨.restrict input predicate, input.schema⟩ := by
  simp only [restrict, bind_eq_ok, pure_eq_ok, exists_unit_eq_ok, exists_and_right]
  exact and_congr_right fun _ => eq_comm

@[simp] theorem aggregateColumn_eq_ok {input : Op} {keys : GroupingSet} {agg : NamedAgg}
    {a : Attribute} :
    aggregateColumn input keys agg = .ok a ↔
      agg.name ∉ keys.items ∧ a.name = agg.name ∧ aggTy agg.agg input.schema = .ok a.ty := by
  obtain ⟨name, ty⟩ := a
  simp only [aggregateColumn, bind_eq_ok, ensure_eq_ok, mapError_eq_ok, pure_eq_ok,
    Attribute.mk.injEq, exists_const]
  constructor
  · rintro ⟨hkeys, ty, hty, rfl, rfl⟩
    exact ⟨hkeys, rfl, hty⟩
  · rintro ⟨hkeys, rfl, hty⟩
    exact ⟨hkeys, ty, hty, rfl, rfl⟩

theorem setOperator_eq_ok {kind : OpKind} {left right op : Op} :
    setOperator kind left right = .ok op ↔
      left.schema = right.schema ∧ op = ⟨kind, left.schema⟩ := by
  simp only [setOperator, bind_eq_ok, ensure_eq_ok, pure_eq_ok, exists_const]
  exact and_congr_right fun _ => eq_comm

/-- Columns that share a name have one type. -/
def TypesAgree (left right : Schema) : Prop :=
  ∀ l ∈ left.attributes, ∀ r ∈ right.attributes, r.name = l.name → r.ty = l.ty

/-- What one step of the search for shared columns checks and adds. -/
theorem shareColumn_eq_ok {right : Op} {shared shared' : List AttributeName} {l : Attribute} :
    shareColumn right shared l = .ok shared' ↔
      (∀ r ∈ right.schema.attributes, r.name = l.name → r.ty = l.ty) ∧
        shared' = shared ++ [l.name].filter right.schema.contains := by
  unfold shareColumn
  cases hfind : right.schema.find l.name with
  | none =>
      have habsent := Schema.find_eq_none_iff.mp hfind
      have hcontains : right.schema.contains l.name = false := by
        simpa [← Schema.contains_iff] using habsent
      have hnone : ∀ r ∈ right.schema.attributes, r.name ≠ l.name := by
        intro r hr hname
        apply habsent
        rw [← hname]
        exact Schema.mem_names_of_mem hr
      simp only [pure_eq_ok, List.filter_singleton, hcontains]
      constructor
      · rintro rfl
        exact ⟨fun r hr hname => absurd hname (hnone r hr), by simp⟩
      · rintro ⟨-, rfl⟩
        simp
  | some r =>
      obtain ⟨hr, hname⟩ := Schema.find_eq_some_iff.mp hfind
      have hcontains : right.schema.contains l.name = true := by
        simpa [hname] using Schema.mem_names_of_mem hr
      simp only [bind_eq_ok, ensure_eq_ok, pure_eq_ok, exists_const, List.filter_singleton,
        hcontains]
      have hagrees : r.ty = l.ty ↔ ∀ r' ∈ right.schema.attributes, r'.name = l.name →
          r'.ty = l.ty := by
        constructor
        · intro hty r' hr' hname'
          have hsame := Schema.eq_of_mem hr' hr (hname'.trans hname.symm)
          rw [hsame, hty]
        · intro hagree
          exact hagree r hr hname
      exact and_congr hagrees eq_comm

/-- The shared names are the names of left that right has, in left order. -/
theorem sharedNames_eq_ok {left right : Op} {shared : List AttributeName} :
    sharedNames left right = .ok shared ↔ TypesAgree left.schema right.schema ∧
      shared = left.schema.names.filter right.schema.contains := by
  suffices hloop : ∀ (columns : List Attribute) (found : List AttributeName),
      columns.foldlM (shareColumn right) found = .ok shared ↔
        (∀ l ∈ columns, ∀ r ∈ right.schema.attributes, r.name = l.name → r.ty = l.ty) ∧
          shared = found ++ (columns.map Attribute.name).filter right.schema.contains by
    simpa [sharedNames, TypesAgree, Schema.names] using hloop left.schema.attributes []
  intro columns
  induction columns with
  | nil => simp [List.foldlM_nil, pure, Except.pure, eq_comm]
  | cons l columns ih =>
      intro found
      simp only [List.foldlM_cons, bind_eq_ok, shareColumn_eq_ok, ih, List.forall_mem_cons]
      constructor
      · rintro ⟨_, ⟨hl, rfl⟩, hrest, rfl⟩
        exact ⟨⟨hl, hrest⟩, by simp [List.filter_cons]; split <;> simp⟩
      · rintro ⟨⟨hl, hrest⟩, rfl⟩
        exact ⟨_, ⟨hl, rfl⟩, hrest, by simp [List.filter_cons]; split <;> simp⟩

/-- The columns of right that a natural join keeps are those whose name left
does not have. -/
theorem filter_not_shared {left right : Op} :
    (right.schema.attributes.filter fun r =>
        r.name ∉ left.schema.names.filter right.schema.contains) =
      right.schema.attributes.filter fun r => r.name ∉ left.schema.names := by
  apply List.filter_congr
  intro r hr
  have hright := Schema.mem_names_of_mem hr
  simp [hright]

/-- A right side that shares no name with left keeps all its columns. -/
theorem filter_disjoint {left right : Op}
    (h : ∀ name ∈ left.schema.names, name ∉ right.schema.names) :
    (right.schema.attributes.filter fun r => r.name ∉ left.schema.names) =
      right.schema.attributes := by
  apply List.filter_eq_self.mpr
  intro r hr
  have hright := Schema.mem_names_of_mem hr
  have hleft : r.name ∉ left.schema.names := fun hleft => h r.name hleft hright
  simpa using hleft

/-- The sides of a concatenation that is a header share no name. -/
theorem disjoint_of_concat {left right : Op} {schema : Schema}
    (hconcat : schema.attributes = left.schema.attributes ++ right.schema.attributes) :
    ∀ name ∈ left.schema.names, name ∉ right.schema.names := by
  have hnodup := schema.nodup_names
  rw [Schema.names, hconcat, List.map_append] at hnodup
  intro name hleft hright
  exact List.disjoint_of_nodup_append hnodup hleft hright

/-- A concatenation has the columns a natural join would have. -/
theorem concat_columns {left right : Op} {schema : Schema}
    (hconcat : schema.attributes = left.schema.attributes ++ right.schema.attributes) :
    TypesAgree left.schema right.schema ∧
      schema.attributes = left.schema.attributes ++
        right.schema.attributes.filter fun r => r.name ∉ left.schema.names := by
  have hdisjoint := disjoint_of_concat hconcat
  constructor
  · intro l hl r hr hname
    have hleft := Schema.mem_names_of_mem hl
    have hright := Schema.mem_names_of_mem hr
    rw [hname] at hright
    exact absurd hright (hdisjoint _ hleft)
  · rw [filter_disjoint hdisjoint, hconcat]

section Constructors

variable [Whittle]

@[simp] theorem withColumns_eq_ok {kind : OpKind} {columns : List Attribute} {op : Op} :
    withColumns kind columns = .ok op ↔ op.kind = kind ∧ op.schema.attributes = columns := by
  simp only [withColumns, bind_eq_ok, mapError_eq_ok, Schema.tryNew_eq_ok, pure_eq_ok]
  constructor
  · rintro ⟨schema, hcolumns, rfl⟩
    exact ⟨rfl, hcolumns⟩
  · rintro ⟨rfl, hcolumns⟩
    exact ⟨op.schema, hcolumns, eta op⟩

theorem project_eq_ok {input op : Op} {attrs : AttributeSet} :
    project input attrs = .ok op ↔
      op.kind = .project input attrs ∧ input.schema.Selects attrs.items op.schema.attributes := by
  simp only [project, bind_eq_ok, mapM_eq_ok, findOrUnknown_eq_ok, withColumns_eq_ok]
  constructor
  · rintro ⟨columns, hselect, hkind, rfl⟩
    exact ⟨hkind, hselect⟩
  · rintro ⟨hkind, hselect⟩
    exact ⟨_, hselect, hkind, rfl⟩

theorem rename_eq_ok {input op : Op} {fromName toName : AttributeName} :
    rename input fromName toName = .ok op ↔
      fromName ∈ input.schema.names ∧ (fromName = toName ∨ toName ∉ input.schema.names) ∧
        op.kind = .rename input fromName toName ∧
        op.schema.attributes = input.schema.attributes.map fun a =>
          if a.name = fromName then ⟨toName, a.ty⟩ else a := by
  simp [rename, imp_iff_not_or]

theorem extend_eq_ok {input op : Op} {name : AttributeName} {expr : Expression} :
    extend input name expr = .ok op ↔ ∃ ty, name ∉ input.schema.names ∧
      containsAggregate expr = false ∧ infer expr input.schema = .ok ty ∧
      op.kind = .extend input name expr ∧
      op.schema.attributes = input.schema.attributes ++ [⟨name, ty⟩] := by
  simp [extend]

theorem modify_eq_ok {input op sub : Op} {path : AnyPath} :
    modify input path sub = .ok op ↔ ∃ target nested, path.target = some target ∧
      ⟨target, .relation nested⟩ ∈ input.schema.attributes ∧
      op.kind = .modify input path sub ∧
      op.schema.attributes = input.schema.attributes.map fun a =>
        if a.name = target then ⟨a.name, .relation sub.schema⟩ else a := by
  simp only [modify, bind_eq_ok, okOr_eq_ok, findOrUnknown_eq_ok, nestedSchema_eq_ok,
    Schema.find_eq_some_iff, withColumns_eq_ok]
  constructor
  · rintro ⟨target, hpath, ⟨name, ty⟩, ⟨hmem, rfl⟩, nested, rfl, hbuilt⟩
    exact ⟨name, nested, hpath, hmem, hbuilt⟩
  · rintro ⟨target, nested, hpath, hmem, hbuilt⟩
    exact ⟨target, hpath, _, ⟨hmem, rfl⟩, nested, rfl, hbuilt⟩

theorem unnest_eq_ok {input op : Op} {path : AnyPath} :
    unnest input path = .ok op ↔ ∃ target nested, path.target = some target ∧
      ⟨target, .relation nested⟩ ∈ input.schema.attributes ∧
      op.kind = .unnest input path ∧
      op.schema.attributes = input.schema.attributes.flatMap fun a =>
        if a.name = target then nested.attributes else [a] := by
  simp only [unnest, bind_eq_ok, okOr_eq_ok, findOrUnknown_eq_ok, nestedSchema_eq_ok,
    Schema.find_eq_some_iff, withColumns_eq_ok]
  constructor
  · rintro ⟨target, hpath, ⟨name, ty⟩, ⟨hmem, rfl⟩, nested, rfl, hbuilt⟩
    exact ⟨name, nested, hpath, hmem, hbuilt⟩
  · rintro ⟨target, nested, hpath, hmem, hbuilt⟩
    exact ⟨target, hpath, _, ⟨hmem, rfl⟩, nested, rfl, hbuilt⟩

theorem nest_eq_ok {input op : Op} {attrs : AttributeSet} {into : AttributeName} :
    nest input attrs into = .ok op ↔ ∃ nested : Schema,
      input.schema.Selects attrs.items nested.attributes ∧
      (into ∉ input.schema.names ∨ into ∈ attrs.items) ∧
      op.kind = .nest input attrs into ∧
      op.schema.attributes =
        (input.schema.attributes.filter fun a => a.name ∉ attrs.items) ++
          [⟨into, .relation nested⟩] := by
  simp only [nest, bind_eq_ok, mapM_eq_ok, findOrUnknown_eq_ok, mapError_eq_ok,
    Schema.tryNew_eq_ok, ensure_eq_ok, Schema.contains_iff, withColumns_eq_ok]
  constructor
  · rintro ⟨columns, hselect, nested, rfl, -, hinto, hbuilt⟩
    exact ⟨nested, hselect, by tauto, hbuilt⟩
  · rintro ⟨nested, hselect, hinto, hbuilt⟩
    exact ⟨_, hselect, nested, rfl, (), by tauto, hbuilt⟩

theorem summarize_eq_ok {input op : Op} {keys : GroupingSet} {aggs : NamedAggSet} :
    summarize input keys aggs = .ok op ↔ ∃ grouped computed,
      input.schema.Selects keys.items grouped ∧
      List.Forall₂ (fun agg a => aggregateColumn input keys agg = .ok a) aggs.items computed ∧
      op.kind = .summarize input keys aggs ∧ op.schema.attributes = grouped ++ computed := by
  simp only [summarize, bind_eq_ok, mapM_eq_ok, findOrUnknown_eq_ok, withColumns_eq_ok]
  constructor
  · rintro ⟨grouped, hselect, computed, hbuilt⟩
    exact ⟨grouped, computed, hselect, hbuilt⟩
  · rintro ⟨grouped, computed, hselect, hbuilt⟩
    exact ⟨grouped, hselect, computed, hbuilt⟩

/-- Concatenation succeeds exactly when the concatenated list is a header:
that already forces the two sides to share no name. -/
@[simp] theorem concatDisjointSchemas_eq_ok {left right : Op} {schema : Schema} :
    concatDisjointSchemas left right = .ok schema ↔
      schema.attributes = left.schema.attributes ++ right.schema.attributes := by
  simp only [concatDisjointSchemas, bind_eq_ok, forM_eq_ok, ensure_eq_ok, Schema.contains_iff,
    mapError_eq_ok, Schema.tryNew_eq_ok, exists_const, and_iff_right_iff_imp]
  intro hconcat r hr hleft
  exact disjoint_of_concat hconcat _ hleft (Schema.mem_names_of_mem hr)

theorem product_eq_ok {left right op : Op} :
    product left right = .ok op ↔ op.kind = .product left right ∧
      op.schema.attributes = left.schema.attributes ++ right.schema.attributes := by
  simp only [product, bind_eq_ok, concatDisjointSchemas_eq_ok, pure_eq_ok]
  constructor
  · rintro ⟨schema, hconcat, rfl⟩
    exact ⟨rfl, hconcat⟩
  · rintro ⟨hkind, hconcat⟩
    exact ⟨op.schema, hconcat, by rw [← hkind, eta]⟩

/-- A natural join is left followed by the columns only right has, also when it
is built as a product. -/
theorem join_natural_eq_ok {left right op : Op} {kind : JoinKind} :
    join left right kind .natural = .ok op ↔ TypesAgree left.schema right.schema ∧
      op.schema.attributes = left.schema.attributes ++
        right.schema.attributes.filter (fun r => r.name ∉ left.schema.names) ∧
      op.kind = if kind = .inner ∧ ∀ name ∈ left.schema.names, name ∉ right.schema.names
        then .product left right else .join left right kind .natural := by
  have hshared : left.schema.names.filter right.schema.contains = [] ↔
      ∀ name ∈ left.schema.names, name ∉ right.schema.names := by
    simp [List.filter_eq_nil_iff]
  simp only [join, bind_eq_ok, sharedNames_eq_ok, and_assoc, exists_and_left, exists_eq_left]
  refine and_congr_right fun _ => ?_
  by_cases hproduct : kind = .inner ∧ ∀ name ∈ left.schema.names, name ∉ right.schema.names
  · rw [if_pos ⟨hshared.mpr hproduct.2, hproduct.1⟩, if_pos hproduct, product_eq_ok,
      filter_disjoint hproduct.2]
    exact and_comm
  · rw [if_neg fun h => hproduct ⟨h.2, hshared.mp h.1⟩, if_neg hproduct, withColumns_eq_ok,
      filter_not_shared]
    exact and_comm

/-- A natural join built as a product is left followed by all of right. -/
theorem join_natural_product {left right op : Op} {kind : JoinKind}
    (hjoin : join left right kind .natural = .ok op) (hkind : op.kind = .product left right) :
    op.schema.attributes = left.schema.attributes ++ right.schema.attributes := by
  obtain ⟨-, hcolumns, hshape⟩ := join_natural_eq_ok.mp hjoin
  by_cases hproduct : kind = .inner ∧ ∀ name ∈ left.schema.names, name ∉ right.schema.names
  · rwa [filter_disjoint hproduct.2] at hcolumns
  · rw [if_neg hproduct, hkind] at hshape
    exact absurd hshape nofun

theorem join_equi_eq_ok {left right op : Op} {kind : JoinKind} {pairs : EquiPairs} :
    join left right kind (.equi pairs) = .ok op ↔
      (∀ pair ∈ pairs.items, checkPair left right pair = .ok ()) ∧
      op.kind = .join left right kind (.equi pairs) ∧
      op.schema.attributes = left.schema.attributes ++ right.schema.attributes := by
  simp only [join, bind_eq_ok, forM_eq_ok, concatDisjointSchemas_eq_ok, pure_eq_ok, exists_const]
  refine and_congr_right fun _ => ?_
  constructor
  · rintro ⟨schema, hconcat, rfl⟩
    exact ⟨rfl, hconcat⟩
  · rintro ⟨hkind, hconcat⟩
    exact ⟨op.schema, hconcat, by rw [← hkind, eta]⟩

theorem join_theta_eq_ok {left right op : Op} {kind : JoinKind} {predicate : Predicate} :
    join left right kind (.theta predicate) = .ok op ↔
      checkPredicate op.schema predicate = .ok () ∧
      op.kind = .join left right kind (.theta predicate) ∧
      op.schema.attributes = left.schema.attributes ++ right.schema.attributes := by
  simp only [join, bind_eq_ok, concatDisjointSchemas_eq_ok, pure_eq_ok]
  constructor
  · rintro ⟨schema, hconcat, ⟨_, hcheck, rfl⟩⟩
    exact ⟨hcheck, rfl, hconcat⟩
  · rintro ⟨hcheck, hkind, hconcat⟩
    exact ⟨op.schema, hconcat, (), hcheck, by rw [← hkind, eta]⟩

/-- Every join, however it equates rows and whatever its kind, is left followed
by the columns only right has, and shared columns have one type. -/
theorem join_columns {left right out : Op} {kind : JoinKind} {joinOn : JoinOn}
    (hout : left.join right kind joinOn = .ok out) :
    TypesAgree left.schema right.schema ∧
      out.schema.attributes = left.schema.attributes ++
        right.schema.attributes.filter fun r => r.name ∉ left.schema.names := by
  cases joinOn with
  | natural =>
      obtain ⟨hagree, hcolumns, -⟩ := join_natural_eq_ok.mp hout
      exact ⟨hagree, hcolumns⟩
  | equi pairs => exact concat_columns (join_equi_eq_ok.mp hout).2.2
  | theta predicate => exact concat_columns (join_theta_eq_ok.mp hout).2.2

/-- A join keeps every column of left. -/
theorem join_keeps_left {left right out : Op} {kind : JoinKind} {joinOn : JoinOn}
    (hout : left.join right kind joinOn = .ok out) :
    ∀ a ∈ left.schema.attributes, a ∈ out.schema.attributes := by
  intro a ha
  rw [(join_columns hout).2]
  exact List.mem_append_left _ ha

/-- A join keeps every column of right. A shared column is the one that left
has, with the same type. -/
theorem join_keeps_right {left right out : Op} {kind : JoinKind} {joinOn : JoinOn}
    (hout : left.join right kind joinOn = .ok out) :
    ∀ a ∈ right.schema.attributes, a ∈ out.schema.attributes := by
  rintro ⟨name, ty⟩ ha
  obtain ⟨hagree, hcolumns⟩ := join_columns hout
  by_cases hshared : name ∈ left.schema.names
  · obtain ⟨ty', hl⟩ := Schema.mem_names_iff.mp hshared
    obtain rfl : ty = ty' := hagree _ hl _ ha rfl
    exact join_keeps_left hout _ hl
  · rw [hcolumns]
    exact List.mem_append_right _ (List.mem_filter.mpr ⟨ha, by simpa using hshared⟩)

end Constructors

end Op

end AxiomCore
