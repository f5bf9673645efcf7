import AxiomCore.Faults
import AxiomCore.Library.Safe
import AxiomCore.Padding
import AxiomCore.Replacement

/-!
Sources that grow. A query is built again over sources with more columns, under names
that none of its headers has. Each constructor finds under the old names what it found
before, so the new columns only pass through or are dropped, and a call that went
through fails only where new columns meet: in the operands of a join or of a set
operator, or in a header that has no room for them.
-/

namespace AxiomCore

open Checked Construction Refined

/-- A test that keeps or drops blocks as a whole can be made before they are put together. -/
theorem filter_blocks {α β : Type} {block kept : α → List β} {keep : β → Bool}
    {keepBlock : α → Bool} {items : List α}
    (hblock : ∀ a ∈ items, (block a).filter keep = if keepBlock a then kept a else []) :
    (items.flatMap block).filter keep = (items.filter keepBlock).flatMap kept := by
  induction items with
  | nil => rfl
  | cons a items ih =>
      rw [List.forall_mem_cons] at hblock
      rw [List.flatMap_cons, List.filter_append, hblock.1, ih hblock.2, List.filter_cons]
      split <;> simp

/-- The columns of `wide` are those of `s` in their order, and others with fresh names. -/
def Schema.Widens (fresh : Finset AttributeName) (wide s : Schema) : Prop :=
  (wide.attributes.filter fun a => a.name ∉ fresh) = s.attributes

instance (fresh : Finset AttributeName) (wide s : Schema) : Decidable (wide.Widens fresh s) :=
  inferInstanceAs (Decidable (_ = _))

/-- The calls whose header has more columns than one of their inputs. -/
def Call.AddsColumns : Call → Prop
  | .extend _ _ _ | .unnest _ _ | .join _ _ _ _ | .product _ _ => True
  | _ => False

/-- What a call rejects its operands for, when fresh columns meet in them: a fresh name
on both sides, there under two types, two headers that are not the same, or more columns
than there is room for. -/
inductive Call.RejectsNew (fresh : Finset AttributeName) : Call → OpError → Prop
  | product {left right name} : name ∈ fresh → name ∈ left.schema.names →
      name ∈ right.schema.names →
      RejectsNew fresh (.product left right) (.duplicateAcrossOperands name)
  | natural {left right kind l} : l.name ∈ fresh → l ∈ left.schema.attributes →
      right.schema.Disagrees l →
      RejectsNew fresh (.join left right kind .natural) (.joinTypeMismatch l.name)
  | equi {left right kind pairs name} : name ∈ fresh → name ∈ left.schema.names →
      name ∈ right.schema.names →
      RejectsNew fresh (.join left right kind (.equi pairs)) (.duplicateAcrossOperands name)
  | theta {left right kind predicate name} : name ∈ fresh → name ∈ left.schema.names →
      name ∈ right.schema.names →
      RejectsNew fresh (.join left right kind (.theta predicate)) (.duplicateAcrossOperands name)
  | union {left right} : left.schema ≠ right.schema →
      RejectsNew fresh (.union left right) .schemaMismatch
  | intersect {left right} : left.schema ≠ right.schema →
      RejectsNew fresh (.intersect left right) .schemaMismatch
  | difference {left right} : left.schema ≠ right.schema →
      RejectsNew fresh (.difference left right) .schemaMismatch
  | overflow {call columns} : call.AddsColumns → call.SchemaFault (.cardinality columns) →
      RejectsNew fresh call (.schema (.cardinality columns))

namespace Schema.Widens

variable {fresh : Finset AttributeName} {wide s : Schema} {name : AttributeName}

theorem mem_iff (hwide : wide.Widens fresh s) {a : Attribute} :
    a ∈ s.attributes ↔ a ∈ wide.attributes ∧ a.name ∉ fresh := by
  rw [← hwide, List.mem_filter, decide_eq_true_iff]

theorem unused (hwide : wide.Widens fresh s) : ∀ name ∈ s.names, name ∉ fresh := by
  intro name hname
  obtain ⟨a, ha, rfl⟩ := List.mem_map.mp hname
  exact (hwide.mem_iff.mp ha).2

theorem of_unused (hunused : ∀ name ∈ s.names, name ∉ fresh) : s.Widens fresh s := by
  apply List.filter_eq_self.mpr
  intro a ha
  exact decide_eq_true (hunused a.name (mem_names_of_mem ha))

theorem mem_names_iff (hwide : wide.Widens fresh s) (hname : name ∉ fresh) :
    name ∈ wide.names ↔ name ∈ s.names := by
  constructor
  · intro hmem
    obtain ⟨a, ha, rfl⟩ := List.mem_map.mp hmem
    exact mem_names_of_mem (hwide.mem_iff.mpr ⟨ha, hname⟩)
  · intro hmem
    obtain ⟨a, ha, rfl⟩ := List.mem_map.mp hmem
    exact mem_names_of_mem (hwide.mem_iff.mp ha).1

theorem mem_names (hwide : wide.Widens fresh s) (hname : name ∈ s.names) : name ∈ wide.names :=
  (hwide.mem_names_iff (hwide.unused name hname)).mpr hname

theorem find_eq (hwide : wide.Widens fresh s) (hname : name ∉ fresh) :
    wide.find name = s.find name := by
  apply Option.ext
  intro a
  rw [find_eq_some_iff, find_eq_some_iff, hwide.mem_iff]
  constructor
  · rintro ⟨ha, rfl⟩
    exact ⟨⟨ha, hname⟩, rfl⟩
  · rintro ⟨⟨ha, -⟩, rfl⟩
    exact ⟨ha, rfl⟩

theorem lookup_eq (hwide : wide.Widens fresh s) (hname : name ∉ fresh) :
    wide.lookup name = s.lookup name := by
  rw [lookup, lookup, hwide.find_eq hname]

/-- The columns with the old names are the old columns. -/
theorem selects (hwide : wide.Widens fresh s) {names : List AttributeName}
    {columns : List Attribute} (hselect : s.Selects names columns) :
    wide.Selects names columns := by
  apply hselect.imp
  intro name a hfind
  obtain ⟨ha, rfl⟩ := find_eq_some_iff.mp hfind
  exact find_eq_some_iff.mpr ⟨(hwide.mem_iff.mp ha).1, rfl⟩

/-- An accepted expression has the type it had. -/
theorem infer_eq (hwide : wide.Widens fresh s) {e : Expression} {ty : Ty}
    (hfree : containsAggregate e = false) (hty : infer e s = .ok ty) : infer e wide = .ok ty := by
  rw [← hty]
  apply infer_congr
  intro name hname
  exact hwide.lookup_eq (hwide.unused name (freeAttrs_subset_names hfree hty name hname))

theorem aggTy_eq (hwide : wide.Widens fresh s) {a : Agg} {ty : Ty} (hty : aggTy a s = .ok ty) :
    aggTy a wide = .ok ty := by
  cases a with
  | count attr => exact hty
  | sum name | min name | max name | avg name =>
      obtain ⟨column, hcolumn, -⟩ := (bind_eq_ok _ _ _).mp hty
      have hunused := hwide.unused name (mem_names_of_lookup_ok hcolumn)
      simpa only [aggTy, AxiomCore.lookup, hwide.lookup_eq hunused] using hty

theorem checkPredicate_eq (hwide : wide.Widens fresh s) {predicate : Predicate}
    (hcheck : checkPredicate s predicate = .ok ()) : checkPredicate wide predicate = .ok () := by
  cases predicate with
  | opaqueClosure id => rfl
  | expr b =>
      obtain ⟨hfree, hty⟩ := checkPredicate_expr_ok.mp hcheck
      exact checkPredicate_expr_ok.mpr ⟨hfree, hwide.infer_eq hfree hty⟩

/-- Old nested columns go in the place of an old column. -/
theorem flattened (hwide : wide.Widens fresh s) {target : AttributeName} {nested : Schema}
    (htarget : target ∉ fresh) (hnested : ∀ a ∈ nested.attributes, a.name ∉ fresh) :
    ((wide.flattened target nested).filter fun a => a.name ∉ fresh) =
      s.flattened target nested := by
  rw [Schema.flattened, Schema.flattened, ← hwide]
  apply filter_blocks
  intro a _
  by_cases hname : a.name = target
  · simpa [hname, htarget] using hnested
  · simp [hname, List.filter_singleton]

end Schema.Widens

/-- No fresh column is in the place of an old one. -/
theorem Schema.fresh_flattened {fresh : Finset AttributeName} {s nested : Schema}
    {target : AttributeName} (htarget : target ∉ fresh)
    (hnested : ∀ a ∈ nested.attributes, a.name ∉ fresh) :
    ((s.flattened target nested).filter fun a => a.name ∈ fresh) =
      s.attributes.filter fun a => a.name ∈ fresh := by
  rw [← List.flatMap_singleton' (s.attributes.filter _)]
  apply filter_blocks
  intro a _
  by_cases hname : a.name = target
  · simpa [hname, htarget] using hnested
  · simp [hname, List.filter_singleton]

/-- The fresh columns of a header have distinct names. -/
theorem Schema.nodup_fresh (s : Schema) (fresh : Finset AttributeName) :
    ((s.attributes.filter fun a => a.name ∈ fresh).map Attribute.name).Nodup :=
  s.nodup_names.sublist (List.filter_sublist.map Attribute.name)

/-- There are too many columns for a header. -/
def OpError.TooWide (e : OpError) : Prop :=
  ∃ columns, e = .schema (.cardinality columns)

/-- Columns that are the old ones and fresh ones make a header, or are too many. -/
theorem Schema.checked_widens [Whittle] {fresh : Finset AttributeName}
    {columns : List Attribute} {s : Schema}
    (hkept : (columns.filter fun a => a.name ∉ fresh) = s.attributes)
    (hnew : ((columns.filter fun a => a.name ∈ fresh).map Attribute.name).Nodup) :
    Safe OpError.TooWide (Schema.Widens fresh · s) (checked columns) := by
  have hsplit : ((columns.filter fun a => a.name ∈ fresh) ++ s.attributes).Perm columns := by
    rw [← hkept]
    simpa using List.filter_append_perm (fun a : Attribute => decide (a.name ∈ fresh)) columns
  have hnodup : (columns.map Attribute.name).Nodup := by
    rw [← (hsplit.map Attribute.name).nodup_iff, List.map_append, List.nodup_append']
    refine ⟨hnew, s.nodup_names, ?_⟩
    intro name hfresh hold
    obtain ⟨a, ha, rfl⟩ := List.mem_map.mp hfresh
    obtain ⟨b, hb, hname⟩ := List.mem_map.mp hold
    rw [← hkept, List.mem_filter, decide_eq_true_iff, hname] at hb
    exact hb.2 (of_decide_eq_true (List.mem_filter.mp ha).2)
  have hpos : 1 ≤ columns.length := by
    have hmin := s.headerRule.min_le
    rw [← hkept] at hmin
    exact hmin.trans (List.length_filter_le _ _)
  apply Safe.iff_forall.mpr
  constructor
  · intro wide hwide
    rw [checked_eq_ok] at hwide
    rwa [Widens, hwide]
  · intro e herror
    obtain ⟨-, rfl⟩ := (checked_eq_error_of_nodup hnodup hpos).mp herror
    exact ⟨_, rfl⟩

namespace Op

/-- The call builds a header that widens `s`, or rejects fresh columns. -/
abbrev StillBuilds [Whittle] (fresh : Finset AttributeName) (call : Call) (s : Schema) : Prop :=
  Safe (call.RejectsNew fresh) (Schema.Widens fresh · s) (outcome call.run)

/-- Whatever else is allowed has to be a rejection of the call that failed. -/
theorem StillBuilds.of_safe [Whittle] {fresh : Finset AttributeName} {call : Call} {s : Schema}
    (allowed : OpError → Prop)
    (hsafe : Safe allowed (Schema.Widens fresh · s) (outcome call.run))
    (hallowed : ∀ e, call.run = .error e → allowed e → call.RejectsNew fresh e) :
    StillBuilds fresh call s := by
  apply hsafe.mono
  · intro wide _ hwide
    exact hwide
  · intro e herror
    exact hallowed e (outcome_eq_error.mp herror)

section Constructors

variable [Whittle] {fresh : Finset AttributeName} {input wide op : Op}
  (hwide : wide.schema.Widens fresh input.schema)

include hwide

theorem restrict_still {predicate : Predicate} (hbuilt : input.restrict predicate = .ok op) :
    StillBuilds fresh (.restrict wide predicate) op.schema := by
  obtain ⟨hcheck, rfl⟩ := restrict_eq_ok.mp hbuilt
  have hok := restrict_eq_ok.mpr ⟨hwide.checkPredicate_eq hcheck, rfl⟩
  rw [StillBuilds, Call.run, hok]
  exact hwide

theorem project_still {attrs : AttributeSet} (hbuilt : input.project attrs = .ok op) :
    StillBuilds fresh (.project wide attrs) op.schema := by
  obtain ⟨-, hselect⟩ := project_eq_ok.mp hbuilt
  have hok : wide.project attrs = .ok ⟨.project wide attrs, op.schema⟩ :=
    project_eq_ok.mpr ⟨rfl, hwide.selects hselect⟩
  rw [StillBuilds, Call.run, hok]
  apply Schema.Widens.of_unused
  intro name hname
  rw [Schema.names, hselect.map_name] at hname
  exact hwide.unused name (hselect.subset_names name hname)

/-- Renaming one of the old columns leaves the fresh ones alone. -/
theorem rename_still {fromName toName : AttributeName} (hto : toName ∉ fresh)
    (hbuilt : input.rename fromName toName = .ok op) :
    StillBuilds fresh (.rename wide fromName toName) op.schema := by
  obtain ⟨hfrom, havailable, -, hcolumns⟩ := rename_eq_ok.mp hbuilt
  have havailable' : Available wide.schema fromName toName :=
    havailable.imp id fun habsent => (hwide.mem_names_iff hto).not.mpr habsent
  have hrenamed := renamed_columns havailable'
  have hok : wide.rename fromName toName =
      .ok ⟨.rename wide fromName toName, wide.schema.relabel (Equiv.swap fromName toName)⟩ :=
    rename_eq_ok.mpr ⟨hwide.mem_names hfrom, havailable', rfl, hrenamed.symm⟩
  have hkept : ∀ a ∈ wide.schema.attributes,
      (decide ((if a.name = fromName then (⟨toName, a.ty⟩ : Attribute) else a).name ∉ fresh)) =
        decide (a.name ∉ fresh) := by
    intro a _
    by_cases hname : a.name = fromName
    · simp [hname, hto, hwide.unused fromName hfrom]
    · simp [hname]
  rw [StillBuilds, Call.run, hok]
  simp only [outcome_ok, Safe.ok_iff, Schema.Widens]
  rw [← hrenamed, hcolumns, List.filter_map, ← hwide]
  congr 1
  exact List.filter_congr hkept

theorem extend_still {name : AttributeName} {expr : Expression} (hname : name ∉ fresh)
    (hbuilt : input.extend name expr = .ok op) :
    StillBuilds fresh (.extend wide name expr) op.schema := by
  obtain ⟨ty, habsent, hfree, hty, -, hcolumns⟩ := extend_eq_ok.mp hbuilt
  have habsent' : ¬ wide.schema.contains name := by
    rwa [Schema.contains_iff, hwide.mem_names_iff hname]
  have houtcome : outcome (wide.extend name expr) =
      Schema.checked (wide.schema.attributes ++ [⟨name, ty⟩]) := by
    rw [← outcome_withColumns (.extend wide name expr), extend,
      (ensure_eq_ok _ _ ()).mpr habsent', (ensure_eq_ok _ _ ()).mpr hfree,
      hwide.infer_eq hfree hty]
    rfl
  apply StillBuilds.of_safe OpError.TooWide
  · rw [Call.run, houtcome]
    apply Schema.checked_widens
    · rw [hcolumns, List.filter_append, hwide]
      simp [hname]
    · simpa [List.filter_append, hname] using wide.schema.nodup_fresh fresh
  · rintro e herror ⟨columns, rfl⟩
    exact .overflow trivial (extend_eq_schema_error.mp herror)

/-- The sub-operator has the header it had, so its column has the type it had. -/
theorem modify_still {path : AnyPath} {sub sub' : Op} (hsub : sub'.schema = sub.schema)
    (hbuilt : input.modify path sub = .ok op) :
    StillBuilds fresh (.modify wide path sub') op.schema := by
  obtain ⟨target, nested, hpath, hmem, -, hcolumns⟩ := modify_eq_ok.mp hbuilt
  obtain ⟨s, hs⟩ := wide.schema.exists_put target sub.schema
  have houtcome : outcome (wide.modify path sub') = .ok s := by
    rw [outcome_modify hpath (hwide.mem_iff.mp hmem).1, hsub]
    exact Schema.checked_eq_ok.mpr hs
  rw [StillBuilds, Call.run, houtcome, Safe.ok_iff, Schema.Widens, hs, hcolumns, List.filter_map,
    ← hwide]
  congr 1
  apply List.filter_congr
  intro a _
  simp

/-- The fresh columns stay beside the nested ones, which are the old ones. -/
theorem unnest_still {path : AnyPath} (hunused : ∀ name ∈ op.schema.names, name ∉ fresh)
    (hbuilt : input.unnest path = .ok op) :
    StillBuilds fresh (.unnest wide path) op.schema := by
  obtain ⟨target, nested, hpath, hmem, -, hcolumns⟩ := unnest_eq_ok.mp hbuilt
  have htarget : target ∉ fresh := (hwide.mem_iff.mp hmem).2
  have hnested : ∀ a ∈ nested.attributes, a.name ∉ fresh := by
    intro a ha
    apply hunused a.name (Schema.mem_names_of_mem _)
    rw [hcolumns]
    exact List.mem_flatMap.mpr ⟨_, hmem, by simpa using ha⟩
  apply StillBuilds.of_safe OpError.TooWide
  · rw [Call.run, outcome_unnest hpath (hwide.mem_iff.mp hmem).1]
    apply Schema.checked_widens
    · rw [hcolumns]
      exact hwide.flattened htarget hnested
    · have hfresh := Schema.fresh_flattened (s := wide.schema) htarget hnested
      rw [Schema.flattened] at hfresh
      rw [hfresh]
      exact wide.schema.nodup_fresh fresh
  · rintro e herror ⟨columns, rfl⟩
    exact .overflow trivial (unnest_eq_schema_error.mp herror)

theorem nest_still {attrs : AttributeSet} {into : AttributeName} (hinto : into ∉ fresh)
    (hbuilt : input.nest attrs into = .ok op) :
    StillBuilds fresh (.nest wide attrs into) op.schema := by
  obtain ⟨nested, hselect, hfree, -, hcolumns⟩ := nest_eq_ok.mp hbuilt
  have hfree' : into ∉ wide.schema.names ∨ into ∈ attrs.items :=
    hfree.imp (hwide.mem_names_iff hinto).not.mpr id
  obtain ⟨s, hs⟩ :=
    Schema.exists_attributes_iff.mpr (nested_columns_rule (hwide.selects hselect) hfree')
  have hok : wide.nest attrs into = .ok ⟨.nest wide attrs into, s⟩ :=
    nest_eq_ok.mpr ⟨nested, hwide.selects hselect, hfree', rfl, hs⟩
  rw [StillBuilds, Call.run, hok, outcome_ok, Safe.ok_iff, Schema.Widens, hs, hcolumns,
    List.filter_append, List.filter_filter, ← hwide, List.filter_filter]
  simp [hinto, Bool.and_comm]

/-- A summary drops the fresh columns. -/
theorem summarize_still {keys : GroupingSet} {aggs : NamedAggSet}
    (hunused : ∀ name ∈ op.schema.names, name ∉ fresh)
    (hbuilt : input.summarize keys aggs = .ok op) :
    StillBuilds fresh (.summarize wide keys aggs) op.schema := by
  obtain ⟨grouped, computed, hselect, hcomputed, -, hcolumns⟩ := summarize_eq_ok.mp hbuilt
  have hcomputed' : List.Forall₂ (fun agg a => aggregateColumn wide keys agg = .ok a) aggs.items
      computed := by
    apply hcomputed.imp
    intro agg a hcolumn
    obtain ⟨hkeys, hname, hty⟩ := aggregateColumn_eq_ok.mp hcolumn
    exact aggregateColumn_eq_ok.mpr ⟨hkeys, hname, hwide.aggTy_eq hty⟩
  have hok : wide.summarize keys aggs = .ok ⟨.summarize wide keys aggs, op.schema⟩ :=
    summarize_eq_ok.mpr
      ⟨grouped, computed, hwide.selects hselect, hcomputed', rfl, hcolumns⟩
  rw [StillBuilds, Call.run, hok]
  exact Schema.Widens.of_unused hunused

end Constructors

section Operands

variable {fresh : Finset AttributeName} {left right wideLeft wideRight op : Op}
  (hleft : wideLeft.schema.Widens fresh left.schema)
  (hright : wideRight.schema.Widens fresh right.schema)

include hleft hright

/-- A name that both sides have now but not before is fresh. -/
theorem shared_fresh (hdisjoint : ∀ name ∈ left.schema.names, name ∉ right.schema.names)
    {name : AttributeName} (hl : name ∈ wideLeft.schema.names)
    (hr : name ∈ wideRight.schema.names) : name ∈ fresh := by
  by_contra hname
  exact hdisjoint name ((hleft.mem_names_iff hname).mp hl) ((hright.mem_names_iff hname).mp hr)

omit hright in
/-- Set operators want one header on both sides, the fresh columns included. -/
theorem setOperator_still {kind kind' : OpKind} {allowed : OpError → Prop}
    (hrejects : wideLeft.schema ≠ wideRight.schema → allowed .schemaMismatch)
    (hbuilt : setOperator kind left right = .ok op) :
    Safe allowed (Schema.Widens fresh · op.schema)
      (outcome (setOperator kind' wideLeft wideRight)) := by
  obtain ⟨-, rfl⟩ := setOperator_eq_ok.mp hbuilt
  by_cases hsame : wideLeft.schema = wideRight.schema
  · rw [setOperator_eq_ok.mpr ⟨hsame, rfl⟩]
    exact hleft
  · rw [setOperator_eq_error.mpr ⟨hsame, rfl⟩]
    exact hrejects hsame

/-- A pair of an equi-join has old columns. -/
theorem checkPair_still {pair : EquiPair} (hcheck : checkPair left right pair = .ok ()) :
    checkPair wideLeft wideRight pair = .ok () := by
  obtain ⟨l, hl, r, hr, hty⟩ : ∃ l, left.schema.find pair.left = some l ∧
      ∃ r, right.schema.find pair.right = some r ∧ l.ty = r.ty := by
    simpa [checkPair] using hcheck
  obtain ⟨hlmem, hlname⟩ := Schema.find_eq_some_iff.mp hl
  obtain ⟨hrmem, hrname⟩ := Schema.find_eq_some_iff.mp hr
  rw [← hleft.find_eq (hlname ▸ (hleft.mem_iff.mp hlmem).2)] at hl
  rw [← hright.find_eq (hrname ▸ (hright.mem_iff.mp hrmem).2)] at hr
  simp [checkPair, hl, hr, hty]

/-- The columns of a natural join. -/
theorem merge_still : ((Keyed.merge Attribute.name wideLeft.schema.attributes
    wideRight.schema.attributes).filter fun a => a.name ∉ fresh) =
      Keyed.merge Attribute.name left.schema.attributes right.schema.attributes := by
  rw [Keyed.merge, Keyed.merge, List.filter_append, hleft, List.filter_filter, ← hright,
    List.filter_filter]
  congr 1
  apply List.filter_congr
  intro a _
  by_cases hname : a.name ∈ fresh
  · simp [hname]
  · have hshared : a.name ∈ wideLeft.schema.attributes.map Attribute.name ↔
        a.name ∈ left.schema.attributes.map Attribute.name := hleft.mem_names_iff hname
    simp only [hname, hshared, not_false_eq_true, decide_true, Bool.true_and, Bool.and_true]

variable [Whittle]

/-- Two headers side by side now share a fresh name, or have too many columns. -/
def ConcatRejectsNew (fresh : Finset AttributeName) (left right : Op) (e : OpError) : Prop :=
  (∃ name ∈ fresh, name ∈ left.schema.names ∧ name ∈ right.schema.names ∧
    e = .duplicateAcrossOperands name) ∨ e.TooWide

theorem concat_still {s : Schema} (hbuilt : concatDisjointSchemas left right = .ok s) :
    Safe (ConcatRejectsNew fresh wideLeft wideRight) (Schema.Widens fresh · s)
      (concatDisjointSchemas wideLeft wideRight) := by
  rw [concatDisjointSchemas_eq_ok] at hbuilt
  apply Safe.iff_forall.mpr
  constructor
  · intro wide hwide
    rw [concatDisjointSchemas_eq_ok] at hwide
    rw [Schema.Widens, hwide, List.filter_append, hleft, hright, hbuilt]
  · intro e herror
    by_cases hearly : e.Early
    · obtain ⟨name, hfirst, rfl⟩ := (concat_eq_early_error hearly).mp herror
      obtain ⟨hr, hl⟩ := hfirst.mem
      exact Or.inl ⟨name, shared_fresh hleft hright (disjoint_of_concat hbuilt) hl hr, hl, hr, rfl⟩
    · obtain ⟨source, rfl⟩ : ∃ source, e = .schema source := by
        simpa [OpError.Early] using hearly
      obtain ⟨-, -, rfl⟩ := concat_eq_schema_error.mp herror
      exact Or.inr ⟨_, rfl⟩

theorem product_still (hbuilt : left.product right = .ok op) :
    StillBuilds fresh (.product wideLeft wideRight) op.schema := by
  have hconcat := concatDisjointSchemas_eq_ok.mpr (product_eq_ok.mp hbuilt).2
  apply StillBuilds.of_safe (ConcatRejectsNew fresh wideLeft wideRight)
  · rw [Call.run, outcome_product]
    exact concat_still hleft hright hconcat
  · rintro e herror (⟨name, hname, hl, hr, rfl⟩ | ⟨columns, rfl⟩)
    · exact .product hname hl hr
    · exact .overflow trivial (product_eq_schema_error.mp herror)

theorem join_natural_still {kind : JoinKind} (hbuilt : left.join right kind .natural = .ok op) :
    StillBuilds fresh (.join wideLeft wideRight kind .natural) op.schema := by
  have hjoined : left.schema.naturalJoin right.schema = .ok op.schema := by
    rw [← outcome_join_natural left right kind, hbuilt]
    rfl
  obtain ⟨hagree, hcolumns⟩ := Schema.naturalJoin_eq_ok.mp hjoined
  cases hcheck : forM wideLeft.schema.attributes wideRight.schema.agreesWith with
  | error e =>
      obtain ⟨l, hfirst, rfl⟩ := forM_agreesWith_eq_error.mp hcheck
      obtain ⟨hl, hdisagrees⟩ := hfirst.mem
      rw [StillBuilds, Call.run, outcome_join_natural, Schema.naturalJoin, hcheck]
      apply Call.RejectsNew.natural _ hl hdisagrees
      by_contra hname
      obtain ⟨ty, hr, hne⟩ := hdisagrees
      have hsame := hagree _ (hleft.mem_iff.mpr ⟨hl, hname⟩) _ (hright.mem_iff.mpr ⟨hr, hname⟩) rfl
      exact hne (congrArg Attribute.ty hsame).symm
  | ok u =>
      apply StillBuilds.of_safe OpError.TooWide
      · rw [Call.run, outcome_join_natural, Schema.naturalJoin, hcheck]
        apply Schema.checked_widens
        · rw [merge_still hleft hright, hcolumns]
        · exact (Schema.nodup_merge _ _).sublist (List.filter_sublist.map Attribute.name)
      · rintro e herror ⟨columns, rfl⟩
        exact .overflow trivial (join_natural_eq_schema_error.mp herror)

theorem join_equi_still {kind : JoinKind} {pairs : EquiPairs}
    (hbuilt : left.join right kind (.equi pairs) = .ok op) :
    StillBuilds fresh (.join wideLeft wideRight kind (.equi pairs)) op.schema := by
  obtain ⟨hpairs, -, hcolumns⟩ := join_equi_eq_ok.mp hbuilt
  have hpairs' : forM pairs.items (checkPair wideLeft wideRight) = .ok () := by
    rw [forM_eq_ok]
    intro pair hpair
    exact checkPair_still hleft hright (hpairs pair hpair)
  apply StillBuilds.of_safe (ConcatRejectsNew fresh wideLeft wideRight)
  · rw [Call.run, outcome_join_equi, hpairs']
    exact concat_still hleft hright (concatDisjointSchemas_eq_ok.mpr hcolumns)
  · rintro e herror (⟨name, hname, hl, hr, rfl⟩ | ⟨columns, rfl⟩)
    · exact .equi hname hl hr
    · exact .overflow trivial (join_equi_eq_schema_error.mp herror)

theorem join_theta_still {kind : JoinKind} {predicate : Predicate}
    (hbuilt : left.join right kind (.theta predicate) = .ok op) :
    StillBuilds fresh (.join wideLeft wideRight kind (.theta predicate)) op.schema := by
  obtain ⟨hcheck, -, hcolumns⟩ := join_theta_eq_ok.mp hbuilt
  have hconcat := concatDisjointSchemas_eq_ok.mpr hcolumns
  apply StillBuilds.of_safe (ConcatRejectsNew fresh wideLeft wideRight)
  · rw [Call.run, outcome_join_theta]
    apply (concat_still hleft hright hconcat).bind
    intro wide hwide
    rw [hwide.checkPredicate_eq hcheck]
    exact hwide
  · rintro e herror (⟨name, hname, hl, hr, rfl⟩ | ⟨columns, rfl⟩)
    · exact .theta hname hl hr
    · exact .overflow trivial (join_theta_eq_schema_error.mp herror)

end Operands

theorem safe_outcome {allowed : OpError → Prop} {post : Schema → Prop}
    {built : Except OpError Op} :
    Safe allowed post (outcome built) ↔ Safe allowed (fun op => post op.schema) built := by
  cases built <;> rfl

end Op

section Kernel

variable [Whittle]

/-- One call: over inputs with fresh columns it does what it did, or rejects fresh columns. -/
theorem Call.run_still {fresh : Finset AttributeName} {g : Op → Op} {call : Call} {op : Op}
    (hrun : call.run = .ok op) (hunused : ∀ name ∈ op.schema.names, name ∉ fresh)
    (hinputs : ∀ input ∈ call.inputs, (g input).schema.Widens fresh input.schema)
    (hsub : ∀ input path sub, call = .modify input path sub → (g sub).schema = sub.schema) :
    Op.StillBuilds fresh (call.mapInputs g) op.schema := by
  cases call with
  | source src =>
      obtain rfl := Except.ok.inj hrun
      exact Schema.Widens.of_unused hunused
  | order input keys | limit input offset count =>
      obtain rfl := Except.ok.inj hrun
      exact hinputs input (by simp [inputs])
  | project input attrs => exact Op.project_still (hinputs input (by simp [inputs])) hrun
  | restrict input predicate => exact Op.restrict_still (hinputs input (by simp [inputs])) hrun
  | rename input fromName toName =>
      apply Op.rename_still (hinputs input (by simp [inputs])) _ hrun
      obtain ⟨hfrom, -, -, hcolumns⟩ := Op.rename_eq_ok.mp hrun
      obtain ⟨a, ha, rfl⟩ := List.mem_map.mp hfrom
      apply hunused
      rw [Schema.names, hcolumns, List.map_map]
      exact List.mem_map.mpr ⟨a, ha, by simp⟩
  | extend input name expr =>
      apply Op.extend_still (hinputs input (by simp [inputs])) _ hrun
      obtain ⟨ty, -, -, -, -, hcolumns⟩ := Op.extend_eq_ok.mp hrun
      apply hunused
      simp [Schema.names, hcolumns]
  | modify input path sub =>
      exact Op.modify_still (hinputs input (by simp [inputs])) (hsub input path sub rfl) hrun
  | unnest input path => exact Op.unnest_still (hinputs input (by simp [inputs])) hunused hrun
  | nest input attrs into =>
      apply Op.nest_still (hinputs input (by simp [inputs])) _ hrun
      obtain ⟨nested, -, -, -, hcolumns⟩ := Op.nest_eq_ok.mp hrun
      apply hunused
      simp [Schema.names, hcolumns]
  | summarize input keys aggs =>
      exact Op.summarize_still (hinputs input (by simp [inputs])) hunused hrun
  | union left right => exact Op.setOperator_still (hinputs left (by simp [inputs])) .union hrun
  | intersect left right =>
      exact Op.setOperator_still (hinputs left (by simp [inputs])) .intersect hrun
  | difference left right =>
      exact Op.setOperator_still (hinputs left (by simp [inputs])) .difference hrun
  | product left right =>
      exact Op.product_still (hinputs left (by simp [inputs])) (hinputs right (by simp [inputs]))
        hrun
  | join left right kind joinOn =>
      have hleft := hinputs left (by simp [inputs])
      have hright := hinputs right (by simp [inputs])
      cases joinOn with
      | natural => exact Op.join_natural_still hleft hright hrun
      | equi pairs => exact Op.join_equi_still hleft hright hrun
      | theta predicate => exact Op.join_theta_still hleft hright hrun

/-- A step over a part that is rebuilt or fails in an allowed way. -/
theorem Op.replay_safe {allowed : OpError → Prop} {promise post : Op → Prop} {part : Op}
    {next : Op → Except OpError Op} (hpart : Safe allowed promise part.replay)
    (hnext : part.replay = .ok part.replayed ∧ promise part.replayed →
      Safe allowed post (next part.replayed)) :
    Safe allowed post (part.replay >>= next) := by
  cases hreplay : part.replay with
  | ok built =>
      have hbuilt := replayed_eq hreplay
      rw [hreplay, Safe.ok_iff] at hpart
      have hrest := hnext (by rw [hbuilt]; exact ⟨hreplay, hpart⟩)
      rwa [hbuilt] at hrest
  | error e =>
      rw [hreplay] at hpart
      exact hpart

/-- A node over parts that are rebuilt or fail in an allowed way. -/
theorem OpKind.replay_safe {allowed : OpError → Prop} {promise : Op → Op → Prop}
    {post : Op → Prop} {kind : OpKind}
    (hparts : ∀ part ∈ kind.parts, Safe allowed (promise part) part.replay)
    (hcall : (∀ part ∈ kind.parts,
        part.replay = .ok part.replayed ∧ promise part part.replayed) →
      Safe allowed post (kind.call.mapInputs Op.replayed).run) :
    Safe allowed post kind.replay := by
  cases kind with
  | source src => exact hcall (by simp [parts])
  | project input attrs | restrict input predicate | rename input fromName toName
  | extend input name expr | summarize input keys aggs | unnest input path
  | nest input attrs into | order input keys | limit input offset count =>
      apply Op.replay_safe (hparts input (by simp [parts]))
      intro hinput
      exact hcall (by simpa [parts] using hinput)
  | join left right kind joinOn | product left right | union left right | intersect left right
  | difference left right | modify left path right =>
      apply Op.replay_safe (hparts left (by simp [parts]))
      intro hleft
      apply Op.replay_safe (hparts right (by simp [parts]))
      intro hright
      exact hcall (by simpa [parts] using ⟨hleft, hright⟩)

omit [Whittle] in
theorem OpKind.parts_rewriteParts (rule : Op → Option Op) (kind : OpKind) :
    (kind.rewriteParts rule).parts = kind.parts.map (Op.rewrite rule) := by
  cases kind <;> rfl

omit [Whittle] in
theorem OpKind.call_rewriteParts (rule : Op → Option Op) (kind : OpKind) :
    (kind.rewriteParts rule).call = kind.call.mapInputs (Op.rewrite rule) := by
  cases kind <;> rfl

omit [Whittle] in
theorem Call.mapInputs_mapInputs (f g : Op → Op) (call : Call) :
    (call.mapInputs f).mapInputs g = call.mapInputs (g ∘ f) := by
  cases call <;> rfl

/-- The sources that `f` puts into the tree have the columns of those they replace and
others under names that are not in the tree, and the sub-operators of modify come out
with the headers they had. -/
structure Op.Grows (fresh : Finset AttributeName) (f : Source → Source) (op : Op) : Prop where
  unused : ∀ node, op.Node node → ∀ name ∈ node.schema.names, name ∉ fresh
  sources : ∀ node src, op.Node node → node.kind = .source src →
    (f src).schema.Widens fresh src.schema
  subs : ∀ node input path sub, op.Node node → node.kind = .modify input path sub →
    outcome (sub.relocate f).replay = .ok sub.schema

theorem Op.Grows.part {fresh : Finset AttributeName} {f : Source → Source} {op part : Op}
    (hop : op.Grows fresh f) (hpart : part ∈ op.kind.parts) : part.Grows fresh f where
  unused node hnode := hop.unused node (.inside hpart hnode)
  sources node src hnode := hop.sources node src (.inside hpart hnode)
  subs node input path sub hnode := hop.subs node input path sub (.inside hpart hnode)

/-- The call of the node over its inputs as they are rebuilt. -/
def Op.rebuilt (f : Source → Source) (op : Op) : Call :=
  op.kind.call.mapInputs fun part => (part.relocate f).replayed

/-- Rebuilding fails at a node of the tree: all of its inputs are rebuilt, and its call over
them ends with the error, because it rejects fresh columns. -/
def Op.RejectsNew (fresh : Finset AttributeName) (f : Source → Source) (op : Op) (e : OpError) :
    Prop :=
  ∃ node, op.Node node ∧
    (∀ part ∈ node.kind.parts, ∃ built, (part.relocate f).replay = .ok built) ∧
    (node.rebuilt f).run = .error e ∧ (node.rebuilt f).RejectsNew fresh e

/-- What fails in a part of the tree fails in the tree. -/
theorem Op.RejectsNew.inside {fresh : Finset AttributeName} {f : Source → Source} {op part : Op}
    {e : OpError} (hpart : part ∈ op.kind.parts) (hrejects : part.RejectsNew fresh f e) :
    op.RejectsNew fresh f e := by
  obtain ⟨node, hnode, hfails⟩ := hrejects
  exact ⟨node, .inside hpart hnode, hfails⟩

/-- One node: over inputs that are rebuilt with fresh columns it is rebuilt, or fails
because it rejects them. -/
theorem Op.rebuilt_still {fresh : Finset AttributeName} {f : Source → Source} {op : Op}
    (hrun : op.kind.call.run = .ok op) (hgrows : op.Grows fresh f)
    (hparts : ∀ part ∈ op.kind.parts, (part.relocate f).replay = .ok (part.relocate f).replayed ∧
      (part.relocate f).replayed.schema.Widens fresh part.schema) :
    Safe (op.RejectsNew fresh f) (fun op' => op'.schema.Widens fresh op.schema)
      (op.rebuilt f).run := by
  have hstill : StillBuilds fresh (op.rebuilt f) op.schema := by
    apply Call.run_still hrun (hgrows.unused op (.root op))
    · intro input hinput
      rw [OpKind.inputs_call] at hinput
      exact (hparts input hinput).2
    · intro input path sub hcall
      have hmodify : op.kind = .modify input path sub :=
        (Call.kind_of_run hrun).trans (congrArg Call.kind hcall)
      obtain ⟨built, hreplay, hschema⟩ :=
        outcome_eq_ok.mp (hgrows.subs op input path sub (.root op) hmodify)
      rw [← hschema]
      exact congrArg schema (replayed_eq hreplay)
  apply (safe_outcome.mp hstill).mono
  · intro built _ hwide
    exact hwide
  · intro e herror hrejects
    exact ⟨op, .root op, fun part hpart => ⟨_, (hparts part hpart).1⟩, herror, hrejects⟩

/-- The parts that are put over the new sources are rebuilt, or fail inside the tree. -/
theorem Op.parts_still {fresh : Finset AttributeName} {f : Source → Source} {op : Op}
    (hparts : ∀ part ∈ op.kind.parts, Safe (part.RejectsNew fresh f)
      (fun built => built.schema.Widens fresh part.schema) (part.relocate f).replay) :
    ∀ part ∈ (op.kind.rewriteParts (atLeaves f)).parts,
      Safe (op.RejectsNew fresh f) (fun built => built.schema.Widens fresh part.schema)
        part.replay := by
  intro part hpart
  rw [OpKind.parts_rewriteParts] at hpart
  obtain ⟨old, hold, rfl⟩ := List.mem_map.mp hpart
  have hschema := schema_relocate f old
  rw [relocate] at hschema
  rw [hschema]
  apply Safe.mono (hparts old hold)
  · intro built _ hwide
    exact hwide
  · intro e _ hrejects
    exact hrejects.inside hold

theorem Op.relocate_still {fresh : Finset AttributeName} {f : Source → Source} {op : Op}
    (hop : op.Reachable) (hgrows : op.Grows fresh f) :
    Safe (op.RejectsNew fresh f) (fun op' => op'.schema.Widens fresh op.schema)
      (op.relocate f).replay := by
  revert hgrows
  apply Construction.Reachable.induction (P := fun op => op.Grows fresh f →
    Safe (op.RejectsNew fresh f) (fun op' => op'.schema.Widens fresh op.schema)
      (op.relocate f).replay) _ hop
  intro call op ih hrun hgrows
  have hkind := Call.kind_of_run hrun
  rcases Call.relocate_cases f call with ⟨src, rfl⟩ | ⟨-, hinner⟩
  · obtain rfl := Except.ok.inj hrun
    exact hgrows.sources _ src (.root _) rfl
  · rw [← hkind] at hinner
    have hkept : atLeaves f (op.rewriteInside (atLeaves f)) = none :=
      atLeaves_eq_none (OpKind.rewriteParts_ne_source hinner)
    rw [relocate, rewrite_eq, hkept, Option.getD_none, replay_eq]
    have hinputs : ∀ part ∈ op.kind.parts, Safe (part.RejectsNew fresh f)
        (fun built => built.schema.Widens fresh part.schema) (part.relocate f).replay := by
      intro part hpart
      have hinput : part ∈ call.inputs := by rwa [← call.parts_kind, ← hkind]
      exact ih part hinput (hgrows.part hpart)
    apply OpKind.replay_safe (parts_still hinputs)
    intro hbuilt
    rw [OpKind.call_rewriteParts, Call.mapInputs_mapInputs]
    apply rebuilt_still (run_call hrun) hgrows
    intro part hpart
    have hpart' : part.relocate f ∈ (op.kind.rewriteParts (atLeaves f)).parts := by
      rw [OpKind.parts_rewriteParts]
      exact List.mem_map_of_mem hpart
    obtain ⟨hreplay, hwide⟩ := hbuilt _ hpart'
    rw [schema_relocate] at hwide
    exact ⟨hreplay, hwide⟩

/-- Queries over sources that grow. Rebuilt over sources with more columns, under names
that none of its headers has, a reachable tree comes out reachable with the columns it
had in their order and fresh ones among them, or one of its nodes rejects fresh columns:
a product or a join whose rebuilt sides share a fresh name, a set operator whose rebuilt
sides grew apart, or a call that adds columns to rebuilt inputs without room for them. -/
theorem schema_evolution {fresh : Finset AttributeName} {f : Source → Source} {op : Op}
    (hop : op.Reachable) (hgrows : op.Grows fresh f) :
    (∃ op', (op.relocate f).replay = .ok op' ∧ op'.Reachable ∧
        op'.schema.Widens fresh op.schema) ∨
      ∃ e, (op.relocate f).replay = .error e ∧ op.RejectsNew fresh f e := by
  have hstill := Op.relocate_still hop hgrows
  cases hreplay : (op.relocate f).replay with
  | ok op' =>
      rw [hreplay] at hstill
      exact Or.inl ⟨op', rfl, Op.reachable_of_replay _ hreplay, hstill⟩
  | error e =>
      rw [hreplay] at hstill
      exact Or.inr ⟨e, rfl, hstill⟩

end Kernel

namespace Catalogue

/-- The users with their orders. -/
def ordered : Op :=
  ⟨.join users orders .inner .natural,
    .ofAttributes [⟨id, .int64⟩, ⟨name, .string⟩, ⟨total, .int64⟩] (by decide)⟩

theorem reachable_ordered : ordered.Reachable :=
  Op.reachable_of_run (.join users orders .inner .natural) rfl
    (by simp [Call.inputs, reachable_users, reachable_orders])

def notedUsers : Schema :=
  .ofAttributes [⟨id, .int64⟩, ⟨note, .string⟩, ⟨name, .string⟩] (by decide)

/-- The orders with a note that is a text. -/
def textNotes : Schema :=
  .ofAttributes [⟨id, .int64⟩, ⟨total, .int64⟩, ⟨note, .string⟩] (by decide)

/-- The orders with a note that is a number. -/
def numberNotes : Schema :=
  .ofAttributes [⟨id, .int64⟩, ⟨note, .int64⟩, ⟨total, .int64⟩] (by decide)

theorem widens_textNotes : textNotes.Widens {note} orders.schema := by decide

theorem widens_numberNotes : numberNotes.Widens {note} orders.schema := by decide

theorem widens_notedUsers : notedUsers.Widens {note} users.schema := by decide

/-- The users with notes that are texts, and the orders under the given header. -/
def noted (notes : Schema) (src : Source) : Source :=
  if src.schema.contains name then .table notedUsers ⟨"noted_users", by decide⟩
  else .table notes ⟨"noted_orders", by decide⟩

/-- The three nodes of the join. -/
theorem node_ordered {node : Op} (hnode : ordered.Node node) :
    node = ordered ∨ node = users ∨ node = orders := by
  cases hnode with
  | root => exact Or.inl rfl
  | inside hpart hinner =>
      simp only [kernel, ordered, OpKind.parts, List.mem_cons, List.not_mem_nil,
        or_false] at hpart
      rcases hpart with rfl | rfl
      all_goals cases hinner with
        | root => simp
        | inside hpart _ => simp [kernel, users, orders, Op.source, OpKind.parts] at hpart

theorem grows_ordered {notes : Schema} (hnotes : notes.Widens {note} orders.schema) :
    ordered.Grows {note} (noted notes) where
  unused node hnode := by
    rcases node_ordered hnode with rfl | rfl | rfl <;> decide
  sources node src hnode hkind := by
    rcases node_ordered hnode with rfl | rfl | rfl
    · simp [ordered] at hkind
    · obtain rfl := OpKind.source.inj hkind
      exact widens_notedUsers
    · obtain rfl := OpKind.source.inj hkind
      exact hnotes
  subs node input path sub hnode hkind := by
    rcases node_ordered hnode with rfl | rfl | rfl
    · simp [ordered] at hkind
    · simp [users, Op.source] at hkind
    · simp [orders, Op.source] at hkind

end Catalogue

/-- With notes of one type the users are joined to their orders on the notes, too. With
notes of two types the join rejects them. -/
theorem schema_evolution_ordered :
    (∃ op', (Catalogue.ordered.relocate (Catalogue.noted Catalogue.textNotes)).replay = .ok op' ∧
      op'.Reachable ∧ op'.schema.Widens {Catalogue.note} Catalogue.ordered.schema) ∧
    Catalogue.ordered.RejectsNew {Catalogue.note} (Catalogue.noted Catalogue.numberNotes)
      (.joinTypeMismatch Catalogue.note) := by
  have htext := Catalogue.grows_ordered Catalogue.widens_textNotes
  have hnumber := Catalogue.grows_ordered Catalogue.widens_numberNotes
  obtain ⟨built, hbuilt⟩ : ∃ op',
      (Catalogue.ordered.relocate (Catalogue.noted Catalogue.textNotes)).replay = .ok op' :=
    ⟨_, rfl⟩
  have hmismatch : (Catalogue.ordered.relocate (Catalogue.noted Catalogue.numberNotes)).replay =
      .error (.joinTypeMismatch Catalogue.note) := rfl
  constructor
  · rcases schema_evolution Catalogue.reachable_ordered htext with h | ⟨e, he, -⟩
    · exact h
    · rw [hbuilt] at he
      cases he
  · rcases schema_evolution Catalogue.reachable_ordered hnumber with
      ⟨op', hop', -⟩ | ⟨e, he, hrejects⟩
    · rw [hmismatch] at hop'
      cases hop'
    · rw [hmismatch] at he
      rwa [Except.error.inj he]

end AxiomCore
