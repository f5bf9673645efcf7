import AxiomCore.Constraints
import AxiomCore.JoinRows
import AxiomCore.Nesting
import Mathlib.Logic.Relation

/-!
Where the columns of a tree come from. A node either introduces a column or
passes it on from its inputs, under the same name or, for a rename, under
another. Following a column down the tree ends at a node that introduced it.
The type in the cached header is the one it was given there, and so is every
value that the tree emits under it, apart from the nulls of outer joins. A
constraint on a single attribute looks at nothing but the value, so it holds of
a column when it holds where the column comes from.
-/

namespace AxiomCore

open Checked Construction Refined

namespace OpKind

/-- The columns of its inputs that a node passes on under a name; none for a
column that the node introduces. -/
def passed : OpKind → AttributeName → List (Op × AttributeName)
  | .source _, _ => []
  | .project input _, name | .restrict input _, name | .order input _, name
  | .limit input _ _, name => [(input, name)]
  | .rename input fromName toName, name => [(input, if name = toName then fromName else name)]
  | .extend input new _, name | .nest input _ new, name =>
      if name = new then [] else [(input, name)]
  -- An unmatched row of right fills a shared column with its own value.
  | .join left right kind _, name =>
      (if name ∈ left.schema.names then [(left, name)] else []) ++
        if name ∈ right.schema.names ∧ (kind.keepsRight = true ∨ name ∉ left.schema.names) then
          [(right, name)]
        else []
  | .product left right, name =>
      if name ∈ left.schema.names then [(left, name)] else [(right, name)]
  | .union left right, name => [(left, name), (right, name)]
  | .intersect left _, name | .difference left _, name => [(left, name)]
  | .summarize input keys _, name => if name ∈ keys.items then [(input, name)] else []
  | .modify input path _, name => if path.target = some name then [] else [(input, name)]
  | .unnest input path, name =>
      if path.target ≠ some name ∧ name ∈ input.schema.names then [(input, name)] else []

/-- The node introduces the column, with the type it has from then on. -/
def Introduces : OpKind → Attribute → Prop
  | .source src, a => a ∈ src.schema.attributes
  | .extend input name expr, a => a.name = name ∧ infer expr input.schema = .ok a.ty
  | .summarize input _ aggs, a =>
      ∃ agg ∈ aggs.items, agg.name = a.name ∧ aggTy agg.agg input.schema = .ok a.ty
  | .modify _ path sub, a => path.target = some a.name ∧ a.ty = .relation sub.schema
  | .unnest input path, a => ∃ target nested, path.target = some target ∧
      ⟨target, .relation nested⟩ ∈ input.schema.attributes ∧ a ∈ nested.attributes
  | .nest input attrs into, a => a.name = into ∧ ∃ nested, a.ty = .relation nested ∧
      input.schema.Selects attrs.items nested.attributes
  | _, _ => False

/-- An outer join pads the column. -/
def Pads : OpKind → AttributeName → Prop
  | .join left right kind _, name =>
      kind.keepsLeft = true ∧ name ∉ left.schema.names ∨
        kind.keepsRight = true ∧ name ∉ right.schema.names
  | _, _ => False

/-- The node introduces the column, or passes on columns of its parts that have
the same type. -/
def Given (kind : OpKind) (a : Attribute) : Prop :=
  (kind.passed a.name = [] ∧ kind.Introduces a) ∨
    kind.passed a.name ≠ [] ∧ ∀ part name, (part, name) ∈ kind.passed a.name →
      part ∈ kind.parts ∧ ⟨name, a.ty⟩ ∈ part.schema.attributes

theorem Given.of_passed {kind : OpKind} {a : Attribute} {part : Op} {name : AttributeName}
    (hpassed : kind.passed a.name = [(part, name)]) (hpart : part ∈ kind.parts)
    (hcolumn : ⟨name, a.ty⟩ ∈ part.schema.attributes) : kind.Given a := by
  right
  rw [hpassed]
  refine ⟨List.cons_ne_nil _ _, ?_⟩
  intro part' name' hmem
  obtain ⟨rfl, rfl⟩ := Prod.mk.inj (List.mem_singleton.mp hmem)
  exact ⟨hpart, hcolumn⟩

end OpKind

/-- No column of the nested relation has the name of a column that an unnest
leaves as it is. -/
theorem Op.unnested_ne {input op : Op} {nested : Schema} {target : AttributeName}
    (hmem : ⟨target, .relation nested⟩ ∈ input.schema.attributes)
    (hcolumns : op.schema.attributes = input.schema.attributes.flatMap fun a =>
      if a.name = target then nested.attributes else [a])
    {a b : Attribute} (ha : a ∈ nested.attributes) (hb : b ∈ input.schema.attributes)
    (hother : b.name ≠ target) : a.name ≠ b.name := by
  have hnodup := op.schema.nodup_names
  rw [Schema.names, hcolumns] at hnodup
  have hne : (⟨target, .relation nested⟩ : Attribute) ≠ b := by
    intro hsame
    exact hother (hsame ▸ rfl)
  apply Keyed.key_ne_of_blocks hnodup hmem hb hne
  · simpa using ha
  · simp [hother]

section Headers

variable [Whittle] {input left right op : Op} {a : Attribute}

/-- A column of a join is a column, of the same type, of each side that has the
name. -/
theorem Op.given_join {kind : JoinKind} {joinOn : JoinOn}
    (hjoin : left.join right kind joinOn = .ok op) (ha : a ∈ op.schema.attributes) :
    (OpKind.join left right kind joinOn).Given a := by
  have hsides : ∀ part : Op, (∀ b ∈ part.schema.attributes, b ∈ op.schema.attributes) →
      a.name ∈ part.schema.names → ⟨a.name, a.ty⟩ ∈ part.schema.attributes := by
    intro part hkept hname
    obtain ⟨ty, hty⟩ := Schema.mem_names_iff.mp hname
    have hsame : (⟨a.name, ty⟩ : Attribute) = a := Schema.eq_of_mem (hkept _ hty) ha rfl
    rwa [hsame] at hty
  right
  constructor
  · intro hnone
    obtain ⟨hleft, hright⟩ := List.append_eq_nil_iff.mp hnone
    have hnotLeft : a.name ∉ left.schema.names := by
      intro h
      simp [h] at hleft
    rw [(Op.join_columns hjoin).2, List.mem_append, List.mem_filter] at ha
    rcases ha with ha | ⟨ha, -⟩
    · exact hnotLeft (Schema.mem_names_of_mem ha)
    · simp [hnotLeft, Schema.mem_names_of_mem ha] at hright
  · intro part name hmem
    rcases List.mem_append.mp hmem with hmem | hmem
    · obtain ⟨hname, hpart⟩ := List.mem_ite_nil_right.mp hmem
      obtain ⟨rfl, rfl⟩ := Prod.mk.inj (List.mem_singleton.mp hpart)
      exact ⟨by simp [OpKind.parts], hsides part (Op.join_keeps_left hjoin) hname⟩
    · obtain ⟨⟨hname, -⟩, hpart⟩ := List.mem_ite_nil_right.mp hmem
      obtain ⟨rfl, rfl⟩ := Prod.mk.inj (List.mem_singleton.mp hpart)
      exact ⟨by simp [OpKind.parts], hsides part (Op.join_keeps_right hjoin) hname⟩

omit [Whittle] in
theorem Op.given_source {src : Source} (ha : a ∈ (Op.source src).schema.attributes) :
    (OpKind.source src).Given a :=
  Or.inl ⟨rfl, ha⟩

theorem Op.given_project {attrs : AttributeSet} (hbuilt : input.project attrs = .ok op)
    (ha : a ∈ op.schema.attributes) : (OpKind.project input attrs).Given a := by
  obtain ⟨-, hselect⟩ := Op.project_eq_ok.mp hbuilt
  exact .of_passed rfl (by simp [OpKind.parts]) (hselect.mem_iff.mp ha).1

theorem Op.given_rename {fromName toName : AttributeName}
    (hbuilt : input.rename fromName toName = .ok op) (ha : a ∈ op.schema.attributes) :
    (OpKind.rename input fromName toName).Given a := by
  obtain ⟨-, hto, -, hcolumns⟩ := Op.rename_eq_ok.mp hbuilt
  rw [hcolumns, List.mem_map] at ha
  obtain ⟨b, hb, rfl⟩ := ha
  by_cases hfrom : b.name = fromName
  · subst hfrom
    refine OpKind.Given.of_passed (?_ : _ = [(input, b.name)]) ?_ ?_
    · simp [OpKind.passed]
    · simp [OpKind.parts]
    · simpa using hb
  · have hne : b.name ≠ toName := by
      intro hsame
      rcases hto with hto | hto
      · exact hfrom (hsame.trans hto.symm)
      · exact hto (hsame ▸ Schema.mem_names_of_mem hb)
    rw [if_neg hfrom]
    refine OpKind.Given.of_passed (?_ : _ = [(input, b.name)]) ?_ ?_
    · simp [OpKind.passed, hne]
    · simp [OpKind.parts]
    · exact hb

theorem Op.given_extend {new : AttributeName} {expr : Expression}
    (hbuilt : input.extend new expr = .ok op) (ha : a ∈ op.schema.attributes) :
    (OpKind.extend input new expr).Given a := by
  obtain ⟨ty, hnew, -, hty, -, hcolumns⟩ := Op.extend_eq_ok.mp hbuilt
  rw [hcolumns, List.mem_append, List.mem_singleton] at ha
  rcases ha with ha | rfl
  · have hne : a.name ≠ new := by
      intro hsame
      exact hnew (hsame ▸ Schema.mem_names_of_mem ha)
    exact .of_passed (by simp [OpKind.passed, hne]) (by simp [OpKind.parts]) ha
  · exact Or.inl ⟨by simp [OpKind.passed], rfl, hty⟩

theorem Op.given_modify {path : AnyPath} {sub : Op} (hbuilt : input.modify path sub = .ok op)
    (ha : a ∈ op.schema.attributes) : (OpKind.modify input path sub).Given a := by
  obtain ⟨target, nested, hpath, -, -, hcolumns⟩ := Op.modify_eq_ok.mp hbuilt
  rw [hcolumns, List.mem_map] at ha
  obtain ⟨b, hb, rfl⟩ := ha
  by_cases htarget : b.name = target
  · rw [if_pos htarget]
    exact Or.inl ⟨by simp [OpKind.passed, hpath, htarget], htarget ▸ hpath, rfl⟩
  · rw [if_neg htarget]
    refine OpKind.Given.of_passed (?_ : _ = [(input, b.name)]) ?_ ?_
    · simp [OpKind.passed, hpath, Ne.symm htarget]
    · simp [OpKind.parts]
    · exact hb

theorem Op.given_unnest {path : AnyPath} (hbuilt : input.unnest path = .ok op)
    (ha : a ∈ op.schema.attributes) : (OpKind.unnest input path).Given a := by
  obtain ⟨target, nested, hpath, hmem, -, hcolumns⟩ := Op.unnest_eq_ok.mp hbuilt
  have hblock := hcolumns ▸ ha
  obtain ⟨b, hb, hblock⟩ := List.mem_flatMap.mp hblock
  by_cases htarget : b.name = target
  · rw [if_pos htarget] at hblock
    left
    constructor
    · have hne : target ≠ a.name → a.name ∉ input.schema.names := by
        intro hne hname
        obtain ⟨ty, hty⟩ := Schema.mem_names_iff.mp hname
        exact Op.unnested_ne hmem hcolumns hblock hty hne.symm rfl
      simpa [OpKind.passed, hpath] using hne
    · exact ⟨target, nested, hpath, hmem, hblock⟩
  · rw [if_neg htarget, List.mem_singleton] at hblock
    subst hblock
    have hname := Schema.mem_names_of_mem hb
    refine OpKind.Given.of_passed (?_ : _ = [(input, a.name)]) ?_ ?_
    · simp [OpKind.passed, hpath, Ne.symm htarget, hname]
    · simp [OpKind.parts]
    · exact hb

theorem Op.given_nest {attrs : AttributeSet} {into : AttributeName}
    (hbuilt : input.nest attrs into = .ok op) (ha : a ∈ op.schema.attributes) :
    (OpKind.nest input attrs into).Given a := by
  obtain ⟨nested, hselect, hinto, -, hcolumns⟩ := Op.nest_eq_ok.mp hbuilt
  rw [hcolumns, List.mem_append, List.mem_singleton] at ha
  rcases ha with ha | rfl
  · have hne := Op.kept_ne_into hinto a ha
    exact .of_passed (by simp [OpKind.passed, hne]) (by simp [OpKind.parts])
      (List.mem_filter.mp ha).1
  · exact Or.inl ⟨by simp [OpKind.passed], rfl, nested, rfl, hselect⟩

theorem Op.given_summarize {keys : GroupingSet} {aggs : NamedAggSet}
    (hbuilt : input.summarize keys aggs = .ok op) (ha : a ∈ op.schema.attributes) :
    (OpKind.summarize input keys aggs).Given a := by
  obtain ⟨grouped, computed, hselect, haggs, -, hcolumns⟩ := Op.summarize_eq_ok.mp hbuilt
  rw [hcolumns, List.mem_append] at ha
  rcases ha with ha | ha
  · obtain ⟨hmem, hkey⟩ := hselect.mem_iff.mp ha
    exact .of_passed (by simp [OpKind.passed, hkey]) (by simp [OpKind.parts]) hmem
  · obtain ⟨agg, hagg, hcolumn⟩ := exists_output haggs.flip ha
    obtain ⟨hkeys, hname, hty⟩ := Op.aggregateColumn_eq_ok.mp hcolumn
    rw [← hname] at hkeys
    exact Or.inl ⟨by simp [OpKind.passed, hkeys], agg, hagg, hname.symm, hty⟩

omit [Whittle] in
theorem Op.given_union (hsame : left.schema = right.schema) (ha : a ∈ left.schema.attributes) :
    (OpKind.union left right).Given a := by
  right
  refine ⟨List.cons_ne_nil _ _, ?_⟩
  intro part name hmem
  simp only [OpKind.passed, List.mem_cons, Prod.mk.injEq, List.not_mem_nil, or_false] at hmem
  rcases hmem with ⟨rfl, rfl⟩ | ⟨rfl, rfl⟩
  · exact ⟨by simp [OpKind.parts], ha⟩
  · exact ⟨by simp [OpKind.parts], hsame ▸ ha⟩

theorem Op.given_product (hbuilt : left.product right = .ok op) (ha : a ∈ op.schema.attributes) :
    (OpKind.product left right).Given a := by
  obtain ⟨-, hcolumns⟩ := Op.product_eq_ok.mp hbuilt
  have hside := hcolumns ▸ ha
  rcases List.mem_append.mp hside with hl | hr
  · have hname := Schema.mem_names_of_mem hl
    exact .of_passed (by simp [OpKind.passed, hname]) (by simp [OpKind.parts]) hl
  · have hname : a.name ∉ left.schema.names := fun h =>
      Op.disjoint_of_concat hcolumns _ h (Schema.mem_names_of_mem hr)
    exact .of_passed (by simp [OpKind.passed, hname]) (by simp [OpKind.parts]) hr

/-- One node: each column of its header is introduced there or passed on with
its type. -/
theorem Op.given_of_run (hrun : op.kind.call.run = .ok op) (ha : a ∈ op.schema.attributes) :
    op.kind.Given a := by
  obtain ⟨kind, schema⟩ := op
  cases kind with
  | source src =>
      obtain ⟨-, rfl⟩ := Op.mk.inj (Except.ok.inj hrun)
      exact given_source ha
  | restrict input predicate =>
      obtain ⟨-, hop⟩ := Op.restrict_eq_ok.mp hrun
      obtain ⟨-, rfl⟩ := Op.mk.inj hop
      exact .of_passed rfl (by simp [OpKind.parts]) ha
  | order input keys =>
      obtain ⟨-, rfl⟩ := Op.mk.inj (Except.ok.inj hrun)
      exact .of_passed rfl (by simp [OpKind.parts]) ha
  | limit input offset count =>
      obtain ⟨-, rfl⟩ := Op.mk.inj (Except.ok.inj hrun)
      exact .of_passed rfl (by simp [OpKind.parts]) ha
  | union left right =>
      obtain ⟨hsame, hop⟩ := Op.setOperator_eq_ok.mp hrun
      obtain ⟨-, rfl⟩ := Op.mk.inj hop
      exact given_union hsame ha
  | intersect left right | difference left right =>
      obtain ⟨-, hop⟩ := Op.setOperator_eq_ok.mp hrun
      obtain ⟨-, rfl⟩ := Op.mk.inj hop
      exact .of_passed rfl (by simp [OpKind.parts]) ha
  | project input attrs => exact given_project hrun ha
  | rename input fromName toName => exact given_rename hrun ha
  | extend input new expr => exact given_extend hrun ha
  | modify input path sub => exact given_modify hrun ha
  | unnest input path => exact given_unnest hrun ha
  | nest input attrs into => exact given_nest hrun ha
  | summarize input keys aggs => exact given_summarize hrun ha
  | product left right => exact given_product hrun ha
  | join left right kind joinOn => exact given_join hrun ha

end Headers

section Rows

variable {backend : Backend}

/-- Where a value of a row comes from that a node emits: from a row of an input,
under the name there, unless the node introduces the column or pads it. -/
inductive Supplied (backend : Backend) (op : Op) (v : Value) (a : Attribute) : Prop
  | introduced : op.kind.passed a.name = [] → Supplied backend op v a
  | passed {part name} {row : Row} : (part, name) ∈ op.kind.passed a.name →
      Emits backend part row → row.valueOf part.schema name = some v → Supplied backend op v a
  | padded : op.kind.Pads a.name → v = .null → Supplied backend op v a

/-- A row of the part holds the value in the column. -/
def CellOf (backend : Backend) (part : Op) (v : Value) (a : Attribute) : Prop :=
  a ∈ part.schema.attributes ∧
    ∃ row, Emits backend part row ∧ row.valueOf part.schema a.name = some v

/-- A node that passes a column on under its own name supplies every value that
the part has there. -/
theorem CellOf.supplied {op part : Op} {v : Value} {a : Attribute}
    (hcell : CellOf backend part v a) (hpassed : (part, a.name) ∈ op.kind.passed a.name) :
    Supplied backend op v a := by
  obtain ⟨-, row, hrow, hvalue⟩ := hcell
  exact .passed hpassed hrow hvalue

theorem Emits.cells {part : Op} {row : Row} (hrow : Emits backend part row)
    (hpart : part.Fits backend) :
    List.Forall₂ (CellOf backend part) row.asSlice part.schema.attributes := by
  apply (hpart row hrow).cells.imp
  intro v a h
  exact ⟨h.1, row, hrow, h.2⟩

variable {input left right : Op} {s : Schema} {row : Row}

/-- A node under the header of a part may emit the rows of the part. -/
theorem Emits.supplied_unchanged {kind : OpKind} {part : Op} (hpart : part.Fits backend)
    (hpassed : ∀ name, (part, name) ∈ kind.passed name) (hrow : Emits backend part row) :
    List.Forall₂ (Supplied backend ⟨kind, part.schema⟩) row.asSlice part.schema.attributes := by
  apply (hrow.cells hpart).imp
  intro v a hcell
  exact hcell.supplied (hpassed a.name)

theorem Emits.supplied_source {src : Source} (hfits : row.Fits s) :
    List.Forall₂ (Supplied backend ⟨.source src, s⟩) row.asSlice s.attributes := by
  apply hfits.imp
  intro v a _
  exact .introduced rfl

variable [Whittle]

theorem Emits.supplied_project {attrs : AttributeSet}
    (hbuilt : input.project attrs = .ok ⟨.project input attrs, s⟩)
    (hemits : Emits backend ⟨.project input attrs, s⟩ row) :
    List.Forall₂ (Supplied backend ⟨.project input attrs, s⟩) row.asSlice s.attributes := by
  obtain ⟨-, hselect⟩ := Op.project_eq_ok.mp hbuilt
  cases hemits with
  | project hrow hvalues =>
      refine Keyed.forall₂_common (fun name v a hvalue hfind => ?_) hvalues hselect
      obtain ⟨-, hname⟩ := Keyed.find_mem hfind
      exact .passed (by simp [OpKind.passed]) hrow (hname ▸ hvalue)

theorem Emits.supplied_rename {fromName toName : AttributeName}
    (hbuilt : input.rename fromName toName = .ok ⟨.rename input fromName toName, s⟩)
    (hinput : input.Fits backend) (hemits : Emits backend ⟨.rename input fromName toName, s⟩ row) :
    List.Forall₂ (Supplied backend ⟨.rename input fromName toName, s⟩) row.asSlice
      s.attributes := by
  obtain ⟨-, hto, -, hcolumns⟩ := Op.rename_eq_ok.mp hbuilt
  rw [hcolumns, List.forall₂_map_right_iff]
  cases hemits with
  | rename hrow =>
      apply (hrow.cells hinput).imp
      intro v a hcell
      by_cases hfrom : a.name = fromName
      · obtain ⟨-, row', hrow', hvalue⟩ := hcell
        rw [if_pos hfrom]
        exact .passed (by simp [OpKind.passed, hfrom]) hrow' hvalue
      · have hne : a.name ≠ toName := by
          intro hname
          rcases hto with hto | hto
          · exact hfrom (hname.trans hto.symm)
          · exact hto (hname ▸ Schema.mem_names_of_mem hcell.1)
        rw [if_neg hfrom]
        exact hcell.supplied (by simp [OpKind.passed, hne])

theorem Emits.supplied_extend {new : AttributeName} {expr : Expression}
    (hbuilt : input.extend new expr = .ok ⟨.extend input new expr, s⟩)
    (hinput : input.Fits backend) (hemits : Emits backend ⟨.extend input new expr, s⟩ row) :
    List.Forall₂ (Supplied backend ⟨.extend input new expr, s⟩) row.asSlice s.attributes := by
  obtain ⟨ty, hnew, -, -, -, hcolumns⟩ := Op.extend_eq_ok.mp hbuilt
  cases hemits with
  | extend hrow heval hout =>
      rw [hout, hcolumns]
      refine List.rel_append ((hrow.cells hinput).imp ?_) (.cons (.introduced ?_) .nil)
      · intro w a hcell
        have hne : a.name ≠ new := by
          intro hname
          exact hnew (hname ▸ Schema.mem_names_of_mem hcell.1)
        exact hcell.supplied (by simp [OpKind.passed, hne])
      · simp [OpKind.passed]

theorem Emits.supplied_product
    (hbuilt : left.product right = .ok ⟨.product left right, s⟩) (hleft : left.Fits backend)
    (hright : right.Fits backend) (hemits : Emits backend ⟨.product left right, s⟩ row) :
    List.Forall₂ (Supplied backend ⟨.product left right, s⟩) row.asSlice s.attributes := by
  obtain ⟨-, hcolumns⟩ := Op.product_eq_ok.mp hbuilt
  have hdisjoint := Op.disjoint_of_concat hcolumns
  cases hemits with
  | product hl hr hout =>
      rw [hout, hcolumns]
      refine List.rel_append ((hl.cells hleft).imp ?_) ((hr.cells hright).imp ?_)
      · intro v a hcell
        have hname := Schema.mem_names_of_mem hcell.1
        exact hcell.supplied (by simp [OpKind.passed, hname])
      · intro v a hcell
        have hname : a.name ∉ left.schema.names := fun h =>
          hdisjoint _ h (Schema.mem_names_of_mem hcell.1)
        exact hcell.supplied (by simp [OpKind.passed, hname])

theorem Emits.supplied_join {kind : JoinKind} {joinOn : JoinOn}
    (hbuilt : left.join right kind joinOn = .ok ⟨.join left right kind joinOn, s⟩)
    (hleft : left.Fits backend) (hright : right.Fits backend)
    (hemits : Emits backend ⟨.join left right kind joinOn, s⟩ row) :
    List.Forall₂ (Supplied backend ⟨.join left right kind joinOn, s⟩) row.asSlice s.attributes := by
  have hcolumns := (Op.join_columns hbuilt).2
  have hleftCell : ∀ v a, CellOf backend left v a →
      Supplied backend ⟨.join left right kind joinOn, s⟩ v a := by
    intro v a hcell
    have hname := Schema.mem_names_of_mem hcell.1
    exact hcell.supplied (by simp [OpKind.passed, hname])
  cases hemits with
  | paired hl hr hout hpairs =>
      have hkept := Keyed.forall₂_mem_right <|
        Keyed.forall₂_pick (hr.cells hright) fun a => a.name ∉ left.schema.names
      rw [hout, hcolumns]
      refine List.rel_append ((hl.cells hleft).imp hleftCell) (hkept.imp ?_)
      intro v a h
      obtain ⟨hmem, hcell⟩ := h
      have hname : a.name ∉ left.schema.names := by simpa using (List.mem_filter.mp hmem).2
      have hright := Schema.mem_names_of_mem hcell.1
      exact hcell.supplied (by simp [OpKind.passed, hname, hright])
  | leftUnmatched hkeeps hl hout =>
      rw [hout, hcolumns, leftPadded]
      refine List.rel_append ((hl.cells hleft).imp hleftCell) ?_
      rw [List.forall₂_map_left_iff, List.forall₂_same]
      intro a ha
      have hname : a.name ∉ left.schema.names := by simpa using (List.mem_filter.mp ha).2
      exact .padded (Or.inl ⟨hkeeps, hname⟩) rfl
  | rightUnmatched hkeeps hr hout =>
      rw [hout, rightPadded, List.forall₂_map_left_iff, List.forall₂_same]
      intro a ha
      by_cases hname : a.name ∈ right.schema.names
      · obtain ⟨v, hv⟩ := (hright _ hr).exists_valueOf hname
        rw [hv, Option.getD_some]
        refine .passed (?_ : (right, a.name) ∈ _) hr hv
        simp [OpKind.passed, hname, hkeeps]
      · rw [Row.valueOf_eq_none hname, Option.getD_none]
        exact .padded (Or.inr ⟨hkeeps, hname⟩) rfl

theorem Emits.supplied_summarize {keys : GroupingSet} {aggs : NamedAggSet}
    (hbuilt : input.summarize keys aggs = .ok ⟨.summarize input keys aggs, s⟩)
    (hemits : Emits backend ⟨.summarize input keys aggs, s⟩ row) :
    List.Forall₂ (Supplied backend ⟨.summarize input keys aggs, s⟩) row.asSlice s.attributes := by
  obtain ⟨columns, outputs, hselect, houtputs, -, hcolumns⟩ := Op.summarize_eq_ok.mp hbuilt
  cases hemits with
  | @summarize _ _ _ _ grouped computed group _ hgroup hvalues hempty haggs hout =>
      rw [hout, hcolumns]
      refine List.rel_append ?_ ?_
      · cases group with
        | nil =>
            obtain ⟨hkeys, rfl⟩ := hempty rfl
            rw [hkeys] at hselect
            obtain rfl := List.forall₂_nil_left_iff.mp hselect
            exact .nil
        | cons first rest =>
            have hfirst := (List.forall₂_and_left _ _).mpr
              ⟨fun _ hkey => hkey, hvalues first (by simp)⟩
            refine Keyed.forall₂_common (fun name v a h hfind => ?_) hfirst hselect
            obtain ⟨hkey, hvalue⟩ := h
            obtain ⟨-, rfl⟩ := Keyed.find_mem hfind
            exact .passed (by simp [OpKind.passed, hkey]) (hgroup first (by simp)) hvalue
      · refine Keyed.forall₂_common (fun agg v a _ hcolumn => ?_) haggs houtputs
        obtain ⟨hkeys, hname, -⟩ := Op.aggregateColumn_eq_ok.mp hcolumn
        exact .introduced (by simp [OpKind.passed, hname, hkeys])

theorem Emits.supplied_unnest {path : AnyPath}
    (hbuilt : input.unnest path = .ok ⟨.unnest input path, s⟩) (hinput : input.Fits backend)
    (hemits : Emits backend ⟨.unnest input path, s⟩ row) :
    List.Forall₂ (Supplied backend ⟨.unnest input path, s⟩) row.asSlice s.attributes := by
  obtain ⟨target, nested, hpath, hmem, -, hcolumns⟩ := Op.unnest_eq_ok.mp hbuilt
  cases hemits with
  | unnest hpath' hrow hvalue hinner hout =>
      obtain rfl := Option.some.inj (hpath.symm.trans hpath')
      have hfits := (hinput _ hrow).nested hmem hvalue _ hinner
      rw [hout, hcolumns]
      apply Keyed.forall₂_flatMap_zip (hrow.cells hinput)
      intro v a ha hcell
      by_cases htarget : a.name = target
      · simp only [if_pos htarget]
        apply (Keyed.forall₂_mem_right hfits).imp
        intro w b h
        have hne : target ≠ b.name → b.name ∉ input.schema.names := by
          intro hne hname
          obtain ⟨ty, hty⟩ := Schema.mem_names_iff.mp hname
          exact Op.unnested_ne hmem hcolumns h.1 hty hne.symm rfl
        exact .introduced (by simpa [OpKind.passed, hpath] using hne)
      · have hname := Schema.mem_names_of_mem ha
        simp only [if_neg htarget]
        exact .cons (hcell.supplied (by simp [OpKind.passed, hpath, Ne.symm htarget, hname])) .nil

theorem Emits.supplied_nest {attrs : AttributeSet} {into : AttributeName}
    (hbuilt : input.nest attrs into = .ok ⟨.nest input attrs into, s⟩)
    (hinput : input.Fits backend) (hemits : Emits backend ⟨.nest input attrs into, s⟩ row) :
    List.Forall₂ (Supplied backend ⟨.nest input attrs into, s⟩) row.asSlice s.attributes := by
  obtain ⟨nested, hselect, hinto, -, hcolumns⟩ := Op.nest_eq_ok.mp hbuilt
  cases hemits with
  | nest hrow hbundled hvalues hout =>
      have hkept := Keyed.forall₂_mem_right <|
        Keyed.forall₂_pick (hrow.cells hinput) fun a => a.name ∉ attrs.items
      rw [hout, hcolumns]
      refine List.rel_append (hkept.imp ?_) (.cons (.introduced ?_) .nil)
      · intro v a h
        obtain ⟨hmem, hcell⟩ := h
        have hne := Op.kept_ne_into hinto a hmem
        exact hcell.supplied (by simp [OpKind.passed, hne])
      · simp [OpKind.passed]

theorem Emits.supplied_modify {path : AnyPath} {sub : Op}
    (hbuilt : input.modify path sub = .ok ⟨.modify input path sub, s⟩)
    (hinput : input.Fits backend) (hemits : Emits backend ⟨.modify input path sub, s⟩ row) :
    List.Forall₂ (Supplied backend ⟨.modify input path sub, s⟩) row.asSlice s.attributes := by
  obtain ⟨target, nested, hpath, -, -, hcolumns⟩ := Op.modify_eq_ok.mp hbuilt
  cases hemits with
  | modify hpath' hrow hinner hout =>
      obtain rfl := Option.some.inj (hpath.symm.trans hpath')
      rw [hout, hcolumns]
      apply Keyed.forall₂_map_zip (hrow.cells hinput)
      intro v a ha hcell
      by_cases htarget : a.name = target
      · simp only [if_pos htarget]
        exact .introduced (by simp [OpKind.passed, hpath, htarget])
      · simp only [if_neg htarget]
        exact hcell.supplied (by simp [OpKind.passed, hpath, Ne.symm htarget])

/-- One node: every value of a row that it emits is supplied by an input, unless
the node introduces the column or pads it. -/
theorem Emits.supplied {op : Op} (hrun : op.kind.call.run = .ok op)
    (hparts : ∀ part ∈ op.kind.parts, part.Fits backend) (hfits : row.Fits op.schema)
    (hemits : Emits backend op row) :
    List.Forall₂ (Supplied backend op) row.asSlice op.schema.attributes := by
  obtain ⟨kind, s⟩ := op
  cases kind with
  | source src => exact supplied_source hfits
  | restrict input predicate =>
      obtain ⟨-, hop⟩ := Op.restrict_eq_ok.mp hrun
      obtain ⟨-, rfl⟩ := Op.mk.inj hop
      cases hemits with
      | restrict hrow _ =>
          exact supplied_unchanged (hparts input (by simp [OpKind.parts]))
            (by simp [OpKind.passed]) hrow
  | order input keys =>
      obtain ⟨-, rfl⟩ := Op.mk.inj (Except.ok.inj hrun)
      cases hemits with
      | order hrow =>
          exact supplied_unchanged (hparts input (by simp [OpKind.parts]))
            (by simp [OpKind.passed]) hrow
  | limit input offset count =>
      obtain ⟨-, rfl⟩ := Op.mk.inj (Except.ok.inj hrun)
      cases hemits with
      | limit hrow =>
          exact supplied_unchanged (hparts input (by simp [OpKind.parts]))
            (by simp [OpKind.passed]) hrow
  | union left right =>
      obtain ⟨hsame, hop⟩ := Op.setOperator_eq_ok.mp hrun
      obtain ⟨-, rfl⟩ := Op.mk.inj hop
      cases hemits with
      | unionLeft hrow =>
          exact supplied_unchanged (hparts left (by simp [OpKind.parts]))
            (by simp [OpKind.passed]) hrow
      | unionRight hrow =>
          rw [hsame]
          exact supplied_unchanged (hparts right (by simp [OpKind.parts]))
            (by simp [OpKind.passed]) hrow
  | intersect left right =>
      obtain ⟨-, hop⟩ := Op.setOperator_eq_ok.mp hrun
      obtain ⟨-, rfl⟩ := Op.mk.inj hop
      cases hemits with
      | intersect hrow _ =>
          exact supplied_unchanged (hparts left (by simp [OpKind.parts]))
            (by simp [OpKind.passed]) hrow
  | difference left right =>
      obtain ⟨-, hop⟩ := Op.setOperator_eq_ok.mp hrun
      obtain ⟨-, rfl⟩ := Op.mk.inj hop
      cases hemits with
      | difference hrow =>
          exact supplied_unchanged (hparts left (by simp [OpKind.parts]))
            (by simp [OpKind.passed]) hrow
  | project input attrs => exact supplied_project hrun hemits
  | rename input fromName toName =>
      exact supplied_rename hrun (hparts input (by simp [OpKind.parts])) hemits
  | extend input new expr =>
      exact supplied_extend hrun (hparts input (by simp [OpKind.parts])) hemits
  | product left right =>
      exact supplied_product hrun (hparts left (by simp [OpKind.parts]))
        (hparts right (by simp [OpKind.parts])) hemits
  | join left right kind joinOn =>
      exact supplied_join hrun (hparts left (by simp [OpKind.parts]))
        (hparts right (by simp [OpKind.parts])) hemits
  | summarize input keys aggs => exact supplied_summarize hrun hemits
  | unnest input path =>
      exact supplied_unnest hrun (hparts input (by simp [OpKind.parts])) hemits
  | nest input attrs into =>
      exact supplied_nest hrun (hparts input (by simp [OpKind.parts])) hemits
  | modify input path sub =>
      exact supplied_modify hrun (hparts input (by simp [OpKind.parts])) hemits

end Rows

/-- A column of a node is passed on from a column of one of its inputs. -/
def PassedFrom (column origin : Op × AttributeName) : Prop :=
  origin ∈ column.1.kind.passed column.2

/-- Following the column down the tree leads to the column of the node. -/
abbrev ComesFrom : Op × AttributeName → Op × AttributeName → Prop :=
  Relation.ReflTransGen PassedFrom

section Traces

variable [Whittle] {backend : Backend}

/-- Everywhere on its way down the tree a column has one type. -/
theorem ComesFrom.column {op : Op} (hop : op.Reachable) {a : Attribute}
    (ha : a ∈ op.schema.attributes) {origin : Op × AttributeName}
    (hfrom : ComesFrom (op, a.name) origin) :
    op.Node origin.1 ∧ ⟨origin.2, a.ty⟩ ∈ origin.1.schema.attributes := by
  induction hfrom with
  | refl => exact ⟨.root op, ha⟩
  | @tail node part _ hstep ih =>
      obtain ⟨hnode, hcolumn⟩ := ih
      obtain ⟨hrun, -⟩ := kernelReadBack.reachable_iff.mp (hop.node hnode)
      rcases Op.given_of_run hrun hcolumn with ⟨hnone, -⟩ | ⟨-, hpassed⟩
      · rw [PassedFrom, hnone] at hstep
        exact absurd hstep List.not_mem_nil
      · obtain ⟨hpart, hcolumn'⟩ := hpassed _ _ hstep
        exact ⟨hnode.trans (.inside hpart (.root _)), hcolumn'⟩

theorem exists_origin {op : Op} (hop : op.Reachable) {a : Attribute}
    (ha : a ∈ op.schema.attributes) :
    ∃ node name, ComesFrom (op, a.name) (node, name) ∧ node.kind.Introduces ⟨name, a.ty⟩ := by
  induction op using Op.induction_parts generalizing a with
  | h op ih =>
      obtain ⟨hrun, hparts⟩ := kernelReadBack.reachable_iff.mp hop
      rcases Op.given_of_run hrun ha with ⟨-, hintroduces⟩ | ⟨hsome, hpassed⟩
      · exact ⟨op, a.name, .refl, hintroduces⟩
      · obtain ⟨⟨part, name⟩, hmem⟩ := List.exists_mem_of_ne_nil _ hsome
        obtain ⟨hpart, hcolumn⟩ := hpassed part name hmem
        obtain ⟨node, name', hfrom, hintroduces⟩ := ih part hpart (hparts part hpart) hcolumn
        exact ⟨node, name', .head hmem hfrom, hintroduces⟩

/-- Every column of a reachable tree comes from a node of the tree that introduces
it, and wherever it comes from it already has its type. A node that passes it on
from nowhere introduces it. -/
theorem columns_traced {op : Op} (hop : op.Reachable) {a : Attribute}
    (ha : a ∈ op.schema.attributes) :
    (∃ node name, ComesFrom (op, a.name) (node, name) ∧ node.kind.Introduces ⟨name, a.ty⟩) ∧
      ∀ node name, ComesFrom (op, a.name) (node, name) →
        op.Node node ∧ ⟨name, a.ty⟩ ∈ node.schema.attributes ∧
          (node.kind.passed name = [] → node.kind.Introduces ⟨name, a.ty⟩) := by
  refine ⟨exists_origin hop ha, ?_⟩
  intro node name hfrom
  obtain ⟨hnode, hcolumn⟩ := hfrom.column hop ha
  obtain ⟨hrun, -⟩ := kernelReadBack.reachable_iff.mp (hop.node hnode)
  refine ⟨hnode, hcolumn, ?_⟩
  intro hnone
  rcases Op.given_of_run hrun hcolumn with ⟨-, hintroduces⟩ | ⟨hsome, -⟩
  · exact hintroduces
  · exact absurd hnone hsome

/-- Every value that a reachable tree emits under a column was emitted by a node
that introduces the column, under the name it has there, or is the null of an
outer join that pads the column. -/
theorem values_traced (htyped : backend.Typed) {op : Op} (hop : op.Reachable) {row : Row}
    (hemits : Emits backend op row) {a : Attribute} (ha : a ∈ op.schema.attributes) :
    ∃ v, row.valueOf op.schema a.name = some v ∧
      ∃ node name, ComesFrom (op, a.name) (node, name) ∧
        (node.kind.Introduces ⟨name, a.ty⟩ ∧
            (∃ origin, Emits backend node origin ∧ origin.valueOf node.schema name = some v) ∨
          node.kind.Pads name ∧ v = .null) := by
  induction op using Op.induction_parts generalizing row a with
  | h op ih =>
      obtain ⟨hrun, hparts⟩ := kernelReadBack.reachable_iff.mp hop
      have hfits : ∀ part ∈ op.kind.parts, part.Fits backend := by
        intro part hpart
        exact Op.Reachable.fits htyped (hparts part hpart)
      have hvalues := hemits.supplied hrun hfits (hop.fits htyped row hemits)
      obtain ⟨v, hv, hsupplied⟩ := Keyed.valueAt_of_mem op.schema.nodup_names hvalues ha
      refine ⟨v, hv, ?_⟩
      have hgiven := Op.given_of_run hrun ha
      cases hsupplied with
      | introduced hnone =>
          rcases hgiven with ⟨-, hintroduces⟩ | ⟨hsome, -⟩
          · exact ⟨op, a.name, .refl, Or.inl ⟨hintroduces, row, hemits, hv⟩⟩
          · exact absurd hnone hsome
      | @passed part name origin hmem horigin hvalue =>
          rcases hgiven with ⟨hnone, -⟩ | ⟨-, hpassed⟩
          · rw [hnone] at hmem
            exact absurd hmem List.not_mem_nil
          · obtain ⟨hpart, hcolumn⟩ := hpassed part name hmem
            obtain ⟨w, hw, node, name', hfrom, hsource⟩ :=
              ih part hpart (hparts part hpart) horigin hcolumn
            obtain rfl : w = v := Option.some.inj (hw.symm.trans hvalue)
            exact ⟨node, name', .head hmem hfrom, hsource⟩
      | padded hpads hnull => exact ⟨op, a.name, .refl, Or.inr ⟨hpads, hnull⟩⟩

end Traces

section Constraints

variable {backend : Backend} {c : AttributeConstraint} {v : Value}

/-- The constraint is true of the value, in whatever row and header it stands. -/
def AttributeConstraint.Accepts (backend : Backend) (c : AttributeConstraint) (v : Value) : Prop :=
  ∀ (s : Schema) (row : Row), row.valueOf s c.attr = some v →
    backend.eval c.predicate.inner.expr s row = .ok (.bool true)

/-- A constraint on one attribute reads nothing of a row but the value there. -/
theorem AttributeConstraint.eval_eq_of_value {s t : Schema} {row row' : Row}
    (hvalue : row.valueOf s c.attr = row'.valueOf t c.attr) :
    backend.eval c.predicate.inner.expr s row = backend.eval c.predicate.inner.expr t row' := by
  apply Backend.eval_congr
  intro name hname
  have hscope : name ∈ c.predicate.freeAttributes := hname
  rw [c.mentions, Finset.mem_singleton] at hscope
  rw [hscope, hvalue]

/-- One row with the value decides about the value. -/
theorem AttributeConstraint.accepts_of_row {s : Schema} {row : Row}
    (hvalue : row.valueOf s c.attr = some v)
    (htrue : backend.eval c.predicate.inner.expr s row = .ok (.bool true)) :
    c.Accepts backend v := by
  intro t row' hvalue'
  rw [← htrue]
  exact c.eval_eq_of_value (hvalue'.trans hvalue.symm)

variable [Whittle]

/-- A constraint on one attribute is about the value there alone. It holds of every value
that a reachable tree emits under a column, when it holds where the column is introduced
and of the nulls that pad it. Restricting the tree by the constraint then drops no row. -/
theorem constraints_inherited (htyped : backend.Typed) {op : Op} (hop : op.Reachable)
    {a : Attribute} (ha : a ∈ op.schema.attributes)
    (horigins : ∀ node name row v, ComesFrom (op, a.name) (node, name) →
      node.kind.Introduces ⟨name, a.ty⟩ → Emits backend node row →
      row.valueOf node.schema name = some v → c.Accepts backend v)
    (hpads : ∀ node name, ComesFrom (op, a.name) (node, name) → node.kind.Pads name →
      c.Accepts backend .null) :
    (∀ (s t : Schema) (row row' : Row), row.valueOf s c.attr = row'.valueOf t c.attr →
      backend.eval c.predicate.inner.expr s row = backend.eval c.predicate.inner.expr t row') ∧
    (∀ row, Emits backend op row →
      ∃ v, row.valueOf op.schema a.name = some v ∧ c.Accepts backend v) ∧
    (a.name = c.attr → ∀ (b : BoolExpression) (restricted : Op),
      b.expr = c.predicate.inner.expr → op.restrict (.expr b) = .ok restricted →
        ∀ row, Emits backend restricted row ↔ Emits backend op row) := by
  have haccepted : ∀ row, Emits backend op row →
      ∃ v, row.valueOf op.schema a.name = some v ∧ c.Accepts backend v := by
    intro row hrow
    obtain ⟨v, hv, node, name, hfrom, hsource⟩ := values_traced htyped hop hrow ha
    refine ⟨v, hv, ?_⟩
    rcases hsource with ⟨hintroduces, origin, horigin, hvalue⟩ | ⟨hpad, rfl⟩
    · exact horigins node name origin v hfrom hintroduces horigin hvalue
    · exact hpads node name hfrom hpad
  refine ⟨fun s t row row' hvalue => c.eval_eq_of_value hvalue, haccepted, ?_⟩
  intro hscope b restricted hb hrestrict row
  obtain ⟨-, rfl⟩ := Op.restrict_eq_ok.mp hrestrict
  constructor
  · intro h
    cases h with
    | restrict hrow _ => exact hrow
  · intro hrow
    obtain ⟨v, hv, haccepts⟩ := haccepted row hrow
    have htrue := haccepts op.schema row (hscope ▸ hv)
    rw [← hb] at htrue
    exact .restrict hrow htrue

end Constraints

namespace Catalogue

/-- The users as payers. -/
def payers : Op :=
  ⟨.rename users id payer, .ofAttributes [⟨payer, .int64⟩, ⟨name, .string⟩] (by decide)⟩

theorem reachable_payers : payers.Reachable :=
  Op.reachable_of_run (.rename users id payer) rfl (by simp [Call.inputs, reachable_users])

theorem payer_mem : ⟨payer, .int64⟩ ∈ payers.schema.attributes := by
  simp [payers]

def balance : AttributeName := ⟨"balance", by decide, by decide, by decide⟩

def invoiceRow : Row := .ofValues [.int64 9, .int64 5] (by decide)

/-- An invoice of the ninth user, inline. -/
def invoices : Op := .source <| .memory
  ⟨orders.schema, .ofList [invoiceRow] ⟨by decide, by decide⟩, by
    intro row hrow
    rw [BoundedVec.toList_ofList, List.mem_singleton] at hrow
    subst hrow
    rfl⟩

theorem invoiced_rule :
    HeaderRule [⟨id, .int64⟩, ⟨name, .string⟩, ⟨total, .int64⟩] := by
  decide

/-- The users, with their invoices or without. -/
def invoiced : Op :=
  ⟨.join users invoices .leftOuter .natural, .ofAttributes _ invoiced_rule⟩

/-- The same with the total as a balance. -/
def balances : Op :=
  ⟨.rename invoiced total balance,
    .ofAttributes [⟨id, .int64⟩, ⟨name, .string⟩, ⟨balance, .int64⟩] (by decide)⟩

/-- The seventh user has no invoice. -/
def balanceRow : Row := .ofValues [.int64 7, .string "seven", .null] (by decide)

theorem reachable_invoiced : invoiced.Reachable :=
  Op.reachable_of_run (.join users invoices .leftOuter .natural) rfl
    (by simp [Call.inputs, reachable_users, invoices, Op.reachable_source])

theorem reachable_balances : balances.Reachable :=
  Op.reachable_of_run (.rename invoiced total balance) rfl
    (by simp [Call.inputs, reachable_invoiced])

theorem balance_mem : ⟨balance, .int64⟩ ∈ balances.schema.attributes := by
  simp [balances]

theorem emits_balances : Emits backend balances balanceRow :=
  .rename (.leftUnmatched rfl emits_user rfl)

theorem eq_invoiceRow {row : Row} (hrow : Emits backend invoices row) : row = invoiceRow := by
  cases hrow with
  | memory hmem =>
      rw [BoundedVec.toList_ofList] at hmem
      exact List.mem_singleton.mp hmem

/-- The balance is the total of the invoices. -/
theorem balance_origins {origin : Op × AttributeName}
    (hfrom : ComesFrom (balances, balance) origin) :
    origin = (balances, balance) ∨ origin = (invoiced, total) ∨ origin = (invoices, total) := by
  rcases hfrom.cases_head with hself | ⟨part, hstep, hrest⟩
  · exact Or.inl hself.symm
  · obtain rfl : part = (invoiced, total) := List.mem_singleton.mp hstep
    rcases hrest.cases_head with hself | ⟨part, hstep, hrest⟩
    · exact Or.inr (Or.inl hself.symm)
    · obtain rfl : part = (invoices, total) := List.mem_singleton.mp hstep
      rcases hrest.cases_head with hself | ⟨part, hstep, -⟩
      · exact Or.inr (Or.inr hself.symm)
      · exact absurd hstep List.not_mem_nil

/-- A column of the balances that is introduced is the total of the invoices. -/
theorem balance_introduced {node : Op} {name : AttributeName}
    (hfrom : ComesFrom (balances, balance) (node, name))
    (hintroduces : node.kind.Introduces ⟨name, .int64⟩) : node = invoices ∧ name = total := by
  rcases balance_origins hfrom with horigin | horigin | horigin
  · obtain ⟨rfl, rfl⟩ := Prod.mk.inj horigin
    exact hintroduces.elim
  · obtain ⟨rfl, rfl⟩ := Prod.mk.inj horigin
    exact hintroduces.elim
  · exact Prod.mk.inj horigin

/-- The total is five or missing. -/
def fiveOrMissing : BoolExpression :=
  ⟨.binOp .or (.binOp .eq (.attr balance) (.lit (.int64 5))) (.isNull (.attr balance)),
    balances.schema, rfl⟩

def balanceConstraint : AttributeConstraint := ⟨balance, ⟨fiveOrMissing, rfl⟩, by decide⟩

def oneBalance : Schema := .ofAttributes [⟨balance, .int64⟩] (by decide)

theorem balanceConstraint_accepts {v : Value} (hv : v = .int64 5 ∨ v = .null) :
    balanceConstraint.Accepts backend v := by
  let row : Row := .ofValues [v] ⟨by simp, by simp [maxSchemaAttributes]⟩
  have hvalue : row.valueOf oneBalance balance = some v := rfl
  apply AttributeConstraint.accepts_of_row hvalue
  rcases hv with rfl | rfl <;> rfl

end Catalogue

/-- The payer comes from a column that some node introduces as an integer. -/
theorem columns_traced_payers : ∃ node name,
    ComesFrom (Catalogue.payers, Catalogue.payer) (node, name) ∧
      node.kind.Introduces ⟨name, .int64⟩ :=
  (columns_traced Catalogue.reachable_payers Catalogue.payer_mem).1

/-- The balance of the seventh user is the null that the outer join pads. -/
theorem values_traced_balances : ∃ node name,
    ComesFrom (Catalogue.balances, Catalogue.balance) (node, name) ∧ node.kind.Pads name := by
  obtain ⟨v, hv, node, name, hfrom, hsource⟩ := values_traced Catalogue.backend_typed
    Catalogue.reachable_balances Catalogue.emits_balances Catalogue.balance_mem
  have hnull : Catalogue.balanceRow.valueOf Catalogue.balances.schema Catalogue.balance =
      some .null := rfl
  obtain rfl : v = .null := Option.some.inj (hv.symm.trans hnull)
  rcases hsource with ⟨hintroduces, origin, horigin, hvalue⟩ | ⟨hpads, -⟩
  · obtain ⟨rfl, rfl⟩ := Catalogue.balance_introduced hfrom hintroduces
    obtain rfl := Catalogue.eq_invoiceRow horigin
    have htotal : Catalogue.invoiceRow.valueOf Catalogue.invoices.schema Catalogue.total =
        some (.int64 5) := rfl
    rw [htotal] at hvalue
    exact absurd hvalue (by simp)
  · exact ⟨node, name, hfrom, hpads⟩

/-- The balance of the seventh user is five or missing, as the totals of the invoices and
the padded nulls are. -/
theorem constraints_inherited_balances : ∃ v,
    Catalogue.balanceRow.valueOf Catalogue.balances.schema Catalogue.balance = some v ∧
      Catalogue.balanceConstraint.Accepts Catalogue.backend v := by
  refine (constraints_inherited Catalogue.backend_typed Catalogue.reachable_balances
    Catalogue.balance_mem ?_ ?_).2.1 _ Catalogue.emits_balances
  · intro node name row v hfrom hintroduces hrow hvalue
    obtain ⟨rfl, rfl⟩ := Catalogue.balance_introduced hfrom hintroduces
    obtain rfl := Catalogue.eq_invoiceRow hrow
    exact Catalogue.balanceConstraint_accepts (Or.inl (Option.some.inj hvalue).symm)
  · intro node name _ _
    exact Catalogue.balanceConstraint_accepts (Or.inr rfl)

end AxiomCore
