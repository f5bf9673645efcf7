import AxiomCore.Calls

/-!
Restriction push-down. Acceptance of a restriction depends on the header only
through the lookups of the expression's free names, and every operator keeps
the lookups of the names it does not touch. So a restriction above an operator
can be moved below it exactly where the free names say so, and the operator
built over the restricted input has the same header.
-/

namespace AxiomCore

open Checked Refined

namespace Schema

theorem lookup_congr {s t : Schema} {name : AttributeName}
    (h : ∀ ty, ⟨name, ty⟩ ∈ s.attributes ↔ ⟨name, ty⟩ ∈ t.attributes) :
    s.lookup name = t.lookup name := by
  ext ty
  rw [lookup_eq_some_iff, lookup_eq_some_iff]
  exact h ty

end Schema

/-- Two headers agree on names of the first when the second keeps the columns
with these names. -/
theorem agreeOn_of_kept {names : Finset AttributeName} {s t : Schema}
    (hnames : ∀ name ∈ names, name ∈ s.names)
    (hkept : ∀ a ∈ s.attributes, a.name ∈ names → a ∈ t.attributes) : AgreeOn names s t := by
  intro name hname
  refine (Schema.lookup_eq_of_mem (hnames name hname) fun a ha hsame => ?_).symm
  exact hkept a ha (hsame ▸ hname)

namespace Op

/-- Some predicate over the expression is accepted as a restriction. -/
def Admits (op : Op) (e : Expression) : Prop :=
  ∃ b : BoolExpression, b.expr = e ∧ ∃ restricted, op.restrict (.expr b) = .ok restricted

theorem restrict_expr_eq_ok {input op : Op} {b : BoolExpression} :
    input.restrict (.expr b) = .ok op ↔
      containsAggregate b.expr = false ∧ infer b.expr input.schema = .ok .bool ∧
        op = ⟨.restrict input (.expr b), input.schema⟩ := by
  rw [restrict_eq_ok, checkPredicate_expr_ok, and_assoc]

/-- Acceptance does not depend on the proof that a predicate carries. -/
theorem admits_iff {op : Op} {e : Expression} :
    op.Admits e ↔ containsAggregate e = false ∧ infer e op.schema = .ok .bool := by
  constructor
  · rintro ⟨b, rfl, restricted, hrestrict⟩
    obtain ⟨hagg, hty, -⟩ := restrict_expr_eq_ok.mp hrestrict
    exact ⟨hagg, hty⟩
  · rintro ⟨hagg, hty⟩
    exact ⟨⟨e, op.schema, hty⟩, rfl, _, restrict_expr_eq_ok.mpr ⟨hagg, hty, rfl⟩⟩

/-- Operators whose headers agree on the free names accept the same
restrictions. -/
theorem admits_congr {op op' : Op} {e : Expression}
    (h : AgreeOn e.freeAttrs op.schema op'.schema) : op.Admits e ↔ op'.Admits e := by
  rw [admits_iff, admits_iff, infer_congr h]

theorem Admits.freeAttrs_subset {op : Op} {e : Expression} (h : op.Admits e) :
    ∀ name ∈ e.freeAttrs, name ∈ op.schema.names := by
  obtain ⟨hagg, hty⟩ := admits_iff.mp h
  exact freeAttrs_subset_names hagg hty

/-- A constructor that reads an input only through its header: it succeeds over
any other input with that header, and makes the same header. -/
def ReadsHeader (build : Op → Except OpError Op) : Prop :=
  ∀ input input' out : Op, input'.schema = input.schema → build input = .ok out →
    ∃ out', build input' = .ok out' ∧ out'.schema = out.schema

/-- Whenever the restriction of `input` by `e` is accepted, the operator is
built over the restricted input with the header of `out`. -/
def RebuildsOver (build : Op → Except OpError Op) (input out : Op) (e : Expression) : Prop :=
  ∀ b restricted, b.expr = e → input.restrict (.expr b) = .ok restricted →
    ∃ rebuilt, build restricted = .ok rebuilt ∧ rebuilt.schema = out.schema

/-- A restriction by `e` of `out` can be moved to its input: the two are
accepted together, and the operator is rebuilt over the restricted input. -/
structure PushesDown (build : Op → Except OpError Op) (input out : Op) (e : Expression) :
    Prop where
  accepted : out.Admits e ↔ input.Admits e
  rebuilt : RebuildsOver build input out e

theorem ReadsHeader.rebuilds {build : Op → Except OpError Op} (h : ReadsHeader build)
    {input out : Op} (hout : build input = .ok out) (e : Expression) :
    RebuildsOver build input out e := by
  intro b restricted _ hrestrict
  obtain ⟨-, -, rfl⟩ := restrict_expr_eq_ok.mp hrestrict
  exact h input _ out rfl hout

/-- A restriction moves to an input whose lookups of its free names are those
of the output. -/
theorem pushesDown_of_agree {build : Op → Except OpError Op} {input out : Op} {e : Expression}
    (hreads : ReadsHeader build) (hout : build input = .ok out)
    (hagree : AgreeOn e.freeAttrs out.schema input.schema) : PushesDown build input out e where
  accepted := admits_congr hagree
  rebuilt := hreads.rebuilds hout e

/-- A restriction moves to an input that has its free names, when the output
keeps the columns with these names. -/
theorem pushesDown_of_kept {build : Op → Except OpError Op} {input out : Op} {e : Expression}
    (hreads : ReadsHeader build) (hout : build input = .ok out)
    (hnames : ∀ n ∈ e.freeAttrs, n ∈ input.schema.names)
    (hkept : ∀ a ∈ input.schema.attributes, a.name ∈ e.freeAttrs → a ∈ out.schema.attributes) :
    PushesDown build input out e := by
  apply pushesDown_of_agree hreads hout
  exact (agreeOn_of_kept hnames hkept).symm

section Constructors

variable [Whittle]

theorem readsHeader_project (attrs : AttributeSet) : ReadsHeader (·.project attrs) := by
  intro input input' out hschema hout
  obtain ⟨-, hselect⟩ := project_eq_ok.mp hout
  exact ⟨⟨_, out.schema⟩, project_eq_ok.mpr ⟨rfl, hschema ▸ hselect⟩, rfl⟩

theorem readsHeader_extend (name : AttributeName) (expr : Expression) :
    ReadsHeader (·.extend name expr) := by
  intro input input' out hschema hout
  obtain ⟨ty, hname, hagg, hty, -, hcolumns⟩ := extend_eq_ok.mp hout
  rw [← hschema] at hname hty hcolumns
  exact ⟨⟨_, out.schema⟩, extend_eq_ok.mpr ⟨ty, hname, hagg, hty, rfl, hcolumns⟩, rfl⟩

theorem readsHeader_summarize (keys : GroupingSet) (aggs : NamedAggSet) :
    ReadsHeader (·.summarize keys aggs) := by
  intro input input' out hschema hout
  obtain ⟨grouped, computed, hselect, hcomputed, -, hcolumns⟩ := summarize_eq_ok.mp hout
  have hcolumn : aggregateColumn input' keys = aggregateColumn input keys := by
    funext agg
    simp only [aggregateColumn, hschema]
  refine ⟨⟨_, out.schema⟩, summarize_eq_ok.mpr ⟨grouped, computed, ?_, ?_, rfl, hcolumns⟩, rfl⟩
  · exact hschema ▸ hselect
  · exact hcolumn ▸ hcomputed

theorem readsHeader_nest (attrs : AttributeSet) (into : AttributeName) :
    ReadsHeader (·.nest attrs into) := by
  intro input input' out hschema hout
  obtain ⟨nested, hselect, hinto, -, hcolumns⟩ := nest_eq_ok.mp hout
  rw [← hschema] at hselect hinto hcolumns
  exact ⟨⟨_, out.schema⟩, nest_eq_ok.mpr ⟨nested, hselect, hinto, rfl, hcolumns⟩, rfl⟩

theorem readsHeader_unnest (path : AnyPath) : ReadsHeader (·.unnest path) := by
  intro input input' out hschema hout
  obtain ⟨target, nested, hpath, hmem, -, hcolumns⟩ := unnest_eq_ok.mp hout
  rw [← hschema] at hmem hcolumns
  exact ⟨⟨_, out.schema⟩, unnest_eq_ok.mpr ⟨target, nested, hpath, hmem, rfl, hcolumns⟩, rfl⟩

theorem readsHeader_modify (path : AnyPath) (sub : Op) : ReadsHeader (·.modify path sub) := by
  intro input input' out hschema hout
  obtain ⟨target, nested, hpath, hmem, -, hcolumns⟩ := modify_eq_ok.mp hout
  rw [← hschema] at hmem hcolumns
  exact ⟨⟨_, out.schema⟩, modify_eq_ok.mpr ⟨target, nested, hpath, hmem, rfl, hcolumns⟩, rfl⟩

theorem readsHeader_product_left (right : Op) : ReadsHeader (·.product right) := by
  intro left left' out hschema hout
  obtain ⟨-, hcolumns⟩ := product_eq_ok.mp hout
  rw [← hschema] at hcolumns
  exact ⟨⟨_, out.schema⟩, product_eq_ok.mpr ⟨rfl, hcolumns⟩, rfl⟩

theorem readsHeader_product_right (left : Op) : ReadsHeader (left.product ·) := by
  intro right right' out hschema hout
  obtain ⟨-, hcolumns⟩ := product_eq_ok.mp hout
  rw [← hschema] at hcolumns
  exact ⟨⟨_, out.schema⟩, product_eq_ok.mpr ⟨rfl, hcolumns⟩, rfl⟩

/-- A join reads both sides only through their headers. -/
theorem join_schema_congr {left left' right right' out : Op} {kind : JoinKind} {joinOn : JoinOn}
    (hleft : left'.schema = left.schema) (hright : right'.schema = right.schema)
    (hout : left.join right kind joinOn = .ok out) :
    ∃ out', left'.join right' kind joinOn = .ok out' ∧ out'.schema = out.schema := by
  cases joinOn with
  | natural =>
      obtain ⟨hagree, hcolumns, -⟩ := join_natural_eq_ok.mp hout
      rw [← hleft, ← hright] at hagree hcolumns
      exact ⟨⟨_, out.schema⟩, join_natural_eq_ok.mpr ⟨hagree, hcolumns, rfl⟩, rfl⟩
  | equi pairs =>
      obtain ⟨hpairs, -, hcolumns⟩ := join_equi_eq_ok.mp hout
      have hcheck : checkPair left' right' = checkPair left right := by
        funext pair
        simp only [checkPair, hleft, hright]
      rw [← hcheck] at hpairs
      rw [← hleft, ← hright] at hcolumns
      exact ⟨⟨_, out.schema⟩, join_equi_eq_ok.mpr ⟨hpairs, rfl, hcolumns⟩, rfl⟩
  | theta predicate =>
      obtain ⟨hcheck, -, hcolumns⟩ := join_theta_eq_ok.mp hout
      rw [← hleft, ← hright] at hcolumns
      exact ⟨⟨_, out.schema⟩, join_theta_eq_ok.mpr ⟨hcheck, rfl, hcolumns⟩, rfl⟩

theorem readsHeader_join_left (right : Op) (kind : JoinKind) (joinOn : JoinOn) :
    ReadsHeader (·.join right kind joinOn) := by
  intro left left' out hschema hout
  exact join_schema_congr hschema rfl hout

theorem readsHeader_join_right (left : Op) (kind : JoinKind) (joinOn : JoinOn) :
    ReadsHeader (left.join · kind joinOn) := by
  intro right right' out hschema hout
  exact join_schema_congr rfl hschema hout

theorem pushesDown_project {input out : Op} {attrs : AttributeSet} {e : Expression}
    (hout : input.project attrs = .ok out) :
    (out.Admits e ↔ input.Admits e ∧ ∀ name ∈ e.freeAttrs, name ∈ attrs.items) ∧
      RebuildsOver (·.project attrs) input out e := by
  obtain ⟨-, hselect⟩ := project_eq_ok.mp hout
  have hnames : out.schema.names = attrs.items := hselect.map_name
  have hagree (hfree : ∀ name ∈ e.freeAttrs, name ∈ attrs.items) :
      AgreeOn e.freeAttrs out.schema input.schema := by
    rw [← hnames] at hfree
    apply agreeOn_of_kept hfree
    intro a ha _
    exact (hselect.mem_iff.mp ha).1
  refine ⟨?_, (readsHeader_project attrs).rebuilds hout e⟩
  constructor
  · intro hadmits
    have hfree : ∀ name ∈ e.freeAttrs, name ∈ attrs.items := by
      rw [← hnames]
      exact hadmits.freeAttrs_subset
    exact ⟨(admits_congr (hagree hfree)).mp hadmits, hfree⟩
  · rintro ⟨hadmits, hfree⟩
    exact (admits_congr (hagree hfree)).mpr hadmits

theorem pushesDown_extend {input out : Op} {name : AttributeName} {expr e : Expression}
    (hout : input.extend name expr = .ok out) (hfree : name ∉ e.freeAttrs) :
    PushesDown (·.extend name expr) input out e := by
  obtain ⟨newTy, -, -, -, -, hcolumns⟩ := extend_eq_ok.mp hout
  apply pushesDown_of_agree (readsHeader_extend name expr) hout
  intro n hn
  have hne : n ≠ name := by
    intro heq
    exact hfree (heq ▸ hn)
  apply Schema.lookup_congr
  intro ty
  simp [hcolumns, hne]

theorem pushesDown_product_left {left right out : Op} {e : Expression}
    (hout : left.product right = .ok out) (hfree : ∀ n ∈ e.freeAttrs, n ∈ left.schema.names) :
    PushesDown (·.product right) left out e := by
  apply pushesDown_of_kept (readsHeader_product_left right) hout hfree
  intro a ha _
  rw [(product_eq_ok.mp hout).2]
  exact List.mem_append_left _ ha

theorem pushesDown_product_right {left right out : Op} {e : Expression}
    (hout : left.product right = .ok out) (hfree : ∀ n ∈ e.freeAttrs, n ∈ right.schema.names) :
    PushesDown (left.product ·) right out e := by
  apply pushesDown_of_kept (readsHeader_product_right left) hout hfree
  intro a ha _
  rw [(product_eq_ok.mp hout).2]
  exact List.mem_append_right _ ha

theorem pushesDown_join_left {left right out : Op} {kind : JoinKind} {joinOn : JoinOn}
    {e : Expression} (hout : left.join right kind joinOn = .ok out)
    (hfree : ∀ n ∈ e.freeAttrs, n ∈ left.schema.names) :
    PushesDown (·.join right kind joinOn) left out e := by
  apply pushesDown_of_kept (readsHeader_join_left right kind joinOn) hout hfree
  intro a ha _
  exact join_keeps_left hout a ha

/-- The shared columns of a natural join can be asked on the right as well. -/
theorem pushesDown_join_right {left right out : Op} {kind : JoinKind} {joinOn : JoinOn}
    {e : Expression} (hout : left.join right kind joinOn = .ok out)
    (hfree : ∀ n ∈ e.freeAttrs, n ∈ right.schema.names) :
    PushesDown (left.join · kind joinOn) right out e := by
  apply pushesDown_of_kept (readsHeader_join_right left kind joinOn) hout hfree
  intro a ha _
  exact join_keeps_right hout a ha

theorem pushesDown_summarize {input out : Op} {keys : GroupingSet} {aggs : NamedAggSet}
    {e : Expression} (hout : input.summarize keys aggs = .ok out)
    (hfree : ∀ n ∈ e.freeAttrs, n ∈ keys.items) :
    PushesDown (·.summarize keys aggs) input out e := by
  obtain ⟨grouped, computed, hselect, -, -, hcolumns⟩ := summarize_eq_ok.mp hout
  have hnames : ∀ n ∈ e.freeAttrs, n ∈ input.schema.names := by
    intro n hn
    exact hselect.subset_names n (hfree n hn)
  apply pushesDown_of_kept (readsHeader_summarize keys aggs) hout hnames
  intro a ha hname
  have hgrouped : a ∈ grouped := hselect.mem_iff.mpr ⟨ha, hfree _ hname⟩
  rw [hcolumns]
  exact List.mem_append_left _ hgrouped

theorem pushesDown_nest {input out : Op} {attrs : AttributeSet} {into : AttributeName}
    {e : Expression} (hout : input.nest attrs into = .ok out) (hinto : into ∉ e.freeAttrs)
    (hattrs : ∀ n ∈ e.freeAttrs, n ∉ attrs.items) :
    PushesDown (·.nest attrs into) input out e := by
  obtain ⟨nested, -, -, -, hcolumns⟩ := nest_eq_ok.mp hout
  apply pushesDown_of_agree (readsHeader_nest attrs into) hout
  intro n hn
  have hne : n ≠ into := by
    intro heq
    exact hinto (heq ▸ hn)
  apply Schema.lookup_congr
  intro ty
  simp [hcolumns, hne, hattrs n hn]

theorem pushesDown_unnest {input out : Op} {path : AnyPath} {target : AttributeName}
    {e : Expression} (hout : input.unnest path = .ok out) (hpath : path.target = some target)
    (hfree : ∀ n ∈ e.freeAttrs, n ∈ input.schema.names ∧ n ≠ target) :
    PushesDown (·.unnest path) input out e := by
  obtain ⟨target', nested, hpath', -, -, hcolumns⟩ := unnest_eq_ok.mp hout
  obtain rfl := Option.some.inj (hpath.symm.trans hpath')
  have hnames : ∀ n ∈ e.freeAttrs, n ∈ input.schema.names := fun n hn => (hfree n hn).1
  apply pushesDown_of_kept (readsHeader_unnest path) hout hnames
  intro a ha hname
  have hne := (hfree _ hname).2
  rw [hcolumns, List.mem_flatMap]
  exact ⟨a, ha, by simp [hne]⟩

theorem pushesDown_modify {input out sub : Op} {path : AnyPath} {target : AttributeName}
    {e : Expression} (hout : input.modify path sub = .ok out) (hpath : path.target = some target)
    (hfree : ∀ n ∈ e.freeAttrs, n ∈ input.schema.names ∧ n ≠ target) :
    PushesDown (·.modify path sub) input out e := by
  obtain ⟨target', nested, hpath', -, -, hcolumns⟩ := modify_eq_ok.mp hout
  obtain rfl := Option.some.inj (hpath.symm.trans hpath')
  have hnames : ∀ n ∈ e.freeAttrs, n ∈ input.schema.names := fun n hn => (hfree n hn).1
  apply pushesDown_of_kept (readsHeader_modify path sub) hout hnames
  intro a ha hname
  have hne := (hfree _ hname).2
  rw [hcolumns, List.mem_map]
  exact ⟨a, ha, by simp [hne]⟩

end Constructors

end Op

section Kernel

variable [Whittle]

open Op

/-- Where a restriction can be moved below an operator. Below a projection,
exactly when it is accepted there and mentions only projected columns; below
every other operator, as long as it mentions only columns that come unchanged
from the input it is moved to. -/
theorem restriction_pushdown (e : Expression) :
    (∀ r attrs out, Op.project r attrs = .ok out →
      (out.Admits e ↔ r.Admits e ∧ ∀ n ∈ e.freeAttrs, n ∈ attrs.items) ∧
        RebuildsOver (·.project attrs) r out e) ∧
    (∀ r name expr out, Op.extend r name expr = .ok out → name ∉ e.freeAttrs →
      PushesDown (·.extend name expr) r out e) ∧
    (∀ l r out, Op.product l r = .ok out →
      ((∀ n ∈ e.freeAttrs, n ∈ l.schema.names) → PushesDown (·.product r) l out e) ∧
      ((∀ n ∈ e.freeAttrs, n ∈ r.schema.names) → PushesDown (l.product ·) r out e)) ∧
    (∀ l r kind joinOn out, Op.join l r kind joinOn = .ok out →
      ((∀ n ∈ e.freeAttrs, n ∈ l.schema.names) → PushesDown (·.join r kind joinOn) l out e) ∧
      ((∀ n ∈ e.freeAttrs, n ∈ r.schema.names) → PushesDown (l.join · kind joinOn) r out e)) ∧
    (∀ r keys aggs out, Op.summarize r keys aggs = .ok out →
      (∀ n ∈ e.freeAttrs, n ∈ keys.items) → PushesDown (·.summarize keys aggs) r out e) ∧
    (∀ r attrs into out, Op.nest r attrs into = .ok out → into ∉ e.freeAttrs →
      (∀ n ∈ e.freeAttrs, n ∉ attrs.items) → PushesDown (·.nest attrs into) r out e) ∧
    (∀ r path target out, Op.unnest r path = .ok out → path.target = some target →
      (∀ n ∈ e.freeAttrs, n ∈ r.schema.names ∧ n ≠ target) →
        PushesDown (·.unnest path) r out e) ∧
    (∀ r path sub target out, Op.modify r path sub = .ok out → path.target = some target →
      (∀ n ∈ e.freeAttrs, n ∈ r.schema.names ∧ n ≠ target) →
        PushesDown (·.modify path sub) r out e) :=
  ⟨fun _ _ _ => pushesDown_project, fun _ _ _ _ => pushesDown_extend,
    fun _ _ _ hout => ⟨pushesDown_product_left hout, pushesDown_product_right hout⟩,
    fun _ _ _ _ _ hout => ⟨pushesDown_join_left hout, pushesDown_join_right hout⟩,
    fun _ _ _ _ => pushesDown_summarize, fun _ _ _ _ => pushesDown_nest,
    fun _ _ _ _ => pushesDown_unnest, fun _ _ _ _ _ => pushesDown_modify⟩

end Kernel

/-- A restriction on the id that users and orders share moves to either side of
their natural join. -/
theorem restriction_pushdown_users :
    ∃ out, Catalogue.users.join Catalogue.orders .leftOuter .natural = .ok out ∧
      out.Admits Catalogue.idIsSeven ∧
      Op.RebuildsOver (·.join Catalogue.orders .leftOuter .natural) Catalogue.users out
        Catalogue.idIsSeven ∧
      Op.RebuildsOver (Catalogue.users.join · .leftOuter .natural) Catalogue.orders out
        Catalogue.idIsSeven := by
  obtain ⟨out, hout⟩ :
      ∃ out, Catalogue.users.join Catalogue.orders .leftOuter .natural = .ok out := ⟨_, rfl⟩
  obtain ⟨hleft, hright⟩ := (restriction_pushdown Catalogue.idIsSeven).2.2.2.1 _ _ _ _ _ hout
  have hpushLeft := hleft (by decide)
  have hpushRight := hright (by decide)
  have husers : Catalogue.users.Admits Catalogue.idIsSeven := Op.admits_iff.mpr ⟨rfl, rfl⟩
  exact ⟨out, hout, hpushLeft.accepted.mpr husers, hpushLeft.rebuilt, hpushRight.rebuilt⟩

end AxiomCore
