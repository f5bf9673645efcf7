import Mathlib.Data.List.Perm.Subperm
import AxiomCore.Pushdown

/-!
Projection pruning. A projection reads only the columns it lists, and a
predicate only those it mentions, so an input may first be reduced to exactly
these columns, in any order, without changing what is accepted or the header
that comes out.
-/

namespace AxiomCore

open Checked Refined

/-- The names a predicate mentions; none for a closure. -/
def Predicate.freeAttrs : Predicate → Finset AttributeName
  | .expr b => b.expr.freeAttrs
  | .opaqueClosure _ => ∅

/-- A predicate check reads a header only through the predicate's names. -/
theorem checkPredicate_congr {p : Predicate} {s t : Schema} (h : AgreeOn p.freeAttrs s t) :
    checkPredicate s p = checkPredicate t p := by
  cases p with
  | expr b => simp only [checkPredicate, infer_congr h]
  | opaqueClosure id => rfl

/-- An accepted predicate mentions only names of the header. -/
theorem freeAttrs_subset_of_checkPredicate {p : Predicate} {s : Schema} {u : Unit}
    (h : checkPredicate s p = .ok u) : ∀ name ∈ p.freeAttrs, name ∈ s.names := by
  cases p with
  | expr b =>
      obtain ⟨hagg, hty⟩ := checkPredicate_expr_ok.mp h
      exact freeAttrs_subset_names hagg hty
  | opaqueClosure id => simp [Predicate.freeAttrs]

/-- An accepted predicate is accepted over any header that keeps the columns
with its names. -/
theorem checkPredicate_of_kept {p : Predicate} {s t : Schema} {names : Finset AttributeName}
    (hcheck : checkPredicate s p = .ok ())
    (hkept : ∀ a ∈ s.attributes, a.name ∈ names ∪ p.freeAttrs → a ∈ t.attributes) :
    checkPredicate t p = .ok () := by
  have hagree : AgreeOn p.freeAttrs s t := by
    apply agreeOn_of_kept (freeAttrs_subset_of_checkPredicate hcheck)
    intro a ha hname
    exact hkept a ha (Finset.mem_union_right _ hname)
  rw [← checkPredicate_congr hagree, hcheck]

/-- A selection is made again over any header that has the selected columns. -/
theorem Schema.Selects.transfer {s t : Schema} {names : List AttributeName}
    {columns : List Attribute} (h : s.Selects names columns)
    (hkept : ∀ a ∈ columns, a ∈ t.attributes) : t.Selects names columns := by
  induction h with
  | nil => exact .nil
  | cons hfind _ ih =>
      rw [List.forall_mem_cons] at hkept
      have hname := (Schema.find_eq_some_iff.mp hfind).2
      exact .cons (Schema.find_eq_some_iff.mpr ⟨hkept.1, hname⟩) (ih hkept.2)

/-- `attrs` lists exactly the names of the header that are needed, in any
order. -/
def AttributeSet.KeepsNeeded (attrs : AttributeSet) (s : Schema) (needed : Finset AttributeName) :
    Prop :=
  ∀ name, name ∈ attrs.items ↔ name ∈ s.names ∧ name ∈ needed

/-- A header with a needed name can be pruned. -/
theorem AttributeSet.exists_keepsNeeded {s : Schema} {needed : Finset AttributeName}
    (h : ∃ name ∈ s.names, name ∈ needed) : ∃ attrs : AttributeSet, attrs.KeepsNeeded s needed := by
  obtain ⟨name, hname, hneeded⟩ := h
  have hkept : name ∈ s.names.filter (· ∈ needed) := by simp [hname, hneeded]
  have hpos : 1 ≤ (s.names.filter (· ∈ needed)).length := List.length_pos_of_mem hkept
  have rule : KeyedRule 1 maxSchemaAttributes id (s.names.filter (· ∈ needed)) :=
    s.keyedRule_names.sublist List.filter_sublist hpos
  refine ⟨⟨s.names.filter (· ∈ needed), rule⟩, ?_⟩
  intro n
  simp

/-- Two headers pruned from the sides of a concatenation concatenate again. -/
theorem Schema.exists_append_pruned {l r l' r' s : Schema}
    (hconcat : s.attributes = l.attributes ++ r.attributes)
    (hl : ∀ a ∈ l'.attributes, a ∈ l.attributes) (hr : ∀ a ∈ r'.attributes, a ∈ r.attributes) :
    ∃ s' : Schema, s'.attributes = l'.attributes ++ r'.attributes := by
  have hnames := s.nodup_names
  rw [Schema.names, hconcat, List.map_append] at hnames
  have hdisjoint := List.disjoint_of_nodup_append hnames
  have hnodup : ((l'.attributes ++ r'.attributes).map Attribute.name).Nodup := by
    rw [List.map_append, List.nodup_append']
    refine ⟨l'.nodup_names, r'.nodup_names, ?_⟩
    intro name hleft hright
    obtain ⟨a, ha, rfl⟩ := List.mem_map.mp hleft
    obtain ⟨b, hb, hname⟩ := List.mem_map.mp hright
    have hamem : a.name ∈ l.names := Schema.mem_names_of_mem (hl a ha)
    have hbmem : b.name ∈ r.names := Schema.mem_names_of_mem (hr b hb)
    exact hdisjoint hamem (hname ▸ hbmem)
  have hsubset : l'.attributes ++ r'.attributes ⊆ s.attributes := by
    intro a ha
    rw [hconcat, List.mem_append]
    exact (List.mem_append.mp ha).imp (hl a) (hr a)
  have hmin : 1 ≤ (l'.attributes ++ r'.attributes).length := by
    have hleft := l'.headerRule.min_le
    rw [List.length_append]
    omega
  have hmax : (l'.attributes ++ r'.attributes).length ≤ maxSchemaAttributes := by
    have hlength := hnodup.of_map.length_le_of_subset hsubset
    have hbound := s.headerRule.le_max
    omega
  exact Schema.exists_attributes_iff.mpr ⟨⟨hmin, hmax⟩, hnodup⟩

namespace Op

section Constructors

variable [Whittle]

/-- A projection exists exactly when every name it lists is a column. -/
theorem exists_project_iff {input : Op} {attrs : AttributeSet} :
    (∃ op, input.project attrs = .ok op) ↔ ∀ name ∈ attrs.items, name ∈ input.schema.names := by
  constructor
  · rintro ⟨op, hproject⟩
    exact (project_eq_ok.mp hproject).2.subset_names
  · intro hnames
    obtain ⟨columns, hselect⟩ := Schema.Selects.exists_of_subset hnames
    have hkeys : columns.map Attribute.name = attrs.items := hselect.map_name
    have hlength : columns.length = attrs.items.length := by
      rw [← hkeys, List.length_map]
    have hmin := attrs.rule.min_le
    have hmax := attrs.rule.le_max
    have hnodup : (columns.map Attribute.name).Nodup := by
      rw [hkeys]
      simpa using attrs.rule.nodup
    have rule : HeaderRule columns := ⟨⟨by omega, by omega⟩, hnodup⟩
    obtain ⟨schema, rfl⟩ := Schema.exists_attributes_iff.mpr rule
    exact ⟨⟨_, schema⟩, project_eq_ok.mpr ⟨rfl, hselect⟩⟩

/-- A projection of another input whose columns include the projected ones has
the same header. -/
theorem project_transfer {input out : Op} (input' : Op) {attrs : AttributeSet}
    (hout : input.project attrs = .ok out)
    (hkept : ∀ a ∈ input.schema.attributes, a.name ∈ attrs.items → a ∈ input'.schema.attributes) :
    ∃ out', input'.project attrs = .ok out' ∧ out'.schema = out.schema := by
  obtain ⟨-, hselect⟩ := project_eq_ok.mp hout
  have hselect' : input'.schema.Selects attrs.items out.schema.attributes := by
    apply hselect.transfer
    intro a ha
    obtain ⟨hmem, hname⟩ := hselect.mem_iff.mp ha
    exact hkept a hmem hname
  exact ⟨⟨.project input' attrs, out.schema⟩, project_eq_ok.mpr ⟨rfl, hselect'⟩, rfl⟩

/-- Pruning keeps exactly the needed columns. -/
theorem exists_pruned {input : Op} {attrs : AttributeSet} {needed : Finset AttributeName}
    (hkeeps : attrs.KeepsNeeded input.schema needed) :
    ∃ pruned, input.project attrs = .ok pruned ∧ ∀ a, a ∈ pruned.schema.attributes ↔
      a ∈ input.schema.attributes ∧ a.name ∈ needed := by
  have hnames : ∀ name ∈ attrs.items, name ∈ input.schema.names := by
    intro name hname
    exact ((hkeeps name).mp hname).1
  obtain ⟨pruned, hpruned⟩ := exists_project_iff.mpr hnames
  obtain ⟨-, hselect⟩ := project_eq_ok.mp hpruned
  refine ⟨pruned, hpruned, ?_⟩
  intro a
  rw [hselect.mem_iff, hkeeps]
  constructor
  · rintro ⟨ha, -, hneeded⟩
    exact ⟨ha, hneeded⟩
  · rintro ⟨ha, hneeded⟩
    exact ⟨ha, Schema.mem_names_of_mem ha, hneeded⟩

theorem project_project {input out : Op} {attrs inner : AttributeSet}
    (hout : input.project attrs = .ok out) :
    ((∃ op, out.project inner = .ok op) ↔ ∀ name ∈ inner.items, name ∈ attrs.items) ∧
      ∀ op, out.project inner = .ok op →
        ∃ direct, input.project inner = .ok direct ∧ direct.schema = op.schema := by
  obtain ⟨-, hselect⟩ := project_eq_ok.mp hout
  have hnames : out.schema.names = attrs.items := hselect.map_name
  refine ⟨by rw [exists_project_iff, hnames], ?_⟩
  intro op hop
  apply project_transfer input hop
  intro a ha _
  exact (hselect.mem_iff.mp ha).1

theorem project_extend {input extended out : Op} {name : AttributeName} {expr : Expression}
    {attrs : AttributeSet} (hextended : input.extend name expr = .ok extended)
    (hout : extended.project attrs = .ok out) (hname : name ∉ attrs.items) :
    ∃ direct, input.project attrs = .ok direct ∧ direct.schema = out.schema := by
  obtain ⟨ty, -, -, -, -, hcolumns⟩ := extend_eq_ok.mp hextended
  apply project_transfer input hout
  intro a ha hkept
  rw [hcolumns, List.mem_append, List.mem_singleton] at ha
  rcases ha with ha | rfl
  · exact ha
  · exact absurd hkept hname

/-- The input can be pruned to the needed names, and over any such pruning the
operator is built, and projected, with the header of `out`. -/
def InputPrunable (build : Op → Except OpError Op) (input out : Op) (attrs : AttributeSet)
    (needed : Finset AttributeName) : Prop :=
  (∃ keep : AttributeSet, keep.KeepsNeeded input.schema needed) ∧
  ∀ keep : AttributeSet, keep.KeepsNeeded input.schema needed →
    ∃ pruned built out', input.project keep = .ok pruned ∧ build pruned = .ok built ∧
      built.project attrs = .ok out' ∧ out'.schema = out.schema

/-- The same for an operator over two inputs. -/
def SidesPrunable (build : Op → Op → Except OpError Op) (left right out : Op)
    (attrs : AttributeSet) (needed : Finset AttributeName) : Prop :=
  (∃ keep : AttributeSet, keep.KeepsNeeded left.schema needed) ∧
  (∃ keep : AttributeSet, keep.KeepsNeeded right.schema needed) ∧
  ∀ keepLeft keepRight : AttributeSet, keepLeft.KeepsNeeded left.schema needed →
    keepRight.KeepsNeeded right.schema needed →
    ∃ left' right' built out', left.project keepLeft = .ok left' ∧
      right.project keepRight = .ok right' ∧ build left' right' = .ok built ∧
      built.project attrs = .ok out' ∧ out'.schema = out.schema

/-- A restriction is built again over an input pruned to the projected and the
mentioned columns. -/
theorem inputPrunable_restrict {input restricted out : Op} {p : Predicate} {attrs : AttributeSet}
    (hrestricted : input.restrict p = .ok restricted) (hout : restricted.project attrs = .ok out) :
    InputPrunable (·.restrict p) input out attrs (attrs.items.toFinset ∪ p.freeAttrs) := by
  obtain ⟨hcheck, rfl⟩ := restrict_eq_ok.mp hrestricted
  constructor
  · obtain ⟨name, hname⟩ := List.exists_mem_of_length_pos attrs.rule.min_le
    have hinput : name ∈ input.schema.names := (project_eq_ok.mp hout).2.subset_names name hname
    have hneeded : name ∈ attrs.items.toFinset ∪ p.freeAttrs := by simp [hname]
    exact AttributeSet.exists_keepsNeeded ⟨name, hinput, hneeded⟩
  · intro keep hkeeps
    obtain ⟨pruned, hpruned, hmem⟩ := exists_pruned hkeeps
    have hkept : ∀ a ∈ input.schema.attributes, a.name ∈ attrs.items.toFinset ∪ p.freeAttrs →
        a ∈ pruned.schema.attributes := by
      intro a ha hname
      exact (hmem a).mpr ⟨ha, hname⟩
    have hcheck' := checkPredicate_of_kept hcheck hkept
    have hprojected : ∀ a ∈ input.schema.attributes, a.name ∈ attrs.items →
        a ∈ pruned.schema.attributes := by
      intro a ha hname
      exact hkept a ha (by simp [hname])
    obtain ⟨out', hout', hschema⟩ :=
      project_transfer ⟨.restrict pruned p, pruned.schema⟩ hout hprojected
    exact ⟨pruned, _, out', hpruned, restrict_eq_ok.mpr ⟨hcheck', rfl⟩, hout', hschema⟩

/-- Both sides of a concatenation can be pruned, and the concatenation of the
pruned sides keeps the needed columns. -/
theorem exists_pruned_sides {left right joined : Op} {needed : Finset AttributeName}
    {keepLeft keepRight : AttributeSet}
    (hcolumns : joined.schema.attributes = left.schema.attributes ++ right.schema.attributes)
    (hleft : keepLeft.KeepsNeeded left.schema needed)
    (hright : keepRight.KeepsNeeded right.schema needed) :
    ∃ left' right', left.project keepLeft = .ok left' ∧ right.project keepRight = .ok right' ∧
      ∃ combined : Schema,
        combined.attributes = left'.schema.attributes ++ right'.schema.attributes ∧
        ∀ a ∈ joined.schema.attributes, a.name ∈ needed → a ∈ combined.attributes := by
  obtain ⟨left', hleft', hmemLeft⟩ := exists_pruned hleft
  obtain ⟨right', hright', hmemRight⟩ := exists_pruned hright
  obtain ⟨combined, hcombined⟩ := Schema.exists_append_pruned hcolumns
    (fun a ha => ((hmemLeft a).mp ha).1) fun a ha => ((hmemRight a).mp ha).1
  refine ⟨left', right', hleft', hright', combined, hcombined, ?_⟩
  intro a ha hname
  rw [hcolumns, List.mem_append] at ha
  rw [hcombined, List.mem_append, hmemLeft, hmemRight]
  rcases ha with ha | ha
  · exact Or.inl ⟨ha, hname⟩
  · exact Or.inr ⟨ha, hname⟩

/-- A theta join is built again over sides pruned to the projected and the
mentioned columns. -/
theorem sidesPrunable_theta {left right joined out : Op} {kind : JoinKind} {p : Predicate}
    {attrs : AttributeSet} (hjoined : left.join right kind (.theta p) = .ok joined)
    (hout : joined.project attrs = .ok out)
    (hleft : ∃ n ∈ left.schema.names, n ∈ attrs.items.toFinset ∪ p.freeAttrs)
    (hright : ∃ n ∈ right.schema.names, n ∈ attrs.items.toFinset ∪ p.freeAttrs) :
    SidesPrunable (·.join · kind (.theta p)) left right out attrs
      (attrs.items.toFinset ∪ p.freeAttrs) := by
  refine ⟨AttributeSet.exists_keepsNeeded hleft, AttributeSet.exists_keepsNeeded hright, ?_⟩
  intro keepLeft keepRight hkeepLeft hkeepRight
  obtain ⟨hcheck, -, hcolumns⟩ := join_theta_eq_ok.mp hjoined
  obtain ⟨left', right', hleft', hright', combined, hcombined, hkept⟩ :=
    exists_pruned_sides hcolumns hkeepLeft hkeepRight
  have hcheck' := checkPredicate_of_kept hcheck hkept
  have hprojected : ∀ a ∈ joined.schema.attributes, a.name ∈ attrs.items →
      a ∈ combined.attributes := by
    intro a ha hname
    exact hkept a ha (by simp [hname])
  obtain ⟨out', hout', hschema⟩ :=
    project_transfer ⟨.join left' right' kind (.theta p), combined⟩ hout hprojected
  exact ⟨left', right', _, out', hleft', hright',
    join_theta_eq_ok.mpr ⟨hcheck', rfl, hcombined⟩, hout', hschema⟩

theorem sidesPrunable_product {left right joined out : Op} {attrs : AttributeSet}
    (hjoined : left.product right = .ok joined) (hout : joined.project attrs = .ok out)
    (hleft : ∃ n ∈ left.schema.names, n ∈ attrs.items.toFinset)
    (hright : ∃ n ∈ right.schema.names, n ∈ attrs.items.toFinset) :
    SidesPrunable (·.product ·) left right out attrs attrs.items.toFinset := by
  refine ⟨AttributeSet.exists_keepsNeeded hleft, AttributeSet.exists_keepsNeeded hright, ?_⟩
  intro keepLeft keepRight hkeepLeft hkeepRight
  obtain ⟨-, hcolumns⟩ := product_eq_ok.mp hjoined
  obtain ⟨left', right', hleft', hright', combined, hcombined, hkept⟩ :=
    exists_pruned_sides hcolumns hkeepLeft hkeepRight
  have hprojected : ∀ a ∈ joined.schema.attributes, a.name ∈ attrs.items →
      a ∈ combined.attributes := by
    intro a ha hname
    exact hkept a ha (List.mem_toFinset.mpr hname)
  obtain ⟨out', hout', hschema⟩ :=
    project_transfer ⟨.product left' right', combined⟩ hout hprojected
  exact ⟨left', right', _, out', hleft', hright', product_eq_ok.mpr ⟨rfl, hcombined⟩, hout',
    hschema⟩

end Constructors

end Op

section Kernel

variable [Whittle]

/-- Projection pruning keeps what is accepted and the header: a projection of
a projection, of an unneeded computed column, of a restriction, of a theta join
of any kind and of a product. The pruned inputs list exactly the needed names,
in any order. -/
theorem projection_pruning :
    (∀ r A p, Op.project r A = .ok p → ∀ B,
      ((∃ q, p.project B = .ok q) ↔ ∀ n ∈ B.items, n ∈ A.items) ∧
        ∀ q, p.project B = .ok q → ∃ q', r.project B = .ok q' ∧ q'.schema = q.schema) ∧
    (∀ r n x extended A p, Op.extend r n x = .ok extended → extended.project A = .ok p →
      n ∉ A.items → ∃ q, r.project A = .ok q ∧ q.schema = p.schema) ∧
    (∀ r p restricted A out, Op.restrict r p = .ok restricted → restricted.project A = .ok out →
      Op.InputPrunable (·.restrict p) r out A (A.items.toFinset ∪ p.freeAttrs)) ∧
    (∀ l r kind p joined A out, Op.join l r kind (.theta p) = .ok joined →
      joined.project A = .ok out →
      (∃ n ∈ l.schema.names, n ∈ A.items.toFinset ∪ p.freeAttrs) →
      (∃ n ∈ r.schema.names, n ∈ A.items.toFinset ∪ p.freeAttrs) →
      Op.SidesPrunable (·.join · kind (.theta p)) l r out A (A.items.toFinset ∪ p.freeAttrs)) ∧
    (∀ l r joined A out, Op.product l r = .ok joined → joined.project A = .ok out →
      (∃ n ∈ l.schema.names, n ∈ A.items.toFinset) →
      (∃ n ∈ r.schema.names, n ∈ A.items.toFinset) →
      Op.SidesPrunable (·.product ·) l r out A A.items.toFinset) :=
  ⟨fun _ _ _ hp _ => Op.project_project hp, fun _ _ _ _ _ _ => Op.project_extend,
    fun _ _ _ _ _ => Op.inputPrunable_restrict, fun _ _ _ _ _ _ _ => Op.sidesPrunable_theta,
    fun _ _ _ _ _ => Op.sidesPrunable_product⟩

end Kernel

/-- The name of the seventh user needs the names and the ids of the users. -/
theorem projection_pruning_users :
    ∃ restricted out, Catalogue.users.restrict (.expr Catalogue.seventh) = .ok restricted ∧
      restricted.project Catalogue.nameOnly = .ok out ∧
      Op.InputPrunable (·.restrict (.expr Catalogue.seventh)) Catalogue.users out
        Catalogue.nameOnly (Catalogue.nameOnly.items.toFinset ∪ Catalogue.idIsSeven.freeAttrs) := by
  obtain ⟨restricted, hrestricted⟩ :
      ∃ op, Catalogue.users.restrict (.expr Catalogue.seventh) = .ok op := ⟨_, rfl⟩
  have hschema := congrArg Op.schema (Op.restrict_eq_ok.mp hrestricted).2
  obtain ⟨out, hout⟩ : ∃ out, restricted.project Catalogue.nameOnly = .ok out := by
    rw [Op.exists_project_iff, hschema]
    decide
  exact ⟨restricted, out, hrestricted, hout, projection_pruning.2.2.1 _ _ _ _ _ hrestricted hout⟩

end AxiomCore
