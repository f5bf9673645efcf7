import AxiomCore.Calls
import AxiomCore.Outcome
import AxiomCore.Library.Splice

/-!
Nest and unnest. They are inverse on headers up to the order of the columns,
also where the new column reuses a nested name and where a nested column has
the name of its own relation. A nest lists the nested columns in the order of
its operand, which is the order of the input exactly when the operand follows
it.
-/

namespace AxiomCore

open Checked Refined

namespace Op

/-- The nested columns are the columns that the operand names, in some order. -/
theorem nested_perm {input : Op} {attrs : AttributeSet} {nested : Schema}
    (hselect : input.schema.Selects attrs.items nested.attributes) :
    nested.attributes.Perm (input.schema.attributes.filter fun a => a.name ∈ attrs.items) := by
  have hnested : nested.attributes.Nodup := nested.nodup_names.of_map
  have hinput : input.schema.attributes.Nodup := input.schema.nodup_names.of_map
  apply (List.perm_ext_iff_of_nodup hnested (hinput.filter _)).mpr
  intro a
  rw [hselect.mem_iff, List.mem_filter, decide_eq_true_iff]

/-- The columns that a nest leaves do not have the new name. -/
theorem kept_ne_into {input : Op} {attrs : AttributeSet} {into : AttributeName}
    (hinto : into ∉ input.schema.names ∨ into ∈ attrs.items) :
    ∀ a ∈ input.schema.attributes.filter (fun a => a.name ∉ attrs.items), a.name ≠ into := by
  rintro a ha rfl
  obtain ⟨hmem, hkept⟩ := List.mem_filter.mp ha
  rw [decide_eq_true_iff] at hkept
  exact hinto.elim (absurd (Schema.mem_names_of_mem hmem)) hkept

/-- The nested header and the outer header are each a part of the input's header,
in its order. -/
def KeepsNestOrder (input : Op) (attrs : AttributeSet) (into : AttributeName) (op : Op) : Prop :=
  ∃ nested : Schema,
    nested.attributes = input.schema.attributes.filter (fun a => a.name ∈ attrs.items) ∧
    op.schema.attributes = (input.schema.attributes.filter fun a => a.name ∉ attrs.items) ++
      [⟨into, .relation nested⟩]

/-- The columns that an operand selects stand in the order of the input exactly
when its names do. -/
theorem selects_filter_iff {s : Schema} {names : List AttributeName} {columns : List Attribute}
    (hselect : s.Selects names columns) :
    columns = s.attributes.filter (fun a => a.name ∈ names) ↔ names.Sublist s.names := by
  constructor
  · intro heq
    rw [← hselect.map_name, heq]
    exact List.filter_sublist.map _
  · intro hsub
    have hnames : (s.attributes.filter fun a => a.name ∈ names).map Attribute.name = names := by
      have hordered := Keyed.eq_filter_of_sublist s.nodup_names hsub
      rw [Schema.names, List.filter_map] at hordered
      exact hordered.symm
    have hfilter : s.Selects names (s.attributes.filter fun a => a.name ∈ names) := by
      have hself : s.Selects ((s.attributes.filter fun a => a.name ∈ names).map Attribute.name)
          (s.attributes.filter fun a => a.name ∈ names) :=
        Schema.Selects.of_subset fun a ha => (List.mem_filter.mp ha).1
      rwa [hnames] at hself
    exact hselect.unique hfilter

section Constructors

variable [Whittle]

/-- What a nest makes of a header: the columns it leaves do not have the new
name, and the nested ones are the others. -/
theorem nest_columns {input op : Op} {attrs : AttributeSet} {into : AttributeName}
    (hnest : input.nest attrs into = .ok op) :
    ∃ nested : Schema, input.schema.Selects attrs.items nested.attributes ∧
      op.schema.attributes =
        (input.schema.attributes.filter fun a => a.name ∉ attrs.items) ++
          [⟨into, .relation nested⟩] ∧
      ∀ a ∈ input.schema.attributes.filter (fun a => a.name ∉ attrs.items), a.name ≠ into := by
  obtain ⟨nested, hselect, hinto, -, hcolumns⟩ := nest_eq_ok.mp hnest
  exact ⟨nested, hselect, hcolumns, kept_ne_into hinto⟩

/-- Unnesting what was just nested gives back the columns, the nested ones
last. -/
theorem unnest_nest {input op : Op} {attrs : AttributeSet} {into : AttributeName}
    (hnest : input.nest attrs into = .ok op) :
    ∃ out, op.unnest (.column into) = .ok out ∧
      out.schema.attributes.Perm input.schema.attributes := by
  obtain ⟨nested, hselect, hcolumns, hfresh⟩ := nest_columns hnest
  have hsplit : Keyed.Split Attribute.name op.schema.attributes
      (input.schema.attributes.filter fun a => a.name ∉ attrs.items) []
      ⟨into, .relation nested⟩ := ⟨hcolumns, hfresh, by simp⟩
  have hspliced := hsplit.flatMap nested.attributes
  rw [List.append_nil] at hspliced
  have hperm : ((input.schema.attributes.filter fun a => a.name ∉ attrs.items) ++
      nested.attributes).Perm input.schema.attributes := by
    have hparts := List.filter_append_perm (fun a => decide (a.name ∈ attrs.items))
      input.schema.attributes
    have hswap := (List.perm_append_comm.trans
      ((nested_perm hselect).append_right _)).trans hparts
    simpa using hswap
  obtain ⟨s, hs⟩ := Schema.exists_of_perm hperm
  have hmem : ⟨into, .relation nested⟩ ∈ op.schema.attributes := by
    rw [hcolumns]
    exact List.mem_append_right _ (List.mem_singleton.mpr rfl)
  have hunnest : outcome (op.unnest (.column into)) = .ok s := by
    rw [outcome_unnest (AnyPath.target_column into) hmem, hspliced]
    exact Schema.checked_eq_ok.mpr hs
  obtain ⟨out, hout, rfl⟩ := outcome_eq_ok.mp hunnest
  exact ⟨out, hout, hs ▸ hperm⟩

/-- Nesting what was just unnested gives back the relation column, moved
last. -/
theorem nest_unnest {input out : Op} {name : AttributeName} {nested : Schema}
    (hunnest : input.unnest (.column name) = .ok out)
    (hmem : ⟨name, .relation nested⟩ ∈ input.schema.attributes) (attrs : AttributeSet)
    (hattrs : attrs.items = nested.names) :
    ∃ back, out.nest attrs name = .ok back ∧
      back.schema.attributes =
        (input.schema.attributes.filter fun a => a.name ≠ name) ++ [⟨name, .relation nested⟩] := by
  obtain ⟨before, after, hsplit⟩ := Keyed.exists_split input.schema.headerRule.nodup hmem
  have hcolumns : out.schema.attributes = before ++ nested.attributes ++ after := by
    have houtcome := outcome_eq_ok.mpr ⟨out, hunnest, rfl⟩
    rw [outcome_unnest (AnyPath.target_column name) hmem, Schema.checked_eq_ok] at houtcome
    exact houtcome.trans (hsplit.flatMap nested.attributes)
  have hnested : ∀ a ∈ nested.attributes, a ∈ out.schema.attributes := by
    intro a ha
    rw [hcolumns]
    simp [ha]
  have hselect : out.schema.Selects attrs.items nested.attributes := by
    rw [hattrs]
    exact Schema.Selects.of_subset hnested
  have hkept : out.schema.attributes.filter (fun a => a.name ∉ attrs.items) = before ++ after := by
    have hnodup := out.schema.headerRule.nodup
    rw [hcolumns] at hnodup
    rw [hcolumns, hattrs]
    exact Keyed.filter_spliced hnodup
  have hinto : name ∉ out.schema.names ∨ name ∈ attrs.items := by
    by_cases hreused : name ∈ nested.names
    · exact Or.inr (hattrs ▸ hreused)
    · left
      intro hmem
      rw [Schema.mem_names_iff, hcolumns] at hmem
      obtain ⟨ty, hmem⟩ := hmem
      rcases List.mem_append.mp hmem with hmem | hafter
      · rcases List.mem_append.mp hmem with hbefore | hnested
        · exact hsplit.notBefore _ hbefore rfl
        · exact hreused (Schema.mem_names_of_mem hnested)
      · exact hsplit.notAfter _ hafter rfl
  have hperm : (before ++ after ++ [(⟨name, .relation nested⟩ : Attribute)]).Perm
      input.schema.attributes := by
    rw [hsplit.eq, List.append_assoc]
    exact List.perm_append_comm.append_left before
  obtain ⟨s, hs⟩ := Schema.exists_of_perm hperm
  refine ⟨⟨.nest out attrs name, s⟩, nest_eq_ok.mpr ⟨nested, hselect, hinto, rfl, ?_⟩, ?_⟩
  · rw [hkept]
    exact hs
  · rw [hsplit.filter]
    exact hs

theorem keepsNestOrder_iff {input op : Op} {attrs : AttributeSet} {into : AttributeName}
    (hnest : input.nest attrs into = .ok op) :
    KeepsNestOrder input attrs into op ↔ attrs.items.Sublist input.schema.names := by
  obtain ⟨nested, hselect, hcolumns, -⟩ := nest_columns hnest
  rw [← selects_filter_iff hselect]
  constructor
  · rintro ⟨nested', horder, hcolumns'⟩
    rw [hcolumns] at hcolumns'
    have hsame : nested = nested' := by simpa using hcolumns'
    rwa [hsame]
  · intro horder
    exact ⟨nested, horder, hcolumns⟩

/-- Two nests by the same names have one header exactly when they list the names
in one order. -/
theorem nest_schema_eq_iff {input op op' : Op} {attrs attrs' : AttributeSet}
    {into : AttributeName} (hperm : attrs.items.Perm attrs'.items)
    (hnest : input.nest attrs into = .ok op) (hnest' : input.nest attrs' into = .ok op') :
    op.schema = op'.schema ↔ attrs.items = attrs'.items := by
  obtain ⟨nested, hselect, hcolumns, -⟩ := nest_columns hnest
  obtain ⟨nested', hselect', hcolumns', -⟩ := nest_columns hnest'
  have houter : (input.schema.attributes.filter fun a => a.name ∉ attrs.items) =
      input.schema.attributes.filter fun a => a.name ∉ attrs'.items := by
    simp only [hperm.mem_iff]
  constructor
  · intro hschema
    rw [hschema, hcolumns', houter] at hcolumns
    have hsame : nested' = nested := by simpa using hcolumns
    rw [← hselect.map_name, ← hselect'.map_name, hsame]
  · intro heq
    have hsame : nested.attributes = nested'.attributes := (heq ▸ hselect).unique hselect'
    apply Schema.attributes_injective
    rw [hcolumns, hcolumns', houter, Schema.attributes_injective hsame]

end Constructors

end Op

section Kernel

variable [Whittle]

/-- Nest and unnest are inverse on headers up to the order of the columns. What
was nested can be unnested to the same columns, and what was unnested can be
nested back to the same relation column, moved last. -/
theorem nest_unnest_inverse :
    (∀ (r op : Op) (A : AttributeSet) (into : AttributeName), r.nest A into = .ok op →
      ∃ out, op.unnest (.column into) = .ok out ∧
        out.schema.attributes.Perm r.schema.attributes) ∧
    (∀ (r out : Op) (f : AttributeName) (S : Schema), r.unnest (.column f) = .ok out →
      ⟨f, .relation S⟩ ∈ r.schema.attributes →
      ∃ A back, AttributeSet.tryNew S.names = .ok A ∧ out.nest A f = .ok back ∧
        back.schema.attributes =
          (r.schema.attributes.filter fun a => a.name ≠ f) ++ [⟨f, .relation S⟩]) := by
  constructor
  · intro r op A into hnest
    exact Op.unnest_nest hnest
  · intro r out f S hunnest hmem
    have hattrs : AttributeSet.tryNew S.names = .ok ⟨S.names, S.keyedRule_names⟩ :=
      tryKeyed_eq_ok.mpr rfl
    obtain ⟨back, hback, hcolumns⟩ :=
      Op.nest_unnest hunnest hmem ⟨S.names, S.keyedRule_names⟩ rfl
    exact ⟨_, back, hattrs, hback, hcolumns⟩

/-- Which nests keep the order of the columns: those whose operand lists its
names in the order of the input's header. Nests by permuted operands have one
header, and can be united, exactly when the operands list one order. -/
theorem nest_order_iff :
    (∀ (r op : Op) (A : AttributeSet) (into : AttributeName), r.nest A into = .ok op →
      (Op.KeepsNestOrder r A into op ↔ A.items.Sublist r.schema.names)) ∧
    (∀ (r op op' : Op) (A A' : AttributeSet) (into : AttributeName), A.items.Perm A'.items →
      r.nest A into = .ok op → r.nest A' into = .ok op' →
      (op.schema = op'.schema ↔ A.items = A'.items) ∧
        ((∃ u, op.union op' = .ok u) ↔ A.items = A'.items)) := by
  constructor
  · intro r op A into hnest
    exact Op.keepsNestOrder_iff hnest
  · intro r op op' A A' into hperm hnest hnest'
    have hiff := Op.nest_schema_eq_iff hperm hnest hnest'
    refine ⟨hiff, ?_⟩
    rw [← hiff]
    simp [Op.union, Op.setOperator_eq_ok]

end Kernel

namespace Catalogue

def profile : AttributeName := ⟨"profile", by decide, by decide, by decide⟩

def nameThenId : AttributeSet := ⟨[name, id], by decide⟩

def idThenName : AttributeSet := ⟨[id, name], by decide⟩

/-- Totals of groups of users. -/
def groups : Op := .source <| .table
  (.ofAttributes [⟨profile, .relation users.schema⟩, ⟨total, .int64⟩] (by decide))
  ⟨"groups", by decide⟩

end Catalogue

/-- The names of the users are nested and unnested. The profiles of the groups are
unnested and nested back, and then stand last. -/
theorem nest_unnest_inverse_users :
    (∃ op out, Catalogue.users.nest Catalogue.nameOnly Catalogue.profile = .ok op ∧
      op.unnest (.column Catalogue.profile) = .ok out ∧
      out.schema.attributes.Perm Catalogue.users.schema.attributes) ∧
    ∃ out attrs back, Catalogue.groups.unnest (.column Catalogue.profile) = .ok out ∧
      AttributeSet.tryNew Catalogue.users.schema.names = .ok attrs ∧
      out.nest attrs Catalogue.profile = .ok back ∧
      back.schema.attributes = [⟨Catalogue.total, .int64⟩,
        ⟨Catalogue.profile, .relation Catalogue.users.schema⟩] := by
  constructor
  · obtain ⟨op, hnest⟩ :
        ∃ op, Catalogue.users.nest Catalogue.nameOnly Catalogue.profile = .ok op := ⟨_, rfl⟩
    obtain ⟨out, hout, hperm⟩ := nest_unnest_inverse.1 _ _ _ _ hnest
    exact ⟨op, out, hnest, hout, hperm⟩
  · obtain ⟨out, hunnest⟩ :
        ∃ out, Catalogue.groups.unnest (.column Catalogue.profile) = .ok out := ⟨_, rfl⟩
    have hprofile : ⟨Catalogue.profile, .relation Catalogue.users.schema⟩ ∈
        Catalogue.groups.schema.attributes := by decide
    obtain ⟨attrs, back, hattrs, hback, hcolumns⟩ :=
      nest_unnest_inverse.2 _ _ _ _ hunnest hprofile
    exact ⟨out, attrs, back, hunnest, hattrs, hback, hcolumns⟩

/-- Nested by their columns in order the users keep it, and cannot be united with those
that are nested with the name first. -/
theorem nest_order_users :
    ∃ op op', Catalogue.users.nest Catalogue.idThenName Catalogue.profile = .ok op ∧
      Catalogue.users.nest Catalogue.nameThenId Catalogue.profile = .ok op' ∧
      Op.KeepsNestOrder Catalogue.users Catalogue.idThenName Catalogue.profile op ∧
      ¬ ∃ united, op.union op' = .ok united := by
  obtain ⟨op, hnest⟩ :
      ∃ op, Catalogue.users.nest Catalogue.idThenName Catalogue.profile = .ok op := ⟨_, rfl⟩
  obtain ⟨op', hnest'⟩ :
      ∃ op, Catalogue.users.nest Catalogue.nameThenId Catalogue.profile = .ok op := ⟨_, rfl⟩
  have hperm : Catalogue.idThenName.items.Perm Catalogue.nameThenId.items := .swap _ _ _
  refine ⟨op, op', hnest, hnest', (nest_order_iff.1 _ _ _ _ hnest).mpr (by decide), ?_⟩
  rw [(nest_order_iff.2 _ _ _ _ _ _ hperm hnest hnest').2]
  decide

/-- Nested with the name first, the users have a nested header in another order
than their own. -/
theorem nest_order_reversed :
    ∃ op, Catalogue.users.nest Catalogue.nameThenId Catalogue.profile = .ok op ∧
      ¬ Op.KeepsNestOrder Catalogue.users Catalogue.nameThenId Catalogue.profile op := by
  obtain ⟨op, hnest⟩ :
      ∃ op, Catalogue.users.nest Catalogue.nameThenId Catalogue.profile = .ok op := ⟨_, rfl⟩
  refine ⟨op, hnest, ?_⟩
  rw [Op.keepsNestOrder_iff hnest]
  decide

end AxiomCore
