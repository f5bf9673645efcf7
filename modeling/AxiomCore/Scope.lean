import AxiomCore.FreeNames
import AxiomCore.Outcome
import AxiomCore.Pushdown

/-!
Expressions over part of a header. What a header accepts has the same type over
some of its columns, unless it mentions a name that is not among them; then the
leftmost such name is the error. So a list of calls that each take an accepted
expression goes through when every expression stands where its names are in
scope.
-/

namespace AxiomCore

open Checked

/-- The leftmost attribute leaf that is none of the names. -/
def Expression.missingIn (e : Expression) (names : List AttributeName) : Option AttributeName :=
  e.attributeLeaves.find? fun name => name ∉ names

section Infer

variable {e : Expression} {s total : Schema} {ty : Ty}

theorem infer_part (hpart : s.attributes ⊆ total.attributes) (hfree : containsAggregate e = false)
    (hty : infer e total = .ok ty) :
    infer e s =
      match e.missingIn s.names with
      | none => .ok ty
      | some name => .error (.unknownAttribute name) := by
  have hagree : AgreesWherePresent e.freeAttrs total s := by
    intro name _ hname
    exact (Schema.lookup_eq_of_mem hname fun a ha _ => hpart ha).symm
  cases hmissing : e.missingIn s.names with
  | none =>
      have hfirst : e.firstMissing s = none := hmissing
      exact (infer_of_firstMissing_none hfree hagree hfirst).trans hty
  | some name =>
      have hfirst : e.firstMissing s = some name := hmissing
      exact infer_of_firstMissing_some hfree hty hagree hfirst

/-- What some of the columns accept, all of them accept. -/
theorem infer_whole (hpart : s.attributes ⊆ total.attributes)
    (hfree : containsAggregate e = false) (hty : infer e s = .ok ty) :
    infer e total = .ok ty := by
  have hagree : AgreeOn e.freeAttrs s total :=
    agreeOn_of_kept (freeAttrs_subset_names hfree hty) fun a ha _ => hpart ha
  exact (infer_congr hagree).symm.trans hty

end Infer

namespace Op

/-- The header, unless a name is out of scope. -/
def verdict (missing : Option AttributeName) (schema : Schema) : Except OpError Schema :=
  match missing with
  | none => .ok schema
  | some name => .error (.infer (.unknownAttribute name))

/-- A verdict goes through to the next call, or ends with the missing name. -/
theorem outcome_bind_verdict {built : Except OpError Op} {missing : Option AttributeName}
    {schema : Schema} {next : Op → Except OpError Op}
    (hbuilt : outcome built = verdict missing schema) :
    (∃ name, missing = some name ∧
        outcome (built >>= next) = .error (.infer (.unknownAttribute name))) ∨
      ∃ op, missing = none ∧ op.schema = schema ∧
        outcome (built >>= next) = outcome (next op) := by
  cases missing with
  | some name =>
      have herror : built = .error (.infer (.unknownAttribute name)) :=
        outcome_eq_error.mp hbuilt
      exact Or.inl ⟨name, rfl, by rw [herror]; rfl⟩
  | none =>
      obtain ⟨op, hop, hschema⟩ := outcome_eq_ok.mp hbuilt
      exact Or.inr ⟨op, rfl, hschema, by rw [hop]; rfl⟩

/-- A restriction over some columns of a header that accepts the condition. -/
theorem outcome_restrict_part {input : Op} {b : BoolExpression} {total : Schema}
    (hpart : input.schema.attributes ⊆ total.attributes)
    (hfree : containsAggregate b.expr = false) (hty : infer b.expr total = .ok .bool) :
    outcome (input.restrict (.expr b)) =
      verdict (b.expr.missingIn input.schema.names) input.schema := by
  have hinfer := infer_part hpart hfree hty
  rw [outcome_restrict]
  cases hmissing : b.expr.missingIn input.schema.names with
  | none =>
      rw [hmissing] at hinfer
      have hcheck : checkPredicate input.schema (.expr b) = .ok () :=
        checkPredicate_expr_ok.mpr ⟨hfree, hinfer⟩
      rw [hcheck]
      rfl
  | some name =>
      rw [hmissing] at hinfer
      simp [checkPredicate, hfree, hinfer, verdict, ensure, bind, Except.bind, Except.mapError]

/-- An extend over some columns of a header that has the column and accepts the
expression for it. -/
theorem outcome_extend_part [Whittle] {input : Op} {name : AttributeName} {e : Expression}
    {ty : Ty} {s total : Schema} (hpart : input.schema.attributes ⊆ total.attributes)
    (hfree : containsAggregate e = false) (hty : infer e total = .ok ty)
    (hs : s.attributes = input.schema.attributes ++ [⟨name, ty⟩]) :
    outcome (input.extend name e) = verdict (e.missingIn input.schema.names) s := by
  have hfresh : name ∉ input.schema.names := by
    have hnodup := s.nodup_names
    rw [Schema.names, hs, List.map_append] at hnodup
    intro hname
    exact List.disjoint_of_nodup_append hnodup hname (by simp)
  have hcontains : ¬ input.schema.contains name = true := by rwa [Schema.contains_iff]
  have hinfer := infer_part hpart hfree hty
  cases hmissing : e.missingIn input.schema.names with
  | none =>
      rw [hmissing] at hinfer
      apply outcome_eq_ok.mpr
      exact ⟨⟨.extend input name e, s⟩,
        extend_eq_ok.mpr ⟨ty, hfresh, hfree, hinfer, rfl, hs⟩, rfl⟩
  | some missing =>
      rw [hmissing] at hinfer
      apply outcome_eq_error.mpr
      simp [extend, hcontains, hfree, hinfer, ensure, bind, Except.bind, Except.mapError]

end Op

end AxiomCore
