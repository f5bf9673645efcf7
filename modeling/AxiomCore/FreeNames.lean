import AxiomCore.Calls

/-!
What inference reads. Two headers that answer the lookups of the free names of
an expression alike infer it alike, errors included. An expression that one
header accepts is rejected by a header that lacks some of its free names, and
the blame falls on its leftmost attribute leaf that is missing: every node
before that leaf is inferred as before, so no other error comes first.
-/

namespace AxiomCore

open Checked

namespace Expression

/-- The names of the attribute leaves, left to right. -/
def attributeLeaves : Expression → List AttributeName
  | .attr name => [name]
  | .lit _ => []
  | .binOp _ lhs rhs => attributeLeaves lhs ++ attributeLeaves rhs
  | .unOp _ operand | .like operand _ | .inList operand _ | .isNull operand
  | .cast operand _ => attributeLeaves operand
  | .agg _ => []

/-- Without aggregates the free names are the names of the leaves. -/
theorem mem_freeAttrs_iff_mem_leaves {e : Expression} (hagg : containsAggregate e = false)
    {name : AttributeName} : name ∈ e.freeAttrs ↔ name ∈ e.attributeLeaves := by
  suffices hleaves : Expression.attr name ∈ e.postOrder ↔ name ∈ e.attributeLeaves by
    rw [mem_freeAttrs_iff, hleaves]
    constructor
    · rintro (hleaf | ⟨a, hnode, -⟩)
      · exact hleaf
      · have hcontains := (containsAggregate_iff e).mpr ⟨a, hnode⟩
        rw [hagg] at hcontains
        exact absurd hcontains nofun
    · exact Or.inl
  clear hagg
  induction e with
  | attr n | lit value | agg a => simp [postOrder, attributeLeaves]
  | binOp op lhs rhs ihl ihr => simp [postOrder, attributeLeaves, ihl, ihr]
  | unOp op operand ih | like operand pattern ih | inList operand values ih | isNull operand ih
  | cast operand target ih => simp [postOrder, attributeLeaves, ih]

/-- The leftmost attribute leaf that the header lacks. -/
def firstMissing (e : Expression) (schema : Schema) : Option AttributeName :=
  e.attributeLeaves.find? fun name => name ∉ schema.names

theorem firstMissing_eq_none {e : Expression} {schema : Schema} :
    e.firstMissing schema = none ↔ ∀ name ∈ e.attributeLeaves, name ∈ schema.names := by
  simp [firstMissing]

/-- Left operands are searched before right ones. -/
theorem firstMissing_binOp (op : BinOp) (lhs rhs : Expression) (schema : Schema) :
    (Expression.binOp op lhs rhs).firstMissing schema =
      (lhs.firstMissing schema).or (rhs.firstMissing schema) :=
  List.find?_append

end Expression

/-- The lookups that a header can answer are answered as another header answers
them. -/
def AgreesWherePresent (names : Finset AttributeName) (s t : Schema) : Prop :=
  ∀ name ∈ names, name ∈ t.names → t.lookup name = s.lookup name

theorem AgreesWherePresent.node {e node : Expression} {s t : Schema}
    (h : AgreesWherePresent e.freeAttrs s t) (hnode : node ∈ e.postOrder) :
    AgreesWherePresent node.freeAttrs s t :=
  fun name hname => h name (Expression.freeAttrs_node hnode hname)

section Missing

variable {e : Expression} {s t : Schema}

/-- A header that lacks no leaf infers the expression as the other one does. -/
theorem infer_of_firstMissing_none (hagg : containsAggregate e = false)
    (hagree : AgreesWherePresent e.freeAttrs s t) (hnone : e.firstMissing t = none) :
    infer e t = infer e s := by
  refine infer_congr fun name hname => hagree name hname ?_
  have hleaf := (Expression.mem_freeAttrs_iff_mem_leaves hagg).mp hname
  exact Expression.firstMissing_eq_none.mp hnone name hleaf

/-- The leftmost missing leaf is the error. -/
theorem infer_of_firstMissing_some {ty : Ty} {name : AttributeName}
    (hagg : containsAggregate e = false) (hty : infer e s = .ok ty)
    (hagree : AgreesWherePresent e.freeAttrs s t) (hsome : e.firstMissing t = some name) :
    infer e t = .error (.unknownAttribute name) := by
  induction e generalizing ty with
  | attr n =>
      have hmissing := List.find?_some hsome
      obtain rfl : name = n := by
        simpa [Expression.attributeLeaves] using List.mem_of_find?_eq_some hsome
      have habsent : t.lookup name = none := by
        rw [Schema.lookup_eq_none_iff]
        simpa using hmissing
      simp [infer, habsent]
  | lit value => simp [Expression.firstMissing, Expression.attributeLeaves] at hsome
  | agg a => simp [containsAggregate] at hagg
  | binOp op lhs rhs ihl ihr =>
      simp only [containsAggregate, Bool.or_eq_false_iff] at hagg
      simp only [infer, bind_eq_ok] at hty
      obtain ⟨lt, hl, rt, hr, -⟩ := hty
      have hagreel : AgreesWherePresent lhs.freeAttrs s t :=
        hagree.node (by simp [Expression.postOrder])
      have hagreer : AgreesWherePresent rhs.freeAttrs s t :=
        hagree.node (by simp [Expression.postOrder])
      rw [Expression.firstMissing_binOp] at hsome
      simp only [infer, bind_eq_error]
      cases hleft : lhs.firstMissing t with
      | some n =>
          rw [hleft, Option.some_or] at hsome
          obtain rfl := Option.some.inj hsome
          exact Or.inl (ihl hagg.1 hl hagreel hleft)
      | none =>
          -- the left operand keeps its type, so the right one is reached
          rw [hleft, Option.none_or] at hsome
          have hkeep := infer_of_firstMissing_none hagg.1 hagreel hleft
          exact Or.inr ⟨lt, hkeep.trans hl, Or.inl (ihr hagg.2 hr hagreer hsome)⟩
  | unOp op operand ih | like operand pattern ih | inList operand values ih | isNull operand ih
  | cast operand target ih =>
      simp only [infer, bind_eq_ok] at hty
      obtain ⟨ot, ho, -⟩ := hty
      have hagreeo : AgreesWherePresent operand.freeAttrs s t :=
        hagree.node (by simp [Expression.postOrder])
      simp only [infer, bind_eq_error]
      exact Or.inl (ih hagg ho hagreeo hsome)

end Missing

/-- Headers with the same mentioned columns give one result, wherever these stand and
whatever else there is. -/
theorem infer_columns {e : Expression} {s t : Schema}
    (hsame : ∀ a : Attribute, a.name ∈ e.freeAttrs → (a ∈ s.attributes ↔ a ∈ t.attributes)) :
    infer e s = infer e t := by
  refine infer_congr fun name hname => ?_
  apply Option.ext
  intro ty
  rw [Schema.lookup_eq_some_iff, Schema.lookup_eq_some_iff]
  exact hsame ⟨name, ty⟩ hname

/-- The free names of an expression are exactly what its inference depends on.
Headers that answer their lookups alike give the same result, so the order of
the columns and the columns that are not mentioned do not matter. A header that
accepts an aggregate-free expression has all of its names, and any header that
agrees with it where it can but lacks one of them reports the leftmost leaf that
is missing. -/
theorem infer_depends_on_free_attributes :
    (∀ (e : Expression) (s s' : Schema),
      (∀ name ∈ freeAttrsInto e ∅, s.lookup name = s'.lookup name) → infer e s = infer e s') ∧
    (∀ (e : Expression) (s s' : Schema),
      (∀ a : Attribute, a.name ∈ freeAttrsInto e ∅ → (a ∈ s.attributes ↔ a ∈ s'.attributes)) →
        infer e s = infer e s') ∧
    ∀ (e : Expression) (s : Schema) (ty : Ty), containsAggregate e = false →
      infer e s = .ok ty →
        (∀ name ∈ freeAttrsInto e ∅, name ∈ s.names) ∧
        ∀ s' : Schema,
          (∀ name ∈ freeAttrsInto e ∅, name ∈ s'.names → s'.lookup name = s.lookup name) →
          (∃ name ∈ freeAttrsInto e ∅, name ∉ s'.names) →
            ∃ name, e.firstMissing s' = some name ∧
              infer e s' = .error (.unknownAttribute name) := by
  refine ⟨fun e s s' => infer_congr, fun e s s' => infer_columns, ?_⟩
  intro e s ty hagg hty
  constructor
  · exact freeAttrs_subset_names hagg hty
  · intro s' hagree hlacks
    obtain ⟨absent, hfree, habsent⟩ := hlacks
    cases hfirst : e.firstMissing s' with
    | none =>
        have hleaf := (Expression.mem_freeAttrs_iff_mem_leaves hagg).mp hfree
        exact absurd (Expression.firstMissing_eq_none.mp hfirst absent hleaf) habsent
    | some name => exact ⟨name, rfl, infer_of_firstMissing_some hagg hty hagree hfirst⟩

/-- The users without their id. -/
def Catalogue.byName : Schema := .ofAttributes [⟨name, .string⟩] (by decide)

/-- The orders have the id of the users, so a comparison of it is inferred alike over
both, and a header with the name only is blamed for the id. -/
theorem infer_depends_on_free_attributes_users :
    infer Catalogue.idIsSeven Catalogue.users.schema =
        infer Catalogue.idIsSeven Catalogue.orders.schema ∧
      ∃ name, Catalogue.idIsSeven.firstMissing Catalogue.byName = some name ∧
        infer Catalogue.idIsSeven Catalogue.byName = .error (.unknownAttribute name) := by
  obtain ⟨hsame, -, hblame⟩ := infer_depends_on_free_attributes
  constructor
  · exact hsame _ _ _ (by decide)
  · have haccepted := hblame Catalogue.idIsSeven Catalogue.users.schema .bool rfl rfl
    exact haccepted.2 Catalogue.byName (by decide) ⟨Catalogue.id, by decide, by decide⟩

end AxiomCore
