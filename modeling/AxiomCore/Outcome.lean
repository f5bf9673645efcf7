import AxiomCore.Constructors
import AxiomCore.Library.Merge

/-!
What a constructor call shows to its caller: the cached header of the operator
it builds, or the error it reports. Two ways of writing an operator agree when
their outcomes are equal, so the laws of the operators are stated about
outcomes, errors included.
-/

namespace AxiomCore

open Checked Refined

namespace Schema

variable [Whittle]

/-- The header with the given columns, or the error of an operator that
computes them. -/
def checked (columns : List Attribute) : Except OpError Schema :=
  (tryNew columns).mapError .schema

@[simp] theorem checked_eq_ok {columns : List Attribute} {s : Schema} :
    checked columns = .ok s ↔ s.attributes = columns := by
  rw [checked, mapError_eq_ok, tryNew_eq_ok]

/-- Columns with distinct names can only be too many. -/
theorem checked_eq_error_of_nodup {columns : List Attribute} {e : OpError}
    (hnodup : (columns.map Attribute.name).Nodup) (hpos : 1 ≤ columns.length) :
    checked columns = .error e ↔
      maxSchemaAttributes < columns.length ∧ e = .schema (.cardinality columns.length) := by
  simp only [checked, mapError_eq_error, tryNew_eq_error]
  constructor
  · rintro ⟨source, ⟨hlength, rfl⟩ | ⟨-, index, hrepeat, -⟩, rfl⟩
    · refine ⟨?_, rfl⟩
      by_contra hle
      exact hlength ⟨hpos, Nat.le_of_not_lt hle⟩
    · exact absurd hnodup hrepeat.not_nodup
  · rintro ⟨hlt, rfl⟩
    refine ⟨_, Or.inl ⟨?_, rfl⟩, rfl⟩
    intro hlength
    exact absurd hlength.le_max (Nat.not_le_of_lt hlt)

end Schema

namespace Op

/-- The cached header of the operator that was built, or the error. -/
def outcome (built : Except OpError Op) : Except OpError Schema := built.map Op.schema

@[simp] theorem outcome_ok (op : Op) : outcome (.ok op) = .ok op.schema := rfl

@[simp] theorem outcome_error (e : OpError) : outcome (.error e) = .error e := rfl

theorem outcome_eq_ok {built : Except OpError Op} {s : Schema} :
    outcome built = .ok s ↔ ∃ op, built = .ok op ∧ op.schema = s := by
  cases built <;> simp

theorem outcome_eq_error {built : Except OpError Op} {e : OpError} :
    outcome built = .error e ↔ built = .error e := by
  cases built <;> simp

/-- A call succeeds exactly when its outcome is a header. -/
theorem exists_outcome_iff {built : Except OpError Op} :
    (∃ s, outcome built = .ok s) ↔ ∃ op, built = .ok op := by
  cases built <;> simp

theorem outcome_bind (built : Except OpError Op) (next : Op → Except OpError Op) :
    outcome (built >>= next) = built >>= fun op => outcome (next op) := by
  cases built <;> rfl

/-- A check in front of a call is a check in front of its outcome. -/
theorem outcome_after {α : Type} (check : Except OpError α) (next : α → Except OpError Op) :
    outcome (check >>= next) = check >>= fun a => outcome (next a) := by
  cases check <;> rfl

/-- A step that reads the operator made so far through its header alone. -/
theorem bind_schema {α : Type} (built : Except OpError Op) (next : Schema → Except OpError α) :
    (built >>= fun op => next op.schema) = outcome built >>= next := by
  cases built <;> rfl

section Constructors

variable [Whittle]

theorem outcome_withColumns (kind : OpKind) (columns : List Attribute) :
    outcome (withColumns kind columns) = Schema.checked columns := by
  unfold withColumns Schema.checked
  cases (Schema.tryNew columns).mapError OpError.schema <;> rfl

omit [Whittle] in
theorem outcome_restrict (input : Op) (predicate : Predicate) :
    outcome (input.restrict predicate) =
      checkPredicate input.schema predicate >>= fun _ => .ok input.schema := by
  unfold restrict
  cases checkPredicate input.schema predicate <;> rfl

/-- An unnest of a column that is a relation checks the header with the nested
columns in its place. -/
theorem outcome_unnest {input : Op} {path : AnyPath} {target : AttributeName} {nested : Schema}
    (hpath : path.target = some target)
    (hmem : ⟨target, .relation nested⟩ ∈ input.schema.attributes) :
    outcome (input.unnest path) = Schema.checked (input.schema.attributes.flatMap fun a =>
      if a.name = target then nested.attributes else [a]) := by
  have hfind : input.schema.find target = some ⟨target, .relation nested⟩ :=
    Schema.find_eq_some_iff.mpr ⟨hmem, rfl⟩
  simp only [unnest, hpath, okOr, Schema.findOrUnknown, hfind, nestedSchema, bind, Except.bind]
  exact outcome_withColumns _ _

/-- A modify of a column that is a relation checks the header with the other
relation in its place. -/
theorem outcome_modify {input sub : Op} {path : AnyPath} {target : AttributeName}
    {nested : Schema} (hpath : path.target = some target)
    (hmem : ⟨target, .relation nested⟩ ∈ input.schema.attributes) :
    outcome (input.modify path sub) = Schema.checked (input.schema.attributes.map fun a =>
      if a.name = target then ⟨a.name, .relation sub.schema⟩ else a) := by
  have hfind : input.schema.find target = some ⟨target, .relation nested⟩ :=
    Schema.find_eq_some_iff.mpr ⟨hmem, rfl⟩
  simp only [modify, hpath, okOr, Schema.findOrUnknown, hfind, nestedSchema, bind, Except.bind]
  exact outcome_withColumns _ _

theorem outcome_product (left right : Op) :
    outcome (left.product right) = concatDisjointSchemas left right := by
  unfold product
  cases concatDisjointSchemas left right <;> rfl

theorem outcome_join_equi (left right : Op) (kind : JoinKind) (pairs : EquiPairs) :
    outcome (left.join right kind (.equi pairs)) =
      forM pairs.items (checkPair left right) >>= fun _ => concatDisjointSchemas left right := by
  simp only [join, outcome_after]
  congr 1
  funext _
  cases concatDisjointSchemas left right <;> rfl

theorem outcome_join_theta (left right : Op) (kind : JoinKind) (predicate : Predicate) :
    outcome (left.join right kind (.theta predicate)) =
      concatDisjointSchemas left right >>= fun schema =>
        checkPredicate schema predicate >>= fun _ => .ok schema := by
  simp only [join, outcome_after]
  rfl

/-- The concatenation of two sides that share no name is checked as it is. -/
theorem concatDisjointSchemas_of_disjoint {left right : Op}
    (hdisjoint : ∀ name ∈ left.schema.names, name ∉ right.schema.names) :
    concatDisjointSchemas left right =
      Schema.checked (left.schema.attributes ++ right.schema.attributes) := by
  have hcheck : (forM right.schema.attributes fun r =>
      ensure (¬ left.schema.contains r.name) (OpError.duplicateAcrossOperands r.name)) =
        .ok () := by
    rw [forM_eq_ok]
    intro r hr
    rw [ensure_eq_ok, Schema.contains_iff]
    intro hleft
    exact hdisjoint _ hleft (Schema.mem_names_of_mem hr)
  rw [concatDisjointSchemas, hcheck]
  rfl

end Constructors

end Op

/-- The check a natural join makes of one column of left: a column of right
with its name has its type. -/
def Schema.agreesWith (right : Schema) (l : Attribute) : Except OpError Unit :=
  match right.find l.name with
  | some r => ensure (r.ty = l.ty) (.joinTypeMismatch l.name)
  | none => .ok ()

/-- The natural join of two headers: they agree on the columns they share, and
the result has the columns of both, those of left first. -/
def Schema.naturalJoin [Whittle] (left right : Schema) : Except OpError Schema := do
  forM left.attributes right.agreesWith
  checked (Keyed.merge Attribute.name left.attributes right.attributes)

namespace Op

/-- One step of the search for shared columns checks the column, and adds its
name when right has it. -/
theorem shareColumn_eq (right : Op) (shared : List AttributeName) (l : Attribute) :
    shareColumn right shared l = right.schema.agreesWith l >>= fun _ =>
      .ok (shared ++ [l.name].filter right.schema.contains) := by
  unfold shareColumn Schema.agreesWith
  cases hfind : right.schema.find l.name with
  | none =>
      have hcontains : right.schema.contains l.name = false := by simp [Schema.contains, hfind]
      simp [hcontains, pure, Except.pure, bind, Except.bind]
  | some r =>
      have hcontains : right.schema.contains l.name = true := by simp [Schema.contains, hfind]
      simp [hcontains, pure, Except.pure]

/-- The search for shared columns checks the columns of left in order, and
finds the names that right has. -/
theorem sharedNames_eq (left right : Op) :
    sharedNames left right =
      forM left.schema.attributes right.schema.agreesWith >>= fun _ =>
        .ok (left.schema.names.filter right.schema.contains) := by
  suffices hloop : ∀ (columns : List Attribute) (found : List AttributeName),
      columns.foldlM (shareColumn right) found =
        forM columns right.schema.agreesWith >>= fun _ =>
          .ok (found ++ (columns.map Attribute.name).filter right.schema.contains) by
    exact hloop left.schema.attributes []
  intro columns
  induction columns with
  | nil =>
      intro found
      simp [List.foldlM_nil, List.forM_nil, pure, Except.pure, bind, Except.bind]
  | cons l columns ih =>
      intro found
      have hnames : [l.name].filter right.schema.contains ++
          (columns.map Attribute.name).filter right.schema.contains =
            ((l :: columns).map Attribute.name).filter right.schema.contains := by
        rw [← List.filter_append]
        rfl
      rw [List.foldlM_cons, List.forM_cons, shareColumn_eq]
      cases right.schema.agreesWith l with
      | error e => rfl
      | ok u =>
          have hrest := ih (found ++ [l.name].filter right.schema.contains)
          rw [List.append_assoc, hnames] at hrest
          exact hrest

theorem typesAgree_iff {left right : Op} :
    TypesAgree left.schema right.schema ↔
      Keyed.Agree Attribute.name left.schema.attributes right.schema.attributes := by
  constructor
  · intro hagree l hl r hr hname
    have hty := hagree l hl r hr hname.symm
    cases l
    cases r
    simp_all
  · intro hagree l hl r hr hname
    rw [hagree l hl r hr hname.symm]

section Constructors

variable [Whittle]

/-- Whatever the kind, and whichever node it is built as, a natural join has
the header of the natural join of the two headers, or its error. -/
theorem outcome_join_natural (left right : Op) (kind : JoinKind) :
    outcome (left.join right kind .natural) = left.schema.naturalJoin right.schema := by
  simp only [join, outcome_after, sharedNames_eq, Schema.naturalJoin]
  cases hagree : forM left.schema.attributes right.schema.agreesWith with
  | error e => rfl
  | ok u =>
      have hshared : left.schema.names.filter right.schema.contains = [] →
          ∀ name ∈ left.schema.names, name ∉ right.schema.names := by
        simp [List.filter_eq_nil_iff]
      simp only [bind, Except.bind]
      split
      · rename_i hproduct
        have hdisjoint := hshared hproduct.1
        rw [outcome_product, concatDisjointSchemas_of_disjoint hdisjoint,
          Keyed.merge_of_disjoint hdisjoint]
      · rw [outcome_withColumns, filter_not_shared]
        rfl

end Constructors

end Op

end AxiomCore
