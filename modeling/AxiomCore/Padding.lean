import AxiomCore.RowLayout

/-!
The padded rows of outer joins. A side without a match is emitted with the
other side's columns null. The header of a join does not depend on its kind, so
it has a null for every padded column only where the column is already
optional.
-/

namespace AxiomCore

open Checked Refined

/-- The null value. -/
abbrev Value.null : Value := .optional none

theorem conforms_null_iff {ty : Ty} : Conforms .null ty ↔ ∃ inner, ty = .optional inner := by
  constructor
  · rintro (_ | _)
    exact ⟨_, rfl⟩
  · rintro ⟨inner, rfl⟩
    exact .absent inner

section Inhabitants

/-- A value of every type. -/
def Ty.sample : Ty → Value
  | .bool => .bool false
  | .int32 => .int32 0
  | .int64 => .int64 0
  | .float64 => .float64 ⟨0, by decide⟩
  | .decimal => .decimal ⟨"0", by decide⟩
  | .string => .string ""
  | .bytes => .bytes []
  | .dateTime => .dateTime ⟨"1970-01-01T00:00:00Z", by decide⟩
  | .json => .json ⟨"null", by decide⟩
  | .relation _ => .relation ⟨0, by decide, by decide, nofun⟩
  | .array _ => .array ⟨0, by decide, by decide, nofun⟩
  | .optional _ => .null

theorem conforms_sample (ty : Ty) : Conforms ty.sample ty := by
  cases ty <;> constructor
  all_goals exact nofun

/-- Every header has a row. -/
theorem exists_matching_row (schema : Schema) : ∃ row : Row, row.Matches schema := by
  have haligned : Aligned (schema.attributes.map fun a => a.ty.sample) schema.attributes := by
    apply List.forall₂_map_left_iff.mpr
    apply List.forall₂_same.mpr
    intro a _
    exact conforms_sample a.ty
  obtain ⟨row, -, hrow⟩ := exists_row haligned
  exact ⟨row, hrow⟩

end Inhabitants

namespace JoinKind

/-- Whether unmatched rows of left are emitted. -/
def keepsLeft : JoinKind → Bool
  | .leftOuter | .fullOuter => true
  | .inner | .rightOuter => false

/-- Whether unmatched rows of right are emitted. -/
def keepsRight : JoinKind → Bool
  | .rightOuter | .fullOuter => true
  | .inner | .leftOuter => false

end JoinKind

/-- A row of left, followed by a null for every column only right has. -/
def leftPadded (left right : Schema) (row : Row) : List Value :=
  row.asSlice ++ (right.attributes.filter fun a => a.name ∉ left.names).map fun _ => .null

/-- The columns of a join with the values of a row of right, and a null for
every column only left has. -/
def rightPadded (right out : Schema) (row : Row) : List Value :=
  out.attributes.map fun a => (row.valueOf right a.name).getD .null

/-- Every row that an outer join emits for a side without a match conforms to
the header. -/
def PaddingConforms (left right out : Schema) (kind : JoinKind) : Prop :=
  (kind.keepsLeft = true → ∀ row : Row, row.Matches left →
    ∃ padded : Row, padded.asSlice = leftPadded left right row ∧ padded.Matches out) ∧
  (kind.keepsRight = true → ∀ row : Row, row.Matches right →
    ∃ padded : Row, padded.asSlice = rightPadded right out row ∧ padded.Matches out)

/-- Every column of `other` that `side` lacks is optional. -/
def PaddedColumnsOptional (side other : Schema) : Prop :=
  ∀ a ∈ other.attributes, a.name ∉ side.names → ∃ inner, a.ty = .optional inner

/-- Every column that an outer join has to pad is optional. -/
def PaddingOptional (left right : Schema) (kind : JoinKind) : Prop :=
  (kind.keepsLeft = true → PaddedColumnsOptional left right) ∧
  (kind.keepsRight = true → PaddedColumnsOptional right left)

theorem exists_row_iff_aligned {values : List Value} {schema : Schema} :
    (∃ row : Row, row.asSlice = values ∧ row.Matches schema) ↔
      Aligned values schema.attributes := by
  constructor
  · rintro ⟨row, rfl, hrow⟩
    exact Row.matches_iff.mp hrow
  · exact exists_row

/-- A null fits every column of `other` that `side` lacks. -/
def NullsFit (R : Value → Ty → Prop) (side other : Schema) : Prop :=
  ∀ a ∈ other.attributes, a.name ∉ side.names → R .null a.ty

theorem nullsFit_conforms_iff {side other : Schema} :
    NullsFit Conforms side other ↔ PaddedColumnsOptional side other := by
  simp only [NullsFit, PaddedColumnsOptional, conforms_null_iff]

section Sides

variable {R : Value → Ty → Prop} {left right out : Schema} {row : Row}

theorem aligned_leftPadded_iff (hrow : AlignedBy R row.asSlice left.attributes)
    (hcolumns : out.attributes =
      left.attributes ++ right.attributes.filter fun a => a.name ∉ left.names) :
    AlignedBy R (leftPadded left right row) out.attributes ↔ NullsFit R left right := by
  have hnulls : NullsFit R left right ↔
      AlignedBy R ((right.attributes.filter fun a => a.name ∉ left.names).map fun _ => .null)
        (right.attributes.filter fun a => a.name ∉ left.names) := by
    rw [AlignedBy, List.forall₂_map_left_iff, List.forall₂_same]
    simp [NullsFit, List.mem_filter]
  rw [hcolumns, leftPadded, hnulls]
  constructor
  · intro haligned
    have hrest := List.forall₂_drop_append _ _ _ haligned
    rwa [List.drop_left' hrow.length_eq] at hrest
  · intro hrest
    exact List.rel_append hrow hrest

theorem aligned_rightPadded_iff (hrow : AlignedBy R row.asSlice right.attributes)
    (hright : ∀ a ∈ right.attributes, a ∈ out.attributes)
    (hcolumns : out.attributes =
      left.attributes ++ right.attributes.filter fun a => a.name ∉ left.names) :
    AlignedBy R (rightPadded right out row) out.attributes ↔ NullsFit R right left := by
  rw [AlignedBy, rightPadded, List.forall₂_map_left_iff, List.forall₂_same]
  constructor
  · intro hall a ha hname
    have hout : a ∈ out.attributes := by
      rw [hcolumns]
      exact List.mem_append_left _ ha
    simpa [Row.valueOf_eq_none hname] using hall a hout
  · rintro hnulls ⟨name, ty⟩ ha
    by_cases hname : name ∈ right.names
    · obtain ⟨ty', hmem⟩ := Schema.mem_names_iff.mp hname
      obtain rfl : ty = ty' := congrArg Attribute.ty (Schema.eq_of_mem ha (hright _ hmem) rfl)
      obtain ⟨v, hv, hfits⟩ := Keyed.valueAt_of_mem right.nodup_names hrow hmem
      have hvalue : row.valueOf right name = some v := hv
      simpa [hvalue] using hfits
    · have hleft : ⟨name, ty⟩ ∈ left.attributes := by
        rw [hcolumns, List.mem_append, List.mem_filter] at ha
        rcases ha with ha | ⟨ha, -⟩
        · exact ha
        · exact absurd (Schema.mem_names_of_mem ha) hname
      simpa [Row.valueOf_eq_none hname] using hnulls _ hleft hname

end Sides

section Kernel

variable [Whittle]

/-- The padded rows of a join that is built conform to its header exactly when
every column it has to pad is optional already. -/
theorem outer_join_padding_iff {left right out : Op} {kind : JoinKind} {joinOn : JoinOn}
    (hout : left.join right kind joinOn = .ok out) :
    PaddingConforms left.schema right.schema out.schema kind ↔
      PaddingOptional left.schema right.schema kind := by
  have hcolumns := (Op.join_columns hout).2
  simp only [PaddingConforms, PaddingOptional, exists_row_iff_aligned, ← nullsFit_conforms_iff]
  refine and_congr (imp_congr_right fun _ => ?_) (imp_congr_right fun _ => ?_)
  · constructor
    · intro hall
      obtain ⟨row, hrow⟩ := exists_matching_row left.schema
      exact (aligned_leftPadded_iff (Row.matches_iff.mp hrow) hcolumns).mp (hall row hrow)
    · intro hnulls row hrow
      exact (aligned_leftPadded_iff (Row.matches_iff.mp hrow) hcolumns).mpr hnulls
  · have hright := Op.join_keeps_right hout
    constructor
    · intro hall
      obtain ⟨row, hrow⟩ := exists_matching_row right.schema
      exact (aligned_rightPadded_iff (Row.matches_iff.mp hrow) hright hcolumns).mp (hall row hrow)
    · intro hnulls row hrow
      exact (aligned_rightPadded_iff (Row.matches_iff.mp hrow) hright hcolumns).mpr hnulls

end Kernel

namespace Catalogue

def note : AttributeName := ⟨"note", by decide, by decide, by decide⟩

def notes : Op :=
  .source (.table (.ofAttributes [⟨id, .int64⟩, ⟨note, .optional .string⟩] (by decide))
    ⟨"notes", by decide⟩)

end Catalogue

/-- A user without notes is padded with an optional column. -/
theorem outer_join_padding_notes :
    ∃ out, Catalogue.users.join Catalogue.notes .leftOuter .natural = .ok out ∧
      PaddingConforms Catalogue.users.schema Catalogue.notes.schema out.schema .leftOuter := by
  obtain ⟨out, hout⟩ :
      ∃ out, Catalogue.users.join Catalogue.notes .leftOuter .natural = .ok out := ⟨_, rfl⟩
  have hoptional : PaddedColumnsOptional Catalogue.users.schema Catalogue.notes.schema := by
    intro a ha hname
    have hcolumn : a = ⟨Catalogue.id, .int64⟩ ∨ a = ⟨Catalogue.note, .optional .string⟩ := by
      simpa [Catalogue.notes, Op.source, Source.schema] using ha
    rcases hcolumn with rfl | rfl
    · exact absurd (by decide) hname
    · exact ⟨.string, rfl⟩
  refine ⟨out, hout, (outer_join_padding_iff hout).mpr ⟨fun _ => hoptional, ?_⟩⟩
  simp [JoinKind.keepsRight]

/-- A user without orders is padded with a null total, which the header does
not allow. -/
theorem padded_row_rejected :
    ∃ out, Catalogue.users.join Catalogue.orders .leftOuter .natural = .ok out ∧
      out.Reachable ∧ ¬ PaddingConforms Catalogue.users.schema Catalogue.orders.schema out.schema
        .leftOuter := by
  obtain ⟨out, hout⟩ :
      ∃ out, Catalogue.users.join Catalogue.orders .leftOuter .natural = .ok out := ⟨_, rfl⟩
  refine ⟨out, hout, ?_, fun hpadding => ?_⟩
  · exact Op.reachable_of_run (.join Catalogue.users Catalogue.orders .leftOuter .natural) hout
      (by simp [Call.inputs, Catalogue.reachable_users, Catalogue.reachable_orders])
  · have hrow : Catalogue.userRow.Matches Catalogue.users.schema := rfl
    have haligned := exists_row_iff_aligned.mp (hpadding.1 rfl _ hrow)
    have hnulls := (aligned_leftPadded_iff (Row.matches_iff.mp hrow)
      (Op.join_columns hout).2).mp haligned
    have hoptional := nullsFit_conforms_iff.mp hnulls
    have htotal : ⟨Catalogue.total, .int64⟩ ∈ Catalogue.orders.schema.attributes := by decide
    obtain ⟨inner, hinner⟩ := hoptional _ htotal (by decide)
    simp at hinner

end AxiomCore
