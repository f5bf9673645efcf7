import AxiomCore.Execution

/-!
The shape of rows. An outer join pads columns that are not optional, and then its
rows do not match the header any more. They keep a shape: a value at every
position, and in a column of nested rows either a null or rows that have a shape
themselves. Whatever a reachable tree emits has the shape of its header, which is
all that looking values up by name and splicing nested rows rely on.
-/

namespace AxiomCore

open Checked Refined

mutual

/-- The value fits the type as far as its rows go. -/
inductive Shaped : Value → Ty → Prop
  | plain {v ty} : (∀ schema, ty ≠ .relation schema) → Shaped v ty
  | absent (schema) : Shaped .null (.relation schema)
  | relation {rows : Rows} {schema} : (∀ i, RowShaped (rows.get i) schema) →
      Shaped (.relation rows) (.relation schema)

/-- A row as wide as the header, with a value of a fitting shape in every column. -/
inductive RowShaped : Row → Schema → Prop
  | positions {row : Row} {schema : Schema} (width : row.values.length = schema.header.length) :
      (∀ i, Shaped (row.values.get i) (schema.header.get (i.cast width))) → RowShaped row schema

end

/-- The row has the shape of the header, read along its values and the columns. -/
abbrev Row.Fits (row : Row) (schema : Schema) : Prop :=
  AlignedBy Shaped row.asSlice schema.attributes

theorem rowShaped_iff {row : Row} {schema : Schema} : RowShaped row schema ↔ row.Fits schema := by
  rw [Row.Fits, AlignedBy, ← positions_iff_forall₂]
  constructor
  · intro hshaped
    cases hshaped with
    | positions width hvalues => exact ⟨width, hvalues⟩
  · rintro ⟨width, hvalues⟩
    exact .positions width hvalues

theorem shaped_null (ty : Ty) : Shaped .null ty := by
  cases ty with
  | relation schema => exact .absent schema
  | _ => exact .plain (by simp)

theorem shaped_relation_iff {rows : Rows} {schema : Schema} :
    Shaped (.relation rows) (.relation schema) ↔ ∀ row ∈ rows.toList, row.Fits schema := by
  simp only [BoundedVec.forall_mem_toList, ← rowShaped_iff]
  constructor
  · intro hshaped
    cases hshaped with
    | plain hplain => exact absurd rfl (hplain schema)
    | relation hrows => exact hrows
  · exact .relation

mutual

theorem Conforms.shaped : ∀ {v : Value} {ty : Ty}, Conforms v ty → Shaped v ty
  | _, _, .relation hrows => .relation fun i => (hrows i).shaped
  | _, _, .bool _ | _, _, .int32 _ | _, _, .int64 _ | _, _, .float64 _ | _, _, .decimal _
  | _, _, .string _ | _, _, .bytes _ | _, _, .dateTime _ | _, _, .json _ | _, _, .absent _
  | _, _, .present _ | _, _, .array _ => .plain (by simp)

theorem RowConforms.shaped : ∀ {row : Row} {schema : Schema},
    RowConforms row schema → RowShaped row schema
  | _, _, .positions width hvalues => .positions width fun i => (hvalues i).shaped

end

section Inference

variable {ty : Ty} {s nested : Schema}

theorem isNumeric_plain (hnumeric : isNumeric ty = true) : ty ≠ .relation nested := by
  rintro rfl
  simp [isNumeric] at hnumeric

theorem inferBinop_plain {op : BinOp} {lt rt : Ty} (hty : inferBinop op lt rt = .ok ty) :
    ty ≠ .relation nested := by
  cases op with
  | add | sub | mul | div =>
      simp only [inferBinop, bind_eq_ok, ensure_eq_ok, exists_const, pure_eq_ok] at hty
      obtain ⟨-, -, hnumeric, rfl⟩ := hty
      exact isNumeric_plain hnumeric
  | concat | eq | ne | lt | le | gt | ge | and | or =>
      simp only [inferBinop, bind_eq_ok, pure_eq_ok] at hty
      grind

theorem inferUnop_plain {op : UnOp} {ot : Ty} (hty : inferUnop op ot = .ok ty) :
    ty ≠ .relation nested := by
  cases op with
  | neg =>
      simp only [inferUnop, bind_eq_ok, ensure_eq_ok, exists_const, pure_eq_ok] at hty
      obtain ⟨hnumeric, rfl⟩ := hty
      exact isNumeric_plain hnumeric
  | not =>
      simp only [inferUnop, bind_eq_ok, pure_eq_ok] at hty
      grind

/-- An aggregate is never of a type of nested rows. -/
theorem aggTy_plain {a : Agg} (hty : aggTy a s = .ok ty) : ty ≠ .relation nested := by
  rintro rfl
  cases a with
  | count attr => simp [aggTy] at hty
  | sum name =>
      obtain ⟨columnTy, -, hsum⟩ := (bind_eq_ok _ _ _).mp hty
      cases columnTy <;> simp [sumTy] at hsum
  | min name | max name =>
      obtain ⟨columnTy, -, hextremum⟩ := (bind_eq_ok _ _ _).mp hty
      cases columnTy <;> simp [extremumTy] at hextremum
  | avg name =>
      obtain ⟨columnTy, -, havg⟩ := (bind_eq_ok _ _ _).mp hty
      cases columnTy <;> simp [avgTy] at havg

/-- An aggregate-free expression of nested rows names a column or is a cast. -/
theorem infer_relation {e : Expression} (hty : infer e s = .ok (.relation nested))
    (hfree : containsAggregate e = false) :
    (∃ name, e = .attr name) ∨ ∃ operand, e = .cast operand (.relation nested) := by
  cases e with
  | attr name => exact Or.inl ⟨name, rfl⟩
  | lit value => cases value <;> simp [infer, inferValue] at hty
  | binOp op lhs rhs =>
      simp only [infer, bind_eq_ok] at hty
      obtain ⟨lt, -, rt, -, hop⟩ := hty
      exact absurd rfl (inferBinop_plain hop)
  | unOp op operand =>
      simp only [infer, bind_eq_ok] at hty
      obtain ⟨ot, -, hop⟩ := hty
      exact absurd rfl (inferUnop_plain hop)
  | like operand pattern | inList operand values | isNull operand =>
      simp only [infer, bind_eq_ok, pure_eq_ok] at hty
      grind
  | cast operand target =>
      simp only [infer, bind_eq_ok, pure_eq_ok] at hty
      obtain ⟨-, -, rfl⟩ := hty
      exact Or.inr ⟨operand, rfl⟩
  | agg a => simp [containsAggregate] at hfree

end Inference

section Backend

variable {backend : Backend} (htyped : backend.Typed)

include htyped

/-- A value of nested rows is read off the row or converted. -/
theorem Backend.eval_shaped {e : Expression} {s nested : Schema} {row : Row} {v : Value}
    (hty : infer e s = .ok (.relation nested)) (hfree : containsAggregate e = false)
    (hrow : row.Fits s) (heval : backend.eval e s row = .ok v) : Shaped v (.relation nested) := by
  rcases infer_relation hty hfree with ⟨name, rfl⟩ | ⟨operand, rfl⟩
  · simp only [infer, okOr_eq_ok, Schema.lookup_eq_some_iff] at hty
    obtain ⟨w, hw, hshaped⟩ := Keyed.valueAt_of_mem s.nodup_names hrow hty
    simp only [eval, okOr_eq_ok] at heval
    obtain rfl : w = v := Option.some.inj (hw.symm.trans heval)
    exact hshaped
  · simp only [eval, bind_eq_ok, okOr_eq_ok] at heval
    obtain ⟨w, -, hconvert⟩ := heval
    exact (htyped.convert hconvert).shaped

/-- Shapes are kept, whatever the outer joins pad. -/
theorem Backend.Typed.keeps_shaped : backend.Keeps Shaped where
  conforms := Conforms.shaped
  relation_iff := shaped_relation_iff
  scan := htyped.scan
  eval := by
    intro e schema row ty v hty hfree hrow heval
    cases ty with
    | relation nested => exact Backend.eval_shaped htyped hty hfree hrow heval
    | _ => exact .plain (by simp)
  aggregate := by
    intro a schema ty group v hty _ _
    exact .plain fun nested => aggTy_plain hty

end Backend

/-- Every row that the operator emits has the shape of its header. -/
def Op.Fits (backend : Backend) (op : Op) : Prop :=
  ∀ row, Emits backend op row → row.Fits op.schema

theorem OpKind.nullsFit_shaped (kind : OpKind) : kind.NullsFit Shaped := by
  cases kind with
  | join left right kind joinOn =>
      exact ⟨fun _ a _ _ => shaped_null a.ty, fun _ a _ _ => shaped_null a.ty⟩
  | _ => trivial

/-- Every row that a reachable tree emits has the shape of the header, also where an
outer join pads columns that are not optional. -/
theorem Op.Reachable.fits [Whittle] {backend : Backend} (htyped : backend.Typed) {op : Op}
    (hop : op.Reachable) : op.Fits backend :=
  hop.aligns htyped.keeps_shaped fun node _ => node.kind.nullsFit_shaped

namespace Row.Fits

variable {row : Row} {schema : Schema}

theorem width (hfits : row.Fits schema) : row.asSlice.length = schema.cardinality := by
  rw [hfits.length_eq, Schema.length_attributes]

/-- Every cell of the row is found under the name of its column. -/
theorem cells (hfits : row.Fits schema) :
    List.Forall₂ (fun v a => a ∈ schema.attributes ∧ row.valueOf schema a.name = some v)
      row.asSlice schema.attributes :=
  Keyed.forall₂_cells schema.nodup_names hfits.length_eq

theorem exists_valueOf {name : AttributeName} (hfits : row.Fits schema)
    (hname : name ∈ schema.names) : ∃ v, row.valueOf schema name = some v :=
  Keyed.exists_valueAt hfits.length_eq.symm hname

/-- The rows of a cell have the shape of the header of its column. -/
theorem nested {name : AttributeName} {inner : Schema} {rows : Rows} (hfits : row.Fits schema)
    (hmem : ⟨name, .relation inner⟩ ∈ schema.attributes)
    (hvalue : row.valueOf schema name = some (.relation rows)) :
    ∀ nested ∈ rows.toList, nested.Fits inner := by
  obtain ⟨v, hv, hshaped⟩ := Keyed.valueAt_of_mem schema.nodup_names hfits hmem
  obtain rfl : v = .relation rows := Option.some.inj (hv.symm.trans hvalue)
  exact shaped_relation_iff.mp hshaped

end Row.Fits

end AxiomCore
