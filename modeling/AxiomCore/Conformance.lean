import AxiomCore.Schema

/-!
Conformance of values to types and of rows to headers. The kernel checks it by
a walk that stops at the first fault and reports the path to it. The relations
here state conformance itself, by recursion through optionals, array elements
and nested rows, and the walk decides them.
-/

namespace AxiomCore

open Checked Refined

/-- The path to the first fault of a value. -/
inductive ValueTypeError where
  | mismatch
  | arrayElement (index : Nat) (source : ValueTypeError)
  | relationField (position : Nat) (source : ValueTypeError)
  | relationRow (index : Nat) (source : ValueTypeError)
  | rowWidth (expected actual : Nat)
  | optional (source : ValueTypeError)
  deriving DecidableEq

mutual

/-- Check that a value has the shape of a type. -/
def valueMatchesType : Value → Ty → Except ValueTypeError Unit
  | .bool _, .bool | .int32 _, .int32 | .int64 _, .int64 | .float64 _, .float64
  | .decimal _, .decimal | .string _, .string | .bytes _, .bytes | .dateTime _, .dateTime
  | .json _, .json | .optional none, .optional _ => .ok ()
  | .optional (some inner), .optional ty => (valueMatchesType inner ty).mapError .optional
  | .array ⟨count, _, _, values⟩, .array ty =>
    forM (List.finRange count) fun index =>
      (valueMatchesType (values index) ty).mapError (.arrayElement index)
  | .relation ⟨count, _, _, rows⟩, .relation schema =>
    forM (List.finRange count) fun index =>
      (rowMatchesSchema (rows index) schema).mapError (.relationRow index)
  | _, _ => .error .mismatch

/-- Check that a row has the width of a header and that the value at every
position matches the type of its column. -/
def rowMatchesSchema : Row → Schema → Except ValueTypeError Unit
  | ⟨⟨width, _, _, values⟩⟩, schema => do
    ensure (width = schema.cardinality) (.rowWidth schema.cardinality width)
    forM ((List.finRange width).zip schema.attributes) fun (position, column) =>
      (valueMatchesType (values position) column.ty).mapError (.relationField position)

end

mutual

/-- The values of a type. -/
inductive Conforms : Value → Ty → Prop
  | bool (b) : Conforms (.bool b) .bool
  | int32 (n) : Conforms (.int32 n) .int32
  | int64 (n) : Conforms (.int64 n) .int64
  | float64 (x) : Conforms (.float64 x) .float64
  | decimal (text) : Conforms (.decimal text) .decimal
  | string (text) : Conforms (.string text) .string
  | bytes (data) : Conforms (.bytes data) .bytes
  | dateTime (text) : Conforms (.dateTime text) .dateTime
  | json (text) : Conforms (.json text) .json
  | absent (ty) : Conforms (.optional none) (.optional ty)
  | present {inner ty} : Conforms inner ty → Conforms (.optional (some inner)) (.optional ty)
  | array {values ty} : (∀ i, Conforms (values.get i) ty) → Conforms (.array values) (.array ty)
  | relation {rows schema} : (∀ i, RowConforms (rows.get i) schema) →
      Conforms (.relation rows) (.relation schema)

/-- The rows of a header: one value for each column, of the column's type. -/
inductive RowConforms : Row → Schema → Prop
  | positions {row : Row} {schema : Schema} (width : row.values.length = schema.header.length) :
      (∀ i, Conforms (row.values.get i) (schema.header.get (i.cast width))) →
      RowConforms row schema

end

namespace Row

/-- The values of a row in order. -/
def asSlice (row : Row) : List Value := row.values.toList

/-- The row with the given values. -/
def ofValues (values : List Value) (rule : LengthRule 1 maxSchemaAttributes values) : Row :=
  ⟨.ofList values rule⟩

@[simp] theorem asSlice_ofValues (values : List Value)
    (rule : LengthRule 1 maxSchemaAttributes values) : (ofValues values rule).asSlice = values := by
  simp [asSlice, ofValues]

end Row

theorem attributes_eq_ofFn (schema : Schema) :
    schema.attributes =
      List.ofFn fun i => (⟨schema.header.key i, schema.header.get i⟩ : Attribute) := by
  simp [Schema.attributes, KeyedVec.entries, List.map_ofFn, Function.comp_def]

/-- A relation at every position of a row, read along its values and the columns. -/
theorem positions_iff_forall₂ {R : Value → Ty → Prop} {row : Row} {schema : Schema} :
    (∃ width : row.values.length = schema.header.length,
      ∀ i, R (row.values.get i) (schema.header.get (i.cast width))) ↔
      List.Forall₂ (fun v a => R v a.ty) row.asSlice schema.attributes := by
  rw [attributes_eq_ofFn, Row.asSlice, BoundedVec.toList, List.forall₂_iff_get]
  constructor
  · rintro ⟨width, hvalues⟩
    refine ⟨by simp [width], ?_⟩
    intro i hi hj
    have hvalue := hvalues ⟨i, by simpa using hi⟩
    simp only [List.get_eq_getElem, List.getElem_ofFn]
    exact hvalue
  · rintro ⟨hlen, hvalues⟩
    have width : row.values.length = schema.header.length := by simpa using hlen
    refine ⟨width, fun i => ?_⟩
    have hvalue := hvalues i (by simp) (by simp [← width])
    simp only [List.get_eq_getElem, List.getElem_ofFn] at hvalue
    exact hvalue

theorem rowConforms_iff_forall₂ {row : Row} {schema : Schema} :
    RowConforms row schema ↔
      List.Forall₂ (fun v a => Conforms v a.ty) row.asSlice schema.attributes := by
  rw [← positions_iff_forall₂]
  exact ⟨fun | .positions width hvalues => ⟨width, hvalues⟩,
    fun | ⟨width, hvalues⟩ => .positions width hvalues⟩

mutual

/-- The walk over a value accepts exactly the values of the type. -/
theorem valueMatchesType_ok_iff : ∀ (v : Value) (ty : Ty),
    valueMatchesType v ty = .ok () ↔ Conforms v ty
  | .bool _, ty | .int32 _, ty | .int64 _, ty | .float64 _, ty | .decimal _, ty | .string _, ty
  | .bytes _, ty | .dateTime _, ty | .json _, ty | .optional none, ty => by
    cases ty <;> simp only [valueMatchesType, reduceCtorEq, true_iff, false_iff]
    all_goals first | constructor | nofun
  | .optional (some inner), ty => by
    cases ty <;> simp only [valueMatchesType, mapError_eq_ok, reduceCtorEq, false_iff]
    case optional ty =>
      rw [valueMatchesType_ok_iff inner ty]
      exact ⟨.present, fun | .present h => h⟩
    all_goals nofun
  | .array ⟨count, _, _, values⟩, ty => by
    cases ty <;> simp only [valueMatchesType, forM_eq_ok, mapError_eq_ok, reduceCtorEq, false_iff]
    case array ty =>
      simp only [valueMatchesType_ok_iff (values _) ty, List.mem_finRange, forall_const]
      exact ⟨fun h => .array h, fun | .array h => h⟩
    all_goals nofun
  | .relation ⟨count, _, _, rows⟩, ty => by
    cases ty <;> simp only [valueMatchesType, forM_eq_ok, mapError_eq_ok, reduceCtorEq, false_iff]
    case relation schema =>
      simp only [rowMatchesSchema_ok_iff (rows _) schema, List.mem_finRange, forall_const]
      exact ⟨fun h => .relation h, fun | .relation h => h⟩
    all_goals nofun

/-- The walk over a row accepts exactly the rows of the header. -/
theorem rowMatchesSchema_ok_iff : ∀ (row : Row) (schema : Schema),
    rowMatchesSchema row schema = .ok () ↔ RowConforms row schema
  | ⟨⟨width, hmin, hmax, values⟩⟩, schema => by
    rw [rowConforms_iff_forall₂, Row.asSlice, BoundedVec.toList, List.ofFn_eq_map,
      List.forall₂_map_left_iff, List.forall₂_iff_zip]
    simp only [rowMatchesSchema, bind_eq_ok, ensure_eq_ok, forM_eq_ok, mapError_eq_ok,
      Prod.forall, valueMatchesType_ok_iff (values _), List.length_finRange,
      Schema.length_attributes, exists_const]

end

/-- A list of values aligned with the columns of a header is a row of it. -/
theorem exists_row {values : List Value} {schema : Schema}
    (h : List.Forall₂ (fun v a => Conforms v a.ty) values schema.attributes) :
    ∃ row : Row, row.asSlice = values ∧ rowMatchesSchema row schema = .ok () := by
  have rule : LengthRule 1 maxSchemaAttributes values := by
    have hlen := h.length_eq
    exact ⟨hlen ▸ schema.headerRule.min_le, hlen ▸ schema.headerRule.le_max⟩
  refine ⟨.ofValues values rule, by simp, ?_⟩
  rw [rowMatchesSchema_ok_iff, rowConforms_iff_forall₂, Row.asSlice_ofValues]
  exact h

end AxiomCore
