import AxiomCore.Conformance
import AxiomCore.Infer

/-!
Paths to faults. The error of a failed walk over a value is a path: it descends
into optionals, array elements, nested rows and their fields, and ends where the
value and the type disagree. The relations here follow such a path through the
value and the type together, so that it can leave neither, and the error of the
walk is exactly the path to the first fault.
-/

namespace AxiomCore

open Checked Refined

/-- The outermost shapes, one for each type constructor. -/
inductive Shape where
  | bool | int32 | int64 | float64 | decimal | string | bytes | dateTime | json
  | relation | array | optional
  deriving DecidableEq

def Value.shape : Value → Shape
  | .bool _ => .bool
  | .int32 _ => .int32
  | .int64 _ => .int64
  | .float64 _ => .float64
  | .decimal _ => .decimal
  | .string _ => .string
  | .bytes _ => .bytes
  | .dateTime _ => .dateTime
  | .json _ => .json
  | .relation _ => .relation
  | .array _ => .array
  | .optional _ => .optional

def Ty.shape : Ty → Shape
  | .bool => .bool
  | .int32 => .int32
  | .int64 => .int64
  | .float64 => .float64
  | .decimal => .decimal
  | .string => .string
  | .bytes => .bytes
  | .dateTime => .dateTime
  | .json => .json
  | .relation _ => .relation
  | .array _ => .array
  | .optional _ => .optional

mutual

/-- The path leads to the first fault of a value of a type: a part whose shape is
not that of its type, or a row whose width is not that of its header. Everything
before the path conforms at every level. -/
inductive ValueFault : Value → Ty → ValueTypeError → Prop
  | mismatch {v ty} : v.shape ≠ ty.shape → ValueFault v ty .mismatch
  | optional {inner ty err} : ValueFault inner ty err →
      ValueFault (.optional (some inner)) (.optional ty) (.optional err)
  | arrayElement {values : BoundedVec Value 0 maxArrayLen} {ty err} (i : Fin values.length) :
      ValueFault (values.get i) ty err → (∀ j < i, Conforms (values.get j) ty) →
      ValueFault (.array values) (.array ty) (.arrayElement i err)
  | relationRow {rows : BoundedVec Row 0 maxRowsInAst} {schema err} (i : Fin rows.length) :
      RowFault (rows.get i) schema err → (∀ j < i, RowConforms (rows.get j) schema) →
      ValueFault (.relation rows) (.relation schema) (.relationRow i err)

/-- The path leads to the first fault of a row of a header. -/
inductive RowFault : Row → Schema → ValueTypeError → Prop
  | rowWidth {row : Row} {schema : Schema} : row.values.length ≠ schema.cardinality →
      RowFault row schema (.rowWidth schema.cardinality row.values.length)
  | relationField {row : Row} {schema : Schema} {err}
      (width : row.values.length = schema.header.length) (i : Fin row.values.length) :
      ValueFault (row.values.get i) (schema.header.get (i.cast width)) err →
      (∀ j < i, Conforms (row.values.get j) (schema.header.get (j.cast width))) →
      RowFault row schema (.relationField i err)

end

/-- Different shapes are a fault at once, and the only one. -/
theorem valueFault_of_shape {v : Value} {ty : Ty} (hshape : v.shape ≠ ty.shape)
    {err : ValueTypeError} :
    valueMatchesType v ty = .error err ↔ ValueFault v ty err := by
  have hwalk : valueMatchesType v ty = .error .mismatch := by
    cases v with
    | optional inner =>
        cases ty with
        | optional ty => exact absurd rfl hshape
        | _ => cases inner <;> rfl
    | _ => cases ty <;> first | rfl | exact absurd rfl hshape
  rw [hwalk]
  constructor
  · intro h
    obtain rfl := Except.error.inj h
    exact .mismatch hshape
  · intro hfault
    cases hfault with
    | mismatch _ => rfl
    | optional _ | arrayElement _ _ _ | relationRow _ _ _ => exact absurd rfl hshape

/-- A row as wide as its header is walked position by position. -/
theorem rowMatchesSchema_of_width {width : Nat} {hmin hmax} {values : Fin width → Value}
    {hmin' hmax'} {keys : Fin width → AttributeName} {hkeys} {types : Fin width → Ty} :
    rowMatchesSchema ⟨⟨width, hmin, hmax, values⟩⟩ ⟨⟨width, hmin', hmax', keys, hkeys, types⟩⟩ =
      forM (List.finRange width) fun i =>
        (valueMatchesType (values i) (types i)).mapError (.relationField i) := by
  have hcolumns : (List.finRange width).zip
      (Schema.attributes ⟨⟨width, hmin', hmax', keys, hkeys, types⟩⟩) =
      (List.finRange width).map fun i => (i, ⟨keys i, types i⟩) := by
    rw [attributes_eq_ofFn, List.ofFn_eq_map]
    exact List.map_prod_left_eq_zip.symm
  simp only [rowMatchesSchema, hcolumns, List.forM_map, Schema.cardinality, ensure, if_true]
  rfl

mutual

/-- The error of the walk over a value is the path to its first fault. -/
theorem valueMatchesType_eq_error_iff : ∀ (v : Value) (ty : Ty) (err : ValueTypeError),
    valueMatchesType v ty = .error err ↔ ValueFault v ty err
  | .bool _, ty, err | .int32 _, ty, err | .int64 _, ty, err | .float64 _, ty, err
  | .decimal _, ty, err | .string _, ty, err | .bytes _, ty, err | .dateTime _, ty, err
  | .json _, ty, err | .optional none, ty, err => by
    cases ty <;> first
      | apply valueFault_of_shape
        simp only [Value.shape, Ty.shape, ne_eq, reduceCtorEq, not_false_eq_true]
        done
      | skip
    -- A value without parts has no fault in a type of its own shape.
    all_goals
      simp only [valueMatchesType, reduceCtorEq, false_iff]
      intro hfault
      cases hfault with
      | mismatch hdiffer => exact hdiffer rfl
  | .optional (some inner), ty, err => by
    by_cases hshape : Value.shape (.optional (some inner)) = ty.shape
    · cases ty <;> simp only [Value.shape, Ty.shape, reduceCtorEq] at hshape
      simp only [valueMatchesType, mapError_eq_error, valueMatchesType_eq_error_iff inner]
      constructor
      · intro hfail
        obtain ⟨source, hfault, rfl⟩ := hfail
        exact .optional hfault
      · intro hfault
        cases hfault with
        | mismatch hdiffer => exact absurd rfl hdiffer
        | optional hinner => exact ⟨_, hinner, rfl⟩
    · exact valueFault_of_shape hshape
  | .array ⟨count, hmin, hmax, values⟩, ty, err => by
    by_cases hshape : Value.shape (.array ⟨count, hmin, hmax, values⟩) = ty.shape
    · cases ty <;> simp only [Value.shape, Ty.shape, reduceCtorEq] at hshape
      simp only [valueMatchesType, forM_finRange_eq_error, mapError_eq_error, mapError_eq_ok,
        valueMatchesType_ok_iff, valueMatchesType_eq_error_iff (values _)]
      constructor
      · intro hfail
        obtain ⟨i, ⟨source, hfault, rfl⟩, hbefore⟩ := hfail
        apply ValueFault.arrayElement
        · exact hfault
        · exact hbefore
      · intro hfault
        cases hfault with
        | mismatch hdiffer => exact absurd rfl hdiffer
        | arrayElement i helement hbefore => exact ⟨i, ⟨_, helement, rfl⟩, hbefore⟩
    · exact valueFault_of_shape hshape
  | .relation ⟨count, hmin, hmax, rows⟩, ty, err => by
    by_cases hshape : Value.shape (.relation ⟨count, hmin, hmax, rows⟩) = ty.shape
    · cases ty <;> simp only [Value.shape, Ty.shape, reduceCtorEq] at hshape
      simp only [valueMatchesType, forM_finRange_eq_error, mapError_eq_error, mapError_eq_ok,
        rowMatchesSchema_ok_iff, rowMatchesSchema_eq_error_iff (rows _)]
      constructor
      · intro hfail
        obtain ⟨i, ⟨source, hfault, rfl⟩, hbefore⟩ := hfail
        apply ValueFault.relationRow
        · exact hfault
        · exact hbefore
      · intro hfault
        cases hfault with
        | mismatch hdiffer => exact absurd rfl hdiffer
        | relationRow i hrow hbefore => exact ⟨i, ⟨_, hrow, rfl⟩, hbefore⟩
    · exact valueFault_of_shape hshape

/-- The error of the walk over a row is the path to its first fault. -/
theorem rowMatchesSchema_eq_error_iff : ∀ (row : Row) (schema : Schema) (err : ValueTypeError),
    rowMatchesSchema row schema = .error err ↔ RowFault row schema err
  | ⟨⟨width, hmin, hmax, values⟩⟩, ⟨⟨count, hmin', hmax', keys, hkeys, types⟩⟩, err => by
    by_cases hwidth : width = count
    · subst hwidth
      simp only [rowMatchesSchema_of_width, forM_finRange_eq_error, mapError_eq_error,
        mapError_eq_ok, valueMatchesType_ok_iff, valueMatchesType_eq_error_iff (values _)]
      constructor
      · intro hfail
        obtain ⟨i, ⟨source, hfault, rfl⟩, hbefore⟩ := hfail
        apply RowFault.relationField rfl
        · exact hfault
        · exact hbefore
      · intro hfault
        cases hfault with
        | rowWidth hdiffer => exact absurd rfl hdiffer
        | relationField _ i hfield hbefore => exact ⟨i, ⟨_, hfield, rfl⟩, hbefore⟩
    · have hwalk : rowMatchesSchema ⟨⟨width, hmin, hmax, values⟩⟩
          ⟨⟨count, hmin', hmax', keys, hkeys, types⟩⟩ = .error (.rowWidth count width) := by
        rw [rowMatchesSchema, bind_eq_error, ensure_eq_error]
        exact Or.inl ⟨hwidth, rfl⟩
      rw [hwalk]
      constructor
      · intro h
        obtain rfl := Except.error.inj h
        exact .rowWidth hwidth
      · intro hfault
        cases hfault with
        | rowWidth _ => rfl
        | relationField hsame _ _ _ => exact absurd hsame hwidth

end

/-- A scalar literal is a value of its own type only. -/
theorem valueMatchesType_of_inferValue {v : Value} {ty : Ty} (hty : inferValue v = .ok ty)
    (ty' : Ty) : valueMatchesType v ty' = .ok () ↔ ty' = ty := by
  cases v with
  | relation rows | array values | optional inner => simp [inferValue] at hty
  | _ =>
      obtain rfl := Except.ok.inj hty
      cases ty' <;> simp [valueMatchesType]

/-- The errors of the walks are exactly the paths to the first faults, for values and
for rows, and a literal whose type can be inferred is a value of that type only. -/
theorem faults_are_first :
    (∀ (v : Value) (ty : Ty) (err : ValueTypeError),
      valueMatchesType v ty = .error err ↔ ValueFault v ty err) ∧
    (∀ (row : Row) (schema : Schema) (err : ValueTypeError),
      rowMatchesSchema row schema = .error err ↔ RowFault row schema err) ∧
    ∀ (v : Value) (ty : Ty), inferValue v = .ok ty →
      ∀ ty' : Ty, valueMatchesType v ty' = .ok () ↔ ty' = ty := by
  refine ⟨valueMatchesType_eq_error_iff, rowMatchesSchema_eq_error_iff, ?_⟩
  intro v ty hty
  exact valueMatchesType_of_inferValue hty

/-- A tag list whose second tag is not a string. -/
def Catalogue.mixedTags : Value :=
  .array (.ofList [.optional (some (.string "new")), .optional (some (.bool true))] (by decide))

/-- The walk over the tags goes to the second tag and into it, and a string literal is
a value of the string type only. -/
theorem faults_are_first_tags :
    ValueFault Catalogue.mixedTags (.array (.optional .string))
        (.arrayElement 1 (.optional .mismatch)) ∧
      ∀ ty : Ty, valueMatchesType (.string "new") ty = .ok () ↔ ty = .string := by
  obtain ⟨hvalue, -, hscalar⟩ := faults_are_first
  constructor
  · have hwalk : valueMatchesType Catalogue.mixedTags (.array (.optional .string)) =
        .error (.arrayElement 1 (.optional .mismatch)) := rfl
    exact (hvalue _ _ _).mp hwalk
  · exact hscalar _ _ rfl

end AxiomCore
