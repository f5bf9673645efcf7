import AxiomCore.Domain

/-!
Types, headers and values. `Ty` and `Schema` are mutually recursive, as are
`Value` and `Row`: a type may be a nested relation with its own header, and a
value may be a list of rows. Bounds and distinct column names are part of the
carriers, so they hold of every header and every row at every depth.
-/

namespace AxiomCore

open Refined

mutual

/-- Attribute types. -/
inductive Ty where
  | bool
  | int32
  | int64
  | float64
  | decimal
  | string
  | bytes
  | dateTime
  | json
  | relation (schema : Schema)
  | array (item : Ty)
  | optional (inner : Ty)

/-- A relation header: between one and `maxSchemaAttributes` columns with
pairwise distinct names. -/
structure Schema where
  header : KeyedVec AttributeName Ty 1 maxSchemaAttributes

end

/-- One column of a header. -/
structure Attribute where
  name : AttributeName
  ty : Ty

mutual

/-- Values, with one variant for each type. -/
inductive Value where
  | bool (b : Bool)
  | int32 (n : Int32)
  | int64 (n : Int64)
  | float64 (x : FiniteF64)
  | decimal (text : Pattern)
  | string (text : String)
  | bytes (data : List UInt8)
  | dateTime (text : Pattern)
  | json (text : Pattern)
  | relation (rows : BoundedVec Row 0 maxRowsInAst)
  | array (values : BoundedVec Value 0 maxArrayLen)
  | optional (inner : Option Value)

/-- A positional row of values. -/
structure Row where
  values : BoundedVec Value 1 maxSchemaAttributes

end

mutual

/-- Structural equality of types. -/
def Ty.beq : Ty → Ty → Bool
  | .bool, .bool => true
  | .int32, .int32 => true
  | .int64, .int64 => true
  | .float64, .float64 => true
  | .decimal, .decimal => true
  | .string, .string => true
  | .bytes, .bytes => true
  | .dateTime, .dateTime => true
  | .json, .json => true
  | .relation s, .relation t => s.beq t
  | .array a, .array b => a.beq b
  | .optional a, .optional b => a.beq b
  | _, _ => false

def Schema.beq : Schema → Schema → Bool
  | ⟨⟨n, _, _, names, _, types⟩⟩, ⟨⟨m, _, _, names', _, types'⟩⟩ =>
    if h : n = m then
      (List.finRange n).all fun i =>
        decide (names i = names' (i.cast h)) && (types i).beq (types' (i.cast h))
    else false

end

mutual

theorem Ty.beq_iff : ∀ a b : Ty, a.beq b = true ↔ a = b
  | .bool, b => by cases b <;> simp [Ty.beq]
  | .int32, b => by cases b <;> simp [Ty.beq]
  | .int64, b => by cases b <;> simp [Ty.beq]
  | .float64, b => by cases b <;> simp [Ty.beq]
  | .decimal, b => by cases b <;> simp [Ty.beq]
  | .string, b => by cases b <;> simp [Ty.beq]
  | .bytes, b => by cases b <;> simp [Ty.beq]
  | .dateTime, b => by cases b <;> simp [Ty.beq]
  | .json, b => by cases b <;> simp [Ty.beq]
  | .relation s, b => by cases b <;> simp [Ty.beq, Schema.beq_iff s]
  | .array a, b => by cases b <;> simp [Ty.beq, Ty.beq_iff a]
  | .optional a, b => by cases b <;> simp [Ty.beq, Ty.beq_iff a]

theorem Schema.beq_iff : ∀ s t : Schema, s.beq t = true ↔ s = t
  | ⟨⟨n, _, _, names, _, types⟩⟩, ⟨⟨m, _, _, names', _, types'⟩⟩ => by
    by_cases h : n = m
    · subst h
      simp [Schema.beq, Ty.beq_iff (types _), funext_iff, forall_and]
    · simp [Schema.beq, h]

end

instance : DecidableEq Ty := fun a b => decidable_of_iff _ (Ty.beq_iff a b)

instance : DecidableEq Schema := fun s t => decidable_of_iff _ (Schema.beq_iff s t)

deriving instance DecidableEq for Attribute

end AxiomCore
