import AxiomCore.Library.Refined

/-!
Bound constants, identifiers and numeric domain types. Each refined type
carries the rule that its constructor checks, so a value of it is a proof that
the rule holds.
-/

namespace AxiomCore

abbrev maxSchemaAttributes : Nat := 256
abbrev maxAttributeNameLen : Nat := 64
abbrev maxTableNameLen : Nat := 128
abbrev maxPatternLen : Nat := 1024
abbrev maxOffset : Nat := 18446744073709551615 / 2
abbrev maxLimitCount : Nat := 18446744073709551615 / 2
abbrev maxPathIndex : Nat := 65536
abbrev maxPathSteps : Nat := 32
abbrev maxRowsInAst : Nat := 16384
abbrev maxInList : Nat := 1024
abbrev maxArrayLen : Nat := maxInList

def isIdentStart (c : Char) : Bool := c.isAlpha || c == '_'

def isIdentChar (c : Char) : Bool := c.isAlphanum || c == '_'

/-- A column name: a bounded identifier that starts with a letter or an
underscore. -/
structure AttributeName where
  text : String
  len_chars : 1 ≤ text.length ∧ text.length ≤ maxAttributeNameLen
  each_char : text.toList.all isIdentChar
  first_char : text.toList.head?.all isIdentStart
  deriving DecidableEq

structure TableName where
  text : String
  len_chars : 1 ≤ text.length ∧ text.length ≤ maxTableNameLen
  deriving DecidableEq

/-- A bounded string whose syntax is checked elsewhere. -/
structure Pattern where
  text : String
  len_chars : 1 ≤ text.length ∧ text.length ≤ maxPatternLen
  deriving DecidableEq

/-- A binary64 that is neither a NaN nor an infinity: its exponent field is
not all ones. -/
structure FiniteF64 where
  bits : BitVec 64
  exponent_ne : bits.extractLsb' 52 11 ≠ BitVec.allOnes 11
  deriving DecidableEq

structure Offset where
  raw : Nat
  within : raw ≤ maxOffset
  deriving DecidableEq

inductive LimitCount where
  | unbounded
  | bounded (raw : Nat) (within : raw ≤ maxLimitCount)
  deriving DecidableEq

structure BoundedIndex where
  raw : Nat
  within : raw ≤ maxPathIndex
  deriving DecidableEq

end AxiomCore
