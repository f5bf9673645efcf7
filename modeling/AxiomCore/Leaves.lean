import AxiomCore.Calls

/-!
In-memory leaves. Construction accepts a list of rows exactly when every row
conforms to the header and the list is short enough, in that order of blame,
so the rows below any reachable operator conform.
-/

namespace AxiomCore

open Checked Refined

section Kernel

variable [Whittle]

/-- `row` is the first of the rows that does not conform, and `index` is its
index. -/
def FirstNonconforming (schema : Schema) (rawRows : List Row) (index : Nat) (row : Row) : Prop :=
  rawRows[index]? = some row ∧ ¬ RowConforms row schema ∧
    ∀ before ∈ rawRows.take index, RowConforms before schema

/-- When some row does not conform, the first such row is the error, however
long the list is. -/
theorem tryNew_rowMismatch {schema : Schema} {rawRows : List Row}
    (hrow : ∃ row ∈ rawRows, ¬ RowConforms row schema) :
    ∃ index row fault, FirstNonconforming schema rawRows index row ∧
      rowMatchesSchema row schema = .error fault ∧
      MemorySource.tryNew schema rawRows = .error (.rowMismatch index fault) := by
  cases hverdict : MemorySource.checkRows schema rawRows with
  | ok u =>
      obtain ⟨row, hmem, hbad⟩ := hrow
      have hmatch := MemorySource.checkRows_eq_ok.mp hverdict row hmem
      exact absurd ((rowMatchesSchema_ok_iff _ _).mp hmatch) hbad
  | error e =>
      obtain ⟨index, row, fault, hget, hfault, hpassed, rfl⟩ :=
        MemorySource.checkRows_eq_error.mp hverdict
      have hbad : ¬ RowConforms row schema := by
        rw [← rowMatchesSchema_ok_iff, hfault]
        simp
      have hbefore : ∀ before ∈ rawRows.take index, RowConforms before schema := by
        intro before hmem
        exact (rowMatchesSchema_ok_iff _ _).mp (hpassed before hmem)
      exact ⟨index, row, fault, ⟨hget, hbad, hbefore⟩, hfault,
        MemorySource.tryNew_eq_error.mpr (Or.inl hverdict)⟩

/-- The length is blamed only when all rows conform. -/
theorem tryNew_lenOutOfRange_iff {schema : Schema} {rawRows : List Row} {e : CollectionError} :
    MemorySource.tryNew schema rawRows = .error (.rows e) ↔
      (∀ row ∈ rawRows, RowConforms row schema) ∧ maxRowsInAst < rawRows.length ∧
        e = .lenOutOfRange rawRows.length := by
  rw [MemorySource.tryNew_eq_error, MemorySource.checkRows_eq_error]
  simp [rowMatchesSchema_ok_iff]

/-- A list of rows makes a memory source exactly when it is short enough and
every row conforms. -/
theorem exists_tryNew_iff {schema : Schema} {rawRows : List Row} :
    (∃ memory, MemorySource.tryNew schema rawRows = .ok memory) ↔
      rawRows.length ≤ maxRowsInAst ∧ ∀ row ∈ rawRows, RowConforms row schema := by
  constructor
  · rintro ⟨memory, hmemory⟩
    obtain ⟨rfl, rfl⟩ := MemorySource.tryNew_eq_ok.mp hmemory
    refine ⟨memory.rows.lengthRule_toList.le_max, fun row hrow => ?_⟩
    exact (rowMatchesSchema_ok_iff _ _).mp (memory.matched row hrow)
  · rintro ⟨hlen, hall⟩
    refine ⟨⟨schema, .ofList rawRows ⟨Nat.zero_le _, hlen⟩, ?_⟩, MemorySource.tryNew_eq_ok.mpr ?_⟩
    · simpa [rowMatchesSchema_ok_iff] using hall
    · simp

/-- In-memory construction accepts exactly the short lists of conforming rows
and stores them unchanged. It blames the first row that does not conform, even
in a list that is also too long, and the length only when all rows conform. So
every in-memory leaf of every tree that constructor calls can make holds
conforming rows only. -/
theorem memory_leaves_conform :
    (∀ (schema : Schema) (rawRows : List Row),
      ((∃ memory, MemorySource.tryNew schema rawRows = .ok memory) ↔
        rawRows.length ≤ maxRowsInAst ∧ ∀ row ∈ rawRows, RowConforms row schema) ∧
      ((∃ row ∈ rawRows, ¬ RowConforms row schema) →
        ∃ index row fault, FirstNonconforming schema rawRows index row ∧
          rowMatchesSchema row schema = .error fault ∧
          MemorySource.tryNew schema rawRows = .error (.rowMismatch index fault)) ∧
      (∀ e, MemorySource.tryNew schema rawRows = .error (.rows e) ↔
        (∀ row ∈ rawRows, RowConforms row schema) ∧ maxRowsInAst < rawRows.length ∧
          e = .lenOutOfRange rawRows.length) ∧
      ∀ memory, MemorySource.tryNew schema rawRows = .ok memory →
        memory.schema = schema ∧ memory.rows.toList = rawRows) ∧
    ∀ (op node : Op) (memory : MemorySource), op.Reachable → op.Node node →
      node.kind = .source (.memory memory) →
        ∀ row ∈ memory.rows.toList, RowConforms row memory.schema := by
  refine ⟨fun schema rawRows => ⟨exists_tryNew_iff, tryNew_rowMismatch,
    fun e => tryNew_lenOutOfRange_iff, fun memory => MemorySource.tryNew_eq_ok.mp⟩, ?_⟩
  intro op node memory _ _ _ row hrow
  exact (rowMatchesSchema_ok_iff _ _).mp (memory.matched row hrow)

end Kernel

/-- The users with a single inline row. -/
theorem memory_leaves_conform_users :
    ∃ memory, MemorySource.tryNew Catalogue.users.schema [Catalogue.userRow] = .ok memory ∧
      ∀ row ∈ memory.rows.toList, RowConforms row memory.schema := by
  have hrow : RowConforms Catalogue.userRow Catalogue.users.schema :=
    (rowMatchesSchema_ok_iff _ _).mp rfl
  obtain ⟨hconstruct, hleaves⟩ := memory_leaves_conform
  obtain ⟨memory, hmemory⟩ :=
    (hconstruct Catalogue.users.schema [Catalogue.userRow]).1.mpr ⟨by decide, by simpa using hrow⟩
  exact ⟨memory, hmemory, hleaves _ _ memory (Op.reachable_source (.memory memory)) (.root _) rfl⟩

end AxiomCore
