import AxiomCore.Conformance

/-!
The leaves of the operator tree. An in-memory source pairs a header with rows
that its constructor has checked against it, and carries that check.
-/

namespace AxiomCore

open Checked Refined

/-- The inline rows of a memory source. -/
abbrev Rows : Type := BoundedVec Row 0 maxRowsInAst

def Rows.tryNew [Whittle] (rows : List Row) : Except CollectionError Rows :=
  tryBounded 0 maxRowsInAst .lenOutOfRange rows

/-- Inline data with a header that every row matches. -/
structure MemorySource where
  schema : Schema
  rows : Rows
  matched : ∀ row ∈ rows.toList, rowMatchesSchema row schema = .ok ()

inductive MemorySourceError where
  | rows (source : CollectionError)
  | rowMismatch (rowIndex : Nat) (source : ValueTypeError)
  deriving DecidableEq

namespace MemorySource

/-- The loop over the raw rows: the first row that does not match is reported
with its index. -/
def checkRows (schema : Schema) (rawRows : List Row) : Except MemorySourceError Unit :=
  forM rawRows.zipIdx fun (row, rowIndex) =>
    (rowMatchesSchema row schema).mapError (.rowMismatch rowIndex)

theorem checkRows_eq_ok {schema : Schema} {rawRows : List Row} :
    checkRows schema rawRows = .ok () ↔ ∀ row ∈ rawRows, rowMatchesSchema row schema = .ok () := by
  simp only [checkRows, forM_eq_ok, mapError_eq_ok, Prod.forall]
  constructor
  · intro h row hrow
    obtain ⟨i, hi, rfl⟩ := List.mem_iff_getElem.mp hrow
    exact h _ i (List.mem_zipIdx_iff_getElem?.mpr (List.getElem?_eq_getElem hi))
  · intro h row i hmem
    exact h row (List.mem_of_getElem? (List.mem_zipIdx_iff_getElem?.mp hmem))

private theorem take_zipIdx (rawRows : List Row) (i : Nat) :
    rawRows.zipIdx.take i = (rawRows.take i).zipIdx := by
  apply List.ext_getElem?
  intro j
  rw [List.getElem?_take, List.getElem?_zipIdx, List.getElem?_zipIdx, List.getElem?_take]
  split <;> rfl

/-- The loop reports the first row that does not match. -/
theorem checkRows_eq_error {schema : Schema} {rawRows : List Row} {e : MemorySourceError} :
    checkRows schema rawRows = .error e ↔
      ∃ i row fault, rawRows[i]? = some row ∧ rowMatchesSchema row schema = .error fault ∧
        (∀ before ∈ rawRows.take i, rowMatchesSchema before schema = .ok ()) ∧
        e = .rowMismatch i fault := by
  have hbefore (i : Nat) :
      checkRows schema (rawRows.take i) = .ok () ↔
        ∀ before ∈ rawRows.take i, rowMatchesSchema before schema = .ok () := checkRows_eq_ok
  simp only [checkRows, forM_eq_ok, ← take_zipIdx] at hbefore
  rw [checkRows, forM_eq_error]
  constructor
  · rintro ⟨i, ⟨row, index⟩, hget, hfail, hpassed⟩
    obtain ⟨hrow, hindex⟩ : rawRows[i]? = some row ∧ i = index := by
      simpa [List.getElem?_zipIdx] using hget
    obtain ⟨fault, hfault, hreport⟩ := (mapError_eq_error _ _ _).mp hfail
    exact ⟨i, row, fault, hrow, hfault, (hbefore i).mp hpassed, by rw [← hreport, hindex]⟩
  · rintro ⟨i, row, fault, hrow, hfault, hpassed, hreport⟩
    refine ⟨i, (row, i), by simp [List.getElem?_zipIdx, hrow], ?_, (hbefore i).mpr hpassed⟩
    exact (mapError_eq_error _ _ _).mpr ⟨fault, hfault, hreport.symm⟩

/-- Check the rows against the header, then their number, and wrap. -/
def tryNew [Whittle] (schema : Schema) (rawRows : List Row) :
    Except MemorySourceError MemorySource :=
  match hrows : checkRows schema rawRows with
  | .error e => .error e
  | .ok () =>
    match hlen : Rows.tryNew rawRows with
    | .error e => .error (.rows e)
    | .ok rows => .ok ⟨schema, rows, by
        rw [tryBounded_eq_ok.mp hlen]
        exact checkRows_eq_ok.mp hrows⟩

end MemorySource

inductive Source where
  | memory (memory : MemorySource)
  | table (schema : Schema) (name : TableName)

namespace Source

def tryMemory [Whittle] (schema : Schema) (rawRows : List Row) :
    Except MemorySourceError Source := do
  let memory ← MemorySource.tryNew schema rawRows
  pure (.memory memory)

def schema : Source → Schema
  | .memory m => m.schema
  | .table header _ => header

end Source

namespace MemorySource

variable [Whittle]

/-- Construction succeeds with exactly the given header and rows. -/
theorem tryNew_eq_ok {schema : Schema} {rawRows : List Row} {memory : MemorySource} :
    tryNew schema rawRows = .ok memory ↔
      memory.schema = schema ∧ memory.rows.toList = rawRows := by
  unfold tryNew
  split
  · rename_i e hrows
    simp only [reduceCtorEq, false_iff]
    rintro ⟨rfl, rfl⟩
    rw [checkRows_eq_ok.mpr memory.matched] at hrows
    exact absurd hrows nofun
  · split
    · rename_i e hlen
      simp only [reduceCtorEq, false_iff]
      rintro ⟨rfl, rfl⟩
      exact (tryBounded_eq_error.mp hlen).1 memory.rows.lengthRule_toList
    · rename_i rows hlen
      obtain rfl := tryBounded_eq_ok.mp hlen
      constructor
      · rintro ⟨⟩
        exact ⟨rfl, rfl⟩
      · obtain ⟨schema', rows', hmatched⟩ := memory
        rintro ⟨rfl, hsame⟩
        obtain rfl := BoundedVec.toList_injective hsame
        rfl

/-- Construction fails on the first row that does not match, or else on the
number of rows. -/
theorem tryNew_eq_error {schema : Schema} {rawRows : List Row} {e : MemorySourceError} :
    tryNew schema rawRows = .error e ↔
      checkRows schema rawRows = .error e ∨
      ((∀ row ∈ rawRows, rowMatchesSchema row schema = .ok ()) ∧
        maxRowsInAst < rawRows.length ∧ e = .rows (.lenOutOfRange rawRows.length)) := by
  have hrule : LengthRule 0 maxRowsInAst rawRows ↔ ¬ maxRowsInAst < rawRows.length := by
    rw [Nat.not_lt]
    exact ⟨fun rule => rule.le_max, fun hle => ⟨Nat.zero_le _, hle⟩⟩
  unfold tryNew
  split
  · rename_i e' hrows
    have hfault : ¬ ∀ row ∈ rawRows, rowMatchesSchema row schema = .ok () := by
      rw [← checkRows_eq_ok, hrows]
      simp
    simp [hrows, hfault]
  · rename_i hrows
    simp only [hrows, reduceCtorEq, false_or]
    split
    · rename_i e' hlen
      obtain ⟨hlong, rfl⟩ := tryBounded_eq_error.mp hlen
      rw [hrule, not_not] at hlong
      have hall := checkRows_eq_ok.mp hrows
      simp only [Except.error.injEq]
      exact ⟨fun h => ⟨hall, hlong, h.symm⟩, fun h => h.2.2.symm⟩
    · rename_i rows hlen
      obtain rfl := tryBounded_eq_ok.mp hlen
      simp only [reduceCtorEq, false_iff]
      rintro ⟨-, hlong, -⟩
      exact hrule.mp rows.lengthRule_toList hlong

end MemorySource

end AxiomCore
