import AxiomCore.Faults

/-!
The boundary of paths. A list of steps is a lens path or a traversal path according
to whether it has an `each` step, never both, and of all paths only the lens of a
single field reaches a column of a header.
-/

namespace AxiomCore

open Checked Refined

inductive PathError where
  | length (source : CollectionError)
  | lensWithEach (index : Nat)
  | traversalWithoutEach
  deriving DecidableEq

namespace AnyPath

def steps : AnyPath → List PathStep
  | .lens path => path.steps
  | .traversal path => path.steps

/-- The steps determine the path and its kind. -/
theorem steps_injective {path path' : AnyPath} (h : path.steps = path'.steps) : path = path' := by
  cases path with
  | lens path =>
      cases path' with
      | lens path' =>
          cases path
          cases path'
          simp_all [steps]
      | traversal path' =>
          have hsame : path.steps = path'.steps := h
          have heach : .each ∈ path.steps := hsame ▸ path'.has_each
          exact absurd heach path.no_each
  | traversal path =>
      cases path' with
      | lens path' =>
          have hsame : path.steps = path'.steps := h
          have heach : .each ∈ path'.steps := hsame ▸ path.has_each
          exact absurd heach path'.no_each
      | traversal path' =>
          cases path
          cases path'
          simp_all [steps]

theorem exists_steps {raw : List PathStep} (h : raw.length ≤ maxPathSteps) :
    ∃ path : AnyPath, path.steps = raw := by
  by_cases heach : .each ∈ raw
  · exact ⟨.traversal ⟨raw, h, heach⟩, rfl⟩
  · exact ⟨.lens ⟨raw, h, heach⟩, rfl⟩

theorem target_eq_some_iff {path : AnyPath} {name : AttributeName} :
    path.target = some name ↔ path.steps = [.field name] := by
  constructor
  · intro htarget
    cases path with
    | lens path =>
        obtain ⟨steps, hlength, hfree⟩ := path
        unfold target at htarget
        split at htarget
        · rename_i name' _ _ hpath
          simp_all [AnyPath.steps]
        · exact absurd htarget (by simp)
    | traversal path => exact absurd htarget (by simp [target])
  · intro hsteps
    have hcolumn : path = column name := steps_injective hsteps
    rw [hcolumn, target_column]

end AnyPath

/-- The index of the first `each` step. -/
def FirstEach (steps : List PathStep) (index : Nat) : Prop :=
  steps[index]? = some .each ∧ .each ∉ steps.take index

theorem findEach_eq_none {steps : List PathStep} :
    steps.findIdx? (· = .each) = none ↔ .each ∉ steps := by
  rw [List.findIdx?_eq_none_iff]
  constructor
  · intro h heach
    exact absurd (h _ heach) (by simp)
  · intro h step hstep
    rw [decide_eq_false_iff_not]
    intro hsame
    exact h (hsame ▸ hstep)

theorem findEach_eq_some {steps : List PathStep} {index : Nat} :
    steps.findIdx? (· = .each) = some index ↔ FirstEach steps index := by
  rw [List.findIdx?_eq_some_iff_getElem, FirstEach, List.getElem?_eq_some_iff]
  constructor
  · intro h
    obtain ⟨hindex, heach, hbefore⟩ := h
    refine ⟨⟨hindex, of_decide_eq_true heach⟩, ?_⟩
    intro hmem
    obtain ⟨j, hj, hstep⟩ := List.mem_take_iff_getElem.mp hmem
    exact hbefore j (by omega) (decide_eq_true hstep)
  · intro h
    obtain ⟨⟨hindex, heach⟩, hbefore⟩ := h
    refine ⟨hindex, decide_eq_true heach, ?_⟩
    intro j hj hstep
    exact hbefore (List.mem_take_iff_getElem.mpr ⟨j, by omega, of_decide_eq_true hstep⟩)

/-- Steps with an `each` step have a first one. -/
theorem exists_firstEach {steps : List PathStep} (h : .each ∈ steps) :
    ∃ index, FirstEach steps index := by
  cases hscan : steps.findIdx? (· = .each) with
  | none => exact absurd h (findEach_eq_none.mp hscan)
  | some index => exact ⟨index, findEach_eq_some.mp hscan⟩

section Constructors

variable [Whittle] {raw : List PathStep}

/-- The bounded list of steps that both kinds of paths start with. -/
def refinedSteps (raw : List PathStep) : Except PathError (BoundedVec PathStep 0 maxPathSteps) :=
  tryBounded 0 maxPathSteps (fun actual => .length (.lenOutOfRange actual)) raw

def LensPath.tryNew (raw : List PathStep) : Except PathError LensPath :=
  match refinedSteps raw with
  | .error e => .error e
  | .ok refined =>
    match hscan : refined.toList.findIdx? (· = .each) with
    | some index => .error (.lensWithEach index)
    | none => .ok ⟨refined.toList, refined.lengthRule_toList.le_max, findEach_eq_none.mp hscan⟩

def TraversalPath.tryNew (raw : List PathStep) : Except PathError TraversalPath :=
  match refinedSteps raw with
  | .error e => .error e
  | .ok refined =>
    if hscan : refined.toList.any (· = .each) then
      .ok ⟨refined.toList, refined.lengthRule_toList.le_max, by simpa using hscan⟩
    else .error .traversalWithoutEach

theorem refinedSteps_of_le (h : raw.length ≤ maxPathSteps) :
    ∃ refined, refinedSteps raw = .ok refined ∧ refined.toList = raw := by
  refine ⟨.ofList raw ⟨Nat.zero_le _, h⟩, ?_, by simp⟩
  exact tryBounded_eq_ok.mpr (by simp)

theorem refinedSteps_of_lt (h : maxPathSteps < raw.length) :
    refinedSteps raw = .error (.length (.lenOutOfRange raw.length)) := by
  apply tryBounded_eq_error.mpr
  refine ⟨?_, rfl⟩
  intro hlength
  exact absurd hlength.le_max (Nat.not_le_of_lt h)

/-- Within the bound the kind of a path is decided by the `each` steps. -/
theorem LensPath.tryNew_of_free (h : raw.length ≤ maxPathSteps) (hfree : .each ∉ raw) :
    LensPath.tryNew raw = .ok ⟨raw, h, hfree⟩ := by
  obtain ⟨refined, hrefined, rfl⟩ := refinedSteps_of_le h
  simp only [LensPath.tryNew, hrefined]
  split
  · rename_i index hscan
    exact absurd (findEach_eq_none.mpr hfree) (by simp [hscan])
  · rfl

theorem LensPath.tryNew_of_each {index : Nat} (h : raw.length ≤ maxPathSteps)
    (hfirst : FirstEach raw index) : LensPath.tryNew raw = .error (.lensWithEach index) := by
  obtain ⟨refined, hrefined, rfl⟩ := refinedSteps_of_le h
  have hsome := findEach_eq_some.mpr hfirst
  simp only [LensPath.tryNew, hrefined]
  split
  · rename_i index' hscan
    rw [Option.some.inj (hscan.symm.trans hsome)]
  · rename_i hscan
    exact absurd (hscan.symm.trans hsome) (by simp)

theorem TraversalPath.tryNew_of_free (h : raw.length ≤ maxPathSteps) (hfree : .each ∉ raw) :
    TraversalPath.tryNew raw = .error .traversalWithoutEach := by
  obtain ⟨refined, hrefined, rfl⟩ := refinedSteps_of_le h
  simp [TraversalPath.tryNew, hrefined, hfree]

theorem TraversalPath.tryNew_of_each (h : raw.length ≤ maxPathSteps) (heach : .each ∈ raw) :
    TraversalPath.tryNew raw = .ok ⟨raw, h, heach⟩ := by
  obtain ⟨refined, hrefined, rfl⟩ := refinedSteps_of_le h
  simp [TraversalPath.tryNew, hrefined, heach]

omit [Whittle] in
theorem pathFault_shape_iff {schema : Schema} {path : AnyPath} :
    PathFault schema path .unsupportedPathShape ↔ path.target = none := by
  constructor
  · intro hfault
    cases hfault with
    | shape hpath => exact hpath
  · exact .shape

/-- The shape of its path is all that an unnest asks before it looks at a column. -/
theorem Op.unnest_unsupported_iff {input : Op} {path : AnyPath} :
    input.unnest path = .error .unsupportedPathShape ↔ path.target = none := by
  have hearly : OpError.unsupportedPathShape.Early := fun _ => by simp
  rw [Op.unnest, path_eq_error, pathFault_shape_iff]
  simp [Op.withColumns_ne_early hearly]

theorem Op.modify_unsupported_iff {input sub : Op} {path : AnyPath} :
    input.modify path sub = .error .unsupportedPathShape ↔ path.target = none := by
  have hearly : OpError.unsupportedPathShape.Early := fun _ => by simp
  rw [Op.modify, path_eq_error, pathFault_shape_iff]
  simp [Op.withColumns_ne_early hearly]

end Constructors

/-- The paths are the lists of at most the bounded number of steps, each built by
one of the two constructors: the other one names the first `each` step, or the
lack of one. A longer list fails in both with its length. Only the path of a single
field passes the shape check of an unnest or a modify, for every input. -/
theorem paths_partitioned [Whittle] (raw : List PathStep) :
    (maxPathSteps < raw.length →
      LensPath.tryNew raw = .error (.length (.lenOutOfRange raw.length)) ∧
        TraversalPath.tryNew raw = .error (.length (.lenOutOfRange raw.length))) ∧
    (raw.length ≤ maxPathSteps → .each ∉ raw →
      (∃ path, LensPath.tryNew raw = .ok path ∧ path.steps = raw) ∧
        TraversalPath.tryNew raw = .error .traversalWithoutEach) ∧
    (raw.length ≤ maxPathSteps → .each ∈ raw →
      (∃ path, TraversalPath.tryNew raw = .ok path ∧ path.steps = raw) ∧
        ∃ index, FirstEach raw index ∧ LensPath.tryNew raw = .error (.lensWithEach index)) ∧
    (raw.length ≤ maxPathSteps → ∃ path : AnyPath, path.steps = raw ∧
      (∀ path' : AnyPath, path'.steps = raw → path' = path) ∧
      ∀ input sub : Op,
        (input.unnest path = .error .unsupportedPathShape ↔ ∀ name, raw ≠ [.field name]) ∧
          (input.modify path sub = .error .unsupportedPathShape ↔
            ∀ name, raw ≠ [.field name])) := by
  refine ⟨?_, ?_, ?_, ?_⟩
  · intro hlong
    simp only [LensPath.tryNew, TraversalPath.tryNew, refinedSteps_of_lt hlong, and_self]
  · intro hle hfree
    exact ⟨⟨_, LensPath.tryNew_of_free hle hfree, rfl⟩, TraversalPath.tryNew_of_free hle hfree⟩
  · intro hle heach
    obtain ⟨index, hfirst⟩ := exists_firstEach heach
    exact ⟨⟨_, TraversalPath.tryNew_of_each hle heach, rfl⟩, index, hfirst,
      LensPath.tryNew_of_each hle hfirst⟩
  · intro hle
    obtain ⟨path, hpath⟩ := AnyPath.exists_steps hle
    have hshape : path.target = none ↔ ∀ name, raw ≠ [.field name] := by
      rw [Option.eq_none_iff_forall_ne_some]
      simp only [ne_eq, AnyPath.target_eq_some_iff, hpath]
    refine ⟨path, hpath, ?_, ?_⟩
    · intro path' hpath'
      exact AnyPath.steps_injective (hpath'.trans hpath.symm)
    · intro input sub
      rw [Op.unnest_unsupported_iff, Op.modify_unsupported_iff, hshape]
      exact ⟨Iff.rfl, Iff.rfl⟩

end AxiomCore
