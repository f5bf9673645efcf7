import AxiomCore.Replay
import AxiomCore.SchemaErrors

/-!
What every constructor rejects, and with which error. The checks of a
constructor run in a fixed order and the first one that fails is reported, so
an error says both what is wrong and that everything checked before it is in
order. The faults here are stated about headers, names and types alone, for
every error but the one of the computed header itself.
-/

namespace AxiomCore

open Checked Construction

section Faults

/-- The predicate has an aggregate, no type, or a type other than boolean. -/
inductive PredicateFault (schema : Schema) : Predicate → OpError → Prop
  | aggregate {b} : containsAggregate b.expr = true →
      PredicateFault schema (.expr b) .aggregateOutsideSummarize
  | untyped {b source} : containsAggregate b.expr = false → infer b.expr schema = .error source →
      PredicateFault schema (.expr b) (.infer source)
  | notBool {b ty} : containsAggregate b.expr = false → infer b.expr schema = .ok ty → ty ≠ .bool →
      PredicateFault schema (.expr b) (.infer (.typeMismatch .bool ty))

/-- The path names no column, a column the header lacks, or one that is not a
relation. -/
inductive PathFault (schema : Schema) (path : AnyPath) : OpError → Prop
  | shape : path.target = none → PathFault schema path .unsupportedPathShape
  | unknown {target} : path.target = some target → target ∉ schema.names →
      PathFault schema path (.unknownAttribute target)
  | notARelation {target ty} : path.target = some target → ⟨target, ty⟩ ∈ schema.attributes →
      (∀ nested, ty ≠ .relation nested) → PathFault schema path (.notARelation target)

/-- The aggregate takes the name of a key, or has no type. -/
inductive AggFault (schema : Schema) (keys : GroupingSet) (agg : NamedAgg) : OpError → Prop
  | taken : agg.name ∈ keys.items → AggFault schema keys agg (.attributeAlreadyExists agg.name)
  | untyped {source} : agg.name ∉ keys.items → aggTy agg.agg schema = .error source →
      AggFault schema keys agg (.infer source)

/-- A column of the pair is missing, left before right, or the two types
differ. -/
inductive PairFault (left right : Schema) (pair : EquiPair) : OpError → Prop
  | unknownLeft : pair.left ∉ left.names → PairFault left right pair (.unknownAttribute pair.left)
  | unknownRight : pair.left ∈ left.names → pair.right ∉ right.names →
      PairFault left right pair (.unknownAttribute pair.right)
  | types {lt rt} : ⟨pair.left, lt⟩ ∈ left.attributes → ⟨pair.right, rt⟩ ∈ right.attributes →
      lt ≠ rt → PairFault left right pair (.joinTypeMismatch pair.left)

/-- The other header has the column under another type. -/
def Schema.Disagrees (other : Schema) (a : Attribute) : Prop :=
  ∃ ty, ⟨a.name, ty⟩ ∈ other.attributes ∧ ty ≠ a.ty

/-- What a call is rejected for before the header it computes is checked. -/
inductive Call.Fault : Call → OpError → Prop
  | project {input attrs name} : First (· ∉ input.schema.names) attrs.items name →
      Fault (.project input attrs) (.unknownAttribute name)
  | restrict {input predicate err} : PredicateFault input.schema predicate err →
      Fault (.restrict input predicate) err
  | renameUnknown {input fromName toName} : fromName ∉ input.schema.names →
      Fault (.rename input fromName toName) (.unknownAttribute fromName)
  | renameTaken {input fromName toName} : fromName ∈ input.schema.names → fromName ≠ toName →
      toName ∈ input.schema.names →
      Fault (.rename input fromName toName) (.attributeAlreadyExists toName)
  | extendTaken {input name expr} : name ∈ input.schema.names →
      Fault (.extend input name expr) (.attributeAlreadyExists name)
  | extendAggregate {input name expr} : name ∉ input.schema.names →
      containsAggregate expr = true → Fault (.extend input name expr) .aggregateOutsideSummarize
  | extendUntyped {input name expr source} : name ∉ input.schema.names →
      containsAggregate expr = false → infer expr input.schema = .error source →
      Fault (.extend input name expr) (.infer source)
  | modify {input path sub err} : PathFault input.schema path err →
      Fault (.modify input path sub) err
  | unnest {input path err} : PathFault input.schema path err → Fault (.unnest input path) err
  | nestUnknown {input attrs into name} : First (· ∉ input.schema.names) attrs.items name →
      Fault (.nest input attrs into) (.unknownAttribute name)
  | nestTaken {input attrs into} : (∀ name ∈ attrs.items, name ∈ input.schema.names) →
      into ∈ input.schema.names → into ∉ attrs.items →
      Fault (.nest input attrs into) (.attributeAlreadyExists into)
  | summarizeUnknown {input keys aggs name} : First (· ∉ input.schema.names) keys.items name →
      Fault (.summarize input keys aggs) (.unknownAttribute name)
  | summarizeAgg {input keys aggs agg err} : (∀ name ∈ keys.items, name ∈ input.schema.names) →
      First (fun agg => ∃ err, AggFault input.schema keys agg err) aggs.items agg →
      AggFault input.schema keys agg err → Fault (.summarize input keys aggs) err
  | union {left right} : left.schema ≠ right.schema → Fault (.union left right) .schemaMismatch
  | intersect {left right} : left.schema ≠ right.schema →
      Fault (.intersect left right) .schemaMismatch
  | difference {left right} : left.schema ≠ right.schema →
      Fault (.difference left right) .schemaMismatch
  | product {left right name} : First (· ∈ left.schema.names) right.schema.names name →
      Fault (.product left right) (.duplicateAcrossOperands name)
  | natural {left right kind l} : First right.schema.Disagrees left.schema.attributes l →
      Fault (.join left right kind .natural) (.joinTypeMismatch l.name)
  | equiPair {left right kind pairs pair err} :
      First (fun pair => ∃ err, PairFault left.schema right.schema pair err) pairs.items pair →
      PairFault left.schema right.schema pair err →
      Fault (.join left right kind (.equi pairs)) err
  | equiShared {left right kind pairs name} :
      (∀ pair ∈ pairs.items, ∀ err, ¬ PairFault left.schema right.schema pair err) →
      First (· ∈ left.schema.names) right.schema.names name →
      Fault (.join left right kind (.equi pairs)) (.duplicateAcrossOperands name)
  | thetaShared {left right kind predicate name} :
      First (· ∈ left.schema.names) right.schema.names name →
      Fault (.join left right kind (.theta predicate)) (.duplicateAcrossOperands name)
  | thetaPredicate {left right kind predicate schema err} :
      schema.attributes = left.schema.attributes ++ right.schema.attributes →
      PredicateFault schema predicate err → Fault (.join left right kind (.theta predicate)) err

end Faults

/-- An error of a check before the last one. -/
def OpError.Early (err : OpError) : Prop := ∀ source, err ≠ .schema source

section Early

variable {schema left right : Schema} {err : OpError}

theorem PredicateFault.early {predicate : Predicate} (h : PredicateFault schema predicate err) :
    err.Early := by
  cases h <;> simp [OpError.Early]

theorem PathFault.early {path : AnyPath} (h : PathFault schema path err) : err.Early := by
  cases h <;> simp [OpError.Early]

theorem AggFault.early {keys : GroupingSet} {agg : NamedAgg} (h : AggFault schema keys agg err) :
    err.Early := by
  cases h <;> simp [OpError.Early]

theorem PairFault.early {pair : EquiPair} (h : PairFault left right pair err) : err.Early := by
  cases h <;> simp [OpError.Early]

theorem Call.Fault.early {call : Call} (h : call.Fault err) : err.Early := by
  cases h with
  | restrict h | thetaPredicate _ h => exact h.early
  | modify h | unnest h => exact h.early
  | summarizeAgg _ _ h => exact h.early
  | equiPair _ h => exact h.early
  | _ => simp [OpError.Early]

end Early

section Checks

/-! Each check alone fails exactly on its fault. -/

variable {s left right : Schema} {err : OpError}

theorem checkPredicate_eq_error {predicate : Predicate} :
    checkPredicate s predicate = .error err ↔ PredicateFault s predicate err := by
  cases predicate with
  | opaqueClosure id =>
      simp only [checkPredicate, pure_ne_error, false_iff]
      intro h
      cases h
  | expr b =>
      simp only [checkPredicate, bind_eq_error, ensure_eq_error, ensure_eq_ok, mapError_eq_error,
        mapError_eq_ok, exists_const, Bool.not_eq_false]
      constructor
      · intro h
        rcases h with ⟨hagg, rfl⟩ | ⟨hfree, ⟨source, hsource, rfl⟩ | ⟨ty, hty, hbool, rfl⟩⟩
        · exact .aggregate hagg
        · exact .untyped hfree hsource
        · exact .notBool hfree hty hbool
      · intro h
        cases h with
        | aggregate hagg => exact Or.inl ⟨hagg, rfl⟩
        | untyped hfree hsource => exact Or.inr ⟨hfree, Or.inl ⟨_, hsource, rfl⟩⟩
        | notBool hfree hty hbool => exact Or.inr ⟨hfree, Or.inr ⟨_, hty, hbool, rfl⟩⟩

theorem findOrUnknown_eq_error {name : AttributeName} :
    s.findOrUnknown name = .error err ↔ name ∉ s.names ∧ err = .unknownAttribute name := by
  rw [Schema.findOrUnknown, okOr_eq_error, Schema.find_eq_none_iff]
  exact and_congr_right fun _ => eq_comm

/-- A selection fails on the first name that the header lacks. -/
theorem mapM_findOrUnknown_eq_error {names : List AttributeName} :
    names.mapM s.findOrUnknown = .error err ↔
      ∃ name, First (· ∉ s.names) names name ∧ err = .unknownAttribute name := by
  have hfails : ∀ name, (∃ a, s.findOrUnknown name = .ok a) ↔ ¬ name ∉ s.names := by
    intro name
    simp only [findOrUnknown_eq_ok, ← Schema.find_eq_none_iff, Option.eq_none_iff_forall_ne_some]
    simp
  rw [mapM_eq_error]
  apply exists_congr
  intro name
  rw [firstFailure_iff hfails, findOrUnknown_eq_error]
  constructor
  · intro h
    exact ⟨h.1, h.2.2⟩
  · intro h
    exact ⟨h.1, h.1.mem.2, h.2⟩

theorem nestedSchema_eq_error {target : AttributeName} {ty : Ty} :
    nestedSchema target ty = .error err ↔
      (∀ nested, ty ≠ .relation nested) ∧ err = .notARelation target := by
  cases ty <;> simp [nestedSchema, eq_comm]

/-- A path is resolved before anything is done with its column. -/
theorem path_eq_error {α : Type} {path : AnyPath}
    {next : AttributeName → Schema → Except OpError α} :
    (do
      let target ← okOr path.target OpError.unsupportedPathShape
      let column ← s.findOrUnknown target
      let nested ← nestedSchema target column.ty
      next target nested) = .error err ↔
      PathFault s path err ∨ ∃ target nested, next target nested = .error err ∧
        path.target = some target ∧ ⟨target, .relation nested⟩ ∈ s.attributes := by
  simp only [bind_eq_error, okOr_eq_error, okOr_eq_ok, findOrUnknown_eq_error,
    findOrUnknown_eq_ok, Schema.find_eq_some_iff, nestedSchema_eq_error, nestedSchema_eq_ok]
  constructor
  · intro h
    rcases h with ⟨hpath, rfl⟩ | ⟨target, hpath, ⟨hname, rfl⟩ |
      ⟨⟨name, ty⟩, ⟨hmem, rfl⟩, ⟨hnested, rfl⟩ | ⟨nested, rfl, hnext⟩⟩⟩
    · exact Or.inl (.shape hpath)
    · exact Or.inl (.unknown hpath hname)
    · exact Or.inl (.notARelation hpath hmem hnested)
    · exact Or.inr ⟨name, nested, hnext, hpath, hmem⟩
  · intro h
    rcases h with hfault | ⟨target, nested, hnext, hpath, hmem⟩
    · cases hfault with
      | shape hpath => exact Or.inl ⟨hpath, rfl⟩
      | unknown hpath hname => exact Or.inr ⟨_, hpath, Or.inl ⟨hname, rfl⟩⟩
      | notARelation hpath hmem hnested =>
          exact Or.inr ⟨_, hpath, Or.inr ⟨_, ⟨hmem, rfl⟩, Or.inl ⟨hnested, rfl⟩⟩⟩
    · exact Or.inr ⟨target, hpath, Or.inr ⟨_, ⟨hmem, rfl⟩, Or.inr ⟨nested, rfl, hnext⟩⟩⟩

theorem aggregateColumn_eq_error {input : Op} {keys : GroupingSet} {agg : NamedAgg} :
    Op.aggregateColumn input keys agg = .error err ↔ AggFault input.schema keys agg err := by
  simp only [Op.aggregateColumn, bind_eq_error, ensure_eq_error, ensure_eq_ok, mapError_eq_error,
    mapError_eq_ok, pure_ne_error, and_false, exists_false, or_false, exists_const, not_not]
  constructor
  · intro h
    rcases h with ⟨htaken, rfl⟩ | ⟨hfresh, source, hsource, rfl⟩
    · exact .taken htaken
    · exact .untyped hfresh hsource
  · intro h
    cases h with
    | taken htaken => exact Or.inl ⟨htaken, rfl⟩
    | untyped hfresh hsource => exact Or.inr ⟨hfresh, _, hsource, rfl⟩

theorem mapM_aggregateColumn_eq_error {input : Op} {keys : GroupingSet} {aggs : List NamedAgg} :
    aggs.mapM (Op.aggregateColumn input keys) = .error err ↔
      ∃ agg, First (fun agg => ∃ err, AggFault input.schema keys agg err) aggs agg ∧
        AggFault input.schema keys agg err := by
  rw [mapM_eq_error]
  apply exists_congr
  intro agg
  rw [firstFailure_iff, aggregateColumn_eq_error]
  intro agg
  simp only [← aggregateColumn_eq_error]
  exact exists_ok_iff

theorem checkPair_eq_error {left right : Op} {pair : EquiPair} :
    Op.checkPair left right pair = .error err ↔ PairFault left.schema right.schema pair err := by
  simp only [Op.checkPair, bind_eq_error, findOrUnknown_eq_error, findOrUnknown_eq_ok,
    Schema.find_eq_some_iff, ensure_eq_error]
  constructor
  · intro h
    rcases h with ⟨hleft, rfl⟩ | ⟨⟨name, lt⟩, ⟨hl, rfl⟩, ⟨hright, rfl⟩ |
      ⟨⟨name', rt⟩, ⟨hr, rfl⟩, htypes, rfl⟩⟩
    · exact .unknownLeft hleft
    · exact .unknownRight (Schema.mem_names_of_mem hl) hright
    · exact .types hl hr htypes
  · intro h
    cases h with
    | unknownLeft hleft => exact Or.inl ⟨hleft, rfl⟩
    | unknownRight hleft hright =>
        obtain ⟨lt, hl⟩ := Schema.mem_names_iff.mp hleft
        exact Or.inr ⟨_, ⟨hl, rfl⟩, Or.inl ⟨hright, rfl⟩⟩
    | types hl hr htypes => exact Or.inr ⟨_, ⟨hl, rfl⟩, Or.inr ⟨_, ⟨hr, rfl⟩, htypes, rfl⟩⟩

theorem forM_checkPair_eq_error {left right : Op} {pairs : List EquiPair} :
    forM pairs (Op.checkPair left right) = .error err ↔
      ∃ pair, First (fun pair => ∃ err, PairFault left.schema right.schema pair err) pairs pair ∧
        PairFault left.schema right.schema pair err := by
  rw [forM_eq_error_first]
  apply exists_congr
  intro pair
  rw [firstFailure_iff, checkPair_eq_error]
  intro pair
  simp only [← checkPair_eq_error]
  exact exists_ok_iff

/-- The search for a shared column fails on the first that disagrees. -/
theorem forM_agreesWith_eq_error :
    forM left.attributes right.agreesWith = .error err ↔
      ∃ l, First right.Disagrees left.attributes l ∧ err = .joinTypeMismatch l.name := by
  have hcheck : ∀ (l : Attribute) (err : OpError), right.agreesWith l = .error err ↔
      right.Disagrees l ∧ err = .joinTypeMismatch l.name := by
    intro l err
    unfold Schema.agreesWith Schema.Disagrees
    cases hfind : right.find l.name with
    | none =>
        have habsent := Schema.find_eq_none_iff.mp hfind
        simp only [reduceCtorEq, false_iff, not_and]
        intro h
        obtain ⟨ty, hmem, -⟩ := h
        exact absurd (Schema.mem_names_of_mem hmem) habsent
    | some r =>
        obtain ⟨hr, hname⟩ := Schema.find_eq_some_iff.mp hfind
        simp only [ensure_eq_error, eq_comm (a := err)]
        apply and_congr_left
        intro _
        constructor
        · intro htypes
          exact ⟨r.ty, by rwa [← hname], htypes⟩
        · intro h
          obtain ⟨ty, hmem, htypes⟩ := h
          rwa [Schema.eq_of_mem hr hmem hname]
  rw [forM_eq_error_first]
  apply exists_congr
  intro l
  rw [firstFailure_iff, hcheck]
  · constructor
    · intro h
      exact ⟨h.1, h.2.2⟩
    · intro h
      exact ⟨h.1, h.1.mem.2, h.2⟩
  · intro l
    rw [exists_ok_iff]
    simp [hcheck]

/-- Two sides are searched for the first name of right that left has. -/
theorem forM_shared_eq_error :
    (forM right.attributes fun r =>
      ensure (¬ left.contains r.name) (OpError.duplicateAcrossOperands r.name)) = .error err ↔
      ∃ name, First (· ∈ left.names) right.names name ∧ err = .duplicateAcrossOperands name := by
  rw [forM_eq_error_first, Schema.names, Schema.names]
  have hfails : ∀ r : Attribute, (∃ u, ensure (¬ left.contains r.name)
      (OpError.duplicateAcrossOperands r.name) = .ok u) ↔ ¬ r.name ∈ left.names := by
    intro r
    simp
  constructor
  · intro h
    obtain ⟨r, hfirst⟩ := h
    obtain ⟨hshared, hreport⟩ := (firstFailure_iff hfails).mp hfirst
    exact ⟨r.name, First.map.mpr ⟨r, hshared, rfl⟩, ((ensure_eq_error _ _ _).mp hreport).2.symm⟩
  · intro h
    obtain ⟨name, hshared, rfl⟩ := h
    obtain ⟨r, hfirst, rfl⟩ := First.map.mp hshared
    have hleft : left.contains r.name = true := Schema.contains_iff.mpr hfirst.mem.2
    exact ⟨r, (firstFailure_iff hfails).mpr
      ⟨hfirst, (ensure_eq_error _ _ _).mpr ⟨not_not.mpr hleft, rfl⟩⟩⟩

end Checks

namespace Op

section Constructors

variable [Whittle] {input left right : Op} {err : OpError}

theorem checked_ne_early {columns : List Attribute} (hearly : err.Early) :
    Schema.checked columns ≠ .error err := by
  intro h
  obtain ⟨source, -, hsource⟩ := (mapError_eq_error _ _ _).mp h
  exact hearly source hsource.symm

/-- The check of the computed header reports no early error. -/
theorem withColumns_ne_early {kind : OpKind} {columns : List Attribute} (hearly : err.Early) :
    withColumns kind columns ≠ .error err := by
  intro h
  rw [← outcome_eq_error, outcome_withColumns] at h
  exact checked_ne_early hearly h

theorem concat_eq_early_error (hearly : err.Early) :
    concatDisjointSchemas left right = .error err ↔
      ∃ name, First (· ∈ left.schema.names) right.schema.names name ∧
        err = .duplicateAcrossOperands name := by
  have hchecked : ∀ columns, (Schema.tryNew columns).mapError OpError.schema ≠ .error err :=
    fun columns => checked_ne_early hearly
  simp only [concatDisjointSchemas, bind_eq_error, hchecked, and_false, exists_false, or_false,
    forM_shared_eq_error]

omit [Whittle] in
theorem setOperator_eq_error {kind : OpKind} :
    setOperator kind left right = .error err ↔
      left.schema ≠ right.schema ∧ err = .schemaMismatch := by
  simp only [setOperator, bind_eq_error, ensure_eq_error, pure_ne_error, and_false, exists_false,
    or_false]
  exact and_congr_right fun _ => eq_comm

theorem project_eq_early_error {attrs : AttributeSet} (hearly : err.Early) :
    input.project attrs = .error err ↔ (Call.project input attrs).Fault err := by
  simp only [project, bind_eq_error, withColumns_ne_early hearly, and_false, exists_false,
    or_false, mapM_findOrUnknown_eq_error]
  constructor
  · intro h
    obtain ⟨name, hfirst, rfl⟩ := h
    exact .project hfirst
  · intro h
    cases h with
    | project hfirst => exact ⟨_, hfirst, rfl⟩

omit [Whittle] in
theorem restrict_eq_error {predicate : Predicate} :
    input.restrict predicate = .error err ↔ (Call.restrict input predicate).Fault err := by
  simp only [restrict, bind_eq_error, pure_ne_error, and_false, exists_false, or_false,
    checkPredicate_eq_error]
  constructor
  · exact Call.Fault.restrict
  · intro h
    cases h with
    | restrict h => exact h

theorem rename_eq_early_error {fromName toName : AttributeName} (hearly : err.Early) :
    input.rename fromName toName = .error err ↔ (Call.rename input fromName toName).Fault err := by
  simp only [rename, bind_eq_error, withColumns_ne_early hearly, and_false, exists_false,
    or_false, ensure_eq_error, ensure_eq_ok, exists_const, Schema.contains_iff, not_not]
  constructor
  · intro h
    rcases h with ⟨hunknown, rfl⟩ | ⟨hfrom, ⟨hne, htaken⟩, rfl⟩
    · exact .renameUnknown hunknown
    · exact .renameTaken hfrom hne htaken
  · intro h
    cases h with
    | renameUnknown hunknown => exact Or.inl ⟨hunknown, rfl⟩
    | renameTaken hfrom hne htaken => exact Or.inr ⟨hfrom, ⟨hne, htaken⟩, rfl⟩

theorem extend_eq_early_error {name : AttributeName} {expr : Expression} (hearly : err.Early) :
    input.extend name expr = .error err ↔ (Call.extend input name expr).Fault err := by
  simp only [extend, bind_eq_error, withColumns_ne_early hearly, and_false, exists_false,
    or_false, ensure_eq_error, ensure_eq_ok, exists_const, Schema.contains_iff, not_not,
    mapError_eq_error, Bool.not_eq_false]
  constructor
  · intro h
    rcases h with ⟨htaken, rfl⟩ | ⟨hfresh, ⟨hagg, rfl⟩ | ⟨hfree, source, hsource, rfl⟩⟩
    · exact .extendTaken htaken
    · exact .extendAggregate hfresh hagg
    · exact .extendUntyped hfresh hfree hsource
  · intro h
    cases h with
    | extendTaken htaken => exact Or.inl ⟨htaken, rfl⟩
    | extendAggregate hfresh hagg => exact Or.inr ⟨hfresh, Or.inl ⟨hagg, rfl⟩⟩
    | extendUntyped hfresh hfree hsource =>
        exact Or.inr ⟨hfresh, Or.inr ⟨hfree, _, hsource, rfl⟩⟩

theorem modify_eq_early_error {path : AnyPath} {sub : Op} (hearly : err.Early) :
    input.modify path sub = .error err ↔ (Call.modify input path sub).Fault err := by
  simp only [modify, path_eq_error, withColumns_ne_early hearly, false_and, exists_false,
    or_false]
  constructor
  · exact Call.Fault.modify
  · intro h
    cases h with
    | modify h => exact h

theorem unnest_eq_early_error {path : AnyPath} (hearly : err.Early) :
    input.unnest path = .error err ↔ (Call.unnest input path).Fault err := by
  simp only [unnest, path_eq_error, withColumns_ne_early hearly, false_and, exists_false,
    or_false]
  constructor
  · exact Call.Fault.unnest
  · intro h
    cases h with
    | unnest h => exact h

theorem nest_eq_early_error {attrs : AttributeSet} {into : AttributeName} (hearly : err.Early) :
    input.nest attrs into = .error err ↔ (Call.nest input attrs into).Fault err := by
  have hchecked : ∀ columns, (Schema.tryNew columns).mapError OpError.schema ≠ .error err :=
    fun columns => checked_ne_early hearly
  simp only [nest, bind_eq_error, withColumns_ne_early hearly, hchecked, and_false, exists_false,
    or_false, false_or, mapM_findOrUnknown_eq_error, mapM_eq_ok, findOrUnknown_eq_ok,
    mapError_eq_ok, Schema.tryNew_eq_ok, ensure_eq_error, Schema.contains_iff, not_not]
  constructor
  · intro h
    rcases h with ⟨name, hfirst, rfl⟩ | ⟨columns, hselect, -, -, ⟨htaken, hother⟩, rfl⟩
    · exact .nestUnknown hfirst
    · exact .nestTaken (Schema.Selects.subset_names hselect) htaken hother
  · intro h
    cases h with
    | nestUnknown hfirst => exact Or.inl ⟨_, hfirst, rfl⟩
    | nestTaken hnames htaken hother =>
        obtain ⟨columns, hselect⟩ := Schema.Selects.exists_of_subset hnames
        have hrule := Schema.Selects.headerRule hselect
        obtain ⟨nested, hnested⟩ := Schema.exists_attributes_iff.mpr hrule
        exact Or.inr ⟨columns, hselect, nested, hnested, ⟨htaken, hother⟩, rfl⟩

theorem summarize_eq_early_error {keys : GroupingSet} {aggs : NamedAggSet} (hearly : err.Early) :
    input.summarize keys aggs = .error err ↔ (Call.summarize input keys aggs).Fault err := by
  simp only [summarize, bind_eq_error, withColumns_ne_early hearly, and_false, exists_false,
    or_false, mapM_findOrUnknown_eq_error, mapM_aggregateColumn_eq_error, mapM_eq_ok,
    findOrUnknown_eq_ok]
  constructor
  · intro h
    rcases h with ⟨name, hfirst, rfl⟩ | ⟨grouped, hselect, agg, hfirst, hfault⟩
    · exact .summarizeUnknown hfirst
    · exact .summarizeAgg (Schema.Selects.subset_names hselect) hfirst hfault
  · intro h
    cases h with
    | summarizeUnknown hfirst => exact Or.inl ⟨_, hfirst, rfl⟩
    | summarizeAgg hnames hfirst hfault =>
        obtain ⟨grouped, hselect⟩ := Schema.Selects.exists_of_subset hnames
        exact Or.inr ⟨grouped, hselect, _, hfirst, hfault⟩

theorem product_eq_early_error (hearly : err.Early) :
    left.product right = .error err ↔ (Call.product left right).Fault err := by
  rw [← outcome_eq_error, outcome_product, concat_eq_early_error hearly]
  constructor
  · intro h
    obtain ⟨name, hfirst, rfl⟩ := h
    exact .product hfirst
  · intro h
    cases h with
    | product hfirst => exact ⟨_, hfirst, rfl⟩

theorem join_natural_eq_early_error {kind : JoinKind} (hearly : err.Early) :
    left.join right kind .natural = .error err ↔
      (Call.join left right kind .natural).Fault err := by
  rw [← outcome_eq_error]
  simp only [outcome_join_natural, Schema.naturalJoin, bind_eq_error, checked_ne_early hearly,
    and_false, exists_false, or_false, forM_agreesWith_eq_error]
  constructor
  · intro h
    obtain ⟨l, hfirst, rfl⟩ := h
    exact .natural hfirst
  · intro h
    cases h with
    | natural hfirst => exact ⟨_, hfirst, rfl⟩

theorem join_equi_eq_early_error {kind : JoinKind} {pairs : EquiPairs} (hearly : err.Early) :
    left.join right kind (.equi pairs) = .error err ↔
      (Call.join left right kind (.equi pairs)).Fault err := by
  rw [← outcome_eq_error]
  have hpassed : forM pairs.items (checkPair left right) = .ok () ↔
      ∀ pair ∈ pairs.items, ∀ err, ¬ PairFault left.schema right.schema pair err := by
    simp only [forM_eq_ok, ← checkPair_eq_error, ← not_exists, ← exists_ok_iff,
      exists_unit_eq_ok]
  simp only [outcome_join_equi, bind_eq_error, forM_checkPair_eq_error, exists_const, hpassed,
    concat_eq_early_error hearly]
  constructor
  · intro h
    rcases h with ⟨pair, hfirst, hfault⟩ | ⟨hpairs, name, hfirst, rfl⟩
    · exact .equiPair hfirst hfault
    · exact .equiShared hpairs hfirst
  · intro h
    cases h with
    | equiPair hfirst hfault => exact Or.inl ⟨_, hfirst, hfault⟩
    | equiShared hpairs hfirst => exact Or.inr ⟨hpairs, _, hfirst, rfl⟩

theorem join_theta_eq_early_error {kind : JoinKind} {predicate : Predicate} (hearly : err.Early) :
    left.join right kind (.theta predicate) = .error err ↔
      (Call.join left right kind (.theta predicate)).Fault err := by
  rw [← outcome_eq_error]
  simp only [outcome_join_theta, bind_eq_error, concat_eq_early_error hearly,
    concatDisjointSchemas_eq_ok, checkPredicate_eq_error, reduceCtorEq, and_false, exists_false,
    or_false]
  constructor
  · intro h
    rcases h with ⟨name, hfirst, rfl⟩ | ⟨schema, hconcat, hfault⟩
    · exact .thetaShared hfirst
    · exact .thetaPredicate hconcat hfault
  · intro h
    cases h with
    | thetaShared hfirst => exact Or.inl ⟨_, hfirst, rfl⟩
    | thetaPredicate hconcat hfault => exact Or.inr ⟨_, hconcat, hfault⟩

end Constructors

end Op

section Kernel

variable [Whittle]

theorem Call.run_eq_early_error {call : Call} {err : OpError} (hearly : err.Early) :
    call.run = .error err ↔ call.Fault err := by
  cases call with
  | source src | order input keys | limit input offset count =>
      simp only [Call.run, reduceCtorEq, false_iff]
      intro h
      cases h
  | project input attrs => exact Op.project_eq_early_error hearly
  | restrict input predicate => exact Op.restrict_eq_error
  | rename input fromName toName => exact Op.rename_eq_early_error hearly
  | extend input name expr => exact Op.extend_eq_early_error hearly
  | modify input path sub => exact Op.modify_eq_early_error hearly
  | unnest input path => exact Op.unnest_eq_early_error hearly
  | nest input attrs into => exact Op.nest_eq_early_error hearly
  | summarize input keys aggs => exact Op.summarize_eq_early_error hearly
  | union left right | intersect left right | difference left right =>
      simp only [Call.run, Op.union, Op.intersect, Op.difference, Op.setOperator_eq_error]
      constructor
      · intro h
        obtain ⟨hne, rfl⟩ := h
        first
          | exact .union hne
          | exact .intersect hne
          | exact .difference hne
      · intro h
        cases h with
        | _ hne => exact ⟨hne, rfl⟩
  | product left right => exact Op.product_eq_early_error hearly
  | join left right kind joinOn =>
      cases joinOn with
      | natural => exact Op.join_natural_eq_early_error hearly
      | equi pairs => exact Op.join_equi_eq_early_error hearly
      | theta predicate => exact Op.join_theta_eq_early_error hearly

/-- Every call reports exactly its faults: the first check that fails, in the
order of the constructor's checks. Only an error of the computed header is not a
fault. -/
theorem fault_iff (call : Call) (err : OpError) :
    call.Fault err ↔ call.run = .error err ∧ ∀ source, err ≠ .schema source := by
  constructor
  · intro hfault
    exact ⟨(Call.run_eq_early_error hfault.early).mpr hfault, hfault.early⟩
  · intro h
    exact (Call.run_eq_early_error h.2).mp h.1

end Kernel

theorem BoolExpression.tryNew_eq_error {schema : Schema} {e : Expression} {err : InferError} :
    tryNew schema e = .error err ↔ infer e schema = .error err ∨
      ∃ ty, infer e schema = .ok ty ∧ ty ≠ .bool ∧ err = .typeMismatch .bool ty := by
  unfold tryNew
  split
  · rename_i source hty
    simp [hty]
  · rename_i ty hty
    split
    · rename_i hbool
      simp [hty, hbool]
    · rename_i hbool
      simp [hty, hbool, eq_comm]

/-- Without an aggregate a canonical predicate fails as a boolean expression
does. -/
theorem CanonicalPredicate.tryNew_eq_infer_error {schema : Schema} {e : Expression}
    {source : InferError} (hfree : containsAggregate e = false)
    (hbool : BoolExpression.tryNew schema e = .error source) :
    tryNew schema e = .error (.infer source) := by
  unfold tryNew
  split
  · rename_i hagg
    exact absurd hagg (by simp [hfree])
  · split
    · rename_i source' hsource
      rw [hsource] at hbool
      rw [Except.error.inj hbool]
    · rename_i inner hinner
      rw [hinner] at hbool
      exact absurd hbool (by simp)

/-- The error of an operator for an expression that is no canonical predicate. -/
def CanonicalPredicateError.toOp : CanonicalPredicateError → OpError
  | .infer source => .infer source
  | .containsAggregate => .aggregateOutsideSummarize

/-- The check that operators make of a predicate is the construction of a
canonical predicate, errors included. -/
theorem checkPredicate_eq_canonical (schema : Schema) (b : BoolExpression) :
    checkPredicate schema (.expr b) =
      (CanonicalPredicate.tryNew schema b.expr).mapError CanonicalPredicateError.toOp >>=
        fun _ => .ok () := by
  by_cases hagg : containsAggregate b.expr = true
  · have hcanonical : CanonicalPredicate.tryNew schema b.expr = .error .containsAggregate := by
      simp [CanonicalPredicate.tryNew, hagg]
    rw [hcanonical]
    exact checkPredicate_eq_error.mpr (.aggregate hagg)
  · have hfree : containsAggregate b.expr = false := by simpa using hagg
    cases hty : infer b.expr schema with
    | error source =>
        have hbool := BoolExpression.tryNew_eq_error.mpr (Or.inl hty)
        rw [CanonicalPredicate.tryNew_eq_infer_error hfree hbool]
        exact checkPredicate_eq_error.mpr (.untyped hfree hty)
    | ok ty =>
        by_cases hbool : ty = .bool
        · subst hbool
          let p : CanonicalPredicate := ⟨b, hfree⟩
          have hp : CanonicalPredicate.tryNew schema b.expr = .ok p :=
            CanonicalPredicate.tryNew_eq_ok.mpr ⟨hfree, hty, rfl⟩
          rw [hp]
          exact checkPredicate_expr_ok.mpr ⟨hfree, hty⟩
        · have hother := BoolExpression.tryNew_eq_error.mpr (Or.inr ⟨ty, hty, hbool, rfl⟩)
          rw [CanonicalPredicate.tryNew_eq_infer_error hfree hother]
          exact checkPredicate_eq_error.mpr (.notBool hfree hty hbool)

/-- A predicate that an operator accepts is canonical over the header at hand
and mentions only its columns. -/
theorem exists_canonical {schema : Schema} {b : BoolExpression}
    (hcheck : checkPredicate schema (.expr b) = .ok ()) :
    ∃ p, CanonicalPredicate.tryNew schema b.expr = .ok p ∧
      ∀ name ∈ p.freeAttributes, name ∈ schema.names := by
  obtain ⟨hfree, hty⟩ := checkPredicate_expr_ok.mp hcheck
  exact ⟨⟨b, hfree⟩, CanonicalPredicate.tryNew_eq_ok.mpr ⟨hfree, hty, rfl⟩,
    freeAttrs_subset_names hfree hty⟩

/-- The three gates of a predicate agree. A restriction and a theta join accept
exactly the expressions that are canonical predicates over the header at hand and
report the others with the same error, so that in a reachable tree every stored
predicate is canonical where it stands and mentions only columns that are there. -/
theorem predicate_gates_agree [Whittle] :
    (∀ (input : Op) (b : BoolExpression), Op.outcome (input.restrict (.expr b)) =
      (CanonicalPredicate.tryNew input.schema b.expr).mapError CanonicalPredicateError.toOp >>=
        fun _ => .ok input.schema) ∧
    (∀ (left right : Op) (kind : JoinKind) (b : BoolExpression),
      Op.outcome (left.join right kind (.theta (.expr b))) =
        Op.concatDisjointSchemas left right >>= fun schema =>
          (CanonicalPredicate.tryNew schema b.expr).mapError CanonicalPredicateError.toOp >>=
            fun _ => .ok schema) ∧
    ∀ op : Op, op.Reachable → ∀ node, op.Node node →
      (∀ input b, node.kind = .restrict input (.expr b) →
        ∃ p, CanonicalPredicate.tryNew input.schema b.expr = .ok p ∧
          ∀ name ∈ p.freeAttributes, name ∈ input.schema.names) ∧
      ∀ left right kind b, node.kind = .join left right kind (.theta (.expr b)) →
        ∃ p, CanonicalPredicate.tryNew node.schema b.expr = .ok p ∧
          ∀ name ∈ p.freeAttributes, name ∈ node.schema.names := by
  refine ⟨?_, ?_, ?_⟩
  · intro input b
    rw [Op.outcome_restrict, checkPredicate_eq_canonical]
    cases CanonicalPredicate.tryNew input.schema b.expr <;> rfl
  · intro left right kind b
    rw [Op.outcome_join_theta]
    congr 1
    funext schema
    rw [checkPredicate_eq_canonical]
    cases CanonicalPredicate.tryNew schema b.expr <;> rfl
  · intro op hop node hnode
    have hrun := Op.reachable_iff_nodes.mp hop node hnode
    constructor
    · intro input b hkind
      rw [hkind] at hrun
      exact exists_canonical (Op.restrict_eq_ok.mp hrun).1
    · intro left right kind b hkind
      rw [hkind] at hrun
      exact exists_canonical (Op.join_theta_eq_ok.mp hrun).1

end AxiomCore
