import AxiomCore.Evaluation
import AxiomCore.Padding
import AxiomCore.Replay

/-!
The rows of whole trees. A backend executes a tree from its leaves: the rows
of a node come from rows its inputs have emitted and from evaluations of its
expressions on them. Every row that any node of a reachable tree can emit
matches the cached header of that node, and no evaluation on the way is stuck.
-/

namespace AxiomCore

open Checked Construction Refined

/-- The row satisfies a predicate over a header. -/
def Backend.Holds (backend : Backend) (schema : Schema) (row : Row) : Predicate → Prop
  | .expr b => backend.eval b.expr schema row = .ok (.bool true)
  | .opaqueClosure id => backend.accepts id row = true

/-- Two rows hold equal values under the two names. -/
def Backend.EqualAt (backend : Backend) (left right : Schema) (l r : Row)
    (leftName rightName : AttributeName) : Prop :=
  ∃ v w, l.valueOf left leftName = some v ∧ r.valueOf right rightName = some w ∧
    backend.equal v w = true

/-- A join pairs the two rows, with the joined row `out`. -/
def Backend.Pairs (backend : Backend) (left right schema : Schema) (l r out : Row) :
    JoinOn → Prop
  | .natural => ∀ name ∈ left.names, name ∈ right.names → backend.EqualAt left right l r name name
  | .equi pairs => ∀ pair ∈ pairs.items, backend.EqualAt left right l r pair.left pair.right
  | .theta predicate => backend.Holds schema out predicate

/-- The rows that executing a tree can emit. An unmatched row of an outer join
is padded whatever the other side holds, so no row is left out. -/
inductive Emits (backend : Backend) : Op → Row → Prop
  | memory {memory : MemorySource} {s row} : row ∈ memory.rows.toList →
      Emits backend ⟨.source (.memory memory), s⟩ row
  | table {schema name s row} : row ∈ backend.scan name schema →
      Emits backend ⟨.source (.table schema name), s⟩ row
  | project {input attrs s row out} : Emits backend input row →
      row.ValuesOf input.schema attrs.items out.asSlice →
      Emits backend ⟨.project input attrs, s⟩ out
  | restrict {input predicate s row} : Emits backend input row →
      backend.Holds input.schema row predicate → Emits backend ⟨.restrict input predicate, s⟩ row
  | rename {input fromName toName s row} : Emits backend input row →
      Emits backend ⟨.rename input fromName toName, s⟩ row
  | order {input keys s row} : Emits backend input row → Emits backend ⟨.order input keys, s⟩ row
  | limit {input offset count s row} : Emits backend input row →
      Emits backend ⟨.limit input offset count, s⟩ row
  | extend {input name expr s row v} {out : Row} : Emits backend input row →
      backend.eval expr input.schema row = .ok v → out.asSlice = row.asSlice ++ [v] →
      Emits backend ⟨.extend input name expr, s⟩ out
  | product {left right s l r} {out : Row} : Emits backend left l → Emits backend right r →
      out.asSlice = l.asSlice ++ r.asSlice → Emits backend ⟨.product left right, s⟩ out
  | paired {left right kind joinOn s l r} {out : Row} : Emits backend left l →
      Emits backend right r →
      out.asSlice = l.asSlice ++ r.without right.schema left.schema.names →
      backend.Pairs left.schema right.schema s l r out joinOn →
      Emits backend ⟨.join left right kind joinOn, s⟩ out
  | leftUnmatched {left right kind joinOn s l} {out : Row} : kind.keepsLeft = true →
      Emits backend left l → out.asSlice = leftPadded left.schema right.schema l →
      Emits backend ⟨.join left right kind joinOn, s⟩ out
  | rightUnmatched {left right kind joinOn s r} {out : Row} : kind.keepsRight = true →
      Emits backend right r → out.asSlice = rightPadded right.schema s r →
      Emits backend ⟨.join left right kind joinOn, s⟩ out
  | unionLeft {left right s row} : Emits backend left row → Emits backend ⟨.union left right, s⟩ row
  | unionRight {left right s row} : Emits backend right row →
      Emits backend ⟨.union left right, s⟩ row
  | intersect {left right s row} : Emits backend left row → Emits backend right row →
      Emits backend ⟨.intersect left right, s⟩ row
  | difference {left right s row} : Emits backend left row →
      Emits backend ⟨.difference left right, s⟩ row
  | summarize {input keys aggs s grouped computed} {group : List Row} {out : Row} :
      (∀ row ∈ group, Emits backend input row) →
      (∀ row ∈ group, row.ValuesOf input.schema keys.items grouped) →
      (group = [] → keys.items = [] ∧ grouped = []) →
      List.Forall₂ (fun agg v => backend.aggregate agg.agg input.schema group = some v)
        aggs.items computed →
      out.asSlice = grouped ++ computed → Emits backend ⟨.summarize input keys aggs, s⟩ out
  | unnest {input path target s row inner rows} {out : Row} : path.target = some target →
      Emits backend input row → row.valueOf input.schema target = some (.relation rows) →
      inner ∈ rows.toList →
      out.asSlice = ((input.schema.attributes.zip row.asSlice).flatMap fun p =>
        if p.1.name = target then inner.asSlice else [p.2]) →
      Emits backend ⟨.unnest input path, s⟩ out
  | nest {input attrs into s row} {rows : Rows} {bundled : Row → Row} {out : Row} :
      Emits backend input row →
      (∀ nested ∈ rows.toList, Emits backend input (bundled nested)) →
      (∀ nested ∈ rows.toList,
        (bundled nested).ValuesOf input.schema attrs.items nested.asSlice) →
      out.asSlice = row.without input.schema attrs.items ++ [.relation rows] →
      Emits backend ⟨.nest input attrs into, s⟩ out
  | modify {input path target sub s row} {rows : Rows} {out : Row} : path.target = some target →
      Emits backend input row → (∀ inner ∈ rows.toList, Emits backend sub inner) →
      out.asSlice = ((input.schema.attributes.zip row.asSlice).map fun p =>
        if p.1.name = target then .relation rows else p.2) →
      Emits backend ⟨.modify input path sub, s⟩ out

/-- The nulls of an outer join fit the columns they pad. -/
def OpKind.NullsFit (R : Value → Ty → Prop) : OpKind → Prop
  | .join left right kind _ =>
    (kind.keepsLeft = true → AxiomCore.NullsFit R left.schema right.schema) ∧
    (kind.keepsRight = true → AxiomCore.NullsFit R right.schema left.schema)
  | _ => True

/-- A relation between values and types that a backend keeps: it holds of the values
of a type, of a nested relation row by row, and of whatever an evaluation or an
aggregate over aligned rows returns. -/
structure Backend.Keeps (backend : Backend) (R : Value → Ty → Prop) : Prop where
  conforms : ∀ {v ty}, Conforms v ty → R v ty
  relation_iff : ∀ {rows schema}, R (.relation rows) (.relation schema) ↔
    ∀ row ∈ rows.toList, AlignedBy R row.asSlice schema.attributes
  scan : ∀ {name schema row}, row ∈ backend.scan name schema → row.Matches schema
  eval : ∀ {e schema row ty v}, infer e schema = .ok ty → containsAggregate e = false →
    AlignedBy R row.asSlice schema.attributes → backend.eval e schema row = .ok v → R v ty
  aggregate : ∀ {a schema ty group v}, aggTy a schema = .ok ty →
    (∀ row ∈ group, AlignedBy R (Row.asSlice row) schema.attributes) →
    backend.aggregate a schema group = some v → R v ty

/-- The rows that an operator emits are aligned with its header. -/
def Op.Aligns (backend : Backend) (R : Value → Ty → Prop) (op : Op) : Prop :=
  ∀ row, Emits backend op row → AlignedBy R row.asSlice op.schema.attributes

section Layouts

/-! One node at a time: over inputs whose rows are aligned, the rows of the node are
aligned. -/

variable {backend : Backend} {R : Value → Ty → Prop} (hkeeps : backend.Keeps R)
  {input op : Op} {row : Row}

include hkeeps

theorem Op.aligned_of_source {src : Source} (hemits : Emits backend (source src) row) :
    AlignedBy R row.asSlice (source src).schema.attributes := by
  have hconforms : ∀ {schema : Schema}, row.Matches schema →
      AlignedBy R row.asSlice schema.attributes := by
    intro schema hrow
    apply (Row.matches_iff.mp hrow).imp
    intro v a hv
    exact hkeeps.conforms hv
  cases hemits with
  | memory hmem => exact hconforms (MemorySource.matched _ _ hmem)
  | table hmem => exact hconforms (hkeeps.scan hmem)

variable [Whittle]

theorem Op.aligned_of_extend {name : AttributeName} {expr : Expression} {v : Value}
    (hbuilt : input.extend name expr = .ok op)
    (hrow : AlignedBy R row.asSlice input.schema.attributes)
    (heval : backend.eval expr input.schema row = .ok v) :
    AlignedBy R (row.asSlice ++ [v]) op.schema.attributes := by
  apply extend_aligned hbuilt hrow
  intro ty hfree hty
  exact hkeeps.eval hty hfree hrow heval

theorem Op.aligned_of_unnest {path : AnyPath} {target : AttributeName} {rows : Rows} {inner : Row}
    (hbuilt : input.unnest path = .ok op) (hpath : path.target = some target)
    (hrow : AlignedBy R row.asSlice input.schema.attributes)
    (hvalue : row.valueOf input.schema target = some (.relation rows))
    (hinner : inner ∈ rows.toList) :
    AlignedBy R ((input.schema.attributes.zip row.asSlice).flatMap fun p =>
      if p.1.name = target then inner.asSlice else [p.2]) op.schema.attributes := by
  apply unnest_aligned hbuilt hpath hrow
  intro nested hmem
  obtain ⟨v, hv, hcell⟩ := Keyed.valueAt_of_mem input.schema.nodup_names hrow hmem
  obtain rfl : v = .relation rows := Option.some.inj (hv.symm.trans hvalue)
  exact hkeeps.relation_iff.mp hcell inner hinner

theorem Op.aligned_of_nest {attrs : AttributeSet} {into : AttributeName} {rows : Rows}
    {bundled : Row → Row} (hbuilt : input.nest attrs into = .ok op)
    (hinput : input.Aligns backend R) (hrow : Emits backend input row)
    (hbundled : ∀ nested ∈ rows.toList, Emits backend input (bundled nested))
    (hvalues : ∀ nested ∈ rows.toList,
      (bundled nested).ValuesOf input.schema attrs.items nested.asSlice) :
    AlignedBy R (row.without input.schema attrs.items ++ [.relation rows])
      op.schema.attributes := by
  apply nest_aligned hbuilt (hinput row hrow)
  intro nested hselect
  apply hkeeps.relation_iff.mpr
  intro inner hinner
  have hwhole := hinput _ (hbundled inner hinner)
  exact Keyed.forall₂_valueAt hwhole (hvalues inner hinner) hselect

theorem Op.aligned_of_modify {path : AnyPath} {sub : Op} {target : AttributeName} {rows : Rows}
    (hbuilt : input.modify path sub = .ok op) (hpath : path.target = some target)
    (hrow : AlignedBy R row.asSlice input.schema.attributes) (hsub : sub.Aligns backend R)
    (hinner : ∀ inner ∈ rows.toList, Emits backend sub inner) :
    AlignedBy R ((input.schema.attributes.zip row.asSlice).map fun p =>
      if p.1.name = target then .relation rows else p.2) op.schema.attributes := by
  apply modify_aligned hbuilt hpath hrow
  apply hkeeps.relation_iff.mpr
  intro inner hmem
  exact hsub inner (hinner inner hmem)

theorem Op.aligned_of_summarize {keys : GroupingSet} {aggs : NamedAggSet}
    {grouped computed : List Value} {group : List Row}
    (hbuilt : input.summarize keys aggs = .ok op)
    (hgroup : ∀ row ∈ group, AlignedBy R row.asSlice input.schema.attributes)
    (hvalues : ∀ row ∈ group, row.ValuesOf input.schema keys.items grouped)
    (hempty : group = [] → keys.items = [] ∧ grouped = [])
    (haggs : List.Forall₂ (fun agg v => backend.aggregate agg.agg input.schema group = some v)
      aggs.items computed) : AlignedBy R (grouped ++ computed) op.schema.attributes := by
  apply summarize_aligned hbuilt
  · intro columns hselect
    cases group with
    | nil =>
        -- Without rows there is a group only for a grand total.
        obtain ⟨hkeys, rfl⟩ := hempty rfl
        rw [Schema.Selects, hkeys] at hselect
        cases hselect
        exact .nil
    | cons first rest =>
        have hfirst := hgroup first (by simp)
        exact Keyed.forall₂_valueAt hfirst (hvalues first (by simp)) hselect
  · apply haggs.imp
    intro agg v hvalue ty hty
    exact hkeeps.aggregate hty hgroup hvalue

end Layouts

section Soundness

variable [Whittle] {backend : Backend} {R : Value → Ty → Prop}

/-- A joined row, or a row that an outer join pads. -/
theorem Emits.aligned_of_join {left right : Op} {kind : JoinKind} {joinOn : JoinOn} {s : Schema}
    {row : Row} (hbuilt : left.join right kind joinOn = .ok ⟨.join left right kind joinOn, s⟩)
    (hleft : left.Aligns backend R) (hright : right.Aligns backend R)
    (hnulls : (OpKind.join left right kind joinOn).NullsFit R)
    (hemits : Emits backend ⟨.join left right kind joinOn, s⟩ row) :
    AlignedBy R row.asSlice s.attributes := by
  have hcolumns := (Op.join_columns hbuilt).2
  cases hemits with
  | paired hl hr hout _ =>
      rw [hout]
      exact Op.join_aligned hbuilt (hleft _ hl) (hright _ hr)
  | leftUnmatched hkeeps hl hout =>
      rw [hout]
      exact (aligned_leftPadded_iff (hleft _ hl) hcolumns).mpr (hnulls.1 hkeeps)
  | rightUnmatched hkeeps hr hout =>
      rw [hout]
      exact (aligned_rightPadded_iff (hright _ hr) (Op.join_keeps_right hbuilt) hcolumns).mpr
        (hnulls.2 hkeeps)

/-- One node: when the rows of its inputs are aligned, so are the rows it emits. -/
theorem Emits.aligned_of_parts (hkeeps : backend.Keeps R) {op : Op}
    (hrun : op.kind.call.run = .ok op)
    (hparts : ∀ part ∈ op.kind.parts, part.Aligns backend R) (hnulls : op.kind.NullsFit R) :
    op.Aligns backend R := by
  intro row hemits
  obtain ⟨kind, s⟩ := op
  cases kind with
  | source src =>
      obtain rfl : (Op.source src).schema = s := congrArg Op.schema (Except.ok.inj hrun)
      exact Op.aligned_of_source hkeeps hemits
  | project input attrs =>
      cases hemits with
      | project hrow hvalues =>
          exact Op.project_aligned hrun (hparts input (by simp [OpKind.parts]) _ hrow) hvalues
  | restrict input predicate =>
      obtain ⟨-, hop⟩ := Op.restrict_eq_ok.mp hrun
      cases hemits with
      | restrict hrow _ =>
          obtain rfl : s = input.schema := congrArg Op.schema hop
          exact hparts input (by simp [OpKind.parts]) row hrow
  | rename input fromName toName =>
      cases hemits with
      | rename hrow => exact Op.rename_aligned hrun (hparts input (by simp [OpKind.parts]) row hrow)
  | order input keys =>
      obtain rfl : input.schema = s := congrArg Op.schema (Except.ok.inj hrun)
      cases hemits with
      | order hrow => exact hparts input (by simp [OpKind.parts]) row hrow
  | limit input offset count =>
      obtain rfl : input.schema = s := congrArg Op.schema (Except.ok.inj hrun)
      cases hemits with
      | limit hrow => exact hparts input (by simp [OpKind.parts]) row hrow
  | extend input name expr =>
      cases hemits with
      | extend hrow heval hout =>
          rw [hout]
          exact Op.aligned_of_extend hkeeps hrun
            (hparts input (by simp [OpKind.parts]) _ hrow) heval
  | product left right =>
      cases hemits with
      | product hl hr hout =>
          rw [hout]
          exact Op.concat_aligned (Op.product_eq_ok.mp hrun).2
            (hparts left (by simp [OpKind.parts]) _ hl) (hparts right (by simp [OpKind.parts]) _ hr)
  | join left right kind joinOn =>
      exact Emits.aligned_of_join hrun (hparts left (by simp [OpKind.parts]))
        (hparts right (by simp [OpKind.parts])) hnulls hemits
  | union left right =>
      have hleft := hparts left (by simp [OpKind.parts]) row
      have hright := hparts right (by simp [OpKind.parts]) row
      apply Op.setOperator_aligned hrun
      cases hemits with
      | unionLeft hrow => exact Or.inl (hleft hrow)
      | unionRight hrow => exact Or.inr (hright hrow)
  | intersect left right =>
      cases hemits with
      | intersect hrow _ =>
          exact Op.setOperator_aligned hrun
            (Or.inl (hparts left (by simp [OpKind.parts]) row hrow))
  | difference left right =>
      cases hemits with
      | difference hrow =>
          exact Op.setOperator_aligned hrun
            (Or.inl (hparts left (by simp [OpKind.parts]) row hrow))
  | summarize input keys aggs =>
      cases hemits with
      | summarize hgroup hvalues hempty haggs hout =>
          have hinput := hparts input (by simp [OpKind.parts])
          rw [hout]
          exact Op.aligned_of_summarize hkeeps hrun (fun r hr => hinput r (hgroup r hr)) hvalues
            hempty haggs
  | unnest input path =>
      cases hemits with
      | unnest hpath hrow hvalue hinner hout =>
          rw [hout]
          exact Op.aligned_of_unnest hkeeps hrun hpath
            (hparts input (by simp [OpKind.parts]) _ hrow) hvalue hinner
  | nest input attrs into =>
      cases hemits with
      | nest hrow hbundled hvalues hout =>
          rw [hout]
          exact Op.aligned_of_nest hkeeps hrun (hparts input (by simp [OpKind.parts])) hrow hbundled
            hvalues
  | modify input path sub =>
      cases hemits with
      | modify hpath hrow hinner hout =>
          rw [hout]
          exact Op.aligned_of_modify hkeeps hrun hpath
            (hparts input (by simp [OpKind.parts]) _ hrow) (hparts sub (by simp [OpKind.parts]))
            hinner

/-- The whole tree: the rows of a reachable tree are aligned by every relation that
the backend keeps and that the nulls of its outer joins fit. -/
theorem Op.Reachable.aligns (hkeeps : backend.Keeps R) {op : Op} (hop : op.Reachable)
    (hnulls : ∀ node, op.Node node → node.kind.NullsFit R) : op.Aligns backend R := by
  induction op using Op.induction_parts with
  | h op ih =>
      obtain ⟨hrun, hparts⟩ := kernelReadBack.reachable_iff.mp hop
      apply Emits.aligned_of_parts hkeeps hrun _ (hnulls op (.root op))
      intro part hpart
      apply ih part hpart (hparts part hpart)
      intro node hnode
      exact hnulls node (.inside hpart hnode)

end Soundness

/-- Executing a node evaluates the expression on the row of the header. -/
inductive Evaluates (backend : Backend) : Op → Expression → Schema → Row → Prop
  | restrict {input b s row} : Emits backend input row →
      Evaluates backend ⟨.restrict input (.expr b), s⟩ b.expr input.schema row
  | extend {input name expr s row} : Emits backend input row →
      Evaluates backend ⟨.extend input name expr, s⟩ expr input.schema row
  | theta {left right kind b s l r} {out : Row} : Emits backend left l → Emits backend right r →
      out.asSlice = l.asSlice ++ r.asSlice →
      Evaluates backend ⟨.join left right kind (.theta (.expr b)), s⟩ b.expr s out

section Soundness

variable [Whittle] {backend : Backend}

/-- One node: over inputs whose rows match, its expressions are accepted for
rows of the header they are evaluated on. -/
theorem Evaluates.accepted {op : Op} {e : Expression} {schema : Schema} {row : Row}
    (hrun : op.kind.call.run = .ok op)
    (hparts : ∀ part ∈ op.kind.parts, ∀ row, Emits backend part row → row.Matches part.schema)
    (hevaluates : Evaluates backend op e schema row) :
    (∃ ty, infer e schema = .ok ty) ∧ containsAggregate e = false ∧ row.Matches schema := by
  cases hevaluates with
  | @restrict input b s row hrow =>
      obtain ⟨hcheck, -⟩ := Op.restrict_eq_ok.mp hrun
      obtain ⟨hfree, hty⟩ := checkPredicate_expr_ok.mp hcheck
      exact ⟨⟨.bool, hty⟩, hfree, hparts input (by simp [OpKind.parts]) row hrow⟩
  | @extend input name expr s row hrow =>
      obtain ⟨ty, -, hfree, hty, -, -⟩ := Op.extend_eq_ok.mp hrun
      exact ⟨⟨ty, hty⟩, hfree, hparts input (by simp [OpKind.parts]) row hrow⟩
  | @theta left right kind b s l r out hl hr hout =>
      obtain ⟨hcheck, -, hcolumns⟩ := Op.join_theta_eq_ok.mp hrun
      obtain ⟨hfree, hty⟩ := checkPredicate_expr_ok.mp hcheck
      have hleft := hparts left (by simp [OpKind.parts]) l hl
      have hright := hparts right (by simp [OpKind.parts]) r hr
      refine ⟨⟨.bool, hty⟩, hfree, ?_⟩
      rw [Row.matches_iff, hout]
      exact Op.concat_aligned hcolumns (Row.matches_iff.mp hleft) (Row.matches_iff.mp hright)

end Soundness

namespace Catalogue

/-- A backend with 64-bit integers and strings over a table of one user. -/
def backend : Backend where
  arith op l r :=
    match op, l, r with
    | .add, .int64 a, .int64 b => some (.int64 (a + b))
    | _, _, _ => none
  compare op l r :=
    match op, l, r with
    | .eq, .int64 a, .int64 b => a == b
    | _, _, _ => false
  negate v :=
    match v with
    | .int64 n => some (.int64 (-n))
    | _ => none
  like text pattern := text == pattern.text
  equal l r :=
    match l, r with
    | .int64 a, .int64 b => a == b
    | .string a, .string b => a == b
    | _, _ => false
  convert v ty :=
    match v, ty with
    | .int32 n, .int64 => some (.int64 n.toInt64)
    | _, _ => none
  aggregate a _ group :=
    match a with
    | .count none => some (.int64 (Int64.ofNat group.length))
    | _ => none
  accepts _ _ := true
  scan _ schema := if schema = usersTable.schema then [userRow] else []

theorem backend_typed : backend.Typed where
  arith := by
    intro op l r ty v hnumeric hl hr hv
    simp only [backend] at hv
    split at hv
    · cases hl
      obtain rfl := Option.some.inj hv
      exact .int64 _
    · exact absurd hv (by simp)
  negate := by
    intro v ty w hnumeric hv hw
    simp only [backend] at hw
    split at hw
    · cases hv
      obtain rfl := Option.some.inj hw
      exact .int64 _
    · exact absurd hw (by simp)
  convert := by
    intro v ty w hw
    simp only [backend] at hw
    split at hw
    · obtain rfl := Option.some.inj hw
      exact .int64 _
    · exact absurd hw (by simp)
  aggregate := by
    intro a schema ty group v hty hgroup hv
    simp only [backend] at hv
    split at hv
    · obtain rfl := Option.some.inj hv
      obtain rfl := Except.ok.inj hty
      exact .int64 _
    · exact absurd hv (by simp)
  scan := by
    intro name schema row hrow
    simp only [backend] at hrow
    split at hrow
    · rename_i hschema
      obtain rfl := List.mem_singleton.mp hrow
      subst hschema
      rfl
    · exact absurd hrow (by simp)

theorem emits_user : Emits backend users userRow := by
  apply Emits.table
  simp only [backend]
  exact List.mem_singleton.mpr rfl

def nextIsEighth : Expression :=
  .binOp .eq (.binOp .add (.attr id) (.lit (.int64 1))) (.lit (.int64 8))

end Catalogue

/-- The id after that of the seventh user is the eighth. -/
theorem infer_sound_users :
    Catalogue.backend.eval Catalogue.nextIsEighth Catalogue.users.schema Catalogue.userRow =
      .ok (.bool true) ∧ valueMatchesType (.bool true) .bool = .ok () := by
  have hvalue : Catalogue.backend.eval Catalogue.nextIsEighth Catalogue.users.schema
      Catalogue.userRow = .ok (.bool true) := rfl
  exact ⟨hvalue, (infer_sound Catalogue.backend_typed rfl rfl rfl).2 _ hvalue⟩

end AxiomCore
