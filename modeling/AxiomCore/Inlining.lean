import AxiomCore.Execution
import AxiomCore.Replacement

/-!
Computed columns inlined. A chain of extends names expressions one after the
other, each over the columns before it. An expression over the last header can
be written over the first one by putting the definitions in place of the names,
latest first. It has the same type or the same error, so a restriction moves
below the whole chain, also when it mentions computed columns, and it has the
same value on every row.
-/

namespace AxiomCore

open Checked

/-- Put an expression in place of every column. An aggregate names columns and
keeps them. -/
def Expression.inline (f : AttributeName → Expression) : Expression → Expression
  | .attr name => f name
  | .lit value => .lit value
  | .binOp op lhs rhs => .binOp op (lhs.inline f) (rhs.inline f)
  | .unOp op operand => .unOp op (operand.inline f)
  | .like operand pattern => .like (operand.inline f) pattern
  | .inList operand values => .inList (operand.inline f) values
  | .isNull operand => .isNull (operand.inline f)
  | .cast operand target => .cast (operand.inline f) target
  | .agg a => .agg a

section Inline

variable {f : AttributeName → Expression} {e : Expression} {s t : Schema}

theorem containsAggregate_inline (hf : ∀ name, containsAggregate (f name) = false) :
    containsAggregate (e.inline f) = containsAggregate e := by
  induction e with
  | attr name => exact hf name
  | lit value | agg a => rfl
  | binOp op lhs rhs ihl ihr => simp only [Expression.inline, containsAggregate, ihl, ihr]
  | unOp op operand ih | like operand pattern ih | inList operand values ih | isNull operand ih
  | cast operand target ih => simp only [Expression.inline, containsAggregate, ih]

/-- Inference over a header is inference over another one of the expression
with each column replaced by what stands for it there, errors included. -/
theorem infer_inline (hfree : containsAggregate e = false)
    (hf : ∀ name ∈ e.freeAttrs, infer (f name) s = infer (.attr name) t) :
    infer (e.inline f) s = infer e t := by
  induction e with
  | attr name => exact hf name (by simp [Expression.mem_freeAttrs_iff, Expression.postOrder])
  | lit value => rfl
  | agg a => simp [containsAggregate] at hfree
  | binOp op lhs rhs ihl ihr =>
      simp only [containsAggregate, Bool.or_eq_false_iff] at hfree
      have hl := ihl hfree.1 fun name hname =>
        hf name (Expression.freeAttrs_node (by simp [Expression.postOrder]) hname)
      have hr := ihr hfree.2 fun name hname =>
        hf name (Expression.freeAttrs_node (by simp [Expression.postOrder]) hname)
      simp only [Expression.inline, infer, hl, hr]
  | unOp op operand ih | like operand pattern ih | inList operand values ih | isNull operand ih
  | cast operand target ih =>
      have ho := ih hfree fun name hname =>
        hf name (Expression.freeAttrs_node (by simp [Expression.postOrder]) hname)
      simp only [Expression.inline, infer, ho]

/-- So is evaluation, on a row of the other header that holds the values of what
stands for its columns. -/
theorem Backend.eval_inline {backend : Backend} {row row' : Row}
    (hf : ∀ name ∈ e.freeAttrs, backend.eval (f name) s row = backend.eval (.attr name) t row') :
    backend.eval (e.inline f) s row = backend.eval e t row' := by
  induction e with
  | attr name => exact hf name (by simp [Expression.mem_freeAttrs_iff, Expression.postOrder])
  | lit value | agg a => rfl
  | binOp op lhs rhs ihl ihr =>
      have hl := ihl fun name hname =>
        hf name (Expression.freeAttrs_node (by simp [Expression.postOrder]) hname)
      have hr := ihr fun name hname =>
        hf name (Expression.freeAttrs_node (by simp [Expression.postOrder]) hname)
      simp only [Expression.inline, eval, hl, hr]
  | unOp op operand ih | like operand pattern ih | inList operand values ih | isNull operand ih
  | cast operand target ih =>
      have ho := ih fun name hname =>
        hf name (Expression.freeAttrs_node (by simp [Expression.postOrder]) hname)
      simp only [Expression.inline, eval, ho]

end Inline

/-- A named expression. -/
abbrev Definition : Type := AttributeName × Expression

/-- What stands for each name under one definition. -/
def Definition.standsFor (definition : Definition) (name : AttributeName) : Expression :=
  if name = definition.1 then definition.2 else .attr name

/-- Put the definitions in place of their names, the latest first. -/
def Expression.inlineAll (definitions : List Definition) (e : Expression) : Expression :=
  definitions.foldr (fun definition inner => inner.inline definition.standsFor) e

@[simp] theorem Expression.inlineAll_nil (e : Expression) : e.inlineAll [] = e := rfl

@[simp] theorem Expression.inlineAll_cons (definition : Definition)
    (definitions : List Definition) (e : Expression) :
    e.inlineAll (definition :: definitions) =
      (e.inlineAll definitions).inline definition.standsFor := rfl

section Chain

variable [Whittle]

/-- Append a computed column for each definition, in order. -/
def Op.extendAll (input : Op) (definitions : List Definition) : Except OpError Op :=
  definitions.foldlM (fun op definition => op.extend definition.1 definition.2) input

@[simp] theorem Op.extendAll_nil (input : Op) : input.extendAll [] = .ok input := rfl

@[simp] theorem Op.extendAll_cons (input : Op) (definition : Definition)
    (definitions : List Definition) :
    input.extendAll (definition :: definitions) =
      input.extend definition.1 definition.2 >>= fun op => op.extendAll definitions := by
  rw [extendAll, List.foldlM_cons]
  rfl

variable {input extended : Op} {definition : Definition}

/-- After one extend the definition stands for the new column. -/
theorem infer_standsFor (hextend : input.extend definition.1 definition.2 = .ok extended)
    (name : AttributeName) :
    infer (definition.standsFor name) input.schema = infer (.attr name) extended.schema := by
  obtain ⟨ty, hfresh, -, hty, -, hcolumns⟩ := Op.extend_eq_ok.mp hextend
  unfold Definition.standsFor
  split
  · rename_i hname
    have hlookup : extended.schema.lookup definition.1 = some ty :=
      Schema.lookup_eq_some_iff.mpr (by simp [hcolumns])
    simp only [infer, hty, hname, hlookup, okOr]
  · rename_i hname
    have hlookup : extended.schema.lookup name = input.schema.lookup name := by
      ext ty'
      simp [Schema.lookup_eq_some_iff, hcolumns, hname]
    simp only [infer, hlookup]

theorem aggregateFree_standsFor (hextend : input.extend definition.1 definition.2 = .ok extended)
    (name : AttributeName) : containsAggregate (definition.standsFor name) = false := by
  obtain ⟨-, -, hfree, -⟩ := Op.extend_eq_ok.mp hextend
  unfold Definition.standsFor
  split
  · exact hfree
  · rfl

theorem containsAggregate_inlineAll {definitions : List Definition}
    (hextend : input.extendAll definitions = .ok extended) (e : Expression) :
    containsAggregate (e.inlineAll definitions) = containsAggregate e := by
  induction definitions generalizing input with
  | nil => rfl
  | cons definition definitions ih =>
      rw [Op.extendAll_cons, bind_eq_ok] at hextend
      obtain ⟨op, hfirst, hrest⟩ := hextend
      rw [Expression.inlineAll_cons, containsAggregate_inline (aggregateFree_standsFor hfirst)]
      exact ih hrest

/-- An expression over a chain of computed columns has the type or the error of
its inlined form over the input of the chain. -/
theorem infer_inlineAll {definitions : List Definition} {e : Expression}
    (hextend : input.extendAll definitions = .ok extended)
    (hfree : containsAggregate e = false) :
    infer (e.inlineAll definitions) input.schema = infer e extended.schema := by
  induction definitions generalizing input with
  | nil =>
      obtain rfl := Except.ok.inj hextend
      rfl
  | cons definition definitions ih =>
      rw [Op.extendAll_cons, bind_eq_ok] at hextend
      obtain ⟨op, hfirst, hrest⟩ := hextend
      have hinner : containsAggregate (e.inlineAll definitions) = false := by
        rw [containsAggregate_inlineAll hrest, hfree]
      rw [Expression.inlineAll_cons,
        infer_inline hinner fun name _ => infer_standsFor hfirst name]
      exact ih hrest

/-- A predicate is checked over the chain as its inlined form is over the input,
errors included. -/
theorem checkPredicate_inlineAll {definitions : List Definition} {b b' : BoolExpression}
    (hextend : input.extendAll definitions = .ok extended)
    (hb : b'.expr = b.expr.inlineAll definitions) :
    checkPredicate input.schema (.expr b') = checkPredicate extended.schema (.expr b) := by
  have hagg := containsAggregate_inlineAll hextend b.expr
  cases hfree : containsAggregate b.expr with
  | true =>
      rw [hfree] at hagg
      simp [checkPredicate, hb, hagg, hfree, ensure, bind, Except.bind]
  | false =>
      rw [hfree] at hagg
      simp only [checkPredicate, hb, hagg, hfree, infer_inlineAll hextend hfree]

/-- A chain goes through over any input with the same header. -/
theorem Op.extendAll_congr {input' : Op} {definitions : List Definition}
    (hschema : input'.schema = input.schema)
    (hextend : input.extendAll definitions = .ok extended) :
    ∃ out, input'.extendAll definitions = .ok out ∧ out.schema = extended.schema := by
  induction definitions generalizing input input' with
  | nil =>
      obtain rfl := Except.ok.inj hextend
      exact ⟨input', rfl, hschema⟩
  | cons definition definitions ih =>
      rw [extendAll_cons, bind_eq_ok] at hextend
      obtain ⟨op, hfirst, hrest⟩ := hextend
      have houtcome : outcome (input'.extend definition.1 definition.2) =
          outcome (input.extend definition.1 definition.2) :=
        @outcome_mapInputs _ (fun _ => input') (.extend input definition.1 definition.2)
          (by simp [Call.inputs, hschema])
      rw [hfirst, outcome_ok] at houtcome
      obtain ⟨op', hfirst', hschema'⟩ := outcome_eq_ok.mp houtcome
      obtain ⟨out, hout, houtschema⟩ := ih hschema' hrest
      refine ⟨out, ?_, houtschema⟩
      rw [extendAll_cons, hfirst']
      exact hout

/-- A restriction of computed columns is a restriction below them by the inlined
predicate: the same predicates are accepted and the others report the same error,
and appending the computed columns afterwards gives the same header. -/
theorem restriction_inlined {definitions : List Definition}
    (hextend : input.extendAll definitions = .ok extended) (b : BoolExpression) :
    (∀ b' : BoolExpression, b'.expr = b.expr.inlineAll definitions →
      ∀ err, input.restrict (.expr b') = .error err ↔
        extended.restrict (.expr b) = .error err) ∧
    ∀ out, extended.restrict (.expr b) = .ok out →
      ∃ (b' : BoolExpression) (below pushed : Op), b'.expr = b.expr.inlineAll definitions ∧
        input.restrict (.expr b') = .ok below ∧ below.extendAll definitions = .ok pushed ∧
        pushed.schema = out.schema := by
  constructor
  · intro b' hb err
    rw [← Op.outcome_eq_error, ← Op.outcome_eq_error, Op.outcome_restrict, Op.outcome_restrict,
      checkPredicate_inlineAll hextend hb]
    simp only [bind_eq_error, reduceCtorEq, and_false, exists_false]
  · intro out hout
    obtain ⟨hcheck, rfl⟩ := Op.restrict_eq_ok.mp hout
    obtain ⟨hfree, hty⟩ := checkPredicate_expr_ok.mp hcheck
    have hinlined := (infer_inlineAll hextend hfree).trans hty
    let b' : BoolExpression := ⟨b.expr.inlineAll definitions, input.schema, hinlined⟩
    have hcheck' : checkPredicate input.schema (.expr b') = .ok () := by
      rw [checkPredicate_inlineAll hextend rfl, hcheck]
    let below : Op := ⟨.restrict input (.expr b'), input.schema⟩
    have hbelow : input.restrict (.expr b') = .ok below := Op.restrict_eq_ok.mpr ⟨hcheck', rfl⟩
    have hsame : below.schema = input.schema := rfl
    obtain ⟨pushed, hpushed, hschema⟩ := Op.extendAll_congr hsame hextend
    exact ⟨b', below, pushed, rfl, hbelow, hpushed, hschema⟩

end Chain

section Values

variable [Whittle] {backend : Backend}

/-- A row of the input of a chain of computed columns grows by the value of one
definition after the other. -/
inductive Computed (backend : Backend) : Op → List Definition → Row → Row → Prop
  | done {input row} : Computed backend input [] row row
  | step {input op : Op} {definition : Definition} {definitions} {row grown out : Row} {v} :
      input.extend definition.1 definition.2 = .ok op →
      backend.eval definition.2 input.schema row = .ok v → grown.asSlice = row.asSlice ++ [v] →
      Computed backend op definitions grown out →
      Computed backend input (definition :: definitions) row out

omit [Whittle] in
/-- A row grown by the value of a new column. -/
theorem Row.valueOf_grown {input extended : Op} {column : Attribute} {row grown : Row} {v : Value}
    (hcolumns : extended.schema.attributes = input.schema.attributes ++ [column])
    (hwidth : row.asSlice.length = input.schema.cardinality)
    (hgrown : grown.asSlice = row.asSlice ++ [v]) (name : AttributeName) :
    grown.valueOf extended.schema name =
      (row.valueOf input.schema name).or (if column.name = name then some v else none) := by
  have hlength : input.schema.attributes.length = row.asSlice.length := by simp [hwidth]
  rw [valueOf, hgrown, hcolumns, Keyed.valueAt_concat hlength]
  rfl

omit [Whittle] in
theorem Row.width_grown {input extended : Op} {column : Attribute} {row grown : Row} {v : Value}
    (hcolumns : extended.schema.attributes = input.schema.attributes ++ [column])
    (hwidth : row.asSlice.length = input.schema.cardinality)
    (hgrown : grown.asSlice = row.asSlice ++ [v]) :
    grown.asSlice.length = extended.schema.cardinality := by
  rw [hgrown, List.length_append, hwidth, ← Schema.length_attributes, ←
    Schema.length_attributes, hcolumns, List.length_append]
  rfl

/-- After one extend the value of the definition stands in the new column, and
every other column keeps its value. -/
theorem eval_standsFor {input extended : Op} {definition : Definition} {row grown : Row}
    {v : Value} (hextend : input.extend definition.1 definition.2 = .ok extended)
    (hwidth : row.asSlice.length = input.schema.cardinality)
    (hvalue : backend.eval definition.2 input.schema row = .ok v)
    (hgrown : grown.asSlice = row.asSlice ++ [v]) (name : AttributeName) :
    backend.eval (definition.standsFor name) input.schema row =
      backend.eval (.attr name) extended.schema grown := by
  obtain ⟨ty, hfresh, -, -, -, hcolumns⟩ := Op.extend_eq_ok.mp hextend
  have hfound := Row.valueOf_grown hcolumns hwidth hgrown name
  unfold Definition.standsFor
  split
  · rename_i hname
    subst hname
    have habsent : row.valueOf input.schema definition.1 = none := Row.valueOf_eq_none hfresh
    simp [Backend.eval, hvalue, hfound, habsent, okOr]
  · rename_i hname
    have hother : ¬ definition.1 = name := fun h => hname h.symm
    simp [Backend.eval, hfound, hother]

/-- The inlined form of an expression has, on a row of the input, the value or
the failure that the expression has on the row with the computed columns. -/
theorem computed_values_inlined {input extended : Op} {definitions : List Definition}
    {e : Expression} {row out : Row} (hextend : input.extendAll definitions = .ok extended)
    (hwidth : row.asSlice.length = input.schema.cardinality)
    (hcomputed : Computed backend input definitions row out) :
    backend.eval (e.inlineAll definitions) input.schema row =
      backend.eval e extended.schema out := by
  induction hcomputed with
  | done =>
      obtain rfl := Except.ok.inj hextend
      rfl
  | @step input op definition definitions row grown out v hfirst hvalue hgrown _ ih =>
      rw [Op.extendAll_cons, hfirst] at hextend
      have hrest : op.extendAll definitions = .ok extended := hextend
      obtain ⟨ty, -, -, -, -, hcolumns⟩ := Op.extend_eq_ok.mp hfirst
      have hgrownWidth := Row.width_grown hcolumns hwidth hgrown
      rw [Expression.inlineAll_cons, Backend.eval_inline fun name _ =>
        eval_standsFor hfirst hwidth hvalue hgrown name]
      exact ih hrest hgrownWidth

end Values

namespace Catalogue

/-- The total of a user is the negated id. -/
def negatedId : Definition := (total, .unOp .neg (.attr id))

def totalIsSeven : Expression := .binOp .eq (.attr total) (.lit (.int64 7))

def userRowWithTotal : Row :=
  .ofValues [.int64 7, .string "seven", .int64 (-7)] (by decide)

theorem computed_user : Computed backend users [negatedId] userRow userRowWithTotal :=
  .step rfl rfl rfl .done

end Catalogue

/-- The users with a certain computed total are restricted before it is
computed. -/
theorem restriction_inlined_total : ∃ (extended : Op) (b b' : BoolExpression) (below pushed : Op),
    Catalogue.users.extendAll [Catalogue.negatedId] = .ok extended ∧
    b.expr = Catalogue.totalIsSeven ∧
    b'.expr = Catalogue.totalIsSeven.inlineAll [Catalogue.negatedId] ∧
    Catalogue.users.restrict (.expr b') = .ok below ∧
    below.extendAll [Catalogue.negatedId] = .ok pushed ∧ pushed.schema = extended.schema := by
  obtain ⟨extended, hextend⟩ :
      ∃ op, Catalogue.users.extendAll [Catalogue.negatedId] = .ok op := ⟨_, rfl⟩
  have hbool : infer Catalogue.totalIsSeven extended.schema = .ok .bool := by
    obtain rfl := Except.ok.inj hextend
    rfl
  let b : BoolExpression := ⟨Catalogue.totalIsSeven, extended.schema, hbool⟩
  have hcheck : checkPredicate extended.schema (.expr b) = .ok () :=
    checkPredicate_expr_ok.mpr ⟨rfl, hbool⟩
  obtain ⟨b', below, pushed, hb, hbelow, hpushed, hschema⟩ :=
    (restriction_inlined hextend b).2 _ (Op.restrict_eq_ok.mpr ⟨hcheck, rfl⟩)
  exact ⟨extended, b, b', below, pushed, hextend, rfl, hb, hbelow, hpushed, hschema⟩

/-- Whether the computed total is seven can be read off the user. -/
theorem computed_values_inlined_total : ∃ extended,
    Catalogue.users.extendAll [Catalogue.negatedId] = .ok extended ∧
    Catalogue.backend.eval (Catalogue.totalIsSeven.inlineAll [Catalogue.negatedId])
        Catalogue.users.schema Catalogue.userRow =
      Catalogue.backend.eval Catalogue.totalIsSeven extended.schema
        Catalogue.userRowWithTotal := by
  obtain ⟨extended, hextend⟩ :
      ∃ op, Catalogue.users.extendAll [Catalogue.negatedId] = .ok op := ⟨_, rfl⟩
  exact ⟨extended, hextend,
    computed_values_inlined hextend rfl Catalogue.computed_user⟩

end AxiomCore
