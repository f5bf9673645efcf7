import AxiomCore.Infer

/-!
Boolean predicates. A `BoolExpression` carries a proof that it is boolean over
some header, not over the header it is later used with. A canonical predicate
is in addition free of aggregates.
-/

namespace AxiomCore

open Checked

/-- An expression proved boolean over some header. -/
structure BoolExpression where
  expr : Expression
  proved : ∃ schema, infer expr schema = .ok .bool

/-- The id of a closure registered with an execution context. -/
structure OpaqueId where
  raw : UInt32
  deriving DecidableEq

inductive Predicate where
  | expr (boolExpr : BoolExpression)
  | opaqueClosure (id : OpaqueId)

namespace BoolExpression

def tryNew (schema : Schema) (expr : Expression) : Except InferError BoolExpression :=
  match hty : infer expr schema with
  | .error e => .error e
  | .ok ty =>
    if hbool : ty = .bool then .ok ⟨expr, schema, hbool ▸ hty⟩
    else .error (.typeMismatch .bool ty)

theorem tryNew_eq_ok {schema : Schema} {expr : Expression} {b : BoolExpression} :
    tryNew schema expr = .ok b ↔ infer expr schema = .ok .bool ∧ b.expr = expr := by
  unfold tryNew
  split
  · rename_i e hty
    simp [hty]
  · rename_i ty hty
    split
    · rename_i hbool
      obtain ⟨expr', hproved⟩ := b
      simp [hty, hbool, eq_comm]
    · rename_i hbool
      simp [hty, hbool]

end BoolExpression

/-- A boolean expression without aggregates. -/
structure CanonicalPredicate where
  inner : BoolExpression
  aggregateFree : containsAggregate inner.expr = false

inductive CanonicalPredicateError where
  | infer (source : InferError)
  | containsAggregate
  deriving DecidableEq

namespace CanonicalPredicate

def tryNew (schema : Schema) (expr : Expression) :
    Except CanonicalPredicateError CanonicalPredicate :=
  if hagg : containsAggregate expr then .error .containsAggregate
  else
    match hbool : BoolExpression.tryNew schema expr with
    | .error e => .error (.infer e)
    | .ok inner => .ok ⟨inner, by
        rw [(BoolExpression.tryNew_eq_ok.mp hbool).2]
        simpa using hagg⟩

/-- The names a predicate mentions. -/
def freeAttributes (p : CanonicalPredicate) : Finset AttributeName := freeAttrsInto p.inner.expr ∅

theorem tryNew_eq_ok {schema : Schema} {expr : Expression} {p : CanonicalPredicate} :
    tryNew schema expr = .ok p ↔
      containsAggregate expr = false ∧ infer expr schema = .ok .bool ∧ p.inner.expr = expr := by
  unfold tryNew
  split
  · rename_i hagg
    simp [hagg]
  · rename_i hagg
    split
    · rename_i e hbool
      have hreject : ¬ infer expr schema = .ok .bool := by
        intro hty
        have haccept : BoolExpression.tryNew schema expr = .ok ⟨expr, schema, hty⟩ :=
          BoolExpression.tryNew_eq_ok.mpr ⟨hty, rfl⟩
        rw [haccept] at hbool
        exact absurd hbool nofun
      simp [hreject]
    · rename_i inner hbool
      obtain ⟨hty, rfl⟩ := BoolExpression.tryNew_eq_ok.mp hbool
      obtain ⟨⟨expr', hproved⟩, hfree⟩ := p
      obtain ⟨expr, hproved'⟩ := inner
      simpa [hagg, hty] using eq_comm

end CanonicalPredicate

end AxiomCore
