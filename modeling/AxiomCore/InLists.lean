import AxiomCore.Constructors

/-!
Membership in a list and its expansion. `x IN (v1, .., vn)` means the disjunction
of the equalities of `x` with the literals. The kernel types the two forms by
separate rules, and they are accepted over the same headers. A walk over the
expansion visits `x` once for each literal, which finds nothing that one visit does
not find.
-/

namespace AxiomCore

open Checked Refined

namespace Expression

/-- The equality of an expression with a literal. -/
def equalsLit (x : Expression) (v : Value) : Expression := .binOp .eq x (.lit v)

/-- A disjunction, extended to the right by the equalities with some literals. -/
def orEquals (x : Expression) (values : List Value) (e : Expression) : Expression :=
  values.foldl (fun e v => .binOp .or e (x.equalsLit v)) e

/-- The left-nested disjunction of the equalities with the literals of a list. -/
def inListExpansion (x : Expression) (values : InListValues) : Expression :=
  x.orEquals values.toList.tail (x.equalsLit (values.get ⟨0, values.min_le⟩))

/-- The walks over an expression find what they find in `x`. -/
structure FindsAs (x e : Expression) : Prop where
  aggregate : containsAggregate e = containsAggregate x
  free : ∀ out, freeAttrsInto e out = freeAttrsInto x out

end Expression

/-- A second collection of the same names adds none. -/
theorem freeAttrsInto_twice (x : Expression) (out : Finset AttributeName) :
    freeAttrsInto x (freeAttrsInto x out) = freeAttrsInto x out := by
  ext name
  simp only [mem_freeAttrsInto]
  tauto

namespace Expression

variable {x e : Expression} {s : Schema} {v : Value}

theorem findsAs_equalsLit (x : Expression) (v : Value) : FindsAs x (x.equalsLit v) where
  aggregate := by simp [equalsLit, containsAggregate]
  free out := by simp [equalsLit, freeAttrsInto]

theorem FindsAs.or (he : FindsAs x e) (v : Value) :
    FindsAs x (.binOp .or e (x.equalsLit v)) where
  aggregate := by
    have hequals := (findsAs_equalsLit x v).aggregate
    simp [containsAggregate, he.aggregate, hequals]
  free out := by
    have hequals := (findsAs_equalsLit x v).free
    simp only [freeAttrsInto, he.free, hequals, freeAttrsInto_twice]

/-- Each further equality keeps what the walks find. -/
theorem FindsAs.orEquals (he : FindsAs x e) (values : List Value) :
    FindsAs x (x.orEquals values e) := by
  induction values generalizing e with
  | nil => exact he
  | cons v values ih => exact ih (he.or v)

theorem findsAs_inListExpansion (x : Expression) (values : InListValues) :
    FindsAs x (x.inListExpansion values) :=
  (findsAs_equalsLit x _).orEquals _

theorem infer_equalsLit :
    infer (x.equalsLit v) s = .ok .bool ↔
      ∃ ty, infer x s = .ok ty ∧ inferValue v = .ok ty := by
  simp only [equalsLit, infer, inferBinop, requireSame, bind_eq_ok, ensure_eq_ok, pure_eq_ok]
  constructor
  · intro hequals
    obtain ⟨lt, hx, rt, hv, -, rfl, -⟩ := hequals
    exact ⟨lt, hx, hv⟩
  · intro hparts
    obtain ⟨ty, hx, hv⟩ := hparts
    exact ⟨ty, hx, ty, hv, (), rfl, trivial⟩

theorem infer_or {lhs rhs : Expression} :
    infer (.binOp .or lhs rhs) s = .ok .bool ↔
      infer lhs s = .ok .bool ∧ infer rhs s = .ok .bool := by
  simp only [infer, inferBinop, bind_eq_ok, ensure_eq_ok, pure_eq_ok]
  constructor
  · intro hor
    obtain ⟨lt, hl, rt, hr, -, rfl, -, rfl, -⟩ := hor
    exact ⟨hl, hr⟩
  · intro hparts
    obtain ⟨hl, hr⟩ := hparts
    exact ⟨.bool, hl, .bool, hr, (), rfl, (), rfl, trivial⟩

/-- A disjunction of equalities is boolean when each of them is. -/
theorem infer_orEquals (values : List Value) :
    infer (x.orEquals values e) s = .ok .bool ↔
      infer e s = .ok .bool ∧ ∀ v ∈ values, infer (x.equalsLit v) s = .ok .bool := by
  induction values generalizing e with
  | nil => simp [orEquals]
  | cons v values ih =>
      have hstep := ih (e := .binOp .or e (x.equalsLit v))
      simp only [orEquals, List.foldl_cons] at hstep ⊢
      rw [hstep, infer_or, List.forall_mem_cons, and_assoc]

/-- A membership test is boolean when all literals have the type of the scrutinee. -/
theorem infer_inList {values : InListValues} :
    infer (.inList x values) s = .ok .bool ↔
      ∃ ty, infer x s = .ok ty ∧ ∀ v ∈ values.toList, inferValue v = .ok ty := by
  simp only [infer, BoundedVec.zipIdx_toList, List.forM_map, bind_eq_ok, pure_eq_ok, forM_eq_ok,
    ensure_eq_ok, List.mem_finRange, forall_const, exists_eq_right, BoundedVec.forall_mem_toList]
  constructor
  · intro hinfer
    obtain ⟨ot, hx, -, hvalues, -⟩ := hinfer
    exact ⟨ot, hx, hvalues⟩
  · intro hparts
    obtain ⟨ty, hx, hvalues⟩ := hparts
    exact ⟨ty, hx, (), hvalues, trivial⟩

/-- The expansion is boolean when all the equalities are. -/
theorem infer_inListExpansion {values : InListValues} :
    infer (x.inListExpansion values) s = .ok .bool ↔
      ∀ v ∈ values.toList, infer (x.equalsLit v) s = .ok .bool := by
  rw [inListExpansion, infer_orEquals]
  conv_rhs => rw [BoundedVec.toList_eq_cons values, List.forall_mem_cons]

/-- The two forms are boolean over the same headers. -/
theorem infer_inList_iff_expansion (x : Expression) (values : InListValues) (s : Schema) :
    infer (.inList x values) s = .ok .bool ↔ infer (x.inListExpansion values) s = .ok .bool := by
  simp only [infer_inList, infer_inListExpansion, infer_equalsLit]
  constructor
  · intro hmembers v hv
    obtain ⟨ty, hx, hvalues⟩ := hmembers
    exact ⟨ty, hx, hvalues v hv⟩
  · intro hequals
    obtain ⟨ty, hx, -⟩ := hequals (values.get ⟨0, values.min_le⟩)
      (by rw [BoundedVec.toList_eq_cons]; simp)
    refine ⟨ty, hx, ?_⟩
    intro v hv
    obtain ⟨ty', hx', hv'⟩ := hequals v hv
    obtain rfl := Except.ok.inj (hx.symm.trans hx')
    exact hv'

end Expression

/-- A restriction by a boolean expression is accepted, with the header of its input,
when the expression is boolean over the header it is built for and over that of the
input, and has no aggregate. -/
theorem exists_restrict_iff {s t : Schema} {e : Expression} {r : Op} :
    (∃ b op, BoolExpression.tryNew s e = .ok b ∧ r.restrict (.expr b) = .ok op ∧ op.schema = t) ↔
      infer e s = .ok .bool ∧ containsAggregate e = false ∧ infer e r.schema = .ok .bool ∧
        r.schema = t := by
  constructor
  · intro haccepted
    obtain ⟨b, op, hb, hop, rfl⟩ := haccepted
    obtain ⟨hs, rfl⟩ := BoolExpression.tryNew_eq_ok.mp hb
    obtain ⟨hcheck, rfl⟩ := Op.restrict_eq_ok.mp hop
    obtain ⟨hagg, hr⟩ := checkPredicate_expr_ok.mp hcheck
    exact ⟨hs, hagg, hr, rfl⟩
  · intro hchecks
    obtain ⟨hs, hagg, hr, rfl⟩ := hchecks
    have hb : BoolExpression.tryNew s e = .ok ⟨e, s, hs⟩ :=
      BoolExpression.tryNew_eq_ok.mpr ⟨hs, rfl⟩
    have hcheck : checkPredicate r.schema (.expr ⟨e, s, hs⟩) = .ok () :=
      checkPredicate_expr_ok.mpr ⟨hagg, hr⟩
    exact ⟨_, _, hb, Op.restrict_eq_ok.mpr ⟨hcheck, rfl⟩, rfl⟩

/-- A canonical predicate is accepted when its expression has no aggregate and is
boolean, and it mentions the names of the expression. -/
theorem exists_canonical_iff {s : Schema} {e : Expression} {names : Finset AttributeName} :
    (∃ p, CanonicalPredicate.tryNew s e = .ok p ∧ p.freeAttributes = names) ↔
      containsAggregate e = false ∧ infer e s = .ok .bool ∧ freeAttrsInto e ∅ = names := by
  constructor
  · intro haccepted
    obtain ⟨p, hp, rfl⟩ := haccepted
    obtain ⟨hagg, hs, rfl⟩ := CanonicalPredicate.tryNew_eq_ok.mp hp
    exact ⟨hagg, hs, rfl⟩
  · intro hchecks
    obtain ⟨hagg, hs, rfl⟩ := hchecks
    exact ⟨⟨⟨e, s, hs⟩, hagg⟩, CanonicalPredicate.tryNew_eq_ok.mpr ⟨hagg, hs, rfl⟩, rfl⟩

/-- A membership test and its expansion are boolean over the same headers, contain the
same aggregates and mention the same names. So a restriction and a canonical predicate
accept the one when they accept the other, with the same header and the same free
attributes. -/
theorem inList_admitted_iff_expansion (x : Expression) (values : InListValues) :
    (∀ s : Schema, infer (.inList x values) s = .ok .bool ↔
      infer (x.inListExpansion values) s = .ok .bool) ∧
    containsAggregate (.inList x values) = containsAggregate (x.inListExpansion values) ∧
    (∀ out, freeAttrsInto (.inList x values) out = freeAttrsInto (x.inListExpansion values) out) ∧
    (∀ (s t : Schema) (r : Op),
      (∃ b op, BoolExpression.tryNew s (.inList x values) = .ok b ∧
        r.restrict (.expr b) = .ok op ∧ op.schema = t) ↔
      ∃ b op, BoolExpression.tryNew s (x.inListExpansion values) = .ok b ∧
        r.restrict (.expr b) = .ok op ∧ op.schema = t) ∧
    ∀ (s : Schema) (names : Finset AttributeName),
      (∃ p, CanonicalPredicate.tryNew s (.inList x values) = .ok p ∧ p.freeAttributes = names) ↔
      ∃ p, CanonicalPredicate.tryNew s (x.inListExpansion values) = .ok p ∧
        p.freeAttributes = names := by
  have hinfer := Expression.infer_inList_iff_expansion x values
  have hfinds := Expression.findsAs_inListExpansion x values
  have hagg : containsAggregate (.inList x values) = containsAggregate (x.inListExpansion values) :=
    hfinds.aggregate.symm
  have hfree : ∀ out,
      freeAttrsInto (.inList x values) out = freeAttrsInto (x.inListExpansion values) out :=
    fun out => (hfinds.free out).symm
  refine ⟨hinfer, hagg, hfree, ?_, ?_⟩
  · intro s t r
    rw [exists_restrict_iff, exists_restrict_iff, hinfer s, hinfer r.schema, hagg]
  · intro s names
    rw [exists_canonical_iff, exists_canonical_iff, hinfer s, hagg, hfree]

end AxiomCore
