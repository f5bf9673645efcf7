import AxiomCore.Library.Checked

/-!
Fail-fast computations under a change of values and of errors. When every step
of one computation does to the changed values what the step of another does to
the values, then the results correspond as a whole, and the first error of one
is the changed first error of the other.
-/

namespace Checked

variable {ε ε' α α' β β' : Type} {onError : ε → ε'} {f : α → α'} {g : β → β'}

/-- The result with its value or its error changed. -/
def transport (onError : ε → ε') (f : α → α') : Except ε α → Except ε' α'
  | .ok a => .ok (f a)
  | .error e => .error (onError e)

@[simp] theorem transport_ok (a : α) : transport onError f (.ok a) = .ok (f a) := rfl

@[simp] theorem transport_error (e : ε) : transport onError f (.error e) = .error (onError e) := rfl

theorem transport_eq_ok {x : Except ε α} {b : α'} :
    transport onError f x = .ok b ↔ ∃ a, x = .ok a ∧ f a = b := by
  cases x <;> simp

/-- Two steps: the second step corresponds on the values of the first. -/
theorem transport_bind {x : Except ε α} {x' : Except ε' α'} {next : α → Except ε β}
    {next' : α' → Except ε' β'} (hx : x' = transport onError f x)
    (hnext : ∀ a, next' (f a) = transport onError g (next a)) :
    (x' >>= next') = transport onError g (x >>= next) := by
  subst hx
  cases x with
  | ok a => exact hnext a
  | error e => rfl

theorem transport_ensure {condition condition' : Prop} [Decidable condition]
    [Decidable condition'] {error : ε} {error' : ε'} (hcondition : condition' ↔ condition)
    (herror : error' = onError error) :
    ensure condition' error' = transport onError id (ensure condition error) := by
  subst herror
  by_cases h : condition
  · simp [ensure, h, hcondition]
  · simp [ensure, h, hcondition]

theorem transport_okOr {found : Option α} {found' : Option α'} {error : ε} {error' : ε'}
    (hfound : found' = found.map f) (herror : error' = onError error) :
    okOr found' error' = transport onError f (okOr found error) := by
  subst hfound herror
  cases found <;> rfl

theorem transport_mapError {δ δ' : Type} {onCause : δ → δ'} {x : Except δ α} {x' : Except δ' α'}
    {wrap : δ → ε} {wrap' : δ' → ε'} (hx : x' = transport onCause f x)
    (hwrap : ∀ e, wrap' (onCause e) = onError (wrap e)) :
    x'.mapError wrap' = transport onError f (x.mapError wrap) := by
  subst hx
  cases x with
  | ok a => rfl
  | error e => exact congrArg Except.error (hwrap e)

/-- A loop whose body corresponds on every item. -/
theorem transport_forM {items : List α} {body : α → Except ε Unit} {body' : α → Except ε' Unit}
    (hbody : ∀ a ∈ items, body' a = transport onError id (body a)) :
    forM items body' = transport onError id (forM items body) := by
  induction items with
  | nil => rfl
  | cons head tail ih =>
      obtain ⟨hhead, htail⟩ := List.forall_mem_cons.mp hbody
      exact transport_bind hhead fun _ => ih htail

theorem transport_mapM {items : List α} {body : α → Except ε β} {body' : α → Except ε' β'}
    (hbody : ∀ a ∈ items, body' a = transport onError g (body a)) :
    items.mapM body' = transport onError (List.map g) (items.mapM body) := by
  induction items with
  | nil => rfl
  | cons head tail ih =>
      obtain ⟨hhead, htail⟩ := List.forall_mem_cons.mp hbody
      simp only [List.mapM_cons]
      exact transport_bind hhead fun _ => transport_bind (ih htail) fun _ => rfl

theorem transport_foldlM {items : List α} {step : β → α → Except ε β}
    {step' : β' → α → Except ε' β'} (init : β)
    (hstep : ∀ b, ∀ a ∈ items, step' (g b) a = transport onError g (step b a)) :
    items.foldlM step' (g init) = transport onError g (items.foldlM step init) := by
  induction items generalizing init with
  | nil => rfl
  | cons head tail ih =>
      have hhead := hstep init head List.mem_cons_self
      have htail : ∀ b, ∀ a ∈ tail, step' (g b) a = transport onError g (step b a) :=
        fun b a ha => hstep b a (List.mem_cons_of_mem head ha)
      simp only [List.foldlM_cons]
      exact transport_bind hhead fun next => ih next htail

end Checked
