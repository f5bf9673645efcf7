import Mathlib.Data.List.Forall2

/-!
Computations that may fail, but only in allowed ways. `Safe allowed post x`
says that `x` ends with a value satisfying `post` or with an allowed error, so
the errors that are not allowed never happen. The rules follow the shape of a
program: a value, a sequence of two steps, a weaker promise.
-/

namespace Checked

variable {ε α β : Type}

/-- A value satisfies `post`, an error is allowed. -/
def Safe (allowed : ε → Prop) (post : α → Prop) : Except ε α → Prop
  | .ok a => post a
  | .error e => allowed e

namespace Safe

variable {allowed : ε → Prop} {post : α → Prop} {x : Except ε α}

@[simp] theorem ok_iff {a : α} : Safe allowed post (.ok a) ↔ post a := Iff.rfl

@[simp] theorem error_iff {e : ε} : Safe allowed post (.error e) ↔ allowed e := Iff.rfl

theorem iff_forall : Safe allowed post x ↔
    (∀ a, x = .ok a → post a) ∧ ∀ e, x = .error e → allowed e := by
  cases x <;> simp

/-- A weaker promise, which may use how the computation ended. -/
theorem mono {allowed' : ε → Prop} {post' : α → Prop} (h : Safe allowed post x)
    (hpost : ∀ a, x = .ok a → post a → post' a)
    (hallowed : ∀ e, x = .error e → allowed e → allowed' e) : Safe allowed' post' x := by
  cases x with
  | ok a => exact hpost a rfl h
  | error e => exact hallowed e rfl h

/-- Two steps: the second starts from what the first promises. -/
theorem bind {post' : β → Prop} {next : α → Except ε β} (hfirst : Safe allowed post x)
    (hnext : ∀ a, post a → Safe allowed post' (next a)) : Safe allowed post' (x >>= next) := by
  cases x with
  | ok a => exact hnext a hfirst
  | error e => exact hfirst

end Safe

end Checked
