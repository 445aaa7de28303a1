import Mathlib.Tactic.Common

/-!
# Computations that fail only in expected ways

`Outcome E P x` says that the computation `x` returns a value with `P`, or fails with an error in `E`.
The rules follow the shape of the computation: `Outcome.pure`, `Outcome.bind`, and `Outcome.foldlM` for
a loop that keeps an invariant.
-/

variable {ε α β : Type}

/-- The value has `P`, and the error, if there is one, has `E`. -/
def Outcome (E : ε → Prop) (P : α → Prop) : Except ε α → Prop
  | .ok a => P a
  | .error e => E e

namespace Outcome

variable {E : ε → Prop} {P Q : α → Prop} {x : Except ε α}

theorem ok {a : α} (h : P a) : Outcome E P (Except.ok a : Except ε α) := h

theorem error {e : ε} (h : E e) : Outcome E P (Except.error e : Except ε α) := h

/-- A value that was returned. -/
theorem of_ok {a : α} (h : Outcome E P x) (hx : x = .ok a) : P a := by
  rw [hx] at h
  exact h

/-- An error that was raised. -/
theorem of_error {e : ε} (h : Outcome E P x) (hx : x = .error e) : E e := by
  rw [hx] at h
  exact h

theorem mono (h : Outcome E P x) (hPQ : ∀ a, P a → Q a) : Outcome E Q x := by
  cases x with
  | ok a => exact hPQ a h
  | error e => exact h

/-- **A sequence**: the second part starts from a value of the first one. -/
theorem bind {R : β → Prop} {f : α → Except ε β} (h : Outcome E P x)
    (hf : ∀ a, P a → Outcome E R (f a)) : Outcome E R (x >>= f) := by
  cases x with
  | ok a => exact hf a h
  | error e => exact h

/-- **A loop** keeps what each round keeps. -/
theorem foldlM {γ : Type} {f : α → γ → Except ε α} {I : α → Prop} {l : List γ} {a : α} (h : I a)
    (hstep : ∀ a c, c ∈ l → I a → Outcome E I (f a c)) : Outcome E I (l.foldlM f a) := by
  induction l generalizing a with
  | nil => exact h
  | cons c l ih =>
    rw [List.foldlM_cons]
    apply (hstep a c List.mem_cons_self h).bind
    intro a' ha'
    exact ih ha' fun a c hc => hstep a c (List.mem_cons_of_mem _ hc)

end Outcome
