import Mathlib.Order.Basic

/-!
# Repeating a pass until it changes nothing

A pass returns a new value and whether it changed anything. It is repeated until it did not,
or until a number of times that is enough: when every change raises a measure that is bounded,
the value that is left is one that a pass does not change.
-/

namespace Kintane

variable {α : Type*} {f : α → α × Bool} {a : α}

def passes (f : α → α × Bool) : Nat → α → α
  | 0, a => a
  | n + 1, a => if (f a).2 then passes f n (f a).1 else (f a).1

/-- What every pass keeps. -/
theorem passes_invariant {P : α → Prop} (step : ∀ a, P a → P (f a).1) (n : Nat)
    (h : P a) : P (passes f n a) := by
  induction n generalizing a with
  | zero => exact h
  | succ n ih =>
    rw [passes]
    split
    · exact ih (step a h)
    · exact step a h

/-- A measure that no value exceeds is raised by every change. A value that is not changed, and
one whose measure is highest, is stable. -/
theorem passes_stable {P Stable : α → Prop} {μ : α → Nat} {bound : Nat} (step : ∀ a, P a → P (f a).1)
    (raised : ∀ a, P a → (f a).2 = true → μ a < μ (f a).1)
    (unchanged : ∀ a, P a → (f a).2 = false → Stable (f a).1)
    (full : ∀ a, P a → bound ≤ μ a → Stable a) (n : Nat) (h : P a)
    (hn : bound ≤ n + μ a) : Stable (passes f n a) := by
  induction n generalizing a with
  | zero => exact full a h (by rwa [Nat.zero_add] at hn)
  | succ n ih =>
    rw [passes]
    split
    next hc =>
      have := raised a h hc
      exact ih (step a h) (by omega)
    next hc => exact unchanged a h (by simpa using hc)

end Kintane
