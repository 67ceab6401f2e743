import Mathlib.Algebra.Group.Nat.Defs
import Mathlib.Logic.Basic

/-!
# Programs that fail and keep their state

A program changes a state and ends with a value or with an error; what it had done by then stays
done. `wp m Q E s` says that from `s` it ends with `Q`, or fails with `E`.
-/

namespace Kintane.Fallible

variable {ε σ α β γ : Type} {m : EStateM ε σ α} {f : α → EStateM ε σ β} {Q Q' : α → σ → Prop} {E E' : ε → σ → Prop}
  {s s' : σ} {a : α} {g : β → EStateM ε σ γ}

def wp (m : EStateM ε σ α) (Q : α → σ → Prop) (E : ε → σ → Prop) (s : σ) : Prop :=
  match m s with
  | .ok a s' => Q a s'
  | .error e s' => E e s'

theorem wp_ok (h : wp m Q E s) (hm : m s = .ok a s') : Q a s' := by
  rw [wp, hm] at h
  exact h

theorem wp_error {e : ε} (h : wp m Q E s) (hm : m s = .error e s') : E e s' := by
  rw [wp, hm] at h
  exact h

theorem wp_mono (h : wp m Q E s) (hQ : ∀ a s', Q a s' → Q' a s') (hE : ∀ e s', E e s' → E' e s') :
    wp m Q' E' s := by
  unfold wp at h ⊢
  split at h
  · exact hQ _ _ h
  · exact hE _ _ h

@[simp] theorem wp_pure : wp (pure a : EStateM ε σ α) Q E s ↔ Q a s := Iff.rfl

@[simp] theorem wp_bind {Q : β → σ → Prop} : wp (m >>= f) Q E s ↔ wp m (fun a s' => wp (f a) Q E s') E s := by
  show wp (EStateM.bind m f) Q E s ↔ _
  unfold wp EStateM.bind
  cases m s <;> rfl

@[simp] theorem wp_get {Q : σ → σ → Prop} : wp (get : EStateM ε σ σ) Q E s ↔ Q s s := Iff.rfl

@[simp] theorem wp_set {Q : PUnit → σ → Prop} : wp (set s' : EStateM ε σ PUnit) Q E s ↔ Q ⟨⟩ s' :=
  Iff.rfl

@[simp] theorem wp_modify {Q : PUnit → σ → Prop} {g : σ → σ} :
    wp (modify g : EStateM ε σ PUnit) Q E s ↔ Q ⟨⟩ (g s) := Iff.rfl

/-- One program, then another. -/
theorem wp_seq {Q : β → σ → Prop} {P : α → σ → Prop} (h : wp m P E s)
    (hf : ∀ a s', P a s' → wp (f a) Q E s') : wp (m >>= f) Q E s :=
  wp_bind.mpr (wp_mono h hf fun _ _ => id)

/-- Two programs, and then the rest. -/
theorem wp_seq_assoc {P : β → σ → Prop} {Q : γ → σ → Prop}
    (h : wp (m >>= f) P E s) (hg : ∀ b s', P b s' → wp (g b) Q E s') :
    wp (m >>= fun a => f a >>= g) Q E s := by
  rw [wp_bind] at h ⊢
  exact wp_mono h (fun a s' hf => wp_seq hf hg) fun _ _ => id

/-- Two programs and then the rest, by what the two of them did. -/
theorem wp_outcome {Q : γ → σ → Prop}
    (hok : ∀ b s', (m >>= f) s = .ok b s' → wp (g b) Q E s') (herr : ∀ e s', (m >>= f) s = .error e s' → E e s') :
    wp (m >>= fun a => f a >>= g) Q E s := by
  rw [← bind_assoc, wp_bind]
  unfold wp
  cases hm : (m >>= f) s with
  | ok b s' => exact hok b s' hm
  | error e s' => exact herr e s' hm

theorem wp_iff_of_ok (hm : m s = .ok a s') : wp m Q E s ↔ Q a s' := by rw [wp, hm]

end Kintane.Fallible
