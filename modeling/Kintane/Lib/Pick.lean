import Mathlib.Order.Basic

/-!
# The best element of a list

A loop that goes over a list and remembers the best element so far among those with a property.
-/

namespace Kintane

variable {α β : Type} {p : α → Bool} {lt : α → α → Bool} {l : List α} {a b : α} {best : Option α}

/-- One round: `a` replaces the best so far if it is better. -/
def pickRound (p : α → Bool) (lt : α → α → Bool) (best : Option α) (a : α) : Option α :=
  if p a && best.all (lt a) then some a else best

/-- The best element with the property, the first of those that are equally good. -/
def pick (p : α → Bool) (lt : α → α → Bool) (l : List α) : Option α := l.foldl (pickRound p lt) none

theorem foldl_pickRound_mem (h : l.foldl (pickRound p lt) best = some a) : best = some a ∨ a ∈ l ∧ p a = true := by
  induction l generalizing best with
  | nil => exact .inl h
  | cons b l ih =>
    rcases ih h with hb | ⟨ha, hp⟩
    · unfold pickRound at hb
      split at hb
      · next hb' =>
        cases hb
        exact .inr ⟨List.mem_cons_self, (Bool.and_eq_true_iff.mp hb').1⟩
      · exact .inl hb
    · exact .inr ⟨List.mem_cons_of_mem _ ha, hp⟩

theorem of_pick (h : pick p lt l = some a) : a ∈ l ∧ p a = true :=
  (foldl_pickRound_mem h).resolve_left nofun

theorem foldl_pickRound_none (h : l.foldl (pickRound p lt) best = none) : best = none ∧ ∀ a ∈ l, p a = false := by
  induction l generalizing best with
  | nil => exact ⟨h, nofun⟩
  | cons b l ih =>
    obtain ⟨hb, hl⟩ := ih h
    unfold pickRound at hb
    split at hb
    · cases hb
    rename_i hb'
    subst hb
    exact ⟨rfl, List.forall_mem_cons.mpr ⟨by simpa using hb', hl⟩⟩

theorem of_pick_none (h : pick p lt l = none) : ∀ a ∈ l, p a = false := (foldl_pickRound_none h).2

/-- Where the comparison goes by a key, and of equals keeps the one that comes first in the order
`R` of the list, the element picked has the least. -/
theorem foldl_pickRound_le [Preorder β] {R : α → α → Prop} {key : α → β}
    (hlt : ∀ a b, lt a b = true → key a ≤ key b) (hge : ∀ a b, R b a → lt a b = false → key b ≤ key a)
    (hl : l.Pairwise R) (hbest : ∀ b, best = some b → ∀ a ∈ l, R b a)
    (h : l.foldl (pickRound p lt) best = some a) :
    (∀ b, best = some b → key a ≤ key b) ∧ ∀ b ∈ l, p b = true → key a ≤ key b := by
  induction l generalizing best with
  | nil =>
    refine ⟨fun b hb => ?_, nofun⟩
    rw [show best = some a from h] at hb
    exact le_of_eq (congrArg key (Option.some.inj hb))
  | cons c l ih =>
    obtain ⟨hc, hl⟩ := List.pairwise_cons.mp hl
    have ih := ih hl (fun b hb => ?_) h
    · obtain ⟨hround, hl⟩ := ih
      unfold pickRound at hround
      split at hround
      · next hall =>
        have hac := hround c rfl
        refine ⟨fun b hb => le_trans hac (hlt c b (by simp_all)), ?_⟩
        exact List.forall_mem_cons.mpr ⟨fun _ => hac, hl⟩
      · next hnot =>
        refine ⟨hround, List.forall_mem_cons.mpr ⟨fun hp => ?_, hl⟩⟩
        cases best with
        | none => simp [hp] at hnot
        | some d =>
          exact le_trans (hround d rfl) (hge c d (hbest d rfl c List.mem_cons_self) (by simpa [hp] using hnot))
    · unfold pickRound at hb
      split at hb
      · cases hb
        exact hc
      · exact fun a ha => hbest b hb a (List.mem_cons_of_mem _ ha)

theorem pick_le [Preorder β] {R : α → α → Prop} (key : α → β) (hlt : ∀ a b, lt a b = true → key a ≤ key b)
    (hge : ∀ a b, R b a → lt a b = false → key b ≤ key a) (hl : l.Pairwise R) (h : pick p lt l = some a)
    (hb : b ∈ l) (hp : p b = true) : key a ≤ key b :=
  (foldl_pickRound_le hlt hge hl (by simp) h).2 b hb hp

end Kintane
