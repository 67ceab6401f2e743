import Mathlib.Data.List.Basic
import Mathlib.Data.List.Nodup
import Mathlib.Logic.Function.Basic

/-!
# Doubly linked lists over index-addressed links

A list threaded through an array: each node `x` carries `next x` and `prev x`,
and one distinguished value `nil` ends it in both directions. `Linked next prev
nil p a l` says that following `next` from `a` visits exactly `l`, that the first
node's `prev` is `p`, and that every later node's `prev` names the one before it.

The two updates an allocator makes are the front insertion and the unlinking of a
node anywhere in the list. Both are stated as "the new links read as the new
list", with a frame rule for everything the update did not touch.
-/

open List

namespace Kintane

/-- Following `next` from `a` visits exactly `l`, and `prev` retraces it to `p`. -/
def Linked (next prev : Nat → Nat) (nil : Nat) : Nat → Nat → List Nat → Prop
  | _, a, [] => a = nil
  | p, a, x :: l => a = x ∧ x ≠ nil ∧ prev x = p ∧ Linked next prev nil x (next x) l

namespace Linked

variable {next prev next' prev' : Nat → Nat} {nil p a x : Nat} {l : List Nat}

@[simp] theorem nil_iff : Linked next prev nil p a [] ↔ a = nil := Iff.rfl

section

variable (h : Linked next prev nil p a l)

include h

/-- The links outside a list do not matter to it. -/
theorem frame (hn : ∀ x ∈ l, next' x = next x)
    (hp : ∀ x ∈ l, prev' x = prev x) : Linked next' prev' nil p a l := by
  induction l generalizing p a with
  | nil => exact h
  | cons x l ih =>
    obtain ⟨h1, h2, h3, h4⟩ := h
    refine ⟨h1, h2, ?_, ?_⟩
    · rw [hp x (mem_cons_self ..)]; exact h3
    · rw [hn x (mem_cons_self ..)]
      exact ih h4 (forall_mem_cons.mp hn).2
        (forall_mem_cons.mp hp).2

theorem ne_nil : ∀ x ∈ l, x ≠ nil := by
  induction l generalizing p a with
  | nil => simp
  | cons y l ih => exact forall_mem_cons.mpr ⟨h.2.1, ih h.2.2.2⟩

/-- The entry point is `nil` exactly when nothing is listed. -/
theorem eq_nil_iff : a = nil ↔ l = [] := by
  cases l with
  | nil => simpa using h
  | cons x l =>
    obtain ⟨rfl, h2, _⟩ := h
    simp [h2]

/-- A list that starts at a node other than `nil` starts with that node. -/
theorem eq_cons (ha : a ≠ nil) : ∃ t, l = a :: t := by
  cases l with
  | nil => exact absurd h ha
  | cons x l => exact ⟨l, by rw [h.1]⟩

/-- The links spell one list only. -/
theorem unique {l' : List Nat} (h' : Linked next prev nil p a l') : l = l' := by
  induction l generalizing p a l' with
  | nil => exact (h'.eq_nil_iff.mp h).symm
  | cons x l ih =>
    obtain ⟨rfl, hx, -, h⟩ := h
    obtain ⟨t, rfl⟩ := h'.eq_cons hx
    rw [ih h h'.2.2.2]

/-- The links of a member lead to the node before the list, to a member, or to `nil`. -/
theorem prev_mem (hx : x ∈ l) : prev x ∈ p :: l := by
  induction l generalizing p a with
  | nil => exact absurd hx (not_mem_nil)
  | cons y l ih =>
    rcases mem_cons.mp hx with rfl | hx
    · rw [h.2.2.1]; exact mem_cons_self ..
    · exact mem_cons_of_mem _ (ih h.2.2.2 hx)

/-- No node points back at two others, so a list is never longer than the nodes it has. -/
theorem nodup (hp : p ∉ l) : l.Nodup := by
  induction l generalizing p a with
  | nil => exact nodup_nil
  | cons x l ih =>
    obtain ⟨-, -, hprev, hrest⟩ := h
    have hx : x ∉ l := fun hmem => hp (hprev ▸ hrest.prev_mem hmem)
    exact nodup_cons.mpr ⟨hx, ih hrest hx⟩

end

/-- **Front insertion.** Point the new node at the old front and the old front back at it. -/
theorem push (h : Linked next prev nil nil a l) (hx : x ≠ nil) (hn : next' x = a) (hpx : prev' x = nil)
    (hpa : a ≠ nil → prev' a = x) (hno : ∀ y ∈ l, next' y = next y)
    (hpo : ∀ y ∈ l, y ≠ a → prev' y = prev y) : Linked next' prev' nil nil x (x :: l) := by
  have hnd := h.nodup fun hm => h.ne_nil _ hm rfl
  refine ⟨rfl, hx, hpx, ?_⟩
  rw [hn]
  cases l with
  | nil => exact h
  | cons y l =>
    obtain ⟨rfl, h2, h3, h4⟩ := h
    refine ⟨rfl, h2, hpa h2, ?_⟩
    rw [hno _ (mem_cons_self ..)]
    have hna : ∀ z ∈ l, z ≠ a := by
      rintro z hz rfl
      exact (nodup_cons.mp hnd).1 hz
    exact h4.frame (forall_mem_cons.mp hno).2
      (fun z hz => hpo z (mem_cons_of_mem _ hz) (hna z hz))

theorem next_mem (h : Linked next prev nil p a l) (hx : x ∈ l) : next x = nil ∨ next x ∈ l.tail := by
  induction l generalizing p a with
  | nil => exact absurd hx (not_mem_nil)
  | cons y l ih =>
    rcases mem_cons.mp hx with rfl | hx
    · cases l with
      | nil => exact .inl h.2.2.2
      | cons z l => exact .inr (by rw [h.2.2.2.1]; exact mem_cons_self ..)
    · exact (ih h.2.2.2 hx).imp_right mem_of_mem_tail

/-- Dropping the first node: the second takes over its `prev`. -/
theorem tail (h : Linked next prev nil p a (x :: l)) (hpl : p ∉ x :: l) (hn : ∀ y ∈ l, y ≠ p → next' y = next y)
    (hp : ∀ y ∈ l, prev' y = if y = next x then p else prev y) :
    Linked next' prev' nil p (next x) l := by
  have hnd := h.nodup hpl
  replace hpl := fun hm => hpl (mem_cons_of_mem _ hm)
  obtain ⟨rfl, h2, h3, h4⟩ := h
  cases l with
  | nil => exact h4
  | cons z l =>
    obtain ⟨hz, h5, h6, h7⟩ := h4
    have hzp : z ≠ p := fun he => hpl (he ▸ mem_cons_self ..)
    refine ⟨hz, h5, ?_, ?_⟩
    · rw [hp z (mem_cons_self ..), if_pos hz.symm]
    · rw [hn z (mem_cons_self ..) hzp]
      have hnd' := (nodup_cons.mp (nodup_cons.mp hnd).2).1
      refine h7.frame (fun y hy => hn y (mem_cons_of_mem _ hy) ?_) (fun y hy => ?_)
      · rintro rfl; exact hpl (mem_cons_of_mem _ hy)
      · rw [hp y (mem_cons_of_mem _ hy), if_neg]
        rintro rfl; rw [hz] at hy; exact hnd' hy

/-- **Unlinking.** Send the neighbours of `x` past it, and the list loses exactly `x`. -/
theorem erase (h : Linked next prev nil p a l) (hx : x ∈ l) (hpl : p ∉ l)
    (hn : ∀ y ∈ l, y ≠ x → next' y = if y = prev x then next x else next y)
    (hp : ∀ y ∈ l, y ≠ x → prev' y = if y = next x then prev x else prev y) :
    Linked next' prev' nil p (if prev x = p then next x else a) (l.erase x) := by
  induction l generalizing p a with
  | nil => exact absurd hx (not_mem_nil)
  | cons y t ih =>
    have hyt := (nodup_cons.mp (h.nodup hpl)).1
    by_cases hxy : x = y
    · subst hxy
      rw [erase_cons_head, if_pos h.2.2.1]
      have hpx : prev x = p := h.2.2.1
      refine h.tail hpl ?_ ?_
      · intro z hz hzp
        rw [hn z (mem_cons_of_mem _ hz) (fun he => hyt (he ▸ hz)), if_neg (hpx ▸ hzp)]
      · intro z hz
        rw [hp z (mem_cons_of_mem _ hz) (fun he => hyt (he ▸ hz)), hpx]
    · have hxt : x ∈ t := (mem_cons.mp hx).resolve_left hxy
      obtain ⟨rfl, h2, h3, h4⟩ := h
      -- a later node's `prev` is a member, so the entry point stays
      have hpm : prev x ≠ p := by
        intro he
        exact hpl (he ▸ h4.prev_mem hxt)
      have hanx : a ≠ next x := by
        intro he
        rcases h4.next_mem hxt with hx' | hx'
        · exact h2 (he.trans hx')
        · exact hyt (he ▸ mem_of_mem_tail hx')
      rw [erase_cons_tail (by simpa using Ne.symm hxy), if_neg hpm]
      refine ⟨rfl, h2, ?_, ?_⟩
      · rw [hp a (mem_cons_self ..) (Ne.symm hxy), if_neg hanx]; exact h3
      · rw [hn a (mem_cons_self ..) (Ne.symm hxy)]
        have := ih h4 hxt hyt
          (forall_mem_cons.mp hn).2
          (forall_mem_cons.mp hp).2
        simpa only [eq_comm] using this

end Linked

end Kintane
