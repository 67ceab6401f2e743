import Mathlib.Data.List.Nodup

/-!
# Singly linked lists

A list threaded through its nodes by one link for each, as through the slots of an array.
`Links next a l b` says that following `next` from `a` visits exactly the nodes of `l` and then
comes to `b`; with `b = none` that is a whole list, and segments compose.
-/

open List

namespace Kintane

/-- Following `next` from `a` visits `l` and comes to `b`. -/
def Links {α : Type} (next : α → Option α) : Option α → List α → Option α → Prop
  | a, [], b => a = b
  | a, x :: l, b => a = some x ∧ Links next (next x) l b

namespace Links

variable {α : Type} {next next' : α → Option α} {a b : Option α} {l l1 l2 : List α} {x : α}

theorem append_iff : Links next a (l1 ++ l2) b ↔ ∃ c, Links next a l1 c ∧ Links next c l2 b := by
  induction l1 generalizing a with
  | nil => exact ⟨fun h => ⟨a, rfl, h⟩, fun ⟨c, hc, h⟩ => hc ▸ h⟩
  | cons x l1 ih =>
    constructor
    · rintro ⟨ha, h⟩
      obtain ⟨c, h1, h2⟩ := ih.mp h
      exact ⟨c, ⟨ha, h1⟩, h2⟩
    · rintro ⟨c, ⟨ha, h1⟩, h2⟩
      exact ⟨ha, ih.mpr ⟨c, h1, h2⟩⟩

/-- The links of other nodes do not matter. -/
theorem frame (h : Links next a l b) (hn : ∀ x ∈ l, next' x = next x) : Links next' a l b := by
  induction l generalizing a with
  | nil => exact h
  | cons x l ih =>
    refine ⟨h.1, ?_⟩
    rw [hn x mem_cons_self]
    exact ih h.2 (forall_mem_cons.mp hn).2

theorem head? (h : Links next a l none) : a = l.head? := by
  cases l with
  | nil => exact h
  | cons x l => exact h.1

/-- In a list without repetitions the last node is not among those before it. -/
theorem frame_dropLast {l0 : List α} {t : α} {f : α → Option α} [DecidableEq α]
    (h : Links next a l0 b) (ht : t ∉ l0)
    (hn : ∀ y ∈ l0, next' y = if some t = some y then f y else next y) : Links next' a l0 b := by
  refine h.frame fun y hy => ?_
  rw [hn y hy, if_neg]
  rintro ⟨⟩
  exact ht hy

variable [DecidableEq α]

/-- A node is put behind the last. -/
theorem concat (h : Links next a l none) (hl : l.Nodup) (hnew : next' x = none)
    (hnext : ∀ y ∈ l, next' y = if l.getLast? = some y then some x else next y) :
    Links next' (if l = [] then some x else a) (l ++ [x]) none := by
  cases hlast : l.getLast? with
  | none =>
    rw [getLast?_eq_none_iff] at hlast
    subst hlast
    exact ⟨rfl, hnew⟩
  | some t =>
    obtain ⟨l0, rfl⟩ := getLast?_eq_some_iff.mp hlast
    rw [hlast] at hnext
    rw [if_neg (append_ne_nil_of_right_ne_nil _ (cons_ne_nil t []))]
    obtain ⟨c, h1, h2⟩ := append_iff.mp h
    have ht : t ∉ l0 := fun hm => (nodup_append.mp hl).2.2 t hm t mem_cons_self rfl
    have h1' := h1.frame_dropLast ht fun y hy => hnext y (mem_append_left _ hy)
    have ht' : next' t = some x := by
      rw [hnext t (mem_append_right _ mem_cons_self), if_pos rfl]
    rw [append_assoc]
    refine append_iff.mpr ⟨c, h1', h2.1, ?_⟩
    rw [ht']
    exact ⟨rfl, hnew⟩

/-- A node is taken out: the one before it, if any, is linked past it. -/
theorem unlink (h : Links next a (l1 ++ x :: l2) none) (hl : (l1 ++ x :: l2).Nodup)
    (hnext : ∀ y ∈ l1 ++ l2, next' y = if l1.getLast? = some y then next x else next y) :
    Links next' (if l1 = [] then next x else a) (l1 ++ l2) none := by
  obtain ⟨c, h1, hc, h2⟩ := append_iff.mp h
  obtain ⟨hl1, hl2, hdisj⟩ := nodup_append.mp hl
  have h2' : Links next' (next x) l2 none := by
    refine h2.frame fun y hy => ?_
    rw [hnext y (mem_append_right _ hy), if_neg]
    intro hlast
    exact hdisj y (mem_of_getLast? hlast) y (mem_cons_of_mem _ hy) rfl
  cases hlast : l1.getLast? with
  | none =>
    rw [getLast?_eq_none_iff] at hlast
    subst hlast
    exact h2'
  | some p =>
    obtain ⟨l0, rfl⟩ := getLast?_eq_some_iff.mp hlast
    rw [hlast] at hnext
    rw [if_neg (append_ne_nil_of_right_ne_nil _ (cons_ne_nil p []))]
    obtain ⟨d, h0, hd, -⟩ := append_iff.mp h1
    have hp : p ∉ l0 := fun hm => (nodup_append.mp hl1).2.2 p hm p mem_cons_self rfl
    have h0' := h0.frame_dropLast hp fun y hy =>
      hnext y (mem_append_left _ (mem_append_left _ hy))
    have hp' : next' p = next x := by
      rw [hnext p (by simp), if_pos rfl]
    exact append_iff.mpr ⟨next x, append_iff.mpr ⟨d, h0', hd, hp'⟩, h2'⟩

/-- The search for the node before `x`. -/
def findPrev (next : α → Option α) (x : α) : Nat → Option α → Option α → Option α
  | fuel + 1, prev, some c => if c = x then prev else findPrev next x fuel (some c) (next c)
  | _, prev, _ => prev

theorem findPrev_eq {fuel : Nat} {prev : Option α} (h : Links next a (l1 ++ x :: l2) none)
    (hx : x ∉ l1) (hf : l1.length < fuel) :
    findPrev next x fuel prev a = l1.getLast?.or prev := by
  induction l1 generalizing a prev fuel with
  | nil =>
    obtain ⟨rfl, -⟩ := h
    cases fuel with
    | zero => cases hf
    | succ fuel => exact if_pos rfl
  | cons y l1 ih =>
    obtain ⟨rfl, h⟩ := h
    rw [mem_cons, not_or] at hx
    cases fuel with
    | zero => cases hf
    | succ fuel =>
      rw [findPrev, if_neg (Ne.symm hx.1), ih h hx.2 (by simpa using hf), getLast?_cons]
      cases l1.getLast? <;> rfl

end Links

end Kintane
