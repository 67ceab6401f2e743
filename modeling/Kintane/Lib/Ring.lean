import Mathlib.Data.List.Basic
import Mathlib.Data.Nat.ModEq

/-!
# Circular lists

A list of fixed length read around its end. `at?` is the slot at a position, of any size;
`window` are the slots from a position on. One slot changes by `List.set`.
-/

open List

namespace Kintane.Ring

variable {α : Type*} {l l' : List α} {p len i j n : Nat} {a : α}

/-- The slot at position `p`, around the end. -/
def at? (l : List α) (p : Nat) : Option α := l[p % l.length]?

theorem at?_mod_add (l : List α) (p i : Nat) : at? l (p % l.length + i) = at? l (p + i) := by
  rw [at?, at?, Nat.mod_add_mod]

theorem at?_isSome (hl : 0 < l.length) (p : Nat) : ∃ a, at? l p = some a :=
  ⟨_, getElem?_eq_getElem (Nat.mod_lt p hl)⟩

theorem at?_mem (h : at? l p = some a) : a ∈ l :=
  mem_of_getElem? h

theorem forall_mem_set {p : α → Prop} (h : ∀ x ∈ l, p x) (ha : p a) (i : Nat) :
    ∀ x ∈ l.set i a, p x :=
  fun x hx => (mem_or_eq_of_mem_set hx).elim (h x) (· ▸ ha)

/-- Positions less than the length apart are different slots. -/
theorem pos_inj (hi : i < n) (hj : j < n) (h : (p + i) % n = (p + j) % n) : i = j := by
  have h' : i ≡ j [MOD n] := Nat.ModEq.add_left_cancel' p h
  rwa [Nat.ModEq, Nat.mod_eq_of_lt hi, Nat.mod_eq_of_lt hj] at h'

theorem at?_set_self (hl : 0 < l.length) (p : Nat) (a : α) :
    at? (l.set (p % l.length) a) p = some a := by
  rw [at?, length_set]
  exact getElem?_set_self (Nat.mod_lt p hl)

theorem at?_set_ne (hi : i < l.length) (hj : j < l.length)
    (h : i ≠ j) (a : α) : at? (l.set ((p + i) % l.length) a) (p + j) = at? l (p + j) := by
  rw [at?, at?, length_set]
  exact getElem?_set_ne fun he => h (pos_inj hi hj he)

/-- `len` slots from position `p` on. -/
def window (l : List α) (p len : Nat) : List α := (List.range len).filterMap fun i => at? l (p + i)

theorem window_succ (h : at? l (p + len) = some a) :
    window l p (len + 1) = window l p len ++ [a] := by
  rw [window, range_succ, filterMap_append]
  simp [window, h]

theorem window_cons (h : at? l p = some a) (len : Nat) :
    window l p (len + 1) = a :: window l (p + 1) len := by
  rw [window, range_succ_eq_map, filterMap_cons_some (by simpa using h), filterMap_map]
  congr 2
  funext i
  simp only [Function.comp, Nat.succ_eq_add_one, add_assoc, add_comm 1]

theorem window_congr {p' : Nat}
    (h : ∀ i < len, at? l (p + i) = at? l' (p' + i)) : window l p len = window l' p' len :=
  filterMap_congr fun i hi => h i (mem_range.mp hi)

theorem length_window (hl : 0 < l.length) (p len : Nat) : (window l p len).length = len := by
  induction len with
  | zero => rfl
  | succ len ih =>
    obtain ⟨a, ha⟩ := at?_isSome hl (p + len)
    rw [window_succ ha, length_append, ih, length_singleton]

theorem getElem?_window (hl : 0 < l.length) (hi : i < len) :
    (window l p len)[i]? = at? l (p + i) := by
  induction len with
  | zero => exact absurd hi (Nat.not_lt_zero i)
  | succ len ih =>
    obtain ⟨a, ha⟩ := at?_isSome hl (p + len)
    rw [window_succ ha, getElem?_append, length_window hl]
    rcases Nat.lt_succ_iff_lt_or_eq.mp hi with h | rfl
    · rw [if_pos h, ih h]
    · rw [if_neg (Nat.lt_irrefl i), Nat.sub_self, ha]
      rfl

/-- A window is extended by writing the slot behind it. -/
theorem window_set_end (hlen : len < l.length) (a : α) :
    window (l.set ((p + len) % l.length) a) p (len + 1) = window l p len ++ [a] := by
  have hl : 0 < l.length := Nat.zero_lt_of_lt hlen
  rw [window_succ (at?_set_self hl _ a)]
  congr 1
  refine window_congr fun i hi => ?_
  exact at?_set_ne hlen (hi.trans hlen) hi.ne' a

/-! ## Part of a list in a ring -/

section Holds

variable {base : Nat} {s : List α}

/-- Elements `lo` to `hi` of `s` are in the ring, where element `base` has slot `p`. -/
def Holds (l : List α) (p base : Nat) (s : List α) (lo hi : Nat) : Prop :=
  ∀ x, lo ≤ x → x < hi → at? l (p + (x - base)) = s[x]?

theorem Holds.mono {lo hi lo' hi' : Nat} (h : Holds l p base s lo hi) (hlo : lo ≤ lo')
    (hhi : hi' ≤ hi) : Holds l p base s lo' hi' :=
  fun x h1 h2 => h x (hlo.trans h1) (h2.trans_le hhi)

/-- Two parts with no gap between them. -/
theorem Holds.union {a b c d : Nat} (h : Holds l p base s a b) (h' : Holds l p base s c d)
    (hcb : c ≤ b) : Holds l p base s a d := by
  intro x h1 h2
  rcases lt_or_ge x b with hx | hx
  · exact h x h1 hx
  · exact h' x (hcb.trans hx) h2

theorem Holds.empty (lo : Nat) : Holds l p base s lo lo :=
  fun _ h1 h2 => absurd h2 (not_lt.mpr h1)

/-- The ring is read on from a later element. -/
theorem Holds.advance {lo hi : Nat} (h : Holds l p base s lo hi) (n : Nat) (hn : base + n ≤ lo) :
    Holds l ((p + n) % l.length) (base + n) s lo hi := by
  intro x h1 h2
  have hx : p + n + (x - (base + n)) = p + (x - base) := by omega
  rw [at?_mod_add, hx]
  exact h x h1 h2

/-- What is read from the ring is the list's next part. -/
theorem Holds.window_eq (h : Holds l p base s base (base + n)) (hs : base + n ≤ s.length) :
    window l p n = (s.drop base).take n := by
  induction n with
  | zero => rfl
  | succ n ih =>
    have hlt : base + n < s.length := hs
    have ha := h (base + n) (Nat.le_add_right ..) (Nat.lt_succ_self _)
    rw [Nat.add_sub_cancel_left, getElem?_eq_getElem hlt] at ha
    rw [window_succ ha, ih (h.mono le_rfl (Nat.le_succ _)) (Nat.le_of_succ_le hs),
      take_add_one, getElem?_drop, getElem?_eq_getElem hlt]
    rfl

end Holds

/-! ## A ring between two indices that wrap -/

section Pending

variable {m first stop : Nat} {ring l : List α} {a : α}

end Pending

end Kintane.Ring
