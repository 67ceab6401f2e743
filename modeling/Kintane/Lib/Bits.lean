import Mathlib.Data.List.Nodup

/-!
# Words as sets of small numbers

A word is the set of the positions of its bits: setting a bit inserts, clearing one erases, and
the position of the highest bit, read off the count of leading zeros, is the largest member.
-/

namespace Kintane.Bits

variable {w i : Nat} (x : BitVec w) (j : Nat)

/-- The word with only bit `i`. -/
def one (w i : Nat) : BitVec w := 1#w <<< i

theorem getLsbD_one (hi : i < w) : (one w i).getLsbD j = decide (j = i) := by
  rw [one, show (1#w <<< i : BitVec w) = BitVec.twoPow w i from rfl, BitVec.getLsbD_twoPow,
    decide_eq_true hi, Bool.true_and]
  exact decide_eq_decide.mpr eq_comm

/-- Testing a word for a bit. -/
theorem and_one_eq_zero (hi : i < w) : x &&& one w i = 0#w ↔ x.getLsbD i = false := by
  constructor
  · intro h0
    have := congrArg (·.getLsbD i) h0
    simpa [getLsbD_one i hi] using this
  · intro hx
    refine BitVec.eq_of_getLsbD_eq fun j _ => ?_
    rw [BitVec.getLsbD_and, getLsbD_one j hi]
    by_cases hj : j = i <;> simp [hj, hx]

theorem getLsbD_erase (hi : i < w) : (x &&& ~~~one w i).getLsbD j = (x.getLsbD j && decide (j ≠ i)) := by
  rw [BitVec.getLsbD_and, BitVec.getLsbD_not, getLsbD_one j hi]
  by_cases hj : j < w
  · simp [hj]
  · simp [hj, BitVec.getLsbD_of_ge x j (Nat.le_of_not_lt hj)]

variable {x} {x : BitVec (w + 1)}

/-- The highest bit that is set, if one is. -/
def top (x : BitVec (w + 1)) : Fin (w + 1) := ⟨w - x.clz.toNat, by omega⟩

theorem getLsbD_top (hx : x ≠ 0#(w + 1)) : x.getLsbD (top x) = true :=
  BitVec.getLsbD_true_clz_of_ne_zero (Nat.succ_pos w) hx

theorem le_top {j : Nat} (hj : x.getLsbD j = true) : j ≤ top x := by
  by_contra hlt
  have hbound : x.toNat < 2 ^ (w + 1 - x.clz.toNat) := BitVec.toNat_lt_two_pow_sub_clz
  have hle : x.toNat < 2 ^ j := by
    refine Nat.lt_of_lt_of_le hbound (Nat.pow_le_pow_right Nat.two_pos ?_)
    have : ¬ j ≤ w - x.clz.toNat := hlt
    omega
  rw [BitVec.getLsbD, Nat.testBit_lt_two_pow hle] at hj
  cases hj

end Kintane.Bits
