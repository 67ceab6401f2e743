import Mathlib.Algebra.Group.Nat.Defs
import Mathlib.Algebra.Ring.Int.Defs
import Mathlib.Data.Int.Basic

/-!
# Serial numbers

Sequence numbers of 32 bits, compared by which of the two is a short way ahead of the other.
Numbers that stand for positions of an unbounded sequence, counted from a base, compare as the
positions do, as long as these are less than half the space apart.
-/

open BitVec

namespace Kintane

abbrev Seq := BitVec 32

namespace Seq

/-- `a` comes before `b` in sequence space. -/
def lt (a b : Seq) : Bool := a != b && (b - a).toNat < 2 ^ 31

def le (a b : Seq) : Bool := a == b || lt a b

theorem not_lt_of_le {a b : Seq} (h : le a b = true) : lt b a = false := by
  simp only [le, lt, Bool.or_eq_true, beq_iff_eq, Bool.and_eq_true, bne_iff_ne, decide_eq_true_eq] at h
  rw [lt, Bool.and_eq_false_iff, bne_eq_false_iff_eq, decide_eq_false_iff_not]
  rcases h with h | ⟨hne, h⟩
  · exact .inl h.symm
  · right
    bv_omega

/-- The number of a position, counted from a base. -/
def pos (base : Seq) (k : Int) : Seq := base + BitVec.ofInt 32 k

variable (base : Seq) {k l : Int}

@[simp] theorem pos_zero : pos base 0 = base := by
  simp [pos]

theorem pos_add_ofNat (k : Int) (n : Nat) : pos base k + BitVec.ofNat 32 n = pos base (k + n) := by
  rw [pos, pos, BitVec.ofInt_add, BitVec.add_assoc]
  congr 2

/-- Counting from the position after the base. -/
theorem pos_one_add (k : Nat) : pos base (1 + k : Nat) = base + 1 + BitVec.ofNat 32 k := by
  rw [Int.natCast_add, ← pos_add_ofNat]
  rfl

theorem pos_sub (k l : Int) : pos base l - pos base k = BitVec.ofInt 32 (l - k) := by
  rw [pos, pos, Int.sub_eq_add_neg, ofInt_add, ofInt_neg]
  bv_omega

/-- The distance of two positions, as a number of the space. -/
theorem pos_sub_pos {k l : Nat} (h : k ≤ l) : pos base l - pos base k = BitVec.ofNat 32 (l - k) := by
  rw [pos_sub, ← ofInt_natCast, Int.ofNat_sub h]

theorem pos_add_sub {k l : Nat} (h : k ≤ l) : pos base k + BitVec.ofNat 32 (l - k) = pos base l := by
  rw [pos_add_ofNat, Int.ofNat_sub h, Int.add_comm, Int.sub_add_cancel]

/-- How far one position is ahead of another. -/
theorem toNat_pos_sub (h : k ≤ l) (hl : l - k < 2 ^ 32) : (pos base l - pos base k).toNat = (l - k).toNat := by
  rw [pos_sub, toNat_ofInt]
  omega

theorem pos_inj (h : -(2 ^ 32) < l - k) (h' : l - k < 2 ^ 32) : pos base k = pos base l ↔ k = l := by
  constructor
  · intro he
    have hz : BitVec.ofInt 32 (l - k) = 0#32 := by
      rw [← pos_sub base, he, BitVec.sub_self]
    have := congrArg BitVec.toNat hz
    rw [toNat_ofInt] at this
    simp only [toNat_ofNat] at this
    omega
  · rintro rfl
    rfl

theorem lt_pos (h : -(2 ^ 31) ≤ l - k) (h' : l - k < 2 ^ 31) : lt (pos base k) (pos base l) = decide (k < l) := by
  have hne := pos_inj base (k := k) (l := l) (by omega) (by omega)
  rw [lt, pos_sub, toNat_ofInt, Bool.eq_iff_iff, Bool.and_eq_true, bne_iff_ne, ne_eq, hne,
    decide_eq_true_iff, decide_eq_true_iff]
  omega

theorem le_pos (h : -(2 ^ 31) ≤ l - k) (h' : l - k < 2 ^ 31) : le (pos base k) (pos base l) = decide (k ≤ l) := by
  have hne := pos_inj base (k := k) (l := l) (by omega) (by omega)
  rw [le, lt_pos base h h', Bool.eq_iff_iff, Bool.or_eq_true, beq_iff_eq, hne,
    decide_eq_true_iff, decide_eq_true_iff]
  omega

end Seq

end Kintane
