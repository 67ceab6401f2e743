import Mathlib.Data.Nat.Log
import Mathlib.Algebra.Order.Ring.Nat
import Mathlib.Tactic.Ring
import Mathlib.Tactic.Linarith

/-!
# Fixed-width arithmetic over `Nat`

A machine word is a natural number together with the largest value its width can
hold. The width stays a parameter throughout: one target has 32-bit pointers and
another 64-bit ones, and the programs below are the same text on both.

The checked operations return `none` exactly where the machine's would overflow;
the saturating ones stop at the largest word. Nothing here ever wraps silently.
-/

namespace Kintane

open List

def checkedAdd (max a b : Nat) : Option Nat := if a + b ≤ max then some (a + b) else none

def checkedMul (max a b : Nat) : Option Nat := if a * b ≤ max then some (a * b) else none

def checkedSub (a b : Nat) : Option Nat := if b ≤ a then some (a - b) else none

def satAdd (max a b : Nat) : Nat := min (a + b) max

def satMul (max a b : Nat) : Nat := min (a * b) max

def divCeil (a b : Nat) : Nat := (a + (b - 1)) / b

def u64Max : Nat := 2 ^ 64 - 1

variable {a b max n k v w bits : Nat}

theorem checkedAdd_eq_some {c : Nat} : checkedAdd max a b = some c ↔ a + b ≤ max ∧ c = a + b := by
  unfold checkedAdd
  split
  · rename_i h; simp [h, eq_comm]
  · rename_i h; simp [h]

theorem checkedAdd_of_le (h : a + b ≤ max) : checkedAdd max a b = some (a + b) := if_pos h

theorem checkedMul_of_le (h : a * b ≤ max) : checkedMul max a b = some (a * b) := if_pos h

theorem checkedSub_of_le (h : b ≤ a) : checkedSub a b = some (a - b) := if_pos h

theorem satAdd_of_le (h : a + b ≤ max) : satAdd max a b = a + b :=
  min_eq_left h

/-- A saturated sum exceeds a word exactly when the true sum does. -/
theorem lt_satAdd (hn : n < max) : n < satAdd max a b ↔ n < a + b := by
  unfold satAdd; omega

/-- The least multiple of `n` that is at least `a`, failing past `max`. -/
def checkedNextMultipleOf (max a n : Nat) : Option Nat :=
  if n = 0 then none
  else if a % n = 0 then some a
  else checkedAdd max a (n - a % n)

theorem le_divCeil_mul (hb : 0 < b) : a ≤ divCeil a b * b := by
  have h1 := Nat.div_add_mod (a + (b - 1)) b
  have h2 := Nat.mod_lt (a + (b - 1)) hb
  unfold divCeil
  rw [mul_comm]
  omega

/-- Below a multiple of `n` that is at least `a` lies nothing lower than the one computed. -/
theorem checkedNextMultipleOf_spec (hn : 0 < n) (ha : a ≤ max) : match checkedNextMultipleOf max a n with
    | some m => a ≤ m ∧ n ∣ m ∧ m ≤ max ∧ ∀ k, a ≤ k → n ∣ k → m ≤ k
    | none => ∀ k, a ≤ k → n ∣ k → max < k := by
  have hlt := Nat.mod_lt a hn
  -- past a multiple-free remainder, the next multiple is a whole `n` further on
  have hnext : ∀ k, a % n ≠ 0 → a ≤ k → n ∣ k → a + (n - a % n) ≤ k := by
    rintro k hr hak ⟨j, rfl⟩
    have hdiv := Nat.div_add_mod a n
    have hlt' : a / n < j := by
      by_contra hle
      have := Nat.mul_le_mul_left n (not_lt.mp hle)
      omega
    have := Nat.mul_le_mul_left n hlt'
    rw [Nat.mul_succ] at this
    omega
  unfold checkedNextMultipleOf
  rw [if_neg (pos_iff_ne_zero.mp hn)]
  by_cases hr : a % n = 0
  · rw [if_pos hr]
    exact ⟨le_rfl, Nat.dvd_of_mod_eq_zero hr, ha, fun k hk _ => hk⟩
  rw [if_neg hr]
  unfold checkedAdd
  by_cases hmax : a + (n - a % n) ≤ max
  · rw [if_pos hmax]
    refine ⟨by omega, ?_, hmax, fun k hk hd => hnext k hr hk hd⟩
    refine ⟨a / n + 1, ?_⟩
    have := Nat.div_add_mod a n
    rw [Nat.mul_succ]
    omega
  · rw [if_neg hmax]
    exact fun k hk hd => (not_le.mp hmax).trans_le (hnext k hr hk hd)

/-! ## Powers of two -/

def isPowerOfTwo (n : Nat) : Bool := n != 0 && 2 ^ Nat.log2 n == n

theorem isPowerOfTwo_iff : isPowerOfTwo n = true ↔ ∃ k, n = 2 ^ k := by
  unfold isPowerOfTwo
  constructor
  · intro h
    simp only [bne_iff_ne, ne_eq, Bool.and_eq_true, beq_iff_eq] at h
    exact ⟨Nat.log2 n, h.2.symm⟩
  · rintro ⟨k, rfl⟩
    simp [Nat.log2_two_pow]

def nextPowerOfTwo (n : Nat) : Nat := if n ≤ 1 then 1 else 2 ^ (Nat.log2 (n - 1) + 1)

def checkedNextPowerOfTwo (max n : Nat) : Option Nat :=
  if nextPowerOfTwo n ≤ max then some (nextPowerOfTwo n) else none

theorem le_nextPowerOfTwo (n : Nat) : n ≤ nextPowerOfTwo n := by
  unfold nextPowerOfTwo
  split
  · assumption
  · have := @Nat.lt_log2_self (n - 1)
    omega

theorem nextPowerOfTwo_eq (n : Nat) : ∃ k, nextPowerOfTwo n = 2 ^ k := by
  unfold nextPowerOfTwo
  split
  · exact ⟨0, rfl⟩
  · exact ⟨_, rfl⟩

theorem nextPowerOfTwo_two_pow (k : Nat) : nextPowerOfTwo (2 ^ k) = 2 ^ k := by
  unfold nextPowerOfTwo
  split
  · rename_i h
    exact (h.antisymm Nat.one_le_two_pow).symm
  rename_i h
  have hk : k ≠ 0 := by rintro rfl; simp at h
  obtain ⟨j, rfl⟩ := Nat.exists_eq_succ_of_ne_zero hk
  have h1 : 2 ^ j ≤ 2 ^ (j + 1) - 1 := by
    have := Nat.one_le_two_pow (n := j); rw [pow_succ]; omega
  have h2 : 2 ^ (j + 1) - 1 < 2 ^ (j + 1) := Nat.sub_lt (Nat.two_pow_pos _) one_pos
  have hne : 2 ^ (j + 1) - 1 ≠ 0 := by have := Nat.two_pow_pos j; omega
  rw [(Nat.log2_eq_iff hne).mpr ⟨h1, h2⟩]

/-- Round up to a multiple of `align`, a power of two, by masking off the low bits. -/
def checkedAlignUp (max a align : Nat) : Option Nat :=
  (checkedAdd max a (align - 1)).map fun v => v &&& (max ^^^ (align - 1))

/-- Masking with the complement of `2^k - 1` rounds down to a multiple of `2^k`. -/
theorem and_complement_eq (hk : k ≤ w) (hv : v < 2 ^ w) :
    v &&& ((2 ^ w - 1) ^^^ (2 ^ k - 1)) = v / 2 ^ k * 2 ^ k := by
  refine Nat.eq_of_testBit_eq fun i => ?_
  rw [Nat.testBit_and, Nat.testBit_xor, Nat.testBit_two_pow_sub_one, Nat.testBit_two_pow_sub_one,
    Nat.testBit_mul_two_pow, Nat.testBit_div_two_pow]
  by_cases hik : i < k
  · simp [hik, hik.trans_le hk, Nat.not_le.mpr hik]
  · have hki : k ≤ i := Nat.not_lt.mp hik
    by_cases hiw : i < w
    · simp [hik, hiw, hki]
    · have : v.testBit i = false :=
        Nat.testBit_lt_two_pow (hv.trans_le (Nat.pow_le_pow_right (by decide) (by omega)))
      simp [hki, this]

/-- The multiple found is the first at or past `a`. -/
theorem checkedAlignUp_spec (hk : k ≤ w) (h : checkedAlignUp (2 ^ w - 1) a (2 ^ k) = some v) :
    a ≤ v ∧ 2 ^ k ∣ v ∧ v ≤ 2 ^ w - 1 := by
  obtain ⟨n, hn, rfl⟩ := Option.map_eq_some_iff.mp h
  obtain ⟨hle, rfl⟩ := checkedAdd_eq_some.mp hn
  have hw := Nat.two_pow_pos w
  rw [and_complement_eq hk (by omega)]
  have hdiv := Nat.div_add_mod (a + (2 ^ k - 1)) (2 ^ k)
  rw [mul_comm] at hdiv
  exact ⟨by omega, Nat.dvd_mul_left _ _, by omega⟩

/-- How many zero bits lie below the lowest set bit of a `bits`-wide word; `bits` for zero. -/
def trailingZeros (bits n : Nat) : Nat := ((range bits).find? (n.testBit ·)).getD bits

/-- A word with a set bit has one where its trailing zeros end. -/
theorem trailingZeros_spec (hk : k < bits) (hb : n.testBit k = true) :
    trailingZeros bits n < bits ∧ n.testBit (trailingZeros bits n) = true := by
  unfold trailingZeros
  cases hf : (range bits).find? (n.testBit ·) with
  | none => exact absurd hb (find?_eq_none.mp hf k (mem_range.mpr hk))
  | some j => exact ⟨mem_range.mp (mem_of_find?_eq_some hf), find?_some hf⟩

theorem trailingZeros_two_pow (h : k < bits) : trailingZeros bits (2 ^ k) = k := by
  unfold trailingZeros
  have hfind : (range bits).find? ((2 ^ k).testBit ·) = some k := by
    rw [find?_range_eq_some]
    refine ⟨by simp, by simpa using h, ?_⟩
    simp only [Nat.testBit_two_pow]
    simp; omega
  rw [hfind]; rfl

end Kintane
