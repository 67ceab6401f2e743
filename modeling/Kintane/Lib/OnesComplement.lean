import Mathlib.Data.Nat.ModEq
import Kintane.Lib.Bytes

/-!
# Ones'-complement sums

The sum of the 16-bit words of a byte string, kept in 32 bits that wrap, and then folded to 16 by
adding the carries back in. Folding keeps the sum modulo 2^16 - 1 and is zero for zero only. The
complement of a folded sum, added to what it was folded from, never wraps and folds to all ones.
-/

namespace Kintane.OnesComplement

/-- The words of a byte string, added; a last odd byte is the high one of a word. -/
def wordSum : List UInt8 → Nat
  | [] => 0
  | [high] => high.toNat * 256
  | high :: low :: rest => high.toNat * 256 + low.toNat + wordSum rest

/-- After a whole number of words the sum starts afresh. -/
theorem wordSum_append {l r : List UInt8} (h : l.length % 2 = 0) : wordSum (l ++ r) = wordSum l + wordSum r := by
  induction l using wordSum.induct with
  | case1 => simp [wordSum]
  | case2 high => simp at h
  | case3 high low rest ih =>
    have hrest : rest.length % 2 = 0 := by
      rw [List.length_cons, List.length_cons] at h
      omega
    rw [List.cons_append, List.cons_append, wordSum, wordSum, ih hrest]
    omega

theorem wordSum_le (l : List UInt8) : wordSum l ≤ (l.length + 1) / 2 * 65535 := by
  induction l using wordSum.induct with
  | case1 => simp [wordSum]
  | case2 high =>
    have := high.toNat_lt
    simp only [wordSum, List.length_cons, List.length_nil]
    omega
  | case3 high low rest ih =>
    have := high.toNat_lt
    have := low.toNat_lt
    simp only [wordSum, List.length_cons]
    omega

/-! ## Folding -/

/-- `while sum > 0xffff { sum = (sum & 0xffff) + (sum >> 16) }`; a sum of 32 bits takes two rounds. -/
def fold : Nat → Nat → Nat
  | 0, sum => sum
  | rounds + 1, sum => if 0xffff < sum then fold rounds (sum % 2 ^ 16 + sum / 2 ^ 16) else sum

variable {sum : Nat}

theorem fold_le (h : sum < 2 ^ 32) : fold 2 sum ≤ 0xffff := by
  simp only [fold]
  split
  · split <;> omega
  · omega

theorem fold_pos (rounds : Nat) (h : 0 < sum) : 0 < fold rounds sum := by
  induction rounds generalizing sum with
  | zero => exact h
  | succ rounds ih =>
    unfold fold
    split
    · exact ih (by omega)
    · exact h

theorem fold_mod (rounds sum : Nat) : fold rounds sum % 0xffff = sum % 0xffff := by
  induction rounds generalizing sum with
  | zero => rfl
  | succ rounds ih =>
    unfold fold
    split
    · rw [ih]
      omega
    · rfl

/-- What the complement of a folded sum makes up for. -/
theorem add_complement (h : sum < 2 ^ 32) :
    sum + (0xffff - fold 2 sum) < 2 ^ 32 ∧ fold 2 (sum + (0xffff - fold 2 sum)) = 0xffff := by
  have hle := fold_le h
  have hmod := fold_mod 2 sum
  have hlt : sum + (0xffff - fold 2 sum) < 2 ^ 32 := by
    rcases Nat.eq_zero_or_pos sum with rfl | hpos
    · omega
    · have := fold_pos 2 hpos
      omega
  have hpos : 0 < sum + (0xffff - fold 2 sum) := by
    rcases Nat.eq_zero_or_pos sum with rfl | hpos
    · have : fold 2 0 = 0 := rfl
      omega
    · omega
  refine ⟨hlt, ?_⟩
  have h1 := fold_le hlt
  have h2 := fold_pos 2 hpos
  have h3 := fold_mod 2 (sum + (0xffff - fold 2 sum))
  omega

/-- All ones make up for as much as nothing does. -/
theorem add_ones (h : sum + 0xffff < 2 ^ 32) (hfold : fold 2 sum = 0xffff) : fold 2 (sum + 0xffff) = 0xffff := by
  have hmod := fold_mod 2 sum
  have h1 := fold_le h
  have h2 := fold_pos 2 (show 0 < sum + 0xffff by omega)
  have h3 := fold_mod 2 (sum + 0xffff)
  omega

end Kintane.OnesComplement
