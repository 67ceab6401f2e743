import Mathlib.Data.Nat.Count
import Mathlib.Order.Interval.Finset.Nat
import Kintane.Lib.Word

/-!
# Bit arrays in bytes

Bit `i` of a byte list is bit `i % 8` of byte `i / 8`. Reads past the end say the bit
is clear and writes past it do nothing, so a bit array is a finite set of indices:
`bits`. Setting a bit inserts, clearing one erases, and the popcount is the size.
-/

open Finset

namespace Kintane.Bitmap

def mask (k : Nat) : UInt8 := 1 <<< UInt8.ofNat k

/-- Bit `i`, of byte `i / 8`. -/
def bit (m : List UInt8) (i : Nat) : Bool :=
  match m[i / 8]? with
  | some b => b &&& mask (i % 8) != 0
  | none => false

def setBit (m : List UInt8) (i : Nat) : List UInt8 :=
  m.modify (i / 8) fun b => b ||| mask (i % 8)

def clearBit (m : List UInt8) (i : Nat) : List UInt8 :=
  m.modify (i / 8) fun b => b &&& ~~~mask (i % 8)

def countOnes (b : UInt8) : Nat := Nat.count (fun k => b.toBitVec.getLsbD k = true) 8

/-! ## One byte -/

theorem mask_bit : ∀ k < 8, ∀ l < 8, (mask k).toBitVec.getLsbD l = decide (k = l) := by decide

variable {b : UInt8} {i j : Nat} {m : List UInt8}

theorem and_mask {k : Nat} (hk : k < 8) : (b &&& mask k != 0) = b.toBitVec.getLsbD k := by
  have hget : ∀ l < 8, (b &&& mask k).toBitVec.getLsbD l =
      (b.toBitVec.getLsbD l && decide (k = l)) := by
    intro l hl
    rw [UInt8.toBitVec_and, BitVec.getLsbD_and, mask_bit k hk l hl]
  by_cases hb : b.toBitVec.getLsbD k = true
  · rw [hb, bne_iff_ne]
    intro h0
    have := hget k hk
    rw [h0, hb] at this
    simp at this
  · have hb : b.toBitVec.getLsbD k = false := by simpa using hb
    rw [hb, bne_eq_false_iff_eq]
    apply UInt8.toBitVec_inj.mp
    apply BitVec.eq_of_getLsbD_eq
    intro l hl
    rw [hget l hl]
    by_cases hkl : k = l
    · subst hkl; simp [hb]
    · simp [hkl]

/-- The lowest set bit of a byte that is not zero. -/
theorem trailingZeros_byte (hb : b ≠ 0) :
    trailingZeros 8 b.toNat < 8 ∧ b.toBitVec.getLsbD (trailingZeros 8 b.toNat) = true := by
  obtain ⟨k, hk, hbit⟩ : ∃ k < 8, b.toNat.testBit k = true := by
    by_contra hno
    push Not at hno
    refine hb (UInt8.toBitVec_inj.mp (BitVec.eq_of_getLsbD_eq fun i hi => ?_))
    have := hno i hi
    simpa [BitVec.getLsbD] using this
  exact trailingZeros_spec hk hbit

/-! ## The whole array -/

theorem bit_eq (m : List UInt8) (i : Nat) :
    bit m i = (m[i / 8]?.map fun b => b.toBitVec.getLsbD (i % 8)).getD false := by
  unfold bit
  cases m[i / 8]? with
  | none => rfl
  | some b => exact and_mask (Nat.mod_lt _ (by decide))

theorem bit_lt (h : bit m i = true) : i < 8 * m.length := by
  unfold bit at h
  cases hb : m[i / 8]? with
  | none => rw [hb] at h; cases h
  | some b =>
    obtain ⟨hlt, -⟩ := List.getElem?_eq_some_iff.mp hb
    omega

@[simp] theorem length_setBit (m : List UInt8) (i : Nat) : (setBit m i).length = m.length := by
  simp [setBit]

@[simp] theorem length_clearBit (m : List UInt8) (i : Nat) :
    (clearBit m i).length = m.length := by simp [clearBit]

/-- A byte-wise change of bit `i` is a change of bit `i` only. -/
theorem bit_modify {f : UInt8 → UInt8} {g : Bool → Bool} (hf : ∀ b : UInt8, ∀ l < 8, (f b).toBitVec.getLsbD l =
      if i % 8 = l then g (b.toBitVec.getLsbD l) else b.toBitVec.getLsbD l) (hj : j < 8 * m.length) :
    bit (m.modify (i / 8) f) j = if i = j then g (bit m j) else bit m j := by
  have hlt : j / 8 < m.length := by omega
  have hmod : j % 8 < 8 := Nat.mod_lt _ (by decide)
  rw [bit_eq, bit_eq, List.getElem?_modify, List.getElem?_eq_getElem hlt]
  simp only [Option.map_eq_map, Option.map_some, Option.getD_some]
  by_cases hd : i / 8 = j / 8
  · rw [if_pos hd, hf _ _ hmod]
    by_cases he : i = j
    · subst he; rw [if_pos rfl, if_pos rfl]
    · rw [if_neg he, if_neg (by omega)]
  · rw [if_neg hd, if_neg (fun h => hd (by rw [h]))]

theorem bit_setBit (hj : j < 8 * m.length) : bit (setBit m i) j = if i = j then true else bit m j := by
  refine bit_modify (g := fun _ => true) (fun b l hl => ?_) hj
  rw [UInt8.toBitVec_or, BitVec.getLsbD_or, mask_bit _ (Nat.mod_lt _ (by decide)) l hl]
  split <;> simp [*]

theorem bit_clearBit (hj : j < 8 * m.length) : bit (clearBit m i) j = if i = j then false else bit m j := by
  refine bit_modify (g := fun _ => false) (fun b l hl => ?_) hj
  rw [UInt8.toBitVec_and, UInt8.toBitVec_not, BitVec.getLsbD_and, BitVec.getLsbD_not,
    mask_bit _ (Nat.mod_lt _ (by decide)) l hl]
  split <;> simp [*]

/-- The indices of the set bits. -/
def bits (m : List UInt8) : Finset Nat := (range (8 * m.length)).filter (bit m ·)

theorem mem_bits : i ∈ bits m ↔ bit m i = true := by
  unfold bits
  rw [mem_filter, mem_range]
  exact ⟨fun h => h.2, fun h => ⟨bit_lt h, h⟩⟩

theorem lt_of_mem_bits (h : i ∈ bits m) : i < 8 * m.length :=
  bit_lt (mem_bits.mp h)

/-- The bits are all there is to an array of a given size. -/
theorem ext_bits {m' : List UInt8} (hlen : m.length = m'.length) (h : ∀ i, i ∈ bits m ↔ i ∈ bits m') : m = m' := by
  refine List.ext_getElem hlen fun j hj hj' => UInt8.toBitVec_inj.mp (BitVec.eq_of_getLsbD_eq fun k hk => ?_)
  have hbit := h (8 * j + k)
  have hdiv : (8 * j + k) / 8 = j := by omega
  have hmod : (8 * j + k) % 8 = k := by omega
  rw [mem_bits, mem_bits, bit_eq, bit_eq, hdiv, hmod, List.getElem?_eq_getElem hj, List.getElem?_eq_getElem hj'] at hbit
  exact Bool.eq_iff_iff.mpr hbit

/-- `update` gives bit `i` the value `v`, and changes no other. -/
structure Writes (update : List UInt8 → Nat → List UInt8) (v : Bool) : Prop where
  length : ∀ m i, (update m i).length = m.length
  bit : ∀ {m i j}, j < 8 * m.length → bit (update m i) j = if i = j then v else bit m j

theorem writes_setBit : Writes setBit true := ⟨length_setBit, bit_setBit⟩

theorem writes_clearBit : Writes clearBit false := ⟨length_clearBit, bit_clearBit⟩

section

variable {update : List UInt8 → Nat → List UInt8} {v : Bool} (h : Writes update v)

include h

theorem Writes.mem_bits : j ∈ bits (update m i) ↔ i = j ∧ j < 8 * m.length ∧ v = true ∨ i ≠ j ∧ j ∈ bits m := by
  by_cases hj : j < 8 * m.length
  · rw [Bitmap.mem_bits, h.bit hj]
    split <;> simp [*, Bitmap.mem_bits]
  · have hout {m' : List UInt8} (hlen : m'.length = m.length) : j ∉ bits m' := fun hm => hj (hlen ▸ lt_of_mem_bits hm)
    simp [hj, hout (h.length m i), hout rfl]

/-- A run of bits, one after the other. -/
theorem Writes.range {k n : Nat} (hn : k + n ≤ 8 * m.length) :
    ((List.range' k n).foldl update m).length = m.length ∧
      ∀ i, i ∈ bits ((List.range' k n).foldl update m) ↔
        (k ≤ i ∧ i < k + n) ∧ v = true ∨ ¬(k ≤ i ∧ i < k + n) ∧ i ∈ bits m := by
  induction n generalizing m k with
  | zero => exact ⟨rfl, fun i => by simp⟩
  | succ n ih =>
    obtain ⟨h1, h2⟩ := ih (m := update m k) (k := k + 1) (by rw [h.length]; omega)
    refine ⟨h1.trans (h.length ..), fun i => ?_⟩
    rw [List.range'_succ, List.foldl_cons, h2, h.mem_bits]
    grind

end

theorem bits_setBit (hi : i < 8 * m.length) : bits (setBit m i) = insert i (bits m) := by
  ext j
  rw [writes_setBit.mem_bits, mem_insert]
  grind

theorem bits_clearBit : bits (clearBit m i) = (bits m).erase i := by
  ext j
  rw [writes_clearBit.mem_bits, mem_erase]
  grind

theorem bits_replicate_zero (n : Nat) : bits (List.replicate n 0) = ∅ := by
  ext i
  rw [mem_bits, bit_eq, List.getElem?_replicate]
  split <;> simp

/-- The set bits of `b :: m`, counted byte by byte. -/
theorem card_bits_cons (b : UInt8) (m : List UInt8) : (bits (b :: m)).card = countOnes b + (bits m).card := by
  have hlow : ∀ k < 8, (bit (b :: m) k = true ↔ b.toBitVec.getLsbD k = true) := by
    intro k hk
    rw [bit_eq, Nat.div_eq_of_lt hk, Nat.mod_eq_of_lt hk]
    simp
  have hhigh : ∀ k, bit (b :: m) (8 + k) = bit m k := by
    intro k
    rw [bit_eq, bit_eq, show (8 + k) / 8 = k / 8 + 1 by omega, show (8 + k) % 8 = k % 8 by omega]
    rfl
  unfold bits countOnes
  rw [← Nat.count_eq_card_filter_range, ← Nat.count_eq_card_filter_range, List.length_cons,
    Nat.mul_succ, add_comm, Nat.count_add]
  congr 1
  · rw [Nat.count_eq_card_filter_range, Nat.count_eq_card_filter_range]
    congr 1
    refine filter_congr fun k hk => hlow k (mem_range.mp hk)
  · simp only [hhigh]

end Kintane.Bitmap
