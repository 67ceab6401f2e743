import Kintane.Net.Wire

/-!
# What is written reads back

Every field that a writer copies into its place is what the parser finds there, and a checksum that
is put where there were zeros verifies.
-/

namespace Kintane.Wire

open Slices OnesComplement

variable {b p v l r : List UInt8} {i k n : Nat} {q parts : List (List UInt8)} {pieces : List (Nat × List UInt8)}

/-! ## Fields -/

@[simp] theorem length_be16Bytes (x : UInt16) : (be16Bytes x).length = 2 := length_toBeBytes ..

@[simp] theorem length_be32Bytes (x : UInt32) : (be32Bytes x).length = 4 := length_toBeBytes ..

theorem fromBeBytes_be16Bytes (x : UInt16) : fromBeBytes (be16Bytes x) = x.toNat :=
  fromBeBytes_toBeBytes x.toNat_lt

theorem getElem?_of_slice (h : (b.drop i).take n = v) (hk : k < n) : b[i + k]? = v[k]? := by
  rw [← h, List.getElem?_take_of_lt hk, List.getElem?_drop]

theorem be16Bytes_eq (x : UInt16) : be16Bytes x = [UInt8.ofNat (x.toNat / 256), UInt8.ofNat x.toNat] := rfl

theorem be16_of_slice {x : UInt16} (h : (b.drop i).take 2 = be16Bytes x) : be16 b i = some x := by
  have hx := fromBeBytes_be16Bytes x
  rw [be16Bytes_eq] at h hx
  have hhigh := getElem?_of_slice (k := 0) h (by decide)
  have hlow := getElem?_of_slice (k := 1) h (by decide)
  rw [add_zero] at hhigh
  rw [be16, hhigh, hlow]
  show some (UInt16.ofNat (fromBeBytes _)) = some x
  rw [hx, UInt16.ofNat_toNat]

theorem length_of_slice (h : (b.drop i).take n = v) (hv : v.length = n) (hn : 0 < n) : i + n ≤ b.length := by
  have := congrArg List.length h
  rw [hv, List.length_take, List.length_drop] at this
  omega

theorem be32_of_slice {x : UInt32} (h : (b.drop i).take 4 = be32Bytes x) : be32 b i = some x := by
  rw [be32, if_pos (length_of_slice h (length_be32Bytes x) (by decide)), h, be32Bytes,
    fromBeBytes_toBeBytes x.toNat_lt, UInt32.ofNat_toNat]

theorem arrayAt_of_slice {v : Vector UInt8 n} (hn : 0 < n) (h : (b.drop i).take n = v.toList) :
    arrayAt n b i = some v := by
  rw [arrayAt, dif_pos (length_of_slice h v.length_toList hn)]
  congr 1
  apply Vector.toArray_inj.mp
  show ((b.drop i).take n).toArray = v.toArray
  rw [h]
  exact Array.toArray_toList

section

variable {pieces : List (Nat × List UInt8)} {tail : List UInt8} (hf : Fills pieces n)
include hf

theorem byte_spell (x : UInt8) (h : (i, [x]) ∈ pieces) : (spell pieces ++ tail)[i]? = some x :=
  getElem?_of_slice (hf.slice h rfl) Nat.zero_lt_one

theorem be16_spell (x : UInt16) (h : (i, be16Bytes x) ∈ pieces) : be16 (spell pieces ++ tail) i = some x :=
  be16_of_slice (hf.slice h (length_be16Bytes x))

theorem be32_spell (x : UInt32) (h : (i, be32Bytes x) ∈ pieces) : be32 (spell pieces ++ tail) i = some x :=
  be32_of_slice (hf.slice h (length_be32Bytes x))

theorem macAt_spell (v : Mac) (h : (i, v.toList) ∈ pieces) : macAt (spell pieces ++ tail) i = some v :=
  arrayAt_of_slice (by decide) (hf.slice h v.length_toList)

theorem ipAt_spell (v : Ipv4Addr) (h : (i, v.toList) ∈ pieces) : ipAt (spell pieces ++ tail) i = some v :=
  arrayAt_of_slice (by decide) (hf.slice h v.length_toList)

end

/-! ## Sums -/

/-- What is left of a carried byte. -/
def finish (acc : Nat × Option UInt8) : Nat :=
  match acc.2 with
  | some high => (acc.1 + fromBeBytes [high, 0]) % 2 ^ 32
  | none => acc.1

theorem fromBeBytes_pair (high low : UInt8) : fromBeBytes [high, low] = high.toNat * 256 + low.toNat := by
  simp [fromBeBytes, fromLeBytes]
  omega

theorem finish_foldl (l : List UInt8) {s : Nat} (h : s < 2 ^ 32) :
    finish (l.foldl sumByte (s, none)) = (s + wordSum l) % 2 ^ 32 := by
  induction l using wordSum.induct generalizing s with
  | case1 => exact (Nat.mod_eq_of_lt h).symm
  | case2 high =>
    show (s + fromBeBytes [high, 0]) % 2 ^ 32 = _
    rw [fromBeBytes_pair, wordSum, UInt8.toNat_zero, add_zero]
  | case3 high low rest ih =>
    have hstep := ih (s := (s + fromBeBytes [high, low]) % 2 ^ 32) (Nat.mod_lt _ (by decide))
    refine hstep.trans ?_
    rw [fromBeBytes_pair, wordSum, Nat.mod_add_mod, add_assoc]

/-- Parts sum as their concatenation does, whatever their lengths. -/
theorem sumParts_eq (parts : List (List UInt8)) : sumParts parts = wordSum parts.flatten % 2 ^ 32 := by
  have hflat : parts.foldl (fun acc part => part.foldl sumByte acc) (0, none) =
      parts.flatten.foldl sumByte (0, none) := List.foldl_flatten.symm
  have := finish_foldl parts.flatten (s := 0) (by decide)
  rw [zero_add] at this
  rw [← this, ← hflat]
  rfl

variable {p : List (List UInt8)}

theorem checksum_congr (h : p.flatten = q.flatten) : checksum p = checksum q := by
  rw [checksum, checksum, sumParts_eq, sumParts_eq, h]

theorem toNat_checksum (parts : List (List UInt8)) :
    (checksum parts).toNat = 0xffff - fold 2 (wordSum parts.flatten % 2 ^ 32) := by
  have hle := fold_le (Nat.mod_lt (wordSum parts.flatten) (by decide : 0 < 2 ^ 32))
  rw [checksum, sumParts_eq, UInt16.toNat_not, UInt16.toNat_ofNat_of_lt' (Nat.lt_succ_of_le hle)]
  rfl

/-- A checksum verifies when the sum folds to all ones. -/
theorem checksum_eq_zero (h : fold 2 (wordSum parts.flatten % 2 ^ 32) = 0xffff) : checksum parts = 0 := by
  apply UInt16.toNat_inj.mp
  rw [toNat_checksum, h]
  rfl

theorem wordSum_be16Bytes (x : UInt16) : wordSum (be16Bytes x) = x.toNat := by
  have hx := fromBeBytes_be16Bytes x
  rw [be16Bytes_eq] at hx ⊢
  rw [fromBeBytes_pair] at hx
  simpa [wordSum] using hx

/-- The sum with a word where there were zeros. -/
theorem wordSum_fill (heven : l.length % 2 = 0) (x : UInt16) :
    wordSum (l ++ (be16Bytes x ++ r)) = wordSum (l ++ ([0, 0] ++ r)) + x.toNat := by
  rw [wordSum_append heven, wordSum_append heven, wordSum_append (by simp), wordSum_append (by simp),
    wordSum_be16Bytes]
  simp only [wordSum, UInt8.toNat_zero]
  omega

/-- The checksum, put where there were zeros, verifies. -/
theorem checksum_fill (heven : l.length % 2 = 0)
    (h : p.flatten = l ++ ([0, 0] ++ r)) (h' : q.flatten = l ++ (be16Bytes (checksum p) ++ r)) :
    checksum q = 0 := by
  apply checksum_eq_zero
  have hsum := add_complement (Nat.mod_lt (wordSum p.flatten) (by decide : 0 < 2 ^ 32))
  rw [← toNat_checksum] at hsum
  rw [h', wordSum_fill heven, ← h, ← Nat.mod_add_mod, Nat.mod_eq_of_lt hsum.1]
  exact hsum.2

/-- The same for a piece, under a header of a whole number of words. -/
theorem checksum_spell (front tail : List UInt8)
    (hc : Contiguous 0 pieces) (hk : pieces[k]? = some (i, [0, 0])) (hfront : front.length % 2 = 0)
    (hi : i % 2 = 0) :
    checksum [front, spell (pieces.set k (i, be16Bytes (checksum [front, spell pieces ++ tail]))) ++ tail] = 0 := by
  have hlen := length_spell_take hc hk
  refine checksum_fill (p := [front, spell pieces ++ tail]) (l := front ++ spell (pieces.take k))
    (r := spell (pieces.drop (k + 1)) ++ tail) ?_ ?_ ?_
  · rw [List.length_append, hlen]
    omega
  · rw [spell_eq hk]
    simp
  · rw [spell_set hk]
    simp

theorem checksum_spell_self (hc : Contiguous 0 pieces)
    (hk : pieces[k]? = some (i, [0, 0])) (hi : i % 2 = 0) :
    checksum [spell (pieces.set k (i, be16Bytes (checksum [spell pieces])))] = 0 := by
  have h := checksum_spell [] [] hc hk rfl hi
  rwa [List.append_nil, List.append_nil, checksum_congr (p := [[], spell pieces]) (q := [spell pieces]) (by simp),
    checksum_congr (q := [_]) (by simp; rfl)] at h

/-- So does the other representation of zero, where the sum is far from wrapping. -/
theorem checksum_fill_ones {parts' : List (List UInt8)} (heven : l.length % 2 = 0)
    (h : parts.flatten = l ++ ([0, 0] ++ r)) (h' : parts'.flatten = l ++ (be16Bytes 0xffff ++ r))
    (hzero : checksum parts = 0) (hlen : parts.flatten.length < 2 ^ 17 - 4) : checksum parts' = 0 := by
  apply checksum_eq_zero
  have hle := wordSum_le parts.flatten
  have hnat := toNat_checksum parts
  rw [hzero] at hnat
  have hlt : wordSum parts.flatten < 2 ^ 32 := by omega
  rw [Nat.mod_eq_of_lt hlt] at hnat
  have hfold := fold_le hlt
  rw [h', wordSum_fill heven, ← h, Nat.mod_eq_of_lt]
  · refine add_ones (by omega) ?_
    have : (0 : UInt16).toNat = 0 := rfl
    omega
  · show wordSum parts.flatten + 0xffff < 2 ^ 32
    omega

end Kintane.Wire
