import Mathlib.Data.List.Basic
import Mathlib.Tactic.Ring

/-!
# Records in a flat byte store

A store is a list of bytes, and a field is a run of them at a fixed offset. Reads
and writes are bounds-checked the way slice indexing is: a range that leaves the
store reads as `none` and writes nothing. The laws below are the usual ones of a
lens: a field reads back what was written to it, and writing one field leaves
every disjoint one alone.
-/

open List

namespace Kintane

section Slice

variable {α : Type} {s v : List α} {i j len : Nat}

/-- The slice, if the list has all of it. -/
def getSlice (s : List α) (i len : Nat) : Option (List α) :=
  if i + len ≤ s.length then some ((s.drop i).take len) else none

/-- The list with `v` at `i`, if it has room for all of it. -/
def setSlice (s : List α) (i : Nat) (v : List α) : List α :=
  if i + v.length ≤ s.length then s.take i ++ (v ++ s.drop (i + v.length)) else s

@[simp] theorem length_setSlice : (setSlice s i v).length = s.length := by
  unfold setSlice
  split
  · simp; omega
  · rfl

theorem getElem?_setSlice (h : i + v.length ≤ s.length) :
    (setSlice s i v)[j]? = if i ≤ j ∧ j < i + v.length then v[j - i]? else s[j]? := by
  have hi : (s.take i).length = i := by simp; omega
  rw [setSlice, if_pos h]
  rcases lt_or_ge j i with hj | hj
  · rw [getElem?_append_left (by omega), if_neg (by omega), getElem?_take_of_lt hj]
  rw [getElem?_append_right (by omega), hi]
  rcases lt_or_ge j (i + v.length) with hj' | hj'
  · rw [if_pos ⟨hj, hj'⟩, getElem?_append_left (by omega)]
  · rw [if_neg (by omega), getElem?_append_right (by omega), getElem?_drop]
    congr 1; omega

/-- A field reads back what was written to it. -/
theorem getSlice_setSlice_self (h : i + v.length ≤ s.length) :
    getSlice (setSlice s i v) i v.length = some v := by
  rw [getSlice, if_pos (by simpa using h)]
  congr 1
  apply ext_getElem?
  intro k
  rcases lt_or_ge k v.length with hk | hk
  · rw [getElem?_take_of_lt hk, getElem?_drop, getElem?_setSlice h, if_pos (by omega), Nat.add_sub_cancel_left]
  · rw [getElem?_take_eq_none hk, getElem?_eq_none hk]

/-- A field is blind to writes elsewhere. -/
theorem getSlice_setSlice_of_disjoint (h : j + len ≤ i ∨ i + v.length ≤ j) :
    getSlice (setSlice s i v) j len = getSlice s j len := by
  by_cases hin : i + v.length ≤ s.length
  · unfold getSlice
    simp only [length_setSlice]
    split
    · congr 1
      apply ext_getElem?
      intro k
      rcases lt_or_ge k len with hk | hk
      · rw [getElem?_take_of_lt hk, getElem?_take_of_lt hk, getElem?_drop,
          getElem?_drop, getElem?_setSlice hin, if_neg (by omega)]
      · rw [getElem?_take_eq_none hk, getElem?_take_eq_none hk]
    · rfl
  · rw [setSlice, if_neg hin]

theorem length_of_getSlice (h : getSlice s i len = some v) : v.length = len := by
  unfold getSlice at h
  split at h
  · injection h with h; rw [← h]; simp; omega
  · exact absurd h (by simp)

end Slice

/-! ## Little-endian words -/

def fromLeBytes : List UInt8 → Nat
  | [] => 0
  | b :: bs => b.toNat + 256 * fromLeBytes bs

def toLeBytes : Nat → Nat → List UInt8
  | 0, _ => []
  | n + 1, v => UInt8.ofNat v :: toLeBytes n (v / 256)

@[simp] theorem length_toLeBytes (n v : Nat) : (toLeBytes n v).length = n := by
  induction n generalizing v with
  | zero => rfl
  | succ n ih => simp [toLeBytes, ih]

theorem fromLeBytes_lt (bs : List UInt8) : fromLeBytes bs < 256 ^ bs.length := by
  induction bs with
  | nil => simp [fromLeBytes]
  | cons b bs ih =>
    have hb := b.toNat_lt
    rw [fromLeBytes, length_cons, pow_succ]
    omega

/-- Writing a word and reading it back loses nothing that fits. -/
theorem fromLeBytes_toLeBytes {n v : Nat} (h : v < 256 ^ n) : fromLeBytes (toLeBytes n v) = v := by
  induction n generalizing v with
  | zero => simp [toLeBytes, fromLeBytes]; omega
  | succ n ih =>
    have hq : v / 256 < 256 ^ n := by
      exact Nat.div_lt_of_lt_mul (by rwa [mul_comm])
    rw [toLeBytes, fromLeBytes, ih hq, UInt8.toNat_ofNat']
    omega

/-! ## Big-endian words -/

def toBeBytes (n v : Nat) : List UInt8 := (toLeBytes n v).reverse

def fromBeBytes (bs : List UInt8) : Nat := fromLeBytes bs.reverse

@[simp] theorem length_toBeBytes (n v : Nat) : (toBeBytes n v).length = n := by simp [toBeBytes]

theorem fromBeBytes_toBeBytes {n v : Nat} (h : v < 256 ^ n) : fromBeBytes (toBeBytes n v) = v := by
  rw [fromBeBytes, toBeBytes, reverse_reverse]
  exact fromLeBytes_toLeBytes h

end Kintane
