import Kintane.Lib.Ring
import Kintane.Net.Line

/-!
# Copying into and out of a ring

`ring_write` and `ring_read` in terms of the slots of a circular list, and what a write does to
the part of a stream that the ring holds.
-/

open List

namespace Kintane

open Kintane.Ring Net

/-- A position less than a turn after a slot. -/
theorem slot_mod {start i : Nat} (hi : i < ring) : (start + i) % ring =
      if start % ring + i < ring then start % ring + i
      else start % ring + i - ring := by
  have hs : start % ring < ring := Nat.mod_lt _ (by decide)
  rw [← Nat.mod_add_mod]
  split
  · exact Nat.mod_eq_of_lt ‹_›
  · rw [Nat.mod_eq_sub_mod (by omega), Nat.mod_eq_of_lt (by omega)]

section

variable {ring data s : List UInt8} (hr : ring.length = Net.ring) (hd : data.length ≤ Net.ring) {head base p : Nat}

include hr hd

theorem length_ringWrite (start : Nat) : (ringWrite ring start data).length = Net.ring := by
  simp only [ringWrite, length_append, length_drop, length_take, hr]
  omega

/-- The slots of the ring after a write: the part of the data that went around the end, what was
there, the data, what was there. -/
theorem getElem?_ringWrite (start q : Nat) : (ringWrite ring start data)[q]? =
      if q < data.length - (Net.ring - start % Net.ring) then
        data[Net.ring - start % Net.ring + q]?
      else if start % Net.ring ≤ q ∧ q < start % Net.ring + data.length ∧ q < Net.ring then
        data[q - start % Net.ring]?
      else ring[q]? := by
  have hs : start % Net.ring < Net.ring := Nat.mod_lt _ (by decide)
  simp only [ringWrite, take_of_length_le hd]
  generalize start % Net.ring = s at hs
  rw [getElem?_append, length_drop]
  split
  · rw [getElem?_drop, if_pos (by omega)]
    congr 1
    omega
  rw [if_neg (by omega), getElem?_drop, append_assoc, getElem?_append, length_take, hr]
  have hq : data.length - min data.length (Net.ring - s) +
      (q - (data.length - min data.length (Net.ring - s))) = q := by omega
  rw [hq]
  split
  · rw [if_neg (by omega), getElem?_take_of_lt (by omega)]
  rw [getElem?_append, length_take, getElem?_drop]
  split
  · rw [if_pos (by omega), getElem?_take_of_lt (by omega)]
    congr 1
    omega
  · rw [if_neg (by omega)]
    congr 1
    omega

/-- One slot after a write, `i` slots on from where the data starts. -/
theorem at?_ringWrite (start : Nat) {i : Nat} (hi : i < Net.ring) :
    at? (ringWrite ring start data) (start + i) =
      if i < data.length then data[i]? else at? ring (start + i) := by
  have hs : start % Net.ring < Net.ring := Nat.mod_lt _ (by decide)
  rw [at?, at?, length_ringWrite hr hd, hr, slot_mod hi, getElem?_ringWrite hr hd]
  generalize Net.ring = r at *
  rcases lt_or_ge i data.length with hid | hid
  · split_ifs <;> first | omega | (congr 1; omega)
  · split_ifs <;> first | omega | rfl

/-- The slots of a stream after a write of some of it, where element `base` has slot `head`. -/
theorem at?_ringWrite_stream (head : Nat) {base p x : Nat} (hp : base ≤ p)
    (hpr : p + data.length ≤ base + Net.ring) (hx : base ≤ x) (hxr : x < base + Net.ring) :
    at? (ringWrite ring (head + (p - base)) data) (head + (x - base)) =
      if p ≤ x ∧ x < p + data.length then data[x - p]? else at? ring (head + (x - base)) := by
  have hturn (l : List UInt8) (hl : l.length = Net.ring) (k : Nat) :
      at? l (k + Net.ring) = at? l k := by
    rw [at?, at?, hl, Nat.add_mod_right]
  rcases lt_or_ge x p with h | h
  · -- The element's slot comes around again after the data.
    have hi : x + Net.ring - p < Net.ring := by omega
    have hslot : head + (p - base) + (x + Net.ring - p) = head + (x - base) + Net.ring := by omega
    have := at?_ringWrite hr hd (head + (p - base)) hi
    rw [hslot, hturn _ (length_ringWrite hr hd _), hturn _ hr] at this
    rw [this, if_neg (by omega), if_neg (by omega)]
  · have hslot : head + (p - base) + (x - p) = head + (x - base) := by omega
    have := at?_ringWrite hr hd (head + (p - base)) (i := x - p) (by omega)
    rw [hslot] at this
    rw [this]
    exact if_congr (by omega) rfl rfl

variable (hp : base ≤ p) (hpr : p + data.length ≤ base + Net.ring) (hs : ∀ i < data.length, data[i]? = s[p + i]?)

include hp hpr hs

/-- What is written is held. -/
theorem holds_written : Ring.Holds (ringWrite ring (head + (p - base)) data) head base s p
    (p + data.length) := by
  intro x h1 h2
  rw [at?_ringWrite_stream hr hd head hp hpr (by omega) (by omega), if_pos ⟨h1, h2⟩, hs _ (by omega)]
  congr 1
  omega

/-- What was held still is. -/
theorem Ring.Holds.written {lo hi : Nat} (h : Ring.Holds ring head base s lo hi) (hlo : base ≤ lo)
    (hhi : hi ≤ base + Net.ring) :
    Ring.Holds (ringWrite ring (head + (p - base)) data) head base s lo hi := by
  intro x h1 h2
  rw [at?_ringWrite_stream hr hd head hp hpr (by omega) (by omega)]
  split
  · rw [hs _ (by omega)]
    congr 1
    omega
  · exact h x h1 h2

end

theorem ringWrite_mod (ring data : List UInt8) (start : Nat) :
    ringWrite ring (start % Net.ring) data = ringWrite ring start data := by
  simp only [ringWrite, Nat.mod_mod]

theorem ringRead_eq {ring : List UInt8} (hr : ring.length = Net.ring) (start : Nat) {n : Nat}
    (hn : n ≤ Net.ring) : ringRead ring start n = window ring start n := by
  have hs : start % Net.ring < Net.ring := Nat.mod_lt _ (by decide)
  have hl : 0 < ring.length := by rw [hr]; decide
  have hw := length_window hl start n
  refine ext_getElem? fun i => ?_
  rcases lt_or_ge i n with hi | hi
  · rw [getElem?_window hl hi, at?, hr, slot_mod (hi.trans_le hn), ringRead,
      min_eq_left hn, getElem?_append, length_take, length_drop, hr]
    generalize Net.ring = r at *
    split_ifs
    · rw [getElem?_take_of_lt (by omega), getElem?_drop]
    · omega
    · omega
    · rw [getElem?_take_of_lt (by omega)]
      congr 1
      omega
  · rw [getElem?_eq_none (hw.trans_le hi), getElem?_eq_none]
    simp only [ringRead, length_append, length_take, length_drop]
    omega

end Kintane
