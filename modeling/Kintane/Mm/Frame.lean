import Kintane.Hal

/-!
# The unit of physical allocation

A frame is a page-sized, page-aligned block of physical memory, named by its byte
address and counted by its number. A frame range is a start and a count.

`FrameRange.new` checks that the *index* one past the run fits in 64 bits. That is
weaker than every frame of the run having a representable byte address:
`InAddressSpace` is the stronger statement, and the two part ways for a run that
starts below the top of physical memory and counts past it.
-/

namespace Kintane

inductive AllocError where
  | exhausted
  | fragmented
  | emptyRequest
  | storageTooSmall (needed : Nat)
  | noUsableMemory
  | overflow
  | unmanaged
  | notInPool
  | notAllocated
  | misaligned
  deriving DecidableEq, Repr

/-- Narrow a `u64` to a `usize`, which genuinely fails on a 32-bit target. -/
def narrow (A : Arch) (v : Nat) : Except AllocError Nat :=
  if v ≤ A.usizeMax then .ok v else .error .overflow

theorem narrow_eq_ok {A : Arch} {v n : Nat} : narrow A v = .ok n ↔ v ≤ A.usizeMax ∧ v = n := by
  unfold narrow
  split <;> simp [*]

/-- One physical page frame: an aligned 64-bit address. -/
structure Frame (A : Arch) where
  start : Nat
  aligned : A.pageSize ∣ start
  start_lt : start < 2 ^ 64
  deriving DecidableEq

variable {A : Arch}

namespace Frame

def number (f : Frame A) : Nat := f.start / A.pageSize

def fromNumber (A : Arch) (n : Nat) : Except AllocError (Frame A) :=
  if h : n * A.pageSize < 2 ^ 64 then .ok ⟨n * A.pageSize, Nat.dvd_mul_left _ _, h⟩
  else .error .overflow

/-- The frame containing `addr`, rounding down. -/
def containing (A : Arch) (addr : Nat) (h : addr < 2 ^ 64) : Frame A :=
  ⟨addr / A.pageSize * A.pageSize, Nat.dvd_mul_left _ _,
    (Nat.div_mul_le_self _ _).trans_lt h⟩

theorem start_eq (f : Frame A) : f.start = f.number * A.pageSize :=
  (Nat.div_mul_cancel f.aligned).symm

theorem ext_number {f g : Frame A} (h : f.number = g.number) : f = g := by
  have h1 := f.start_eq
  have h2 := g.start_eq
  cases f; cases g
  simp only [mk.injEq] at *
  rw [h1, h2, h]

theorem fromNumber_ok {n : Nat} (h : n * A.pageSize < 2 ^ 64) :
    ∃ f : Frame A, fromNumber A n = .ok f ∧ f.number = n := by
  refine ⟨_, dif_pos h, ?_⟩
  exact Nat.mul_div_cancel _ A.pageSize_pos

end Frame

/-- A run of adjacent frames: never empty, its end index representable. -/
structure FrameRange (A : Arch) where
  start : Frame A
  count : Nat
  count_pos : 0 < count
  count_le : count ≤ A.usizeMax
  fits : start.number + count ≤ u64Max
  deriving DecidableEq

namespace FrameRange

/-- A range of `count` frames beginning at `start`; `count` arrives as a `usize`. -/
def new (start : Frame A) (count : Nat) (hc : count ≤ A.usizeMax) :
    Except AllocError (FrameRange A) :=
  if h0 : count = 0 then .error .emptyRequest
  else if h : start.number + count ≤ u64Max then
    .ok ⟨start, count, pos_of_ne_zero h0, hc, h⟩
  else .error .overflow

def lenBytes (r : FrameRange A) : Except AllocError Nat :=
  match checkedMul u64Max r.count A.pageSize with
  | some n => .ok n
  | none => .error .overflow

/-- How many bytes the run is, were there no limit to a byte count. -/
def bytes (r : FrameRange A) : Nat := r.count * A.pageSize

/-- The two runs share no frame. -/
def Apart (r s : FrameRange A) : Prop :=
  r.start.number + r.count ≤ s.start.number ∨ s.start.number + s.count ≤ r.start.number

instance (r s : FrameRange A) : Decidable (r.Apart s) := inferInstanceAs (Decidable (_ ∨ _))

/-- Every frame of the run has a 64-bit byte address. -/
def InAddressSpace (r : FrameRange A) : Prop :=
  (r.start.number + r.count - 1) * A.pageSize < 2 ^ 64

theorem bytes_pos (r : FrameRange A) : 0 < r.bytes := Nat.mul_pos r.count_pos A.pageSize_pos

theorem lenBytes_ok {r : FrameRange A} {n : Nat} (h : r.lenBytes = .ok n) : n = r.bytes := by
  unfold lenBytes checkedMul at h
  by_cases hm : r.count * A.pageSize ≤ u64Max
  · rw [if_pos hm] at h
    exact (Except.ok.inj h).symm
  · rw [if_neg hm] at h
    cases h

theorem new_ok {start : Frame A} {count : Nat} (hc : count ≤ A.usizeMax) (h0 : 0 < count)
    (h : start.number + count ≤ u64Max) :
    new start count hc = .ok ⟨start, count, h0, hc, h⟩ := by
  unfold new
  rw [dif_neg (pos_iff_ne_zero.mp h0), dif_pos h]

theorem ext_of {r s : FrameRange A} (h1 : r.start.number = s.start.number)
    (h2 : r.count = s.count) : r = s := by
  have := Frame.ext_number h1
  cases r; cases s
  simp only [mk.injEq] at *
  exact ⟨this, h2⟩

/-- The frames inside a run that stays in the address space are all real frames. -/
theorem InAddressSpace.number_mul_lt {r : FrameRange A} (h : r.InAddressSpace) {i : Nat}
    (hi : i < r.count) : (r.start.number + i) * A.pageSize < 2 ^ 64 :=
  (Nat.mul_le_mul_right _ (by omega)).trans_lt h

end FrameRange

end Kintane
