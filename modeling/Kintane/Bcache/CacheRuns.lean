import Mathlib.Data.Nat.Bits
import Kintane.Bcache.CacheOps

/-!
# The cache is a transparent, ordered view of its device

Over every run of the operations, whatever calls of the device fail: a read returns the view, a
write changes it by its own bytes, a sync leaves the device equal to it, and the blocks the device
has taken are in the order of the barriers.

Two products and sums wrap. `read_blocks` multiplies the number of a block by the block size, and
reads another block when the product does not fit in 64 bits; `barrier` counts generations, and
after 2^64 of them old blocks would look new. Runs that do neither are the ones the theorem is of.
-/

namespace Kintane.Bcache

open Image Fallible

variable {n : Nat} {bs : Nat} {disk0 : Nat → UInt8} {F : Faults} {w : World n}

inductive Op where
  | readAt (offset len : Nat)
  | readBlocks (lba len : Nat)
  | writeAt (offset : Nat) (bytes : List UInt8)
  | writeBlock (lba : Nat) (bytes : List UInt8)
  | barrier
  | invalidate (lba : Nat)
  | invalidateAll
  | sync
  deriving DecidableEq

/-- An operation that returns no bytes. -/
def silent (m : M n Unit) : M n (List UInt8) := do
  m
  return []

namespace Op

def run (F : Faults) (bs : Nat) : Op → M n (List UInt8)
  | readAt offset len => Bcache.readAt F bs offset len
  | readBlocks lba len => Bcache.readBlocks F bs lba len
  | writeAt offset bytes => silent (Bcache.writeAt F bs offset bytes)
  | writeBlock lba bytes => silent (Bcache.writeBlock F bs lba bytes)
  | barrier => silent Bcache.barrier
  | invalidate lba => silent (Bcache.invalidate lba)
  | invalidateAll => silent Bcache.invalidateAll
  | sync => silent (Bcache.sync F bs)

/-- Nothing wraps. -/
def Fits (bs : Nat) (w : World n) : Op → Prop
  | readBlocks lba _ => lba * bs < 2 ^ 64
  | barrier => (∃ i, (w.cache.slots i).dirty = true ∧ (w.cache.slots i).generation = w.cache.generation) →
      w.cache.generation + 1 < 2 ^ 64
  | _ => True

/-- What an operation that succeeds has to return, and to leave, from a view. A write that fails has
written the bytes before those it failed at; another operation that fails leaves the view alone. -/
def Returns (bs : Nat) (disk0 v : Nat → UInt8) : Op → List UInt8 → World n → Prop
  | readAt offset len, r, w' => r = slice v offset len ∧ view bs disk0 w'.trace = v
  | readBlocks lba len, r, w' => r = slice v (lba * bs) len ∧ view bs disk0 w'.trace = v
  | writeAt offset bytes, _, w' => view bs disk0 w'.trace = splice v offset bytes
  | writeBlock lba bytes, _, w' => view bs disk0 w'.trace = splice v (lba * bs) bytes
  | sync, _, w' => (∀ i, (w'.cache.slots i).dirty = false) ∧ w'.disk = v ∧ view bs disk0 w'.trace = v
  | _, _, w' => view bs disk0 w'.trace = v

/-- What an operation that fails may leave. -/
def Fails (bs : Nat) (disk0 v : Nat → UInt8) : Op → World n → Prop
  | writeAt offset bytes, w' => ∃ m ≤ bytes.length, view bs disk0 w'.trace = splice v offset (bytes.take m)
  | _, w' => view bs disk0 w'.trace = v

/-- The operation does what it should from a state. -/
def Right (F : Faults) (bs : Nat) (disk0 : Nat → UInt8) (op : Op) (w : World n) : Prop :=
  wp (op.run F bs) (op.Returns bs disk0 (view bs disk0 w.trace))
    (fun _ w' => op.Fails bs disk0 (view bs disk0 w.trace) w') w

end Op

def stateOf {ε σ α : Type} : EStateM.Result ε σ α → σ
  | .ok _ s => s
  | .error _ s => s

/-- The states of the runs over a device that holds `disk0`, in which every operation is allowed. -/
inductive Reaches (F : Faults) (bs : Nat) (disk0 : Nat → UInt8) (Allowed : World n → Op → Prop) :
    World n → Prop where
  | new {data : Nat → UInt8} {c : Cache n} : Cache.new n bs data = some c → Reaches F bs disk0 Allowed ⟨c, disk0, 0, []⟩
  | step {w : World n} (op : Op) : Reaches F bs disk0 Allowed w → Allowed w op →
    Reaches F bs disk0 Allowed (stateOf (op.run F bs w))

/-! ## Each operation -/

theorem wp_silent {m : M n Unit} {Q : List UInt8 → World n → Prop} {E : Error → World n → Prop}
    (h : wp m (fun _ w' => Q [] w') E w) : wp (silent m) Q E w := wp_bind.mpr h

/-- What an operation leaves, and does. -/
theorem wp_run {v : Nat → UInt8} {g : Nat} (hn : 0 < n) (hbs : 0 < bs) (h : Shows bs disk0 v g none w)
    (op : Op) (hfits : op.Fits bs w) :
    wp (op.run F bs)
      (fun r w' => (∃ v' g', Shows bs disk0 v' g' none w') ∧ op.Returns bs disk0 v r w')
      (fun _ w' => (∃ v' g', Shows bs disk0 v' g' none w') ∧ op.Fails bs disk0 v w') w := by
  have hkeep : ∀ {w' : World n}, Shows bs disk0 v g none w' →
      (∃ v' g', Shows bs disk0 v' g' none w') ∧ view bs disk0 w'.trace = v := fun h' => ⟨⟨v, g, h'⟩, h'.view⟩
  have hread : ∀ offset len, wp (readAt F bs offset len)
      (fun r w' => (∃ v' g', Shows bs disk0 v' g' none w') ∧ r = slice v offset len ∧ view bs disk0 w'.trace = v)
      (fun _ w' => (∃ v' g', Shows bs disk0 v' g' none w') ∧ view bs disk0 w'.trace = v) w := by
    intro offset len
    exact wp_mono (wp_readAt hbs h) (fun r w' ⟨h', hr⟩ => ⟨⟨v, g, h'⟩, hr, h'.view⟩) fun _ _ => hkeep
  cases op with
  | readAt offset len => exact hread offset len
  | readBlocks lba len =>
    show wp (readBlocks F bs lba len) _ _ w
    unfold readBlocks
    split
    · exact hkeep h
    · have := hread (lba * bs % 2 ^ 64) len
      rwa [Nat.mod_eq_of_lt hfits] at this ⊢
  | writeAt offset bytes =>
    refine wp_silent (wp_mono (wp_writeAt hbs h) (fun _ w' h' => ⟨⟨_, g, h'⟩, h'.view⟩) ?_)
    rintro _ w' ⟨m, hm, h'⟩
    exact ⟨⟨_, g, h'⟩, m, hm, h'.view⟩
  | writeBlock lba bytes =>
    exact wp_silent (wp_mono (wp_writeBlock hn h) (fun _ w' h' => ⟨⟨_, g, h'⟩, h'.view⟩) fun _ _ => hkeep)
  | barrier =>
    refine wp_silent (wp_mono (wp_barrier h ?_) (fun _ w' ⟨g', h', _⟩ => ⟨⟨v, g', h'⟩, h'.view⟩)
      fun _ _ => False.elim)
    rw [← h.gen]
    exact hfits
  | invalidate lba =>
    refine wp_silent (hkeep (h.invalidate (p := fun s => s.valid && s.lba = lba && !s.dirty) fun s hs => ?_))
    simp only [Bool.and_eq_true, Bool.not_eq_true'] at hs
    exact hs.2
  | invalidateAll =>
    exact wp_silent (hkeep (h.invalidate (p := fun s => !s.dirty) fun s hs => by simpa using hs))
  | sync =>
    refine wp_silent (wp_mono (wp_sync hbs h) ?_ fun _ w' ⟨g', h'⟩ => ⟨⟨v, g', h'⟩, h'.view⟩)
    rintro _ w' ⟨⟨g', h'⟩, hclean, hdisk⟩
    exact ⟨⟨v, g', h'⟩, hclean, hdisk, h'.view⟩

/-! ## Runs -/

theorem shows_new {data : Nat → UInt8} {c : Cache n} (h : Cache.new n bs data = some c) :
    0 < n ∧ 0 < bs ∧ Shows bs disk0 disk0 1 none (⟨c, disk0, 0, []⟩ : World n) := by
  unfold Cache.new at h
  split at h
  · cases h
  rename_i hnot
  cases h
  obtain ⟨hn, hpow⟩ := not_or.mp hnot
  have hbs : 0 < bs := by
    obtain ⟨k, rfl⟩ := Decidable.not_not.mp hpow
    exact Nat.two_pow_pos k
  refine ⟨Nat.pos_of_ne_zero hn, hbs, ?_, rfl, rfl⟩
  exact {
    held := nofun
    clean := fun _ _ => rfl
    once := nofun
    valid := nofun
    bound := Nat.one_lt_two_pow (by decide)
    log := {
      upto := nofun
      settled := fun b ⟨_, _, hb⟩ => by cases hb
      steps := fun t1 t2 ht => by cases t1 <;> cases ht
      ordered := fun t1 t2 t3 b bytes ht => by cases t1 <;> cases ht } }

theorem Reaches.shows (h : Reaches F bs disk0 (fun w op => op.Fits bs w) w) :
    0 < n ∧ 0 < bs ∧ ∃ v g, Shows bs disk0 v g none w := by
  induction h with
  | new hc =>
    obtain ⟨hn, hbs, h⟩ := shows_new hc
    exact ⟨hn, hbs, _, _, h⟩
  | @step w op _ hfits ih =>
    obtain ⟨hn, hbs, v, g, h⟩ := ih
    have hrun := wp_run (F := F) hn hbs h op hfits
    refine ⟨hn, hbs, ?_⟩
    cases hr : op.run F bs w with
    | ok r w' => exact (wp_ok hrun hr).1
    | error e w' => exact (wp_error hrun hr).1

/-- In every run in which nothing wraps the device's writes are in order, and the next operation
does what it should. -/
theorem cache_transparent (h : Reaches F bs disk0 (fun w op => op.Fits bs w) w) :
    Ordered bs disk0 w.trace ∧ ∀ op : Op, op.Fits bs w → op.Right F bs disk0 w := by
  obtain ⟨hn, hbs, v, g, hs⟩ := h.shows
  refine ⟨hs.inv.log.ordered, fun op hfits => ?_⟩
  rw [Op.Right, hs.view]
  exact wp_mono (wp_run hn hbs hs op hfits) (fun _ _ h' => h'.2) fun _ _ h' => h'.2

def reliable : Faults := ⟨fun _ => none, fun _ _ => 0⟩

/-- One slot of two bytes, over a device that has ones in its first block and zeros elsewhere. -/
def firstOnes (a : Nat) : UInt8 := if a < 2 then 1 else 0

def small : World 1 := ⟨⟨fun _ => .empty, fun _ => 0, 0, 1⟩, firstOnes, 0, []⟩

theorem reaches_small {Allowed : World 1 → Op → Prop} : Reaches reliable 2 firstOnes Allowed small :=
  .new (show Cache.new 1 2 (fun _ => 0) = some ⟨fun _ => .empty, fun _ => 0, 0, 1⟩ from if_neg (by simpa using ⟨1, rfl⟩))

/-- Three bytes are written across two blocks, of which the slot has room for one. -/
def smallWritten : World 1 := stateOf ((Op.writeAt 1 [7, 8, 9]).run reliable 2 small)

theorem cache_transparent_small : smallWritten.trace = [.fetch 0, .put 0 1 [7], .back 0 [1, 7], .put 1 0 [8, 9]] ∧
    Ordered 2 firstOnes smallWritten.trace ∧ (Op.readAt 0 4).Right reliable 2 firstOnes smallWritten := by
  have h : Reaches reliable 2 firstOnes (fun w op => op.Fits 2 w) smallWritten :=
    reaches_small.step (.writeAt 1 [7, 8, 9]) trivial
  obtain ⟨hordered, hright⟩ := cache_transparent h
  exact ⟨by decide +kernel, hordered, hright (.readAt 0 4) trivial⟩

/-- The bytes of block 2^63 are at 2^64; the product is 0, and the first block is returned. -/
theorem read_blocks_wraps : ¬∀ w : World 1, Reaches reliable 2 firstOnes (fun _ _ => True) w →
      Ordered 2 firstOnes w.trace ∧ ∀ op : Op, op.Right reliable 2 firstOnes w := by
  intro hall
  have hright := (hall small reaches_small).2 (.readBlocks (2 ^ 63) 2)
  have hread : readBlocks reliable 2 (2 ^ 63) 2 small =
      .ok [1, 1] (stateOf (readBlocks reliable 2 (2 ^ 63) 2 small)) := by rfl
  have hwrong : [1, 1] = slice firstOnes (2 ^ 63 * 2) 2 := (wp_ok hright hread).1
  revert hwrong
  decide +kernel

end Kintane.Bcache
