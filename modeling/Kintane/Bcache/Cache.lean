import Mathlib.Data.List.FinRange
import Mathlib.Logic.Function.Basic
import Kintane.Lib.Fallible
import Kintane.Lib.Image
import Kintane.Lib.Pick

/-!
# The block cache

A fixed number of slots between a filesystem and a device that moves whole blocks. A block can be
written through, or back: then its slot is dirty, stamped with the current generation, and reaches
the device later. Dirty slots are written in ascending generation, and a slot that is dirty from an
earlier generation is written before it changes again.

The device is the bytes it holds and a pattern of failures, one for each of its calls. A read that
fails may leave anything in the buffer it was given; a write that fails is taken to leave the device
as it was. `trace` records what happened, for the statements; nothing reads it.
-/

namespace Kintane.Bcache

open Image

/-- `block::Error`. -/
inductive Error where
  | outOfRange (lba blocks capacity : Nat)
  | misaligned (bytes blockSize : Nat)
  | device (why : String)
  | timeout
  | noRoom
  | stale
  | pending
  deriving DecidableEq

structure Slot where
  lba : Nat
  valid : Bool
  usedAt : Nat
  dirty : Bool
  generation : Nat
  deriving DecidableEq

def Slot.empty : Slot := ⟨0, false, 0, false, 0⟩

/-- `slots.len()` is `n`; `data` has a block for each slot. -/
structure Cache (n : Nat) where
  slots : Fin n → Slot
  data : Nat → UInt8
  clock : Nat
  generation : Nat

inductive Event where
  /-- `write_at` changed a block in its slot. -/
  | put (lba within : Nat) (bytes : List UInt8)
  /-- The device took a dirty block. -/
  | back (lba : Nat) (bytes : List UInt8)
  /-- The device took a block of `write_block`. -/
  | through (lba : Nat) (bytes : List UInt8)
  /-- The device did not take a block. -/
  | refused (lba : Nat)
  /-- The device was asked for a block. -/
  | fetch (lba : Nat)
  | barrier
  deriving DecidableEq

structure World (n : Nat) where
  cache : Cache n
  disk : Nat → UInt8
  calls : Nat
  trace : List Event

/-- What the device does at each call. -/
structure Faults where
  fails : Nat → Option Error
  /-- What a failed read leaves in its buffer. -/
  junk : Nat → Nat → UInt8

abbrev M (n : Nat) := EStateM Error (World n)

variable {n : Nat}

namespace Cache

def new (n bs : Nat) (data : Nat → UInt8) : Option (Cache n) :=
  if n = 0 ∨ ¬bs.isPowerOfTwo then none else some ⟨fun _ => .empty, data, 0, 1⟩

def setSlot (c : Cache n) (i : Fin n) (s : Slot) : Cache n := { c with slots := Function.update c.slots i s }

def position (c : Cache n) (p : Slot → Bool) : Option (Fin n) := (List.finRange n).find? fun i => p (c.slots i)

def cached (c : Cache n) (lba : Nat) : Option (Fin n) := c.position fun s => s.valid && s.lba = lba

/-- The dirty slot of the lowest generation up to `upto`, lowest block first. -/
def nextOut (c : Cache n) (upto : Nat) : Option (Fin n) :=
  pick (fun i => (c.slots i).valid && (c.slots i).dirty && (c.slots i).generation ≤ upto)
    (fun i j => (c.slots i).generation < (c.slots j).generation ||
      ((c.slots i).generation = (c.slots j).generation && (c.slots i).lba < (c.slots j).lba))
    (List.finRange n)

def oldestClean (c : Cache n) : Option (Fin n) :=
  pick (fun i => !(c.slots i).dirty) (fun i j => (c.slots i).usedAt < (c.slots j).usedAt) (List.finRange n)

def lowest (c : Cache n) : Nat := ((List.finRange n).map fun i => (c.slots i).generation).min?.getD c.generation

def now (c : Cache n) : Nat := (c.clock + 1) % 2 ^ 64

end Cache

namespace World

def setCache (w : World n) (c : Cache n) : World n := { w with cache := c }

def log (w : World n) (e : Event) : World n := { w with trace := w.trace ++ [e] }

end World

variable (F : Faults) (bs : Nat)

/-! ## The device -/

/-- `BlockDevice::read_blocks` of one block, into the cache's bytes at `into`. -/
def deviceRead (lba into : Nat) : M n Unit := do
  let w ← get
  let found := match F.fails w.calls with
    | some _ => F.junk w.calls
    | none => fun i => w.disk (lba * bs + i)
  set (World.log { w with
    calls := w.calls + 1
    cache := { w.cache with data := splice w.cache.data into (slice found 0 bs) } } (.fetch lba))
  match F.fails w.calls with
  | some e => throw e
  | none => return ()

/-- `BlockDevice::write_blocks` of one block, all of it or nothing; `taken` is what the trace says
of it. -/
def deviceWrite (lba : Nat) (bytes : List UInt8) (taken : Event) : M n Unit := do
  let w ← get
  match F.fails w.calls with
  | some e =>
    set (World.log { w with calls := w.calls + 1 } (.refused lba))
    throw e
  | none => set (World.log { w with calls := w.calls + 1, disk := splice w.disk (lba * bs) bytes } taken)

def deviceFlush : M n Unit := do
  let w ← get
  set { w with calls := w.calls + 1 }
  match F.fails w.calls with
  | some e => throw e
  | none => return ()

/-! ## The cache -/

def barrier : M n Unit := do
  let w ← get
  let c := w.cache
  if (List.finRange n).any fun i =>
      (c.slots i).valid && (c.slots i).dirty && (c.slots i).generation = c.generation then
    set ((w.setCache { c with generation := (c.generation + 1) % 2 ^ 64 }).log .barrier)
  else set (w.log .barrier)

/-- Write every dirty slot of generation `upto` or earlier, oldest generation first. A round cleans
a slot, so there are at most `n` that write. -/
def writeRounds (upto : Nat) : Nat → M n Unit
  | 0 => return ()
  | rounds + 1 => do
    let w ← get
    match w.cache.nextOut upto with
    | none => return ()
    | some i => do
      let s := w.cache.slots i
      let bytes := block bs w.cache.data i
      deviceWrite F bs s.lba bytes (.back s.lba bytes)
      modify fun w => w.setCache (w.cache.setSlot i { w.cache.slots i with dirty := false })
      writeRounds upto rounds

def writeOut (upto : Nat) : M n Unit := writeRounds F bs upto n

def victim : M n (Fin n) := do
  let w ← get
  match w.cache.position fun s => !s.valid with
  | some i => return i
  | none =>
    match w.cache.oldestClean with
    | some i => return i
    | none => do
      writeOut F bs w.cache.lowest
      let w ← get
      match w.cache.position fun s => !s.dirty with
      | some i => return i
      | none => throw (.device "a write-out left every slot dirty")

def take : M n (Fin n) := do
  let i ← victim F bs
  modify fun w => w.setCache (w.cache.setSlot i { w.cache.slots i with valid := false })
  return i

def slotFor (lba : Nat) : M n (Fin n) := do
  let w ← get
  match w.cache.cached lba with
  | some i => do
    let now := w.cache.now
    set (w.setCache ({ w.cache with clock := now }.setSlot i { w.cache.slots i with usedAt := now }))
    return i
  | none => do
    let i ← take F bs
    deviceRead F bs lba (i * bs)
    modify fun w =>
      let now := w.cache.now
      w.setCache ({ w.cache with clock := now }.setSlot i ⟨lba, true, now, false, 0⟩)
    return i

/-- The rest of a read of `len` bytes, of which `got` are there. A round reads a byte at least. -/
def readRounds (offset len : Nat) : Nat → List UInt8 → M n (List UInt8)
  | 0, got => return got
  | rounds + 1, got =>
    if got.length < len then do
      let pos := offset + got.length
      if 2 ^ 64 ≤ pos then throw (.device "a read offset past the end of the address space")
      else do
        let within := pos % bs
        let i ← slotFor F bs (pos / bs)
        let w ← get
        readRounds offset len rounds
          (got ++ slice w.cache.data (i * bs + within) (min (bs - within) (len - got.length)))
    else return got

def readAt (offset len : Nat) : M n (List UInt8) := readRounds F bs offset len len []

/-- Read whole blocks; the product of the block's number and its size wraps. -/
def readBlocks (lba len : Nat) : M n (List UInt8) :=
  if len % bs ≠ 0 then throw (.misaligned len bs)
  else readAt F bs (lba * bs % 2 ^ 64) len

/-- The slot a write of `take` bytes of a block changes: one it covers whole is not read. -/
def writeSlot (lba taken : Nat) : M n (Fin n) := do
  let w ← get
  match w.cache.cached lba with
  | some i => return i
  | none =>
    if taken = bs then do
      let i ← take F bs
      modify fun w => w.setCache (w.cache.setSlot i ⟨lba, true, 0, false, 0⟩)
      return i
    else slotFor F bs lba

/-- Rule 2: bytes from an earlier generation reach the device before a slot changes. -/
def ruleTwo (i : Fin n) : M n Unit := do
  let w ← get
  let s := w.cache.slots i
  if s.dirty && s.generation < w.cache.generation then writeOut F bs s.generation else return ()

def putBytes (i : Fin n) (lba within : Nat) (bytes : List UInt8) : M n Unit :=
  modify fun w =>
    let c := { w.cache with
      data := splice w.cache.data (i * bs + within) bytes
      clock := w.cache.now }
    (w.setCache (c.setSlot i { c.slots i with
      usedAt := c.clock, dirty := true, generation := c.generation })).log (.put lba within bytes)

/-- The rest of a write, `done` bytes of which are done. A round writes a byte at least. -/
def writeFrom (offset : Nat) (bytes : List UInt8) : Nat → Nat → M n Unit
  | 0, _ => return ()
  | rounds + 1, done =>
    if done < bytes.length then do
      let pos := offset + done
      if 2 ^ 64 ≤ pos then throw (.device "a write offset past the end of the address space")
      else do
        let lba := pos / bs
        let within := pos % bs
        let taken := min (bs - within) (bytes.length - done)
        let i ← writeSlot F bs lba taken
        ruleTwo F bs i
        putBytes bs i lba within ((bytes.drop done).take taken)
        writeFrom offset bytes rounds (done + taken)
    else return ()

def writeAt (offset : Nat) (bytes : List UInt8) : M n Unit := writeFrom F bs offset bytes bytes.length 0

/-- The slot for a block that the device has just taken. -/
def throughSlot (lba : Nat) : M n (Fin n) := do
  let w ← get
  match w.cache.cached lba with
  | some i => return i
  | none => take F bs

def writeBlock (lba : Nat) (bytes : List UInt8) : M n Unit :=
  if bytes.length ≠ bs then throw (.misaligned bytes.length bs)
  else do
    writeOut F bs (2 ^ 64 - 1)
    deviceWrite F bs lba bytes (.through lba bytes)
    let i ← throughSlot F bs lba
    modify fun w =>
      let now := w.cache.now
      w.setCache ({ w.cache with data := splice w.cache.data (i * bs) bytes, clock := now }.setSlot i
        ⟨lba, true, now, false, 0⟩)

def invalidate (lba : Nat) : M n Unit :=
  modify fun w => w.setCache { w.cache with slots := fun i =>
    let s := w.cache.slots i
    if s.valid && s.lba = lba && !s.dirty then { s with valid := false } else s }

def invalidateAll : M n Unit :=
  modify fun w => w.setCache { w.cache with slots := fun i =>
    let s := w.cache.slots i
    if !s.dirty then { s with valid := false } else s }

def sync : M n Unit := do
  writeOut F bs (2 ^ 64 - 1)
  barrier
  deviceFlush F

end Kintane.Bcache
