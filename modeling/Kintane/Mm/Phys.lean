import Kintane.Lib.Bitmap
import Kintane.Mm.Frame

/-!
# The physical frame allocator

Two bit arrays over the frames between the lowest and the highest usable address:
`pool` marks the frames that are memory, `taken` those of them that are handed out.
With one array a hole in the memory map and a free frame would look the same.

The pool starts empty. Usable regions add the frames they wholly contain, and then
every other region takes out each frame it touches at all.
-/

namespace Kintane

open Bitmap

/-- One entry of the boot loader's memory map; `kind` is the wire value. -/
structure MemoryRegion where
  start : Nat
  len : Nat
  kind : Nat
  deriving DecidableEq, Repr

namespace Phys

/-- `MemoryKind::Usable` on the wire. -/
def usable : Nat := 1

def storeBytes (frames : Nat) : Nat := (frames + 7) / 8

/-- The least multiple of `align` at or after `v`; `align` is a power of two. -/
def alignUp (v align : Nat) : Except AllocError Nat :=
  match checkedAdd u64Max v (align - 1) with
  | some n => .ok (n / align * align)
  | none => .error .overflow

def indexOfAddr (A : Arch) (addr : Nat) : Nat := addr / A.pageSize

/-- Frames wholly inside the region, as `[first, last)` frame numbers. -/
def innerFrames (A : Arch) (region : MemoryRegion) : Except AllocError (Option (Nat × Nat)) :=
  match checkedAdd u64Max region.start region.len with
  | none => .error .overflow
  | some end_ =>
    match alignUp region.start A.pageSize with
    | .error e => .error e
    | .ok start =>
      let first := indexOfAddr A start
      let last := indexOfAddr A end_
      .ok (if first < last then some (first, last) else none)

/-- Every frame `[start, start + len)` touches at all, as `[first, last)` frame numbers. -/
def outerFramesRaw (A : Arch) (start len : Nat) : Except AllocError (Option (Nat × Nat)) :=
  if len = 0 then .ok none
  else match checkedAdd u64Max start len with
    | none => .error .overflow
    | some end_ =>
      match alignUp end_ A.pageSize with
      | .error e => .error e
      | .ok end_ =>
        let first := indexOfAddr A start
        let last := indexOfAddr A end_
        .ok (if first < last then some (first, last) else none)

def outerFrames (A : Arch) (region : MemoryRegion) : Except AllocError (Option (Nat × Nat)) :=
  outerFramesRaw A region.start region.len

/-- The bit indices `[first, last)` for frames `[lo, hi)` inside the span `[base, limit)`. -/
def clamp (A : Arch) (lo hi base limit : Nat) : Except AllocError (Nat × Nat) :=
  let lo := max lo base
  let hi := min hi limit
  if hi ≤ lo then .ok (0, 0)
  else match narrow A (lo - base) with
    | .error e => .error e
    | .ok first =>
      match narrow A (hi - base) with
      | .error e => .error e
      | .ok last => .ok (first, last)

/-- The lowest and highest usable frame seen so far, and whether any was. -/
def spanLoop (A : Arch) : List MemoryRegion → (lo hi : Nat) → (found : Bool) →
    Except AllocError (Nat × Nat × Bool)
  | [], lo, hi, found => .ok (lo, hi, found)
  | region :: map, lo, hi, found =>
    if region.kind = usable then
      match innerFrames A region with
      | .error e => .error e
      | .ok none => spanLoop A map lo hi found
      | .ok (some (first, last)) => spanLoop A map (min lo first) (max hi last) true
    else spanLoop A map lo hi found

/-- Lowest usable frame and the number of frames up to the highest usable one. -/
def span (A : Arch) (map : List MemoryRegion) : Except AllocError (Nat × Nat) :=
  match spanLoop A map u64Max 0 false with
  | .error e => .error e
  | .ok (lo, hi, found) =>
    if ¬ found then .error .noUsableMemory
    else match checkedSub hi lo with
      | none => .error .overflow
      | some n =>
        match narrow A n with
        | .error e => .error e
        | .ok frames => if frames = 0 then .error .noUsableMemory else .ok (lo, frames)

def bitmapBytes (A : Arch) (map : List MemoryRegion) : Except AllocError Nat :=
  match span A map with
  | .error e => .error e
  | .ok (_, frames) =>
    match checkedMul A.usizeMax (Phys.storeBytes frames) 2 with
    | some n => .ok n
    | none => .error .overflow

def popcount (A : Arch) : List UInt8 → (n : Nat) → Except AllocError Nat
  | [], n => .ok n
  | b :: m, n =>
    match narrow A (countOnes b) with
    | .error e => .error e
    | .ok set =>
      match checkedAdd A.usizeMax n set with
      | none => .error .overflow
      | some n => popcount A m n

/-- Apply `update` to the bits of every region of one sort, `frames` giving its frames. -/
def markLoop (A : Arch) (frames : MemoryRegion → Except AllocError (Option (Nat × Nat)))
    (update : List UInt8 → Nat → List UInt8) (base limit : Nat) :
    List MemoryRegion → (pool : List UInt8) → Except AllocError (List UInt8)
  | [], pool => .ok pool
  | region :: map, pool =>
    match frames region with
    | .error e => .error e
    | .ok none => markLoop A frames update base limit map pool
    | .ok (some (lo, hi)) =>
      match clamp A lo hi base limit with
      | .error e => .error e
      | .ok (first, last) =>
        markLoop A frames update base limit map
          ((List.range' first (last - first)).foldl update pool)

end Phys

open Phys

/-- A physical frame allocator over a caller-provided bitmap. -/
structure FrameAllocator (A : Arch) where
  pool : List UInt8
  taken : List UInt8
  base : Nat
  span : Nat
  total : Nat
  free : Nat
  hint : Nat
  deriving DecidableEq, Repr

namespace FrameAllocator

variable {A : Arch}

def new (A : Arch) (map : List MemoryRegion) (store : List UInt8) :
    Except AllocError (FrameAllocator A) :=
  match Phys.span A map with
  | .error e => .error e
  | .ok (base, span) =>
    let bytes := Phys.storeBytes span
    match bitmapBytes A map with
    | .error e => .error e
    | .ok needed =>
      if store.length < needed then .error (.storageTooSmall needed)
      else if store.length < bytes then .error (.storageTooSmall needed)
      else if store.length - bytes < bytes then .error (.storageTooSmall needed)
      else
        match checkedAdd u64Max base span with
        | none => .error .overflow
        | some limit =>
          match markLoop A (innerFrames A) setBit base limit (map.filter (·.kind = usable))
              (List.replicate bytes 0) with
          | .error e => .error e
          | .ok pool =>
            match markLoop A (outerFrames A) clearBit base limit
                (map.filter (·.kind ≠ usable)) pool with
            | .error e => .error e
            | .ok pool =>
              match popcount A pool 0 with
              | .error e => .error e
              | .ok total =>
                if total = 0 then .error .noUsableMemory
                else .ok
                  { pool := pool, taken := List.replicate bytes 0, base := base, span := span,
                    total := total, free := total, hint := 0 }

/-! ## Internals -/

def indexOf (a : FrameAllocator A) (frame : Frame A) : Except AllocError Nat :=
  if frame.number < a.base then .error .unmanaged
  else match narrow A (frame.number - a.base) with
    | .error e => .error e
    | .ok idx => if a.span ≤ idx then .error .unmanaged else .ok idx

def frameAt (a : FrameAllocator A) (idx : Nat) : Except AllocError (Frame A) :=
  match checkedAdd u64Max a.base idx with
  | none => .error .overflow
  | some n => Frame.fromNumber A n

def isFree (a : FrameAllocator A) (idx : Nat) : Bool := bit a.pool idx && !bit a.taken idx

def checkFreeable (a : FrameAllocator A) (idx : Nat) : Except AllocError Unit :=
  if ¬ bit a.pool idx then .error .notInPool
  else if ¬ bit a.taken idx then .error .notAllocated
  else .ok ()

def release (a : FrameAllocator A) (idx : Nat) : FrameAllocator A :=
  { a with
    taken := clearBit a.taken idx
    free := satAdd A.usizeMax a.free 1
    hint := min a.hint (idx / 8) }

/-- The first free bit in the bytes listed. -/
def findIn (a : FrameAllocator A) : List Nat → Option Nat
  | [] => none
  | i :: is =>
    a.pool[i]?.bind fun pool =>
      a.taken[i]?.bind fun taken =>
        let available := pool &&& ~~~taken
        if available = 0 then findIn a is
        else
          ((checkedMul A.usizeMax i 8).bind fun n =>
            checkedAdd A.usizeMax n (trailingZeros 8 available.toNat)).bind fun idx =>
              if idx < a.span then some idx else findIn a is

/-- First free bit at or after the hint, wrapping once. -/
def findFree (a : FrameAllocator A) : Option Nat :=
  let bytes := a.pool.length
  if bytes = 0 then none
  else
    let hint := min a.hint (bytes - 1)
    a.findIn (List.range' hint (bytes - hint) ++ List.range hint)

/-! ## Operations -/

def allocFrame (a : FrameAllocator A) : FrameAllocator A × Except AllocError (Frame A) :=
  match a.findFree with
  | none => (a, .error .exhausted)
  | some idx =>
    let a := { a with taken := setBit a.taken idx, free := a.free - 1, hint := idx / 8 }
    (a, a.frameAt idx)

/-- The scan of `alloc_contiguous` from `idx` on: the last index of the first run found. -/
def contiguousLoop (a : FrameAllocator A) (count : Nat) : (left idx run : Nat) → Option Nat
  | 0, _, _ => none
  | left + 1, idx, run =>
    if a.isFree idx then
      let run := satAdd A.usizeMax run 1
      if run = count then some idx else contiguousLoop a count left (idx + 1) run
    else contiguousLoop a count left (idx + 1) 0

def allocContiguous (a : FrameAllocator A) (count : Nat) (hc : count ≤ A.usizeMax) :
    FrameAllocator A × Except AllocError (FrameRange A) :=
  if count = 0 then (a, .error .emptyRequest)
  else if a.free < count then (a, .error .exhausted)
  else match a.contiguousLoop count a.span 0 0 with
    | none => (a, .error .fragmented)
    | some idx =>
      let start := idx - (count - 1)
      let a :=
        { a with
          taken := (List.range' start (idx + 1 - start)).foldl setBit a.taken
          free := a.free - count
          hint := idx / 8 }
      (a, match a.frameAt start with
        | .error e => .error e
        | .ok frame => FrameRange.new frame count hc)

def freeFrame (a : FrameAllocator A) (frame : Frame A) :
    FrameAllocator A × Except AllocError Unit :=
  match a.indexOf frame with
  | .error e => (a, .error e)
  | .ok idx =>
    match a.checkFreeable idx with
    | .error e => (a, .error e)
    | .ok () => (a.release idx, .ok ())

/-- The first complaint about a run of frames to be freed. -/
def checkRun (a : FrameAllocator A) : (count idx : Nat) → Except AllocError Unit
  | 0, _ => .ok ()
  | count + 1, idx =>
    match a.checkFreeable idx with
    | .error e => .error e
    | .ok () => checkRun a count (idx + 1)

def freeContiguous (a : FrameAllocator A) (range : FrameRange A) :
    FrameAllocator A × Except AllocError Unit :=
  match a.indexOf range.start with
  | .error e => (a, .error e)
  | .ok start =>
    match checkedAdd A.usizeMax start range.count with
    | none => (a, .error .overflow)
    | some end_ =>
      if a.span < end_ then (a, .error .unmanaged)
      else match a.checkRun (end_ - start) start with
        | .error e => (a, .error e)
        | .ok () => ((List.range' start (end_ - start)).foldl release a, .ok ())

/-- One frame of a reservation: out of the pool, and out of the counts it was in. -/
def reserveOne (s : FrameAllocator A × Nat) (idx : Nat) : FrameAllocator A × Nat :=
  let (a, removed) := s
  if ¬ bit a.pool idx then (a, removed)
  else
    ({ a with
        pool := clearBit a.pool idx
        total := a.total - 1
        free := if ¬ bit a.taken idx then a.free - 1 else a.free },
      satAdd A.usizeMax removed 1)

/-- Permanently remove every frame `[start, start + len)` touches from the pool. -/
def reserve (a : FrameAllocator A) (start len : Nat) : FrameAllocator A × Except AllocError Nat :=
  match outerFramesRaw A start len with
  | .error e => (a, .error e)
  | .ok none => (a, .ok 0)
  | .ok (some (lo, hi)) =>
    match checkedAdd u64Max a.base a.span with
    | none => (a, .error .overflow)
    | some limit =>
      match clamp A lo hi a.base limit with
      | .error e => (a, .error e)
      | .ok (first, last) =>
        let (a, removed) := (List.range' first (last - first)).foldl reserveOne (a, 0)
        (a, .ok removed)

end FrameAllocator

end Kintane
