import Kintane.Kalloc.Request
import Kintane.Mm.DirectMap

/-!
# The bump arena

A cursor running over the newest of up to sixteen regions, each a run of frames seen
through the direct map. Memory is handed out by moving the cursor and comes back only
if it was the last block handed out. A region left behind is never returned to.

Only the first `region_count` entries of the source's region table are ever read, so
the table is a list here and the count its length.
-/

namespace Kintane

def maxRegions : Nat := 16

def minGrowBytes : Nat := 16 * 1024

/-- One contiguous run of frames the arena was built from. -/
structure Region where
  virt : Nat
  bytes : Nat
  phys : Nat
  frames : Nat
  deriving DecidableEq, Repr

def Region.contains (A : Arch) (r : Region) (addr len : Nat) : Bool :=
  match checkedSub addr r.virt with
  | none => false
  | some off =>
    match checkedAdd A.usizeMax off len with
    | some end_ => end_ ≤ r.bytes
    | none => false

structure BumpStats where
  arenaBytes : Nat
  inUse : Nat
  highWater : Nat
  wasted : Nat
  headroom : Nat
  framesHeld : Nat
  regions : Nat
  live : Nat
  allocations : Nat
  frees : Nat
  reclaimed : Nat
  deriving DecidableEq, Repr

structure Bump (A : Arch) where
  map : DirectMap A
  cursor : Nat
  end_ : Nat
  regions : List Region
  /-- The most recent allocation, for last-in-first-out reclaim. -/
  last : Option (Nat × Nat)
  arenaBytes : Nat
  framesHeld : Nat
  inUse : Nat
  highWater : Nat
  wasted : Nat
  live : Nat
  allocations : Nat
  frees : Nat
  reclaimed : Nat

namespace Bump

variable {A : Arch} {σ : Type} [FrameSource A σ]

def new (map : DirectMap A) : Bump A where
  map := map
  cursor := 0
  end_ := 0
  regions := []
  last := none
  arenaBytes := 0
  framesHeld := 0
  inUse := 0
  highWater := 0
  wasted := 0
  live := 0
  allocations := 0
  frees := 0
  reclaimed := 0

def stats (b : Bump A) : BumpStats where
  arenaBytes := b.arenaBytes
  inUse := b.inUse
  highWater := b.highWater
  wasted := b.wasted
  headroom := (checkedSub b.end_ b.cursor).getD 0
  framesHeld := b.framesHeld
  regions := b.regions.length
  live := b.live
  allocations := b.allocations
  frees := b.frees
  reclaimed := b.reclaimed

/-- Move the cursor past `size` bytes aligned to `align`, and say where the block starts. -/
def carve (b : Bump A) (size align : Nat) : Except AllocError (Nat × Bump A) :=
  match checkedAlignUp A.usizeMax b.cursor align with
  | none => .error .overflow
  | some start =>
    match checkedAdd A.usizeMax start size with
    | none => .error .overflow
    | some next =>
      if b.end_ < next then .error .exhausted
      else
        let slack := (checkedSub start b.cursor).getD 0
        .ok (start, { b with wasted := satAdd A.usizeMax b.wasted slack, cursor := next })

def addFrames (b : Bump A) (range : FrameRange A) : Except AllocError (Bump A) := do
  if maxRegions ≤ b.regions.length then throw .exhausted
  let phys := range.start.start
  let bytes ← narrow A (← range.lenBytes)
  if bytes = 0 then throw .emptyRequest
  let virt ← b.map.toVirt phys
  -- both ends, so that a run leaving the window is refused here
  let lastByte ← match checkedAdd u64Max phys (bytes - 1) with
    | none => throw .overflow
    | some n => pure n
  let _ ← b.map.toVirt lastByte
  let regionEnd ← match checkedAdd A.usizeMax virt bytes with
    | none => throw .overflow
    | some n => pure n
  let tail := (checkedSub b.end_ b.cursor).getD 0
  return { b with
    regions := b.regions ++ [⟨virt, bytes, phys, range.count⟩]
    wasted := satAdd A.usizeMax b.wasted tail
    cursor := virt
    end_ := regionEnd
    last := none
    arenaBytes := satAdd A.usizeMax b.arenaBytes bytes
    framesHeld := satAdd A.usizeMax b.framesHeld range.count }

/-- Ask for `want` frames, and for just `need` if there is not that much. -/
def takeRun (src : σ) (want need : Nat) : σ × Except AllocError (FrameRange A) :=
  match FrameSource.take src want with
  | (src, .ok r) => (src, .ok r)
  | (src, .error e) =>
    if need < want then FrameSource.take src need else (src, .error e)

/-- Take at least `minBytes` more of arena from `src`, and report the frames taken. -/
def grow (b : Bump A) (src : σ) (minBytes : Nat) : Bump A × σ × Except AllocError Nat :=
  if minBytes = 0 then (b, src, .error .emptyRequest)
  else if maxRegions ≤ b.regions.length then (b, src, .error .exhausted)
  else
    let page := A.pageSize
    if page = 0 then (b, src, .error .overflow)
    else
      let need := max (divCeil minBytes page) 1
      let want := max need (divCeil minGrowBytes page)
      match takeRun (A := A) src want need with
      | (src, .error e) => (b, src, .error e)
      | (src, .ok range) =>
        match b.addFrames range with
        | .error e => (b, src, .error e)
        | .ok b => (b, src, .ok range.count)

/-- Carve, taking more frames once if the region has no room. -/
def carveOrGrow (b : Bump A) (src : σ) (size align : Nat) : Bump A × σ × Except AllocError Nat :=
  match b.carve size align with
  | .ok (start, b) => (b, src, .ok start)
  | .error .exhausted =>
    match checkedAdd A.usizeMax size align with
    | none => (b, src, .error .overflow)
    | some want =>
      match b.grow src want with
      | (b, src, .error e) => (b, src, .error e)
      | (b, src, .ok _) =>
        match b.carve size align with
        | .error e => (b, src, .error e)
        | .ok (start, b) => (b, src, .ok start)
  | .error e => (b, src, .error e)

/-- Count a block of `size` bytes at `start` as handed out. -/
def handOut (b : Bump A) (start size : Nat) : Bump A :=
  let inUse := satAdd A.usizeMax b.inUse size
  { b with
    inUse := inUse
    highWater := max b.highWater inUse
    live := satAdd A.usizeMax b.live 1
    allocations := satAdd u64Max b.allocations 1
    last := some (start, size) }

def tryAllocIn (b : Bump A) (layout : Layout A) (src : σ) : Bump A × σ × Except AllocError Nat :=
  match layout.check with
  | .error e => (b, src, .error e)
  | .ok (size, align) =>
    match b.carveOrGrow src size align with
    | (b, src, .error e) => (b, src, .error e)
    | (b, src, .ok start) =>
      match b.map.ptrAt start with
      | .error e => (b, src, .error e)
      | .ok ptr => (b.handOut start size, src, .ok ptr)

def owns (b : Bump A) (addr len : Nat) : Bool := b.regions.any fun r => r.contains A addr len

/-- Give a block back; the cursor rolls back if it was the last one handed out. -/
def dealloc (b : Bump A) (ptr : Nat) (layout : Layout A) : Except AllocError (Bump A) :=
  match layout.check with
  | .error e => .error e
  | .ok (size, _) =>
    if ¬ b.owns ptr size then .error .unmanaged
    else
      let b : Bump A :=
        { b with
          inUse := b.inUse - size
          live := b.live - 1
          frees := satAdd u64Max b.frees 1 }
      if b.last = some (ptr, size) then
        .ok { b with cursor := ptr, last := none, reclaimed := satAdd u64Max b.reclaimed 1 }
      else .ok b

end Bump

end Kintane
