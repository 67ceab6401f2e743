import Kintane.Kalloc.Buddy
import Kintane.Kalloc.Bump
import Kintane.Kalloc.Slab

/-!
# The kernel heap

Three allocators and a routing rule. A request some size class covers goes to the slab,
whose blocks come from the arena; if the slab can grow no further it goes to the arena
at its class's size. A larger one goes to the attached buddy allocator if there is one
and its alignment is at most a page, and to the arena behind it otherwise. `dealloc`
finds the way back from the pointer and the layout alone.

What the heap writes into the memory it hands out (zeroes, poison) is not modelled: it
keeps no records there.
-/

namespace Kintane

/-- What the build decides: whether `Buddy` checks itself, whether faults are injected. -/
structure Build where
  checked : Bool
  faultInject : Bool
  deriving DecidableEq

/-- Why `detachPages` refused. -/
inductive Detach where
  | notAttached
  | inUse (liveBlocks : Nat)
  deriving DecidableEq, Repr

structure Heap (A : Arch) where
  map : DirectMap A
  bump : Bump A
  slab : Slab
  /-- The large-block allocator, once a run of pages has been attached. -/
  pages : Option (Buddy A)
  inject : Injector
  /-- Trips from injectors this heap has since replaced. -/
  injectedBefore : Nat
  allocations : Nat
  frees : Nat
  failures : Nat
  constrained : Nat
  slabOverflow : Nat
  pagesOverflow : Nat

/-- A snapshot of the buddy allocator; all zero when no pages are attached. -/
structure BuddyStats where
  pages : Nat
  freePages : Nat
  freeBlocks : Vector Nat orders
  liveBlocks : Nat
  pageSize : Nat
  splits : Nat
  merges : Nat
  deriving DecidableEq

structure HeapStats where
  bump : BumpStats
  slab : Slab.Stats
  pages : BuddyStats
  bytesReserved : Nat
  bytesInUse : Nat
  allocations : Nat
  frees : Nat
  failures : Nat
  constrained : Nat
  slabOverflow : Nat
  pagesOverflow : Nat
  injected : Nat
  deriving DecidableEq

def Buddy.stats {A : Arch} (b : Buddy A) : BuddyStats where
  pages := b.pages
  freePages := b.freePages
  freeBlocks := b.freeBlocks
  liveBlocks := b.liveBlocks
  pageSize := A.pageSize
  splits := b.splits
  merges := b.merges

def BuddyStats.zero : BuddyStats := ⟨0, 0, Vector.replicate orders 0, 0, 0, 0, 0⟩

namespace Heap

variable {A : Arch} {σ : Type} [FrameSource A σ]

def new (map : DirectMap A) : Heap A where
  map := map
  bump := Bump.new map
  slab := Slab.new
  pages := none
  inject := Injector.off
  injectedBefore := 0
  allocations := 0
  frees := 0
  failures := 0
  constrained := 0
  slabOverflow := 0
  pagesOverflow := 0

/-! ## Pages for large blocks -/

def checkRun (map : DirectMap A) (run : FrameRange A) : Except AllocError Unit := do
  let first := run.start.start
  let bytes ← run.lenBytes
  let last ← match checkedAdd u64Max first (bytes - 1) with
    | none => throw .overflow
    | some n => pure n
  let _ ← map.toVirt first
  let _ ← map.toVirt last

def attachPages (cfg : Build) (h : Heap A) (run : FrameRange A) (store : List UInt8) :
    Call (Heap A × Except AllocError Unit) :=
  if h.pages.isSome then .ret (h, .error .exhausted)
  else match checkRun h.map run with
    | .error e => .ret (h, .error e)
    | .ok () =>
      (Buddy.new cfg.checked run store).bind fun
        | .error e => .ret (h, .error e)
        | .ok buddy => .ret ({ h with pages := some buddy }, .ok ())

def detachPages (h : Heap A) : Heap A × Except Detach (FrameRange A × List UInt8) :=
  match h.pages with
  | none => (h, .error .notAttached)
  | some buddy =>
    if 0 < buddy.liveBlocks then (h, .error (.inUse buddy.liveBlocks))
    else ({ h with pages := none }, .ok (buddy.run, buddy.store))

/-- Replace the fault-injection policy; the previous one's trips stay counted. -/
def setInjector (h : Heap A) (inject : Injector) : Heap A :=
  { h with
    injectedBefore := satAdd u64Max h.injectedBefore h.inject.trips
    inject := inject }

/-! ## Allocation -/

def grow (cfg : Build) (h : Heap A) (src : σ) (minBytes : Nat) :
    Heap A × σ × Except AllocError Nat :=
  let (bump, s, r) := h.bump.grow (⟨cfg.faultInject, src, h.inject⟩ : Injected σ) minBytes
  ({ h with bump := bump, inject := s.inject }, s.src, r)

/-- Ask the arena, with the injector between it and the frame source. -/
def allocArena (cfg : Build) (h : Heap A) (layout : Layout A) (src : σ) :
    Heap A × σ × Except AllocError Nat :=
  let (bump, s, r) := h.bump.tryAllocIn layout (⟨cfg.faultInject, src, h.inject⟩ : Injected σ)
  ({ h with bump := bump, inject := s.inject }, s.src, r)

/-- Degrade to the arena, at the class's size and alignment. -/
def allocDirect (cfg : Build) (h : Heap A) (cls : Nat) (src : σ) :
    Heap A × σ × Except AllocError Nat :=
  match Layout.fromSizeAlign A cls cls with
  | none => (h, src, .error .overflow)
  | some direct => h.allocArena cfg direct src

def allocBlock (cfg : Build) (h : Heap A) (block : Layout A) (src : σ) :
    Heap A × σ × Except AllocError Nat :=
  let (inject, fail) := h.inject.trip cfg.faultInject .slabBlock
  let h := { h with inject := inject }
  if fail then (h, src, .error .exhausted) else h.allocArena cfg block src

def allocSmall (cfg : Build) (h : Heap A) (cls : Nat) (src : σ) :
    Heap A × σ × Except AllocError Nat :=
  match h.slab.tryTake cls h.map with
  | (slab, .ok p) => ({ h with slab := slab }, src, .ok p)
  | (slab, .error .exhausted) =>
    let h := { h with slab := slab }
    if h.slab.hasRoom then
      match Slab.blockLayout A cls with
      | .error e => (h, src, .error e)
      | .ok block =>
        match h.allocBlock cfg block src with
        | (h, src, .ok ptr) =>
          match h.slab.addBlock cls ptr h.map with
          | .error e => (h, src, .error e)
          | .ok slab =>
            let (slab, r) := slab.tryTake cls h.map
            ({ h with slab := slab }, src, r)
        -- the arena could not spare a whole block, but perhaps one object
        | (h, src, .error _) => h.allocDirect cfg cls src
    else
      { h with slabOverflow := satAdd u64Max h.slabOverflow 1 }.allocDirect cfg cls src
  | (slab, .error e) => ({ h with slab := slab }, src, .error e)

/-- Turn a block the buddy allocator has just handed out into a pointer. -/
def handOutPages (cfg : Build) (h : Heap A) (range : FrameRange A) :
    Call (Heap A × Except AllocError Nat) :=
  match h.map.ptrToPhys range.start.start with
  | .ok p => .ret (h, .ok p)
  | .error e =>
    -- a block that cannot be reached goes back to the buddy
    match h.pages with
    | none => .ret (h, .error e)
    | some pages =>
      (pages.free cfg.checked range).bind fun (pages, _) =>
        .ret ({ h with pages := some pages }, .error e)

def allocLarge (cfg : Build) (h : Heap A) (layout : Layout A) (src : σ) :
    Call (Heap A × σ × Except AllocError Nat) :=
  if layout.align ≤ A.pageSize then
    match h.pages with
    | none => .ret (h.allocArena cfg layout src)
    | some pages =>
      let (inject, fail) := h.inject.trip cfg.faultInject .pages
      let h := { h with inject := inject }
      (if fail then .ret (pages, .error .exhausted)
        else pages.allocPages cfg.checked (divCeil layout.size A.pageSize)).bind fun
        | (pages, .ok range) =>
          ({ h with pages := some pages }.handOutPages cfg range).bind fun (h, r) =>
            .ret (h, src, r)
        | (pages, .error e) =>
          let h := { h with pages := some pages }
          if e = .exhausted ∨ e = .fragmented then
            .ret ({ h with pagesOverflow := satAdd u64Max h.pagesOverflow 1 }.allocArena cfg
              layout src)
          else .ret (h, src, .error e)
  else .ret (h.allocArena cfg layout src)

/-- Count what became of a request. -/
def settle (h : Heap A) : Except AllocError Nat → Heap A
  | .ok _ => { h with allocations := satAdd u64Max h.allocations 1 }
  | .error _ => { h with failures := satAdd u64Max h.failures 1 }

def tryAllocIn (cfg : Build) (h : Heap A) (layout : Layout A) (ctx : AllocContext) (src : σ) :
    Call (Heap A × σ × Except AllocError Nat) :=
  match layout.check with
  | .error e => .ret ({ h with failures := satAdd u64Max h.failures 1 }, src, .error e)
  | .ok _ =>
    let h :=
      if ctx.isBestEffort then { h with constrained := satAdd u64Max h.constrained 1 } else h
    let (inject, fail) := h.inject.trip cfg.faultInject .entry
    let h := { h with inject := inject }
    if fail then .ret ({ h with failures := satAdd u64Max h.failures 1 }, src, .error .exhausted)
    else
      (match Slab.classFor layout with
        | some cls => Call.ret (h.allocSmall cfg cls src)
        | none => h.allocLarge cfg layout src).bind fun (h, src, r) => .ret (h.settle r, src, r)

def tryAlloc (cfg : Build) (h : Heap A) (layout : Layout A) (ctx : AllocContext) :
    Call (Heap A × Except AllocError Nat) :=
  (h.tryAllocIn cfg layout ctx NoFrames.mk).bind fun (h, _, r) => .ret (h, r)

/-! ## Freeing -/

/-- The frame containing `ptr` and the pointer's physical address, if it is in the run. -/
def pageOf (h : Heap A) (ptr : Nat) : Option (Frame A × Nat) :=
  match h.pages with
  | none => none
  | some pages =>
    match h.map.toPhys ptr with
    | .error _ => none
    | .ok phys =>
      if hlt : phys < 2 ^ 64 then
        let frame := Frame.containing A phys hlt
        if pages.owns frame then some (frame, phys) else none
      else none

def freePages (cfg : Build) (h : Heap A) (frame : Frame A) (phys : Nat) (layout : Layout A) :
    Call (Heap A × Except AllocError Unit) :=
  if phys ≠ frame.start then .ret (h, .error .misaligned)
  else match ho : orderFor A (divCeil layout.size A.pageSize) with
    | none => .ret (h, .error .misaligned)
    | some order =>
      match FrameRange.new frame (blockPages order) (blockPages_le_usizeMax A (orderFor_le ho)) with
      | .error e => .ret (h, .error e)
      | .ok range =>
        match h.pages with
        | none => .ret (h, .error .unmanaged)
        | some pages =>
          (pages.free cfg.checked range).bind fun (pages, r) =>
            .ret ({ h with pages := some pages }, r)

def freed (h : Heap A) : Except AllocError Unit → Heap A
  | .ok () => { h with frees := satAdd u64Max h.frees 1 }
  | .error _ => h

def deallocArena (h : Heap A) (ptr : Nat) (layout : Layout A) : Heap A × Except AllocError Unit :=
  match h.bump.dealloc ptr layout with
  | .error e => (h, .error e)
  | .ok bump => ({ h with bump := bump }.freed (.ok ()), .ok ())

def dealloc (cfg : Build) (h : Heap A) (ptr : Nat) (layout : Layout A) :
    Call (Heap A × Except AllocError Unit) :=
  match layout.check with
  | .error e => .ret (h, .error e)
  | .ok _ =>
    match Slab.classFor layout with
    | some cls =>
      match h.slab.dealloc A ptr cls with
      | (slab, .ok ()) => .ret ({ h with slab := slab }.freed (.ok ()), .ok ())
      -- not one of the slab's objects: the arena's, at its class's size and alignment
      | (slab, .error .unmanaged) =>
        let h := { h with slab := slab }
        match Layout.fromSizeAlign A cls cls with
        | none => .ret (h, .error .overflow)
        | some arenaLayout => .ret (h.deallocArena ptr arenaLayout)
      | (slab, .error e) => .ret ({ h with slab := slab }, .error e)
    | none =>
      match h.pageOf ptr with
      | some (frame, phys) =>
        (h.freePages cfg frame phys layout).bind fun (h, r) => .ret (h.freed r, r)
      | none =>
        -- a slab object freed with too large a layout must not reach the arena
        if h.slab.owns A ptr then .ret (h, .error .misaligned)
        else .ret (h.deallocArena ptr layout)

/-! ## Accounting -/

def stats (h : Heap A) : HeapStats :=
  let bump := h.bump.stats
  let slab := h.slab.stats A
  let pages := match h.pages with
    | some b => b.stats
    | none => BuddyStats.zero
  let pageBytes := fun n => satMul A.usizeMax n pages.pageSize
  { bump := bump
    slab := slab
    pages := pages
    bytesReserved := satAdd A.usizeMax bump.arenaBytes (pageBytes pages.pages)
    -- the arena counts each slab block as one live allocation
    bytesInUse := satAdd A.usizeMax
      (satAdd A.usizeMax (bump.inUse - slab.bytesReserved) slab.bytesInUse)
      (pageBytes (pages.pages - pages.freePages))
    allocations := h.allocations
    frees := h.frees
    failures := h.failures
    constrained := h.constrained
    slabOverflow := h.slabOverflow
    pagesOverflow := h.pagesOverflow
    injected := satAdd u64Max h.injectedBefore h.inject.trips }

end Heap

end Kintane
