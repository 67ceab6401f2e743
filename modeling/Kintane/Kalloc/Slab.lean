import Kintane.Kalloc.Request
import Kintane.Mm.DirectMap

/-!
# Size classes

Small objects, in blocks of one class each. A block is an arena allocation cut into at
most 64 objects, with one bit per object in a 64-bit word; there are at most 64 blocks
and a block is never given back. The class size is also the alignment its objects have.

Only the first `count` descriptors of the source's table are ever read, so the table is
a list here and the count its length.
-/

namespace Kintane

/-- The size classes, ascending. Each is also the alignment that class guarantees. -/
def classSizes : List Nat := [16, 32, 64, 128, 256, 512, 1024]

def maxBlocks : Nat := 64

def maxObjects : Nat := 64

def minObjects : Nat := 4

def targetBlockBytes : Nat := 4096

namespace Slab

/-- The size class that would serve `layout`, or `none` if no class is large enough. -/
def classFor {A : Arch} (layout : Layout A) : Option Nat :=
  if layout.size = 0 then none
  else
    let need := max layout.size layout.align
    classSizes.find? (need ≤ ·)

def objectsPerBlock (cls : Nat) : Nat :=
  if cls = 0 then 0 else max minObjects (min (targetBlockBytes / cls) maxObjects)

def blockLayout (A : Arch) (cls : Nat) : Except AllocError (Layout A) :=
  match checkedMul A.usizeMax cls (objectsPerBlock cls) with
  | none => .error .overflow
  | some bytes =>
    match Layout.fromSizeAlign A bytes cls with
    | none => .error .overflow
    | some layout => .ok layout

/-- The bit that stands for object `idx`; zero for an index no `u64` has a bit for. -/
def bit (idx : Nat) : BitVec 64 := if idx < 64 then 1#64 <<< idx else 0#64

def countOnes (v : BitVec 64) : Nat := Nat.count (fun k => v.getLsbD k = true) 64

structure Block where
  virt : Nat
  phys : Nat
  cls : Nat
  objects : Nat
  /-- Bit `i` set means object `i` is handed out. -/
  used : BitVec 64
  deriving DecidableEq

namespace Block

def mask (b : Block) : BitVec 64 :=
  if maxObjects ≤ b.objects then BitVec.allOnes 64 else bit b.objects - 1#64

def bytes (A : Arch) (b : Block) : Nat := satMul A.usizeMax b.cls b.objects

def inUse (b : Block) : Nat := countOnes b.used

def indexOf (A : Arch) (b : Block) (addr : Nat) : Except AllocError (Option Nat) :=
  match checkedSub addr b.virt with
  | none => .ok none
  | some off =>
    if b.bytes A ≤ off then .ok none
    else if b.cls = 0 ∨ off % b.cls ≠ 0 then .error .misaligned
    else .ok (some (off / b.cls))

end Block

structure ClassStats where
  size : Nat
  blocks : Nat
  objects : Nat
  inUse : Nat
  deriving DecidableEq, Repr

structure Stats where
  blocks : Nat
  objects : Nat
  objectsInUse : Nat
  bytesReserved : Nat
  bytesInUse : Nat
  allocations : Nat
  frees : Nat
  doubleFrees : Nat
  classes : List ClassStats
  deriving DecidableEq, Repr

end Slab

structure Slab where
  blocks : List Slab.Block
  allocations : Nat
  frees : Nat
  doubleFrees : Nat
  deriving DecidableEq

namespace Slab

variable {A : Arch}

def new : Slab := ⟨[], 0, 0, 0⟩

def hasRoom (s : Slab) : Bool := s.blocks.length < maxBlocks

/-- Take the lowest free object of the first block of `cls` that has one. -/
def takeIn (map : DirectMap A) (cls : Nat) : List Block → Except AllocError (Nat × List Block)
  | [] => .error .exhausted
  | block :: rest =>
    let free := ~~~block.used &&& block.mask
    if block.cls ≠ cls ∨ free = 0#64 then
      match takeIn map cls rest with
      | .error e => .error e
      | .ok (ptr, rest) => .ok (ptr, block :: rest)
    else
      let idx := trailingZeros 64 free.toNat
      match checkedMul A.usizeMax idx cls with
      | none => .error .overflow
      | some off =>
        match checkedAdd A.usizeMax block.virt off with
        | none => .error .overflow
        | some addr =>
          match map.ptrAt addr with
          | .error e => .error e
          | .ok ptr => .ok (ptr, { block with used := block.used ||| bit idx } :: rest)

def tryTake (s : Slab) (cls : Nat) (map : DirectMap A) : Slab × Except AllocError Nat :=
  match takeIn map cls s.blocks with
  | .error e => (s, .error e)
  | .ok (ptr, blocks) =>
    ({ s with blocks := blocks, allocations := satAdd u64Max s.allocations 1 }, .ok ptr)

def addBlock (s : Slab) (cls virt : Nat) (map : DirectMap A) : Except AllocError Slab := do
  if ¬ s.hasRoom then throw .exhausted
  let objects := objectsPerBlock cls
  if cls = 0 ∨ objects = 0 then throw .emptyRequest
  let bytes ← match checkedMul A.usizeMax cls objects with
    | none => throw .overflow
    | some n => pure n
  let phys ← map.toPhys virt
  let last ← match checkedAdd A.usizeMax virt (bytes - 1) with
    | none => throw .overflow
    | some n => pure n
  let _ ← map.toPhys last
  return { s with blocks := s.blocks ++ [⟨virt, phys, cls, objects, 0#64⟩] }

/-- Clear the bit of the object at `addr`, in the first block that contains the address. -/
def freeIn (A : Arch) (addr cls : Nat) : List Block → Except AllocError (List Block)
  | [] => .error .unmanaged
  | block :: rest =>
    match block.indexOf A addr with
    | .error e => .error e
    | .ok none =>
      match freeIn A addr cls rest with
      | .error e => .error e
      | .ok rest => .ok (block :: rest)
    | .ok (some idx) =>
      if block.cls ≠ cls then .error .misaligned
      else
        let mine := bit idx
        if mine = 0#64 ∨ block.used &&& mine = 0#64 then .error .notAllocated
        else .ok ({ block with used := block.used &&& ~~~mine } :: rest)

def dealloc (A : Arch) (s : Slab) (ptr cls : Nat) : Slab × Except AllocError Unit :=
  match freeIn A ptr cls s.blocks with
  | .error .notAllocated =>
    ({ s with doubleFrees := satAdd u64Max s.doubleFrees 1 }, .error .notAllocated)
  | .error e => (s, .error e)
  | .ok blocks => ({ s with blocks := blocks, frees := satAdd u64Max s.frees 1 }, .ok ())

/-- Whether this address is inside one of the slab's blocks, on an object boundary or not. -/
def owns (A : Arch) (s : Slab) (ptr : Nat) : Bool :=
  s.blocks.any fun b =>
    match checkedSub ptr b.virt with
    | none => false
    | some off => off < b.bytes A

/-- The accounting with one more block in it. -/
def Stats.count (A : Arch) (st : Stats) (block : Block) : Stats :=
  let used := block.inUse
  { st with
    objects := satAdd A.usizeMax st.objects block.objects
    objectsInUse := satAdd A.usizeMax st.objectsInUse used
    bytesReserved := satAdd A.usizeMax st.bytesReserved (block.bytes A)
    bytesInUse := satAdd A.usizeMax st.bytesInUse (satMul A.usizeMax used block.cls)
    classes :=
      match classSizes.findIdx? (· = block.cls) with
      | none => st.classes
      | some i => st.classes.modify i fun c =>
        { c with
          blocks := satAdd A.usizeMax c.blocks 1
          objects := satAdd A.usizeMax c.objects block.objects
          inUse := satAdd A.usizeMax c.inUse used } }

def stats (A : Arch) (s : Slab) : Stats :=
  s.blocks.foldl (Stats.count A)
    { blocks := s.blocks.length
      objects := 0
      objectsInUse := 0
      bytesReserved := 0
      bytesInUse := 0
      allocations := s.allocations
      frees := s.frees
      doubleFrees := s.doubleFrees
      classes := classSizes.map fun size => ⟨size, 0, 0, 0⟩ }

end Slab

end Kintane
