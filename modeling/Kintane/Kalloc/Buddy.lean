import Kintane.Lib.Bytes
import Kintane.Mm.Frame

/-!
# The buddy allocator

Blocks of `2^order` pages over one run of frames. They split when a smaller block
is wanted and merge again when both halves are free.

Each page has a nine-byte record in a separate store: two links and a tag. A
block's first page carries its tag, every other page of the block has tag zero,
and the links are used only while the block is free. `check` walks the whole
structure and reports the first thing wrong; in a checked build every mutation
runs it afterwards and stops the machine if it fails, which is why an operation
here is a `Call` and not just a result.
-/

namespace Kintane

inductive Invariant where
  | listCycles (order : Nat)
  | linkOutOfRange (order : Nat)
  | backLinkWrong (order : Nat)
  | listedBlockNotFree (order : Nat)
  | blockMisaligned (page : Nat)
  | notCoalesced (page : Nat)
  | tagOutOfPlace (page : Nat)
  | blockCountWrong (order : Nat)
  | freeCountWrong
  deriving DecidableEq, Repr

/-- What became of a call: it returned, it stopped the machine, or it never came back. -/
inductive Call (α : Type) where
  | ret (a : α)
  | panic (broken : Invariant)
  | hang
  deriving DecidableEq, Repr

/-- Continue with what a call returned. -/
def Call.bind {α β : Type} (c : Call α) (f : α → Call β) : Call β :=
  match c with
  | .ret a => f a
  | .panic broken => .panic broken
  | .hang => .hang

def maxOrder : Nat := 10

def orders : Nat := maxOrder + 1

def storeBytesPerPage : Nat := 9

/-- Link value meaning "no page": `u32::MAX`. -/
def nilLink : Nat := 2 ^ 32 - 1

def tagFree : UInt8 := 0x40

def tagUsed : UInt8 := 0x80

def tagOrder : UInt8 := 0x1F

/-- A buddy allocator over one run of frames. -/
structure Buddy (A : Arch) where
  store : List UInt8
  run : FrameRange A
  base : Frame A
  pages : Nat
  heads : Vector Nat orders
  freeBlocks : Vector Nat orders
  freePages : Nat
  liveBlocks : Nat
  splits : Nat
  merges : Nat
  deriving DecidableEq

def blockPages (order : Nat) : Nat := 2 ^ order

def orderBits (order : Nat) : UInt8 :=
  if order ≤ 255 then UInt8.ofNat order &&& tagOrder else tagOrder

def toLink (page : Nat) : Nat := if page < 2 ^ 32 then page else nilLink

/-- A link as a page index. Every `u32` fits in `usize` here. -/
def toIndex (link : Nat) : Nat := link

def storeBytes (A : Arch) (pages : Nat) : Except AllocError Nat :=
  if nilLink ≤ pages then .error .overflow
  else match checkedMul A.usizeMax pages storeBytesPerPage with
    | some n => .ok n
    | none => .error .overflow

/-- The smallest order whose block holds `pages` pages, or `none` past `maxOrder`. -/
def orderFor (A : Arch) (pages : Nat) : Option Nat :=
  (checkedNextPowerOfTwo A.usizeMax (max pages 1)).bind fun n =>
    let order := trailingZeros A.usizeBits n
    if order ≤ maxOrder then some order else none

theorem orderFor_le {A : Arch} {n o : Nat} (h : orderFor A n = some o) : o ≤ maxOrder := by
  obtain ⟨m, -, hm⟩ := Option.bind_eq_some_iff.mp h
  simp only at hm
  split at hm
  · cases hm; assumption
  · cases hm

theorem blockPages_le_usizeMax (A : Arch) {order : Nat} (h : order ≤ maxOrder) :
    blockPages order ≤ A.usizeMax :=
  Nat.le_trans ((Nat.pow_le_pow_right (by decide) h).trans (by decide))
    A.u32Max_le_usizeMax

namespace Buddy

variable {A : Arch}

/-! ## Record accessors -/

/-- Where a field of `page`'s record lies in the store, unless the arithmetic overflows. -/
def fieldAt (A : Arch) (page offset len : Nat) : Option Nat :=
  (checkedMul A.usizeMax page storeBytesPerPage).bind fun n =>
    (checkedAdd A.usizeMax n offset).bind fun i =>
      (checkedAdd A.usizeMax i len).bind fun _ => some i

def field (b : Buddy A) (page offset len : Nat) : Option (List UInt8) :=
  (fieldAt A page offset len).bind fun i => getSlice b.store i len

/-- Overwrite a field of `page`'s record, if it lies in the store. -/
def setField (b : Buddy A) (page offset : Nat) (v : List UInt8) : Buddy A :=
  match fieldAt A page offset v.length with
  | some i => { b with store := setSlice b.store i v }
  | none => b

def readU32 (b : Buddy A) (page offset : Nat) : Nat :=
  match b.field page offset 4 with
  | some v => fromLeBytes v
  | none => nilLink

def writeU32 (b : Buddy A) (page offset v : Nat) : Buddy A := b.setField page offset (toLeBytes 4 v)

def next (b : Buddy A) (page : Nat) : Nat := b.readU32 page 0

def prev (b : Buddy A) (page : Nat) : Nat := b.readU32 page 4

def setNext (b : Buddy A) (page v : Nat) : Buddy A := b.writeU32 page 0 v

def setPrev (b : Buddy A) (page v : Nat) : Buddy A := b.writeU32 page 4 v

def tag (b : Buddy A) (page : Nat) : UInt8 :=
  match b.field page 8 1 with
  | some v => v.headD 0
  | none => 0

def setTag (b : Buddy A) (page : Nat) (t : UInt8) : Buddy A := b.setField page 8 [t]

def head (b : Buddy A) (order : Nat) : Nat := b.heads[order]?.getD nilLink

def setHead (b : Buddy A) (order page : Nat) : Buddy A :=
  { b with heads := b.heads.setIfInBounds order page }

/-! ## Free lists -/

def push (b : Buddy A) (page order : Nat) : Buddy A :=
  let old := b.head order
  let me := toLink page
  let b := b.setNext page old
  let b := b.setPrev page nilLink
  let b := if old ≠ nilLink then b.setPrev (toIndex old) me else b
  let b := b.setHead order me
  { b with
    freeBlocks := b.freeBlocks.setIfInBounds order
      (satAdd A.usizeMax (b.freeBlocks[order]?.getD 0) 1)
    freePages := satAdd A.usizeMax b.freePages (blockPages order) }

def unlink (b : Buddy A) (page order : Nat) : Buddy A :=
  let next := b.next page
  let prev := b.prev page
  let b := if prev = nilLink then b.setHead order next else b.setNext (toIndex prev) next
  let b := if next ≠ nilLink then b.setPrev (toIndex next) prev else b
  { b with
    freeBlocks := b.freeBlocks.setIfInBounds order (b.freeBlocks[order]?.getD 0 - 1)
    freePages := b.freePages - blockPages order }

/-! ## The checker -/

/--
Walk one order's list from `at_`, with `count` blocks and `listed` pages seen and
`room` more blocks before the count passes the number of pages. A count that can no
longer grow, because it has saturated, never passes it: that walk does not return.
-/
def checkList (b : Buddy A) (order : Nat) :
    (room prev at_ count listed : Nat) → Call (Except Invariant (Nat × Nat))
  | 0, _, at_, count, listed =>
    if at_ = nilLink then .ret (.ok (count, listed))
    else if b.pages < satAdd A.usizeMax count 1 then .ret (.error (.listCycles order))
    else .hang
  | room + 1, prev, at_, count, listed =>
    if at_ = nilLink then .ret (.ok (count, listed))
    else
      let count := satAdd A.usizeMax count 1
      let page := toIndex at_
      if b.pages ≤ page then .ret (.error (.linkOutOfRange order))
      else if b.prev page ≠ prev then .ret (.error (.backLinkWrong order))
      else if b.tag page ≠ tagFree ||| orderBits order then
        .ret (.error (.listedBlockNotFree order))
      else
        checkList b order room at_ (b.next page) count
          (satAdd A.usizeMax listed (blockPages order))

/-- The list walk of every order from `order` on; `left` orders remain. -/
def checkLists (b : Buddy A) : (left order listed : Nat) → Call (Except Invariant Nat)
  | 0, _, listed => .ret (.ok listed)
  | left + 1, order, listed =>
    (b.checkList order b.pages nilLink (b.head order) 0 listed).bind fun
      | .error e => .ret (.error e)
      | .ok (count, listed) =>
        if b.freeBlocks[order]? ≠ some count then .ret (.error (.blockCountWrong order))
        else b.checkLists left (order + 1) listed

/-- The page walk from `page`, block by block; `taggedFree` pages seen free so far. -/
def checkPages (b : Buddy A) : (fuel page taggedFree : Nat) → Except Invariant Nat
  | 0, _, taggedFree => .ok taggedFree
  | fuel + 1, page, taggedFree =>
    if page < b.pages then
      let tag := b.tag page
      let isFree := tag &&& tagFree ≠ 0
      if ¬ isFree ∧ tag &&& tagUsed = 0 then .error (.tagOutOfPlace page)
      else
        let order := (tag &&& tagOrder).toNat
        let endPage := satAdd A.usizeMax page (blockPages order)
        if maxOrder < order ∨ page % blockPages order ≠ 0 ∨ b.pages < endPage then
          .error (.blockMisaligned page)
        else
          let inner := satAdd A.usizeMax page 1
          match (List.range' inner (endPage - inner)).find? (fun p => b.tag p ≠ 0) with
          | some p => .error (.tagOutOfPlace p)
          | none =>
            if isFree then
              let buddy := page ^^^ blockPages order
              if order < maxOrder ∧ satAdd A.usizeMax buddy (blockPages order) ≤ b.pages ∧
                  b.tag buddy = tag then .error (.notCoalesced page)
              else
                b.checkPages fuel endPage (satAdd A.usizeMax taggedFree (blockPages order))
            else b.checkPages fuel endPage taggedFree
    else .ok taggedFree

def check (b : Buddy A) : Call (Except Invariant Unit) :=
  (b.checkLists orders 0 0).bind fun
    | .error e => .ret (.error e)
    | .ok listedPages =>
      if listedPages ≠ b.freePages then .ret (.error .freeCountWrong)
      else match b.checkPages b.pages 0 0 with
        | .error e => .ret (.error e)
        | .ok taggedFree =>
          if taggedFree ≠ b.freePages then .ret (.error .freeCountWrong) else .ret (.ok ())

def verify (checked : Bool) (b : Buddy A) : Call Unit :=
  if checked then
    b.check.bind fun
      | .ok () => .ret ()
      | .error broken => .panic broken
  else .ret ()

/-! ## Construction -/

/-- The largest order at most the given one whose block fits at `page`. -/
def carveOrder (A : Arch) (pages page : Nat) : Nat → Nat
  | 0 => 0
  | order + 1 =>
    if page % blockPages (order + 1) ≠ 0 ∨
        pages < satAdd A.usizeMax page (blockPages (order + 1)) then
      carveOrder A pages page order
    else order + 1

def carve : (fuel page : Nat) → Buddy A → Buddy A
  | 0, _, b => b
  | fuel + 1, page, b =>
    if page < b.pages then
      let order := carveOrder A b.pages page maxOrder
      let b := b.setTag page (tagFree ||| orderBits order)
      let b := b.push page order
      carve fuel (satAdd A.usizeMax page (blockPages order)) b
    else b

/-- `run` before any of it is carved: every record zero, every list empty. -/
def blank (run : FrameRange A) (store : List UInt8) : Buddy A where
  store := List.replicate store.length 0
  run := run
  base := run.start
  pages := run.count
  heads := Vector.replicate orders nilLink
  freeBlocks := Vector.replicate orders 0
  freePages := 0
  liveBlocks := 0
  splits := 0
  merges := 0

def new (checked : Bool) (run : FrameRange A) (store : List UInt8) :
    Call (Except AllocError (Buddy A)) :=
  let pages := run.count
  match storeBytes A pages with
  | .error e => .ret (.error e)
  | .ok needed =>
    if store.length < needed then .ret (.error (.storageTooSmall needed))
    else
      let b := blank run store
      let b := carve pages 0 b
      (b.verify checked).bind fun _ => .ret (.ok b)

/-! ## Allocation -/

def indexOf (b : Buddy A) (frame : Frame A) : Except AllocError Nat :=
  match checkedSub frame.number b.base.number with
  | none => .error .unmanaged
  | some off =>
    match narrow A off with
    | .error _ => .error .unmanaged
    | .ok page => if b.pages ≤ page then .error .unmanaged else .ok page

def frameAt (b : Buddy A) (page : Nat) : Except AllocError (Frame A) :=
  match checkedAdd u64Max b.base.number page with
  | none => .error .overflow
  | some n => Frame.fromNumber A n

def owns (b : Buddy A) (frame : Frame A) : Bool := (b.indexOf frame).isOk

/-- Halve the block at `page` down to `order`, freeing the upper half each time. -/
def splitDown (page order : Nat) : (have_ : Nat) → Buddy A → Buddy A
  | 0, b => b
  | have_ + 1, b =>
    if order < have_ + 1 then
      let buddy := satAdd A.usizeMax page (blockPages have_)
      let b := b.setTag buddy (tagFree ||| orderBits have_)
      let b := b.push buddy have_
      let b := { b with splits := satAdd u64Max b.splits 1 }
      splitDown page order have_ b
    else b

def allocOrder (checked : Bool) (b : Buddy A) (order : Nat) :
    Call (Buddy A × Except AllocError (FrameRange A)) :=
  if ho : maxOrder < order then .ret (b, .error .exhausted)
  else
    match (List.range' order (orders - order)).find? (fun o => b.head o ≠ nilLink) with
    | none =>
      .ret (b, .error (if blockPages order ≤ b.freePages then .fragmented else .exhausted))
    | some have_ =>
      let page := toIndex (b.head have_)
      let b := b.unlink page have_
      let b := splitDown page order have_ b
      let b := b.setTag page (tagUsed ||| orderBits order)
      let b := { b with liveBlocks := satAdd A.usizeMax b.liveBlocks 1 }
      (b.verify checked).bind fun _ =>
        .ret (b,
          match b.frameAt page with
          | .error e => .error e
          | .ok frame =>
            FrameRange.new frame (blockPages order)
              (blockPages_le_usizeMax A (not_lt.mp ho)))

def allocPages (checked : Bool) (b : Buddy A) (pages : Nat) :
    Call (Buddy A × Except AllocError (FrameRange A)) :=
  if pages = 0 then .ret (b, .error .emptyRequest)
  else match orderFor A pages with
    | none => .ret (b, .error .exhausted)
    | some order => b.allocOrder checked order

/-! ## Freeing -/

/-- Merge the block at `page` with its buddy for as long as the buddy is free. -/
def mergeUp : (room page order : Nat) → Buddy A → Buddy A × Nat × Nat
  | 0, page, order, b => (b, page, order)
  | room + 1, page, order, b =>
    if order < maxOrder then
      let buddy := page ^^^ blockPages order
      let fits := (checkedAdd A.usizeMax buddy (blockPages order)).any (· ≤ b.pages)
      if ¬ fits ∨ b.tag buddy ≠ tagFree ||| orderBits order then (b, page, order)
      else
        let b := b.unlink buddy order
        let b := b.setTag buddy 0
        let b := { b with merges := satAdd u64Max b.merges 1 }
        mergeUp room (min page buddy) (order + 1) b
    else (b, page, order)

/-- Give a block back, merging it with its buddy for as long as the buddy is free. -/
def free (checked : Bool) (b : Buddy A) (range : FrameRange A) :
    Call (Buddy A × Except AllocError Unit) :=
  match b.indexOf range.start with
  | .error e => .ret (b, .error e)
  | .ok page =>
    let count := range.count
    if (checkedAdd A.usizeMax page count).all (b.pages < ·) then .ret (b, .error .unmanaged)
    else if ¬ isPowerOfTwo count then .ret (b, .error .misaligned)
    else match orderFor A count with
      | none => .ret (b, .error .misaligned)
      | some order =>
        let tag := b.tag page
        if tag &&& tagFree ≠ 0 then .ret (b, .error .notAllocated)
        else if tag &&& tagUsed = 0 ∨ (tag &&& tagOrder).toNat ≠ order then
          .ret (b, .error .misaligned)
        else
          let b := b.setTag page 0
          let b := { b with liveBlocks := b.liveBlocks - 1 }
          let (b, page, order) := mergeUp maxOrder page order b
          let b := b.setTag page (tagFree ||| orderBits order)
          let b := b.push page order
          (b.verify checked).bind fun _ => .ret (b, .ok ())

end Buddy

end Kintane
