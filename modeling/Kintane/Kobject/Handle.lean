import Kintane.Lib.Word

/-!
# Handle tables

The mapping from an integer a program holds to an object and the rights it has over it. A
handle is a word: the low ten bits name a slot, the rest is the slot's generation, which
changes each time the slot is vacated. A stale handle names a generation its slot no longer
has. Generations are finite, so the vacating that would use up the last one retires the slot
instead.

The generation is stored as it stands in the handle, already shifted. `advance` is the one
place it changes.
-/

namespace Kintane

/-! ## Rights -/

structure Rights where
  bits : BitVec 32
  deriving DecidableEq

namespace Rights

def empty : Rights := ⟨0⟩
def read : Rights := ⟨1⟩
def write : Rights := ⟨2⟩
def duplicate : Rights := ⟨8⟩
def transfer : Rights := ⟨16⟩

/-- Every right the source defines: ten of them. -/
def all : Rights := ⟨0x3FF⟩

def contains (r other : Rights) : Bool := r.bits &&& other.bits == other.bits

/-- Restrict to at most `mask`. -/
def narrow (r mask : Rights) : Rights := ⟨r.bits &&& mask.bits⟩

end Rights

/-! ## Entries -/

inductive ObjectType where
  | process
  | thread
  | channel
  | memoryRegion
  | mapping
  | event
  | timer
  | interrupt
  | deviceResource
  | completion
  | job
  | socket
  deriving DecidableEq

structure Entry where
  object : Nat
  kind : ObjectType
  rights : Rights
  deriving DecidableEq

inductive HandleError where
  | badHandle
  | wrongType (expected found : ObjectType)
  | accessDenied (required held : Rights)
  | tableFull
  deriving DecidableEq

/-- Why `transferOutMany` moved nothing. -/
inductive TransferError where
  | handle (index : Nat) (error : HandleError)
  | duplicate (index : Nat)
  deriving DecidableEq

/-! ## Handles -/

def u32Max : Nat := 2 ^ 32 - 1

namespace Handle

def indexBits : Nat := 10

def indexMask : Nat := 2 ^ indexBits - 1

def maxGeneration : Nat := 2 ^ (32 - indexBits) - 1

def maxSlots : Nat := 2 ^ indexBits

def cyclesPerSlot : Nat := maxGeneration - 1

end Handle

/-- What a program holds: any word, until a table has checked it. -/
structure Handle where
  raw : BitVec 32
  deriving DecidableEq

namespace Handle

def new (index generation : Nat) : Handle :=
  ⟨BitVec.ofNat 32 ((generation &&& (u32Max ^^^ indexMask)) ||| (index &&& indexMask))⟩

def index (h : Handle) : Nat := h.raw.toNat &&& indexMask

def generation (h : Handle) : Nat := h.raw.toNat &&& (u32Max ^^^ indexMask)

end Handle

/-! ## Tables -/

structure Slot where
  /-- A multiple of the index stride; the low bits belong to the index. -/
  generation : Nat
  entry : Option Entry
  retired : Bool

/-- A slot that an insert may take. -/
def Slot.free (s : Slot) : Bool := s.entry.isNone && !s.retired

def Slot.advance (s : Slot) : Slot :=
  let next := ((s.generation >>> Handle.indexBits) + 1) % 2 ^ 32
  if Handle.maxGeneration ≤ next then { s with retired := true }
  else { s with generation := (next <<< Handle.indexBits) % 2 ^ 32 }

structure HandleTable where
  slots : List Slot
  live : Nat

namespace HandleTable

/-- `HandleTable::<N>::new`; the source asserts `N <= MAX_SLOTS`. -/
def new (n : Nat) : HandleTable :=
  ⟨List.replicate n ⟨1 <<< Handle.indexBits, none, false⟩, 0⟩

variable (t : HandleTable)

def freeSlots : Nat := t.slots.countP Slot.free

def entries : List Entry := t.slots.filterMap (·.entry)

def insert (object : Nat) (kind : ObjectType) (rights : Rights) :
    HandleTable × Except HandleError Handle :=
  match t.slots.findIdx? Slot.free with
  | none => (t, .error .tableFull)
  | some i =>
    match t.slots[i]? with
    | none => (t, .error .tableFull)
    | some s =>
      (⟨t.slots.set i { s with entry := some ⟨object, kind, rights⟩ }, t.live + 1⟩,
        .ok (Handle.new i s.generation))

/-- Look up a handle, checking that it is live and of the expected generation. -/
def get (h : Handle) : Except HandleError Entry :=
  match t.slots[h.index]? with
  | none => .error .badHandle
  | some s =>
    if s.generation ≠ h.generation then .error .badHandle
    else match s.entry with
      | none => .error .badHandle
      | some e => .ok e

def getChecked (h : Handle) (kind : ObjectType) (required : Rights) : Except HandleError Entry :=
  match t.get h with
  | .error e => .error e
  | .ok entry =>
    if entry.kind ≠ kind then .error (.wrongType kind entry.kind)
    else if ¬ entry.rights.contains required then .error (.accessDenied required entry.rights)
    else .ok entry

def vacate (i : Nat) (s : Slot) : HandleTable :=
  ⟨t.slots.set i { s with entry := none }.advance, t.live - 1⟩

def close (h : Handle) : HandleTable × Except HandleError Entry :=
  match t.slots[h.index]? with
  | none => (t, .error .badHandle)
  | some s =>
    if s.generation ≠ h.generation then (t, .error .badHandle)
    else match s.entry with
      | none => (t, .error .badHandle)
      | some e => (t.vacate h.index s, .ok e)

def duplicate (h : Handle) (mask : Rights) : HandleTable × Except HandleError Handle :=
  match t.get h with
  | .error e => (t, .error e)
  | .ok entry =>
    if ¬ entry.rights.contains .duplicate then
      (t, .error (.accessDenied .duplicate entry.rights))
    else t.insert entry.object entry.kind (entry.rights.narrow mask)

def transferOut (h : Handle) : HandleTable × Except HandleError Entry :=
  match t.get h with
  | .error e => (t, .error e)
  | .ok entry =>
    if ¬ entry.rights.contains .transfer then (t, .error (.accessDenied .transfer entry.rights))
    else t.close h

/-- The checks of `check_transfer_out_many` on the rest of a list, after `earlier`. -/
def checkTransfer (earlier : List Handle) : List Handle → Except TransferError Unit
  | [] => .ok ()
  | h :: rest =>
    match t.get h with
    | .error e => .error (.handle earlier.length e)
    | .ok entry =>
      if ¬ entry.rights.contains .transfer then
        .error (.handle earlier.length (.accessDenied .transfer entry.rights))
      else if h ∈ earlier then .error (.duplicate earlier.length)
      else checkTransfer (earlier ++ [h]) rest

def checkTransferOutMany (handles : List Handle) : Except TransferError Unit :=
  t.checkTransfer [] handles

/-- Vacate the slots of the handles in order; the sink receives position and entry. A handle
whose slot is missing or empty is skipped. -/
def takeAll (t : HandleTable) : Nat → List Handle → HandleTable × List (Nat × Entry)
  | _, [] => (t, [])
  | index, h :: rest =>
    match t.slots[h.index]? with
    | none => takeAll t (index + 1) rest
    | some s =>
      match s.entry with
      | none => takeAll t (index + 1) rest
      | some e =>
        let (t', sunk) := takeAll (t.vacate h.index s) (index + 1) rest
        (t', (index, e) :: sunk)

/-- Remove every handle in the list, all or nothing; with what the sink received. -/
def transferOutMany (handles : List Handle) :
    HandleTable × Except TransferError (List (Nat × Entry)) :=
  match t.checkTransferOutMany handles with
  | .error e => (t, .error e)
  | .ok () =>
    let (t', sunk) := t.takeAll 0 handles
    (t', .ok sunk)

end HandleTable

end Kintane
