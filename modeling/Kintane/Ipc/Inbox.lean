import Kintane.Lib.Ring
import Kintane.Kobject.Handle

/-!
# The bounded message queue behind one endpoint

A ring of message slots, each with room for some bytes and some handle entries. The number of
slots is the length of the list, as in the source's `[Message; D]`, and the sizes of a message
are the lengths of its two arrays. An array of `D` slots fits the address space, so `head`
plus an offset does not wrap.
-/

namespace Kintane

structure Message where
  bytes : List UInt8
  len : Nat
  /-- Packed from index 0; the first `none` ends the list. -/
  handles : List (Option Entry)

namespace Message

def empty (b h : Nat) : Message := ⟨List.replicate b 0, 0, List.replicate h none⟩

variable (m : Message)

/-- `bytes()`. -/
def data : List UInt8 := if m.len ≤ m.bytes.length then m.bytes.take m.len else []

def entries : List Entry := (m.handles.takeWhile Option.isSome).filterMap id

def handleCount : Nat := m.entries.length

end Message

structure Inbox where
  slots : List Message
  head : Nat
  len : Nat

/-- Write entries into the handle positions of a slot in order, as far as there are any. -/
def stageInto : List (Option Entry) → List Entry → List (Option Entry)
  | [], _ => []
  | dsts, [] => dsts
  | _ :: dsts, e :: es => some e :: stageInto dsts es

namespace Inbox

/-- The source asserts `D > 0`. -/
def new (d b h : Nat) : Inbox := ⟨List.replicate d (Message.empty b h), 0, 0⟩

variable (q : Inbox)

def isFull : Bool := q.slots.length ≤ q.len

def index (offset : Nat) : Nat := (q.head + offset) % q.slots.length

def front : Option Message := if q.len = 0 then none else q.slots[q.head]?

def vacant : Option Nat := if q.isFull then none else some (q.index q.len)

def stage (index : Nat) (entries : List Entry) : Inbox :=
  match q.slots[index]? with
  | none => q
  | some m => { q with slots := q.slots.set index { m with handles := stageInto m.handles entries } }

/-- Write the bytes of a message into the vacant slot `index` and append it to the queue. -/
def commit (index : Nat) (bytes : List UInt8) : Inbox :=
  let len := min (q.len + 1) q.slots.length
  match q.slots[index]? with
  | none => { q with len }
  | some m =>
    let n := min bytes.length m.bytes.length
    { q with
      slots := q.slots.set index { m with bytes := bytes.take n ++ m.bytes.drop n, len := n }
      len }

def takeFront : Inbox × Option (List (Option Entry)) :=
  if q.len = 0 then (q, none)
  else match q.slots[q.head]? with
    | none => ({ q with head := q.index 1, len := q.len - 1 }, none)
    | some m =>
      ({ slots := q.slots.set q.head { m with len := 0, handles := m.handles.map fun _ => none }
         head := q.index 1
         len := q.len - 1 }, some m.handles)

def discardFront : Inbox := q.takeFront.1

/-- The queued messages, front first. -/
def messages : List Message := (List.range q.len).filterMap fun i => q.slots[q.index i]?

end Inbox

/-! ## What the queue holds -/

/-- What a message carries: all that is seen of it outside the ring. -/
structure Packet where
  bytes : List UInt8
  entries : List Entry

def Message.packet (m : Message) : Packet := ⟨m.data, m.entries⟩

def Inbox.packets (q : Inbox) : List Packet := q.messages.map Message.packet

/-- The slots of the queue are packed, and the others hold no entry: an entry is in a slot
exactly while the slot is part of the queue. -/
structure Inbox.Ok (d b h : Nat) (q : Inbox) : Prop where
  length : q.slots.length = d
  pos : 0 < d
  head : q.head < d
  len : q.len ≤ d
  bytes : ∀ m ∈ q.slots, m.bytes.length = b
  handles : ∀ m ∈ q.slots, m.handles.length = h
  clear : ∀ i, q.len ≤ i → i < d → ∀ m, Ring.at? q.slots (q.head + i) = some m →
    ∀ e ∈ m.handles, e = none
  packed : ∀ i < q.len, ∀ m, Ring.at? q.slots (q.head + i) = some m →
    m.len ≤ b ∧ m.handles = m.entries.map some ++ List.replicate (h - m.entries.length) none

end Kintane
