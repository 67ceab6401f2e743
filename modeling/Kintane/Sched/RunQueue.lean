import Mathlib.Algebra.Group.Nat.Defs
import Kintane.Lib.Links
import Kintane.Lib.Bits

/-!
# The run queue

Runnable threads, ordered by priority and then by arrival: slots of a fixed array, linked into one
list for each priority level, and a word whose bits say which levels have a thread.
-/

namespace Kintane

abbrev Priority := Fin 32

abbrev ThreadId := Nat

/-- A thread as it is queued. -/
abbrev Queued := ThreadId × Priority

inductive QueueError where
  | full
  | alreadyQueued
  | notQueued
  deriving DecidableEq

/-- `Slot` of a run queue. -/
structure QueueSlot (n : Nat) where
  id : ThreadId
  priority : Priority
  next : Option (Fin n)
  used : Bool

/-- `Level`: the ends of a level's list. -/
structure QueueLevel (n : Nat) where
  head : Option (Fin n)
  tail : Option (Fin n)

structure RunQueue (n : Nat) where
  slots : Fin n → QueueSlot n
  levels : Priority → QueueLevel n
  /-- Bit `p` is set when level `p` has a thread. -/
  nonempty : BitVec 32
  len : Nat

namespace RunQueue

variable {n : Nat}

def new (n : Nat) : RunQueue n :=
  ⟨fun _ => ⟨0, 0, none, false⟩, fun _ => ⟨none, none⟩, 0, 0⟩

variable (q : RunQueue n)

def isEmpty : Bool := q.len = 0

def find (id : ThreadId) : Option (Fin n) :=
  (List.finRange n).find? fun i => (q.slots i).used && (q.slots i).id = id

def contains (id : ThreadId) : Bool := (q.find id).isSome

def entry (i : Fin n) : Queued := ((q.slots i).id, (q.slots i).priority)

def next (i : Fin n) : Option (Fin n) := (q.slots i).next

def setSlot (i : Fin n) (s : QueueSlot n) : RunQueue n :=
  { q with slots := Function.update q.slots i s }

def setNext (i : Fin n) (next : Option (Fin n)) : RunQueue n :=
  q.setSlot i { q.slots i with next }

def setUnused (i : Fin n) : RunQueue n := q.setSlot i { q.slots i with used := false }

def setLevel (p : Priority) (level : QueueLevel n) : RunQueue n :=
  { q with levels := Function.update q.levels p level }

def clearBit (p : Priority) : RunQueue n := { q with nonempty := q.nonempty &&& ~~~Bits.one 32 p }

/-- Put a slot behind the last of its level. -/
def linkTail (i : Fin n) (p : Priority) : RunQueue n :=
  match (q.levels p).tail with
  | some t => (q.setNext t (some i)).setLevel p ⟨(q.levels p).head, some i⟩
  | none => q.setLevel p ⟨some i, some i⟩

def enqueue (id : ThreadId) (priority : Priority) : RunQueue n × Except QueueError Unit :=
  if q.contains id then (q, .error .alreadyQueued)
  else
    match (List.finRange n).find? fun i => !(q.slots i).used with
    | none => (q, .error .full)
    | some i =>
      let q := (q.setSlot i ⟨id, priority, none, true⟩).linkTail i priority
      ({ q with nonempty := q.nonempty ||| Bits.one 32 priority, len := q.len + 1 }, .ok ())

def highest : Option Priority := if q.nonempty = 0 then none else some (Bits.top q.nonempty)

def peek : Option Queued :=
  match q.highest with
  | none => none
  | some level => (q.levels level).head.map q.entry

/-- Lead what comes before a slot of level `p` past it: `prev`, or the head. -/
def relink (slot : Fin n) (p : Priority) (prev : Option (Fin n)) : RunQueue n :=
  match prev with
  | some b => q.setNext b (q.next slot)
  | none => q.setLevel p ⟨q.next slot, (q.levels p).tail⟩

/-- The tail, where it was the slot. -/
def retail (slot : Fin n) (p : Priority) (prev : Option (Fin n)) : RunQueue n :=
  if (q.levels p).tail = some slot then q.setLevel p ⟨(q.levels p).head, prev⟩ else q

/-- The bit of a level that may have become empty. -/
def settle (p : Priority) : RunQueue n := if (q.levels p).head = none then q.clearBit p else q

def unlinkHead (level : Priority) : RunQueue n :=
  match (q.levels level).head with
  | none => q
  | some head =>
    let next := q.next head
    let tail := if next = none then none else (q.levels level).tail
    ((q.setLevel level ⟨next, tail⟩).settle level).setNext head none

def pickNext : RunQueue n × Option Queued :=
  match q.highest with
  | none => (q, none)
  | some level =>
    match (q.levels level).head with
    | none => (q, none)
    | some head =>
      let q' := (q.unlinkHead level).setUnused head
      ({ q' with len := q'.len - 1 }, some (q.entry head))

/-- Remove a thread, wherever it is. The walk to the slot before it meets every slot at most
once. -/
def remove (id : ThreadId) : RunQueue n × Except QueueError Priority :=
  match q.find id with
  | none => (q, .error .notQueued)
  | some slot =>
    let priority := (q.slots slot).priority
    let prev := Links.findPrev q.next slot (n + 1) none (q.levels priority).head
    let q' := 
      ((((q.relink slot priority prev).retail slot priority prev).settle priority).setUnused
        slot).setNext slot none
    ({ q' with len := q'.len - 1 }, .ok priority)

/-- The rest of an iteration: the levels not started yet, and where in the current one it is. -/
def iterFrom : Nat → BitVec 32 → Option (Fin n) → List Queued
  | 0, _, _ => []
  | fuel + 1, levels, some c => q.entry c :: iterFrom fuel levels (q.next c)
  | fuel + 1, levels, none =>
    if levels = 0 then []
    else
      let level := Bits.top levels
      iterFrom fuel (levels &&& ~~~Bits.one 32 level) (q.levels level).head

/-- Every queued thread, in the order in which `pick_next` would take them: one step for each
slot, each level, and the end. -/
def iter : List Queued := q.iterFrom (n + 33) q.nonempty none

end RunQueue

end Kintane
