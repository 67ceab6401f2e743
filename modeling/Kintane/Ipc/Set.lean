import Mathlib.Algebra.Order.Group.Multiset
import Kintane.Lib.Passes
import Kintane.Lib.Tally
import Kintane.Lib.Word
import Kintane.Ipc.Channel

/-!
# A set of channels, and its collector

Channels can carry one another's endpoints in their queues, and then keep one another open
with nobody outside to receive any of it. A set owns its channels and can see that: it counts
the copies of each endpoint that are in flight in its queues, marks what can be reached from
the endpoints held outside, and takes apart the other inboxes, round after round.

A sink is the list of the entries it was called with. The two loops of the collector have no
bound in the source. Here they are given one, and return `none` when it is not enough.
-/

namespace Kintane

structure Collected where
  rounds : Nat
  closed : Nat
  messages : Nat
  deriving DecidableEq

/-- One endpoint, as a collection round sees it. -/
structure Seen where
  refs : Nat
  isOpen : Bool
  queued : Nat
  inFlight : Nat
  reachable : Bool

def Seen.none : Seen := ⟨0, false, 0, 0, false⟩

/-- `[[Seen; 2]; CAP]`. -/
abbrev Marks := Nat × Side → Seen

/-- Every entry in a queued message, with the side whose inbox holds it. -/
def Channel.forEachQueued (c : Channel) : List (Side × Entry) :=
  (c.queued .a).map (fun e => (Side.a, e)) ++ (c.queued .b).map (fun e => (Side.b, e))

/-- Slots for channels; `CAP` is the length of the list. -/
structure ChannelSet where
  channels : List (Option Channel)

namespace ChannelSet

def new (cap : Nat) : ChannelSet := ⟨List.replicate cap none⟩

variable (set : ChannelSet)

def channel (index : Nat) : Option Channel := set.channels[index]?.join

/-- The channel at `index` after something was done to it. -/
def put (index : Nat) (c : Channel) : ChannelSet := ⟨set.channels.set index (some c)⟩

def finished (c : Channel) : Bool :=
  [Side.a, Side.b].all fun s => !(c.ends s).isOpen && (c.ends s).inbox.len == 0

def vacant (slot : Option Channel) : Bool :=
  match slot with
  | none => true
  | some c => finished c

def create (a b depth maxBytes maxHandles : Nat) (rights : Rights) :
    Option (ChannelSet × Nat × List Entry) :=
  match set.channels.findIdx? vacant with
  | none => none
  | some index =>
    let (channel, entries) := Channel.new a b depth maxBytes maxHandles rights
    some (set.put index channel, index, entries)

def find (object : Nat) : Option (Nat × Side) :=
  set.channels.zipIdx.findSome? fun (c, i) => (c.bind (·.sideOf object)).map fun s => (i, s)

/-- The endpoint of the set that an entry names. -/
def named (entry : Entry) : Option (Nat × Side) :=
  if entry.kind ≠ .channel then none else set.find entry.object

/-! ## Marking -/

/-- References, whether it is open and what is queued, for each endpoint. -/
def endStates : Marks := fun (i, s) =>
  match set.channel i with
  | none => .none
  | some c =>
    { Seen.none with
      refs := (c.ends s).refs
      isOpen := (c.ends s).isOpen
      queued := (c.ends s).inbox.len }

/-- One more copy of an endpoint in flight. -/
def countEntry (seen : Marks) (p : Side × Entry) : Marks :=
  match set.named p.2 with
  | none => seen
  | some at? =>
    Function.update seen at?
      { seen at? with inFlight := satAdd u32Max (seen at?).inFlight 1 }

def countInFlight (seen : Marks) : Marks :=
  set.channels.foldl (fun seen slot =>
    match slot with
    | none => seen
    | some c => c.forEachQueued.foldl set.countEntry seen) seen

/-- An open endpoint with more references than copies in flight is held from outside. -/
def roots (seen : Marks) : Marks := fun p =>
  { seen p with reachable := (seen p).isOpen && (seen p).refs != (seen p).inFlight }

/-- What is queued in a reachable inbox is reachable; with whether anything was marked. -/
def markEntry (holder : Side → Seen) (acc : Marks × Bool) (p : Side × Entry) : Marks × Bool :=
  if (holder p.1).reachable && (holder p.1).isOpen then
    match set.named p.2 with
    | none => acc
    | some at? =>
      if (acc.1 at?).reachable then acc
      else (Function.update acc.1 at? { acc.1 at? with reachable := true }, true)
  else acc

def markPass (seen : Marks) : Marks × Bool :=
  set.channels.zipIdx.foldl (fun acc (slot, i) =>
    match slot with
    | none => acc
    | some c => c.forEachQueued.foldl (set.markEntry fun s => acc.1 (i, s)) acc) (seen, false)

def mark : Marks :=
  passes set.markPass (2 * set.channels.length) (roots (set.countInFlight set.endStates))

/-! ## Sweeping -/

/-- The endpoints of the slots, in order. -/
def endpoints : List (Nat × Side) :=
  (List.range set.channels.length).flatMap fun i => [(i, .a), (i, .b)]

/-- An open endpoint that is not reachable, or a closed one with messages. -/
def isDead (e : Seen) : Bool := e.isOpen && !e.reachable || !e.isOpen && 0 < e.queued

def dead : List (Nat × Side) :=
  let seen := set.mark
  set.endpoints.filter fun p => isDead (seen p)

end ChannelSet

/-- A collection in progress: the set, the calls of the sink, and the counts. -/
structure Sweep where
  set : ChannelSet
  sunk : List Entry
  done : Collected

namespace Sweep

variable (w : Sweep)

/-- Release an entry that names an endpoint of the set, and hand any other to the sink. -/
def dispose (entry : Entry) : Sweep :=
  match (w.set.named entry).bind fun p => (w.set.channel p.1).map fun t => (p.1, t) with
  | none => { w with sunk := w.sunk ++ [entry] }
  | some (j, t) =>
    match t.releaseKeepingInbox entry with
    | (t', .ok true) =>
      { w with set := w.set.put j t', done := { w.done with closed := w.done.closed + 1 } }
    | (t', _) => { w with set := w.set.put j t' }

def takeApart (i : Nat) (s : Side) : Nat → Sweep → Option Sweep
  | 0, _ => none
  | fuel + 1, w =>
    match w.set.channel i with
    | none => some w
    | some c =>
      match c.takeMessage s with
      | (c', none) => some { w with set := w.set.put i c' }
      | (c', some entries) =>
        takeApart i s fuel ((entries.filterMap id).foldl dispose
          { w with
            set := w.set.put i c'
            done := { w.done with messages := w.done.messages + 1 } })

def takeAll (fuel : Nat) : List (Nat × Side) → Sweep → Option Sweep
  | [], w => some w
  | p :: rest, w =>
    match takeApart p.1 p.2 fuel w with
    | none => none
    | some w' => takeAll fuel rest w'

/-- Rounds of marking and sweeping, until one finds nothing to take apart. -/
def rounds (fuel : Nat) : Nat → Sweep → Option Sweep
  | 0, _ => none
  | n + 1, w =>
    let dead := w.set.dead
    if dead.isEmpty then some w
    else
      match takeAll fuel dead { w with done := { w.done with rounds := w.done.rounds + 1 } } with
      | none => none
      | some w' =>
        -- Taken for wrong counts by the source, which then stops.
        if w'.done.messages = w.done.messages ∧ w'.done.closed = w.done.closed then some w'
        else rounds fuel n w'

end Sweep

namespace ChannelSet

variable (set : ChannelSet)

def collect (fuel : Nat) : Option Sweep := Sweep.rounds fuel fuel ⟨set, [], ⟨0, 0, 0⟩⟩

def release (entry : Entry) (fuel : Nat) : Except ChannelError (Option Sweep) :=
  if entry.kind ≠ .channel then .error (.endpoint (.wrongType .channel entry.kind))
  else match set.find entry.object with
    | none => .error .notThisChannel
    | some (index, _) =>
      match set.channel index with
      | none => .error .notThisChannel
      | some c =>
        match c.releaseKeepingInbox entry with
        | (_, .error e) => .error e
        | (c', .ok _) => .ok ((set.put index c').collect fuel)

/-- Close an endpoint handle in `table`, then collect whatever that stranded. -/
def close (table : HandleTable) (endpoint : Handle) (fuel : Nat) :
    HandleTable × Except ChannelError (Option Sweep) :=
  match table.getChecked endpoint .channel .empty with
  | .error e => (table, .error (.endpoint e))
  | .ok entry =>
    match set.find entry.object with
    | none => (table, .error .notThisChannel)
    | some _ =>
      match table.close endpoint with
      | (table', .error e) => (table', .error (.endpoint e))
      | (table', .ok entry) => (table', set.release entry fuel)

def messages : Nat :=
  Tally.total (fun slot : Option Channel =>
    match slot with
    | none => 0
    | some c => (c.ends .a).inbox.len + (c.ends .b).inbox.len) set.channels

end ChannelSet

end Kintane
