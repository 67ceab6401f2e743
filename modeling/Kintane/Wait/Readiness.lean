import Kintane.Wait.QueueInv

/-!
# Waiting on several objects

A wait over a set of objects registers on one queue, which every change that could make an object ready wakes.
A change followed by its wake is seen by every waiter. `signal_event`, `post` and `on_process_exit` wake the
queue before they make their change: a thread that registers and looks between the two is not woken by them.
Receiving from a channel wakes nobody, though the other end may be writable only then.
-/

namespace Kintane.Wait

namespace Readiness

def readBit : Nat := 1
def writeBit : Nat := 2
def errorBit : Nat := 4
def closedBit : Nat := 8

def queueDepth : Nat := 8

inductive Kind where
  | process
  | channel
  | completion
  | event
  | other
  deriving DecidableEq

/-- What a channel says of one of its ends. -/
structure Status where
  queued : Nat
  writable : Bool
  peerClosed : Bool
  deriving DecidableEq

inductive Object where
  | free
  | event (signalled : Bool)
  /-- Keys and values, the oldest first. -/
  | completion (ring : List (Nat × Nat))
  /-- `waiter` says where to post the exit, and under what key. -/
  | process (slot : Nat) (exited : Bool) (code : Nat) (waiter : Option (Nat × Nat))
  | endpoint (channel : Nat) (status : Status)
  | other
  deriving DecidableEq

/-- An object's cell, and whether the store still finds it. -/
structure Cell where
  object : Object
  live : Bool
  deriving DecidableEq

/-- Every object, by its identity; identities are not used again. -/
abbrev Objects := List Cell

structure Rights where
  read : Bool
  write : Bool
  wait : Bool
  deriving DecidableEq

structure Entry where
  object : Nat
  kind : Kind
  rights : Rights
  deriving DecidableEq

structure Watch where
  entry : Entry
  interest : Nat
  deriving DecidableEq

def find (s : Objects) (id : Nat) : Option Object :=
  match s[id]? with
  | some c => if c.live then some c.object else none
  | none => none

def endpointReady (s : Objects) (id : Nat) : Nat :=
  match find s id with
  | some (.endpoint _ status) =>
    (if status.queued > 0 then readBit else 0) ||| (if status.writable then writeBit else 0) |||
      (if status.peerClosed then closedBit ||| readBit else 0)
  | _ => errorBit ||| closedBit

def objectReady (s : Objects) (e : Entry) : Nat :=
  if e.kind = .channel then endpointReady s e.object
  else
    match find s e.object with
    | some (.completion ring) => if ring.length > 0 then readBit else 0
    | some (.event signalled) => if signalled then readBit else 0
    | some (.process _ exited _ _) => if exited then readBit ||| closedBit else 0
    | some .free => errorBit
    | some _ => 0
    | none => errorBit

/-- The readiness of an object, narrowed to what the handle's rights allow. -/
def readyOf (s : Objects) (e : Entry) : Nat :=
  objectReady s e &&& (errorBit ||| closedBit ||| (if e.rights.read then readBit else 0) |||
    (if e.rights.write then writeBit else 0) ||| (if e.kind = .process ∧ e.rights.wait then readBit else 0))

def ready (s : Objects) (w : Watch) : Bool :=
  readyOf s w.entry &&& (w.interest ||| errorBit ||| closedBit) ≠ 0

/-! ## What threads do with objects -/

/-- Changes an object that the store finds. -/
def onObject (id : Nat) (f : Object → Object) (s : Objects) : Objects :=
  s.modify id fun c => if c.live then { c with object := f c.object } else c

def wake (rest : Prog Objects) : Prog Objects := .wake true rest

def post (queue key value : Nat) : Prog Objects :=
  wake <| .act (onObject queue fun
    | .completion ring => if queueDepth ≤ ring.length then .completion ring else .completion (ring ++ [(key, value)])
    | o => o) fun _ => .done

def signalEvent (id : Nat) : Prog Objects :=
  wake <| .act (onObject id fun
    | .event _ => .event true
    | o => o) fun _ => .done

def runsIn (slot : Nat) (c : Cell) : Bool :=
  match c.object with
  | .process s exited _ _ => s = slot ∧ exited = false
  | _ => false

def waiterOf (slot : Nat) (s : Objects) : Option (Nat × Nat) :=
  match s.find? (runsIn slot) with
  | some { object := .process _ _ _ waiter, .. } => waiter
  | _ => none

def exitProcess (slot code : Nat) (s : Objects) : Objects :=
  match s.findIdx? (runsIn slot) with
  | none => s
  | some i => s.modify i fun c => { c with object := .process slot true code none }

def onProcessExit (slot code : Nat) : Prog Objects :=
  wake <| .act (exitProcess slot code) fun s =>
    match waiterOf slot s with
    | some (queue, key) => post queue key code
    | none => .done

/-- The ends of a channel, under the channel's lock. -/
def onChannel (channel : Nat) (f : Nat → Status → Status) (s : Objects) : Objects :=
  s.mapIdx fun id c =>
    match c.object with
    | .endpoint ch status => if ch = channel then { c with object := .endpoint ch (f id status) } else c
    | _ => c

/-- A message sent, or another change of a channel that the channel's wake follows. -/
def changeChannel (channel : Nat) (f : Nat → Status → Status) : Prog Objects :=
  .act (onChannel channel f) fun _ => wake .done

/-- A message received: room for the other end, of which it is not told. -/
def receiveChannel (channel : Nat) (f : Nat → Status → Status) : Prog Objects :=
  .act (onChannel channel f) fun _ => .done

def isEnd (channel : Nat) (c : Cell) : Bool :=
  match c.object with
  | .endpoint ch _ => ch = channel
  | _ => false

/-- Whether the object is the last of its channel's ends. -/
def lastEnd (id : Nat) (s : Objects) : Bool :=
  match s[id]? with
  | some { object := .endpoint ch _, .. } => s.countP (isEnd ch) = 1
  | _ => false

def destroy (id : Nat) : Prog Objects :=
  wake <| .act (fun s => s.modify id ({ · with object := .free })) fun s => if lastEnd id s then wake .done else .done

/-- `retire`: the store does not find the object any more; without other references it is destroyed. -/
def retire (id : Nat) (last : Bool) : Prog Objects :=
  .act (fun s => s.modify id ({ · with live := false })) fun _ => if last then destroy id else .done

/-- `release` and `close_endpoint`, with `after_release`: an end that this closed is retired before
the channel's wake. The caller's reference to it goes later, and `destroy` with the last. -/
def closeEndpoint (id channel : Nat) (f : Nat → Status → Status) (closed : Bool) : Prog Objects :=
  .act (onChannel channel f) fun _ =>
    if closed then .act (fun s => s.modify id ({ · with live := false })) fun _ => wake .done
    else wake .done

def consumeEvent (id : Nat) : Prog Objects :=
  .act (onObject id fun
    | .event _ => .event false
    | o => o) fun _ => .done

def take (id : Nat) : Prog Objects :=
  .act (onObject id fun
    | .completion ring => .completion ring.tail
    | o => o) fun _ => .done

def create (o : Object) : Prog Objects := .act (fun s => s ++ [{ object := o, live := true }]) fun _ => .done

/-- What a thread may begin; only an object that the store does not find any more is destroyed. -/
inductive Operation (s : Objects) : Prog Objects → Prop where
  | signalEvent (id : Nat) : Operation s (signalEvent id)
  | post (queue key value : Nat) : Operation s (post queue key value)
  | onProcessExit (slot code : Nat) : Operation s (onProcessExit slot code)
  | changeChannel (channel : Nat) (f : Nat → Status → Status) : Operation s (changeChannel channel f)
  | receiveChannel (channel : Nat) (f : Nat → Status → Status) : Operation s (receiveChannel channel f)
  | closeEndpoint (id channel : Nat) (f : Nat → Status → Status) (closed : Bool) :
    Operation s (closeEndpoint id channel f closed)
  | retire (id : Nat) (last : Bool) : Operation s (retire id last)
  | destroy (id : Nat) : find s id = none → Operation s (destroy id)
  | consumeEvent (id : Nat) : Operation s (consumeEvent id)
  | take (id : Nat) : Operation s (take id)
  | create (o : Object) : Operation s (create o)

/-- Threads wait for any sets; a change that its operation does not follow with a wake makes nothing ready that a
thread relies on. -/
def Allowed (w : World Objects Watch) : Action Objects Watch → Prop
  | .start p => Operation w.state p
  | .op j => ∀ f rest, w.ops[j]? = some (.run (.act f rest)) → w.Covers ready f (rest w.state)
  | _ => True

end Readiness

open Readiness in
/-- In every run in which no unfollowed change makes ready what a thread relies on, a thread blocked while a
member of its set is ready has the operation that made it ready still to come to its slot. -/
theorem set_wait_woken {w : World Objects Watch} (h : Reached ready Allowed w) {t s : Nat} {x : Waiter Watch}
    {m : Watch} (ht : w.threads[t]? = some x) (hb : x.place = .blocked s) (hm : m ∈ x.set)
    (hready : ready w.state m = true) : ∃ op, w.ops[w.cause m]? = some op ∧ op.Pending s ∧ ¬op.Finished := by
  have hinv : Inv ready (fun _ => True) w := by
    clear ht hready
    induction h with
    | init state n => exact Inv.init state n
    | step a _ ha hs ih =>
      exact ih.step ⟨fun _ _ => trivial, fun _ => trivial⟩ hs (fun _ _ => trivial)
        fun j f rest hj hop => (hj ▸ ha : Allowed _ (.op j)) f rest hop
  obtain ⟨op, hop, hpend⟩ := hinv.pending_of_blocked ht hb hm hready
  exact ⟨op, hop, hpend, hpend.not_finished⟩

namespace Readiness

/-- A thread looks, registers, looks again and blocks. -/
def blocks (m : Watch) : List (Action Objects Watch) := .wait 0 [m] false true :: List.replicate 6 (.thread 0 false)

/-- One end of a channel, with nothing queued. -/
def oneEnd : Objects := [{ object := .endpoint 0 { queued := 0, writable := false, peerClosed := false }, live := true }]

def endWatch : Watch where
  entry := { object := 0, kind := .channel, rights := { read := true, write := false, wait := false } }
  interest := readBit

def sending : Prog Objects := changeChannel 0 fun _ status => { status with queued := 1 }

def sendingWorld : World Objects Watch :=
  ((World.init oneEnd 1).run ready (blocks endWatch ++ [.start sending])).get (by decide +kernel)

def sentWorld : World Objects Watch := (sendingWorld.step ready (.op 0)).get (by decide +kernel)

theorem reached_sentWorld : Reached ready Allowed sentWorld := by
  have hsending : Reached ready Allowed sendingWorld := by
    refine Reached.run (.init oneEnd 1) (fun a ha w => ?_) (Option.some_get (by decide +kernel)).symm
    rcases List.mem_append.mp ha with ha | ha
    · rcases List.mem_cons.mp ha with rfl | ha
      · trivial
      · rw [(List.mem_replicate.mp ha).2]
        trivial
    · rw [List.mem_singleton.mp ha]
      exact .changeChannel _ _
  refine .step (.op 0) hsending (fun f rest hop => ?_) (Option.some_get (by decide +kernel)).symm
  have hrun : sendingWorld.ops[0]? = some (.run sending) := rfl
  obtain ⟨rfl, rfl⟩ := Prog.act.inj (Op.run.inj (Option.some.inj (hrun.symm.trans hop)))
  exact fun _ _ _ _ _ => trivial

end Readiness

open Readiness in
theorem set_wait_woken_sent :
    ∃ op, sentWorld.ops[sentWorld.cause endWatch]? = some op ∧ op.Pending 0 ∧ ¬op.Finished :=
  set_wait_woken (x := { set := [endWatch], deadline := false, again := true, place := .blocked 0 }) (t := 0)
    reached_sentWorld rfl rfl List.mem_cons_self (by decide +kernel)

namespace Readiness

def objects : Objects := [{ object := .event false, live := true }]

def watch : Watch where
  entry := { object := 0, kind := .event, rights := { read := true, write := false, wait := false } }
  interest := readBit

/-- The signal's wake finds nobody; then the thread blocks; then the signal is made. -/
def missed : List (Action Objects Watch) := [.start (signalEvent 0), .op 0] ++ blocks watch ++ [.op 0]

def missedWorld : World Objects Watch := ((World.init objects 1).run ready missed).get (by decide +kernel)

end Readiness

open Readiness in
/-- The thread stays blocked, with the event signalled and the operation that signalled it finished. -/
theorem set_wait_missed : (World.init objects 1).run ready missed = some missedWorld ∧
    (∃ x, missedWorld.threads[0]? = some x ∧ x.place = .blocked 0 ∧ x.deadline = false ∧ watch ∈ x.set) ∧
    ready missedWorld.state watch = true ∧
    ∃ op, missedWorld.ops[missedWorld.cause watch]? = some op ∧ op.Finished := by
  refine ⟨(Option.some_get _).symm, ⟨_, rfl, rfl, rfl, List.mem_cons_self⟩, by decide +kernel, _, rfl, trivial⟩

end Kintane.Wait
