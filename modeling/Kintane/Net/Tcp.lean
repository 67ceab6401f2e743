import Kintane.Net.Output
import Kintane.Net.Pool

/-!
# Every connection

The table of connections, the SYNs that wait for a connection to be made, and the resets that wait
to be sent, with the calls of the stack and of programs. Each call takes the buffer pool where the
source does.
-/

namespace Kintane

/-- A connection as its owner names it: a slot, and the generation of what holds it. -/
structure Conn where
  index : Nat
  generation : Nat
  deriving DecidableEq

structure Tcp where
  tcbs : List Tcb
  syns : List (Option Syn)
  resets : List (Option OutSegment)
  /-- The next ephemeral port, zero until the first connection chooses where to start. -/
  nextPort : Nat

namespace Tcp

def ephemeralFirst : Nat := 49152

def portMax : Nat := 2 ^ 16 - 1

def new : Tcp where
  tcbs := List.replicate Net.connections .empty
  syns := List.replicate Net.backlog none
  resets := List.replicate Net.resets none
  nextPort := 0

variable (s : Tcp)

def get (c : Conn) : Option Tcb :=
  (s.tcbs[c.index]?).filter fun t => t.active && t.generation = c.generation

def put (i : Nat) (t : Tcb) : Tcp := { s with tcbs := s.tcbs.set i t }

/-! ## Opening -/

/-- A TIME-WAIT connection whose slot may be given up. -/
def evictable (t : Tcb) : Bool :=
  t.state = .timeWait && t.released && t.rx.buf.isNone && t.tx.buf.isNone

/-- The first of the TIME-WAIT connections that end first, with its slot. -/
def nearestEnd (tcbs : List Tcb) : Option (Nat × Nat) :=
  tcbs.zipIdx.foldl (fun best (t, i) =>
    if evictable t then
      match best with
      | none => some (i, t.timeWaitUntil)
      | some (j, least) => if t.timeWaitUntil < least then some (i, t.timeWaitUntil) else some (j, least)
    else best) none

/-- A free slot, giving up the TIME-WAIT connection nearest its end if there is none. -/
def slot : Option Nat × Tcp :=
  match s.tcbs.findIdx? (!·.active) with
  | some i => (some i, s)
  | none =>
    match nearestEnd s.tcbs with
    | none => (none, s)
    | some (i, _) => (some i, { s with tcbs := s.tcbs.modify i fun t => { t with active := false } })

def portInUse (port : Nat) : Bool := s.tcbs.any fun t => t.active && t.localPort = port

/-- Where the ephemeral ports start: from the clock, at the first connection. -/
def firstPort (now : Nat) : Nat :=
  if s.nextPort = 0 then
    ephemeralFirst + now * 0x9e3779b97f4a7c15 % 2 ^ 64 % (portMax - ephemeralFirst + 1)
  else s.nextPort

/-- Ports in turn, until one is free. -/
def searchPort : Nat → Nat → Option Nat × Nat
  | 0, port => (none, port)
  | n + 1, port =>
    let next := if port = portMax then ephemeralFirst else port + 1
    if s.portInUse port then searchPort n next else (some port, next)

def ephemeral (now : Nat) : Option Nat × Tcp :=
  let (port, next) := s.searchPort (portMax - ephemeralFirst + 1) (s.firstPort now)
  (port, { s with nextPort := next })

def iss (now localPort remotePort : Nat) : Seq :=
  BitVec.ofNat 32 (now / 4000) ^^^
    ((BitVec.ofNat 32 localPort <<< 16 ||| BitVec.ofNat 32 remotePort) * 0x9e3779b9)

def install (i : Nat) (t : Tcb) : Conn × Tcp :=
  let generation := ((s.tcbs[i]?.map (·.generation)).getD 0 + 1) % 2 ^ 32
  (⟨i, generation⟩, s.put i { t with generation, active := true })

def connect (p : Pool) (remoteIp : Ipv4Addr) (remotePort now : Nat) :
    Tcp × Pool × Except TcpError Conn :=
  match s.slot with
  | (none, s) => (s, p, .error .noRoom)
  | (some i, s) =>
    match s.ephemeral now with
    | (none, s) => (s, p, .error .portInUse)
    | (some port, s) =>
      match p.takeTwo with
      | (none, p) => (s, p, .error .noRoom)
      | (some (rx, tx), p) =>
        let (c, s) := s.install i
          (.connecting port remoteIp remotePort (iss now port remotePort) rx tx)
        (s, p, .ok c)

def listening (port : Nat) : Bool :=
  s.tcbs.any fun t => t.active && t.state = .listen && t.localPort = port

def listen (port : Nat) : Tcp × Except TcpError Conn :=
  if port = 0 ∨ s.listening port then (s, .error .portInUse)
  else
    match s.slot with
    | (none, s) => (s, .error .noRoom)
    | (some i, s) =>
      let (c, s) := s.install i (.listening port)
      (s, .ok c)

/-- A connection of the listener in slot `i` that nobody has accepted. -/
def unaccepted (i : Nat) (t : Tcb) : Bool := t.active && t.parent = some i && !t.accepted

def accept (listener : Conn) : Tcp × Except TcpError Conn :=
  match s.get listener with
  | none => (s, .error .badConnection)
  | some l =>
    if l.state ≠ .listen then (s, .error .wrongState)
    else
      match s.tcbs.findIdx? fun t => unaccepted listener.index t && t.state.synchronized with
      | none => (s, .error .wouldBlock)
      | some i =>
        match s.tcbs[i]? with
        | none => (s, .error .wouldBlock)
        | some t => (s.put i { t with accepted := true, parent := none }, .ok ⟨i, t.generation⟩)

/-! ## A program's calls -/

def send (p : Pool) (c : Conn) (data : List UInt8) : Tcp × Pool × Except TcpError Nat :=
  match s.get c with
  | none => (s, p, .error .badConnection)
  | some t =>
    match t.tx.buf.bind fun b => (p.buffer b).map (b, ·) with
    | some (b, ring) =>
      let (t, ring, res) := t.send ring data
      (s.put c.index t, p.write b ring, res)
    | none =>
      -- Without a buffer there is nothing to copy to.
      match t.send [] data with
      | (_, _, .ok (_ + 1)) => (s, p, .error .badConnection)
      | (_, _, res) => (s, p, res)

def recv (p : Pool) (c : Conn) (size : Nat) : Tcp × Except TcpError (List UInt8) :=
  match s.get c with
  | none => (s, .error .badConnection)
  | some t =>
    match t.rx.buf.bind p.buffer with
    | some ring =>
      let (t, res) := t.recv ring size
      (s.put c.index t, res)
    | none =>
      if 0 < min size t.rx.len then (s, .error .badConnection) else (s, (t.recv [] size).2)

def shutdown (c : Conn) : Tcp × Except TcpError Unit :=
  match s.get c with
  | none => (s, .error .badConnection)
  | some t => (s.put c.index t.shutdown, .ok ())

/-- Reset a connection that a listener never handed out. -/
def resetChild (t : Tcb) : Tcb := { t with rstNow := t.state ≠ TcpState.closed }.enter .closed

/-- Reset the connections of the listener in slot `i` that nobody accepted. -/
def resetChildren (i : Nat) : Tcp :=
  { s with tcbs := s.tcbs.map fun t => if unaccepted i t then resetChild t else t }

def close (c : Conn) : Tcp × Except TcpError Unit :=
  match s.get c with
  | none => (s, .error .badConnection)
  | some t =>
    let s := if t.state = .listen then s.resetChildren c.index else s
    match s.get c with
    | none => (s, .error .badConnection)
    | some t => (s.put c.index t.closeOwn, .ok ())

def abort (c : Conn) : Tcp × Except TcpError Unit :=
  match s.get c with
  | none => (s, .error .badConnection)
  | some t => (s.put c.index t.abort, .ok ())

/-! ## Ending -/

def giveRing (p : Pool) (r : TcpRing) : TcpRing × Pool :=
  match r.buf with
  | none => (r, p)
  | some b => (.none, (p.give b).2)

/-- A connection that is over and that nobody owns any more. -/
def finished (t : Tcb) : Bool :=
  t.active && (t.released || (t.parent.isSome && !t.accepted)) &&
    (t.state = .closed || t.state = .timeWait) && !t.rstNow

def reapOne (p : Pool) (t : Tcb) : Tcb × Pool :=
  if finished t then
    let (rx, p) := giveRing p t.rx
    let (tx, p) := giveRing p t.tx
    ({ t with rx, tx, active := t.state ≠ .closed }, p)
  else (t, p)

def reapAll (p : Pool) : List Tcb → List Tcb × Pool
  | [] => ([], p)
  | t :: ts =>
    let (t, p) := reapOne p t
    let (ts, p) := reapAll p ts
    (t :: ts, p)

/-- Give back the buffers of connections that are over, and free their slots. -/
def reap (p : Pool) : Tcp × Pool :=
  let (tcbs, p) := reapAll p s.tcbs
  ({ s with tcbs }, p)

def timers (now : Nat) : Tcp :=
  { s with tcbs := s.tcbs.map fun t => if t.active then t.timers now else t }

/-! ## Segments -/

def belongs (src : Ipv4Addr) (seg : TcpSegment) (t : Tcb) : Bool :=
  t.active && t.state ≠ .listen && t.localPort = seg.dstPort && t.remotePort = seg.srcPort &&
    t.remoteIp = src

/-- The reset that a segment is answered with. -/
def resetFor (src : Ipv4Addr) (seg : TcpSegment) : OutSegment where
  remoteIp := src
  header := {
    srcPort := seg.dstPort
    dstPort := seg.srcPort
    seq := if seg.hasAck then seg.ack else 0
    ack := if seg.hasAck then 0 else seg.seq + BitVec.ofNat 32 seg.len
    hasSyn := false
    hasFin := false
    hasRst := true
    hasAck := !seg.hasAck
    hasPsh := false
    window := 0
    mss := none
    sackPermitted := false
    sack := List.replicate Net.sackBlocks none }
  data := none

/-- The first empty slot is filled. -/
def fillFirst {α : Type} (slots : List (Option α)) (a : α) : List (Option α) :=
  match slots.findIdx? Option.isNone with
  | none => slots
  | some i => slots.set i (some a)

/-- The first full slot is emptied. -/
def takeFirst {α : Type} : List (Option α) → Option α × List (Option α)
  | [] => (none, [])
  | none :: slots =>
    let (a, slots) := takeFirst slots
    (a, none :: slots)
  | some a :: slots => (some a, none :: slots)

def queueReset (src : Ipv4Addr) (seg : TcpSegment) : Tcp :=
  if seg.hasRst then s else { s with resets := fillFirst s.resets (resetFor src seg) }

/-- The SYN a segment for a listener's port is. -/
def synOf (listener : Nat) (src : Ipv4Addr) (seg : TcpSegment) : Syn where
  listener
  remoteIp := src
  remotePort := seg.srcPort
  localPort := seg.dstPort
  irs := seg.seq
  window := seg.window
  mss := seg.mss.getD Net.defaultMss
  sackOk := seg.sackPermitted

/-- A segment for no connection. -/
def unmatched (src : Ipv4Addr) (seg : TcpSegment) : Tcp :=
  match s.tcbs.findIdx? fun t => t.active && t.state = .listen && t.localPort = seg.dstPort with
  | none => s.queueReset src seg
  | some listener =>
    if seg.hasSyn && !seg.hasAck && !seg.hasRst then
      let syn := synOf listener src seg
      if s.syns.any fun slot => slot.any fun q =>
          q.remoteIp = syn.remoteIp && q.remotePort = syn.remotePort && q.localPort = syn.localPort then s
      else { s with syns := fillFirst s.syns syn }
    else s.queueReset src seg

def input (src : Ipv4Addr) (seg : TcpSegment) (start now : Nat) : Tcp × Option Deliver :=
  match s.tcbs.findIdx? (belongs src seg) with
  | none => (s.unmatched src seg, none)
  | some i =>
    match s.tcbs[i]? with
    | none => (s, none)
    | some t =>
      let (t, outcome) := t.segment seg start now
      let s := s.put i t
      (if outcome.reset then s.queueReset src seg else s, outcome.deliver)

/-- The next reset waiting to be sent for a segment that matched no connection. -/
def takeReset : Option OutSegment × Tcp :=
  let (reset, resets) := takeFirst s.resets
  (reset, { s with resets })

def takeSyn : Option Syn × Tcp :=
  let (syn, syns) := takeFirst s.syns
  (syn, { s with syns })

def openPassive (p : Pool) (syn : Syn) (now : Nat) : Tcp × Pool × Bool :=
  let isListening := (s.tcbs[syn.listener]?).any fun t =>
    t.active && t.state = .listen && t.localPort = syn.localPort
  if !isListening || decide (Net.backlog ≤ s.tcbs.countP (unaccepted syn.listener)) then (s, p, false)
  else
    match s.slot with
    | (none, s) => (s, p, false)
    | (some i, s) =>
      match p.takeTwo with
      | (none, p) => (s, p, false)
      | (some (rx, tx), p) =>
        let (_, s) := s.install i (.opened syn (iss now syn.localPort syn.remotePort) rx tx)
        (s, p, true)

def nextSegment (i now : Nat) : Tcp × Option OutSegment :=
  match (s.tcbs[i]?).filter (·.active) with
  | none => (s, none)
  | some t =>
    let (t, out) := t.nextSegment now
    (s.put i t, out)

end Tcp

end Kintane
