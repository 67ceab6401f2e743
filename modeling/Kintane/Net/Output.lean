import Kintane.Net.Segment

/-!
# What a program does with a connection, and what the connection sends

Queueing and reading bytes through the rings, closing, the timers, and the next segment that a
connection has to send.
-/

namespace Kintane

/-! ## Rings -/

/-- Copy `data` into `ring` from position `start`, wrapping at its end. -/
def ringWrite (ring : List UInt8) (start : Nat) (data : List UInt8) : List UInt8 :=
  let start := start % Net.ring
  let data := data.take Net.ring
  let first := min data.length (Net.ring - start)
  let ring := ring.take start ++ data.take first ++ ring.drop (start + first)
  data.drop first ++ ring.drop (data.length - first)

/-- `n` bytes of `ring` from position `start`, wrapping at its end. -/
def ringRead (ring : List UInt8) (start n : Nat) : List UInt8 :=
  let start := start % Net.ring
  let n := min n Net.ring
  let first := min n (Net.ring - start)
  (ring.drop start).take first ++ ring.take (n - first)

namespace Tcb

variable (t : Tcb)

/-! ## The program's calls -/

def send (ring data : List UInt8) : Tcb × List UInt8 × Except TcpError Nat :=
  match t.error with
  | some e => (t, ring, .error e)
  | none =>
    if (t.state = .established ∨ t.state = .closeWait) ∧ !t.finQueued then
      let n := min data.length t.tx.free
      if n = 0 then
        (t, ring, if data = [] then .ok 0 else .error .wouldBlock)
      else
        ({ t with tx := { t.tx with len := t.tx.len + n } },
          ringWrite ring (t.tx.head + t.tx.len) (data.take n), .ok n)
    else if (t.state = .synSent ∨ t.state = .synReceived) ∧ !t.finQueued then
      (t, ring, .error .wouldBlock)
    else (t, ring, .error .wrongState)

/-- Read what has arrived into a buffer of `n` bytes. An empty result is the end of the stream,
unless the buffer is empty. -/
def recv (ring : List UInt8) (size : Nat) : Tcb × Except TcpError (List UInt8) :=
  let n := min size t.rx.len
  if 0 < n then
    let before := t.rxFree
    let t' := { t with rx := { t.rx with head := (t.rx.head + n) % Net.ring, len := t.rx.len - n } }
    -- A window that had shrunk below a segment is announced open again.
    (if before < Net.mss ∧ Net.mss ≤ t'.rxFree then { t' with ackNow := true } else t',
      .ok (ringRead ring t.rx.head n))
  else if size = 0 ∨ t.peerFin then (t, .ok [])
  else
    match t.error with
    | some e => (t, .error e)
    | none =>
      (t, match t.state with
        | .listen => .error .wrongState
        | .closed | .timeWait => .ok []
        | _ => .error .wouldBlock)

def shutdown : Tcb :=
  match t.state with
  | .listen => t.enter .closed
  | .synSent | .synReceived => { t with finQueued := true }
  | .established => { t with finQueued := true }.enter .finWait1
  | .closeWait => { t with finQueued := true }.enter .lastAck
  | _ => t

def abort : Tcb :=
  { t with
    rstNow := t.state.synchronized || decide (t.state = TcpState.synReceived)
    released := true }.enter .closed

/-- Let go of the connection: what `close` does to it, after a listener's children. -/
def closeOwn : Tcb :=
  if 0 < t.rx.len then t.abort
  else
    let t := { t with released := true }
    match t.state with
    | .synSent | .listen => t.enter .closed
    | _ => t.shutdown

/-! ## Timers -/

def timeout (now : Nat) : Tcb :=
  if t.sndUna = t.sndMax then
    -- Nothing in flight: this was the window probe's timer.
    { t with probe := true, deadline := none }
  else
    let t := { t with retries := t.retries + 1 }
    if Net.maxRetries < t.retries then
      { t with error := some .timedOut, rstNow := t.state.synchronized }.enter .closed
    else
      let t := t.collapse
      let rto := min (satMul Net.u64Max t.rto 2) Net.rtoMax
      { t with
        sndNxt := t.sndUna
        rto
        deadline := some (satAdd Net.u64Max now rto) }

def timers (now : Nat) : Tcb :=
  let t := if t.state = .timeWait ∧ t.timeWaitUntil ≤ now then t.enter .closed else t
  match t.deadline with
  | none => t
  | some deadline => if now < deadline then t else t.timeout now

end Tcb

/-! ## Sending -/

structure TcpHeader where
  srcPort : Nat
  dstPort : Nat
  seq : Seq
  ack : Seq
  hasSyn : Bool
  hasFin : Bool
  hasRst : Bool
  hasAck : Bool
  hasPsh : Bool
  window : Nat
  mss : Option Nat
  sackPermitted : Bool
  sack : List (Option (Seq × Seq))
  deriving DecidableEq

/-- `Segment`: a segment for the stack to send, with the part of the send ring it carries. -/
structure OutSegment where
  remoteIp : Ipv4Addr
  header : TcpHeader
  data : Option (Option Nat × Nat × Nat)
  deriving DecidableEq

/-- The first of the runs nearest to `rcv` that is not taken yet. -/
def nearestRun (rcv : Seq) (taken : List Nat) (slots : List (Option Run)) : Option (Nat × Run) :=
  slots.zipIdx.foldl (fun best (slot, i) =>
    match slot with
    | none => best
    | some r =>
      if i ∈ taken then best
      else
        match best with
        | none => some (i, r)
        | some (j, b) => if (r.seq - rcv).toNat < (b.seq - rcv).toNat then some (i, r) else some (j, b))
    none

/-- The blocks of a selective acknowledgement, nearest run first. -/
def sackRuns (rcv : Seq) (slots : List (Option Run)) : Nat → List Nat → List (Option (Seq × Seq))
  | 0, _ => []
  | n + 1, taken =>
    match nearestRun rcv taken slots with
    | none => List.replicate (n + 1) none
    | some (i, run) => some (run.seq, run.seq + run.len) :: sackRuns rcv slots n (i :: taken)

namespace Tcb

variable (t : Tcb)

def header : TcpHeader where
  srcPort := t.localPort
  dstPort := t.remotePort
  seq := t.sndNxt
  ack := t.rcvNxt
  hasSyn := false
  hasFin := false
  hasRst := false
  hasAck := true
  hasPsh := false
  window := min t.rxFree (2 ^ 16 - 1)
  mss := none
  sackPermitted := false
  sack :=
    if t.sackOk then sackRuns t.rcvNxt t.ooo Net.sackBlocks []
    else List.replicate Net.sackBlocks none

def sending : Bool :=
  match t.state with
  | .established | .closeWait | .finWait1 | .closing | .lastAck => true
  | _ => false

/-- How far `sndNxt` is into the send ring, and the bytes of it from there on. -/
def sent : Nat := (t.sndNxt - t.txSeq).toNat

def unsent : Nat := t.tx.len - t.sent

/-- Room up to a limit. -/
def upTo (limit : Seq) : Nat := if Seq.lt t.sndNxt limit then (limit - t.sndNxt).toNat else 0

/-- What the peer's window and the congestion window allow. -/
def usable : Nat :=
  let usable := min (t.upTo (t.sndUna + BitVec.ofNat 32 t.sndWnd))
    (t.upTo (t.sndUna + BitVec.ofNat 32 t.cwnd))
  if usable = 0 ∧ t.probe then 1 else usable

/-- Sending from before the highest byte sent is a retransmission. -/
def resending : Bool := Seq.lt t.sndNxt t.sndMax

/-- The length of the next data segment. -/
def dataLen : Nat :=
  let n := if t.resending ∧ t.recovering ∧ !t.resend then 0 else min (min t.unsent t.usable) t.seg
  match t.toNextBlock t.sndNxt with
  | some gap => if t.resending then min n gap else n
  | none => n

/-- A data segment of `n` bytes goes out. -/
def sendData (n now : Nat) : Tcb :=
  let again := t.resending
  let t := { t with probe := false, ackNow := false }
  let t := if again then { t with resend := false, timing := none } else t
  let t := t.advance n now
  -- Past whatever the peer already holds.
  if again then { t with sndNxt := t.firstHole t.sndNxt } else t

/-- The window is shut with nothing in flight: probe when this runs out. -/
def armProbe (now : Nat) : Tcb :=
  if 0 < t.unsent ∧ t.deadline = none then { t with deadline := some (satAdd Net.u64Max now t.rto) }
  else t

def finDue : Bool :=
  t.finQueued && t.sndNxt = t.txSeq + BitVec.ofNat 32 t.tx.len && t.finSeq.all (· = t.sndNxt)

/-- A bare acknowledgement, if one is owed. -/
def nextAck : Tcb × Option OutSegment :=
  if t.ackNow then ({ t with ackNow := false }, some ⟨t.remoteIp, t.header, none⟩) else (t, none)

/-- A SYN, in a state before the connection is established. -/
def nextSyn (now : Nat) : Tcb × Option OutSegment :=
  let header := t.header
  let t := { t with ackNow := false }
  if t.sndNxt ≠ t.iss then (t, none)
  else
    let header := { header with
      seq := t.iss
      mss := some Net.mss
      sackPermitted := true
      hasSyn := true
      hasAck := t.state ≠ .synSent
      ack := if t.state = .synSent then 0 else t.rcvNxt }
    (t.advance 1 now, some ⟨t.remoteIp, header, none⟩)

/-- Data or a FIN, or else an acknowledgement. -/
def nextText (now : Nat) : Tcb × Option OutSegment :=
  if 0 < t.unsent ∧ 0 < t.dataLen then
    (t.sendData t.dataLen now,
      some ⟨t.remoteIp, { t.header with hasPsh := true },
        some (t.tx.buf, (t.tx.head + t.sent) % Net.ring, t.dataLen)⟩)
  else
    let header := t.header
    let t := t.armProbe now
    if t.finDue then
      ({ t with ackNow := false, finSeq := some t.sndNxt }.advance 1 now,
        some ⟨t.remoteIp, { header with hasFin := true }, none⟩)
    else t.nextAck

/-- The next segment a connection has to send, with its state as though it was sent. -/
def nextSegment (now : Nat) : Tcb × Option OutSegment :=
  if t.rstNow then
    ({ t with rstNow := false }, some ⟨t.remoteIp, { t.header with hasRst := true }, none⟩)
  else
    match t.state with
    | .closed | .listen => (t, none)
    | .synSent | .synReceived => t.nextSyn now
    | _ => if t.sending then t.nextText now else t.nextAck

end Tcb

end Kintane
