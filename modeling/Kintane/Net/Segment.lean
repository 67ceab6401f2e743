import Kintane.Net.Tcb

/-!
# A segment arrives

What one segment does to its connection: the sequence and acknowledgement checks, the
acknowledgement, the payload and the FIN, in the order of the source.
-/

namespace Kintane

open Net

/-- `wire::Tcp`: what was parsed of a segment. A segment is shorter than 64 KiB, since the
length field of the packet that carried it has 16 bits. -/
structure TcpSegment where
  srcPort : Nat
  dstPort : Nat
  seq : Seq
  ack : Seq
  hasSyn : Bool
  hasFin : Bool
  hasRst : Bool
  hasAck : Bool
  window : Nat
  mss : Option Nat
  sackPermitted : Bool
  sack : List (Option (Seq × Seq))
  payload : List UInt8
  payload_lt : payload.length < 2 ^ 16

theorem TcpSegment.empty_lt : ([] : List UInt8).length < 2 ^ 16 := by decide

/-- Payload to copy from offset `start` of the frame to position `position` of the ring. -/
structure Deliver where
  ring : Option Nat
  position : Nat
  start : Nat
  len : Nat
  deriving DecidableEq

/-- What one segment did to its connection, beyond its state. -/
structure Outcome where
  deliver : Option Deliver
  reset : Bool
  deriving DecidableEq

/-- `Outcome::default()`. -/
def Outcome.none : Outcome := ⟨.none, false⟩

/-- Whether a segment of `len` at `seq` overlaps a window of `wnd` at `rcvNxt`. -/
def acceptable (rcvNxt : Seq) (wnd : Nat) (seq : Seq) (len : Nat) : Bool :=
  let inside := fun s : Seq => decide ((s - rcvNxt).toNat < wnd)
  if wnd = 0 then seq == rcvNxt
  else if len = 0 then inside seq
  else inside seq || inside (seq + BitVec.ofNat 32 (len - 1))

def TcpSegment.len (seg : TcpSegment) : Nat :=
  seg.payload.length + seg.hasSyn.toNat + seg.hasFin.toNat

namespace Tcb

variable (t : Tcb) (seg : TcpSegment)

def segmentSynSent (now : Nat) : Tcb × Outcome :=
  if seg.hasAck ∧ seg.ack ≠ t.iss + 1 then (t, { Outcome.none with reset := !seg.hasRst })
  else if seg.hasRst then
    if seg.hasAck then ({ t with error := some .reset }.enter .closed, .none) else (t, .none)
  else if !seg.hasSyn then (t, .none)
  else
    let t := { t with
      rcvNxt := seg.seq + 1
      mss := min (max (seg.mss.getD Net.defaultMss) 1) Net.mss
      sackOk := seg.sackPermitted
      sndWnd := seg.window
      ackNow := true }
    if seg.hasAck then ((t.acknowledge seg.ack now).establish, .none)
    else
      -- Both ends opened at once.
      ({ t.enter .synReceived with sndNxt := t.iss }, .none)

def duplicateAck : Tcb :=
  let t := { t with dupAcks := (t.dupAcks + 1) % 2 ^ 32 }
  let t := if t.sackOk then t.recordSack seg.sack else t
  if t.recovering then { t with cwnd := satAdd u32Limit t.cwnd t.seg }
  else if t.dupAcks = dupAckThreshold then t.beginRecovery
  else t

/-- An acknowledgement in a state after SYN-RECEIVED, of nothing that was not sent. -/
def takeAck (now : Nat) : Tcb :=
  let t' :=
    if Seq.lt t.sndUna seg.ack then t.acknowledge seg.ack now
    else if seg.ack = t.sndUna ∧ seg.payload = [] ∧ !seg.hasFin ∧ seg.window = t.sndWnd ∧
        t.sndUna ≠ t.sndMax then
      t.duplicateAck seg
    else t
  if Seq.le t'.sndUna seg.ack then { t' with sndWnd := seg.window } else t'

/-- The acknowledgement of an acceptable segment; with an outcome when it ends there. -/
def segmentAck (now : Nat) : Tcb × Option Outcome :=
  if t.state = .synReceived then
    if !(Seq.lt t.sndUna seg.ack && Seq.le seg.ack t.sndMax) then
      (t, some { Outcome.none with reset := true })
    else (({ t with sndWnd := seg.window }.acknowledge seg.ack now).establish, none)
  else if Seq.lt t.sndMax seg.ack then ({ t with ackNow := true }, some .none)
  else (t.takeAck seg now, none)

/-- What the acknowledgement of the FIN does to the state, and whether it ends there. -/
def segmentFinAcked (finAcked : Bool) (now : Nat) : Tcb × Bool :=
  match t.state with
  | .finWait1 => (if finAcked then t.enter .finWait2 else t, false)
  | .closing =>
    (if finAcked then
      { t.enter .timeWait with timeWaitUntil := satAdd u64Max now timeWait }
    else t, false)
  | .lastAck => if finAcked then (t.enter .closed, true) else (t, false)
  | _ => (t, false)

/-- Payload ahead of what is expected. -/
def takeAhead (start : Nat) : Tcb × Option Deliver :=
  let t := { t with ackNow := true }
  let ahead := (seg.seq - t.rcvNxt).toNat
  let take := min seg.payload.length (ring - (t.rx.len + ahead))
  if take = 0 then (t, none)
  else
    let position := (t.rx.head + t.rx.len + ahead) % ring
    match t.hold seg.seq (BitVec.ofNat 32 take) with
    | (t, true) => (t, some ⟨t.rx.buf, position, start, take⟩)
    | (t, false) => (t, none)

/-- Payload that is expected, or partly old; with the sequence number it was taken to. -/
def takeNext (start : Nat) : Tcb × Option Deliver × Seq :=
  let skip := (t.rcvNxt - seg.seq).toNat
  let take := min (seg.payload.length - skip) t.rx.free
  let takenTo := seg.seq + BitVec.ofNat 32 (skip + take)
  if 0 < take then
    let deliver : Deliver := ⟨t.rx.buf, (t.rx.head + t.rx.len) % ring, start + skip, take⟩
    let t := { t with
      rx := { t.rx with len := t.rx.len + take }
      rcvNxt := t.rcvNxt + BitVec.ofNat 32 take }
    ({ t.coalesce with ackNow := true }, some deliver, takenTo)
  else ({ t with ackNow := true }, none, takenTo)

def takeFin (finAcked : Bool) (now : Nat) : Tcb :=
  let t := { t with rcvNxt := t.rcvNxt + 1, peerFin := true, ackNow := true }
  let t :=
    match t.state with
    | .established => t.enter .closeWait
    | .finWait1 => if finAcked then t.enter .timeWait else t.enter .closing
    | .finWait2 => t.enter .timeWait
    | _ => t
  if t.state = .timeWait then { t with timeWaitUntil := satAdd u64Max now timeWait } else t

def receiving : Bool := t.state = .established || t.state = .finWait1 || t.state = .finWait2

/-- The FIN of a segment whose payload was taken to `takenTo`. -/
def segmentFin (takenTo : Seq) (finAcked : Bool) (now : Nat) : Tcb :=
  if seg.hasFin ∧ takenTo = seg.seq + BitVec.ofNat 32 seg.payload.length ∧ Seq.le takenTo t.rcvNxt then
    t.takeFin finAcked now
  else t

def segmentText (finAcked : Bool) (start now : Nat) : Tcb × Outcome :=
  if seg.payload ≠ [] ∧ t.receiving then
    if Seq.lt t.rcvNxt seg.seq then
      let (t, deliver) := t.takeAhead seg start
      (t, ⟨deliver, false⟩)
    else
      let (t, deliver, takenTo) := t.takeNext seg start
      (t.segmentFin seg takenTo finAcked now, ⟨deliver, false⟩)
  else
    (t.segmentFin seg (seg.seq + BitVec.ofNat 32 seg.payload.length) finAcked now, .none)

def segmentOutside : Tcb × Outcome :=
  if seg.hasRst then (t, .none)
  else
    let t := { t with ackNow := true }
    -- The peer did not see our SYN and acknowledgement.
    (if t.state = .synReceived ∧ seg.hasSyn then { t with sndNxt := t.iss } else t, .none)

def segmentOpen (start now : Nat) : Tcb × Outcome :=
  if !acceptable t.rcvNxt t.rxFree seg.seq seg.len then t.segmentOutside seg
  else if seg.hasRst then
    if seg.seq = t.rcvNxt then ({ t with error := some .reset }.enter .closed, .none)
    else ({ t with ackNow := true }, .none)
  else if seg.hasSyn then ({ t with ackNow := true }, .none)
  else if !seg.hasAck then (t, .none)
  else
    match t.segmentAck seg now with
    | (t, some out) => (t, out)
    | (t, none) =>
      let finAcked := t.finAcknowledged
      match t.segmentFinAcked finAcked now with
      | (t, true) => (t, .none)
      | (t, false) => t.segmentText seg finAcked start now

def segment (start now : Nat) : Tcb × Outcome :=
  match t.state with
  | .synSent => t.segmentSynSent seg now
  | .closed | .listen => (t, { Outcome.none with reset := !seg.hasRst })
  | _ => t.segmentOpen seg start now

end Tcb

end Kintane
