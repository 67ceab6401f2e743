import Kintane.Lib.Serial
import Kintane.Lib.Word

/-!
# A transmission control block

The state of one TCP connection and what its methods do to it: the out-of-order runs, the
round-trip estimate, the congestion window, selective acknowledgements, and the bookkeeping of
what was sent and acknowledged.

Sequence numbers and lengths of runs are 32-bit words. Other machine integers are natural
numbers that saturate or wrap where the source says so. The counters of the source and the set
of states a connection has visited are left out: nothing reads them here.
-/

namespace Kintane

open Kintane.Seq

namespace Net

def connections : Nat := 4

def ring : Nat := 1514

def mss : Nat := 1460

def defaultMss : Nat := 536

def dupAckThreshold : Nat := 3

def segmentsInFlight : Nat := dupAckThreshold + 5

def sendSeg : Nat := ring / segmentsInFlight

def rtoInitial : Nat := 300000000

def rtoMin : Nat := 200000000

def rtoMax : Nat := 4000000000

def clockGranularity : Nat := 1000000

def initialWindow : Nat := 4

def oooSegments : Nat := 4

def sackBlocks : Nat := 3

def maxRetries : Nat := 7

def timeWait : Nat := 1000000000

def backlog : Nat := 2

/-- `RESETS`: resets for segments that match no connection, waiting to be sent. -/
def resets : Nat := 4

def u64Max : Nat := 2 ^ 64 - 1

def u32Limit : Nat := 2 ^ 32 - 1

end Net

inductive TcpState where
  | closed
  | listen
  | synSent
  | synReceived
  | established
  | finWait1
  | finWait2
  | closeWait
  | closing
  | lastAck
  | timeWait
  deriving DecidableEq

def TcpState.synchronized : TcpState → Bool
  | .closed | .listen | .synSent | .synReceived => false
  | _ => true

inductive TcpError where
  | noRoom
  | portInUse
  | badConnection
  | wrongState
  | reset
  | timedOut
  | wouldBlock
  deriving DecidableEq

abbrev Ipv4Addr := BitVec 32

/-- `Ring`: part of a pool buffer, or no buffer. -/
structure TcpRing where
  buf : Option Nat
  head : Nat
  len : Nat
  deriving DecidableEq

namespace TcpRing

def none : TcpRing := ⟨.none, 0, 0⟩

def on (buf : Nat) : TcpRing := ⟨some buf, 0, 0⟩

def free (r : TcpRing) : Nat := if r.buf.isNone then 0 else Net.ring - r.len

end TcpRing

/-- Bytes that arrived before the bytes in front of them. -/
structure Run where
  seq : Seq
  len : Seq
  deriving DecidableEq

structure Tcb where
  active : Bool
  generation : Nat
  state : TcpState
  localPort : Nat
  remoteIp : Ipv4Addr
  remotePort : Nat
  iss : Seq
  /-- The oldest unacknowledged sequence number, the next to send, and the highest sent. -/
  sndUna : Seq
  sndNxt : Seq
  sndMax : Seq
  sndWnd : Nat
  mss : Nat
  rcvNxt : Seq
  rx : TcpRing
  /-- Runs held in the receive ring where the stream will read them from. -/
  ooo : List (Option Run)
  tx : TcpRing
  /-- The sequence number of the send ring's first byte. -/
  txSeq : Seq
  finQueued : Bool
  /-- The sequence number the FIN was given, once it has been sent. -/
  finSeq : Option Seq
  peerFin : Bool
  ackNow : Bool
  rstNow : Bool
  cwnd : Nat
  ssthresh : Nat
  dupAcks : Nat
  recovering : Bool
  /-- What `sndMax` was when the loss was found. -/
  recover : Seq
  resend : Bool
  srtt : Option (Nat × Nat)
  timing : Option (Seq × Nat)
  rto : Nat
  deadline : Option Nat
  sackOk : Bool
  /-- Runs past `sndUna` that the peer has said it holds. -/
  sacked : List (Option (Seq × Seq))
  /-- The peer's window is shut and the timer ran out. -/
  probe : Bool
  retries : Nat
  timeWaitUntil : Nat
  error : Option TcpError
  released : Bool
  /-- The listener a passively opened connection belongs to until it is accepted. -/
  parent : Option Nat
  accepted : Bool
  deriving DecidableEq

namespace Tcb

def empty : Tcb where
  active := false
  generation := 0
  state := .closed
  localPort := 0
  remoteIp := 0
  remotePort := 0
  iss := 0
  sndUna := 0
  sndNxt := 0
  sndMax := 0
  sndWnd := 0
  mss := Net.defaultMss
  rcvNxt := 0
  rx := .none
  ooo := List.replicate Net.oooSegments none
  tx := .none
  txSeq := 0
  finQueued := false
  finSeq := none
  peerFin := false
  ackNow := false
  rstNow := false
  cwnd := Net.initialWindow * Net.defaultMss
  ssthresh := Net.u32Limit
  dupAcks := 0
  recovering := false
  recover := 0
  resend := false
  srtt := none
  timing := none
  rto := Net.rtoInitial
  deadline := none
  sackOk := false
  sacked := List.replicate Net.sackBlocks none
  probe := false
  retries := 0
  timeWaitUntil := 0
  error := none
  released := false
  parent := none
  accepted := false

variable (t : Tcb)

/-- The segment size as a width. -/
def seg : Nat := max (min t.mss Net.sendSeg) 1

def flight : Nat := (t.sndNxt - t.sndUna).toNat

/-! ## Receiving -/

def rxUsed : Nat :=
  t.rx.len + ((t.ooo.filterMap id).map fun r => (r.seq - t.rcvNxt).toNat + r.len.toNat).foldl max 0

/-- The window to announce. -/
def rxFree : Nat := if t.rx.buf.isNone then 0 else Net.ring - t.rxUsed

end Tcb

/-- Take the runs that touch `start..stop` out of the slots, and stretch it over them. -/
def mergeRuns : List (Option Run) → Seq → Seq → List (Option Run) × Seq × Seq
  | [], start, stop => ([], start, stop)
  | none :: slots, start, stop =>
    let (slots', r) := mergeRuns slots start stop
    (none :: slots', r)
  | some run :: slots, start, stop =>
    let runEnd := run.seq + run.len
    if le run.seq stop && le start runEnd then
      let (slots', r) := mergeRuns slots (if lt run.seq start then run.seq else start)
        (if lt stop runEnd then runEnd else stop)
      (none :: slots', r)
    else
      let (slots', r) := mergeRuns slots start stop
      (some run :: slots', r)

/-- The last of the runs furthest ahead of `rcv`, with how far that is. -/
def furthestRun (rcv : Seq) (slots : List (Option Run)) : Option (Nat × Nat) :=
  slots.zipIdx.foldl (fun best (slot, i) =>
    match slot with
    | none => best
    | some r =>
      let ahead := (r.seq - rcv).toNat
      match best with
      | none => some (i, ahead)
      | some (j, most) => if most ≤ ahead then some (i, ahead) else some (j, most)) none

namespace Tcb

variable (t : Tcb)

/-- Remember that `len` bytes at `seq` are in the ring; `false` when they could not be kept. -/
def hold (seq len : Seq) : Tcb × Bool :=
  let (slots, start, stop) := mergeRuns t.ooo seq (seq + len)
  let run : Run := ⟨start, stop - start⟩
  match slots.findIdx? Option.isNone with
  | some i => ({ t with ooo := slots.set i (some run) }, true)
  | none =>
    match furthestRun t.rcvNxt slots with
    | some (i, ahead) =>
      if (run.seq - t.rcvNxt).toNat < ahead then
        ({ t with ooo := slots.set i (some run) }, true)
      else ({ t with ooo := slots }, false)
    | none => ({ t with ooo := slots }, false)

/-- A held run that the stream has reached. -/
def joined (rcv : Seq) (slot : Option Run) : Bool :=
  slot.any fun r => le r.seq rcv && lt rcv (r.seq + r.len)

/-- A held run that the stream has passed. -/
def behind (rcv : Seq) (slot : Option Run) : Bool :=
  slot.any fun r => le (r.seq + r.len) rcv

/-- One turn of the loop of `coalesce`, or `none` when it returns. -/
def coalesceOnce : Option Tcb :=
  match t.ooo.findIdx? (joined t.rcvNxt) with
  | some i =>
    match t.ooo[i]? with
    | some (some run) =>
      let fresh := run.len - (t.rcvNxt - run.seq)
      some { t with
        ooo := t.ooo.set i none
        rx := { t.rx with len := t.rx.len + fresh.toNat }
        rcvNxt := t.rcvNxt + fresh }
    | _ => none
  | none =>
    match t.ooo.findIdx? (behind t.rcvNxt) with
    | some old => some { t with ooo := t.ooo.set old none }
    | none => none

def coalesceLoop : Nat → Tcb → Tcb
  | 0, t => t
  | n + 1, t =>
    match t.coalesceOnce with
    | none => t
    | some t' => coalesceLoop n t'

/-- Hand the stream every held run that joined up. Each turn of the loop empties a slot. -/
def coalesce : Tcb := coalesceLoop (t.ooo.length + 1) t

/-! ## Round trips and congestion -/

/-- Take a round-trip measurement and recompute the timeout from it. -/
def sampleRtt (rtt : Nat) : Tcb :=
  let w := Net.u64Max + 1
  let (srtt, rttvar) :=
    match t.srtt with
    | none => (rtt, rtt / 2)
    | some (srtt, rttvar) =>
      ((7 * srtt + rtt) % w / 8, (3 * rttvar + (max srtt rtt - min srtt rtt)) % w / 4)
  { t with
    srtt := some (srtt, rttvar)
    rto := min (max (satAdd Net.u64Max srtt (max (4 * rttvar % w) Net.clockGranularity)) Net.rtoMin)
      Net.rtoMax }

def grow (acked : Nat) : Tcb :=
  let grown :=
    if t.cwnd < t.ssthresh then satAdd Net.u32Limit t.cwnd (min acked t.seg)
    else satAdd Net.u32Limit t.cwnd (max (t.seg * t.seg / max t.cwnd 1) 1)
  { t with cwnd := min grown Net.ring }

def recordSack (blocks : List (Option (Seq × Seq))) : Tcb :=
  { t with
    sacked := (blocks.take Net.sackBlocks).map fun block =>
      block.filter fun b => lt b.1 b.2 && le t.sndUna b.1 && le b.2 t.sndMax }

def forgetSacked (through : Seq) : Tcb :=
  { t with sacked := t.sacked.map fun block => block.filter fun b => !le b.2 through }

def firstHoleLoop (blocks : List (Seq × Seq)) : Nat → Seq → Seq
  | 0, start => start
  | n + 1, start =>
    match blocks.find? fun b => le b.1 start && lt start b.2 with
    | some b => firstHoleLoop blocks n b.2
    | none => start

def firstHole (start : Seq) : Seq :=
  firstHoleLoop (t.sacked.filterMap id) (Net.sackBlocks + 1) start

/-- How far a segment starting at `start` may run before it reaches a run the peer holds. -/
def toNextBlock (start : Seq) : Option Nat :=
  (((t.sacked.filterMap id).filter fun b => lt start b.1).map fun b =>
    (b.1 - start).toNat).min?

/-- A loss the duplicate acknowledgements found. -/
def beginRecovery : Tcb :=
  let ssthresh := max (t.flight / 2) (2 * t.seg)
  { t with
    ssthresh
    cwnd := satAdd Net.u32Limit ssthresh (Net.dupAckThreshold * t.seg)
    recover := t.sndMax
    recovering := true
    sndNxt := t.firstHole t.sndUna
    resend := true
    timing := none }

def collapse : Tcb :=
  { t with
    ssthresh := max (t.flight / 2) (2 * t.seg)
    cwnd := t.seg
    dupAcks := 0
    recovering := false
    sacked := List.replicate Net.sackBlocks none
    timing := none }

/-! ## States, sending and acknowledgements -/

def enter (state : TcpState) : Tcb :=
  { t with
    state
    deadline := if state = .closed ∨ state = .timeWait then none else t.deadline }

def establish : Tcb :=
  let t := t.enter .established
  let t := { t with cwnd := Net.initialWindow * t.seg }
  if t.finQueued then t.enter .finWait1 else t

def advance (n now : Nat) : Tcb :=
  let nxt := t.sndNxt + BitVec.ofNat 32 n
  { t with
    sndNxt := nxt
    sndMax := if lt t.sndMax nxt then nxt else t.sndMax
    timing := if t.sndNxt = t.sndMax ∧ t.timing = none then some (nxt, now) else t.timing
    deadline := if t.deadline = none then some (satAdd Net.u64Max now t.rto) else t.deadline }

/-- The part of `acknowledge` that gives up the acknowledged bytes. -/
def ackData (ack : Seq) : Tcb :=
  let n := (ack - t.sndUna).toNat
  -- The SYN's one unit of sequence space.
  let n := if t.sndUna = t.iss then n - 1 else n
  let data := min n t.tx.len
  { t with
    tx := { t.tx with head := (t.tx.head + data) % Net.ring, len := t.tx.len - data }
    txSeq := t.txSeq + BitVec.ofNat 32 data
    sndUna := ack
    sndNxt := if lt t.sndNxt ack then ack else t.sndNxt }

/-- A measurement, from a segment that was sent once. -/
def ackTiming (ack : Seq) (now : Nat) : Tcb :=
  match t.timing with
  | none => t
  | some (through, sent) =>
    if le through ack then { t with timing := none }.sampleRtt (now - sent) else t

/-- Loss recovery and the congestion window. -/
def ackRecovery (ack : Seq) (acked : Nat) : Tcb :=
  if t.recovering then
    if le t.recover ack then
      { t with
        cwnd := t.ssthresh
        recovering := false
        sacked := List.replicate Net.sackBlocks none }
    else
      -- A partial acknowledgement: the next hole is sent at once.
      { t with
        sndNxt := t.firstHole ack
        cwnd := max (t.cwnd - acked) t.seg
        resend := true
        timing := none }
  else t.grow acked

def ackTimer (now : Nat) : Tcb :=
  let rto := if t.srtt = none then Net.rtoInitial else t.rto
  { t with
    dupAcks := 0
    retries := 0
    rto
    probe := false
    deadline := if t.sndUna = t.sndMax then none else some (satAdd Net.u64Max now rto) }

def acknowledge (ack : Seq) (now : Nat) : Tcb :=
  let acked := (ack - t.sndUna).toNat
  ((((t.ackData ack).ackTiming ack now).forgetSacked ack).ackRecovery ack acked).ackTimer now

def finAcknowledged : Bool := t.finSeq.any fun f => le (f + 1) t.sndUna

end Tcb

/-! ## Fresh connections -/

/-- A SYN that waits for its connection to be made. -/
structure Syn where
  listener : Nat
  remoteIp : Ipv4Addr
  remotePort : Nat
  localPort : Nat
  irs : Seq
  window : Nat
  mss : Nat
  sackOk : Bool
  deriving DecidableEq

namespace Tcb

/-- What `connect` installs. -/
def connecting (port : Nat) (remoteIp : Ipv4Addr) (remotePort : Nat) (iss : Seq) (rx tx : Nat) :
    Tcb :=
  { empty with
    state := .synSent
    localPort := port
    remoteIp
    remotePort
    iss
    sndUna := iss
    sndNxt := iss
    sndMax := iss
    txSeq := iss + 1
    rx := .on rx
    tx := .on tx }

/-- What `listen` installs. -/
def listening (port : Nat) : Tcb := { empty with state := .listen, localPort := port }

/-- What `open_passive` installs. -/
def opened (syn : Syn) (iss : Seq) (rx tx : Nat) : Tcb :=
  { empty with
    state := .synReceived
    localPort := syn.localPort
    remoteIp := syn.remoteIp
    remotePort := syn.remotePort
    iss
    sndUna := iss
    sndNxt := iss
    sndMax := iss
    sndWnd := syn.window
    mss := min (max syn.mss 1) Net.mss
    sackOk := syn.sackOk
    rcvNxt := syn.irs + 1
    txSeq := iss + 1
    rx := .on rx
    tx := .on tx
    parent := some syn.listener }

end Tcb

end Kintane
