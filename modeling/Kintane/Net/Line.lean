import Kintane.Net.Output

/-!
# One connection with its buffers

A connection, the bytes of the two pool buffers it has, and what the program has sent and
received through it. The calls of a program, the arrival of segments, the timers and the sending
of segments are its steps, in any order.
-/

namespace Kintane

/-- A control block, its two buffers, and all that has gone through them. -/
structure Line where
  tcb : Tcb
  /-- The receive and the send buffer. -/
  rx : List UInt8
  tx : List UInt8
  /-- All that `recv` has returned. -/
  returned : List UInt8
  /-- All that `send` has taken. -/
  queued : List UInt8
  /-- `shutdown` or `close` was called. -/
  shut : Bool

/-- What can happen to a connection, in any order. -/
inductive LineOp where
  /-- A frame with `header` in front of the segment's payload. -/
  | segment (header : List UInt8) (seg : TcpSegment) (now : Nat)
  | recv (size : Nat)
  | send (data : List UInt8)
  | shutdown
  | close
  | abort
  | timers (now : Nat)
  | nextSegment (now : Nat)

/-- The ring after a segment's payload was copied into it. -/
def delivered (ring frame : List UInt8) : Option Deliver → List UInt8
  | none => ring
  | some d => ringWrite ring d.position ((frame.drop d.start).take d.len)

namespace Line

variable (l : Line)

/-- A segment arrives, and its accepted payload is copied from the frame into the ring. -/
def segment (header : List UInt8) (seg : TcpSegment) (now : Nat) : Line :=
  let (tcb, outcome) := l.tcb.segment seg header.length now
  { l with tcb, rx := delivered l.rx (header ++ seg.payload) outcome.deliver }

/-- The control block sees of a frame the segment and where its payload starts. -/
theorem segment_tcb (header : List UInt8) (seg : TcpSegment) (now : Nat) :
    (l.segment header seg now).tcb = (l.tcb.segment seg header.length now).1 :=
  rfl

theorem segment_queued (header : List UInt8) (seg : TcpSegment) (now : Nat) :
    (l.segment header seg now).queued = l.queued :=
  rfl

/-- The program reads; what it gets joins `returned`. -/
def recv (size : Nat) : Line :=
  match l.tcb.recv l.rx size with
  | (tcb, .ok bytes) => { l with tcb, returned := l.returned ++ bytes }
  | (tcb, .error _) => { l with tcb }

/-- The program writes; the bytes that were taken join `queued`. -/
def send (data : List UInt8) : Line :=
  match l.tcb.send l.tx data with
  | (tcb, tx, .ok n) => { l with tcb, tx, queued := l.queued ++ data.take n }
  | (tcb, tx, .error _) => { l with tcb, tx }

theorem recv_tcb (size : Nat) : (l.recv size).tcb = (l.tcb.recv l.rx size).1 := by
  unfold recv
  split <;> rename_i he <;> rw [he]

theorem send_tcb (data : List UInt8) : (l.send data).tcb = (l.tcb.send l.tx data).1 := by
  unfold send
  split <;> rename_i he <;> rw [he]

/-- An `abort` is no orderly end: it does not count as `shut`. -/
def step : LineOp → Line
  | .segment header seg now => l.segment header seg now
  | .recv size => l.recv size
  | .send data => l.send data
  | .shutdown => { l with tcb := l.tcb.shutdown, shut := true }
  | .close => { l with tcb := l.tcb.closeOwn, shut := true }
  | .abort => { l with tcb := l.tcb.abort }
  | .timers now => { l with tcb := l.tcb.timers now }
  | .nextSegment now => { l with tcb := (l.tcb.nextSegment now).1 }

/-- A connection that `connect` or `open_passive` made, with what its buffers held before. -/
inductive Fresh : Line → Prop where
  | connect (port : Nat) (remoteIp : Ipv4Addr) (remotePort : Nat) (iss : Seq) (a b : Nat)
      (rx tx : List UInt8) (hrx : rx.length = Net.ring) (htx : tx.length = Net.ring) :
      Fresh ⟨.connecting port remoteIp remotePort iss a b, rx, tx, [], [], false⟩
  | openPassive (syn : Syn) (iss : Seq) (a b : Nat) (rx tx : List UInt8)
      (hrx : rx.length = Net.ring) (htx : tx.length = Net.ring) :
      Fresh ⟨.opened syn iss a b, rx, tx, [], [], false⟩

/-- The connections that steps of one kind lead to, from fresh ones of one kind. -/
inductive Reaches (start : Line → Prop) (allowed : Line → LineOp → Prop) : Line → Prop where
  | fresh {l : Line} (h : Fresh l) (hs : start l) : Reaches start allowed l
  | step {l : Line} {op : LineOp} (h : Reaches start allowed l) (ha : allowed l op) :
      Reaches start allowed (l.step op)

/-- A property of fresh connections that every step keeps. -/
theorem Reaches.invariant {start : Line → Prop} {allowed : Line → LineOp → Prop} {P : Line → Prop}
    (hfresh : ∀ l, Fresh l → start l → P l) (hstep : ∀ l op, P l → allowed l op → P (l.step op))
    {l : Line} (h : Reaches start allowed l) : P l := by
  induction h with
  | fresh h hs => exact hfresh _ h hs
  | step _ ha ih => exact hstep _ _ ih ha

end Line

end Kintane
