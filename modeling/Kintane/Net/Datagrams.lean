import Kintane.Lib.Slots
import Kintane.Net.Wire

/-!
# The UDP inbox

Datagrams of all ports share one array of slots. One that arrives goes into the first free slot, and
a receive takes the first slot with a datagram for its port. `UdpHistory` records beside the array
what was accepted and what was returned, in order.

A slot that is freed early in the array is filled next, before slots with older datagrams, so the
order of the slots is the order of arrival only as long as no datagram is put ahead of another of its
own port (`InOrder`). Then what was returned for a port and what is held for it are, one after the
other, what was accepted for it.
-/

open List

namespace Kintane

open Slots Wire

structure Datagram where
  srcIp : Wire.Ipv4Addr
  srcPort : UInt16
  dstPort : UInt16
  len : Nat
  data : List UInt8
  deriving DecidableEq

/-- What a receive or a peek reports: the buffer with what was copied, the source address and port,
the bytes copied and the whole length. -/
abbrev UdpReport := List UInt8 × Option (Wire.Ipv4Addr × UInt16 × Nat × Nat)

def Datagram.copyTo (d : Datagram) (into : List UInt8) : UdpReport :=
  let n := min d.len into.length
  (d.data.take n ++ into.drop n, some (d.srcIp, d.srcPort, n, d.len))

/-- The part of the stack's state that datagrams pass through. -/
structure UdpInbox where
  inbox : Table Datagram
  udpReceived : Nat
  inboxFull : Nat

namespace UdpInbox

def slots : Nat := 8

def udpMax : Nat := 256

def new : UdpInbox := ⟨.replicate slots none, 0, 0⟩

variable (st : UdpInbox)

/-- The slot a datagram goes into, if it is kept. -/
def slotFor (udp : Udp) : Option Nat := if udp.payload.length ≤ udpMax then position st.inbox else none

def datagram (src : Wire.Ipv4Addr) (udp : Udp) : Datagram where
  srcIp := src
  srcPort := udp.srcPort
  dstPort := udp.dstPort
  len := udp.payload.length
  data := udp.payload ++ .replicate (udpMax - udp.payload.length) 0

def takeDatagram (src : Wire.Ipv4Addr) (udp : Udp) : UdpInbox :=
  match st.slotFor udp with
  | some slot => { st with inbox := st.inbox.set slot (some (datagram src udp)), udpReceived := st.udpReceived + 1 }
  | none => { st with inboxFull := st.inboxFull + 1 }

def udpRecvFrom (port : UInt16) (into : List UInt8) : UdpInbox × UdpReport :=
  match find st.inbox (·.dstPort = port) with
  | some (slot, d) => ({ st with inbox := st.inbox.set slot none }, d.copyTo into)
  | none => (st, into, none)

def udpRecv (port : UInt16) (into : List UInt8) : UdpInbox × List UInt8 × Option (Wire.Ipv4Addr × UInt16 × Nat) :=
  let (st, into, report) := st.udpRecvFrom port into
  (st, into, report.map fun (ip, src, copied, _) => (ip, src, copied))

/-- `source` is the address a connected socket takes datagrams from. -/
def udpPeekFrom (port : UInt16) (source : Option (Wire.Ipv4Addr × UInt16)) (into : List UInt8) : UdpReport :=
  match (granted st.inbox).find? fun d => d.dstPort = port && source.all fun (ip, src) => d.srcIp = ip && d.srcPort = src with
  | some d => d.copyTo into
  | none => (into, none)

end UdpInbox

inductive UdpOp where
  /-- A UDP frame for this machine arrives. -/
  | takeDatagram (src : Wire.Ipv4Addr) (udp : Udp)
  | udpRecvFrom (port : UInt16) (into : List UInt8)

/-- The inbox with what it has accepted and returned. -/
structure UdpHistory where
  st : UdpInbox
  accepted : List Datagram
  returned : List Datagram

namespace UdpHistory

variable (h : UdpHistory)

def step : UdpOp → UdpHistory
  | .takeDatagram src udp =>
    ⟨h.st.takeDatagram src udp, h.accepted ++ ((h.st.slotFor udp).map fun _ => UdpInbox.datagram src udp).toList,
      h.returned⟩
  | .udpRecvFrom port into =>
    ⟨(h.st.udpRecvFrom port into).1, h.accepted,
      h.returned ++ ((find h.st.inbox (·.dstPort = port)).map Prod.snd).toList⟩

/-- A datagram is not put ahead of one of its own port. -/
def InOrder : UdpOp → Prop
  | .takeDatagram _ udp =>
    ∀ slot, h.st.slotFor udp = some slot → ∀ d ∈ granted (h.st.inbox.drop (slot + 1)), d.dstPort ≠ udp.dstPort
  | .udpRecvFrom .. => True

inductive Reaches (allowed : UdpHistory → UdpOp → Prop) : UdpHistory → Prop where
  | new : Reaches allowed ⟨.new, [], []⟩
  | step {h : UdpHistory} {op : UdpOp} (hr : Reaches allowed h) (ha : allowed h op) : Reaches allowed (h.step op)

/-- The oldest datagram accepted for `port` and not yet returned. -/
def oldest (port : UInt16) : Option Datagram :=
  (h.accepted.filter (·.dstPort = port))[(h.returned.filter (·.dstPort = port)).length]?

/-- What was returned and what is held are what was accepted, port by port. -/
def Fifo : Prop :=
  ∀ port, h.returned.filter (·.dstPort = port) ++ (granted h.st.inbox).filter (·.dstPort = port) =
    h.accepted.filter (·.dstPort = port)

variable {h}

theorem Fifo.takeDatagram (hf : h.Fifo) {src : Wire.Ipv4Addr} {udp : Udp} (ha : h.InOrder (.takeDatagram src udp)) :
    (h.step (.takeDatagram src udp)).Fifo := by
  intro port
  simp only [step, UdpInbox.takeDatagram]
  cases hs : h.st.slotFor udp with
  | none => simpa using hf port
  | some slot =>
    have hfree : h.st.inbox[slot]? = some none := by
      unfold UdpInbox.slotFor at hs
      split at hs
      · exact free_of_position hs
      · cases hs
    have hput := filter_put (a := UdpInbox.datagram src udp) hfree (·.dstPort = port) fun hp d hd he =>
      ha slot hs d hd ((of_decide_eq_true he).trans (of_decide_eq_true hp).symm)
    simp only [Option.map_some, Option.toList_some, filter_append]
    rw [hput, ← append_assoc, hf port]

theorem Fifo.udpRecvFrom (hf : h.Fifo) (port : UInt16) (into : List UInt8) :
    (h.step (.udpRecvFrom port into)).Fifo := by
  intro other
  simp only [step, UdpInbox.udpRecvFrom]
  cases hfind : find h.st.inbox (·.dstPort = port) with
  | none => simpa using hf other
  | some found =>
    simp only [Option.map_some, Option.toList_some, filter_append]
    rw [append_assoc, filter_take hfind, hf other]
    intro hd
    have hport := (of_find hfind).2.1
    simp only [decide_eq_true_eq] at hd hport
    rw [← hd, ← hport]

theorem Reaches.fifo (hr : Reaches InOrder h) : h.Fifo := by
  induction hr with
  | new => exact fun port => by simp [UdpInbox.new, granted]
  | @step h op _ ha ih =>
    cases op with
    | takeDatagram src udp => exact ih.takeDatagram ha
    | udpRecvFrom port into => exact ih.udpRecvFrom port into

/-- A peek without a filter is the next receive. -/
theorem peek_eq_recv (port : UInt16) (into : List UInt8) :
    h.st.udpPeekFrom port none into = (h.st.udpRecvFrom port into).2 := by
  have hhead := find_granted h.st.inbox (·.dstPort = port)
  unfold UdpInbox.udpPeekFrom UdpInbox.udpRecvFrom
  simp only [Option.all_none, Bool.and_true, hhead]
  cases find h.st.inbox (·.dstPort = port) <;> rfl

/--
**Receives are in order of arrival.**

In every run in which no datagram is put ahead of one of its own port, what was returned for a port is
the beginning of what was accepted for it, a receive reports the oldest one that is left, and a peek
without a filter reports what the next receive takes.
-/
theorem recv_oldest (hr : Reaches InOrder h) (port : UInt16) (into : List UInt8) :
    h.returned.filter (·.dstPort = port) <+: h.accepted.filter (·.dstPort = port) ∧
      (h.st.udpRecvFrom port into).2 = ((h.oldest port).map (·.copyTo into)).getD (into, none) ∧
      (h.st.udpRecv port into).2.2 = (h.oldest port).map (fun d => (d.srcIp, d.srcPort, min d.len into.length)) ∧
      h.st.udpPeekFrom port none into = (h.st.udpRecvFrom port into).2 := by
  have hf := hr.fifo port
  have holdest : h.oldest port = (find h.st.inbox (·.dstPort = port)).map Prod.snd := by
    rw [oldest, ← hf, getElem?_append_right le_rfl, Nat.sub_self, ← find_granted, ← head?_eq_getElem?, head?_filter]
  rw [holdest]
  refine ⟨⟨_, hf⟩, ?_, ?_, peek_eq_recv port into⟩
  · unfold UdpInbox.udpRecvFrom
    cases find h.st.inbox (·.dstPort = port) <;> rfl
  · unfold UdpInbox.udpRecv UdpInbox.udpRecvFrom
    cases find h.st.inbox (·.dstPort = port) <;> rfl

def oneByte (port : UInt16) (b : UInt8) : UdpOp := .takeDatagram (.replicate 4 0) ⟨7, port, [b]⟩

/-- Two datagrams, received in order. -/
theorem recv_oldest_two :
    ∃ h, Reaches InOrder h ∧ h.returned.length = 1 ∧ (h.st.udpRecvFrom 2 [0]).2.1 = [6] := by
  have hr : Reaches InOrder (((UdpHistory.mk .new [] []).step (oneByte 2 5)).step (oneByte 2 6)
      |>.step (.udpRecvFrom 2 [])) := by
    refine .step (.step (.step .new ?_) ?_) trivial
    · exact fun slot hs => by cases hs; exact nofun
    · exact fun slot hs => by cases hs; exact nofun
  exact ⟨_, hr, by decide +kernel, by rw [(recv_oldest hr 2 [0]).2.1]; decide +kernel⟩

/-- The slot of another port's datagram is filled before an older one is taken. -/
theorem recv_overtakes : ∃ h, Reaches (fun _ _ => True) h ∧ ∃ port into,
      (h.st.udpRecvFrom port into).2 ≠ ((h.oldest port).map (·.copyTo into)).getD (into, none) := by
  have hr : Reaches (fun _ _ => True) ((((UdpHistory.mk .new [] []).step (oneByte 1 4)).step (oneByte 2 5)).step
      (.udpRecvFrom 1 []) |>.step (oneByte 2 6)) := .step (.step (.step (.step .new trivial) trivial) trivial) trivial
  exact ⟨_, hr, 2, [0], by decide +kernel⟩

end UdpHistory

end Kintane
