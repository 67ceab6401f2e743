import Kintane.Net.ReceiveProof

/-!
# Reading through any run

A connection, from its handshake on, receives segments that agree with one stream, in any order
and as often as they come, while the program reads and does whatever else it does. What it has
read is always the beginning of the stream, and it is told of the stream's end only after all
of it.
-/

open List

namespace Kintane

/-- A connection whose handshake is over. -/
structure Opened (stream : List UInt8) (irs : Seq) (done : Nat) (ring : List UInt8) (t : Tcb) :
    Prop where
  receives : Receives stream irs done ring t
  state : t.state ≠ .synSent
  ended : t.peerFin = true → t.state.ended = true

variable {stream : List UInt8} {irs : Seq} {t' t : Tcb}

namespace Opened

variable {done : Nat} {ring : List UInt8} {t : Tcb} {seg : TcpSegment} {k : Int}

variable (h : Opened stream irs done ring t)

include h

theorem keeps (hk : t.Keeps t') : Opened stream irs done ring t' := by
  refine ⟨h.receives.congr hk.side, hk.later.opened h.state, fun hf => hk.later.ended (h.ended ?_)⟩
  have : t'.peerFin = t.peerFin := congrArg RecvSide.peerFin hk.side
  exact this ▸ hf

/-- The peer sends its FIN once: a FIN that agrees with the stream is not acceptable again. -/
theorem peerFin_eq_false (hseg : SegmentAgrees stream irs (done + t.rx.len) seg k) (hsyn : seg.hasSyn = false)
    (ha : acceptable t.rcvNxt t.rxFree seg.seq seg.len = true) (hfin : seg.hasFin = true) :
    t.peerFin = false := by
  by_contra hpf
  rw [Bool.not_eq_false] at hpf
  have hend := hseg.fin hfin
  have hr := h.receives.fin hpf
  have hplen := seg.payload_lt
  have hlen : seg.len = seg.payload.length + 1 := by
    rw [TcpSegment.len, hsyn, hfin]
    rfl
  rw [hseg.seq, h.receives.next, hpf, Bool.toNat_true] at ha
  have := acceptable_bounds t.rxFree_le (by omega) (by omega) (by omega) ha
  omega

/-- A FIN in its turn. -/
theorem segmentFin (hopen : t.state ≠ .synReceived) {takenTo : Seq} (finAcked : Bool) (now : Nat)
    (hfin : seg.hasFin = true → takenTo = seg.seq + BitVec.ofNat 32 seg.payload.length →
      Seq.le takenTo t.rcvNxt = true → t.peerFin = false ∧ done + t.rx.len = stream.length) :
    Opened stream irs done ring (t.segmentFin seg takenTo finAcked now) := by
  unfold Tcb.segmentFin
  split
  · rename_i hc
    obtain ⟨hpf, hend⟩ := hfin hc.1 hc.2.1 hc.2.2
    have hst := Tcb.state_takeFin t finAcked now h.state hopen
    exact ⟨h.receives.takeFin hpf hend finAcked now, hst.1, fun _ => hst.2⟩
  · exact h

theorem segmentText (hopen : t.state ≠ .synReceived)
    (hseg : SegmentAgrees stream irs (done + t.rx.len) seg k) (hsyn : seg.hasSyn = false)
    (ha : acceptable t.rcvNxt t.rxFree seg.seq seg.len = true) (header : List UInt8)
    (finAcked : Bool) (now : Nat) :
    Opened stream irs done
      (delivered ring (header ++ seg.payload)
        (t.segmentText seg finAcked header.length now).2.deliver)
      (t.segmentText seg finAcked header.length now).1 := by
  have hnear := hseg.near
  have hplen := seg.payload_lt
  have hsent := h.receives.sent
  unfold Tcb.segmentText
  split
  · rename_i hc
    -- A state that takes payload has seen no FIN.
    have hpf : t.peerFin = false := by
      by_contra hpf
      rw [Bool.not_eq_false] at hpf
      have := h.ended hpf
      have hrecv := hc.2
      unfold Tcb.receiving at hrecv
      cases hs : t.state <;> simp_all [TcpState.ended]
    have hlt : Seq.lt t.rcvNxt seg.seq = decide ((done + t.rx.len : Nat) < k) := by
      rw [hseg.seq, h.receives.next, hpf, Bool.toNat_false, add_zero, Seq.lt_pos _ (by omega) (by omega)]
    rw [hlt]
    split
    · rename_i hk
      obtain ⟨hr, hpf', hst⟩ := h.receives.takeAhead hpf hseg (of_decide_eq_true hk) header
      exact ⟨hr, hst ▸ h.state, fun hf => absurd (hpf'.symm.trans hf) Bool.false_ne_true⟩
    rename_i hk
    rw [decide_eq_true_iff, not_lt] at hk
    rcases hn : t.takeNext seg header.length with ⟨t', deliver, takenTo⟩
    obtain ⟨hr, hpf', hst, hend⟩ := h.receives.takeNext hpf hseg hk header hn
    refine segmentFin ⟨hr, hst ▸ h.state, fun hf => ?_⟩ (hst ▸ hopen) finAcked now ?_
    · exact absurd (hpf'.symm.trans hf) Bool.false_ne_true
    · intro hf hto _
      have h1 := hend hto
      have h2 := hseg.fin hf
      have h3 := hr.sent
      exact ⟨hpf', by omega⟩
  · refine segmentFin h hopen finAcked now fun hf _ hle => ?_
    have hpf := h.peerFin_eq_false hseg hsyn ha hf
    have hend := hseg.fin hf
    rw [hseg.seq, h.receives.next, hpf, Bool.toNat_false, add_zero] at ha
    have hb := acceptable_bounds t.rxFree_le
      (by unfold TcpSegment.len; have := Bool.toNat_le seg.hasFin; rw [hsyn]; simp; omega)
      (by omega) (by omega) ha
    have hring : Net.ring = 1514 := rfl
    rw [hseg.seq, h.receives.next, hpf, Bool.toNat_false, add_zero, Seq.pos_add_ofNat,
      Seq.le_pos _ (by omega) (by omega), decide_eq_true_iff] at hle
    exact ⟨hpf, by omega⟩

/-- Reading from the ring. -/
theorem recv {n : Nat} (hn : n ≤ t.rx.len) (hside : t'.recvSide = { t.recvSide with
      rx := { t.rx with head := (t.rx.head + n) % Net.ring, len := t.rx.len - n } })
    (hst : t'.state = t.state) :
    Opened stream irs (done + n) ring t' ∧
      ringRead ring t.rx.head n = (stream.drop done).take n := by
  have hr := h.receives
  have hlen := hr.len
  have hsent := hr.sent
  have hadd : done + n + (t.rx.len - n) = done + t.rx.len := by omega
  cases t'
  obtain ⟨rfl, rfl, rfl, rfl⟩ := hside
  constructor
  · refine ⟨⟨hr.size, hr.buf, (Nat.sub_le ..).trans hlen, hadd.trans_le hsent, ?_, ?_, ?_, ?_⟩, hst ▸ h.state,
      hst ▸ h.ended⟩ <;> simp only [hadd]
    · exact hr.next
    · rw [← hr.size]
      exact (hr.bytes.mono (Nat.le_add_right done n) le_rfl).advance n le_rfl
    · intro run hrun
      obtain ⟨a, b, hs, hc⟩ := hr.runs run hrun
      have hlow := hs.low
      have hroom := hs.room
      refine ⟨a, b, ⟨hlow, hs.lt, by omega, hs.sent, ?_⟩, hc⟩
      rw [← hr.size]
      exact hs.bytes.advance n (by omega)
    · exact hr.fin
  · rw [ringRead_eq hr.size _ (hn.trans hlen)]
    exact (hr.bytes.mono le_rfl (by omega)).window_eq (by omega)

end Opened

/-- A connection that waits for the peer's SYN, or was closed before it came. -/
structure Waiting (t : Tcb) : Prop where
  state : t.state = .synSent ∨ t.state = .closed
  buf : t.rx.buf.isSome
  len : t.rx.len = 0
  runs : ∀ run, some run ∉ t.ooo
  fin : t.peerFin = false

theorem Waiting.keeps (h : Waiting t) (hk : t.Keeps t') : Waiting t' := by
  obtain ⟨-, e2, e3, e4⟩ := RecvSide.mk.inj hk.side
  refine ⟨?_, e2 ▸ h.buf, e2 ▸ h.len, e3 ▸ h.runs, e4 ▸ h.fin⟩
  rcases h.state with hs | hs
  · exact hk.later.synSent hs
  · exact .inr (hk.later.closed hs)

/-- The SYN arrives. -/
theorem Waiting.opened (h : Waiting t) (stream : List UInt8)
    {ring : List UInt8} (hring : ring.length = Net.ring)
    (hside : t'.recvSide = { t.recvSide with rcvNxt := irs + 1 }) (hst : t'.state ≠ .synSent) :
    Opened stream irs 0 ring t' := by
  simp only [Tcb.recvSide, RecvSide.mk.injEq] at hside
  obtain ⟨e1, e2, e3, e4⟩ := hside
  have hlen : t'.rx.len = 0 := e2 ▸ h.len
  have hfin : t'.peerFin = false := e4 ▸ h.fin
  refine ⟨⟨hring, e2 ▸ h.buf, ?_, ?_, ?_, ?_, ?_, ?_⟩, hst, ?_⟩
  · rw [hlen]
    exact Nat.zero_le _
  · rw [hlen]
    exact Nat.zero_le _
  · rw [e1, hlen, hfin]
    exact (Seq.pos_zero _).symm
  · rw [hlen]
    exact Ring.Holds.empty _
  · exact fun run hrun => absurd (e3 ▸ hrun) (h.runs run)
  · exact fun hf => absurd (hfin.symm.trans hf) Bool.false_ne_true
  · exact fun hf => absurd (hfin.symm.trans hf) Bool.false_ne_true

namespace Line

/-- How many bytes of the stream have arrived in order. -/
def arrived (l : Line) : Nat := l.returned.length + l.tcb.rx.len

/-- A segment agrees with the stream. A SYN gives the initial sequence number; the source ignores
what else it carries. -/
def Agrees (stream : List UInt8) (irs : Seq) (l : Line) : LineOp → Prop
  | .segment _ seg _ =>
    if seg.hasSyn then seg.seq = irs else ∃ k, SegmentAgrees stream irs l.arrived seg k
  | _ => True

/-- The SYN that a passively opened connection was made for. -/
def OpenedFor (irs : Seq) (l : Line) : Prop := l.tcb.state = .synReceived → l.tcb.rcvNxt = irs + 1

/-- What was returned starts the stream, and what arrived since is in the ring. -/
structure Reading (stream : List UInt8) (irs : Seq) (l : Line) : Prop where
  returned : l.returned <+: stream
  size : l.rx.length = Net.ring
  tcb : (l.returned = [] ∧ Waiting l.tcb) ∨ Opened stream irs l.returned.length l.rx l.tcb

variable {l : Line}

theorem Fresh.reading (h : l.Fresh) (hirs : l.OpenedFor irs) : l.Reading stream irs := by
  have hruns : ∀ run : Run, some run ∉ List.replicate Net.oooSegments none := by
    intro run hrun
    cases eq_of_mem_replicate hrun
  cases h with
  | connect port remoteIp remotePort iss a b rx tx hrx htx =>
    exact ⟨ nil_prefix, hrx, .inl ⟨rfl, .inl rfl, rfl, rfl, hruns, rfl⟩⟩
  | openPassive syn iss a b rx tx hrx htx =>
    refine ⟨ nil_prefix, hrx, .inr ⟨?_, ?_, ?_⟩⟩
    · refine ⟨hrx, rfl, Nat.zero_le _, Nat.zero_le _, ?_, Ring.Holds.empty _, ?_, ?_⟩
      · rw [hirs rfl]
        exact (Seq.pos_zero _).symm
      · exact fun run hrun => absurd hrun (hruns run)
      · intro hf
        cases hf
    · exact (by decide : TcpState.synReceived ≠ .synSent)
    · intro hf
      cases hf

theorem Reading.keeps (h : l.Reading stream irs) {l' : Line} (hk : l.tcb.Keeps l'.tcb)
    (hr : l'.returned = l.returned) (hx : l'.rx = l.rx) : l'.Reading stream irs := by
  refine ⟨hr ▸ h.returned, hx ▸ h.size, ?_⟩
  rw [hr, hx]
  rcases h.tcb with ⟨hnil, hw⟩ | ho
  · exact .inl ⟨hnil, hw.keeps hk⟩
  · exact .inr (ho.keeps hk)

theorem Reading.segment (h : l.Reading stream irs) {header : List UInt8} {seg : TcpSegment}
    {now : Nat} (ha : l.Agrees stream irs (.segment header seg now)) :
    (l.segment header seg now).Reading stream irs := by
  unfold Line.segment
  have hcases := l.tcb.segment_cases seg header.length now
  generalize l.tcb.segment seg header.length now = res at hcases
  cases hcases with
  | keeps t' out hk hout =>
    dsimp only
    rw [hout]
    exact h.keeps hk rfl rfl
  | syn t' hs hsyn hside hst =>
    rcases h.tcb with ⟨hnil, hw⟩ | ho
    · rw [Agrees, if_pos hsyn] at ha
      refine ⟨h.returned, h.size, .inr ?_⟩
      rw [hnil]
      exact hw.opened stream h.size (ha ▸ hside) hst.1
    · exact absurd hs ho.state
  | text t' finAcked hs hacc hsyn hk hopen =>
    rcases h.tcb with ⟨hnil, hw⟩ | ho
    · rcases hw.state with hst | hst
      · exact absurd hst hs.1
      · exact absurd hst hs.2
    rw [Agrees, hsyn, if_neg Bool.false_ne_true] at ha
    obtain ⟨k, hseg⟩ := ha
    obtain ⟨e1, e2, e3, -⟩ := RecvSide.mk.inj hk.side
    have hfree : t'.rxFree = l.tcb.rxFree := by
      unfold Tcb.rxFree Tcb.rxUsed
      rw [e1, e2, e3]
    rw [Line.arrived, ← e2] at hseg
    rw [← e1, ← hfree] at hacc
    have ho' := (ho.keeps hk).segmentText hopen hseg hsyn hacc header finAcked now
    exact ⟨h.returned, ho'.receives.size, .inr ho'⟩

/-- A `recv` that finds nothing leaves the connection as it is. -/
theorem recv_of_empty {size : Nat} (h : min size l.tcb.rx.len = 0) : l.recv size = l := by
  have hcases : l.tcb.recv l.rx size = (l.tcb, .ok []) ∨
      ∃ e, l.tcb.recv l.rx size = (l.tcb, .error e) := by
    simp only [Tcb.recv, h, lt_irrefl, if_false]
    split
    · exact .inl rfl
    · split
      · exact .inr ⟨_, rfl⟩
      · cases l.tcb.state <;> simp
  rcases hcases with hr | ⟨e, hr⟩
  · simp only [Line.recv, hr, append_nil]
  · simp only [Line.recv, hr]

theorem recv_of_pos (ring : List UInt8) (t : Tcb) (size : Nat) (h : 0 < min size t.rx.len) :
    ∃ t', t.recv ring size = (t', .ok (ringRead ring t.rx.head (min size t.rx.len))) ∧
      t'.recvSide = { t.recvSide with
        rx := { t.rx with
          head := (t.rx.head + min size t.rx.len) % Net.ring, len := t.rx.len - min size t.rx.len } } ∧
      t'.state = t.state := by
  unfold Tcb.recv
  rw [if_pos h]
  refine ⟨_, rfl, ?_, ?_⟩ <;> split <;> rfl

/-- `recv` returns the next bytes of the stream. -/
theorem Reading.recv (h : l.Reading stream irs) (size : Nat) : (l.recv size).Reading stream irs := by
  rcases Nat.eq_zero_or_pos (min size l.tcb.rx.len) with hn | hn
  · rw [recv_of_empty hn]
    exact h
  rcases h.tcb with ⟨-, hw⟩ | ho
  · have := hw.len
    omega
  obtain ⟨t', hr, hside, hst⟩ := recv_of_pos l.rx l.tcb size hn
  obtain ⟨ho', hread⟩ := ho.recv (min_le_right ..) hside hst
  simp only [Line.recv, hr, hread]
  have hret : l.returned ++ (stream.drop l.returned.length).take (min size l.tcb.rx.len) =
      stream.take (l.returned.length + min size l.tcb.rx.len) := by
    rw [take_add, ← prefix_iff_eq_take.mp h.returned]
  have hsent := ho'.receives.sent
  have hlen : (stream.take (l.returned.length + min size l.tcb.rx.len)).length =
      l.returned.length + min size l.tcb.rx.len := by
    rw [length_take]
    omega
  rw [hret]
  refine ⟨ take_prefix .., h.size, .inr ?_⟩
  simp only [hlen]
  exact ho'

theorem Reading.step (h : l.Reading stream irs) {op : LineOp} (ha : l.Agrees stream irs op) :
    (l.step op).Reading stream irs := by
  cases op with
  | segment header seg now => exact h.segment ha
  | recv size => exact h.recv size
  | send data =>
    have hk := l.tcb.keeps_send l.tx data
    rcases hs : l.tcb.send l.tx data with ⟨tcb, tx, res⟩
    rw [hs] at hk
    cases res <;> simp only [Line.step, Line.send, hs] <;> exact h.keeps hk rfl rfl
  | shutdown => exact h.keeps l.tcb.shuts_shutdown.keeps rfl rfl
  | close => exact h.keeps l.tcb.shuts_closeOwn.keeps rfl rfl
  | abort => exact h.keeps l.tcb.shuts_abort.keeps rfl rfl
  | timers now => exact h.keeps (l.tcb.keeps_timers now) rfl rfl
  | nextSegment now => exact h.keeps (l.tcb.keeps_nextSegment now) rfl rfl

end Line

/-- Receive-stream integrity: whatever segments of the stream arrive, in whatever order, what
`recv` has returned is the beginning of the stream, and it is all of it when `recv` reports the
end because of the peer's FIN. -/
theorem recv_stream {stream : List UInt8} {irs : Seq} {l : Line}
    (h : Line.Reaches (Line.OpenedFor irs) (Line.Agrees stream irs) l) :
    l.returned <+: stream ∧
      ∀ size, 0 < size → l.tcb.peerFin = true → (l.tcb.recv l.rx size).2 = .ok [] →
        l.returned = stream := by
  have hread : l.Reading stream irs :=
    h.invariant (fun _ hf hs => hf.reading hs) fun _ _ hr ha => hr.step ha
  refine ⟨hread.returned, fun size hsize hfin hrecv => ?_⟩
  rcases hread.tcb with ⟨-, hw⟩ | ho
  · exact absurd (hw.fin.symm.trans hfin) Bool.false_ne_true
  -- Nothing was returned, so nothing is left in the ring.
  have hlen : l.tcb.rx.len = 0 := by
    by_contra hne
    have hpos : 0 < min size l.tcb.rx.len := by omega
    obtain ⟨t', hr, hside, hst⟩ := Line.recv_of_pos l.rx l.tcb size hpos
    have hbytes := (ho.recv (min_le_right ..) hside hst).2
    have hsent := ho.receives.sent
    rw [hr] at hrecv
    injection hrecv with hnil
    have hcount := congrArg List.length (hbytes.symm.trans hnil)
    rw [length_take, length_drop, length_nil] at hcount
    omega
  have hend := ho.receives.fin hfin
  rw [hlen, add_zero] at hend
  exact hread.returned.eq_of_length hend

/-- A segment of the stream `1, 2, 3`, from position `k`, of a peer whose initial sequence number
is the last but one of the space. -/
def threeBytes (k : Nat) (payload : List UInt8) (fin : Bool) (h : payload.length < 2 ^ 16) :
    TcpSegment :=
  ⟨7, 80, Seq.pos (0xFFFFFFFE + 1) k, 1, false, fin, false, true, 1000, none, false, [], payload, h⟩

/-- The connection that peer opens. -/
def threeBytesLine : Line :=
  ⟨.opened ⟨0, 1, 7, 80, 0xFFFFFFFE, 1000, 536, false⟩ 0 0 1, List.replicate Net.ring 0,
    List.replicate Net.ring 0, [], [], false⟩

theorem threeBytes_agrees (l : Line) (header : List UInt8) (now : Nat) (k : Nat)
    (payload : List UInt8) (fin : Bool) (h : payload.length < 2 ^ 16)
    (hl : -(2 ^ 31) ≤ (k : Int) - l.arrived ∧ (k : Int) - l.arrived < 2 ^ 31)
    (hb : ∀ i < payload.length, payload[i]? = [1, 2, 3][k + i]?)
    (hf : fin = true → k + payload.length = 3) :
    l.Agrees [1, 2, 3] 0xFFFFFFFE (.segment header (threeBytes k payload fin h) now) := by
  refine ⟨k, rfl, hl, fun i hi _ => hb i hi, fun hfin => ?_⟩
  exact_mod_cast hf hfin

/-- The last byte arrives first, then the others, then some of them again with the FIN. -/
theorem recv_stream_reordered :
    ∃ l, Line.Reaches (Line.OpenedFor 0xFFFFFFFE) (Line.Agrees [1, 2, 3] 0xFFFFFFFE) l ∧
      l.tcb.peerFin = true ∧ l.returned = [1, 2, 3] := by
  have h : Line.Reaches (Line.OpenedFor 0xFFFFFFFE) (Line.Agrees [1, 2, 3] 0xFFFFFFFE)
      ((((((threeBytesLine.step (.nextSegment 0)).step
        (.segment [] (threeBytes 2 [3] false (by decide)) 1)).step
        (.segment [9] (threeBytes 0 [1, 2] false (by decide)) 2)).step (.recv 2)).step
        (.segment [] (threeBytes 1 [2, 3] true (by decide)) 3)).step (.recv 2)) := by
    have hzeros : (List.replicate Net.ring (0 : UInt8)).length = Net.ring := length_replicate
    refine .step (.step (.step (.step (.step (.step
      (.fresh (.openPassive _ _ _ _ _ _ hzeros hzeros) ?_) ?_) ?_) ?_) ?_) ?_) ?_
    · exact fun _ => rfl
    · trivial
    · exact threeBytes_agrees _ _ _ _ _ _ _ (by decide +kernel) (by decide) (by decide)
    · exact threeBytes_agrees _ _ _ _ _ _ _ (by decide +kernel) (by decide) (by decide)
    · trivial
    · exact threeBytes_agrees _ _ _ _ _ _ _ (by decide +kernel) (by decide) (by decide)
    · trivial
  exact ⟨_, h, by decide +kernel,
    (recv_stream h).2 1 (by decide) (by decide +kernel) (by decide +kernel)⟩

end Kintane
