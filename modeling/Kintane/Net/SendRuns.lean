import Kintane.Net.Rings
import Kintane.Net.SendProof

/-!
# Sending through any run

A connection through any run of the program's calls, timers and segments of a peer that
acknowledges only what was sent: what it sends is the stream the program queued, each part at the
sequence number of its place.
-/

open List

namespace Kintane

open Kintane.Seq TcpState Net

namespace Tcb

/-- The ring and the fate of the FIN, where nothing is acknowledged and nothing queued. -/
structure RingKept (t t' : Tcb) : Prop where
  iss : t'.iss = t.iss
  tx : t'.tx = t.tx
  finSeq : t.finSeq ≠ none → t'.finSeq ≠ none

/-- The same, and no FIN is queued either. -/
structure FinKept (t t' : Tcb) : Prop extends RingKept t t' where
  finQueued : t'.finQueued = t.finQueued

theorem FinKept.of_sendSide {t t' : Tcb} (h : t'.sendSide = t.sendSide) : t.FinKept t' := by
  have hf : t'.finSeq = t.finSeq := congrArg SendSide.finSeq h
  exact ⟨⟨congrArg SendSide.iss h, congrArg SendSide.tx h, fun h => hf ▸ h⟩, congrArg SendSide.finQueued h⟩

variable (t : Tcb) (now : Nat)

theorem Shuts.ringKept {t t' : Tcb} (h : t.Shuts t') : t.RingKept t' := by
  cases h <;> exact ⟨rfl, rfl, id⟩

theorem finKept_timers : t.FinKept (t.timers now) := by
  have h := timers_ticks t now
  generalize t.timers now = t' at h
  cases h with
  | again => exact ⟨⟨rfl, rfl, id⟩, rfl⟩
  | _ => exact .of_sendSide rfl

theorem finKept_nextSegment : t.FinKept (t.nextSegment now).1 := by
  have hout := sansOut_nextSegment t now
  refine ⟨⟨read_of hout iss fun _ => rfl, read_of hout tx fun _ => rfl, ?_⟩, read_of hout finQueued fun _ => rfl⟩
  have h := nextSegment_emits t now
  generalize t.nextSegment now = r at h
  cases h with
  | data =>
    unfold sendData
    dsimp only
    split <;> exact id
  | fin => exact fun _ => Option.some_ne_none _
  | _ => exact id

/-- Reading changes nothing of the sending side. -/
theorem sendSide_recv (ring : List UInt8) (size : Nat) :
    (t.recv ring size).1.sendSide = t.sendSide ∧ (t.recv ring size).1.state = t.state :=
  ⟨read_of (t.sansText_recv ring size) sendSide fun _ => rfl, read_of (t.sansText_recv ring size) state fun _ => rfl⟩

end Tcb

namespace Line

/-- The ring holds the end of the stream, from `base` on, and the positions fit it. -/
structure Sending (l : Line) (una nxt top base : Nat) : Prop where
  sends : Sends l.tcb una nxt top base
  size : l.tx.length = ring
  total : l.queued.length = base + l.tcb.tx.len
  bytes : Ring.Holds l.tx l.tcb.tx.head base l.queued base (base + l.tcb.tx.len)
  shut : l.tcb.finQueued = true → l.shut = true

/-- A step of a peer that acknowledges what was sent, or of the program. -/
def Genuine (l : Line) : LineOp → Prop
  | .segment _ seg _ => l.tcb.Genuine seg
  | _ => True

/-- What a step takes out of the ring: bytes from `base` to `base'`, by an acknowledgement that
covers them. -/
def Covers (l : Line) (op : LineOp) (base base' : Nat) : Prop :=
  base < base' → ∃ header seg now, op = .segment header seg now ∧ seg.hasAck = true ∧
    ∀ k : Nat, base ≤ k → k < base' → lt (pos l.tcb.iss (1 + k : Nat)) seg.ack = true

theorem Fresh.sending {l : Line} (h : l.Fresh) : l.Sending 0 0 0 0 := by
  have hpos {iss : Seq} {b : Nat} : Positions ⟨iss, iss, iss, iss, .on b, iss + 1, false, none,
      List.replicate sackBlocks none⟩ 0 0 0 0 := by
    have hz := (pos_zero iss).symm
    refine ⟨hz, hz, hz, rfl, le_rfl, le_rfl, Nat.zero_le _, le_rfl, Nat.zero_le _, nofun, ?_⟩
    exact fun _ hb => nomatch eq_of_mem_replicate hb
  cases h with
  | connect _ _ _ _ _ _ _ _ _ htx | openPassive _ _ _ _ _ _ _ htx =>
    refine ⟨⟨hpos, fun _ => ⟨rfl, by omega, rfl, rfl⟩, ?_, ?_⟩, htx, rfl, Ring.Holds.empty _, nofun⟩ <;> rintro ⟨⟩

variable {l : Line} {una nxt top base : Nat} {op : LineOp}

namespace Sending

variable (h : l.Sending una nxt top base)

include h

/-- A step that leaves the ring and the stream alone. -/
theorem stays {l' : Line} {nxt' top' : Nat}
    (hs : Sends l'.tcb una nxt' top' base) (ht : l'.tcb.tx = l.tcb.tx) (hx : l'.tx = l.tx)
    (hq : l'.queued = l.queued) (hf : l'.tcb.finQueued = true → l'.shut = true) :
    l'.Sending una nxt' top' base := by
  refine ⟨hs, hx ▸ h.size, ?_, ?_, hf⟩
  · rw [hq, ht]
    exact h.total
  · rw [hq, ht, hx]
    exact h.bytes

/-- A segment: what it acknowledges leaves the ring. -/
theorem segment {header : List UInt8} {seg : TcpSegment} {now : Nat} (hg : l.tcb.Genuine seg) :
    ∃ una' nxt' top' base', (l.segment header seg now).Sending una' nxt' top' base' ∧
      l.Covers (.segment header seg now) base base' := by
  obtain ⟨⟨una', nxt', top', base', -, hs, hd⟩, hno⟩ := h.sends.segment hg header.length now
  have htx : (l.segment header seg now).tx = l.tx := rfl
  have hq := l.segment_queued header seg now
  have hsh : (l.segment header seg now).shut = l.shut := rfl
  have htcb := l.segment_tcb header seg now
  rw [← htcb] at hs hd hno
  have hsum : base' + (l.segment header seg now).tcb.tx.len = base + l.tcb.tx.len := hd.sum
  have hle := hd.le
  refine ⟨una', nxt', top', base', ⟨hs, htx ▸ h.size, ?_, ?_, ?_⟩, fun hlt => ?_⟩
  · rw [hq, hsum]
    exact h.total
  · rw [hq, htx, hsum]
    intro x h1 h2
    have hhead : ((l.segment header seg now).tcb.tx.head + (x - base')) % ring =
        (l.tcb.tx.head + (base' - base) + (x - base')) % ring := hd.head _
    rw [Ring.at?, h.size, hhead, ← h.size, ← Ring.at?,
      show l.tcb.tx.head + (base' - base) + (x - base') = l.tcb.tx.head + (x - base) by omega]
    exact h.bytes x (by omega) h2
  · rw [hsh]
    exact fun hf => h.shut (hd.fin.1.symm.trans hf)
  · refine ⟨header, seg, now, rfl, ?_, hd.covered⟩
    by_contra hack
    have := hno (by simpa using hack)
    omega

omit h in
theorem send_none {data : List UInt8} {res : Except TcpError Nat} (hr : l.tcb.send l.tx data = (l.tcb, l.tx, res))
    (hz : ∀ n, res = .ok n → n = 0) : l.send data = l := by
  cases res with
  | error e => simp only [Line.send, hr]
  | ok n => simp only [Line.send, hr, hz n rfl, take_zero, append_nil]

/-- Bytes are queued behind what the ring holds. -/
theorem send (data : List UInt8) : (l.send data).Sending una nxt top base := by
  have hs := h.sends.send l.tx data
  rcases l.tcb.send_cases l.tx data with ⟨res, hr, hz⟩ | ⟨n, hn, hroom, -, -, hr⟩
  · rw [send_none hr hz]
    exact h
  · rw [hr] at hs
    have hd : (data.take n).length = n := length_take_of_le hn
    have hq : (l.queued ++ data.take n).length = base + (l.tcb.tx.len + n) := by
      rw [length_append, h.total, hd]
      omega
    have hpos : l.tcb.tx.head + l.tcb.tx.len = l.tcb.tx.head + (base + l.tcb.tx.len - base) := by omega
    have hlen : (data.take n).length ≤ Net.ring := by omega
    have hnew : ∀ i < (data.take n).length,
        (data.take n)[i]? = (l.queued ++ data.take n)[base + l.tcb.tx.len + i]? := by
      intro i _
      rw [getElem?_append_right (by rw [h.total]; omega), h.total]
      congr 1
      omega
    have hold : Ring.Holds l.tx l.tcb.tx.head base (l.queued ++ data.take n) base
        (base + l.tcb.tx.len) := by
      intro x h1 h2
      rw [getElem?_append_left (by rw [h.total]; exact h2)]
      exact h.bytes x h1 h2
    simp only [Line.send, hr, hpos]
    refine ⟨hs, length_ringWrite h.size hlen _, hq, ?_, h.shut⟩
    have hw : base + l.tcb.tx.len + (data.take n).length ≤ base + Net.ring := by omega
    have h1 := hold.written h.size hlen (Nat.le_add_right ..) hw hnew le_rfl (by omega)
    have h2 : Ring.Holds _ l.tcb.tx.head base _ _ _ :=
      holds_written h.size hlen (Nat.le_add_right base l.tcb.tx.len) hw hnew
    rw [hd, add_assoc] at h2
    exact h1.union h2 le_rfl

/-- Every step keeps the stream. -/
theorem step (hg : l.Genuine op) :
    ∃ una' nxt' top' base', (l.step op).Sending una' nxt' top' base' ∧ l.Covers op base base' := by
  have hnone : l.Covers op base base := fun hlt => absurd hlt (lt_irrefl _)
  cases op with
  | segment header seg now => exact h.segment hg
  | recv size =>
    obtain ⟨hside, hst⟩ := l.tcb.sendSide_recv l.rx size
    have hk := Tcb.FinKept.of_sendSide hside
    have hs := h.sends.congr hside hst
    rcases hr : l.tcb.recv l.rx size with ⟨tcb, res⟩
    rw [hr] at hk hs
    refine ⟨una, nxt, top, base, ?_, hnone⟩
    cases res <;> simp only [Line.step, Line.recv, hr] <;>
      exact h.stays hs hk.tx rfl rfl fun hf => h.shut (hk.finQueued.symm.trans hf)
  | send data => exact ⟨una, nxt, top, base, h.send data, hnone⟩
  | shutdown =>
    have hs := l.tcb.shuts_shutdown
    exact ⟨una, nxt, top, base, h.stays (h.sends.shuts hs) hs.ringKept.tx rfl rfl fun _ => rfl, hnone⟩
  | close =>
    have hs := l.tcb.shuts_closeOwn
    exact ⟨una, nxt, top, base, h.stays (h.sends.shuts hs) hs.ringKept.tx rfl rfl fun _ => rfl, hnone⟩
  | abort =>
    exact ⟨una, nxt, top, base, h.stays (h.sends.closed rfl rfl) rfl rfl rfl h.shut, hnone⟩
  | timers now =>
    obtain ⟨nxt', hs⟩ := h.sends.timers now
    have hk := l.tcb.finKept_timers now
    exact ⟨una, nxt', top, base, h.stays hs hk.tx rfl rfl fun hf => h.shut (hk.finQueued.symm.trans hf), hnone⟩
  | nextSegment now =>
    obtain ⟨nxt', top', hs⟩ := h.sends.nextSegment now
    have hk := l.tcb.finKept_nextSegment now
    exact ⟨una, nxt', top', base, h.stays hs hk.tx rfl rfl fun hf => h.shut (hk.finQueued.symm.trans hf), hnone⟩

end Sending

/-! ## What is sent -/

/-- What `next_segment` sends is the stream: data at its place and not before what is
acknowledged, and a FIN at its end, once the program has shut it. -/
structure SendsStream (l : Line) : Prop where
  data : ∀ now out buf position n, (l.tcb.nextSegment now).2 = some out →
    out.data = some (buf, position, n) →
    ∃ k, l.queued.length - l.tcb.tx.len ≤ k ∧ k + n ≤ l.queued.length ∧ buf = l.tcb.tx.buf ∧
      out.header.seq = l.tcb.iss + 1 + BitVec.ofNat 32 k ∧
      ringRead l.tx position n = (l.queued.drop k).take n ∧
      le l.tcb.sndUna out.header.seq = true
  fin : ∀ now out, (l.tcb.nextSegment now).2 = some out → out.header.hasFin = true →
    l.shut = true ∧ out.header.seq = l.tcb.iss + 1 + BitVec.ofNat 32 l.queued.length
  /-- Once a FIN has a sequence number, the stream grows no more. -/
  sealed : l.tcb.finSeq ≠ none → ∀ op, (l.step op).queued = l.queued ∧ (l.step op).tcb.finSeq ≠ none

/-- The bytes that were queued last, as many as the ring has, are in the ring; a step takes one
out only if it is a segment with an acknowledgement that covers the byte. -/
structure KeepsUnacked (l : Line) (op : LineOp) : Prop where
  held : ∀ k, l.queued.length - l.tcb.tx.len ≤ k → k < l.queued.length →
    Ring.at? l.tx (l.tcb.tx.head + (k - (l.queued.length - l.tcb.tx.len))) = l.queued[k]?
  covered : ∀ k, l.queued.length - l.tcb.tx.len ≤ k → k < l.queued.length →
    k < (l.step op).queued.length - (l.step op).tcb.tx.len →
    ∃ header seg now, op = .segment header seg now ∧ seg.hasAck = true ∧
      lt (l.tcb.iss + 1 + BitVec.ofNat 32 k) seg.ack = true

namespace Sending

theorem base_eq (h : l.Sending una nxt top base) : l.queued.length - l.tcb.tx.len = base := by
  rw [h.total, Nat.add_sub_cancel]

theorem keepsUnacked (h : l.Sending una nxt top base) (hg : l.Genuine op) :
    l.KeepsUnacked op := by
  obtain ⟨una', nxt', top', base', h', hc⟩ := h.step hg
  constructor
  · intro k h1 h2
    rw [h.base_eq] at h1 ⊢
    exact h.bytes k h1 (h.total ▸ h2)
  · intro k h1 h2 h3
    rw [h.base_eq] at h1
    rw [h'.base_eq] at h3
    obtain ⟨header, seg, now, rfl, hack, hcov⟩ := hc (by omega)
    refine ⟨header, seg, now, rfl, hack, ?_⟩
    rw [← pos_one_add]
    exact hcov k h1 h3

omit una nxt top base in
/-- A connection that was shut takes no more bytes, and a FIN that was sent stays sent. -/
theorem sealed_step (hq : l.tcb.finQueued = true) (hfin : l.tcb.finSeq ≠ none) (op : LineOp) :
    (l.step op).queued = l.queued ∧ (l.step op).tcb.finSeq ≠ none := by
  cases op with
  | segment header seg now =>
    have hs := l.tcb.finSeq_segment seg header.length now
    simp only [Line.step, segment_queued, segment_tcb, hs]
    exact ⟨trivial, hfin⟩
  | recv size =>
    have hk := Tcb.FinKept.of_sendSide (l.tcb.sendSide_recv l.rx size).1
    rcases hr : l.tcb.recv l.rx size with ⟨tcb, res⟩
    rw [hr] at hk
    cases res <;> simp only [Line.step, Line.recv, hr] <;> exact ⟨trivial, hk.finSeq hfin⟩
  | send data =>
    rcases l.tcb.send_cases l.tx data with ⟨res, hr, hz⟩ | ⟨n, -, -, -, hno, -⟩
    · rw [Line.step, send_none hr hz]
      exact ⟨rfl, hfin⟩
    · exact absurd (hno.symm.trans hq) nofun
  | shutdown => exact ⟨rfl, l.tcb.shuts_shutdown.ringKept.finSeq hfin⟩
  | close => exact ⟨rfl, l.tcb.shuts_closeOwn.ringKept.finSeq hfin⟩
  | abort => exact ⟨rfl, hfin⟩
  | timers now => exact ⟨rfl, (l.tcb.finKept_timers now).finSeq hfin⟩
  | nextSegment now => exact ⟨rfl, (l.tcb.finKept_nextSegment now).finSeq hfin⟩

theorem late (h : l.Sending una nxt top base) (hs : l.tcb.sending = true) : 1 ≤ una := by
  refine h.sends.late ?_
  unfold Tcb.sending at hs
  cases hst : l.tcb.state <;> simp_all [synchronized]

theorem sendsStream (h : l.Sending una nxt top base) : l.SendsStream := by
  have hpos := h.sends.pos
  have hun := hpos.una_le
  have hnt := hpos.nxt_le
  have hnear := hpos.top_near
  have hbase := hpos.base_le
  have hlen : l.tcb.tx.len ≤ ring := hpos.len
  have hnxt : l.tcb.sndNxt = pos l.tcb.iss nxt := hpos.sndNxt
  refine ⟨?_, ?_, ?_⟩
  · intro now out buf position n hout hdata
    have he := l.tcb.nextSegment_emits now
    generalize l.tcb.nextSegment now = r at he hout
    cases he with
    | quiet => cases hout
    | data hs hd =>
      cases hout
      cases hdata
      have hu := h.late hs
      have hsent := hpos.sent_eq hu
      have hle := Positions.dataLen_le l.tcb
      rw [Tcb.unsent, hsent] at hle
      have htot := h.total
      refine ⟨nxt - 1, ?_, ?_, rfl, ?_, ?_, ?_⟩
      · omega
      · omega
      · change l.tcb.sndNxt = _
        rw [hnxt, ← pos_one_add]
        congr 2
        omega
      · have hheld := (h.bytes.mono (by omega : base ≤ base + l.tcb.sent) le_rfl).advance l.tcb.sent le_rfl
        rw [h.size] at hheld
        rw [ringRead_eq h.size _ (by omega),
          (hheld.mono le_rfl (by omega)).window_eq (by omega : base + l.tcb.sent + _ ≤ _)]
        congr 2
        omega
      · change le l.tcb.sndUna l.tcb.sndNxt = true
        rw [hnxt, show l.tcb.sndUna = _ from hpos.sndUna]
        change le (pos l.tcb.iss una) _ = true
        rw [le_pos _ (by omega) (by omega)]
        exact decide_eq_true (by omega)
    | _ =>
      cases hout
      cases hdata
  · intro now out hout hfin
    have he := l.tcb.nextSegment_emits now
    generalize l.tcb.nextSegment now = r at he hout
    cases he with
    | quiet => cases hout
    | fin _ hdue =>
      cases hout
      obtain ⟨hend, hq⟩ := hpos.nxt_of_finDue hdue
      refine ⟨h.shut hq, ?_⟩
      change l.tcb.sndNxt = _
      rw [hnxt, ← pos_one_add, h.total, hend]
    | _ =>
      cases hout
      cases hfin
  · intro hfin op
    obtain ⟨f, hf⟩ := Option.ne_none_iff_exists'.mp hfin
    exact sealed_step (hpos.fin f hf).2.1 hfin op

end Sending

end Line

/-- Send-stream integrity, as long as the peer acknowledges only what was sent: every segment
carries the stream at its place, and no byte leaves the ring before it is acknowledged. -/
theorem send_stream {l : Line} (h : Line.Reaches (fun _ => True) Line.Genuine l) :
    l.SendsStream ∧ ∀ op, l.Genuine op → l.KeepsUnacked op := by
  have hs : ∃ una nxt top base, l.Sending una nxt top base := by
    refine Line.Reaches.invariant (P := fun l => ∃ una nxt top base, l.Sending una nxt top base)
      (fun l hf _ => ⟨0, 0, 0, 0, hf.sending⟩) (fun l op hl hg => ?_) h
    obtain ⟨una, nxt, top, base, hl⟩ := hl
    obtain ⟨una', nxt', top', base', hl', -⟩ := hl.step hg
    exact ⟨una', nxt', top', base', hl'⟩
  obtain ⟨una, nxt, top, base, hs⟩ := hs
  exact ⟨hs.sendsStream, fun op hg => hs.keepsUnacked hg⟩

/-- A segment without payload, of a peer whose initial sequence number is 9. -/
def bareSegment (syn : Bool) (seq ack : Seq) : TcpSegment :=
  ⟨7, 80, seq, ack, syn, false, false, true, 1000, none, false, [], [], TcpSegment.empty_lt⟩

/-- A connection that was just opened, with initial sequence number 0. -/
def zeroLine : Line :=
  ⟨.connecting 80 1 7 0 0 1, List.replicate ring 0, List.replicate ring 0, [], [], false⟩

theorem zeroLine_fresh : zeroLine.Fresh :=
  .connect _ _ _ _ _ _ _ _ length_replicate length_replicate

/-- A byte is sent, and leaves the ring when it is acknowledged. -/
theorem send_stream_one :
    ∃ l, Line.Reaches (fun _ => True) Line.Genuine l ∧ l.tcb.tx.len = 1 ∧ l.SendsStream ∧
      l.KeepsUnacked (.segment [] (bareSegment false 10 2) 4) ∧
      (l.step (.segment [] (bareSegment false 10 2) 4)).tcb.tx.len = 0 := by
  have hg : ∀ (l : Line) (syn : Bool) (seq ack : Seq), l.tcb.sndMax ≠ l.tcb.iss →
      l.Genuine (.segment [] (bareSegment syn seq ack) 0) := fun l syn seq ack hne =>
    ⟨fun _ _ _ _ => hne, fun b hb => nomatch hb⟩
  have h : Line.Reaches (fun _ => True) Line.Genuine
      (((((zeroLine.step (.nextSegment 0)).step (.segment [] (bareSegment true 9 1) 0)).step
        (.send [5])).step (.nextSegment 2)).step (.nextSegment 3)) := by
    refine .step (.step (.step (.step (.step (.fresh zeroLine_fresh trivial) trivial) ?_) trivial)
      trivial) trivial
    exact hg _ _ _ _ (by decide +kernel)
  obtain ⟨h1, h2⟩ := send_stream h
  exact ⟨_, h, by decide +kernel, h1,
    h2 _ ⟨fun _ _ _ _ => by decide +kernel, fun b hb => nomatch hb⟩, by decide +kernel⟩

/-- A peer that acknowledges a SYN before it is sent makes the connection give up a byte that was
never sent and that no acknowledgement covers. -/
theorem send_stream_fails : ∃ l op, Line.Reaches (fun _ => True) (fun _ _ => True) l ∧ ¬l.KeepsUnacked op := by
  refine ⟨(((zeroLine.step (.segment [] (bareSegment true 9 1) 0)).step
    (.segment [] (bareSegment false 10 (2 ^ 31)) 1)).step
    (.segment [] (bareSegment false 10 (2 ^ 31 + 1)) 2)).step (.send [5]),
    .segment [] (bareSegment false 10 0) 3, ?_, ?_⟩
  · exact .step (.step (.step (.step (.fresh zeroLine_fresh trivial) trivial) trivial) trivial) trivial
  · intro h
    obtain ⟨header, seg, now, he, -, hlt⟩ :=
      h.covered 0 (by decide +kernel) (by decide +kernel) (by decide +kernel)
    cases he
    exact absurd hlt (by decide +kernel)

end Kintane
