import Kintane.Net.Receive
import Kintane.Net.SendRuns

/-!
# What a round trip is measured from

A connection times one segment at a time, and takes its round trip when the acknowledgement of it
arrives. A segment that was sent twice says nothing, since either copy may have been answered, so
whatever goes back to send again drops the measurement.

Two ways of going back do not: a SYN that arrives in SYN-RECEIVED, and one without an
acknowledgement in SYN-SENT. Both make the connection send its own SYN again while the first is
still timed. Without them all that is ever timed was sent exactly once.
-/

namespace Kintane

open List Kintane.Seq

/-- A range of sequence space that was sent, counted from the initial sequence number. -/
structure Sent where
  start : Int
  len : Nat
  time : Nat
  deriving DecidableEq

def Sent.overlaps (a b : Sent) : Bool := a.start < b.start + b.len && b.start < a.start + a.len

/-- A range up to `through` was sent at `time`, and nothing of it at another time. -/
def SentOnce (iss : Seq) (sent : List Sent) (through : Seq) (time : Nat) : Prop :=
  ∃ e, sent.filter (Sent.overlaps e) = [e] ∧ e.time = time ∧ through = pos iss (e.start + e.len)

/-- The sequence space of a segment. -/
def OutSegment.space (out : OutSegment) : Nat :=
  out.data.elim 0 (·.2.2) + out.header.hasSyn.toNat + out.header.hasFin.toNat

/-- A connection with the ranges it has sent, and the count that `snd_max` has come to. -/
structure Traced extends Line where
  top : Int
  sent : List Sent

/-- The range that a segment sends, if it takes sequence space. -/
def Tcb.range (t : Tcb) (top : Int) (now : Nat) : Option OutSegment → List Sent
  | none => []
  | some out => if out.space = 0 then [] else [⟨top - (t.sndMax - out.header.seq).toNat, out.space, now⟩]

namespace Traced

def step (s : Traced) (op : LineOp) : Traced where
  toLine := s.toLine.step op
  top := s.top + ((s.toLine.step op).tcb.sndMax - s.tcb.sndMax).toNat
  sent :=
    match op with
    | .nextSegment now => s.sent ++ s.tcb.range s.top now (s.tcb.nextSegment now).2
    | _ => s.sent

inductive Reaches (allowed : Line → LineOp → Prop) : Traced → Prop where
  | fresh {l : Line} (h : l.Fresh) : Reaches allowed ⟨l, 0, []⟩
  | step {s : Traced} {op : LineOp} (h : Reaches allowed s) (ha : allowed s.toLine op) : Reaches allowed (s.step op)

end Traced

namespace Tcb

variable {t t' : Tcb} {top : Int} {sent : List Sent}

/-- What is timed was sent once, and only what was never sent is sent next. -/
structure Times (t : Tcb) (top : Int) (sent : List Sent) : Prop where
  ends : ∀ e ∈ sent, e.start + e.len ≤ top
  max : t.sndMax = pos t.iss top
  unopened : t.state = .synSent → ∀ x, t.timing = some x → x.1 = t.iss + 1
  timed : ∀ x, t.timing = some x → t.sndNxt = t.sndMax ∧ SentOnce t.iss sent x.1 x.2

/-! ## Steps that send nothing -/

/-- Going back only with the measurement dropped. -/
structure Waits (t t' : Tcb) : Prop where
  opened : t.state ≠ .synSent → t'.state ≠ .synSent
  iss : t'.iss = t.iss
  max : t'.sndMax = t.sndMax
  timing : ∀ x, t'.timing = some x → t.timing = some x ∧ t'.sndNxt = t.sndNxt

/-- What `Waits` reads beside the state. -/
def timed (t : Tcb) : Seq × Seq × Option (Seq × Nat) × Seq := (t.iss, t.sndMax, t.timing, t.sndNxt)

theorem Waits.of_eq (hs : t.state ≠ .synSent → t'.state ≠ .synSent) (h : t'.timed = t.timed) : t.Waits t' := by
  simp only [Tcb.timed, Prod.mk.injEq] at h
  obtain ⟨hi, hm, ht, hn⟩ := h
  exact ⟨hs, hi, hm, fun x hx => ⟨ht ▸ hx, hn⟩⟩

theorem Times.waits (h : t.Times top sent) (hw : t.Waits t') : t'.Times top sent := by
  obtain ⟨hopen, hi, hm, ht⟩ := hw
  refine ⟨h.ends, ?_, fun hst x hx => ?_, fun x hx => ?_⟩
  · rw [hm, hi]
    exact h.max
  · rw [hi]
    exact h.unopened (not_not.mp (mt hopen (not_not.mpr hst))) x (ht x hx).1
  · rw [hi, hm, (ht x hx).2]
    exact h.timed x (ht x hx).1

theorem Shuts.waits (h : t.Shuts t') : t.Waits t' := by
  refine .of_eq h.keeps.later.opened ?_
  cases h <;> rfl

theorem waits_timers (t : Tcb) (now : Nat) : t.Waits (t.timers now) := by
  have hs := (t.keeps_timers now).later.opened
  have h := timers_ticks t now
  generalize t.timers now = t' at h hs
  cases h with
  | again => exact ⟨hs, rfl, rfl, nofun⟩
  | _ => exact .of_eq hs rfl

theorem waits_send (t : Tcb) (ring data : List UInt8) : t.Waits (t.send ring data).1 := by
  refine .of_eq (t.keeps_send ring data).later.opened ?_
  rcases t.send_cases ring data with ⟨res, hr, -⟩ | ⟨n, -, -, -, -, hr⟩
  · rw [hr]
  · rw [hr]
    rfl

/-! ## Segments that arrive -/

theorem timed_duplicateAck (t : Tcb) (seg : TcpSegment) : (t.duplicateAck seg).timed = t.timed ∨
    (t.duplicateAck seg).timed = (t.iss, t.sndMax, none, (t.duplicateAck seg).sndNxt) := by
  unfold duplicateAck
  dsimp only
  split <;> split <;> first | exact .inl rfl | (split <;> first | exact .inr rfl | exact .inl rfl)

theorem acknowledge_spec (t : Tcb) (ack : Seq) (now : Nat) : (t.acknowledge ack now).sndMax = t.sndMax ∧
    (t.acknowledge ack now).srtt = (t.ackTiming ack now).srtt ∧
    ∀ x, (t.acknowledge ack now).timing = some x → t.timing = some x ∧ le x.1 ack = false ∧
      (lt t.sndNxt ack = false → (t.acknowledge ack now).sndNxt = t.sndNxt) := by
  have hdata : ((t.ackData ack).ackTiming ack now).sndMax = t.sndMax ∧
      ((t.ackData ack).ackTiming ack now).srtt = (t.ackTiming ack now).srtt ∧
      ∀ x, ((t.ackData ack).ackTiming ack now).timing = some x → t.timing = some x ∧ le x.1 ack = false ∧
        (lt t.sndNxt ack = false → ((t.ackData ack).ackTiming ack now).sndNxt = t.sndNxt) := by
    have hnxt (hlt : lt t.sndNxt ack = false) : (t.ackData ack).sndNxt = t.sndNxt := by simp [ackData, hlt]
    unfold ackTiming
    rw [show (t.ackData ack).timing = t.timing from rfl]
    cases ht : t.timing with
    | none => exact ⟨rfl, rfl, fun x hx => absurd (ht.symm.trans hx) nofun⟩
    | some y =>
      dsimp only
      split
      · exact ⟨rfl, rfl, nofun⟩
      rename_i hle
      refine ⟨rfl, rfl, fun x hx => ?_⟩
      cases ht.symm.trans hx
      exact ⟨rfl, by simpa using hle, hnxt⟩
  unfold acknowledge ackTimer ackRecovery
  split
  · split
    · exact hdata
    · exact ⟨hdata.1, hdata.2.1, nofun⟩
  · exact hdata

/-- An acknowledgement changes the estimate by the time since what it covers was sent. -/
theorem srtt_segment (t : Tcb) (seg : TcpSegment) (start now : Nat) : (t.segment seg start now).1.srtt = t.srtt ∨
    ∃ x, t.timing = some x ∧ le x.1 seg.ack = true ∧
      (t.segment seg start now).1.srtt = (t.sampleRtt (now - x.2)).srtt := by
  cases segment_effect t seg start now with
  | stays h | reset h | again _ h => exact .inl (read_of h srtt fun _ => rfl)
  | duplicate h =>
    refine .inl ((read_of h srtt fun _ => rfl).trans ?_)
    unfold duplicateAck
    dsimp only
    split <;> split <;> first | rfl | (split <;> rfl)
  | acked t0 h0 _ h =>
    have hsrtt := (read_of h srtt fun _ => rfl).trans (t0.acknowledge_spec seg.ack now).2.1
    have ht0 : t0.timing = t.timing := read_of h0 timing fun _ => rfl
    have hs0 : t0.srtt = t.srtt := read_of h0 srtt fun _ => rfl
    unfold ackTiming at hsrtt
    rw [ht0] at hsrtt
    split at hsrtt
    · exact .inl (hsrtt.trans hs0)
    split at hsrtt
    · refine .inr ⟨_, ‹_›, ‹_›, hsrtt.trans ?_⟩
      unfold sampleRtt
      rw [hs0]
    · exact .inl (hsrtt.trans hs0)

theorem Times.segment (h : t.Times top sent) {seg : TcpSegment} (hr : t.timing ≠ none → t.rewinds seg = false)
    (start now : Nat) : t.Waits (t.segment seg start now).1 := by
  have hopen := t.segment_opened seg start now
  have heffect := t.segment_effect seg start now
  generalize (t.segment seg start now).1 = t' at hopen heffect
  cases heffect with
  | stays h' | reset h' => exact .of_eq hopen (read_of h' Tcb.timed fun _ => rfl)
  | again hrewinds h' =>
    cases ht : t.timing with
    | none =>
      have ht' : t'.timing = none := (read_of h' timing fun _ => rfl).trans ht
      exact ⟨hopen, read_of h' iss fun _ => rfl, read_of h' sndMax fun _ => rfl,
        fun x hx => absurd (ht'.symm.trans hx) nofun⟩
    | some x => cases (hr (ht ▸ nofun)).symm.trans hrewinds
  | duplicate h' =>
    have htimed : t'.timed = _ := read_of h' Tcb.timed fun _ => rfl
    rcases t.timed_duplicateAck seg with hd | hd <;> rw [hd] at htimed
    · exact .of_eq hopen htimed
    · simp only [Tcb.timed, Prod.mk.injEq] at htimed
      obtain ⟨hi, hm, ht, -⟩ := htimed
      exact ⟨hopen, hi, hm, fun x hx => absurd (ht.symm.trans hx) nofun⟩
  | acked t0 h0 hack h' =>
    obtain ⟨hmax, -, htiming⟩ := t0.acknowledge_spec seg.ack now
    have hiss := read_of (t0.sansSend_acknowledge seg.ack now) iss fun _ => rfl
    have htimed : t'.timed = _ := read_of h' Tcb.timed fun _ => rfl
    have htimed0 : t0.timed = _ := read_of h0 Tcb.timed fun _ => rfl
    simp only [Tcb.timed, Prod.mk.injEq] at htimed htimed0
    obtain ⟨hi, hm, ht, hn⟩ := htimed
    obtain ⟨hi0, hm0, ht0, hn0⟩ := htimed0
    refine ⟨hopen, hi.trans (hiss.trans hi0), hm.trans (hmax.trans hm0), fun x hx => ?_⟩
    obtain ⟨hx, hle, hnxt⟩ := htiming x (ht ▸ hx)
    rw [ht0] at hx
    refine ⟨hx, hn.trans ((hnxt ?_).trans hn0)⟩
    rcases hack with ⟨hst, ha, -⟩ | ⟨-, -, hlt⟩
    · -- the SYN is what is timed, and is covered
      rw [h.unopened hst x hx, ha] at hle
      simp [le] at hle
    · rw [hn0, (h.timed x hx).1]
      exact hlt

/-! ## Segments that are sent -/

/-- A step that sends `n` units of sequence space. -/
structure Advanced (t t' : Tcb) (n now : Nat) : Prop where
  iss : t'.iss = t.iss
  max : t'.sndMax = if lt t.sndMax (t.sndNxt + BitVec.ofNat 32 n) then t.sndNxt + BitVec.ofNat 32 n else t.sndMax
  new : t.sndNxt = t.sndMax → t'.sndNxt = t.sndNxt + BitVec.ofNat 32 n ∧
    t'.timing = t.timing.or (some (t.sndNxt + BitVec.ofNat 32 n, now))
  old : t.sndNxt ≠ t.sndMax → t.timing = none → t'.timing = none
  unopened : t'.state = .synSent → t.state = .synSent ∧ t.sndNxt = t.iss ∧ n = 1

theorem advanced_advance {t0 : Tcb} (n now : Nat) (h : t0.timed = t.timed) (hs : t0.state = t.state)
    (hone : t.state = .synSent → t.sndNxt = t.iss ∧ n = 1) : t.Advanced (t0.advance n now) n now := by
  simp only [timed, Prod.mk.injEq] at h
  obtain ⟨hi, hm, ht, hn⟩ := h
  unfold advance
  rw [hm, ht, hn]
  refine ⟨hi, rfl, fun heq => ⟨rfl, ?_⟩, fun hne htn => ?_, fun hst => ?_⟩
  · cases hx : t.timing <;> simp [heq]
  · simp [hne, htn]
  · have hst : t.state = .synSent := hs ▸ hst
    exact ⟨hst, hone hst⟩

theorem advanced_sendData (t : Tcb) (n now : Nat) (hs : t.state ≠ .synSent) :
    t.Advanced (t.sendData n now) n now := by
  unfold sendData
  dsimp only
  split
  · rename_i hr
    have hne : t.sndNxt ≠ t.sndMax := by
      intro he
      simp [resending, he, lt] at hr
    have hnone : ¬(t.sndNxt = t.sndMax ∧ (none : Option (Seq × Nat)) = none) := fun h => hne h.1
    exact ⟨rfl, rfl, fun he => absurd he hne, fun _ _ => if_neg hnone, fun hst => absurd hst hs⟩
  · exact advanced_advance n now rfl rfl fun hst => absurd hst hs

theorem dataLen_lt (t : Tcb) : t.dataLen < 2 ^ 31 := by
  have hseg : t.seg ≤ 189 := by
    unfold seg
    have : Net.sendSeg = 189 := rfl
    omega
  have hn : (if t.resending ∧ t.recovering ∧ !t.resend then 0 else min (min t.unsent t.usable) t.seg) ≤ 189 := by
    split <;> omega
  unfold dataLen
  dsimp only
  split
  · split <;> omega
  · omega

theorem Times.advanced {out : OutSegment} {now : Nat} (h : t.Times top sent) (hseq : out.header.seq = t.sndNxt)
    (hn : 0 < out.space ∧ out.space < 2 ^ 31) (ha : t.Advanced t' out.space now) :
    t'.Times (top + (t'.sndMax - t.sndMax).toNat) (sent ++ t.range top now (some out)) := by
  rw [range, if_neg (pos_iff_ne_zero.mp hn.1), hseq]
  generalize out.space = n at hn ha
  have hlt : lt t.sndMax (t.sndMax + BitVec.ofNat 32 n) = true := by
    simp only [lt, Bool.and_eq_true, bne_iff_ne, decide_eq_true_eq]
    constructor <;> bv_omega
  -- With something timed the segment goes past all that was sent.
  have hpast {x : Seq × Nat} (hx : t'.timing = some x) : t.sndNxt = t.sndMax ∧ t'.sndNxt = t'.sndMax ∧
      t.timing.or (some (t.sndNxt + BitVec.ofNat 32 n, now)) = some x := by
    by_cases heq : t.sndNxt = t.sndMax
    · obtain ⟨hnxt, htiming⟩ := ha.new heq
      refine ⟨heq, ?_, htiming.symm.trans hx⟩
      rw [hnxt, ha.max, heq, if_pos hlt]
    · cases ht : t.timing with
      | none => cases (ha.old heq ht).symm.trans hx
      | some y => exact absurd (h.timed y ht).1 heq
  constructor
  · intro e he
    rcases mem_append.mp he with he | he
    · exact (h.ends e he).trans (by omega)
    rw [mem_singleton.mp he, ha.max]
    unfold lt
    split <;> rename_i hlt <;>
      simp only [Bool.and_eq_true, bne_iff_ne, decide_eq_true_eq, not_and, not_lt] at hlt <;> bv_omega
  · rw [ha.iss, ← pos_add_ofNat, ← h.max, BitVec.ofNat_toNat, BitVec.setWidth_eq]
    bv_omega
  · intro hst x hx
    obtain ⟨hst, hnxt, hone⟩ := ha.unopened hst
    rw [ha.iss]
    rcases Option.or_eq_some_iff.mp (hpast hx).2.2 with hx | ⟨-, hx⟩
    · exact h.unopened hst x hx
    · rw [← Option.some.inj hx, hnxt, hone]
      rfl
  · intro x hx
    obtain ⟨heq, heq', hor⟩ := hpast hx
    refine ⟨heq', ?_⟩
    rw [ha.iss, heq, BitVec.sub_self]
    rcases Option.or_eq_some_iff.mp hor with hx | ⟨-, hx⟩
    · obtain ⟨-, e, hf, htime, hthrough⟩ := h.timed x hx
      have he := h.ends e (mem_of_mem_filter (hf ▸ mem_singleton_self e))
      refine ⟨e, ?_, htime, hthrough⟩
      rw [filter_append, hf]
      simp [Sent.overlaps, he]
    · cases hx
      refine ⟨⟨top - (0 : Seq).toNat, n, now⟩, ?_, rfl, ?_⟩
      · rw [filter_append, filter_eq_nil_iff.mpr]
        · simp [Sent.overlaps, hn.1]
        · intro e he
          have := h.ends e he
          simp [Sent.overlaps, this]
      · rw [heq, h.max, pos_add_ofNat]
        simp

theorem Times.nextSegment (h : t.Times top sent) (now : Nat) :
    (t.nextSegment now).1.Times (top + ((t.nextSegment now).1.sndMax - t.sndMax).toNat)
      (sent ++ t.range top now (t.nextSegment now).2) := by
  have he := t.nextSegment_emits now
  generalize t.nextSegment now = r at he
  cases he with
  | reset | quiet | ack =>
    simp only [range, OutSegment.space, header, Option.elim_none, Bool.toNat_false, add_zero, if_true, append_nil,
      BitVec.sub_self, BitVec.toNat_zero, Int.natCast_zero]
    exact h.waits (.of_eq id rfl)
  | syn hs hiss =>
    exact h.advanced hiss.symm (show 0 < 1 ∧ 1 < 2 ^ 31 by decide) (advanced_advance 1 now rfl rfl fun _ => ⟨hiss, rfl⟩)
  | data hs hd =>
    refine h.advanced rfl (by exact ⟨hd.2, t.dataLen_lt⟩) (t.advanced_sendData t.dataLen now fun hst => ?_)
    simp [sending, hst] at hs
  | fin hs hf d =>
    refine h.advanced rfl (show 0 < 1 ∧ 1 < 2 ^ 31 by decide) (advanced_advance 1 now rfl rfl fun hst => ?_)
    simp [sending, hst] at hs

end Tcb

/-- A step makes a connection send its SYN again while that is timed. -/
def Line.Resends (l : Line) : LineOp → Prop
  | .segment _ seg _ => l.tcb.timing ≠ none ∧ l.tcb.rewinds seg = true
  | _ => False

namespace Traced

variable {s : Traced}

theorem step_times (h : s.tcb.Times s.top s.sent) {op : LineOp} (ha : ¬s.toLine.Resends op) :
    (s.step op).tcb.Times (s.step op).top (s.step op).sent := by
  have hwait {op : LineOp} (hw : s.tcb.Waits (s.toLine.step op).tcb) :
      (s.toLine.step op).tcb.Times (s.top + ((s.toLine.step op).tcb.sndMax - s.tcb.sndMax).toNat) s.sent := by
    have : s.top + ((s.toLine.step op).tcb.sndMax - s.tcb.sndMax).toNat = s.top := by simp [hw.max]
    rw [this]
    exact h.waits hw
  cases op with
  | nextSegment now => exact h.nextSegment now
  | segment header seg now =>
    refine hwait ?_
    rw [Line.step, Line.segment_tcb]
    exact h.segment (fun ht => by simpa [Line.Resends, ht] using ha) header.length now
  | recv size =>
    refine hwait ?_
    rw [Line.step, Line.recv_tcb]
    have hrecv := s.tcb.sansText_recv s.rx size
    exact .of_eq (Tcb.read_of hrecv Tcb.state (fun _ => rfl) ▸ id) (Tcb.read_of hrecv Tcb.timed fun _ => rfl)
  | send data =>
    refine hwait ?_
    rw [Line.step, Line.send_tcb]
    exact s.tcb.waits_send ..
  | shutdown => exact hwait s.tcb.shuts_shutdown.waits
  | close => exact hwait s.tcb.shuts_closeOwn.waits
  | abort => exact hwait s.tcb.shuts_abort.waits
  | timers now => exact hwait (s.tcb.waits_timers now)

/--
**Round trips are measured from what was sent once.**

In every run in which no SYN makes the connection send its own again while that is timed, what is
timed was sent exactly once, and a segment changes the estimate by the time since then, if its
acknowledgement covers it, or not at all.
-/
theorem samples_sent_once (h : s.Reaches fun l op => ¬l.Resends op) :
    (∀ x, s.tcb.timing = some x → SentOnce s.tcb.iss s.sent x.1 x.2) ∧ ∀ header seg now,
      (s.step (.segment header seg now)).tcb.srtt = s.tcb.srtt ∨
        ∃ x, s.tcb.timing = some x ∧ le x.1 seg.ack = true ∧
          (s.step (.segment header seg now)).tcb.srtt = (s.tcb.sampleRtt (now - x.2)).srtt := by
  refine ⟨?_, fun header seg now => ?_⟩
  · have htimes : s.tcb.Times s.top s.sent := by
      induction h with
      | fresh h => cases h <;> exact ⟨nofun, (pos_zero _).symm, nofun, nofun⟩
      | step _ ha ih => exact step_times ih ha
    exact fun x hx => (htimes.timed x hx).2
  · have hline : (s.step (.segment header seg now)).tcb = (s.tcb.segment seg header.length now).1 :=
      s.toLine.segment_tcb header seg now
    rw [hline]
    exact s.tcb.srtt_segment seg header.length now

end Traced

/-- A connection that a listener opened, with initial sequence number 0, and has sent its SYN. -/
def synLine : Traced :=
  Traced.step ⟨⟨.opened ⟨0, 1, 7, 80, 9, 1000, 1460, false⟩ 0 0 1, replicate Net.ring 0, replicate Net.ring 0, [], [],
    false⟩, 0, []⟩ (.nextSegment 0)

theorem synLine_reaches (allowed : Line → LineOp → Prop) (h : ∀ l, allowed l (.nextSegment 0)) :
    synLine.Reaches allowed :=
  .step (.fresh (.openPassive _ _ _ _ _ _ length_replicate length_replicate)) (h _)

/-- The SYN is timed, and its acknowledgement is measured. -/
theorem samples_sent_once_syn : SentOnce synLine.tcb.iss synLine.sent 1 0 ∧
    (synLine.step (.segment [] (bareSegment false 10 1) 20)).tcb.srtt = (synLine.tcb.sampleRtt 20).srtt := by
  have ht : synLine.tcb.timing = some (1, 0) := by decide +kernel
  obtain ⟨honce, hmeasured⟩ := Traced.samples_sent_once (synLine_reaches _ fun _ => id)
  rcases hmeasured [] (bareSegment false 10 1) 20 with hsame | ⟨x, hx, -, hs⟩
  · exact absurd hsame (by decide +kernel)
  · cases ht.symm.trans hx
    exact ⟨honce _ ht, hs⟩

/-- The peer's SYN arrives again, the answer is sent again, and its acknowledgement is measured from the first. -/
theorem samples_resent : ∃ s : Traced, s.Reaches (fun _ _ => True) ∧
    s.tcb.timing = some (1, 0) ∧ ¬SentOnce s.tcb.iss s.sent 1 0 ∧
    (s.step (.segment [] (bareSegment false 10 1) 20)).tcb.srtt = (s.tcb.sampleRtt 20).srtt := by
  refine ⟨(synLine.step (.segment [] (bareSegment true 9 0) 5)).step (.nextSegment 10),
    .step (.step (synLine_reaches _ fun _ => trivial) trivial) trivial, by decide +kernel, ?_, by decide +kernel⟩
  rintro ⟨e, hf, -⟩
  have he : e ∈ [(⟨0, 1, 0⟩ : Sent), ⟨0, 1, 10⟩] := mem_of_mem_filter (hf ▸ mem_singleton_self e)
  simp only [mem_cons, not_mem_nil, or_false] at he
  rcases he with rfl | rfl <;> exact absurd hf (by decide)

end Kintane
