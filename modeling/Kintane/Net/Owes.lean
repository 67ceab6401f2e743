import Kintane.Net.ReceiveRuns

/-!
# Which segments are acknowledged

A segment outside the window, payload that the state takes, and a FIN in its turn each set
`ack_now`, and then the next segment that is sent says what is expected. Two kinds of segment set
nothing: a FIN without payload ahead of a hole, and payload in a state that no longer receives. The
peer learns nothing from them, unless an acknowledgement was owed before or something else is sent.
-/

namespace Kintane

namespace Tcb

variable (t : Tcb) (seg : TcpSegment) (start now : Nat)

/-- A segment is sent next, and it acknowledges what has arrived. -/
def Owes : Prop :=
  ∀ now, ∃ out, (t.nextSegment now).2 = some out ∧ out.header.hasAck = true ∧ out.header.ack = t.rcvNxt

/-- A reset, data or a FIN is to be sent, whatever is owed. -/
def Due : Prop :=
  t.rstNow = true ∨ t.sending = true ∧ (0 < t.unsent ∧ 0 < t.dataLen ∨ t.finDue = true)

/-- The connection with the segment's acknowledgement taken, before its payload and FIN. -/
def acked : Tcb := ((t.takeAck seg now).segmentFinAcked (t.takeAck seg now).finAcknowledged now).1

/-- Payload that the state takes, or a FIN in its turn. -/
def Arrives : Prop :=
  (seg.payload ≠ [] ∧ t.receiving = true) ∨
    (seg.hasFin = true ∧ Seq.le (seg.seq + BitVec.ofNat 32 seg.payload.length) t.rcvNxt = true)

variable {t seg}

/-- A synchronised connection sends nothing, or what acknowledges all that has arrived. -/
theorem nextSegment_cases (hs : t.state.synchronized = true) :
    (t.ackNow = true ∨ t.Due) ∧ (∃ out, (t.nextSegment now).2 = some out ∧ out.header.hasAck = true ∧
        out.header.ack = t.rcvNxt) ∨
      ¬(t.ackNow = true ∨ t.Due) ∧ (t.nextSegment now).2 = none := by
  have hack {t' : Tcb} (h : t'.ackNow = t.ackNow ∧ t'.rcvNxt = t.rcvNxt) (hno : ¬t.Due) :
      (t.ackNow = true ∨ t.Due) ∧ (∃ out, t'.nextAck.2 = some out ∧ out.header.hasAck = true ∧
        out.header.ack = t.rcvNxt) ∨ ¬(t.ackNow = true ∨ t.Due) ∧ t'.nextAck.2 = none := by
    rw [nextAck, h.1, or_iff_left hno]
    split
    · next ha => exact .inl ⟨ha, _, rfl, rfl, h.2⟩
    · next ha => exact .inr ⟨ha, rfl⟩
  unfold nextSegment
  split
  · next hr => exact .inl ⟨.inr (.inl hr), _, rfl, rfl, rfl⟩
  rename_i hr
  split <;> rename_i hstate <;> try (rw [hstate] at hs; cases hs)
  split
  · next hsend =>
    unfold nextText
    split
    · next hdata => exact .inl ⟨.inr (.inr ⟨hsend, .inl hdata⟩), _, rfl, rfl, rfl⟩
    rename_i hdata
    have hprobe : (t.armProbe now).ackNow = t.ackNow ∧ (t.armProbe now).rcvNxt = t.rcvNxt ∧
        (t.armProbe now).finDue = t.finDue := by
      unfold armProbe
      split <;> exact ⟨rfl, rfl, rfl⟩
    dsimp only
    rw [hprobe.2.2]
    split
    · next hfin => exact .inl ⟨.inr (.inr ⟨hsend, .inr hfin⟩), _, rfl, rfl, rfl⟩
    · next hfin => exact hack ⟨hprobe.1, hprobe.2.1⟩ (by simp [Due, hr, hdata, hfin])
  · next hsend => exact hack ⟨rfl, rfl⟩ (by simp [Due, hr, hsend])

theorem owes_iff_due (hs : t.state.synchronized = true) : t.Owes ↔ t.ackNow = true ∨ t.Due := by
  constructor
  · intro h
    obtain ⟨out, hout, -⟩ := h 0
    rcases nextSegment_cases 0 hs with ⟨hsends, -⟩ | ⟨-, hnone⟩
    · exact hsends
    · cases hout.symm.trans hnone
  · intro h now
    rcases nextSegment_cases now hs with ⟨-, hout⟩ | ⟨hno, -⟩
    · exact hout
    · exact absurd h hno

theorem ackNow_takeFin (finAcked : Bool) : (t.takeFin finAcked now).ackNow = true := by
  unfold takeFin
  cases t.state <;> cases finAcked <;> rfl

/-- What arrives is acknowledged. -/
theorem Arrives.ackNow_segmentText (h : t.Arrives seg) (finAcked : Bool) :
    (t.segmentText seg finAcked start now).1.ackNow = true := by
  have hfin {t' : Tcb} {takenTo : Seq} (h : t'.ackNow = true) :
      (t'.segmentFin seg takenTo finAcked now).ackNow = true := by
    unfold segmentFin
    split
    · exact ackNow_takeFin now finAcked
    · exact h
  unfold segmentText
  split
  · split
    · exact congrArg ackNow (t.takeAhead_eq seg start)
    · refine hfin ?_
      unfold takeNext
      dsimp only
      split <;> rfl
  · next hp =>
    obtain ⟨hf, hle⟩ := h.resolve_left hp
    rw [segmentFin, if_pos ⟨hf, rfl, hle⟩]
    exact ackNow_takeFin now finAcked

/-- What does not changes nothing. -/
theorem segmentText_of_not_arrives (h : ¬t.Arrives seg) (finAcked : Bool) :
    (t.segmentText seg finAcked start now).1 = t := by
  rw [segmentText, if_neg fun hp => h (.inl hp), segmentFin, if_neg fun hf => h (.inr ⟨hf.1, hf.2.2⟩)]

/-- What the acknowledgement leaves for the payload. -/
theorem FinTaken.synchronized {t1 t2 : Tcb} (h2 : t1.FinTaken now (t2, false)) (hs : t.state.synchronized = true)
    (h1 : t1.sansSend = t.sansSend) :
    t2.state.synchronized = true ∧ t2.ackNow = t.ackNow ∧ t2.rcvNxt = t.rcvNxt ∧ t2.receiving = t.receiving := by
  have hstate := state_of_sansSend h1
  have hack := read_of h1 ackNow fun _ => rfl
  have hnext := read_of h1 rcvNxt fun _ => rfl
  rw [← hack, ← hnext]
  rw [← hstate] at hs
  have hrecv : t.receiving = t1.receiving := by
    unfold receiving
    rw [hstate]
  rw [hrecv]
  cases h2 with
  | none => exact ⟨hs, rfl, rfl, rfl⟩
  | half hst => exact ⟨rfl, rfl, rfl, by simp [receiving, enter, hst]⟩
  | both hst => exact ⟨rfl, rfl, rfl, by simp [receiving, enter, hst]⟩

/--
**What is acknowledged at once.**

A segment with an acknowledgement of what was sent, on a connection that is synchronised and stays
open, is answered with the next segment sent exactly if an acknowledgement was owed before, or the
segment is outside the window, or it carries payload that the state takes or a FIN in its turn, or a
reset, data or a FIN is due once its own acknowledgement is taken.
-/
theorem owes_iff (hs : t.state.synchronized = true) (hack : seg.hasAck = true) (hsyn : seg.hasSyn = false)
    (hrst : seg.hasRst = false) (hsent : Seq.lt t.sndMax seg.ack = false)
    (hopen : (t.segment seg start now).1.state ≠ .closed) :
    (t.segment seg start now).1.Owes ↔ t.ackNow = true ∨
      acceptable t.rcvNxt t.rxFree seg.seq seg.len = false ∨ t.Arrives seg ∨ (t.acked seg now).Due := by
  have hsegment : t.segment seg start now = t.segmentOpen seg start now := by
    unfold segment
    split <;> rename_i hst <;> first | rfl | (rw [hst] at hs; cases hs)
  have hreceived : t.state ≠ .synReceived := fun hst => by
    rw [hst] at hs
    cases hs
  rw [hsegment] at hopen ⊢
  unfold segmentOpen at hopen ⊢
  cases ha : acceptable t.rcvNxt t.rxFree seg.seq seg.len with
  | false =>
    simp only [segmentOutside, hrst, hreceived, Bool.not_false, if_true, Bool.false_eq_true, if_false, false_and,
      true_or, or_true, iff_true]
    refine (owes_iff_due ?_).mpr (.inl rfl)
    exact hs
  | true =>
    have htaken : t.segmentAck seg now = (t.takeAck seg now, none) := by
      rw [segmentAck, if_neg hreceived, if_neg (by simp [hsent])]
    simp only [ha, hrst, hsyn, hack, htaken, Bool.not_true, Bool.false_eq_true, if_false, Bool.true_eq_false, false_or]
      at hopen ⊢
    have hfin := segmentFinAcked_taken (t.takeAck seg now) now
    split at hopen <;> rename_i t2 he <;> rw [he] at hfin
    · -- the last acknowledgement closes the connection
      cases hfin
      exact absurd rfl hopen
    · obtain ⟨hs2, hack2, hnext2, hrecv2⟩ := hfin.synchronized now hs (sansSend_takeAck t seg now)
      have hacked : t.acked seg now = t2 := congrArg Prod.fst he
      have harrives : t2.Arrives seg ↔ t.Arrives seg := by
        unfold Arrives
        rw [hnext2, hrecv2]
      rw [owes_iff_due, hacked, ← hack2, ← harrives]
      · by_cases h : t2.Arrives seg
        · simp [h, h.ackNow_segmentText start now]
        · simp [h, segmentText_of_not_arrives start now h]
      rcases sansRecv_segmentText t2 seg start (t.takeAck seg now).finAcknowledged now with hr | ⟨-, s, hm, hr⟩ <;>
        rw [state_of_sansRecv hr]
      · exact hs2
      · simp only [List.mem_cons, List.not_mem_nil, or_false] at hm
        rcases hm with rfl | rfl | rfl <;> rfl

end Tcb

/-- The peer of `threeBytesLine` opens the connection and is acknowledged. -/
def threeBytesOpen : Line :=
  (threeBytesLine.step (.nextSegment 0)).step (.segment [] (threeBytes 0 [] false (by decide)) 1)

/-- A byte in its turn is acknowledged. -/
theorem owes_iff_next : (threeBytesOpen.tcb.segment (threeBytes 0 [1] false (by decide)) 0 2).1.Owes :=
  (Tcb.owes_iff 0 2 (by decide +kernel) rfl rfl rfl (by decide +kernel) (by decide +kernel)).mpr
    (.inr (.inr (.inl (.inl ⟨by decide, by decide +kernel⟩))))

/-- A FIN ahead of a hole is not: nothing is sent. -/
theorem fin_ahead_not_acknowledged : ∃ l, Line.Reaches (fun _ => True) (fun _ _ => True) l ∧
    let seg := threeBytes 3 [] true (by decide)
    l.tcb.state = .established ∧ seg.hasFin = true ∧ seg.hasAck = true ∧ Seq.lt l.tcb.sndMax seg.ack = false ∧
      (l.tcb.segment seg 0 2).1.state = .established ∧ ((l.tcb.segment seg 0 2).1.nextSegment 3).2 = none := by
  refine ⟨threeBytesOpen, ?_, by decide +kernel⟩
  have hzeros : (List.replicate Net.ring (0 : UInt8)).length = Net.ring := List.length_replicate
  exact .step (.step (.fresh (.openPassive _ _ _ _ _ _ hzeros hzeros) trivial) trivial) trivial

end Kintane
