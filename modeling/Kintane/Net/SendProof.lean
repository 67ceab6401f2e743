import Kintane.Net.Send

/-!
# Sending from any position

What `next_segment` puts on the wire is the part of the stream at the position of its sequence
number, and it moves the positions forward within the stream.
-/

namespace Kintane

open Kintane.Seq Tcb

variable {t : Tcb} {una nxt top base n : Nat}

namespace Positions

variable (h : Positions t.sendSide una nxt top base)

include h

/-- Sending part of the stream, or the SYN before it. -/
theorem advance (hn : nxt + n ≤ 1 + (base + t.tx.len)) (now : Nat) :
    Positions (t.advance n now).sendSide una (nxt + n) (max top (nxt + n)) base := by
  have hun := h.una_le
  have hnt := h.nxt_le
  have hnear := h.top_near
  have hbase := h.base_le
  have hlen : t.tx.len ≤ 1514 := h.len
  have hnxt : t.sndNxt + BitVec.ofNat 32 n = pos t.iss (nxt + n : Nat) := by
    rw [show t.sndNxt = _ from h.sndNxt, pos_add_ofNat]
    rfl
  refine ⟨h.sndUna, hnxt, ?_, h.txSeq, by omega, Nat.le_max_right .., h.len, h.base_le, ?_, ?_, ?_⟩
  · change (if lt t.sndMax (t.sndNxt + BitVec.ofNat 32 n) then _ else t.sndMax) = pos t.iss _
    rw [hnxt, show t.sndMax = pos t.iss top from h.sndMax, lt_pos _ (by omega) (by omega)]
    split
    · rename_i hlt
      rw [Nat.max_eq_right]
      have := of_decide_eq_true hlt
      omega
    · rename_i hlt
      rw [decide_eq_true_iff] at hlt
      rw [Nat.max_eq_left]
      omega
  · exact Nat.max_le.mpr ⟨h.top_le, le_trans hn (Nat.le_add_right ..)⟩
  · intro f hf
    obtain ⟨h1, h2, h3⟩ := h.fin f hf
    refine ⟨h1, h2, ?_⟩
    rw [Nat.max_eq_left, h3]
    · rfl
    · have : t.sendSide.tx.len = t.tx.len := rfl
      omega
  · intro b hb
    obtain ⟨stop, hs, h1, h2⟩ := h.sacked b hb
    exact ⟨stop, hs, h1, le_trans h2 (Nat.le_max_left ..)⟩

/-- Sending the FIN. -/
theorem sendFin (hq : t.finQueued = true) (hnxt : nxt = 1 + (base + t.tx.len)) (now : Nat) :
    Positions ({ t with ackNow := false, finSeq := some t.sndNxt }.advance 1 now).sendSide una
      (nxt + 1) (nxt + 1) base := by
  have hun := h.una_le
  have hnt := h.nxt_le
  have htop : top ≤ nxt + 1 := by
    have h1 : top ≤ 1 + (base + t.tx.len) + t.finSeq.isSome.toNat := h.top_le
    have h2 := Bool.toNat_le t.finSeq.isSome
    omega
  have hseq : t.sndNxt + BitVec.ofNat 32 1 = pos t.iss (nxt + 1 : Nat) := by
    rw [show t.sndNxt = _ from h.sndNxt, pos_add_ofNat]
    rfl
  refine ⟨h.sndUna, hseq, ?_, h.txSeq, by omega, le_rfl, h.len, h.base_le, ?_, ?_, ?_⟩
  · change (if lt t.sndMax (t.sndNxt + BitVec.ofNat 32 1) then _ else t.sndMax) = pos t.iss _
    rw [hseq, show t.sndMax = pos t.iss top from h.sndMax, lt_pos _ (by omega) (by omega)]
    split
    · rfl
    rename_i hlt
    rw [decide_eq_true_iff] at hlt
    congr 1
    omega
  · change nxt + 1 ≤ 1 + (base + t.tx.len) + 1
    omega
  · intro f hf
    cases hf
    refine ⟨?_, hq, ?_⟩
    · rw [show t.sndNxt = _ from h.sndNxt, hnxt]
      rfl
    · change nxt + 1 = 2 + (base + t.tx.len)
      omega
  · intro b hb
    obtain ⟨stop, hs, h1, h2⟩ := h.sacked b hb
    exact ⟨stop, hs, h1, by omega⟩

theorem sendData (hn : nxt + n ≤ 1 + (base + t.tx.len)) (now : Nat) :
    ∃ nxt' top', Positions (t.sendData n now).sendSide una nxt' top' base := by
  unfold Tcb.sendData
  dsimp only
  split
  · have h' : Positions (({ t with
        probe := false, ackNow := false, resend := false, timing := none } : Tcb).advance n now).sendSide
        una (nxt + n) (max top (nxt + n)) base :=
      Positions.advance (t := { t with
        probe := false, ackNow := false, resend := false, timing := none }) h hn now
    have hun := h.una_le
    obtain ⟨x, hx, hx1, hx2⟩ := h'.firstHole rfl (by omega) (le_max_right ..)
    refine ⟨x, _, h'.setNxt (by omega) hx2 ?_⟩
    rw [← h'.sndNxt] at hx
    exact hx
  · exact ⟨_, _, Positions.advance (t := { t with probe := false, ackNow := false }) h hn now⟩

/-- How far into the ring the next byte is. -/
theorem sent_eq (hu : 1 ≤ una) : t.sent = nxt - (1 + base) := by
  have hun := h.una_le
  have hnt := h.nxt_le
  have hnear := h.top_near
  have hnear' := h.una_near
  have hbase := h.base_le
  rw [sent, show t.sndNxt = pos t.iss nxt from h.sndNxt,
    show t.txSeq = pos t.iss (1 + base : Nat) from h.txSeq,
    toNat_pos_sub _ (by omega) (by omega)]
  omega

omit h in
theorem dataLen_le (t : Tcb) : t.dataLen ≤ t.unsent := by
  have hn : (if t.resending ∧ t.recovering ∧ !t.resend then 0
      else min (min t.unsent t.usable) t.seg) ≤ t.unsent := by
    split <;> omega
  unfold dataLen
  dsimp only
  split
  · split
    · exact (Nat.min_le_left ..).trans hn
    · exact hn
  · exact hn

/-- A FIN is due at the end of the stream. -/
theorem nxt_of_finDue (hf : t.finDue = true) : nxt = 1 + (base + t.tx.len) ∧ t.finQueued = true := by
  have hun := h.una_le
  have hnt := h.nxt_le
  have hnear := h.top_near
  have hnear' := h.una_near
  have hbase := h.base_le
  have hlen : t.tx.len ≤ 1514 := h.len
  simp only [finDue, Bool.and_eq_true, decide_eq_true_eq] at hf
  refine ⟨?_, hf.1.1⟩
  have he := hf.1.2
  rw [show t.sndNxt = pos t.iss nxt from h.sndNxt,
    show t.txSeq = pos t.iss (1 + base : Nat) from h.txSeq, pos_add_ofNat,
    pos_inj _ (by omega) (by omega)] at he
  omega

end Positions

namespace Sends

variable {t' : Tcb} {ack : Seq} {seg : TcpSegment}

section

variable (h : Sends t una nxt top base)

include h

/-- The same positions in another state. -/
theorem restate (hp : Positions t'.sendSide una nxt top base) (htx : t'.tx = t.tx) (hfin : t'.finSeq = t.finSeq)
    (hearly : t'.Opening → t.Opening) (hlate : t'.state.synchronized = true → 1 ≤ una)
    (hover : t'.state = .finWait2 → una = 2 + (base + t.tx.len)) : Sends t' una nxt top base where
  pos := hp
  early ho := by
    rw [htx, hfin]
    exact h.early (hearly ho)
  late := hlate
  closing := by
    rw [htx]
    exact hover

theorem congr (he : t'.sendSide = t.sendSide) (hs : t'.state = t.state) : Sends t' una nxt top base := by
  refine h.restate (he ▸ h.pos) (congrArg SendSide.tx he) (congrArg SendSide.finSeq he) ?_ (hs ▸ h.late) (hs ▸ h.closing)
  simp [Opening, hs]

/-- A connection that is closed keeps its positions. -/
theorem closed (he : t'.sendSide = t.sendSide) (hs : t'.state = .closed) : Sends t' una nxt top base := by
  refine h.restate (he ▸ h.pos) (congrArg SendSide.tx he) (congrArg SendSide.finSeq he) ?_ ?_ ?_ <;>
    simp [Opening, TcpState.synchronized, hs]

theorem shuts (hs : t.Shuts t') : Sends t' una nxt top base := by
  cases hs with
  | stays _ queued hq =>
    exact h.restate { h.pos with fin := fun f hf => (h.pos.fin f hf).imp_right fun hf => ⟨hq hf.1, hf.2⟩ } rfl rfl id
      h.late h.closing
  | closes => exact h.closed rfl rfl
  | ends _ s hs =>
    have hp : Positions { t.sendSide with finQueued := true } una nxt top base :=
      { h.pos with fin := fun f hf => (h.pos.fin f hf).imp_right fun hf => ⟨rfl, hf.2⟩ }
    rcases hs with ⟨hs, rfl⟩ | ⟨hs, rfl⟩ <;>
      exact h.restate hp rfl rfl (fun ho => ho.elim nofun nofun) (fun _ => h.late (by rw [hs]; rfl)) nofun

theorem timers (now : Nat) : ∃ nxt', Sends (t.timers now) una nxt' top base := by
  have ht := t.timers_ticks now
  generalize t.timers now = t' at ht
  cases ht with
  | quiet | probes => exact ⟨nxt, h.congr rfl rfl⟩
  | rests | gaveUp => exact ⟨nxt, h.closed rfl rfl⟩
  | again =>
    -- Everything not acknowledged is sent again.
    have hle := h.pos.una_le.trans h.pos.nxt_le
    have hp := (h.pos.setNxt le_rfl hle h.pos.sndUna).clearSacked Net.sackBlocks
    exact ⟨una, ⟨hp, h.early, h.late, h.closing⟩⟩

/-! ## Sending -/

theorem nextSegment (now : Nat) : ∃ nxt' top', Sends (t.nextSegment now).1 una nxt' top' base := by
  have hsync (hs : t.sending = true) : t.state.synchronized = true ∧ t.state ≠ .finWait2 := by
    unfold sending at hs
    cases hst : t.state <;> simp_all [TcpState.synchronized]
  -- a state that sends data is past the handshake, and not FIN-WAIT-2
  have hsent (hs : t.sending = true) {t' : Tcb} (he : t'.state = t.state) {nxt' top' : Nat}
      (hp : Positions t'.sendSide una nxt' top' base) : ∃ nxt' top', Sends t' una nxt' top' base := by
    refine ⟨nxt', top', hp, fun ho => ?_, fun _ => h.late (hsync hs).1,
      fun ho => absurd (he.symm.trans ho) (hsync hs).2⟩
    unfold Tcb.Opening at ho
    rw [he] at ho
    rcases ho with ho | ho <;> exact absurd (ho ▸ (hsync hs).1) nofun
  have he := t.nextSegment_emits now
  generalize t.nextSegment now = r at he
  cases he with
  | reset | quiet | ack => exact ⟨nxt, top, h.congr rfl rfl⟩
  | syn ho hiss =>
    obtain ⟨hu, htop, hlen, hfin⟩ := h.early ho
    have hnt := h.pos.nxt_le
    have hnxt : nxt = 0 := by
      have hz : Seq.pos t.iss nxt = Seq.pos t.iss (0 : Nat) :=
        h.pos.sndNxt.symm.trans (hiss.trans (Seq.pos_zero _).symm)
      rw [Seq.pos_inj _ (by omega) (by omega)] at hz
      omega
    have hp : Positions (({ t with ackNow := false } : Tcb).advance 1 now).sendSide una (nxt + 1)
        (max top (nxt + 1)) base :=
      Positions.advance (t := { t with ackNow := false }) h.pos (by omega) now
    exact ⟨_, _, hp, fun _ => ⟨hu, by omega, hlen, hfin⟩, h.late, h.closing⟩
  | data hs hd =>
    have hle := Positions.dataLen_le t
    have hfrom := h.pos.sent_eq (h.late (hsync hs).1)
    rw [unsent] at hle hd
    obtain ⟨nxt', top', hp⟩ := h.pos.sendData (by omega : nxt + t.dataLen ≤ 1 + (base + t.tx.len)) now
    refine hsent hs ?_ hp
    unfold sendData
    dsimp only
    split <;> rfl
  | fin hs hf d =>
    obtain ⟨hnxt, hq⟩ := h.pos.nxt_of_finDue hf
    exact hsent hs rfl (Positions.sendFin (t := { t with deadline := d }) h.pos hq hnxt now)

/-- Queueing bytes. -/
theorem send (ring data : List UInt8) : Sends (t.send ring data).1 una nxt top base := by
  rcases t.send_cases ring data with ⟨res, hr, -⟩ | ⟨n, -, hroom, hs, hq, hr⟩ <;> rw [hr]
  · exact h
  have htop : top ≤ 1 + (base + t.tx.len) + t.finSeq.isSome.toNat := h.pos.top_le
  refine ⟨{ h.pos with len := hroom, top_le := ?_, fin := fun f hf => ?_ }, ?_, h.late, ?_⟩
  · change top ≤ 1 + (base + (t.tx.len + _)) + t.finSeq.isSome.toNat
    omega
  · -- The FIN is not queued, so none was sent.
    cases (h.pos.fin f hf).2.1.symm.trans hq
  · rcases hs with hs | hs <;> simp [Opening, hs]
  · rcases hs with hs | hs <;> simp [hs]

/-! ## A segment -/

/-- The FIN is acknowledged when everything is. -/
theorem una_of_finAcknowledged (hf : t.finAcknowledged = true) : una = 2 + (base + t.tx.len) := by
  have hun := h.pos.una_le
  have hnt := h.pos.nxt_le
  have hnear := h.pos.top_near
  unfold finAcknowledged at hf
  cases hs : t.finSeq with
  | none =>
    rw [hs] at hf
    cases hf
  | some f =>
    obtain ⟨h1, -, h3⟩ := h.pos.fin f hs
    have h3 : top = 2 + (base + t.tx.len) := h3
    have hnext : f + 1 = Seq.pos t.iss (1 + (base + t.tx.len) + 1 : Nat) := by
      rw [h1]
      exact Seq.pos_add_ofNat t.iss (1 + (base + t.tx.len) : Nat) 1
    rw [hs, Option.any_some, hnext, show t.sndUna = Seq.pos t.iss una from h.pos.sndUna,
      Seq.le_pos _ (by omega) (by omega), decide_eq_true_iff] at hf
    omega

end

/-- What an acknowledgement does: the positions go on, and bytes leave the ring. -/
def Acked (t t' : Tcb) (una base : Nat) (ack : Seq) : Prop :=
  ∃ una' nxt' top' base', una ≤ una' ∧ Sends t' una' nxt' top' base' ∧
    t.sendSide.Drops t'.sendSide base base' ack

theorem established (hp : Positions t.sendSide una nxt top base) (hu : 1 ≤ una) :
    Sends t.establish una nxt top base := by
  rw [establish_eq]
  refine ⟨hp, ?_, fun _ => hu, ?_⟩ <;> cases t.finQueued <;> simp [Opening]

/-- The acknowledgement that ends the handshake. -/
theorem acknowledgeSyn (h : Sends t una nxt top base) (ho : t.Opening) (htop : top ≠ 0)
    (ht : t'.sendSide = t.sendSide) (now : Nat) (ha : ack = t.iss + 1) :
    Acked t (t'.acknowledge ack now).establish una base ack := by
  obtain ⟨hu, htop', -, -⟩ := h.early ho
  have hiss : t'.iss = t.iss := congrArg SendSide.iss ht
  have hack : ack = Seq.pos t'.iss (1 : Nat) := by
    rw [ha, hiss]
    rfl
  have hp : Positions t'.sendSide una nxt top base := ht ▸ h.pos
  obtain ⟨nxt', base', hp', hd⟩ := hp.acknowledge (by omega : una < 1) (by omega) now
  rw [← hack, ht] at hd
  rw [← hack] at hp'
  refine ⟨1, nxt', top, base', by omega, established hp' le_rfl, ?_⟩
  rw [establish_eq]
  exact hd

/-- Nothing is acknowledged. -/
theorem Acked.of_sends {nxt' top' : Nat} (h : Sends t' una nxt' top' base) (hi : t'.iss = t.iss) (ht : t'.tx = t.tx)
    (hf : t'.finQueued = t.finQueued ∧ t'.finSeq = t.finSeq) (ack : Seq) :
    Acked t t' una base ack :=
  ⟨una, nxt', top', base, le_rfl, h, .none hi ht hf base ack⟩

theorem Acked.refl (h : Sends t una nxt top base) (ack : Seq) : Acked t t una base ack :=
  .of_sends h rfl rfl ⟨rfl, rfl⟩ ack

/-- A step that acknowledges nothing more. -/
theorem Acked.andThen {t'' : Tcb} (h : Acked t t' una base ack)
    (hs : ∀ {una nxt top base}, Sends t' una nxt top base → Sends t'' una nxt top base)
    (he : t''.sendSide = t'.sendSide) : Acked t t'' una base ack := by
  obtain ⟨una', nxt', top', base', hu, h', hd⟩ := h
  exact ⟨una', nxt', top', base', hu, hs h', he ▸ hd⟩

variable (h : Sends t una nxt top base)

include h

theorem ackTaken (hsent : t.state ≠ .synSent)
    (hg : t.Genuine seg) {now : Nat} {t1 : Tcb} (ha : t.AckTaken seg now t1) : Acked t t1 una base seg.ack := by
  cases ha with
  | handshake hs hlt hle =>
    have ho : t.Opening := .inr hs
    obtain ⟨hu, htop, -, -⟩ := h.early ho
    obtain ⟨a, hack, ha, ha'⟩ := h.pos.ack_pos hlt (not_lt_of_le hle)
    have ha1 : seg.ack = t.iss + 1 := by
      rw [hack, show a = 1 by omega]
      rfl
    exact h.acknowledgeSyn ho (by omega) (by rfl) now ha1
  | later hs hmax =>
    obtain ⟨una', nxt', base', hu, hp, hd⟩ := h.pos.takeAck hg hmax now
    have hst : (t.takeAck seg now).state = t.state :=
      state_of_sansSend (t.sansSend_takeAck seg now)
    refine ⟨una', nxt', top, base', hu, ⟨hp, ?_, ?_, ?_⟩, hd⟩
    · unfold Tcb.Opening
      rw [hst]
      exact fun ho => absurd ho (not_or.mpr ⟨hsent, hs⟩)
    · rw [hst]
      exact fun hsync => (h.late hsync).trans hu
    · rw [hst]
      intro hover
      have h1 := h.closing hover
      have h2 := hp.una_le
      have h3 := hp.nxt_le
      have h4 := h.pos.top_le
      have h5 := Bool.toNat_le t.sendSide.finSeq.isSome
      have h6 := hd.sum
      change _ = 2 + (base' + (t.takeAck seg now).sendSide.tx.len)
      change una = 2 + (base + t.sendSide.tx.len) at h1
      omega

theorem finTaken {t2 : Tcb} {now : Nat} {done : Bool} (ht : t.FinTaken now (t2, done)) :
    Sends t2 una nxt top base ∧ t2.sendSide = t.sendSide := by
  cases ht with
  | none => exact ⟨h, rfl⟩
  | half hs hf =>
    have hl := h.late (by rw [hs]; rfl)
    exact ⟨⟨h.pos, fun ho => ho.elim nofun nofun, fun _ => hl, fun _ => h.una_of_finAcknowledged hf⟩, rfl⟩
  | both hs =>
    have hl := h.late (by rw [hs]; rfl)
    exact ⟨⟨h.pos, fun ho => ho.elim nofun nofun, fun _ => hl, nofun⟩, rfl⟩
  | last => exact ⟨h.closed rfl rfl, rfl⟩

theorem segmentText (seg : TcpSegment) (finAcked : Bool) (start now : Nat) :
    Sends (t.segmentText seg finAcked start now).1 una nxt top base ∧
      (t.segmentText seg finAcked start now).1.sendSide = t.sendSide := by
  rcases t.sansRecv_segmentText seg start finAcked now with hk | ⟨hr, s, hs, hk⟩
  · have hside := sendSide_of_sansRecv hk
    exact ⟨h.congr hside (state_of_sansRecv hk), hside⟩
  have hside : (t.segmentText seg finAcked start now).1.sendSide = t.sendSide :=
    (sendSide_of_sansRecv hk).trans rfl
  have hst : (t.segmentText seg finAcked start now).1.state = s := state_of_sansRecv hk
  have hsync : t.state.synchronized = true := by
    unfold receiving at hr
    cases hs : t.state <;> simp_all [TcpState.synchronized]
  refine ⟨⟨hside ▸ h.pos, ?_, fun _ => h.late hsync, ?_⟩, hside⟩
  · unfold Tcb.Opening
    rw [hst]
    rintro (rfl | rfl) <;> exact absurd hs (by decide)
  · rw [hst]
    rintro rfl
    exact absurd hs (by decide)

/-- The SYN is sent again. -/
theorem again (ho : t.Opening)
    (he : t'.sendSide = { t.sendSide with sndNxt := t.iss }) (hs : t'.state = .synReceived) (ack : Seq) :
    Acked t t' una base ack := by
  have hearly := h.early ho
  have hp := h.pos.setNxt (by omega : una ≤ 0) (Nat.zero_le _) (pos_zero t.iss).symm
  refine ⟨una, 0, top, base, le_rfl, ⟨he ▸ hp, fun _ => ?_, ?_, ?_⟩,
    he ▸ .none (by rfl) (by rfl) ⟨by rfl, by rfl⟩ _ _⟩
  · obtain ⟨-, -, -, -, htx, -, -, hfin, -⟩ := SendSide.mk.inj he
    rw [htx, hfin]
    exact hearly
  · rw [hs]
    exact fun hsync => absurd hsync (by decide)
  · rw [hs]
    exact fun hfin => absurd hfin (by decide)

/-- A segment of a genuine peer moves the positions forward, and takes only bytes out of the ring
that it acknowledges. -/
theorem segment (hg : t.Genuine seg) (start now : Nat) : Acked t (t.segment seg start now).1 una base seg.ack ∧
      (seg.hasAck = false → (t.segment seg start now).1.tx.len = t.tx.len) := by
  have hclash {P : Prop} (hack : seg.hasAck = true) (hno : seg.hasAck = false) : P :=
    absurd (hack.symm.trans hno) nofun
  have hfin {t1 t2 : Tcb} {done : Bool} (ha : Acked t t1 una base seg.ack) (ht : t1.FinTaken now (t2, done)) :
      Acked t t2 una base seg.ack := by
    refine ha.andThen (fun h => (h.finTaken ht).1) ?_
    obtain ⟨_, _, _, _, _, h', _⟩ := ha
    exact (h'.finTaken ht).2
  have htakes := t.segment_takes seg start now
  generalize t.segment seg start now = r at htakes
  cases htakes with
  | ignored => exact ⟨.refl h _, fun _ => rfl⟩
  | answered => exact ⟨.of_sends (h.congr (by rfl) (by rfl)) (by rfl) (by rfl) ⟨by rfl, by rfl⟩ _, fun _ => rfl⟩
  | again hs => exact ⟨h.again (.inr hs) (by rfl) (by exact hs) _, fun _ => rfl⟩
  | reset => exact ⟨.of_sends (h.closed (by rfl) (by rfl)) (by rfl) (by rfl) ⟨by rfl, by rfl⟩ _, fun _ => rfl⟩
  | syn hs => exact ⟨h.again (.inl hs) (by rfl) (by rfl) _, fun _ => rfl⟩
  | synAck hs hsyn hack heq =>
    have htop : top ≠ 0 := by
      rintro rfl
      exact hg.syn hs hsyn hack heq (h.pos.sndMax.trans (pos_zero _))
    exact ⟨h.acknowledgeSyn (.inl hs) htop (by rfl) now heq, hclash hack⟩
  | ends hs hack t1 t2 h1 h2 => exact ⟨hfin (h.ackTaken hs.1 hg h1) h2, hclash hack⟩
  | text hs _ _ hack t1 t2 h1 h2 =>
    have ha := hfin (h.ackTaken hs.1 hg h1) h2
    refine ⟨ha.andThen (fun h => (h.segmentText ..).1) ?_, hclash hack⟩
    obtain ⟨_, _, _, _, _, h', _⟩ := ha
    exact (h'.segmentText ..).2

end Sends

end Kintane
