import Kintane.Net.Line

/-!
# What the methods of a connection leave alone

An acknowledgement changes the sending side of a connection only, and payload the receiving side
only.
-/

namespace Kintane

theorem TcpRing.free_le (r : TcpRing) : r.free ≤ Net.ring - r.len := by
  unfold free
  split <;> omega

namespace Tcb

variable (t : Tcb)

/-- A connection without its sending side. -/
def sansSend : Tcb :=
  { t with
    sndUna := 0, sndNxt := 0, sndMax := 0, sndWnd := 0, tx := .none, txSeq := 0
    cwnd := 0, ssthresh := 0, dupAcks := 0, recovering := false, recover := 0, resend := false
    srtt := none, timing := none, rto := 0, deadline := none, sacked := [], probe := false
    retries := 0 }

/-- What is read of the part that was not left out is the same. -/
theorem read_of {g : Tcb → Tcb} {t t' : Tcb} (h : g t' = g t) {β : Type} (f : Tcb → β)
    (hf : ∀ t, f (g t) = f t) : f t' = f t := by
  rw [← hf, h, hf]

theorem state_of_sansSend {t t' : Tcb} (h : t'.sansSend = t.sansSend) : t'.state = t.state :=
  read_of h state fun _ => rfl

/-- A connection without its sending side but for the buffer. -/
def sansAck : Tcb := { t.sansSend with tx := { TcpRing.none with buf := t.tx.buf } }

/-- An acknowledgement touches the sending side only, and of its ring not the buffer. -/
theorem sansAck_acknowledge (ack : Seq) (now : Nat) : (t.acknowledge ack now).sansAck = t.sansAck := by
  have htiming (t : Tcb) : (t.ackTiming ack now).sansAck = t.sansAck := by
    unfold ackTiming
    split
    · rfl
    · split <;> rfl
  have hrecovery (t : Tcb) (acked : Nat) : (t.ackRecovery ack acked).sansAck = t.sansAck := by
    unfold ackRecovery
    split
    · split <;> rfl
    · rfl
  calc (t.acknowledge ack now).sansAck
      = (((((t.ackData ack).ackTiming ack now).forgetSacked ack).ackRecovery ack
          (ack - t.sndUna).toNat)).sansAck := rfl
    _ = ((t.ackData ack).ackTiming ack now).sansAck := hrecovery _ _
    _ = (t.ackData ack).sansAck := htiming _
    _ = t.sansAck := rfl

/-- So does a duplicate one. -/
theorem sansAck_duplicateAck (seg : TcpSegment) : (t.duplicateAck seg).sansAck = t.sansAck := by
  unfold duplicateAck
  dsimp only
  split <;> split <;> first | rfl | (split <;> rfl)

/-- So does any acknowledgement past the handshake, with the window it announces. -/
theorem sansAck_takeAck (seg : TcpSegment) (now : Nat) : (t.takeAck seg now).sansAck = t.sansAck := by
  have hwnd (t : Tcb) : (if Seq.le t.sndUna seg.ack then { t with sndWnd := seg.window } else t).sansAck =
      t.sansAck := by
    split <;> rfl
  unfold takeAck
  rw [hwnd]
  split
  · exact sansAck_acknowledge t _ now
  · split
    · exact sansAck_duplicateAck t seg
    · rfl

theorem sansSend_acknowledge (ack : Seq) (now : Nat) : (t.acknowledge ack now).sansSend = t.sansSend :=
  read_of (sansAck_acknowledge t ack now) sansSend fun _ => rfl

theorem sansSend_takeAck (seg : TcpSegment) (now : Nat) : (t.takeAck seg now).sansSend = t.sansSend :=
  read_of (sansAck_takeAck t seg now) sansSend fun _ => rfl

/-- A connection without its receiving side. -/
def sansRecv : Tcb :=
  { t with
    rcvNxt := 0, rx := .none, ooo := [], peerFin := false, ackNow := false, timeWaitUntil := 0 }

theorem state_of_sansRecv {t t' : Tcb} (h : t'.sansRecv = t.sansRecv) : t'.state = t.state :=
  read_of h state fun _ => rfl

/-- A connection without its receiving side but for the buffer. -/
def sansText : Tcb := { t.sansRecv with rx := { TcpRing.none with buf := t.rx.buf } }

/-- `hold` changes the slots and nothing else. -/
theorem hold_eq (seq len : Seq) : (t.hold seq len).1 = { t with ooo := (t.hold seq len).1.ooo } := by
  unfold hold
  dsimp only
  split
  · rfl
  · split
    · split <;> rfl
    · rfl

/-- Joining what was held to the stream touches the receiving side only. -/
theorem sansText_coalesce : t.coalesce.sansText = t.sansText := by
  have honce {t t' : Tcb} (h : t.coalesceOnce = some t') : t'.sansText = t.sansText := by
    unfold coalesceOnce at h
    split at h
    · split at h
      · cases h
        rfl
      · cases h
    · split at h
      · cases h
        rfl
      · cases h
  have hloop (n : Nat) (t : Tcb) : (coalesceLoop n t).sansText = t.sansText := by
    induction n generalizing t with
    | zero => rfl
    | succ n ih =>
      cases hc : t.coalesceOnce with
      | none => simp only [coalesceLoop, hc]
      | some t' =>
        simp only [coalesceLoop, hc]
        rw [ih, honce hc]
  exact hloop _ t

/-- A connection with a FIN already queued is established and goes straight on to `finWait1`. -/
theorem establish_eq : t.establish = { t with
    state := if t.finQueued then .finWait1 else .established, cwnd := Net.initialWindow * t.seg } := by
  cases h : t.finQueued <;> simp [establish, enter, h, seg]

theorem state_establish : t.establish.state = if t.finQueued then .finWait1 else .established := by
  rw [establish_eq]

/-- `send` takes nothing, or some bytes of a connection that has not been shut. -/
theorem send_cases (ring data : List UInt8) :
    (∃ res, t.send ring data = (t, ring, res) ∧ ∀ n, res = .ok n → n = 0) ∨
      ∃ n, n ≤ data.length ∧ t.tx.len + n ≤ Net.ring ∧ (t.state = .established ∨ t.state = .closeWait) ∧
        t.finQueued = false ∧ t.send ring data = ({ t with tx := { t.tx with len := t.tx.len + n } },
          ringWrite ring (t.tx.head + t.tx.len) (data.take n), .ok n) := by
  unfold send
  split
  · exact .inl ⟨_, rfl, nofun⟩
  dsimp only
  split
  · rename_i hc
    split
    · refine .inl ⟨_, rfl, fun n => ?_⟩
      split
      · intro hn
        cases hn
        rfl
      · exact nofun
    · have hfree := t.tx.free_le
      exact .inr ⟨_, Nat.min_le_left .., by omega, hc.1, by simpa using hc.2, rfl⟩
  · split <;> exact .inl ⟨_, rfl, nofun⟩

variable (seg : TcpSegment) (start : Nat)

/-- Payload ahead of the stream asks for an acknowledgement and is at most held. -/
theorem takeAhead_eq :
    (t.takeAhead seg start).1 = { t with ackNow := true, ooo := (t.takeAhead seg start).1.ooo } := by
  unfold takeAhead
  dsimp only
  split
  · rfl
  · have h := hold_eq { t with ackNow := true } seg.seq (BitVec.ofNat 32
      (min seg.payload.length (Net.ring - (t.rx.len + (seg.seq - t.rcvNxt).toNat))))
    split <;> rename_i he <;> rw [he] at h <;> exact h

theorem sansText_takeAhead : (t.takeAhead seg start).1.sansText = t.sansText := by
  rw [takeAhead_eq]
  rfl

/-- Payload that continues the stream touches the receiving side only. -/
theorem sansText_takeNext : (t.takeNext seg start).1.sansText = t.sansText := by
  unfold takeNext
  dsimp only
  split
  · exact sansText_coalesce _
  · rfl

/-- What `view` shows is as before, or a FIN took a state that receives to one that does not. -/
def UpToFin (view : Tcb → Tcb) (t t' : Tcb) : Prop :=
  view t' = view t ∨ t.receiving = true ∧ ∃ s ∈ [TcpState.closeWait, .closing, .timeWait], view t' = view (t.enter s)

/-- A FIN touches the receiving side and the state. -/
theorem sansText_takeFin (finAcked : Bool) (now : Nat) : UpToFin sansText t (t.takeFin finAcked now) := by
  unfold UpToFin takeFin receiving
  cases hs : t.state with
  | established => exact .inr ⟨by decide, .closeWait, by decide, rfl⟩
  | finWait1 =>
    cases finAcked
    · exact .inr ⟨by decide, .closing, by decide, rfl⟩
    · exact .inr ⟨by decide, .timeWait, by decide, rfl⟩
  | finWait2 => exact .inr ⟨by decide, .timeWait, by decide, rfl⟩
  | _ => simp [sansText, sansRecv, hs]

/-- Payload and FIN change the receiving side, and a FIN the state. -/
theorem sansText_segmentText (finAcked : Bool) (now : Nat) :
    UpToFin sansText t (t.segmentText seg finAcked start now).1 := by
  -- `enter` and `receiving` read nothing of the receiving side.
  have henter {t t' : Tcb} (h : t'.sansText = t.sansText) (s : TcpState) :
      (t'.enter s).sansText = (t.enter s).sansText :=
    congrArg (fun t => (t.enter s).sansText) h
  have hrecv {t t' : Tcb} (h : t'.sansText = t.sansText) : t'.receiving = t.receiving :=
    (congrArg Tcb.receiving h : t'.sansText.receiving = t.sansText.receiving)
  have hfin (t' : Tcb) (h : t'.sansText = t.sansText) (takenTo : Seq) :
      UpToFin sansText t (t'.segmentFin seg takenTo finAcked now) := by
    unfold segmentFin
    split
    · rcases sansText_takeFin t' finAcked now with hk | ⟨hr, s, hs, hk⟩
      · exact .inl (hk.trans h)
      · exact .inr ⟨hrecv h ▸ hr, s, hs, hk.trans (henter h s)⟩
    · exact .inl h
  unfold segmentText
  split
  · split
    · exact .inl (sansText_takeAhead t seg start)
    · exact hfin _ (sansText_takeNext t seg start) _
  · exact hfin t rfl _

theorem sansRecv_segmentText (finAcked : Bool) (now : Nat) :
    UpToFin sansRecv t (t.segmentText seg finAcked start now).1 := by
  rcases sansText_segmentText t seg start finAcked now with h | ⟨hr, s, hs, h⟩
  · exact .inl (read_of h sansRecv fun _ => rfl)
  · exact .inr ⟨hr, s, hs, read_of h sansRecv fun _ => rfl⟩

/-- Reading touches the receiving side only. -/
theorem sansText_recv (ring : List UInt8) (size : Nat) : (t.recv ring size).1.sansText = t.sansText := by
  unfold recv
  dsimp only
  split
  · split <;> rfl
  · split
    · rfl
    · split <;> rfl

/-- A connection without what sending a segment changes. -/
def sansOut : Tcb :=
  { t with
    sndNxt := 0, sndMax := 0, finSeq := none, ackNow := false, rstNow := false, resend := false
    timing := none, deadline := none, probe := false }

/-- The timer is as it was, or was started. -/
def Armed (d : Option Nat) : Prop := d = t.deadline ∨ d.isSome = true

/-- All that sending can do. -/
inductive Emits (now : Nat) : Tcb × Option OutSegment → Prop where
  | reset : Emits now ({ t with rstNow := false }, some ⟨t.remoteIp, { t.header with hasRst := true }, none⟩)
  | quiet (d : Option Nat) (hd : t.Armed d) (ack : Bool) : Emits now ({ t with deadline := d, ackNow := ack }, none)
  | ack (d : Option Nat) (hd : t.Armed d) :
      Emits now ({ t with deadline := d, ackNow := false }, some ⟨t.remoteIp, t.header, none⟩)
  | syn (hs : t.state = .synSent ∨ t.state = .synReceived) (hiss : t.sndNxt = t.iss) :
      Emits now ({ t with ackNow := false }.advance 1 now, some ⟨t.remoteIp, { t.header with
        seq := t.iss, mss := some Net.mss, sackPermitted := true, hasSyn := true, hasAck := t.state ≠ .synSent
        ack := if t.state = .synSent then 0 else t.rcvNxt }, none⟩)
  | data (hs : t.sending = true) (hd : 0 < t.unsent ∧ 0 < t.dataLen) :
      Emits now (t.sendData t.dataLen now, some ⟨t.remoteIp, { t.header with hasPsh := true },
        some (t.tx.buf, (t.tx.head + t.sent) % Net.ring, t.dataLen)⟩)
  | fin (hs : t.sending = true) (hf : t.finDue = true) (d : Option Nat) :
      Emits now ({ t with deadline := d, ackNow := false, finSeq := some t.sndNxt }.advance 1 now,
        some ⟨t.remoteIp, { t.header with hasFin := true }, none⟩)

/-- **Sending.** In every state `nextSegment` does one of these. -/
theorem nextSegment_emits (now : Nat) : t.Emits now (t.nextSegment now) := by
  have hsyn (hs : t.state = .synSent ∨ t.state = .synReceived) : t.Emits now (t.nextSyn now) := by
    unfold nextSyn
    dsimp only
    split
    · exact .quiet _ (.inl rfl) _
    · rename_i hiss
      exact .syn hs (not_not.mp hiss)
  have hack (d : Option Nat) (hd : t.Armed d) : t.Emits now { t with deadline := d }.nextAck := by
    unfold nextAck
    split
    · exact .ack d hd
    · exact .quiet d hd _
  have hprobe : ∃ d, t.Armed d ∧ t.armProbe now = { t with deadline := d } := by
    unfold armProbe
    split
    · exact ⟨_, .inr rfl, rfl⟩
    · exact ⟨_, .inl rfl, rfl⟩
  have htext (hs : t.sending = true) : t.Emits now (t.nextText now) := by
    obtain ⟨d, hd, he⟩ := hprobe
    unfold nextText
    rw [he]
    dsimp only
    split
    · exact .data hs ‹_›
    · split
      · exact .fin hs ‹_› d
      · exact hack d hd
  unfold nextSegment
  split
  · exact .reset
  split
  · exact .quiet _ (.inl rfl) _
  · exact .quiet _ (.inl rfl) _
  · exact hsyn (.inl ‹_›)
  · exact hsyn (.inr ‹_›)
  · split
    · exact htext ‹_›
    · exact hack _ (.inl rfl)

/-- What was queued, acknowledged or received is not touched by sending. -/
theorem sansOut_nextSegment (now : Nat) : (t.nextSegment now).1.sansOut = t.sansOut := by
  have h := nextSegment_emits t now
  generalize t.nextSegment now = r at h
  cases h with
  | data =>
    unfold sendData
    dsimp only
    split <;> rfl
  | _ => rfl

/-- All that `shutdown`, `close` and `abort` can do. -/
inductive Shuts : Tcb → Prop where
  | stays (released queued : Bool) (hq : t.finQueued = true → queued = true) :
      Shuts { t with released, finQueued := queued }
  | closes (released rstNow : Bool) : Shuts ({ t with released, rstNow }.enter .closed)
  | ends (released : Bool) (s : TcpState)
      (hs : t.state = .established ∧ s = .finWait1 ∨ t.state = .closeWait ∧ s = .lastAck) :
      Shuts ({ t with released, finQueued := true }.enter s)

/-- `shutdown`, also of a connection that its program has let go of. -/
theorem shutdown_shuts (released : Bool) : t.Shuts { t with released }.shutdown := by
  unfold shutdown
  split <;> rename_i hs
  · exact .closes released t.rstNow
  · exact .stays released true fun _ => rfl
  · exact .stays released true fun _ => rfl
  · exact .ends released .finWait1 (.inl ⟨hs, rfl⟩)
  · exact .ends released .lastAck (.inr ⟨hs, rfl⟩)
  · exact .stays released t.finQueued id

theorem shuts_shutdown : t.Shuts t.shutdown := shutdown_shuts t t.released

theorem shuts_abort : t.Shuts t.abort := .closes true _

theorem shuts_closeOwn : t.Shuts t.closeOwn := by
  unfold closeOwn
  split
  · exact shuts_abort t
  dsimp only
  split
  · exact .closes true t.rstNow
  · exact .closes true t.rstNow
  · exact shutdown_shuts t true

/-- Whether the timer has run out with something in flight. -/
def expires (now : Nat) : Bool := t.deadline.any (· ≤ now) && t.sndUna ≠ t.sndMax

/-- All that the timers can do. -/
inductive Ticks (now : Nat) : Tcb → Prop where
  | quiet : Ticks now t
  | rests : Ticks now (t.enter .closed)
  | probes (h : t.sndUna = t.sndMax) : Ticks now { t with probe := true, deadline := none }
  | gaveUp (h : t.expires now = true) (hmany : Net.maxRetries < t.retries + 1) :
      Ticks now ({ t with retries := t.retries + 1, error := some .timedOut, rstNow := t.state.synchronized }.enter .closed)
  | again (h : t.expires now = true) (rto deadline : Nat) :
      Ticks now { { t with retries := t.retries + 1 }.collapse with sndNxt := t.sndUna, rto, deadline := some deadline }

/-- **Time.** In every state `timers` does one of these. -/
theorem timers_ticks (now : Nat) : t.Ticks now (t.timers now) := by
  have hclosed : (t.enter .closed).deadline = none := rfl
  unfold timers
  by_cases hw : t.state = .timeWait ∧ t.timeWaitUntil ≤ now
  · simp only [if_pos hw, hclosed]
    exact .rests
  simp only [if_neg hw]
  split
  · exact .quiet
  rename_i d hd
  split
  · exact .quiet
  rename_i hnow
  unfold timeout
  dsimp only
  split
  · exact .probes ‹_›
  rename_i hne
  have he : t.expires now = true := by simp [expires, hd, hne, not_lt.mp hnow]
  split
  · exact .gaveUp he ‹_›
  · exact .again he _ _

/-! ## How a segment is taken -/

/-- What the peer's SYN says. -/
def greeted : Tcb :=
  { t with
    rcvNxt := seg.seq + 1
    mss := min (max (seg.mss.getD Net.defaultMss) 1) Net.mss
    sackOk := seg.sackPermitted
    sndWnd := seg.window
    ackNow := true }

/-- The acknowledgement of a segment that goes on to its payload. -/
inductive AckTaken (now : Nat) : Tcb → Prop where
  | handshake (hs : t.state = .synReceived) (hlt : Seq.lt t.sndUna seg.ack = true)
      (hle : Seq.le seg.ack t.sndMax = true) :
      AckTaken now ({ t with sndWnd := seg.window }.acknowledge seg.ack now).establish
  | later (hs : t.state ≠ .synReceived) (hmax : Seq.lt t.sndMax seg.ack = false) :
      AckTaken now (t.takeAck seg now)

/-- All that the acknowledgement of a FIN can do, and whether the segment ends there. -/
inductive FinTaken (now : Nat) : Tcb × Bool → Prop where
  | none : FinTaken now (t, false)
  | half (hs : t.state = .finWait1) (hf : t.finAcknowledged = true) : FinTaken now (t.enter .finWait2, false)
  | both (hs : t.state = .closing) : FinTaken now
      ({ t.enter .timeWait with timeWaitUntil := satAdd Net.u64Max now Net.timeWait }, false)
  | last (hs : t.state = .lastAck) : FinTaken now (t.enter .closed, true)

theorem segmentFinAcked_taken (now : Nat) : t.FinTaken now (t.segmentFinAcked t.finAcknowledged now) := by
  unfold segmentFinAcked
  cases hf : t.finAcknowledged with
  | false => split <;> exact .none
  | true =>
    split
    · exact .half ‹_› hf
    · exact .both ‹_›
    · exact .last ‹_›
    · exact .none

/-- Whether a segment makes a connection send its SYN again. -/
def rewinds : Bool :=
  seg.hasSyn && !seg.hasRst && (decide (t.state = .synSent) && !seg.hasAck ||
    decide (t.state = .synReceived) && !acceptable t.rcvNxt t.rxFree seg.seq seg.len)

/-- All that a segment can do to its connection. -/
inductive Takes (now : Nat) : Tcb × Outcome → Prop where
  | ignored (out : Outcome) (h : out.deliver = none) : Takes now (t, out)
  | answered : Takes now ({ t with ackNow := true }, .none)
  | again (hs : t.state = .synReceived) (hr : t.rewinds seg = true) :
      Takes now ({ t with ackNow := true, sndNxt := t.iss }, .none)
  | reset : Takes now ({ t with error := some .reset }.enter .closed, .none)
  | syn (hs : t.state = .synSent) (hsyn : seg.hasSyn = true) (hr : t.rewinds seg = true) :
      Takes now ({ (t.greeted seg).enter .synReceived with sndNxt := t.iss }, .none)
  | synAck (hs : t.state = .synSent) (hsyn : seg.hasSyn = true) (hack : seg.hasAck = true)
      (heq : seg.ack = t.iss + 1) :
      Takes now (((t.greeted seg).acknowledge seg.ack now).establish, .none)
  | ends (hs : t.state ≠ .synSent ∧ t.state ≠ .closed) (hack : seg.hasAck = true) (t1 t2 : Tcb)
      (h1 : t.AckTaken seg now t1) (h2 : t1.FinTaken now (t2, true)) : Takes now (t2, .none)
  | text (hs : t.state ≠ .synSent ∧ t.state ≠ .closed)
      (ha : acceptable t.rcvNxt t.rxFree seg.seq seg.len = true) (hsyn : seg.hasSyn = false)
      (hack : seg.hasAck = true) (t1 t2 : Tcb) (h1 : t.AckTaken seg now t1) (h2 : t1.FinTaken now (t2, false)) :
      Takes now (t2.segmentText seg t1.finAcknowledged start now)

/-- A segment for a connection that waits for the answer to its SYN. -/
theorem segmentSynSent_takes (now : Nat) (hs : t.state = .synSent) :
    t.Takes seg start now (t.segmentSynSent seg now) := by
  unfold segmentSynSent
  split
  · exact .ignored _ rfl
  rename_i hok
  split
  · split
    · exact .reset
    · exact .ignored _ rfl
  rename_i hrst
  split
  · exact .ignored _ rfl
  rename_i hsyn
  rw [Bool.not_eq_true', Bool.not_eq_false] at hsyn
  split
  · rename_i hack
    exact .synAck hs hsyn hack (by_contra fun hne => hok ⟨hack, hne⟩)
  · rename_i hack
    exact .syn hs hsyn (by simp [rewinds, hs, hsyn, hrst, hack])

/-- The acknowledgement ends the segment there, or is taken and the payload comes next. -/
theorem segmentAck_cases (now : Nat) :
    (∃ out, out.deliver = none ∧ t.segmentAck seg now = (t, some out)) ∨
      t.segmentAck seg now = ({ t with ackNow := true }, some .none) ∨
      ∃ t1, t.segmentAck seg now = (t1, none) ∧ t.AckTaken seg now t1 := by
  unfold segmentAck
  split
  · rename_i hs
    split
    · exact .inl ⟨_, rfl, rfl⟩
    · rename_i hc
      rw [Bool.not_eq_true', Bool.not_eq_false, Bool.and_eq_true] at hc
      exact .inr (.inr ⟨_, rfl, .handshake hs hc.1 hc.2⟩)
  · rename_i hs
    split
    · exact .inr (.inl rfl)
    · rename_i hmax
      exact .inr (.inr ⟨_, rfl, .later hs (by simpa using hmax)⟩)

/-- A segment for a connection that has its peer's SYN. -/
theorem segmentOpen_takes (now : Nat) (hs : t.state ≠ .synSent ∧ t.state ≠ .closed) :
    t.Takes seg start now (t.segmentOpen seg start now) := by
  unfold segmentOpen
  split
  · rename_i ha
    unfold segmentOutside
    split
    · exact .ignored _ rfl
    rename_i hrst
    dsimp only
    split
    · rename_i hc
      exact .again hc.1 (by simp [rewinds, hc.1, hc.2, hrst, ha])
    · exact .answered
  rename_i ha
  split
  · split
    · exact .reset
    · exact .answered
  split
  · exact .answered
  rename_i hsyn
  split
  · exact .ignored _ rfl
  rename_i hack
  rw [Bool.not_eq_true', Bool.not_eq_false] at hack
  rcases segmentAck_cases t seg now with ⟨out, hout, he⟩ | he | ⟨t1, he, h1⟩ <;> rw [he]
  · exact .ignored _ hout
  · exact .answered
  · have h2 := segmentFinAcked_taken t1 now
    dsimp only
    split <;> rename_i t2 he <;> rw [he] at h2
    · exact .ends hs hack t1 t2 h1 h2
    · exact .text hs (by simpa using ha) (by simpa using hsyn) hack t1 t2 h1 h2

/-- **Receiving.** In every state `segment` does one of these. Invariants are proved by cases on them. -/
theorem segment_takes (now : Nat) : t.Takes seg start now (t.segment seg start now) := by
  unfold segment
  split
  · rename_i hs
    exact segmentSynSent_takes t seg start now hs
  · exact .ignored _ rfl
  · exact .ignored _ rfl
  · rename_i h1 h2 _
    exact segmentOpen_takes t seg start now ⟨h1, h2⟩

/-- A connection without its state, its timer, its windows and its receiving side. -/
def sansRest : Tcb :=
  { t.sansRecv with state := .closed, deadline := none, sndWnd := 0, mss := 0, sackOk := false, cwnd := 0 }

/-- What a segment does to the rest: nothing, or a reset, a SYN to send again, or an acknowledgement. -/
inductive Effect (now : Nat) (t' : Tcb) : Prop where
  | stays (h : t'.sansRest = t.sansRest)
  | reset (h : t'.sansRest = { t with error := some .reset }.sansRest)
  | again (hr : t.rewinds seg = true) (h : t'.sansRest = { t with sndNxt := t.iss }.sansRest)
  | acked (t0 : Tcb) (h0 : t0.sansRest = t.sansRest)
      (hack : t.state = .synSent ∧ seg.ack = t.iss + 1 ∧ t'.state ≠ .synSent ∨
        t.state ≠ .synSent ∧ Seq.lt t.sndUna seg.ack = true ∧ Seq.lt t.sndMax seg.ack = false)
      (h : t'.sansRest = (t0.acknowledge seg.ack now).sansRest)
  | duplicate (h : t'.sansRest = (t.duplicateAck seg).sansRest)

theorem sansRest_establish : t.establish.sansRest = t.sansRest := by
  rw [establish_eq]
  rfl

theorem FinTaken.sansRest {now : Nat} {t2 : Tcb} {done : Bool} (h : t.FinTaken now (t2, done)) :
    t2.sansRest = t.sansRest := by
  cases h <;> rfl

/-- Payload and FIN do not touch the rest. -/
theorem sansRest_segmentText (finAcked : Bool) (now : Nat) :
    (t.segmentText seg finAcked start now).1.sansRest = t.sansRest := by
  rcases sansRecv_segmentText t seg start finAcked now with h | ⟨-, s, -, h⟩ <;> exact read_of h sansRest fun _ => rfl

/-- An acknowledgement that was taken is new, a duplicate, or old. -/
theorem AckTaken.effect {now : Nat} {t1 t' : Tcb} (h : t.AckTaken seg now t1) (hs : t.state ≠ .synSent)
    (h' : t'.sansRest = t1.sansRest) : t.Effect seg now t' := by
  cases h with
  | handshake _ hlt hle =>
    rw [sansRest_establish] at h'
    exact .acked { t with sndWnd := seg.window } rfl (.inr ⟨hs, hlt, Seq.not_lt_of_le hle⟩) h'
  | later _ hmax =>
    have hwnd (t : Tcb) : (if Seq.le t.sndUna seg.ack then { t with sndWnd := seg.window } else t).sansRest =
        t.sansRest := by
      split <;> rfl
    unfold takeAck at h'
    rw [hwnd] at h'
    split at h'
    · exact .acked t rfl (.inr ⟨hs, ‹_›, hmax⟩) h'
    · split at h'
      · exact .duplicate h'
      · exact .stays h'

/-- **The effect of a segment** on all but the state, the windows and the receiving side. -/
theorem segment_effect (now : Nat) : t.Effect seg now (t.segment seg start now).1 := by
  have h := segment_takes t seg start now
  generalize t.segment seg start now = r at h
  cases h with
  | ignored | answered => exact .stays rfl
  | reset => exact .reset rfl
  | again _ hr | syn _ _ hr => exact .again hr rfl
  | synAck hs _ _ heq =>
    refine .acked (t.greeted seg) rfl (.inl ⟨hs, heq, ?_⟩) (sansRest_establish _)
    rw [state_establish]
    split <;> decide
  | ends hs _ t1 t2 h1 h2 => exact h1.effect t seg hs.1 h2.sansRest
  | text hs _ _ _ t1 t2 h1 h2 => exact h1.effect t seg hs.1 ((sansRest_segmentText ..).trans h2.sansRest)

/-- No segment changes whether a FIN was sent. -/
theorem finSeq_segment (now : Nat) : (t.segment seg start now).1.finSeq = t.finSeq := by
  cases segment_effect t seg start now with
  | stays h | reset h | again _ h => exact read_of h finSeq fun _ => rfl
  | acked t0 h0 _ h =>
    have hack := read_of (sansSend_acknowledge t0 seg.ack now) finSeq fun _ => rfl
    exact (read_of h finSeq fun _ => rfl).trans (hack.trans (read_of h0 finSeq fun _ => rfl))
  | duplicate h =>
    exact (read_of h finSeq fun _ => rfl).trans (read_of (sansAck_duplicateAck t seg) finSeq fun _ => rfl)

end Tcb

end Kintane
