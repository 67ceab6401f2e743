import Kintane.Net.Continues

/-!
# When a connection gives up

A retransmission timer that runs out more than `maxRetries` times ends the connection. It is meant
for a peer that is gone, so what counts is how often the timer ran out since the peer was last
heard. The count a connection keeps starts again only with an acknowledgement of something new,
which is the same thing as long as every segment it hears brings one.

A peer that keeps its window shut does not: it answers the probe with what it has acknowledged
before. And since a probe is sent only with nothing in flight, the byte of the first one is the
last that is sent.
-/

namespace Kintane

open Prod

namespace Tcb

variable (t : Tcb) (seg : TcpSegment) (start now : Nat)

/-- Whether a segment is the peer's: a fitting SYN, and after that whatever is in the window. -/
def hears : Bool :=
  match t.state with
  | .closed | .listen => false
  | .synSent => seg.hasSyn && !seg.hasRst && (!seg.hasAck || seg.ack = t.iss + 1)
  | _ => acceptable t.rcvNxt t.rxFree seg.seq seg.len

/-- Whether a segment acknowledges something that was sent and not acknowledged before. -/
def advances : Bool :=
  seg.hasAck && !seg.hasRst && (t.state = .synSent || !seg.hasSyn) && Seq.lt t.sndUna seg.ack &&
    Seq.le seg.ack t.sndMax

/-- What giving up depends on. -/
def clock : Nat × Option TcpError := (t.retries, t.error)

theorem clock_establish : t.establish.clock = t.clock :=
  read_of (sansRest_establish t) clock fun _ => rfl

theorem clock_acknowledge (ack : Seq) : (t.acknowledge ack now).clock = (0, t.error) :=
  Prod.ext rfl (read_of (sansSend_acknowledge t ack now) error fun _ => rfl)

theorem clock_duplicateAck : (t.duplicateAck seg).clock = t.clock := by
  unfold duplicateAck
  dsimp only
  split <;> split <;> first | rfl | (split <;> rfl)

theorem clock_takeAck :
    (t.takeAck seg now).clock = if Seq.lt t.sndUna seg.ack then (0, t.error) else t.clock := by
  have hwnd (t : Tcb) : (if Seq.le t.sndUna seg.ack then { t with sndWnd := seg.window } else t).clock = t.clock := by
    split <;> rfl
  unfold takeAck
  rw [hwnd]
  split
  · exact clock_acknowledge t now _
  · split
    · exact clock_duplicateAck t seg
    · rfl

/-- A segment may start the count again, and does not end a connection for its silence. -/
theorem clock_segment : (t.segment seg start now).1.clock = t.clock ∨
    (t.segment seg start now).1.clock = (0, t.error) ∨
    (t.segment seg start now).1.clock = (t.retries, some .reset) := by
  cases segment_effect t seg start now with
  | stays h | again _ h => exact .inl (read_of h clock fun _ => rfl)
  | reset h => exact .inr (.inr (read_of h clock fun _ => rfl))
  | acked t0 h0 _ h =>
    have herr : t0.error = t.error := read_of h0 error fun _ => rfl
    rw [← herr, ← clock_acknowledge t0 now seg.ack]
    exact .inr (.inl (read_of h clock fun _ => rfl))
  | duplicate h =>
    rw [← clock_duplicateAck t seg]
    exact .inl (read_of h clock fun _ => rfl)

/-- An acknowledgement of something new starts the count again. -/
theorem retries_of_advances (hh : t.hears seg = true) (ha : t.advances seg = true) :
    (t.segment seg start now).1.retries = 0 := by
  simp only [advances, Bool.and_eq_true, Bool.or_eq_true, Bool.not_eq_true', decide_eq_true_eq] at ha
  obtain ⟨⟨⟨⟨hack, hrst⟩, hsyn⟩, hlt⟩, hle⟩ := ha
  have hopen (hs : t.state ≠ .synSent) (hacc : acceptable t.rcvNxt t.rxFree seg.seq seg.len = true) :
      (t.segmentOpen seg start now).1.retries = 0 := by
    have hsyn := hsyn.resolve_left hs
    have htaken : ∃ t1, t.segmentAck seg now = (t1, none) ∧ t1.retries = 0 := by
      unfold segmentAck
      by_cases hr : t.state = .synReceived
      · rw [if_pos hr, hlt, hle]
        exact ⟨_, rfl, congrArg fst ((clock_establish _).trans (clock_acknowledge _ now _))⟩
      · rw [if_neg hr, Seq.not_lt_of_le hle]
        exact ⟨_, rfl, congrArg fst ((clock_takeAck t seg now).trans (if_pos hlt))⟩
    obtain ⟨t1, he, h1⟩ := htaken
    -- what follows the acknowledgement leaves the count as it is
    have hfin := segmentFinAcked_taken t1 now
    unfold segmentOpen
    simp only [hacc, hrst, hsyn, hack, he, Bool.not_true, Bool.false_eq_true, if_false]
    split <;> rename_i t2 he <;> rw [he] at hfin
    · exact (read_of hfin.sansRest retries fun _ => rfl).trans h1
    · exact (read_of ((sansRest_segmentText ..).trans hfin.sansRest) retries fun _ => rfl).trans h1
  unfold hears at hh
  unfold segment
  split at hh
  · cases hh
  · cases hh
  · rename_i hs
    simp only [hs, hack, Bool.and_eq_true, Bool.or_eq_true, Bool.not_true, Bool.false_eq_true, false_or,
      decide_eq_true_eq] at hh ⊢
    unfold segmentSynSent
    simp only [hack, hh.1.1, hh.2, hrst, ne_eq, not_true_eq_false, and_false, if_false, Bool.not_true,
      Bool.false_eq_true, if_true]
    exact congrArg fst ((clock_establish _).trans (clock_acknowledge _ now _))
  · rename_i h1 h2 h3
    split
    · exact absurd ‹_› h3
    · exact absurd ‹_› h1
    · exact absurd ‹_› h2
    · exact hopen h3 hh

theorem Shuts.clock {t t' : Tcb} (h : t.Shuts t') : t'.clock = t.clock := by
  cases h <;> rfl

/-- The timers count an expiration, and give up at the one that is too many. -/
theorem clock_timers : (t.timers now).clock = t.clock ∨
    t.expires now = true ∧ ((t.timers now).clock = (t.retries + 1, t.error) ∨
      Net.maxRetries < t.retries + 1 ∧ (t.timers now).state = .closed ∧
        (t.timers now).retries = t.retries + 1) := by
  have h := timers_ticks t now
  generalize t.timers now = t' at h
  cases h with
  | quiet | rests | probes => exact .inl rfl
  | gaveUp he hmany => exact .inr ⟨he, .inr ⟨hmany, rfl, rfl⟩⟩
  | again he => exact .inr ⟨he, .inl rfl⟩

end Tcb

namespace Line

variable (l : Line) (n : Nat)

/-- How often the timer ran out with something in flight since the peer was last heard. -/
def silence : LineOp → Nat
  | .segment _ seg _ => if l.tcb.hears seg then 0 else n
  | .timers now => if l.tcb.expires now then n + 1 else n
  | _ => n

/-- A connection watched through a run. -/
def watch (s : Line × Nat) (op : LineOp) : Line × Nat := (s.1.step op, s.1.silence s.2 op)

/-- Every segment that is heard acknowledges something new, unless no timer has run out. -/
def Answers (l : Line) : LineOp → Prop
  | .segment _ seg _ => l.tcb.hears seg = true → l.tcb.retries = 0 ∨ l.tcb.advances seg = true
  | _ => True

/-- All segments of a run do. -/
def Answered : Line → List LineOp → Prop
  | _, [] => True
  | l, op :: ops => l.Answers op ∧ Answered (l.step op) ops

/-- The connection's count is no more than the silence, and it gave up only after enough of it. -/
structure Patient (s : Line × Nat) : Prop where
  retries : s.1.tcb.retries ≤ s.2
  gaveUp : s.1.tcb.error = some .timedOut → s.1.tcb.state = .closed ∧ Net.maxRetries + 1 ≤ s.2

variable {l n}

theorem Patient.same {l' : Line} (h : Patient (l, n)) (hc : l'.tcb.clock = l.tcb.clock)
    (hs : l.tcb.state = .closed → l'.tcb.state = .closed) : Patient (l', n) := by
  have hr : l'.tcb.retries = l.tcb.retries := congrArg fst hc
  have he : l'.tcb.error = l.tcb.error := congrArg snd hc
  refine ⟨hr ▸ h.retries, fun ht => ?_⟩
  obtain ⟨hcl, hn⟩ := h.gaveUp (he ▸ ht)
  exact ⟨hs hcl, hn⟩

theorem Patient.segment (h : Patient (l, n)) {header : List UInt8} {seg : TcpSegment} {now : Nat}
    (ha : l.Answers (.segment header seg now)) : Patient (watch (l, n) (.segment header seg now)) := by
  have hclosed (hs : l.tcb.state = .closed) : (l.tcb.segment seg header.length now).1 = l.tcb := by
    unfold Tcb.segment
    simp only [hs]
  have hclock := l.tcb.clock_segment seg header.length now
  simp only [Tcb.clock, Prod.mk.injEq] at hclock
  have hle : (l.tcb.segment seg header.length now).1.retries ≤ l.tcb.retries := by
    rcases hclock with ⟨hr, -⟩ | ⟨hr, -⟩ | ⟨hr, -⟩ <;> omega
  have herr (ht : (l.tcb.segment seg header.length now).1.error = some .timedOut) :
      l.tcb.state = .closed ∧ Net.maxRetries + 1 ≤ n := by
    refine h.gaveUp ?_
    rcases hclock with ⟨-, he⟩ | ⟨-, he⟩ | ⟨-, he⟩
    · exact he ▸ ht
    · exact he ▸ ht
    · cases he.symm.trans ht
  unfold watch silence step
  dsimp only
  by_cases hh : l.tcb.hears seg = true
  · rw [if_pos hh]
    constructor
    · simp only [segment_tcb]
      rcases ha hh with hz | hadv
      · exact hz ▸ hle
      · exact (l.tcb.retries_of_advances seg header.length now hh hadv).le
    · -- a connection that gave up hears nothing
      simp only [segment_tcb]
      intro ht
      have hs := (herr ht).1
      simp [Tcb.hears, hs] at hh
  · rw [if_neg hh]
    refine ⟨by simpa only [segment_tcb] using hle.trans h.retries, ?_⟩
    simp only [segment_tcb]
    intro ht
    obtain ⟨hs, hn⟩ := herr ht
    exact ⟨by rw [hclosed hs, hs], hn⟩

theorem Patient.watch {op : LineOp} (h : Patient (l, n)) (ha : l.Answers op) : Patient (watch (l, n) op) := by
  cases op with
  | segment header seg now => exact h.segment ha
  | timers now =>
    have hk := (l.tcb.keeps_timers now).later.closed
    rcases l.tcb.clock_timers now with hc | ⟨hexp, hc | ⟨hmany, hs, hr⟩⟩
    · have hp : Patient ({ l with tcb := l.tcb.timers now }, n) := h.same hc hk
      unfold Line.watch silence
      dsimp only
      split
      · exact ⟨hp.retries.trans (Nat.le_succ n), fun ht => (hp.gaveUp ht).imp_right fun hn => hn.trans (Nat.le_succ n)⟩
      · exact hp
    all_goals
      unfold Line.watch silence
      dsimp only
      rw [if_pos hexp]
    · have hr : (l.tcb.timers now).retries = l.tcb.retries + 1 := congrArg fst hc
      have he : (l.tcb.timers now).error = l.tcb.error := congrArg snd hc
      refine ⟨hr.le.trans (Nat.succ_le_succ h.retries), fun ht => ?_⟩
      obtain ⟨hs, hn⟩ := h.gaveUp (he ▸ ht)
      exact ⟨hk hs, hn.trans (Nat.le_succ n)⟩
    · have hle := h.retries
      dsimp only at hle
      exact ⟨hr.le.trans (Nat.succ_le_succ hle), fun _ => ⟨hs, by dsimp only; omega⟩⟩
  | recv size =>
    exact h.same (l.recv_tcb size ▸ Tcb.read_of (l.tcb.sansText_recv l.rx size) Tcb.clock fun _ => rfl)
      (l.recv_tcb size ▸ (l.tcb.continues_recv l.rx size).onward.closed)
  | send data =>
    have hc : (l.tcb.send l.tx data).1.clock = l.tcb.clock := by
      rcases l.tcb.send_cases l.tx data with ⟨res, hr, -⟩ | ⟨n, -, -, -, -, hr⟩ <;> rw [hr]
      rfl
    exact h.same (l.send_tcb data ▸ hc) (l.send_tcb data ▸ (l.tcb.continues_send l.tx data).onward.closed)
  | shutdown => exact h.same l.tcb.shuts_shutdown.clock l.tcb.shuts_shutdown.keeps.later.closed
  | close => exact h.same l.tcb.shuts_closeOwn.clock l.tcb.shuts_closeOwn.keeps.later.closed
  | abort => exact h.same rfl l.tcb.shuts_abort.keeps.later.closed
  | nextSegment now =>
    exact h.same (Tcb.read_of (l.tcb.sansOut_nextSegment now) Tcb.clock fun _ => rfl)
      (l.tcb.keeps_nextSegment now).later.closed

theorem Patient.run {ops : List LineOp} : ∀ {l : Line} {n : Nat}, Patient (l, n) → Answered l ops →
    Patient (ops.foldl Line.watch (l, n)) := by
  induction ops with
  | nil => exact fun h _ => h
  | cons op ops ih => exact fun h ha => ih (h.watch ha.1) ha.2

/--
**A connection whose peer always acknowledges something new gives up only after silence.**

In every run from a fresh connection in which each segment that is heard, once a timer has run
out, acknowledges something new, the connection is ended by its timer only after the timer ran out
`maxRetries + 1` times in a row without a segment of the peer in between.
-/
theorem gives_up_after_silence {l : Line} (hl : Fresh l) {ops : List LineOp} (ha : Answered l ops)
    (ht : (ops.foldl watch (l, 0)).1.tcb.error = some .timedOut) :
    Net.maxRetries + 1 ≤ (ops.foldl watch (l, 0)).2 := by
  have hfresh : Patient (l, 0) := by
    cases hl <;> exact ⟨le_rfl, nofun⟩
  exact ((hfresh.run ha).gaveUp ht).2

/-- A connection that a peer with a shut window opened. -/
def shutPeer : Line where
  tcb := .opened ⟨0, 1, 80, 8080, 0, 0, 536, false⟩ 0 0 1
  rx := List.replicate Net.ring 0
  tx := List.replicate Net.ring 0
  returned := []
  queued := []
  shut := false

theorem fresh_shutPeer : Fresh shutPeer :=
  .openPassive _ _ _ _ _ _ List.length_replicate List.length_replicate

/-- The timers, each time after the next timeout. -/
def waits (from_ n : Nat) : List LineOp := (List.range n).map fun i => .timers (10 ^ 10 * (from_ + i + 1))

/-- The peer acknowledges the handshake, its window still shut. -/
def stillShut : TcpSegment :=
  ⟨80, 8080, 1, 1, false, false, false, true, 0, none, false, [], [], TcpSegment.empty_lt⟩

/-- The peer answers after one timeout, and is silent from then on. -/
def answersOnce : List LineOp :=
  [.nextSegment 0, .timers (10 ^ 10), .segment [] stillShut (10 ^ 10), .send [7], .nextSegment (10 ^ 10),
    .timers (2 * 10 ^ 10), .nextSegment (2 * 10 ^ 10)] ++ waits 2 8

theorem gives_up_after_silence_shutPeer :
    Answered shutPeer answersOnce ∧ Net.maxRetries + 1 ≤ (answersOnce.foldl watch (shutPeer, 0)).2 := by
  have ha : Answered shutPeer answersOnce := by
    simp only [answersOnce, waits, List.range_succ, List.range_zero, List.nil_append, List.cons_append,
      List.map_cons, List.map_nil, Answered, Answers, true_and, and_true]
    exact fun _ => .inr (by decide +kernel)
  exact ⟨ha, gives_up_after_silence fresh_shutPeer ha (by decide +kernel)⟩

/-- A peer with a shut window answers the probe, and speaks again before the last timer. -/
theorem gives_up_on_shut_window : ¬∀ l, Fresh l → ∀ ops : List LineOp,
    (ops.foldl watch (l, 0)).1.tcb.error = some .timedOut → Net.maxRetries + 1 ≤ (ops.foldl watch (l, 0)).2 := by
  intro h
  have := h shutPeer fresh_shutPeer
    ([.nextSegment 0, .segment [] stillShut 0, .send [7], .nextSegment 0, .timers (10 ^ 9), .nextSegment (10 ^ 9),
      .segment [] stillShut (10 ^ 9)] ++ waits 0 7 ++ [.segment [] stillShut (10 ^ 11), .timers (10 ^ 11)])
    (by decide +kernel)
  revert this
  decide +kernel

end Line

end Kintane
