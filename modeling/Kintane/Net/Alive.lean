import Mathlib.Data.BitVec
import Kintane.Net.Continues
import Kintane.Net.TcpRuns

/-!
# A connection does not stall

A connection that waits for its peer, and that has nothing to send now, has its timer running as
long as something it was asked to send is not acknowledged.
-/

open List

namespace Kintane

open Kintane.Seq

variable {now : Nat} {t' : Tcb} {seg : TcpSegment}

namespace Tcb

/-- The SYN, a queued byte or a queued FIN is not acknowledged: `snd_una` is not past the end of
what was queued. -/
def Unacknowledged (t : Tcb) : Prop :=
  t.sndUna ≠ t.txSeq + BitVec.ofNat 32 (t.tx.len + t.finQueued.toNat)

instance (t : Tcb) : Decidable t.Unacknowledged := inferInstanceAs (Decidable (_ ≠ _))

/-- The sequence numbers are positions of the stream. -/
def Placed (t : Tcb) : Prop := ∃ una nxt top base, Sends t una nxt top base

/-- A connection that waits for something has its place in the stream, and its timer runs if
something that was sent is not acknowledged. -/
def Steady (t : Tcb) : Prop := t.active = true → t.state.resting = true ∨ (t.Placed ∧ t.Timed)

/-! ## With nothing to send -/

variable {t : Tcb}

section

variable {una nxt top base : Nat}

/-- Something was sent that is not acknowledged. -/
theorem sndUna_ne_sndMax (h : Positions t.sendSide una nxt top base) (hne : una ≠ top) :
    t.sndUna ≠ t.sndMax := by
  have hun := h.una_le
  have hnt := h.nxt_le
  have hnear := h.top_near
  rw [show t.sndUna = pos t.iss una from h.sndUna, show t.sndMax = pos t.iss top from h.sndMax]
  intro he
  rw [pos_inj _ (by omega) (by omega)] at he
  exact hne (Int.ofNat_inj.mp he)

theorem not_unacknowledged (h : Positions t.sendSide una nxt top base)
    (he : una = 1 + (base + t.tx.len) + t.finQueued.toNat) : ¬t.Unacknowledged := by
  unfold Unacknowledged
  rw [show t.sndUna = pos t.iss una from h.sndUna,
    show t.txSeq = pos t.iss (1 + base : Nat) from h.txSeq, pos_add_ofNat, he, not_not]
  congr 1
  push_cast
  ring

/-- The SYN was sent. -/
theorem idle_nextSyn (h : Sends t una nxt top base) (ho : t.Opening) (ht : t.Timed)
    (hn : (t.nextSyn now).2 = none) : (t.nextSyn now).1.deadline.isSome = true := by
  obtain ⟨hu, htop, -, -⟩ := h.early ho
  have hnt := h.pos.nxt_le
  unfold nextSyn at hn ⊢
  dsimp only at hn ⊢
  split at hn
  · rename_i hiss
    rw [if_pos hiss]
    have hnxt : nxt ≠ 0 := by
      rintro rfl
      exact hiss (h.pos.sndNxt.trans (pos_zero _))
    exact ht (sndUna_ne_sndMax h.pos (by omega))
  · cases hn

/-- Everything was sent and everything that was sent is acknowledged. -/
theorem acknowledged_of_sent (h : Positions t.sendSide una nxt top base) (hlate : 1 ≤ una)
    (hun : t.unsent = 0) (hfin : t.finDue = false) (hall : una = top) : ¬t.Unacknowledged := by
  have hsent := h.sent_eq hlate
  have h1 := h.una_le
  have h2 := h.nxt_le
  have h3 := h.base_le
  have h4 : top ≤ 1 + (base + t.tx.len) + t.finSeq.isSome.toNat := h.top_le
  unfold unsent at hun
  refine not_unacknowledged h ?_
  cases hf : t.finSeq with
  | some f =>
    obtain ⟨-, hq, htop⟩ := h.fin f hf
    rw [show t.finQueued = true from hq, Bool.toNat_true]
    have htop : top = 2 + (base + t.tx.len) := htop
    omega
  | none =>
    rw [hf, Option.isSome_none, Bool.toNat_false] at h4
    -- A queued FIN would be due.
    have hq : t.finQueued = false := by
      by_contra hq
      have hnxt : nxt = 1 + base + t.tx.len := by omega
      have hend : t.sndNxt = t.txSeq + BitVec.ofNat 32 t.tx.len := by
        rw [show t.sndNxt = pos t.iss nxt from h.sndNxt,
          show t.txSeq = pos t.iss (1 + base : Nat) from h.txSeq, pos_add_ofNat, hnxt]
        rfl
      unfold finDue at hfin
      rw [hf, hend] at hfin
      simp [hq] at hfin
    rw [hq, Bool.toNat_false]
    omega

theorem sendSide_armProbe (t : Tcb) (now : Nat) : (t.armProbe now).sendSide = t.sendSide := by
  unfold armProbe
  split <;> rfl

/-- A shut window has its probe's timer. -/
theorem armProbe_deadline (now : Nat) (hun : 0 < t.unsent) : (t.armProbe now).deadline.isSome = true := by
  unfold armProbe
  split
  · rfl
  rename_i hc
  cases hd : t.deadline with
  | none => exact absurd ⟨hun, hd⟩ hc
  | some d => rfl

/-- All of the stream was sent, or the window is shut and the probe's timer runs. -/
theorem idle_nextText (h : Sends t una nxt top base) (hs : t.state.synchronized = true)
    (ht : t.Timed) (hn : (t.nextText now).2 = none)
    (hu : (t.nextText now).1.Unacknowledged) : (t.nextText now).1.deadline.isSome = true := by
  have hp : Positions (t.armProbe now).sendSide una nxt top base := sendSide_armProbe t now ▸ h.pos
  have ht' : (t.armProbe now).Timed := by
    unfold armProbe
    split
    · exact fun _ => rfl
    · exact ht
  have hunsent : (t.armProbe now).unsent = t.unsent := by
    unfold armProbe
    split <;> rfl
  have hdead := armProbe_deadline (t := t) now
  unfold nextText at hn hu ⊢
  dsimp only at hn hu ⊢
  split at hn
  · cases hn
  rename_i hdata
  rw [if_neg hdata] at hu ⊢
  split at hn
  · cases hn
  rename_i hfin
  rw [if_neg hfin] at hu ⊢
  unfold nextAck at hn hu ⊢
  split at hn
  · cases hn
  rename_i hack
  rw [if_neg hack] at hu ⊢
  by_cases hun : 0 < t.unsent
  · exact hdead hun
  · refine ht' (sndUna_ne_sndMax hp fun hall => ?_)
    exact acknowledged_of_sent hp (h.late hs) (by omega) (by simpa using hfin) hall hu

/-- A connection that has nothing to send now has everything acknowledged, or its timer runs. -/
theorem idle_nextSegment (h : Sends t una nxt top base) (ht : t.Timed)
    (hs : t.state.resting = false) (hn : (t.nextSegment now).2 = none)
    (hu : (t.nextSegment now).1.Unacknowledged) : (t.nextSegment now).1.deadline.isSome = true := by
  unfold nextSegment at hn hu ⊢
  split at hn
  · cases hn
  rename_i hrst
  rw [if_neg hrst] at hu ⊢
  cases hst : t.state with
  | closed | listen | timeWait =>
    rw [hst] at hs
    cases hs
  | synSent =>
    rw [hst] at hn
    exact idle_nextSyn h (.inl hst) ht hn
  | synReceived =>
    rw [hst] at hn
    exact idle_nextSyn h (.inr hst) ht hn
  | finWait2 =>
    -- The FIN is acknowledged, and everything before it.
    exfalso
    have hover := h.closing hst
    have h1 := h.pos.una_le
    have h2 := h.pos.nxt_le
    have h3 : top ≤ 1 + (base + t.tx.len) + t.finSeq.isSome.toNat := h.pos.top_le
    cases hf : t.finSeq with
    | none =>
      rw [hf, Option.isSome_none, Bool.toNat_false] at h3
      omega
    | some f =>
      have hq : t.finQueued = true := (h.pos.fin f hf).2.1
      have hack : ¬t.Unacknowledged := by
        refine not_unacknowledged h.pos ?_
        rw [hq, Bool.toNat_true]
        omega
      simp only [sending, hst, Bool.false_eq_true, if_false] at hu
      unfold nextAck at hu
      split at hu <;> exact hack hu
  | _ =>
    simp only [sending, hst, if_true] at hn hu ⊢
    exact idle_nextText h (by rw [hst]; rfl) ht hn hu

end

/-! ## Every step -/

namespace Steady

variable (h : t.Steady)

include h

/-- A connection that goes on. -/
theorem continues (hc : t.Continues t') (hp : t.Placed → t'.Placed) : t'.Steady := by
  intro ha
  have hact : t'.active = t.active := congrArg Tag.active hc.tag
  cases hr : t'.state.resting with
  | true => exact .inl rfl
  | false =>
    rcases h (hact ▸ ha) with hrest | ⟨hpl, ht⟩
    · rw [hc.onward.resting hrest] at hr
      cases hr
    · exact .inr ⟨hp hpl, hc.timed hr ht⟩

theorem shuts (hs : t.Shuts t') : t'.Steady :=
  h.continues hs.continues fun ⟨_, _, _, _, h⟩ => ⟨_, _, _, _, h.shuts hs⟩

theorem send (ring data : List UInt8) : (t.send ring data).1.Steady :=
  h.continues (t.continues_send ring data) fun ⟨_, _, _, _, hs⟩ => ⟨_, _, _, _, hs.send ring data⟩

theorem recv (ring : List UInt8) (size : Nat) : (t.recv ring size).1.Steady :=
  h.continues (t.continues_recv ring size) fun ⟨_, _, _, _, hs⟩ =>
    ⟨_, _, _, _, hs.congr (t.sendSide_recv ring size).1 (t.sendSide_recv ring size).2⟩

theorem timers (now : Nat) : (t.timers now).Steady :=
  h.continues (t.continues_timers now) fun ⟨_, _, _, _, hs⟩ =>
    let ⟨_, hs'⟩ := hs.timers now
    ⟨_, _, _, _, hs'⟩

theorem nextSegment (now : Nat) : (t.nextSegment now).1.Steady :=
  h.continues (t.continues_nextSegment now) fun ⟨_, _, _, _, hs⟩ =>
    let ⟨_, _, hs'⟩ := hs.nextSegment now
    ⟨_, _, _, _, hs'⟩

theorem segment (hg : t.Genuine seg) (start now : Nat) : (t.segment seg start now).1.Steady :=
  h.continues (t.continues_segment now seg start) fun ⟨_, _, _, _, hs⟩ =>
    let ⟨⟨_, _, _, _, _, hs', _⟩, _⟩ := hs.segment hg start now
    ⟨_, _, _, _, hs'⟩

theorem accept : Steady { t with accepted := true, parent := none } :=
  fun ha => (h ha).imp id fun ⟨⟨_, _, _, _, hs⟩, ht⟩ => ⟨⟨_, _, _, _, hs.congr rfl rfl⟩, ht⟩

theorem reapOne (p : Pool) : (Tcp.reapOne p t).1.Steady := by
  unfold Tcp.reapOne
  split
  · rename_i ho
    simp only [Tcp.finished, Bool.and_eq_true, Bool.or_eq_true, decide_eq_true_eq] at ho
    intro _
    refine .inl ?_
    rcases ho.1.2 with hs | hs <;> rw [hs] <;> rfl
  · exact h

end Steady

theorem steady_of_resting (h : t.state.resting = true) : t.Steady := fun _ => .inl h

theorem steady_of_inactive (h : t.active = false) : t.Steady :=
  fun ha => absurd (ha.symm.trans h) nofun

/-- A connection that was just made. -/
theorem steady_fresh {l : Line} (h : l.Fresh) (generation : Nat) :
    Steady { l.tcb with generation, active := true } := by
  intro _
  refine .inr ⟨⟨0, 0, 0, 0, h.sending.sends.congr rfl rfl⟩, fun hne => absurd ?_ hne⟩
  cases h <;> rfl

end Tcb

namespace Tcp

/-- A step of a peer that acknowledges what was sent, or of a program or the stack. -/
def Genuine (s : Tcp) : TcpOp → Prop
  | .input src seg _ _ => ∀ (i : Nat) (t : Tcb), s.tcbs.findIdx? (belongs src seg) = some i →
    s.tcbs[i]? = some t → t.Genuine seg
  | _ => True

/-- The states of the runs in which every call is allowed. -/
inductive Reaches (allowed : Tcp → TcpOp → Prop) : Tcp → Prop where
  | new : Reaches allowed new
  | step {s : Tcp} {op : TcpOp} (h : Reaches allowed s) (ha : allowed s op) : Reaches allowed (s.step op)

/-- A connection whose peer owes it an acknowledgement, or that has nothing to send now though
something is not acknowledged, has its timer running. -/
structure NeverStalls (s : Tcp) : Prop where
  outstanding : ∀ t ∈ s.tcbs, t.active = true → t.state.resting = false → t.sndUna ≠ t.sndMax →
    t.deadline.isSome = true
  idle : ∀ i now, (s.nextSegment i now).2 = none →
    ∀ t, (s.nextSegment i now).1.tcbs[i]? = some t → t.active = true → t.state.resting = false →
      t.Unacknowledged → t.deadline.isSome = true

def Steady (s : Tcp) : Prop := ∀ t ∈ s.tcbs, t.Steady

namespace Steady

variable {s s' : Tcp} (h : s.Steady)

include h

theorem put {i : Nat} (hs : s'.tcbs = s.tcbs.set i t') (ht : t'.Steady) : s'.Steady := by
  rw [Steady, hs]
  exact Ring.forall_mem_set h ht i

theorem same (hs : s'.tcbs = s.tcbs) : s'.Steady := fun t ht => h t (hs ▸ ht)

theorem map {f : Tcb → Tcb} (hs : s'.tcbs = s.tcbs.map f) (hf : ∀ t, t.Steady → (f t).Steady) : s'.Steady := by
  intro u hu
  rw [hs] at hu
  obtain ⟨t, ht, rfl⟩ := mem_map.mp hu
  exact hf t (h t ht)

theorem get {c : Conn} {t : Tcb} (hc : s.get c = some t) : t.Steady :=
  h t (mem_of_getElem? (get_eq_some hc).1)

/-- A call that gives up or fills a slot. -/
theorem opens {fresh : Tcb → Prop} {filled : Option Nat} (ho : s.Opens fresh filled s'.tcbs)
    (hf : ∀ t generation, fresh t → Tcb.Steady { t with generation, active := true }) :
    s'.Steady := by
  generalize htcbs : s'.tcbs = tcbs at ho
  cases ho with
  | kept => exact h.same htcbs
  | evicted i t ht he => exact h.put htcbs (Tcb.steady_of_inactive rfl)
  | installed i t t0 ht hfree h0 => exact h.put htcbs (hf t0 _ h0)

theorem input {src : Ipv4Addr} {start : Nat}
    (hg : s.Genuine (.input src seg start now)) : (s.input src seg start now).1.Steady := by
  rcases input_cases (s := s) src seg start now with hs | ⟨i, t, hf, ht, -, hs⟩
  · exact h.same hs
  · exact h.put hs ((h t (mem_of_getElem? ht)).segment (hg i t hf ht) start now)

theorem close (c : Conn) : (s.close c).1.Steady := by
  have hreset : (s.resetChildren c.index).Steady := by
    refine h.map rfl fun t ht => ?_
    split
    · exact Tcb.steady_of_resting rfl
    · exact ht
  unfold Tcp.close
  split
  · exact h
  rename_i t _
  have h' : (if t.state = .listen then s.resetChildren c.index else s).Steady := by
    split
    · exact hreset
    · exact h
  dsimp only
  split
  · exact h'
  · exact h'.put rfl ((h'.get ‹_›).shuts (Tcb.shuts_closeOwn _))

theorem step {op : TcpOp} (hg : s.Genuine op) : (s.step op).Steady := by
  have hring : (List.replicate Net.ring (0 : UInt8)).length = Net.ring := length_replicate
  cases op with
  | connect p remoteIp remotePort now =>
    refine h.opens (opens_connect p remoteIp remotePort now) ?_
    rintro t generation ⟨port, iss, rx, tx, rfl⟩
    exact Tcb.steady_fresh (.connect port remoteIp remotePort iss rx tx _ _ hring hring) generation
  | listen port =>
    refine h.opens (opens_listen port) ?_
    rintro t generation rfl
    exact Tcb.steady_of_resting rfl
  | openPassive p syn now =>
    refine h.opens (opens_openPassive p syn now) ?_
    rintro t generation ⟨-, iss, rx, tx, rfl⟩
    exact Tcb.steady_fresh (.openPassive syn iss rx tx _ _ hring hring) generation
  | accept l =>
    change (s.accept l).1.Steady
    rcases accept_cases (s := s) l with ⟨hs, -⟩ | ⟨i, t, lt, -, -, ht, -, -, hs⟩
    · exact hs.symm ▸ h
    · rw [hs]
      exact h.put rfl (h t (mem_of_getElem? ht)).accept
  | send p c data =>
    rcases send_cases (s := s) p c data with hs | ⟨t, ring, hc, hs⟩
    · exact h.same hs
    · exact h.put hs ((h.get hc).send ring data)
  | recv p c size =>
    rcases recv_cases (s := s) p c size with hs | ⟨t, ring, hc, hs⟩
    · exact h.same hs
    · exact h.put hs ((h.get hc).recv ring size)
  | shutdown c =>
    change (s.shutdown c).1.Steady
    unfold Tcp.shutdown
    split
    · exact h
    · exact h.put rfl ((h.get ‹_›).shuts (Tcb.shuts_shutdown _))
  | close c => exact h.close c
  | abort c =>
    change (s.abort c).1.Steady
    unfold Tcp.abort
    split
    · exact h
    · exact h.put rfl (Tcb.steady_of_resting rfl)
  | reap p =>
    intro t' ht'
    obtain ⟨j, hj⟩ := mem_iff_getElem?.mp ht'
    obtain ⟨t, q, ht, rfl⟩ := reapAll_getElem? p _ hj
    exact (h t (mem_of_getElem? ht)).reapOne q
  | timers now =>
    refine h.map rfl fun t ht => ?_
    split
    · exact ht.timers now
    · exact ht
  | input src seg start now => exact h.input hg
  | takeReset => exact h.same rfl
  | takeSyn => exact h.same rfl
  | nextSegment i now =>
    change (s.nextSegment i now).1.Steady
    rcases nextSegment_cases (s := s) i now with ⟨hs, -⟩ | ⟨t, ht, -, hs⟩
    · exact hs.symm ▸ h
    · rw [hs]
      exact h.put rfl ((h t (mem_of_getElem? ht)).nextSegment now)

theorem neverStalls : s.NeverStalls where
  outstanding t ht ha hr hne := by
    rcases h t ht ha with hrest | ⟨-, htimed⟩
    · exact absurd (hrest.symm.trans hr) nofun
    · exact htimed hne
  idle i now hn t ht ha hr hu := by
    rcases nextSegment_cases (s := s) i now with ⟨hs, hno⟩ | ⟨t0, ht0, ha0, hs⟩
    · rw [hs] at ht
      exact absurd (ha.symm.trans (hno t ht)) nofun
    rw [hs] at ht hn
    rcases getElem?_put ht with ⟨-, rfl, -⟩ | ⟨hne, -⟩
    · have hc := t0.continues_nextSegment now
      rcases h t0 (mem_of_getElem? ht0) ha0 with hrest | ⟨⟨una, nxt, top, base, hs⟩, htimed⟩
      · exact absurd ((hc.onward.resting hrest).symm.trans hr) nofun
      · refine Tcb.idle_nextSegment hs htimed ?_ hn hu
        by_contra hrest
        exact absurd ((hc.onward.resting (by simpa using hrest)).symm.trans hr) nofun
    · exact absurd rfl hne

end Steady

theorem steady_new : new.Steady := fun t ht =>
  Tcb.steady_of_inactive (by rw [eq_of_mem_replicate ht]; rfl)

end Tcp

/-- As long as peers acknowledge only what was sent, no connection stalls. -/
theorem never_stalls {s : Tcp} (h : Tcp.Reaches Tcp.Genuine s) : s.NeverStalls := by
  have hs : s.Steady := by
    induction h with
    | new => exact Tcp.steady_new
    | step _ hg ih => exact ih.step hg
  exact hs.neverStalls

namespace Tcp

/-- A connection to port 80 of the host 1 is begun, and has two buffers of the pool. -/
def begun : Tcp × Pool × Except TcpError Conn := new.connect .new 1 80 0

theorem begun_reached {allowed : Tcp → TcpOp → Prop} (h : allowed new (.connect .new 1 80 0)) :
    Reaches allowed begun.1 :=
  Reaches.step .new h

/-- A segment of that host without payload. -/
def answer (syn : Bool) (seq ack : Seq) : TcpSegment :=
  ⟨80, 49152, seq, iss 0 49152 80 + ack, syn, false, false, true, 1000, none, false, [], [], TcpSegment.empty_lt⟩

/-- The peer acknowledges the SYN before it is sent, then more and more, and the initial sequence
number at last; a byte is queued. -/
def outrun : Tcp :=
  (((((begun.1.step (.input 1 (answer true 9 1) 54 0)).step
    (.input 1 (answer false 10 (2 ^ 31)) 54 1)).step
    (.input 1 (answer false 10 (2 ^ 31 + 1)) 54 2)).step
    (.input 1 (answer false 10 0) 54 3)).step
    (.send begun.2.1 ⟨0, 1⟩ [5])).step (.nextSegment 0 4)

end Tcp

/-- The SYN was sent, and the timer for it runs. -/
theorem never_stalls_syn :
    ∃ s, Tcp.Reaches Tcp.Genuine s ∧ s.NeverStalls ∧ (s.nextSegment 0 1).2 = none ∧
      ((s.nextSegment 0 1).1.tcbs[0]?.map fun t => (t.state, t.deadline.isSome)) =
        some (.synSent, true) := by
  have h : Tcp.Reaches Tcp.Genuine (Tcp.begun.1.step (.nextSegment 0 0)) :=
    .step (Tcp.begun_reached trivial) trivial
  exact ⟨_, h, never_stalls h, by decide +kernel, by decide +kernel⟩

/-- A connection has a byte to send, sends nothing, and no timer runs. -/
theorem never_stalls_fails : ∃ s, Tcp.Reaches (fun _ _ => True) s ∧ ¬s.NeverStalls := by
  refine ⟨Tcp.outrun, ?_, fun h => ?_⟩
  · exact .step (.step (.step (.step (.step (.step (Tcp.begun_reached trivial) trivial) trivial)
      trivial) trivial) trivial) trivial
  · have hslot : ((Tcp.outrun.nextSegment 0 4).1.tcbs[0]?.map fun t =>
        (t.active, t.state.resting, t.deadline.isSome, decide t.Unacknowledged)) =
        some (true, false, false, true) := by decide +kernel
    obtain ⟨t, ht, he⟩ := Option.map_eq_some_iff.mp hslot
    simp only [Prod.mk.injEq, decide_eq_true_eq] at he
    have hd := h.idle 0 4 (by decide +kernel) t ht he.1 he.2.1 he.2.2.2
    exact absurd (hd.symm.trans he.2.2.1) nofun

end Kintane
