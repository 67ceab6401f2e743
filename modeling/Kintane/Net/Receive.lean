import Kintane.Net.Frame

/-!
# What a step does to the receiving side

Everything but the payload, the FIN and a SYN in SYN-SENT leaves the receiving side of a
connection alone, and takes its state only forward: no later state takes payload once one does
not, and none goes back before the handshake.
-/

namespace Kintane

open TcpState

/-- What a connection knows of its peer's stream. -/
structure RecvSide where
  rcvNxt : Seq
  rx : TcpRing
  ooo : List (Option Run)
  peerFin : Bool

def Tcb.recvSide (t : Tcb) : RecvSide := ⟨t.rcvNxt, t.rx, t.ooo, t.peerFin⟩

/-- The states from which none is reached that takes payload or a FIN. -/
def TcpState.ended : TcpState → Bool
  | .closeWait | .closing | .lastAck | .timeWait | .closed | .listen => true
  | _ => false

/-- How the state goes on when nothing is received. -/
structure TcpState.Later (s s' : TcpState) : Prop where
  synSent : s = .synSent → s' = .synSent ∨ s' = .closed
  opened : s ≠ .synSent → s' ≠ .synSent
  ended : s.ended = true → s'.ended = true
  closed : s = .closed → s' = .closed

instance (s s' : TcpState) : Decidable (s.Later s') :=
  decidable_of_iff ((s = .synSent → s' = .synSent ∨ s' = .closed) ∧ (s ≠ .synSent → s' ≠ .synSent) ∧
    (s.ended = true → s'.ended = true) ∧ (s = .closed → s' = .closed))
    ⟨fun ⟨h1, h2, h3, h4⟩ => ⟨h1, h2, h3, h4⟩, fun ⟨h1, h2, h3, h4⟩ => ⟨h1, h2, h3, h4⟩⟩

theorem TcpState.Later.refl (s : TcpState) : s.Later s :=
  ⟨.inl, id, id, id⟩

theorem TcpState.Later.trans {a b c : TcpState} (h : a.Later b) (h' : b.Later c) : a.Later c where
  synSent ha := by
    rcases h.synSent ha with hb | hb
    · exact h'.synSent hb
    · exact .inr (h'.closed hb)
  opened ha := h'.opened (h.opened ha)
  ended ha := h'.ended (h.ended ha)
  closed ha := h'.closed (h.closed ha)

theorem TcpState.later_closed (s : TcpState) : s.Later .closed := by
  cases s <;> decide

namespace Tcb

/-- The receiving side is left alone. -/
structure Keeps (t t' : Tcb) : Prop where
  side : t'.recvSide = t.recvSide
  later : t.state.Later t'.state

theorem Keeps.refl (t : Tcb) : t.Keeps t := ⟨rfl, .refl _⟩

theorem Keeps.trans {a b c : Tcb} (h : a.Keeps b) (h' : b.Keeps c) : a.Keeps c :=
  ⟨h'.side.trans h.side, h.later.trans h'.later⟩

/-- A change of other fields. -/
theorem Keeps.of_eq {t t' : Tcb} (h : t'.recvSide = t.recvSide) (hs : t'.state = t.state) : t.Keeps t' :=
  ⟨h, hs ▸ .refl _⟩

variable (t : Tcb)

theorem keeps_enter {s : TcpState} (h : t.state.Later s) : t.Keeps (t.enter s) := ⟨rfl, h⟩

theorem recvSide_sansSend : t.sansSend.recvSide = t.recvSide := rfl

/-- A change of the sending side. -/
theorem Keeps.of_sansSend {t t' : Tcb} (h : t'.sansSend = t.sansSend) : t.Keeps t' :=
  .of_eq (by rw [← recvSide_sansSend, h, recvSide_sansSend])
    (state_of_sansSend h)

theorem recvSide_establish : t.establish.recvSide = t.recvSide := by
  rw [establish_eq]
  rfl

theorem keeps_establish (h : t.state = .synReceived) : t.Keeps t.establish := by
  refine ⟨recvSide_establish t, ?_⟩
  rw [state_establish, h]
  split <;> decide

/-! ## The program's calls, the timers and sending -/

theorem Shuts.keeps {t t' : Tcb} (h : t.Shuts t') : t.Keeps t' := by
  cases h with
  | stays => exact .of_eq rfl rfl
  | closes => exact ⟨rfl, later_closed _⟩
  | ends _ s hs =>
    refine ⟨rfl, (?_ : t.state.Later s)⟩
    rcases hs with ⟨hs, rfl⟩ | ⟨hs, rfl⟩ <;> rw [hs] <;> decide

theorem keeps_timers (now : Nat) : t.Keeps (t.timers now) := by
  have h := timers_ticks t now
  generalize t.timers now = t' at h
  cases h with
  | quiet | probes | again => exact .of_eq rfl rfl
  | rests | gaveUp => exact ⟨rfl, later_closed _⟩

theorem keeps_nextSegment (now : Nat) : t.Keeps (t.nextSegment now).1 :=
  .of_eq (read_of (sansOut_nextSegment t now) recvSide fun _ => rfl)
    (read_of (sansOut_nextSegment t now) state fun _ => rfl)

theorem keeps_send (ring data : List UInt8) : t.Keeps (t.send ring data).1 := by
  rcases t.send_cases ring data with ⟨res, hr, -⟩ | ⟨n, -, -, -, -, hr⟩ <;> rw [hr]
  · exact .refl t
  · exact .of_eq rfl rfl

/-! ## A segment -/

variable (seg : TcpSegment) (start now : Nat)

theorem AckTaken.keeps {t1 : Tcb} (h : t.AckTaken seg now t1) : t.Keeps t1 := by
  cases h with
  | handshake hs =>
    have hack := sansSend_acknowledge { t with sndWnd := seg.window } seg.ack now
    exact (Keeps.of_sansSend hack : t.Keeps _).trans (keeps_establish _ ((state_of_sansSend hack).trans hs))
  | later => exact .of_sansSend (sansSend_takeAck t seg now)

theorem FinTaken.keeps {t2 : Tcb} {done : Bool} (h : t.FinTaken now (t2, done)) : t.Keeps t2 := by
  cases h with
  | none => exact .refl t
  | half hs => exact keeps_enter t (by rw [hs]; decide)
  | both hs => exact ⟨rfl, (by rw [hs]; decide : t.state.Later .timeWait)⟩
  | last hs => exact keeps_enter t (by rw [hs]; decide)

/-- The handshake is over once an acknowledgement has been taken. -/
theorem AckTaken.opened {t1 : Tcb} (h : t.AckTaken seg now t1) : t1.state ≠ .synReceived := by
  cases h with
  | handshake =>
    rw [state_establish]
    split <;> decide
  | later hs => rwa [state_of_sansSend (sansSend_takeAck t seg now)]

theorem FinTaken.opened {t2 : Tcb} {done : Bool} (h : t.FinTaken now (t2, done)) (hs : t.state ≠ .synReceived) :
    t2.state ≠ .synReceived := by
  cases h with
  | none => exact hs
  | half => exact (by decide : finWait2 ≠ .synReceived)
  | both => exact (by decide : timeWait ≠ .synReceived)
  | last => exact (by decide : closed ≠ .synReceived)

/-- What a segment does to the receiving side: nothing, or in SYN-SENT it gives the peer's initial
sequence number, or its payload and FIN are taken by a connection whose receiving side is the
same. -/
inductive SegmentCases : Tcb × Outcome → Prop where
  | keeps (t' : Tcb) (out : Outcome) (h : t.Keeps t') (hout : out.deliver = none) :
      SegmentCases (t', out)
  | syn (t' : Tcb) (hs : t.state = .synSent) (hsyn : seg.hasSyn = true)
      (h : t'.recvSide = { t.recvSide with rcvNxt := seg.seq + 1 })
      (hst : t'.state ≠ .synSent ∧ t'.state.ended = false) : SegmentCases (t', .none)
  | text (t' : Tcb) (finAcked : Bool) (hs : t.state ≠ .synSent ∧ t.state ≠ .closed)
      (ha : acceptable t.rcvNxt t.rxFree seg.seq seg.len = true) (hsyn : seg.hasSyn = false)
      (h : t.Keeps t') (hopen : t'.state ≠ .synReceived) : SegmentCases (t'.segmentText seg finAcked start now)

theorem segment_cases : t.SegmentCases seg start now (t.segment seg start now) := by
  have h := segment_takes t seg start now
  generalize t.segment seg start now = r at h
  cases h with
  | ignored out hout => exact .keeps _ _ (.refl t) hout
  | answered => exact .keeps _ _ (.of_eq rfl rfl) rfl
  | again => exact .keeps _ _ (.of_eq rfl rfl) rfl
  | reset => exact .keeps _ _ ⟨rfl, later_closed _⟩ rfl
  | syn hs hsyn =>
    exact .syn _ hs hsyn rfl (by decide : synReceived ≠ .synSent ∧ synReceived.ended = false)
  | synAck hs hsyn =>
    refine .syn _ hs hsyn ?_ ?_
    · rw [recvSide_establish, ← recvSide_sansSend, sansSend_acknowledge]
      rfl
    · rw [state_establish]
      split <;> decide
  | ends _ _ t1 t2 h1 h2 => exact .keeps _ _ (h1.keeps.trans h2.keeps) rfl
  | text hs ha hsyn _ t1 t2 h1 h2 => exact .text t2 _ hs ha hsyn (h1.keeps.trans h2.keeps) (h2.opened t1 now h1.opened)

theorem segment_opened (hs : t.state ≠ .synSent) : (t.segment seg start now).1.state ≠ .synSent := by
  have h := segment_cases t seg start now
  generalize t.segment seg start now = r at h
  cases h with
  | keeps t' out hk => exact hk.later.opened hs
  | syn t' hsent => exact absurd hsent hs
  | text t' finAcked _ _ _ hk =>
    rcases sansRecv_segmentText t' seg start finAcked now with hr | ⟨-, s, hm, hr⟩ <;> rw [state_of_sansRecv hr]
    · exact hk.later.opened hs
    · intro he
      cases (he : s = .synSent)
      simp at hm

end Tcb

end Kintane
