import Kintane.Net.Receive
import Kintane.Net.SendRuns
import Kintane.Net.Tcp

/-!
# What a connection keeps while it lasts

Whatever a program, a segment or a timer does to a connection, it stays in its slot with its
buffers and its parent, its state only goes on, and its timer runs as long as something that was
sent is not acknowledged. `Continues` says this once, for every method.
-/

namespace Kintane

open TcpState

namespace TcpState

/-- The states in which nothing is waited for. -/
def resting : TcpState → Bool
  | .closed | .listen | .timeWait => true
  | _ => false

/-- How states follow each other while a connection lasts. -/
structure Onward (s s' : TcpState) : Prop where
  resting : s.resting = true → s'.resting = true
  closed : s = .closed → s' = .closed
  listen : s' = .listen → s = .listen

theorem Onward.refl (s : TcpState) : s.Onward s := ⟨id, id, id⟩

theorem Onward.trans {a b c : TcpState} (h : a.Onward b) (h' : b.Onward c) : a.Onward c :=
  ⟨fun ha => h'.resting (h.resting ha), fun ha => h'.closed (h.closed ha),
    fun hc => h.listen (h'.listen hc)⟩

/-- A state that waits for something may be followed by any but LISTEN. -/
theorem onward_of_not_resting {s s' : TcpState} (h : s.resting = false) (h' : s' ≠ .listen) : s.Onward s' := by
  refine ⟨fun hr => absurd (hr.symm.trans h) nofun, ?_, fun hl => absurd hl h'⟩
  rintro rfl
  exact absurd h nofun

end TcpState

namespace Tcb

/-- Which connection this is, whose it is, and the buffers it has. -/
structure Tag where
  active : Bool
  generation : Nat
  localPort : Nat
  parent : Option Nat
  accepted : Bool
  rx : Option Nat
  tx : Option Nat

def tag (t : Tcb) : Tag :=
  ⟨t.active, t.generation, t.localPort, t.parent, t.accepted, t.rx.buf, t.tx.buf⟩

/-- The timer runs if something that was sent is not acknowledged. -/
def Timed (t : Tcb) : Prop := t.sndUna ≠ t.sndMax → t.deadline.isSome = true

/-- What `Timed` reads. -/
def timer (t : Tcb) : Seq × Seq × Option Nat := (t.sndUna, t.sndMax, t.deadline)

theorem Timed.congr {t t' : Tcb} (ht : t.Timed) (h : t'.timer = t.timer) : t'.Timed := by
  simp only [timer, Prod.mk.injEq] at h
  unfold Timed
  rw [h.1, h.2.1, h.2.2]
  exact ht

/-- The connection is the same one, further on, and its timer has not been lost. -/
structure Continues (t t' : Tcb) : Prop where
  tag : t'.tag = t.tag
  onward : t.state.Onward t'.state
  timed : t'.state.resting = false → t.Timed → t'.Timed

namespace Continues

theorem refl (t : Tcb) : t.Continues t := ⟨rfl, .refl _, fun _ => id⟩

theorem trans {a b c : Tcb} (h : a.Continues b) (h' : b.Continues c) : a.Continues c where
  tag := h'.tag.trans h.tag
  onward := h.onward.trans h'.onward
  timed hc ha := by
    refine h'.timed hc (h.timed ?_ ha)
    by_contra hb
    rw [h'.onward.resting (by simpa using hb)] at hc
    cases hc

/-- A change of other fields. -/
theorem of_eq {t t' : Tcb} (h : t'.tag = t.tag) (hs : t'.state = t.state) (ht : t'.timer = t.timer) :
    t.Continues t' :=
  ⟨h, hs ▸ .refl _, fun _ ht' => ht'.congr ht⟩

/-- The connection rests afterwards. -/
theorem of_resting {t t' : Tcb} (h : t'.tag = t.tag) (hs : t.state.Onward t'.state)
    (hr : t'.state.resting = true) : t.Continues t' :=
  ⟨h, hs, fun hn => absurd (hr.symm.trans hn) nofun⟩

theorem closed {t t' : Tcb} (h : t'.tag = t.tag) (hs : t'.state = .closed) : t.Continues t' :=
  .of_resting h (hs ▸ ⟨fun _ => rfl, fun _ => rfl, nofun⟩) (by rw [hs]; rfl)

/-- The connection goes from one state that waits for something to another. -/
theorem of_waiting {t t' : Tcb} (h : t'.tag = t.tag) (hs : t.state.resting = false)
    (hs' : t'.state ≠ .listen) (ht : t.Timed → t'.Timed) : t.Continues t' :=
  ⟨h, onward_of_not_resting hs hs', fun _ => ht⟩

end Continues

variable (t : Tcb) (now : Nat)

/-! ## The program's calls and the timers -/

theorem Shuts.continues {t t' : Tcb} (h : t.Shuts t') : t.Continues t' := by
  cases h with
  | stays => exact .of_eq rfl rfl rfl
  | closes => exact .closed rfl rfl
  | ends _ s hs =>
    rcases hs with ⟨hs, rfl⟩ | ⟨hs, rfl⟩ <;> exact .of_waiting rfl (by rw [hs]; rfl) nofun id

theorem continues_send (ring data : List UInt8) : t.Continues (t.send ring data).1 := by
  rcases t.send_cases ring data with ⟨res, hr, -⟩ | ⟨n, -, -, -, -, hr⟩ <;> rw [hr]
  · exact .refl t
  · exact .of_eq rfl rfl rfl

theorem continues_recv (ring : List UInt8) (size : Nat) : t.Continues (t.recv ring size).1 :=
  have h := t.sansText_recv ring size
  .of_eq (read_of h tag fun _ => rfl) (read_of h state fun _ => rfl) (read_of h timer fun _ => rfl)

theorem continues_timers : t.Continues (t.timers now) := by
  have h := timers_ticks t now
  generalize t.timers now = t' at h
  cases h with
  | quiet => exact .refl t
  | rests | gaveUp => exact .closed rfl rfl
  | probes he => exact ⟨rfl, .refl _, fun _ _ hne => absurd he hne⟩
  | again => exact ⟨rfl, .refl _, fun _ _ _ => rfl⟩

/-! ## Sending -/

theorem timed_advance (n : Nat) : (t.advance n now).Timed := by
  intro _
  change (if t.deadline = none then some (satAdd Net.u64Max now t.rto) else t.deadline).isSome = true
  split
  · rfl
  · rename_i hd
    exact Option.isSome_iff_ne_none.mpr hd

theorem continues_nextSegment : t.Continues (t.nextSegment now).1 := by
  have hout := sansOut_nextSegment t now
  refine ⟨read_of hout tag fun _ => rfl, read_of hout state (fun _ => rfl) ▸ .refl _, fun _ ht => ?_⟩
  have harmed {d : Option Nat} (hd : t.Armed d) (hne : t.sndUna ≠ t.sndMax) : d.isSome = true := by
    rcases hd with rfl | hd
    · exact ht hne
    · exact hd
  have h := nextSegment_emits t now
  generalize t.nextSegment now = r at h
  cases h with
  | reset => exact ht
  | quiet d hd => exact harmed hd
  | ack d hd => exact harmed hd
  | syn => exact timed_advance { t with ackNow := false } now 1
  | data =>
    unfold sendData
    dsimp only
    split
    · exact timed_advance { t with probe := false, ackNow := false, resend := false, timing := none } now _
    · exact timed_advance { t with probe := false, ackNow := false } now _
  | fin => exact timed_advance { t with deadline := _, ackNow := false, finSeq := some t.sndNxt } now 1

/-! ## A segment -/

theorem timed_acknowledge (ack : Seq) : (t.acknowledge ack now).Timed := by
  unfold acknowledge
  dsimp only
  generalize (((t.ackData ack).ackTiming ack now).forgetSacked ack).ackRecovery ack _ = t'
  intro hne
  change (if t'.sndUna = t'.sndMax then none else some _).isSome = true
  rw [if_neg (show ¬t'.sndUna = t'.sndMax from hne)]
  rfl

theorem continues_acknowledge (ack : Seq) : t.Continues (t.acknowledge ack now) :=
  ⟨read_of (sansAck_acknowledge t ack now) tag fun _ => rfl, state_of_sansSend (sansSend_acknowledge t ack now) ▸ .refl _,
    fun _ _ => timed_acknowledge t now ack⟩

/-- The handshake is over. -/
theorem continues_establish (hs : t.state.resting = false) : t.Continues t.establish := by
  rw [establish_eq]
  refine .of_waiting rfl hs ?_ (fun ht => ht.congr rfl)
  split <;> exact nofun

theorem continues_duplicateAck (seg : TcpSegment) : t.Continues (t.duplicateAck seg) := by
  unfold duplicateAck
  dsimp only
  split <;> split <;> first | exact .of_eq rfl rfl rfl | (split <;> exact .of_eq rfl rfl rfl)

theorem continues_takeAck (seg : TcpSegment) : t.Continues (t.takeAck seg now) := by
  have hwnd (t : Tcb) : t.Continues
      (if Seq.le t.sndUna seg.ack then { t with sndWnd := seg.window } else t) := by
    split
    · exact .of_eq rfl rfl rfl
    · exact .refl t
  refine Continues.trans ?_ (hwnd _)
  split
  · exact continues_acknowledge t now _
  · split
    · exact continues_duplicateAck t seg
    · exact .refl t

variable (seg : TcpSegment) (start : Nat)

/-- The acknowledgement that ends the handshake, after other changes. -/
theorem continues_handshake {t0 : Tcb} (hs : t.state.resting = false) (htag : t0.tag = t.tag)
    (hst : t0.state = t.state) (ack : Seq) : t.Continues (t0.acknowledge ack now).establish := by
  have h := continues_acknowledge t0 now ack
  have hst' : (t0.acknowledge ack now).state = t.state :=
    (state_of_sansSend (sansSend_acknowledge t0 ack now)).trans hst
  have he := continues_establish (t0.acknowledge ack now) (by rw [hst']; exact hs)
  refine ⟨he.tag.trans (h.tag.trans htag), hst' ▸ he.onward, fun hr _ => he.timed hr ?_⟩
  exact timed_acknowledge t0 now ack

theorem FinTaken.continues {t2 : Tcb} {done : Bool} (h : t.FinTaken now (t2, done)) : t.Continues t2 := by
  cases h with
  | none => exact .refl t
  | half hs => exact .of_waiting rfl (by rw [hs]; rfl) nofun id
  | both hs => exact .of_resting rfl (onward_of_not_resting (by rw [hs]; rfl) nofun) rfl
  | last => exact .closed rfl rfl

theorem continues_segmentText (finAcked : Bool) : t.Continues (t.segmentText seg finAcked start now).1 := by
  rcases sansText_segmentText t seg start finAcked now with h | ⟨hr, s, hs, h⟩
  · exact .of_eq (read_of h tag fun _ => rfl) (read_of h state fun _ => rfl) (read_of h timer fun _ => rfl)
  have hst : (t.segmentText seg finAcked start now).1.state = s := read_of h state fun _ => rfl
  have hw : t.state.resting = false := by
    unfold receiving at hr
    cases hs : t.state <;> simp_all [resting]
  refine ⟨read_of h tag fun _ => rfl, hst ▸ onward_of_not_resting hw ?_, fun hn ht => ?_⟩
  · rintro rfl
    exact absurd hs (by decide)
  · have hs' : (t.enter s).timer = t.timer := by
      rw [hst] at hn
      unfold enter timer
      rw [if_neg]
      rintro (rfl | rfl) <;> cases hn
    exact ht.congr ((read_of h timer fun _ => rfl).trans hs')

theorem AckTaken.continues {t1 : Tcb} (h : t.AckTaken seg now t1) : t.Continues t1 := by
  cases h with
  | handshake hs => exact continues_handshake t now (by rw [hs]; rfl) (by rfl) (by rfl) _
  | later => exact continues_takeAck t now seg

theorem continues_segment : t.Continues (t.segment seg start now).1 := by
  have h := segment_takes t seg start now
  generalize t.segment seg start now = r at h
  cases h with
  | ignored => exact .refl t
  | answered => exact .of_eq rfl rfl rfl
  | again => exact .of_eq rfl rfl rfl
  | reset => exact .closed rfl rfl
  | syn hs => exact .of_waiting (by rfl) (by rw [hs]; rfl) nofun id
  | synAck hs => exact continues_handshake t now (by rw [hs]; rfl) (by rfl) (by rfl) _
  | ends _ _ t1 t2 h1 h2 => exact h1.continues.trans h2.continues
  | text _ _ _ _ t1 t2 h1 h2 =>
    exact (h1.continues.trans h2.continues).trans (continues_segmentText t2 now seg start _)

end Tcb

end Kintane
