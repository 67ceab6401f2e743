import Kintane.Net.ReceiveRuns

/-!
# The right edge of the window

A segment acknowledges `rcv_nxt` and announces the room past it. With nothing held out of order
the two add up to what the program has read and a ring: payload moves the acknowledgement forward
by what it takes from the room, reading gives room back, and a FIN moves the edge by its unit. So
the edge never goes back, and what a peer sent inside a window is still inside.

A run that is held takes its room, and the gap before it, from the window without moving the
acknowledgement. Then the edge goes back, by more than the run.
-/

namespace Kintane

open Net

def TcpHeader.edge (h : TcpHeader) : Seq := h.ack + BitVec.ofNat 32 h.window

namespace Tcb

variable {t t' t1 : Tcb}

/-- Nothing is held out of order. -/
def NoRuns (t : Tcb) : Prop := ∀ slot ∈ t.ooo, slot = none

instance : Decidable t.NoRuns := inferInstanceAs (Decidable (∀ slot ∈ t.ooo, slot = none))

theorem NoRuns.free (h : t.NoRuns) : t.rxFree = t.rx.free := by
  have hnone : t.ooo.filterMap id = [] := List.filterMap_eq_nil_iff.mpr h
  rw [rxFree, TcpRing.free, rxUsed, hnone]
  rfl

/-- The right edge that a segment announces. -/
def edge (t : Tcb) : Seq := t.header.edge

theorem NoRuns.edge (h : t.NoRuns) : t.edge = t.rcvNxt + BitVec.ofNat 32 t.rx.free := by
  have hsmall : ring ≤ 2 ^ 16 - 1 := by decide
  have hfree := t.rx.free_le
  simp only [Tcb.edge, TcpHeader.edge, header, h.free]
  rw [min_eq_left (by omega)]

/-- The edge goes forward, by no more than `n`. -/
def Forward (n : Nat) (t t' : Tcb) : Prop := ∃ d ≤ n, t'.edge = t.edge + BitVec.ofNat 32 d

/-- Payload that there is room for is taken, or bytes are read, or a FIN is taken. -/
theorem NoRuns.forward (h : t.NoRuns) (h' : t'.NoRuns) {take : Nat} (read fin : Nat) (hbuf : t'.rx.buf = t.rx.buf)
    (htake : take ≤ t.rx.free) (hlen : t'.rx.len + read = t.rx.len + take) (hfin : fin ≤ 1)
    (hnext : t'.rcvNxt = t.rcvNxt + BitVec.ofNat 32 (take + fin)) : Forward (ring + 1) t t' := by
  have hfree := t'.rx.free_le
  -- what is taken leaves at least the rest of the room
  have hroom : t.rx.free ≤ take + t'.rx.free := by
    unfold TcpRing.free
    rw [hbuf]
    split <;> omega
  refine ⟨take + fin + t'.rx.free - t.rx.free, by omega, ?_⟩
  rw [h'.edge, h.edge, hnext, BitVec.add_assoc, ← BitVec.ofNat_add, BitVec.add_assoc, ← BitVec.ofNat_add]
  congr 2
  omega

theorem NoRuns.same (h : t.NoRuns) (h' : t'.NoRuns) (hrx : t'.rx = t.rx) (hnext : t'.rcvNxt = t.rcvNxt) :
    Forward (ring + 1) t t' :=
  h.forward h' 0 0 (by rw [hrx]) (Nat.zero_le _) (by rw [hrx]) (Nat.zero_le _) (by rw [hnext]; simp)

theorem NoRuns.coalesce (h : t.NoRuns) (ho : t1.ooo = t.ooo) : t1.coalesce = t1 := by
  have hfind (p : Option Run → Bool) (hp : p none = false) : t1.ooo.findIdx? p = none := by
    rw [ho, List.findIdx?_eq_none_iff]
    intro slot hs
    rw [h slot hs, hp]
  have honce : t1.coalesceOnce = none := by
    unfold coalesceOnce
    rw [hfind _ rfl, hfind _ rfl]
  unfold Tcb.coalesce coalesceLoop
  rw [honce]

theorem NoRuns.takeNext (h : t.NoRuns) (seg : TcpSegment) (start : Nat) :
    ∃ take ≤ t.rx.free, (t.takeNext seg start).1.recvSide = { t.recvSide with
      rcvNxt := t.rcvNxt + BitVec.ofNat 32 take, rx := { t.rx with len := t.rx.len + take } } := by
  unfold Tcb.takeNext
  dsimp only
  split
  · refine ⟨min (seg.payload.length - (t.rcvNxt - seg.seq).toNat) t.rx.free, Nat.min_le_right .., ?_⟩
    rw [h.coalesce]
    · rfl
    · rfl
  · exact ⟨0, Nat.zero_le _, by simp [recvSide]⟩

/-- A FIN after payload that was taken. -/
theorem NoRuns.segmentFin (h : t.NoRuns) {take : Nat} (htake : take ≤ t.rx.free) (he : t1.recvSide = { t.recvSide with
      rcvNxt := t.rcvNxt + BitVec.ofNat 32 take, rx := { t.rx with len := t.rx.len + take } })
    {seg : TcpSegment} {takenTo : Seq} {finAcked : Bool} {now : Nat}
    (h' : (t1.segmentFin seg takenTo finAcked now).NoRuns) :
    Forward (ring + 1) t (t1.segmentFin seg takenTo finAcked now) := by
  obtain ⟨hnext, hrx, -⟩ := RecvSide.mk.inj he
  revert h'
  unfold Tcb.segmentFin
  split
  · intro h'
    obtain ⟨hn, (hrx' : _ = t1.rx), -⟩ := RecvSide.mk.inj (t1.recvSide_takeFin finAcked now)
    refine h.forward h' 0 1 (by rw [hrx', hrx]) htake (by rw [hrx', hrx]; rfl) le_rfl ?_
    rw [hn, hnext, BitVec.add_assoc, BitVec.ofNat_add]
    rfl
  · exact fun h' => h.forward h' 0 0 (by rw [hrx]) htake (by rw [hrx]; rfl) (Nat.zero_le _) hnext

theorem NoRuns.segmentText (h : t.NoRuns) {seg : TcpSegment} {finAcked : Bool} {start now : Nat}
    (h' : (t.segmentText seg finAcked start now).1.NoRuns) :
    Forward (ring + 1) t (t.segmentText seg finAcked start now).1 := by
  revert h'
  unfold Tcb.segmentText
  split
  · split
    · have hrx : (t.takeAhead seg start).1.rx = t.rx := by rw [takeAhead_eq]
      have hnext : (t.takeAhead seg start).1.rcvNxt = t.rcvNxt := by rw [takeAhead_eq]
      exact fun h' => h.same h' hrx hnext
    · obtain ⟨take, htake, he⟩ := h.takeNext seg start
      exact h.segmentFin htake he
  · exact h.segmentFin (Nat.zero_le _) (by simp [recvSide] : t.recvSide = { t.recvSide with
      rcvNxt := t.rcvNxt + BitVec.ofNat 32 0, rx := { t.rx with len := t.rx.len + 0 } })

theorem NoRuns.keeps (h : t.NoRuns) (h' : t'.NoRuns) (hk : t.Keeps t') : Forward (ring + 1) t t' := by
  obtain ⟨hnext, hrx, -⟩ := RecvSide.mk.inj hk.side
  exact h.same h' hrx hnext

theorem NoRuns.segment (h : t.NoRuns) {seg : TcpSegment} {start now : Nat} (hs : t.state ≠ .synSent)
    (h' : (t.segment seg start now).1.NoRuns) : Forward (ring + 1) t (t.segment seg start now).1 := by
  have hc := t.segment_cases seg start now
  generalize t.segment seg start now = r at hc h' ⊢
  cases hc with
  | keeps t' out hk => exact h.keeps h' hk
  | syn t' hsent => exact absurd hsent hs
  | text t' finAcked _ _ _ hk =>
    obtain ⟨hnext, hrx, hooo, -⟩ := RecvSide.mk.inj hk.side
    have hp : t'.NoRuns := fun slot hm => h slot (hooo ▸ hm)
    have he : t'.edge = t.edge := by
      rw [hp.edge, h.edge, hnext, hrx]
    obtain ⟨d, hd, hf⟩ := hp.segmentText h'
    exact ⟨d, hd, he ▸ hf⟩

theorem nextSegment_edge {now : Nat} {out : OutSegment} (hs : t.state ≠ .synSent)
    (h : (t.nextSegment now).2 = some out) : out.header.edge = t.edge := by
  have he := t.nextSegment_emits now
  generalize t.nextSegment now = r at he h
  cases he with
  | quiet => cases h
  | syn =>
    cases h
    simp only [if_neg hs, TcpHeader.edge, edge, header]
  | _ =>
    cases h
    rfl

/-- What lies before an edge that moved no more than half the space lies in the window. -/
theorem NoRuns.acceptable (h : t.NoRuns) {old : Seq} {d : Nat} (hd : d < 2 ^ 31)
    (he : t.edge = old + BitVec.ofNat 32 d) (hold : (old - t.rcvNxt).toNat ≤ ring) {seq : Seq} {len : Nat}
    (hlt : (seq + BitVec.ofNat 32 (len - 1) - t.rcvNxt).toNat < (old - t.rcvNxt).toNat) :
    acceptable t.rcvNxt t.rxFree seq len = true := by
  have hring : ring < 2 ^ 16 := by decide
  have hle : (old - t.rcvNxt).toNat ≤ t.rxFree := by
    rw [h.edge, ← h.free] at he
    have hsum : BitVec.ofNat 32 t.rxFree = (old - t.rcvNxt) + BitVec.ofNat 32 d := by
      bv_omega
    have := congrArg BitVec.toNat hsum
    rw [BitVec.toNat_add, BitVec.toNat_ofNat, BitVec.toNat_ofNat] at this
    omega
  unfold Kintane.acceptable
  rw [if_neg (by omega)]
  split
  · rename_i hz
    rw [hz] at hlt
    simpa using hlt.trans_le hle
  · exact (Bool.or_eq_true _ _).mpr (.inr (decide_eq_true (hlt.trans_le hle)))

end Tcb

namespace Line

/-- Nothing is held out of order in any state of a run. -/
def InOrder : Line → List LineOp → Prop
  | l, [] => l.tcb.NoRuns
  | l, op :: ops => l.tcb.NoRuns ∧ InOrder (l.step op) ops

variable {l : Line} {ops : List LineOp}

theorem InOrder.noRuns (h : InOrder l ops) : l.tcb.NoRuns := by
  cases ops with
  | nil => exact h
  | cons op ops => exact h.1

theorem step_keeps_or (op : LineOp) : l.tcb.Keeps (l.step op).tcb ∨
    (∃ seg start now, (l.step op).tcb = (l.tcb.segment seg start now).1) ∨
    ∃ n ≤ l.tcb.rx.len, (l.step op).tcb.state = l.tcb.state ∧ (l.step op).tcb.recvSide = { l.tcb.recvSide with
      rx := { l.tcb.rx with head := (l.tcb.rx.head + n) % ring, len := l.tcb.rx.len - n } } := by
  cases op with
  | segment header seg now => exact .inr (.inl ⟨seg, header.length, now, segment_tcb ..⟩)
  | recv size =>
    simp only [step]
    rcases Nat.eq_zero_or_pos (min size l.tcb.rx.len) with hn | hn
    · rw [recv_of_empty hn]
      exact .inl (.refl _)
    · obtain ⟨t', hr, hside, hst⟩ := recv_of_pos l.rx l.tcb size hn
      rw [recv_tcb, hr]
      exact .inr (.inr ⟨_, Nat.min_le_right .., hst, hside⟩)
  | send data => exact .inl (l.send_tcb data ▸ l.tcb.keeps_send l.tx data)
  | shutdown => exact .inl l.tcb.shuts_shutdown.keeps
  | close => exact .inl l.tcb.shuts_closeOwn.keeps
  | abort => exact .inl l.tcb.shuts_abort.keeps
  | timers now => exact .inl (l.tcb.keeps_timers now)
  | nextSegment now => exact .inl (l.tcb.keeps_nextSegment now)

/-- With nothing held before a step nor after it, the edge goes forward. -/
theorem step_forward (h : l.tcb.NoRuns) (op : LineOp) (h' : (l.step op).tcb.NoRuns)
    (hs : l.tcb.state ≠ .synSent) : (l.step op).tcb.state ≠ .synSent ∧ l.tcb.Forward (ring + 1) (l.step op).tcb := by
  rcases l.step_keeps_or op with hk | ⟨seg, start, now, he⟩ | ⟨n, hn, hst, hside⟩
  · exact ⟨hk.later.opened hs, h.keeps h' hk⟩
  · rw [he] at h' ⊢
    exact ⟨l.tcb.segment_opened seg start now hs, h.segment hs h'⟩
  · obtain ⟨hnext, hrx, -⟩ := RecvSide.mk.inj hside
    refine ⟨hst ▸ hs, h.forward h' n 0 (by rw [hrx]) (Nat.zero_le _) ?_ (Nat.zero_le _)
      (by simp [hnext, Tcb.recvSide])⟩
    rw [hrx]
    exact Nat.sub_add_cancel hn

/-- Over a run the edge goes forward, by no more than a ring and a FIN for each step. -/
theorem InOrder.forward {l : Line} (h : InOrder l ops) (hs : l.tcb.state ≠ .synSent) :
    (ops.foldl step l).tcb.NoRuns ∧ (ops.foldl step l).tcb.state ≠ .synSent ∧
      l.tcb.Forward (ops.length * (ring + 1)) (ops.foldl step l).tcb := by
  induction ops generalizing l with
  | nil => exact ⟨h, hs, 0, Nat.zero_le _, by simp⟩
  | cons op ops ih =>
    obtain ⟨hs', d, hd, he⟩ := step_forward h.1 op h.2.noRuns hs
    obtain ⟨hp, hs2, d', hd', he'⟩ := ih h.2 hs'
    refine ⟨hp, hs2, d + d', ?_, ?_⟩
    · rw [List.length_cons, Nat.add_one_mul, Nat.add_comm]
      exact Nat.add_le_add hd' hd
    · rw [List.foldl_cons, he', he, BitVec.add_assoc, BitVec.ofNat_add]

/--
**The window does not shrink while nothing is held out of order.**

Between two segments of a connection that has its peer's sequence number, whatever came before the
first of them, the right edge goes forward, and while it goes no more than half the space, what
ends before the earlier edge and not before `rcv_nxt` is accepted.
-/
theorem window_never_shrinks {l l' : Line} {between : List LineOp} {now : Nat} (now' : Nat) {out out' : OutSegment}
    (hrun : (.nextSegment now :: between).foldl step l = l') (hin : InOrder l (.nextSegment now :: between))
    (hs : l.tcb.state ≠ .synSent) (hout : (l.tcb.nextSegment now).2 = some out)
    (hout' : (l'.tcb.nextSegment now').2 = some out') :
    ∃ d ≤ (between.length + 1) * (ring + 1), out'.header.edge = out.header.edge + BitVec.ofNat 32 d ∧
      (d < 2 ^ 31 → ∀ seq len, (out.header.edge - l'.tcb.rcvNxt).toNat ≤ ring →
        (seq + BitVec.ofNat 32 (len - 1) - l'.tcb.rcvNxt).toNat < (out.header.edge - l'.tcb.rcvNxt).toNat →
        acceptable l'.tcb.rcvNxt l'.tcb.rxFree seq len = true) := by
  obtain ⟨hruns, hs', d, hd, he⟩ := hin.forward hs
  rw [hrun] at hruns hs' he
  rw [← Tcb.nextSegment_edge hs hout] at he
  exact ⟨d, hd, (Tcb.nextSegment_edge hs' hout').trans he, fun hlt _ _ hold => hruns.acceptable hlt he hold⟩

theorem fresh_threeBytesLine : Fresh threeBytesLine :=
  .openPassive _ _ _ _ _ _ List.length_replicate List.length_replicate

/-- Two bytes arrive in order, and one is read. -/
theorem window_never_shrinks_inOrder :
    let ops : List LineOp := [.nextSegment 0, .segment [] (threeBytes 0 [1, 2] false (by decide)) 1, .recv 1]
    ∃ out out' : OutSegment, (threeBytesLine.tcb.nextSegment 0).2 = some out ∧
      ((ops.foldl step threeBytesLine).tcb.nextSegment 2).2 = some out' ∧
      ∃ d ≤ 3 * (ring + 1), out'.header.edge = out.header.edge + BitVec.ofNat 32 d := by
  intro ops
  have hops : InOrder threeBytesLine ops :=
    ⟨by decide +kernel, by decide +kernel, by decide +kernel, (by decide +kernel : Tcb.NoRuns _)⟩
  have hout := (Option.some_get (by decide +kernel : (threeBytesLine.tcb.nextSegment 0).2.isSome = true)).symm
  have hout' := (Option.some_get (by decide +kernel :
    ((ops.foldl step threeBytesLine).tcb.nextSegment 2).2.isSome = true)).symm
  obtain ⟨d, hd, he, -⟩ := window_never_shrinks 2 rfl hops (by decide) hout hout'
  exact ⟨_, _, hout, hout', d, hd, he⟩

/-- The third byte arrives first. -/
theorem window_shrinks_out_of_order : ¬∀ l, Fresh l → ∀ now between now' out out', l.tcb.state ≠ .synSent →
    (l.tcb.nextSegment now).2 = some out →
    (((.nextSegment now :: between).foldl step l).tcb.nextSegment now').2 = some out' →
    Seq.le out.header.edge out'.header.edge = true := by
  intro h
  have := h threeBytesLine fresh_threeBytesLine 0 [.segment [] (threeBytes 2 [3] false (by decide)) 1] 2 _ _
    (by decide) (Option.some_get (by decide +kernel)).symm (Option.some_get (by decide +kernel)).symm
  revert this
  decide +kernel

end Line

end Kintane
