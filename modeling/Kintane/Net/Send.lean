import Kintane.Net.Frame

/-!
# Where a connection is in its own stream

The numbers of the sending side stand for positions that only grow: the SYN has position 0, byte
`k` of the stream position `k + 1`, and the FIN the position after the last byte. `Sends` relates
the sequence numbers of a connection to these positions, and each method is followed on them.

Two things a peer can say are kept out by `Tcb.Genuine`: that it acknowledges a SYN which was not
sent, and a selective acknowledgement that ends more than half of sequence space after what was
sent, which the comparison with `snd_max` takes for one that ends before it.
-/

namespace Kintane

open Kintane.Seq

/-- What the sending side is made of. -/
structure SendSide where
  iss : Seq
  sndUna : Seq
  sndNxt : Seq
  sndMax : Seq
  tx : TcpRing
  txSeq : Seq
  finQueued : Bool
  finSeq : Option Seq
  sacked : List (Option (Seq × Seq))

namespace Tcb

def sendSide (t : Tcb) : SendSide :=
  ⟨t.iss, t.sndUna, t.sndNxt, t.sndMax, t.tx, t.txSeq, t.finQueued, t.finSeq, t.sacked⟩

theorem sendSide_of_sansRecv {t t' : Tcb} (h : t'.sansRecv = t.sansRecv) : t'.sendSide = t.sendSide := by
  have hs := congrArg sendSide h
  exact hs

/-- The handshake is not over. -/
def Opening (t : Tcb) : Prop := t.state = .synSent ∨ t.state = .synReceived

/-- A segment of a peer that acknowledges what was sent. -/
structure Genuine (t : Tcb) (seg : TcpSegment) : Prop where
  syn : t.state = .synSent → seg.hasSyn = true → seg.hasAck = true → seg.ack = t.iss + 1 →
    t.sndMax ≠ t.iss
  sack : ∀ b, some b ∈ seg.sack.take Net.sackBlocks → lt b.1 b.2 = true →
    le t.sndUna b.1 = true → le b.2 t.sndMax = true →
    (b.2 - t.sndUna).toNat ≤ (t.sndMax - t.sndUna).toNat

end Tcb

/-- The positions of a connection: acknowledged up to `una`, the next to send, the highest sent,
and how many bytes of the stream have left the send ring. -/
structure Positions (s : SendSide) (una nxt top base : Nat) : Prop where
  sndUna : s.sndUna = pos s.iss una
  sndNxt : s.sndNxt = pos s.iss nxt
  sndMax : s.sndMax = pos s.iss top
  txSeq : s.txSeq = pos s.iss (1 + base : Nat)
  una_le : una ≤ nxt
  nxt_le : nxt ≤ top
  len : s.tx.len ≤ Net.ring
  base_le : base ≤ una - 1
  top_le : top ≤ 1 + (base + s.tx.len) + s.finSeq.isSome.toNat
  fin : ∀ f, s.finSeq = some f →
    f = pos s.iss (1 + (base + s.tx.len) : Nat) ∧ s.finQueued = true ∧
      top = 2 + (base + s.tx.len)
  sacked : ∀ b, some b ∈ s.sacked → ∃ stop : Nat, b.2 = pos s.iss stop ∧ una ≤ stop ∧ stop ≤ top

/-- The positions fit the state. -/
structure Sends (t : Tcb) (una nxt top base : Nat) : Prop where
  pos : Positions t.sendSide una nxt top base
  early : t.Opening → una = 0 ∧ top ≤ 1 ∧ t.tx.len = 0 ∧ t.finSeq = none
  late : t.state.synchronized = true → 1 ≤ una
  closing : t.state = .finWait2 → una = 2 + (base + t.tx.len)

variable {a una nxt top base : Nat} {ack : Seq}

namespace Positions

variable {s : SendSide} (h : Positions s una nxt top base)

include h

/-- All of it lies within little more than a ring. -/
theorem top_near : top ≤ una + 1516 := by
  have h1 := h.base_le
  have h2 := h.top_le
  have h3 := Bool.toNat_le s.finSeq.isSome
  have h4 : s.tx.len ≤ 1514 := h.len
  omega

theorem una_near : una ≤ base + 1516 := by
  have h1 := h.una_le
  have h2 := h.nxt_le
  have h3 := h.top_le
  have h4 := Bool.toNat_le s.finSeq.isSome
  have h5 : s.tx.len ≤ 1514 := h.len
  omega

/-- The next byte to send may be any that was sent and not acknowledged. -/
theorem setNxt {x : Nat} (h1 : una ≤ x) (h2 : x ≤ top) {seq : Seq} (hs : seq = pos s.iss x) :
    Positions { s with sndNxt := seq } una x top base :=
  { h with sndNxt := hs, una_le := h1, nxt_le := h2 }

/-- The blocks may be any that end with what was sent. -/
theorem setSacked {blocks : List (Option (Seq × Seq))}
    (hb : ∀ b, some b ∈ blocks → ∃ stop : Nat, b.2 = pos s.iss stop ∧ una ≤ stop ∧ stop ≤ top) :
    Positions { s with sacked := blocks } una nxt top base :=
  { h with sacked := hb }

theorem clearSacked (n : Nat) : Positions { s with sacked := List.replicate n none } una nxt top base :=
  h.setSacked fun _ hb => nomatch List.eq_of_mem_replicate hb

omit h in
/-- Steps over blocks that end with what was sent. -/
theorem firstHoleLoop_pos {iss : Seq} {blocks : List (Seq × Seq)} (hnear : top ≤ una + 1516)
    (hb : ∀ b ∈ blocks, ∃ stop : Nat, b.2 = pos iss stop ∧ una ≤ stop ∧ stop ≤ top) (n : Nat)
    (h1 : una ≤ a) (h2 : a ≤ top) :
    ∃ x : Nat, Tcb.firstHoleLoop blocks n (pos iss a) = pos iss x ∧ a ≤ x ∧ x ≤ top := by
  induction n generalizing a with
  | zero => exact ⟨a, rfl, le_rfl, h2⟩
  | succ n ih =>
    unfold Tcb.firstHoleLoop
    split
    · rename_i b hf
      have hp := List.find?_some hf
      obtain ⟨stop, he, hs1, hs2⟩ := hb b (List.mem_of_find?_eq_some hf)
      rw [Bool.and_eq_true, he, lt_pos iss (by omega) (by omega), decide_eq_true_iff] at hp
      obtain ⟨x, hx, hx1, hx2⟩ := ih hs1 hs2
      exact ⟨x, he ▸ hx, by omega, hx2⟩
    · exact ⟨a, rfl, le_rfl, h2⟩

/-- The first hole from a position that was sent is one, too. -/
theorem firstHole {t : Tcb} (ht : t.sendSide = s) (h1 : una ≤ a) (h2 : a ≤ top) :
    ∃ x : Nat, t.firstHole (pos s.iss a) = pos s.iss x ∧ a ≤ x ∧ x ≤ top := by
  refine firstHoleLoop_pos h.top_near (fun b hb => ?_) _ h1 h2
  obtain ⟨slot, hslot, he⟩ := List.mem_filterMap.mp hb
  refine h.sacked b ?_
  rw [← ht, ← (he : slot = some b)]
  exact hslot

/-! ## Acknowledgements -/

/-- An acknowledgement of something sent and not acknowledged before. -/
theorem ack_pos (h1 : lt s.sndUna ack = true) (h2 : lt s.sndMax ack = false) :
    ∃ a : Nat, ack = pos s.iss a ∧ una < a ∧ a ≤ top := by
  rw [lt, Bool.and_eq_true, bne_iff_ne, decide_eq_true_iff] at h1
  have ha : ack = pos s.iss (una + (ack - s.sndUna).toNat : Nat) := by
    rw [Int.natCast_add, ← pos_add_ofNat, ← h.sndUna, BitVec.ofNat_toNat, BitVec.setWidth_eq]
    bv_omega
  have hpos : 0 < (ack - s.sndUna).toNat := by
    rw [pos_iff_ne_zero]
    intro hz
    apply h1.1
    bv_omega
  generalize (ack - s.sndUna).toNat = d at *
  refine ⟨una + d, ha, by omega, ?_⟩
  rw [ha, h.sndMax] at h2
  by_contra hlt
  have hu := h.una_le
  have ht := h.nxt_le
  rw [lt_pos _ (by omega) (by omega), decide_eq_false_iff_not] at h2
  omega

end Positions

namespace SendSide

variable (s : SendSide) (ack : Seq)

/-- How many bytes an acknowledgement takes out of the ring. -/
def ackedBytes : Nat :=
  min (if s.sndUna = s.iss then (ack - s.sndUna).toNat - 1 else (ack - s.sndUna).toNat) s.tx.len

/-- The sending side after an acknowledgement, before loss recovery. -/
def acked : SendSide :=
  { s with
    tx := { s.tx with
      head := (s.tx.head + s.ackedBytes ack) % Net.ring, len := s.tx.len - s.ackedBytes ack }
    txSeq := s.txSeq + BitVec.ofNat 32 (s.ackedBytes ack)
    sndUna := ack
    sndNxt := if lt s.sndNxt ack then ack else s.sndNxt
    sacked := s.sacked.map fun block => block.filter fun b => !le b.2 ack }

end SendSide

/-- What an acknowledgement takes out of the ring: bytes from its front, which it covers. -/
structure SendSide.Drops (s s' : SendSide) (base base' : Nat) (ack : Seq) : Prop where
  iss : s'.iss = s.iss
  buf : s'.tx.buf = s.tx.buf
  fin : s'.finQueued = s.finQueued ∧ s'.finSeq = s.finSeq
  le : base ≤ base'
  sum : base' + s'.tx.len = base + s.tx.len
  head : ∀ i, (s'.tx.head + i) % Net.ring = (s.tx.head + (base' - base) + i) % Net.ring
  covered : ∀ k : Nat, base ≤ k → k < base' → lt (pos s.iss (1 + k : Nat)) ack = true

theorem SendSide.Drops.none {s s' : SendSide} (hi : s'.iss = s.iss) (ht : s'.tx = s.tx)
    (hf : s'.finQueued = s.finQueued ∧ s'.finSeq = s.finSeq) (base : Nat) (ack : Seq) :
    s.Drops s' base base ack where
  iss := hi
  buf := by rw [ht]
  fin := hf
  le := le_rfl
  sum := by rw [ht]
  head i := by rw [ht, Nat.sub_self, Nat.add_zero]
  covered k h1 h2 := absurd h2 (Nat.not_lt.mpr h1)

theorem Tcb.sendSide_acked (t : Tcb) (ack : Seq) (now : Nat) :
    (((t.ackData ack).ackTiming ack now).forgetSacked ack).sendSide = t.sendSide.acked ack := by
  have htiming (t : Tcb) : (t.ackTiming ack now).sendSide = t.sendSide := by
    unfold Tcb.ackTiming
    split
    · rfl
    · split <;> rfl
  have h := htiming (t.ackData ack)
  obtain ⟨e1, e2, e3, e4, e5, e6, e7, e8, e9⟩ := SendSide.mk.inj h
  simp only [Tcb.forgetSacked, Tcb.sendSide, e1, e2, e3, e4, e5, e6, e7, e8, e9]
  rfl

namespace Positions

variable {s : SendSide} (h : Positions s una nxt top base)

include h

variable (ha : una < a)

include ha

theorem toNat_ack (ha' : a ≤ top) : (pos s.iss a - s.sndUna).toNat = a - una := by
  have := h.top_near
  rw [h.sndUna, toNat_pos_sub _ (by omega) (by omega)]
  omega

/-- The bytes that leave the ring are acknowledged. -/
theorem ackedBytes_le (ha' : a ≤ top) : base + s.ackedBytes (pos s.iss a) ≤ a - 1 := by
  have hb := h.base_le
  rw [SendSide.ackedBytes, h.toNat_ack ha ha']
  split
  · omega
  rename_i hne
  have hu : una ≠ 0 := by
    rintro rfl
    exact hne (h.sndUna.trans (pos_zero _))
  omega

theorem acked (ha' : a ≤ top) : Positions (s.acked (pos s.iss a)) a (max nxt a) top
      (base + s.ackedBytes (pos s.iss a)) := by
  have hnear := h.top_near
  have hun := h.una_le
  have hnt := h.nxt_le
  have hle := h.ackedBytes_le ha ha'
  have hlen : s.ackedBytes (pos s.iss a) ≤ s.tx.len := min_le_right ..
  have hsum : base + s.ackedBytes (pos s.iss a) + (s.acked (pos s.iss a)).tx.len =
      base + s.tx.len := by
    simp only [SendSide.acked]
    omega
  refine ⟨rfl, ?_, h.sndMax, ?_, by omega, by omega, ?_, hle, ?_, ?_, ?_⟩
  · simp only [SendSide.acked, h.sndNxt]
    rw [lt_pos _ (by omega) (by omega)]
    split
    · rename_i hlt
      rw [max_eq_right]
      have := of_decide_eq_true hlt
      omega
    · rename_i hlt
      rw [decide_eq_true_iff] at hlt
      rw [max_eq_left]
      omega
  · simp only [SendSide.acked, h.txSeq]
    rw [pos_add_ofNat]
    congr 1
    omega
  · have := h.len
    omega
  · rw [hsum]
    exact h.top_le
  · rw [hsum]
    exact h.fin
  · intro b hb
    obtain ⟨block, hblock, he⟩ := List.mem_map.mp hb
    obtain ⟨rfl, hkeep⟩ := Option.filter_eq_some_iff.mp he
    obtain ⟨stop, hstop, h1, h2⟩ := h.sacked b hblock
    refine ⟨stop, hstop, ?_, h2⟩
    rw [hstop, le_pos _ (by omega) (by omega)] at hkeep
    simp only [Bool.not_eq_true', decide_eq_false_iff_not] at hkeep
    omega

theorem drops_acked (ha' : a ≤ top) : s.Drops (s.acked (pos s.iss a)) base (base + s.ackedBytes (pos s.iss a))
      (pos s.iss a) := by
  have hle := h.ackedBytes_le ha ha'
  have hlen : s.ackedBytes (pos s.iss a) ≤ s.tx.len := min_le_right ..
  have hnear := h.top_near
  have hnear' := h.una_near
  refine ⟨rfl, rfl, ⟨rfl, rfl⟩, Nat.le_add_right .., ?_, fun i => ?_, fun k h1 h2 => ?_⟩
  · simp only [SendSide.acked]
    omega
  · simp only [SendSide.acked, Nat.mod_add_mod, Nat.add_sub_cancel_left]
  · rw [lt_pos _ (by omega) (by omega), decide_eq_true_iff]
    omega

end Positions

theorem SendSide.Drops.trans_none {s s' s'' : SendSide} {base base' : Nat}
    (h : s.Drops s' base base' ack) (h' : s'.Drops s'' base' base' ack) :
    s.Drops s'' base base' ack where
  iss := h'.iss.trans h.iss
  buf := h'.buf.trans h.buf
  fin := ⟨h'.fin.1.trans h.fin.1, h'.fin.2.trans h.fin.2⟩
  le := h.le
  sum := h'.sum.trans h.sum
  head i := by rw [h'.head, Nat.sub_self, Nat.add_zero, h.head]
  covered := h.covered

namespace Positions

variable {t : Tcb} (h : Positions t.sendSide una nxt top base) {seg : TcpSegment}

include h

theorem ackRecovery (ack : Seq) (acked : Nat) (ha : ack = pos t.iss una) :
    ∃ nxt', Positions (t.ackRecovery ack acked).sendSide una nxt' top base := by
  unfold Tcb.ackRecovery
  split
  · split
    · exact ⟨nxt, h.clearSacked _⟩
    have hle := h.una_le.trans h.nxt_le
    obtain ⟨x, hx, hx1, hx2⟩ := h.firstHole rfl le_rfl hle
    refine ⟨x, h.setNxt hx1 hx2 ?_⟩
    rw [ha]
    exact hx
  · exact ⟨nxt, h⟩

omit h in
theorem drops_ackRecovery (t : Tcb) (ack : Seq) (acked base : Nat) :
    t.sendSide.Drops (t.ackRecovery ack acked).sendSide base base ack := by
  unfold Tcb.ackRecovery
  split
  · split <;> exact .none (by rfl) (by rfl) ⟨by rfl, by rfl⟩ _ _
  · exact .none (by rfl) (by rfl) ⟨by rfl, by rfl⟩ _ _

theorem acknowledge (ha : una < a) (ha' : a ≤ top) (now : Nat) :
    ∃ nxt' base', Positions (t.acknowledge (pos t.iss a) now).sendSide a nxt' top base' ∧
      t.sendSide.Drops (t.acknowledge (pos t.iss a) now).sendSide base base'
        (pos t.iss a) := by
  have hacked := h.acked ha ha'
  have hdrop := h.drops_acked ha ha'
  have hside := t.sendSide_acked (pos t.iss a) now
  have hiss : (((t.ackData (pos t.iss a)).ackTiming (pos t.iss a) now).forgetSacked
      (pos t.iss a)).iss = t.iss := congrArg SendSide.iss hside
  rw [show t.sendSide.iss = t.iss from rfl, ← hside] at hacked hdrop
  obtain ⟨nxt', h'⟩ := hacked.ackRecovery _ (pos t.iss a - t.sndUna).toNat (by rw [hiss])
  exact ⟨nxt', _, h', hdrop.trans_none (drops_ackRecovery _ _ _ _)⟩

/-- A duplicate acknowledgement of a genuine peer. -/
theorem duplicateAck (hg : t.Genuine seg) : ∃ nxt', Positions (t.duplicateAck seg).sendSide una nxt' top base := by
  have hrec : Positions ({ t with dupAcks := (t.dupAcks + 1) % 2 ^ 32 }.recordSack seg.sack).sendSide
      una nxt top base := by
    refine h.setSacked fun b hb => ?_
    obtain ⟨block, hblock, he⟩ := List.mem_map.mp hb
    obtain ⟨rfl, hkeep⟩ := Option.filter_eq_some_iff.mp he
    simp only [Bool.and_eq_true] at hkeep
    have hle := hg.sack b hblock hkeep.1.1 hkeep.1.2 hkeep.2
    have hun := h.una_le
    have hnt := h.nxt_le
    have hnear := h.top_near
    have hmax : (t.sndMax - t.sndUna).toNat = top - una := by
      rw [show t.sndMax = _ from h.sndMax, show t.sndUna = _ from h.sndUna,
        toNat_pos_sub _ (by omega) (by omega)]
      omega
    refine ⟨una + (b.2 - t.sndUna).toNat, ?_, by omega, by omega⟩
    rw [Int.natCast_add, ← pos_add_ofNat, ← h.sndUna, BitVec.ofNat_toNat, BitVec.setWidth_eq]
    change b.2 = t.sndUna + (b.2 - t.sndUna)
    bv_omega
  -- Recovery starts at the first hole.
  have hbegin {t' : Tcb} (h' : Positions t'.sendSide una nxt top base) :
      ∃ nxt', Positions t'.beginRecovery.sendSide una nxt' top base := by
    obtain ⟨x, hx, hx1, hx2⟩ := h'.firstHole rfl le_rfl (h.una_le.trans h.nxt_le)
    refine ⟨x, h'.setNxt hx1 hx2 ?_⟩
    change t'.firstHole t'.sndUna = _
    rw [show t'.sndUna = _ from h'.sndUna]
    exact hx
  have hrest {t' : Tcb} (h' : Positions t'.sendSide una nxt top base) :
      ∃ nxt', Positions (if t'.recovering then { t' with cwnd := satAdd Net.u32Limit t'.cwnd t'.seg }
        else if t'.dupAcks = Net.dupAckThreshold then t'.beginRecovery else t').sendSide
        una nxt' top base := by
    split
    · exact ⟨nxt, h'⟩
    · split
      · exact hbegin h'
      · exact ⟨nxt, h'⟩
  unfold Tcb.duplicateAck
  dsimp only
  split
  · exact hrest hrec
  · have h' : Positions { t with dupAcks := (t.dupAcks + 1) % 2 ^ 32 }.sendSide una nxt top base := h
    exact hrest h'

omit h in
theorem drops_duplicateAck (t : Tcb) (seg : TcpSegment) (base : Nat) :
    t.sendSide.Drops (t.duplicateAck seg).sendSide base base seg.ack := by
  unfold Tcb.duplicateAck
  dsimp only
  split <;> split <;> first
    | exact .none (by rfl) (by rfl) ⟨by rfl, by rfl⟩ _ _
    | (split <;> exact .none (by rfl) (by rfl) ⟨by rfl, by rfl⟩ _ _)

theorem takeAck (hg : t.Genuine seg) (hmax : lt t.sndMax seg.ack = false) (now : Nat) :
    ∃ una' nxt' base', una ≤ una' ∧ Positions (t.takeAck seg now).sendSide una' nxt' top base' ∧
      t.sendSide.Drops (t.takeAck seg now).sendSide base base' seg.ack := by
  have hwnd (t : Tcb) : (if le t.sndUna seg.ack then { t with sndWnd := seg.window }
      else t).sendSide = t.sendSide := by
    split <;> rfl
  unfold Tcb.takeAck
  rw [hwnd]
  split
  · rename_i hlt
    obtain ⟨a, hack, ha, ha'⟩ := h.ack_pos hlt hmax
    obtain ⟨nxt', base', h', hd⟩ := h.acknowledge ha ha' now
    rw [hack]
    exact ⟨a, nxt', base', ha.le, h', hd⟩
  · split
    · obtain ⟨nxt', h'⟩ := h.duplicateAck hg
      exact ⟨una, nxt', base, le_rfl, h', drops_duplicateAck t seg base⟩
    · exact ⟨una, nxt, base, le_rfl, h, .none (by rfl) (by rfl) ⟨by rfl, by rfl⟩ _ _⟩

end Positions

end Kintane
