import Kintane.Net.Receive
import Kintane.Net.Rings
import Kintane.Net.Runs

/-!
# The bytes a program reads are the bytes its peer sent

The peer's stream is a list of bytes, counted from the sequence number after its initial one.
The ring holds the part of it that has arrived and was not read yet, and each run a part further
on, at the place where the stream will read it from. A segment may start anywhere in sequence
space; it stands for the position nearest to the end of what has arrived.
-/

open List

namespace Kintane

open Kintane.Seq Tcb

/-- The stream's bytes from `a` to `b`, at or after `lo`, are in the ring. -/
structure Stored (stream ring : List UInt8) (head done lo a b : Nat) : Prop where
  low : lo ≤ a
  lt : a < b
  room : b ≤ done + Net.ring
  sent : b ≤ stream.length
  bytes : Ring.Holds ring head done stream a b

variable {lo n done : Nat} {t' : Tcb} {stream ring : List UInt8} {irs : Seq}

theorem joining_stored (stream ring : List UInt8) (head : Nat) (h : done ≤ lo) :
    Joining lo (Stored stream ring head done lo) where
  lt := Stored.lt
  low := Stored.low
  high h' := by
    have := h'.room
    have : Net.ring < 2 ^ 31 := by decide
    omega
  join {a b c d} hab hcd had hcb := by
    refine ⟨Nat.le_min.mpr ⟨hab.low, hcd.low⟩, ?_, Nat.max_le.mpr ⟨hab.room, hcd.room⟩,
      Nat.max_le.mpr ⟨hab.sent, hcd.sent⟩, ?_⟩
    · have := hab.lt
      omega
    · intro x h1 h2
      by_cases hx : a ≤ x ∧ x < b
      · exact hab.bytes x hx.1 hx.2
      · exact hcd.bytes x (by omega) (by omega)

theorem Stored.mono {head lo' a b : Nat}
    (h : Stored stream ring head done lo a b) (hlo : lo' ≤ a) :
    Stored stream ring head done lo' a b :=
  { h with low := hlo }

/-- A connection that has returned `done` bytes of the stream. -/
structure Receives (stream : List UInt8) (irs : Seq) (done : Nat) (ring : List UInt8) (t : Tcb) :
    Prop where
  size : ring.length = Net.ring
  buf : t.rx.buf.isSome
  len : t.rx.len ≤ Net.ring
  sent : done + t.rx.len ≤ stream.length
  next : t.rcvNxt = pos (irs + 1) (done + t.rx.len + t.peerFin.toNat : Nat)
  bytes : Ring.Holds ring t.rx.head done stream done (done + t.rx.len)
  runs : AllRuns (irs + 1) (Stored stream ring t.rx.head done (done + t.rx.len + 1)) t.ooo
  fin : t.peerFin = true → done + t.rx.len = stream.length

/-- What `Receives` says of a connection depends on its receiving side. -/
theorem Receives.congr
    {t : Tcb} (h : Receives stream irs done ring t) (he : t'.recvSide = t.recvSide) :
    Receives stream irs done ring t' := by
  cases t
  cases t'
  obtain ⟨rfl, rfl, rfl, rfl⟩ := RecvSide.mk.inj he
  exact { h with }

/-- A segment agrees with the stream, when `r` bytes of it have arrived: it starts at the position
`k` nearest to there, its bytes are the stream's, and its FIN is at the stream's end. -/
structure SegmentAgrees (stream : List UInt8) (irs : Seq) (r : Nat) (seg : TcpSegment) (k : Int) :
    Prop where
  seq : seg.seq = pos (irs + 1) k
  near : -(2 ^ 31) ≤ k - r ∧ k - r < 2 ^ 31
  bytes : ∀ i < seg.payload.length, 0 ≤ k + i → seg.payload[i]? = stream[(k + i).toNat]?
  fin : seg.hasFin = true → k + seg.payload.length = stream.length

theorem Tcb.rxFree_le (t : Tcb) : t.rxFree ≤ Net.ring := by
  unfold rxFree
  split
  · exact Nat.zero_le _
  · exact Nat.sub_le ..

/-- Payload from `skip` on, when that is at the position `x`. -/
theorem SegmentAgrees.payload {r : Nat} {seg : TcpSegment}
    {k : Int} (h : SegmentAgrees stream irs r seg k) {skip x : Nat} (hx : k + skip = x)
    (hn : 0 < n) (hlen : skip + n ≤ seg.payload.length) :
    x + n ≤ stream.length ∧ ∀ i < n, ((seg.payload.drop skip).take n)[i]? = stream[x + i]? := by
  have hbyte (i : Nat) (hi : i < n) : seg.payload[skip + i]? = stream[x + i]? := by
    rw [h.bytes (skip + i) (by omega) (by omega)]
    congr 1
    omega
  constructor
  · have := hbyte (n - 1) (by omega)
    rw [getElem?_eq_getElem (by omega)] at this
    have := (List.getElem?_eq_some_iff.mp this.symm).1
    omega
  · intro i hi
    rw [getElem?_take_of_lt hi, getElem?_drop]
    exact hbyte i hi

theorem Tcb.recvSide_takeFin (t : Tcb) (finAcked : Bool) (now : Nat) :
    (t.takeFin finAcked now).recvSide = { t.recvSide with rcvNxt := t.rcvNxt + 1, peerFin := true } := by
  unfold takeFin
  cases t.state <;> cases finAcked <;> rfl

namespace Receives

variable {stream : List UInt8} {irs : Seq} {done : Nat} {ring : List UInt8} {t : Tcb}
  {seg : TcpSegment} {k : Int}

variable (h : Receives stream irs done ring t)

include h

/-- The stream's own bytes are copied into the ring at their place. -/
theorem written {data : List UInt8} {p : Nat} (hp : done ≤ p) (hroom : p + data.length ≤ done + Net.ring)
    (hdata : ∀ i < data.length, data[i]? = stream[p + i]?) :
    Receives stream irs done (ringWrite ring (t.rx.head + (p - done)) data) t := by
  have hd : data.length ≤ Net.ring := by omega
  have hlen := h.len
  refine { h with size := ?_, bytes := ?_, runs := ?_ }
  · exact length_ringWrite h.size hd _
  · exact h.bytes.written h.size hd hp hroom hdata le_rfl (by omega)
  · intro run hrun
    obtain ⟨a, b, hs, hc⟩ := h.runs run hrun
    have hlow := hs.low
    exact ⟨a, b, { hs with
      bytes := hs.bytes.written h.size hd hp hroom hdata (by omega) hs.room }, hc⟩

variable (hfin : t.peerFin = false)

include hfin

/-- Payload ahead of the stream is kept as a run, or not at all. -/
theorem takeAhead (hseg : SegmentAgrees stream irs (done + t.rx.len) seg k) (hk : (done + t.rx.len : Nat) < k)
    (header : List UInt8) :
    Receives stream irs done
      (delivered ring (header ++ seg.payload) (t.takeAhead seg header.length).2)
      (t.takeAhead seg header.length).1 ∧
    (t.takeAhead seg header.length).1.peerFin = false ∧
    (t.takeAhead seg header.length).1.state = t.state := by
  obtain ⟨a, rfl⟩ := Int.eq_ofNat_of_zero_le (a := k) (by omega)
  have hnear := hseg.near
  have hahead : (seg.seq - t.rcvNxt).toNat = a - (done + t.rx.len) := by
    rw [hseg.seq, h.next, hfin, Bool.toNat_false, add_zero, toNat_pos_sub _ (by omega) (by omega)]
    omega
  unfold takeAhead
  dsimp only
  rw [hahead]
  split
  · exact ⟨h.congr rfl, hfin, rfl⟩
  rename_i htake
  have hzero : (a : Int) + (0 : Nat) = a := Int.add_zero _
  obtain ⟨hsent, hbytes⟩ := hseg.payload hzero (pos_of_ne_zero htake) (by omega)
  generalize htk : min seg.payload.length (Net.ring - (t.rx.len + (a - (done + t.rx.len)))) = take
    at htake hsent hbytes
  have hroom : a + take ≤ done + Net.ring := by omega
  have hdlen : ((seg.payload.drop 0).take take).length = take := by
    rw [length_take, length_drop]
    omega
  have hframe : (header ++ seg.payload).drop header.length = seg.payload.drop 0 := drop_left
  have heq := hold_eq { t with ackNow := true } seg.seq (BitVec.ofNat 32 take)
  split
  · rename_i t' he
    -- The run is kept: its bytes are in the ring once they have been copied.
    have hpos : t.rx.head + t.rx.len + (a - (done + t.rx.len)) = t.rx.head + (a - done) := by omega
    rw [he] at heq
    simp only [delivered, ringWrite_mod, hpos, hframe]
    generalize (seg.payload.drop 0).take take = data at hbytes hdlen
    subst hdlen
    have h' := h.written (by omega : done ≤ a) hroom hbytes
    have hnew : Stored stream (ringWrite ring (t.rx.head + (a - done)) data) t.rx.head done
        (done + t.rx.len + 1) a (a + data.length) :=
      ⟨by omega, by omega, hroom, hsent, holds_written h.size (by omega) (by omega) hroom hbytes⟩
    have hruns : AllRuns _ _ ({ t with ackNow := true }.hold _ _).1.ooo :=
      hold_spec (joining_stored stream _ t.rx.head (by omega)) h'.runs hnew
    rw [Nat.add_sub_cancel_left, ← hseg.seq, he] at hruns
    have heq : t' = { t with ackNow := true, ooo := t'.ooo } := heq
    rw [heq]
    exact ⟨{ h' with runs := hruns }, hfin, rfl⟩
  · rename_i t' he
    -- Nothing is copied, and no run is new.
    have hruns : ∀ run, some run ∈ _ → some run ∈ t.ooo :=
      fun run => mem_of_hold_false (t := { t with ackNow := true }) (congrArg Prod.snd he)
    rw [he] at heq hruns
    rw [heq]
    exact ⟨{ h with runs := h.runs.mono hruns }, hfin, rfl⟩

/-- The stream takes `n` bytes that are in the ring, and the runs it then reaches. -/
theorem coalesce (hroom : done + t.rx.len + n ≤ done + Net.ring) (hsent : done + t.rx.len + n ≤ stream.length)
    (hnew : Ring.Holds ring t.rx.head done stream (done + t.rx.len) (done + t.rx.len + n))
    (ht' : t' = { t with
      rx := { t.rx with len := t.rx.len + n }, rcvNxt := t.rcvNxt + BitVec.ofNat 32 n }) :
    Receives stream irs done ring t'.coalesce ∧ t'.coalesce.peerFin = false ∧
      t'.coalesce.state = t.state ∧ t.rx.len + n ≤ t'.coalesce.rx.len := by
  have hring : Net.ring < 2 ^ 31 := by decide
  have hnext : t.rcvNxt = pos (irs + 1) (done + t.rx.len : Nat) := by
    rw [h.next, hfin, Bool.toNat_false, add_zero]
  have hruns : AllRuns (irs + 1) (Stored stream ring t.rx.head done done) t.ooo := by
    intro run hrun
    obtain ⟨a, b, hs, hc⟩ := h.runs run hrun
    exact ⟨a, b, hs.mono (le_trans (by omega) hs.low), hc⟩
  obtain ⟨r, hle, ⟨hheld, hr, hrs⟩, hruns', heq⟩ := coalesce_spec
    (joining_stored stream ring t.rx.head le_rfl)
    (fun {_ _ b} ⟨hq, _, _⟩ hs ha _ => ⟨hq.union hs.bytes ha, hs.room, hs.sent⟩ :
      ∀ {r a b}, (Ring.Holds ring t.rx.head done stream done r ∧ r ≤ done + Net.ring ∧
        r ≤ stream.length) → Stored stream ring t.rx.head done done a b → a ≤ r → r < b →
        Ring.Holds ring t.rx.head done stream done b ∧ b ≤ done + Net.ring ∧ b ≤ stream.length)
    (by omega) (by omega) ⟨h.bytes.union hnew le_rfl, hroom, hsent⟩ hruns hnext ht'
  have hlen : done + (t.rx.len + (r - (done + t.rx.len))) = r := by omega
  rw [heq]
  refine ⟨⟨h.size, h.buf, ?_, ?_, ?_, ?_, ?_, ?_⟩, hfin, rfl, ?_⟩ <;> dsimp only
  · omega
  · omega
  · rw [hlen, hfin, Bool.toNat_false, add_zero]
  · rw [hlen]
    exact hheld
  · intro run hrun
    obtain ⟨a, b, ⟨hs, hlow⟩, hcov⟩ := hruns' run hrun
    rw [hlen]
    exact ⟨a, b, hs.mono hlow, hcov⟩
  · rw [hfin]
    exact fun hf => absurd hf Bool.false_ne_true
  · omega

/-- Payload that the stream takes, with the runs it then reaches. -/
theorem takeNext (hseg : SegmentAgrees stream irs (done + t.rx.len) seg k) (hk : k ≤ (done + t.rx.len : Nat))
    (header : List UInt8) {deliver : Option Deliver} {takenTo : Seq}
    (he : t.takeNext seg header.length = (t', deliver, takenTo)) :
    Receives stream irs done (delivered ring (header ++ seg.payload) deliver) t' ∧
      t'.peerFin = false ∧ t'.state = t.state ∧
      (takenTo = seg.seq + BitVec.ofNat 32 seg.payload.length →
        k + seg.payload.length ≤ (done + t'.rx.len : Nat)) := by
  have hnear := hseg.near
  have hplen := seg.payload_lt
  have hskip : (t.rcvNxt - seg.seq).toNat = ((done + t.rx.len : Nat) - k).toNat := by
    rw [hseg.seq, h.next, hfin, Bool.toNat_false, add_zero, toNat_pos_sub _ (by omega) (by omega)]
  obtain ⟨skip, hs⟩ := Int.eq_ofNat_of_zero_le (Int.sub_nonneg_of_le hk)
  have hfree : t.rx.free = Net.ring - t.rx.len := by
    rw [TcpRing.free, if_neg]
    have := h.buf
    cases hb : t.rx.buf <;> simp_all
  unfold Tcb.takeNext at he
  dsimp only at he
  rw [hskip, hs, Int.toNat_natCast, hfree] at he
  generalize htk : min (seg.payload.length - skip) (Net.ring - t.rx.len) = take at he
  -- The sequence numbers are the same only if all of the payload was taken.
  have hend : seg.seq + BitVec.ofNat 32 (skip + take) = seg.seq + BitVec.ofNat 32 seg.payload.length →
      skip + take = seg.payload.length := by
    intro hb
    rw [hseg.seq, pos_add_ofNat, pos_add_ofNat, pos_inj _ (by omega) (by omega)] at hb
    omega
  split at he
  · rename_i htake
    obtain ⟨hsent, hbytes⟩ := hseg.payload (by omega : k + skip = (done + t.rx.len : Nat)) htake
      (by omega)
    have hdlen : ((seg.payload.drop skip).take take).length = take := by
      rw [length_take, length_drop]
      omega
    have hframe : (header ++ seg.payload).drop (header.length + skip) = seg.payload.drop skip := by
      rw [drop_append, drop_of_length_le (by omega), Nat.add_sub_cancel_left, nil_append]
    cases he
    simp only [delivered, ringWrite_mod, hframe]
    generalize (seg.payload.drop skip).take take = data at hbytes hdlen
    have hpos : t.rx.head + t.rx.len = t.rx.head + (done + t.rx.len - done) := by omega
    rw [hpos]
    subst hdlen
    have hroom : done + t.rx.len + data.length ≤ done + Net.ring := by omega
    have h' := h.written (by omega) hroom hbytes
    obtain ⟨hc, hpf, hst, hle⟩ := h'.coalesce hfin hroom hsent
      (holds_written h.size (by omega) (by omega) hroom hbytes) rfl
    refine ⟨hc.congr rfl, hpf, hst, fun hb => ?_⟩
    have := hend hb
    exact le_trans (by omega) (Int.ofNat_le.mpr (Nat.add_le_add_left hle done))
  · cases he
    refine ⟨h.congr rfl, hfin, rfl, fun hb => ?_⟩
    have := hend hb
    have hlen : ({ t with ackNow := true } : Tcb).rx.len = t.rx.len := rfl
    omega

theorem takeFin (hend : done + t.rx.len = stream.length) (finAcked : Bool) (now : Nat) :
    Receives stream irs done ring (t.takeFin finAcked now) := by
  have h' : Receives stream irs done ring { t with rcvNxt := t.rcvNxt + 1, peerFin := true } := by
    refine { h with next := ?_, fin := fun _ => hend }
    rw [h.next, hfin]
    exact pos_add_ofNat (irs + 1) (done + t.rx.len : Nat) 1
  exact h'.congr (t.recvSide_takeFin finAcked now)

end Receives

/-- A FIN ends the stream for good. -/
theorem Tcb.state_takeFin (t : Tcb) (finAcked : Bool) (now : Nat) (h : t.state ≠ .synSent)
    (h' : t.state ≠ .synReceived) :
    (t.takeFin finAcked now).state ≠ .synSent ∧ (t.takeFin finAcked now).state.ended = true := by
  unfold takeFin
  cases hs : t.state <;> cases finAcked <;> simp_all [enter, TcpState.ended]

/-- Where an acceptable segment can start and end. -/
theorem acceptable_bounds {base : Seq} {r k : Int} {wnd len : Nat} (hw : wnd ≤ Net.ring)
    (hlen : len ≤ 2 ^ 16 + 1) (hk : -(2 ^ 31) - 1 ≤ k - r) (hk' : k - r < 2 ^ 31)
    (h : acceptable (pos base r) wnd (pos base k) len = true) :
    k < r + Net.ring ∧ (r ≤ k ∨ r < k + len) := by
  have hring : Net.ring = 1514 := rfl
  have hinside {x : Int} (hx : -(2 ^ 31) - 1 ≤ x - r) (hx' : x - r < 2 ^ 31 + 2 ^ 16 + 1)
      (hi : (pos base x - pos base r).toNat < wnd) : r ≤ x ∧ x < r + Net.ring := by
    rw [pos_sub, BitVec.toNat_ofInt] at hi
    omega
  unfold acceptable at h
  split at h
  · rw [beq_iff_eq, pos_inj _ (by omega) (by omega)] at h
    omega
  split at h
  · have := hinside (by omega) (by omega) (of_decide_eq_true h)
    omega
  rw [Bool.or_eq_true, decide_eq_true_iff, decide_eq_true_iff, pos_add_ofNat] at h
  rcases h with h | h
  · have := hinside (by omega) (by omega) h
    omega
  · have := hinside (by omega) (by omega) h
    omega

end Kintane
