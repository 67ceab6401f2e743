import Kintane.Net.WireProof

/-!
# The round trip of TCP

The options follow one another from byte 20 up to the data offset. The walk over them is followed
backwards: what it makes of the options from some position on is what it makes of the first of them,
and then of the rest.
-/

open List

namespace Kintane.Wire

open Slices OnesComplement

variable {p buf s payload v : List UInt8} {src dst : Ipv4Addr} {h : TcpHeader} {offset pos n : Nat} {o o' : Options}
  {bs : List (UInt32 × UInt32)} {i : Fin 3} {rest : List (Fin 3)} {sack : Sack}

/-! ## Writing the options -/

def mssBytes (h : TcpHeader) : List UInt8 :=
  match h.mss with
  | some mss => [tcpOptMss, 4] ++ be16Bytes mss
  | none => []

def permittedBytes (h : TcpHeader) : List UInt8 :=
  if h.sackPermitted then [tcpOptNop, tcpOptNop, tcpOptSackPermitted, 2] else []

def blockBytes (bs : List (UInt32 × UInt32)) : List UInt8 :=
  bs.flatMap fun b => be32Bytes b.1 ++ be32Bytes b.2

def sackBytes (h : TcpHeader) : List UInt8 :=
  if 0 < (blocks h.sack).length then
    [tcpOptNop, tcpOptNop, tcpOptSack, UInt8.ofNat (2 + 8 * (blocks h.sack).length)] ++ blockBytes (blocks h.sack)
  else []

theorem length_blockBytes (bs : List (UInt32 × UInt32)) : (blockBytes bs).length = 8 * bs.length := by
  induction bs with
  | nil => rfl
  | cons b bs ih =>
    rw [blockBytes, flatMap_cons, length_append, ← blockBytes, ih]
    simp
    omega

theorem length_options (h : TcpHeader) :
    tcpHeader + (mssBytes h).length + (permittedBytes h).length + (sackBytes h).length = tcpHeaderLen h := by
  have hmss : (mssBytes h).length = if h.mss.isSome then 4 else 0 := by
    unfold mssBytes
    cases h.mss <;> simp
  have hperm : (permittedBytes h).length = if h.sackPermitted then 4 else 0 := by
    unfold permittedBytes
    split <;> rfl
  have hsack : (sackBytes h).length =
      if 0 < (blocks h.sack).length then 4 + 8 * (blocks h.sack).length else 0 := by
    unfold sackBytes
    split
    · simp [length_blockBytes]
      omega
    · rfl
  rw [hmss, hperm, hsack, tcpHeaderLen]

section

variable {a b : List UInt8}

theorem writeMss_eq (hfit : (mssBytes h).length ≤ b.length) (ha : a.length = pos) :
    writeMss h (a ++ b) pos =
      .ok ((a ++ mssBytes h) ++ b.drop (mssBytes h).length, pos + (mssBytes h).length) := by
  subst ha
  unfold writeMss mssBytes at *
  cases hm : h.mss with
  | none => simp [pure, Except.pure]
  | some mss =>
    rw [hm] at hfit
    refine (bind_ok (copyAll_append ?_ ?_)).trans ?_
    · simp [Contiguous]
    · simpa using hfit
    · simp [pure, Except.pure]

theorem writeSackPermitted_eq (hfit : (permittedBytes h).length ≤ b.length) (ha : a.length = pos) :
    writeSackPermitted h (a ++ b) pos =
      .ok ((a ++ permittedBytes h) ++ b.drop (permittedBytes h).length, pos + (permittedBytes h).length) := by
  subst ha
  unfold writeSackPermitted permittedBytes at *
  split
  · next hp =>
    rw [if_pos hp] at hfit
    refine (bind_ok (copyAll_append ?_ ?_)).trans ?_
    · simp [Contiguous]
    · simpa using hfit
    · simp [pure, Except.pure]
  · simp [pure, Except.pure]

theorem writeBlocks_eq (hfit : (blockBytes bs).length ≤ b.length) (ha : a.length = pos) :
    writeBlocks bs (a ++ b) pos = .ok ((a ++ blockBytes bs) ++ b.drop (blockBytes bs).length) := by
  induction bs generalizing a b pos with
  | nil => simp [writeBlocks, blockBytes, pure, Except.pure]
  | cons block bs ih =>
    obtain ⟨start, stop⟩ := block
    have hcons : blockBytes ((start, stop) :: bs) = (be32Bytes start ++ be32Bytes stop) ++ blockBytes bs := rfl
    rw [hcons] at hfit ⊢
    simp only [length_append, length_be32Bytes] at hfit
    subst ha
    refine (bind_ok (copyAll_append ?_ ?_)).trans ?_
    · simp [Contiguous]
    · simp
      omega
    · refine (ih ?_ ?_).trans ?_
      · simp
        omega
      · simp
      · simp only [spell_cons, spell_nil, append_nil, append_assoc, drop_drop, length_append, add_assoc]

theorem writeSack_eq (hfit : (sackBytes h).length ≤ b.length) (ha : a.length = pos) :
    writeSack h (a ++ b) pos = .ok ((a ++ sackBytes h) ++ b.drop (sackBytes h).length) := by
  unfold sackBytes at hfit ⊢
  by_cases hp : 0 < (blocks h.sack).length
  · rw [if_pos hp] at hfit ⊢
    simp only [length_append, length_cons, length_nil] at hfit
    subst ha
    refine (if_pos hp).trans ((bind_ok (copyAll_append ?_ ?_)).trans ?_)
    · simp [Contiguous]
    · simp
      omega
    · refine (writeBlocks_eq ?_ ?_).trans ?_
      · simp
        omega
      · simp
      · simp only [spell_cons, spell_nil, append_nil, append_assoc, drop_drop, length_append]
        rfl
  · rw [if_neg hp]
    exact (if_neg hp).trans (by simp [pure, Except.pure])

end

/-! ## The segment -/

theorem fills_tcp (h : TcpHeader) (hs : s.length = 2) : Fills (tcpPieces h s) tcpHeader where
  contiguous := by simp [Contiguous, tcpPieces, hs]
  length := by simp [tcpPieces, tcpHeader, hs]

def optionBytes (h : TcpHeader) : List UInt8 := mssBytes h ++ (permittedBytes h ++ sackBytes h)

theorem length_optionBytes (h : TcpHeader) : tcpHeader + (optionBytes h).length = tcpHeaderLen h := by
  rw [← length_options h, optionBytes]
  simp only [length_append]
  omega

def tcpSum (src dst : Ipv4Addr) (h : TcpHeader) (payload : List UInt8) : UInt16 :=
  checksum [pseudoHeader src dst protoTcp (.ofNat (tcpHeaderLen h + payload.length)),
    spell (tcpPieces h [0, 0]) ++ (optionBytes h ++ payload)]

def segment (src dst : Ipv4Addr) (h : TcpHeader) (payload : List UInt8) : List UInt8 :=
  spell (tcpPieces h (be16Bytes (tcpSum src dst h payload))) ++ (optionBytes h ++ payload)

theorem length_segment (src dst : Ipv4Addr) (h : TcpHeader) (payload : List UInt8) :
    (segment src dst h payload).length = tcpHeaderLen h + payload.length := by
  rw [segment, length_append, (fills_tcp h (length_be16Bytes _)).length, length_append, ← length_optionBytes h, add_assoc]

/-- The header is written before what the buffer holds at its end. -/
theorem writeTcpHeader_eq (hroom : tcpHeaderLen h + payload.length ≤ buf.length)
    (hlen : tcpHeaderLen h + payload.length < 2 ^ 16)
    (hpayload : (buf.drop (tcpHeaderLen h)).take payload.length = payload) :
    writeTcpHeader buf src dst h payload.length =
      .ok (tcpHeaderLen h + payload.length,
        segment src dst h payload ++ buf.drop (tcpHeaderLen h + payload.length)) := by
  have hopt := length_options h
  rw [writeTcpHeader, if_neg (not_le.mpr hlen)]
  refine (bind_room hroom).trans ?_
  obtain ⟨hc, hl⟩ := fills_tcp h (s := [0, 0]) rfl
  have htake : (buf.take (tcpHeaderLen h + payload.length)).length = tcpHeaderLen h + payload.length := by
    rw [length_take, min_eq_left hroom]
  -- the fixed fields, and then one option after the other
  have hfixed := copyAll_append (ε := WireError) (a := []) (b := buf.take (tcpHeaderLen h + payload.length)) hc
    (by rw [hl, htake]; omega)
  rw [nil_append, nil_append] at hfixed
  refine (bind_ok hfixed).trans ?_
  refine (bind_ok (writeMss_eq ?_ hl)).trans ?_
  · rw [length_drop, hl, htake]
    omega
  refine (bind_ok (writeSackPermitted_eq ?_ ?_)).trans ?_
  · rw [length_drop, length_drop, hl, htake]
    omega
  · rw [length_append, hl]
  refine (bind_ok (writeSack_eq ?_ ?_)).trans ?_
  · rw [length_drop, length_drop, length_drop, hl, htake]
    omega
  · rw [length_append, length_append, hl]
  have hrest : (((buf.take (tcpHeaderLen h + payload.length)).drop (spell (tcpPieces h [0, 0])).length).drop
      (mssBytes h).length |>.drop (permittedBytes h).length |>.drop (sackBytes h).length) = payload := by
    rw [drop_drop, drop_drop, drop_drop, hl, ← add_assoc, ← add_assoc, hopt, drop_take, Nat.add_sub_cancel_left]
    exact hpayload
  rw [hrest, append_assoc, append_assoc, append_assoc, ← append_assoc (permittedBytes h),
    ← append_assoc (mssBytes h)]
  have hput := copyTo_spell (ε := WireError) (optionBytes h ++ payload) hc (k := 7) rfl
    (length_be16Bytes (tcpSum src dst h payload))
  exact (bind_ok hput).trans rfl

/-! ## Walking over the options -/

/-- What the walk makes of the options from a position on. -/
def Walks (p : List UInt8) (offset pos : Nat) (o o' : Options) : Prop :=
  ∀ rounds, offset ≤ pos + rounds → walkOptions p offset rounds pos o = .ok o'

theorem Walks.done : Walks p offset offset o o := by
  intro rounds _
  unfold walkOptions
  cases rounds with
  | zero => exact if_neg (lt_irrefl _)
  | succ rounds => exact if_neg (lt_irrefl _)

theorem Walks.nop (h : Walks p offset (pos + 1) o o') (hlt : pos < offset) (hkind : p[pos]? = some tcpOptNop) :
    Walks p offset pos o o' := by
  intro rounds hr
  cases rounds with
  | zero => omega
  | succ rounds =>
    refine (if_pos hlt).trans ((bind_index hkind).trans ?_)
    exact h rounds (by omega)

theorem Walks.option (kind : UInt8) {n : UInt8} (h : Walks p offset (pos + n.toNat) (readOption p pos kind n.toNat o) o')
    (hkind : p[pos]? = some kind) (hne : kind ≠ tcpOptEnd ∧ kind ≠ tcpOptNop) (hn : p[pos + 1]? = some n)
    (htwo : 2 ≤ n.toNat) (hin : pos + n.toNat ≤ offset) : Walks p offset pos o o' := by
  intro rounds hr
  cases rounds with
  | zero => omega
  | succ rounds =>
    refine (if_pos (by omega)).trans ((bind_index hkind).trans ?_)
    refine (if_neg hne.1).trans ((if_neg hne.2).trans ((bind_okOr hn).trans ?_))
    exact (if_neg (by omega)).trans (h rounds (by omega))

def At (p : List UInt8) (pos : Nat) (v : List UInt8) : Prop := v <+: p.drop pos

theorem At.append {v' : List UInt8} (h : At p pos (v ++ v')) : At p pos v ∧ At p (pos + v.length) v' := by
  obtain ⟨r, hr⟩ := h
  refine ⟨⟨v' ++ r, by rw [← hr, append_assoc]⟩, r, ?_⟩
  rw [← drop_drop, ← hr, append_assoc, drop_left]

theorem At.get (h : At p pos v) {k : Nat} (hk : k < v.length) : p[pos + k]? = v[k]? := by
  obtain ⟨r, hr⟩ := h
  rw [← getElem?_drop, ← hr, getElem?_append_left hk]

theorem At.slice (h : At p pos v) (hv : v.length = n) : (p.drop pos).take n = v := by
  obtain ⟨r, hr⟩ := h
  rw [← hr, ← hv, take_left]

theorem walks_mss (hat : At p pos (mssBytes h)) (hin : pos + (mssBytes h).length ≤ offset)
    (hnone : o.mss = none) (hw : Walks p offset (pos + (mssBytes h).length) { o with mss := h.mss } o') :
    Walks p offset pos o o' := by
  unfold mssBytes at hat hin hw
  cases hm : h.mss with
  | none =>
    simp only [hm, length_nil, add_zero] at hw
    rwa [← hnone] at hw
  | some mss =>
    simp only [hm] at hat hin hw
    have hword : be16 p (pos + 2) = some mss := be16_of_slice (hat.append.2.slice (length_be16Bytes mss))
    have hread : readOption p pos tcpOptMss 4 o = { o with mss := some mss } := by
      simp only [readOption, hword]
      rfl
    refine Walks.option tcpOptMss (n := 4) ?_ (hat.get (k := 0) (by simp)) (by decide)
      (hat.get (k := 1) (by simp)) (by decide) hin
    show Walks p offset (pos + 4) (readOption p pos tcpOptMss 4 o) o'
    rw [hread]
    exact hw

theorem walks_permitted (hat : At p pos (permittedBytes h)) (hin : pos + (permittedBytes h).length ≤ offset)
    (hfalse : o.sackPermitted = false)
    (hw : Walks p offset (pos + (permittedBytes h).length) { o with sackPermitted := h.sackPermitted } o') :
    Walks p offset pos o o' := by
  unfold permittedBytes at hat hin hw
  cases hm : h.sackPermitted with
  | false =>
    simp only [hm, Bool.false_eq_true, if_false, length_nil, add_zero] at hw
    rwa [← hfalse] at hw
  | true =>
    simp only [hm, if_true, length_cons, length_nil] at hat hin hw
    refine Walks.nop (Walks.nop ?_ (by omega) ?_) (by omega) ?_
    · exact Walks.option tcpOptSackPermitted (n := 2) hw (hat.get (k := 2) (by simp)) (by decide)
        (hat.get (k := 3) (by simp)) (by decide) hin
    · exact hat.get (k := 1) (by simp)
    · exact hat.get (k := 0) (by simp)

/-! ## Blocks -/

/-- Blocks without gaps. -/
def packed (bs : List (UInt32 × UInt32)) : Sack := fun i => bs[i]?

theorem blocks_packed (h : bs.length ≤ 3) : blocks (packed bs) = bs := by
  match bs, h with
  | [], _ => rfl
  | [_], _ => rfl
  | [_, _], _ => rfl
  | [_, _, _], _ => rfl

theorem length_blocks_le (sack : Sack) : (blocks sack).length ≤ 3 := by
  have := length_filterMap_le sack (List.finRange 3)
  rwa [length_finRange] at this

variable {b : UInt32 × UInt32}

/-- Each block reads back. -/
theorem be32_block (hat : At p pos (blockBytes bs)) {i : Nat}
    (hi : bs[i]? = some b) : be32 p (pos + i * 8) = some b.1 ∧ be32 p (pos + i * 8 + 4) = some b.2 := by
  induction bs generalizing pos i with
  | nil => cases hi
  | cons c bs ih =>
    have hcons : blockBytes (c :: bs) = (be32Bytes c.1 ++ be32Bytes c.2) ++ blockBytes bs := rfl
    rw [hcons] at hat
    obtain ⟨hfirst, hrest⟩ := hat.append
    cases i with
    | zero =>
      obtain rfl : c = b := Option.some.inj hi
      obtain ⟨hstart, hstop⟩ := hfirst.append
      rw [length_be32Bytes] at hstop
      rw [zero_mul, add_zero]
      exact ⟨be32_of_slice (hstart.slice (length_be32Bytes _)), be32_of_slice (hstop.slice (length_be32Bytes _))⟩
    | succ i =>
      have := ih hrest (i := i) hi
      rw [length_append, length_be32Bytes, length_be32Bytes] at this
      have hpos : pos + (4 + 4) + i * 8 = pos + (i + 1) * 8 := by omega
      rwa [hpos] at this

theorem sackBlocks_stop (h : pos + n < pos + 2 + i * 8 + 8) : sackBlocks p pos n sack (i :: rest) = sack := if_pos h

theorem sackBlocks_take
    (h : pos + 2 + i * 8 + 8 ≤ pos + n) (hb : be32 p (pos + 2 + i * 8) = some b.1 ∧
      be32 p (pos + 2 + i * 8 + 4) = some b.2) :
    sackBlocks p pos n sack (i :: rest) = sackBlocks p pos n (Function.update sack i (some b)) rest := by
  rw [sackBlocks, if_neg (not_lt.mpr h), hb.1, hb.2]

theorem sackBlocks_eq (hat : At p (pos + 2) (blockBytes bs)) (hpos : 0 < bs.length) (hle : bs.length ≤ 3) :
    sackBlocks p pos (2 + 8 * bs.length) (fun _ => none) (List.finRange 3) = packed bs := by
  have hread := fun {i b} => be32_block (i := i) (b := b) hat
  show sackBlocks p pos (2 + 8 * bs.length) (fun _ => none) [0, 1, 2] = packed bs
  match bs, hpos, hle with
  | [x], _, _ =>
    rw [sackBlocks_take (b := x) le_rfl (hread (i := 0) rfl), sackBlocks_stop (by simp)]
    exact funext (Fin.forall_fin_succ.mpr ⟨rfl, Fin.forall_fin_two.mpr ⟨rfl, rfl⟩⟩)
  | [x, y], _, _ =>
    rw [sackBlocks_take (b := x) (by simp) (hread (i := 0) rfl),
      sackBlocks_take (b := y) (by simp) (hread (i := 1) rfl), sackBlocks_stop (by simp)]
    exact funext (Fin.forall_fin_succ.mpr ⟨rfl, Fin.forall_fin_two.mpr ⟨rfl, rfl⟩⟩)
  | [x, y, z], _, _ =>
    rw [sackBlocks_take (b := x) (by simp) (hread (i := 0) rfl),
      sackBlocks_take (b := y) (by simp) (hread (i := 1) rfl),
      sackBlocks_take (b := z) (by simp) (hread (i := 2) rfl)]
    exact funext (Fin.forall_fin_succ.mpr ⟨rfl, Fin.forall_fin_two.mpr ⟨rfl, rfl⟩⟩)

theorem walks_sack (hat : At p pos (sackBytes h)) (hnone : o.sack = fun _ => none) :
    Walks p (pos + (sackBytes h).length) pos o { o with sack := packed (blocks h.sack) } := by
  have hle := length_blocks_le h.sack
  unfold sackBytes at hat ⊢
  generalize blocks h.sack = bs at hat hle ⊢
  by_cases hp : 0 < bs.length
  · rw [if_pos hp] at hat ⊢
    have hn := UInt8.toNat_ofNat_of_lt' (show 2 + 8 * bs.length < 256 by omega)
    have hlen : ([tcpOptNop, tcpOptNop, tcpOptSack, UInt8.ofNat (2 + 8 * bs.length)] ++ blockBytes bs).length =
        4 + 8 * bs.length := by
      rw [length_append, length_blockBytes]
      rfl
    have hget := fun {k} (hk : k < 4) => hat.append.1.get (k := k) hk
    rw [hlen]
    refine Walks.nop (Walks.nop ?_ (by omega) (hget (k := 1) (by omega))) (by omega) (hget (k := 0) (by omega))
    refine Walks.option tcpOptSack ?_ (hget (k := 2) (by omega)) (by decide) (hget (k := 3) (by omega))
      (by omega) (by omega)
    rw [hn]
    have hread : readOption p (pos + 1 + 1) tcpOptSack (2 + 8 * bs.length) o = { o with sack := packed bs } := by
      have hblocks := sackBlocks_eq (show At p (pos + 1 + 1 + 2) (blockBytes bs) from hat.append.2) hp hle
      have hnot : ∀ {k : UInt8} {m : Nat}, tcpOptSack ≠ k → ¬(tcpOptSack = k ∧ 2 + 8 * bs.length = m) :=
        fun hk hand => hk hand.1
      simp only [readOption]
      rw [if_neg (hnot (k := tcpOptMss) (by decide)), if_neg (hnot (k := tcpOptSackPermitted) (by decide)),
        if_pos ⟨trivial, by omega, by omega⟩, hnone, hblocks]
    have hend : pos + 1 + 1 + (2 + 8 * bs.length) = pos + (4 + 8 * bs.length) := by omega
    rw [hread, hend]
    exact Walks.done
  · obtain rfl : bs = [] := length_eq_zero_iff.mp (by omega)
    have hsame : o = { o with sack := packed [] } := by
      rw [show packed [] = o.sack from hnone.symm ▸ rfl]
    rw [if_neg hp, ← hsame]
    exact Walks.done

/-- The walk over the options written gives what the header asked for. -/
theorem walks_options (hat : At p tcpHeader (optionBytes h)) :
    Walks p (tcpHeaderLen h) tcpHeader ⟨none, false, fun _ => none⟩
      ⟨h.mss, h.sackPermitted, packed (blocks h.sack)⟩ := by
  have hlen := length_options h
  obtain ⟨hmss, hrest⟩ := hat.append
  obtain ⟨hperm, hsack⟩ := hrest.append
  refine walks_mss hmss (by omega) rfl (walks_permitted hperm (by omega) rfl ?_)
  rw [← hlen]
  exact walks_sack hsack rfl

/-! ## The round trip -/

theorem tcpHeaderLen_bound (h : TcpHeader) : tcpHeaderLen h % 4 = 0 ∧ tcpHeader ≤ tcpHeaderLen h ∧ tcpHeaderLen h ≤ 56 := by
  have hle := length_blocks_le h.sack
  unfold tcpHeaderLen tcpHeader
  split <;> split <;> split <;> omega

/-- The data offset survives its place in the upper half of a byte. -/
theorem offset_byte (hn : n % 4 = 0) (hle : n ≤ 56) : ((UInt8.ofNat (n / 4) <<< 4) >>> 4).toNat * 4 = n := by
  have hk : ∀ k < 15, ((UInt8.ofNat k <<< 4) >>> 4).toNat = k := by decide
  rw [hk (n / 4) (by omega)]
  omega

theorem tcpPieces_set (sum : List UInt8) : (tcpPieces h [0, 0]).set 7 (16, sum) = tcpPieces h sum := rfl

theorem checksum_segment (src dst : Ipv4Addr) (h : TcpHeader) (payload : List UInt8) :
    checksum [pseudoHeader src dst protoTcp (.ofNat (tcpHeaderLen h + payload.length)), segment src dst h payload] =
      0 := by
  rw [segment, tcpSum, ← tcpPieces_set]
  refine checksum_spell _ _ (fills_tcp h rfl).contiguous rfl ?_ rfl
  simp [pseudoHeader]

theorem parseTcp_segment (hlen : tcpHeaderLen h + payload.length < 2 ^ 16) :
    parseTcp (segment src dst h payload) src dst =
      .ok { srcPort := h.srcPort, dstPort := h.dstPort, seq := h.seq, ack := h.ack, flags := h.flags,
            window := h.window, mss := h.mss, sackPermitted := h.sackPermitted,
            sack := packed (blocks h.sack), payload } := by
  obtain ⟨hfour, hlow, hhigh⟩ := tcpHeaderLen_bound h
  have hl := length_segment src dst h payload
  have hsum := checksum_segment src dst h payload
  have hf := fills_tcp h (length_be16Bytes (tcpSum src dst h payload))
  have hat : At (segment src dst h payload) tcpHeader (optionBytes h) := ⟨payload, hf.drop.symm⟩
  have hpay : (segment src dst h payload).drop (tcpHeaderLen h) = payload := by
    rw [segment, ← append_assoc, drop_left']
    rw [length_append, hf.length, length_optionBytes]
  have hoff := offset_byte hfour hhigh
  have hbyte : (segment src dst h payload)[12]? = some (UInt8.ofNat (tcpHeaderLen h / 4) <<< 4) :=
    byte_spell hf _ (by simp [tcpPieces])
  have hflags : (segment src dst h payload)[13]? = some h.flags := byte_spell hf _ (by simp [tcpPieces])
  rw [parseTcp, if_neg (by omega), if_neg (by omega)]
  refine (bind_okOr hbyte).trans ?_
  rw [hl, hoff]
  refine (if_neg (by omega)).trans ((if_neg (not_not_intro hsum)).trans ?_)
  refine (bind_ok (walks_options hat _ (by omega))).trans ?_
  refine (bind_okOr (be16_spell hf h.srcPort (by simp [tcpPieces]))).trans ?_
  refine (bind_okOr (be16_spell hf h.dstPort (by simp [tcpPieces]))).trans ?_
  refine (bind_okOr (be32_spell hf h.seq (by simp [tcpPieces]))).trans ?_
  refine (bind_okOr (be32_spell hf h.ack (by simp [tcpPieces]))).trans ?_
  refine (bind_okOr hflags).trans ?_
  refine (bind_okOr (be16_spell hf h.window (by simp [tcpPieces]))).trans ?_
  refine (bind_range (by omega) (by omega)).trans ?_
  rw [hpay, take_of_length_le (by omega)]
  rfl

end Kintane.Wire
