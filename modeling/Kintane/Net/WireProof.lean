import Kintane.Net.WireRead

/-!
# Round trips of the fixed headers

For each format but TCP: what the writer leaves in the buffer, and that the parser makes of it the
fields and the payload that were written, whatever bytes follow.
-/

open List

namespace Kintane.Wire

open Slices OnesComplement UInt16

variable {buf tail payload s : List UInt8} {src dst : Ipv4Addr} {α : Type} {id dstPort srcPort : UInt16}
  {protocol : UInt8} {pieces : List (Nat × List UInt8)} {n : Nat} {f : List UInt8 → R α}

theorem bind_room (h : n ≤ buf.length) : (room buf n >>= f) = f (buf.take n) :=
  bind_okOr (if_pos h)

/-- Room for the pieces, and the pieces in it. -/
theorem bind_copyAll (hf : Fills pieces n) (h : n ≤ buf.length) :
    (room buf n >>= fun s => copyAll pieces s >>= f) = f (spell pieces) := by
  have hlen : (spell pieces).length = (buf.take n).length := by rw [hf.length, length_take, min_eq_left h]
  refine (bind_room h).trans (bind_ok ((copyAll_append (a := []) hf.contiguous hlen.le).trans ?_))
  rw [hlen, drop_length, append_nil, nil_append]

/-! ## Ethernet -/

def ethernetPieces (dst src : Mac) (ethertype : UInt16) : List (Nat × List UInt8) :=
  [(0, dst.toList), (6, src.toList), (12, be16Bytes ethertype)]

theorem fills_ethernet (dst src : Mac) (ethertype : UInt16) : Fills (ethernetPieces dst src ethertype) ethHeader where
  contiguous := by simp [Contiguous, ethernetPieces]
  length := by simp [ethernetPieces, ethHeader]

theorem parseEthernet_spell (dst src : Mac) (ethertype : UInt16) :
    parseEthernet (spell (ethernetPieces dst src ethertype) ++ tail) = .ok ⟨dst, src, ethertype, tail⟩ := by
  have hf := fills_ethernet dst src ethertype
  refine (bind_okOr (macAt_spell hf dst (by simp [ethernetPieces]))).trans ?_
  refine (bind_okOr (macAt_spell hf src (by simp [ethernetPieces]))).trans ?_
  refine (bind_okOr (be16_spell hf ethertype (by simp [ethernetPieces]))).trans ?_
  refine (bind_okOr (if_pos ?_)).trans ?_
  · rw [length_append, hf.length]
    exact Nat.le_add_right ..
  · rw [hf.drop]
    rfl

/-! ## ARP -/

def arpPieces (arp : Arp) : List (Nat × List UInt8) :=
  [(0, be16Bytes arpHtypeEthernet), (2, be16Bytes ethertypeIpv4), (4, [6]), (5, [4]),
    (6, be16Bytes arp.operation), (8, arp.senderMac.toList), (14, arp.senderIp.toList),
    (18, arp.targetMac.toList), (24, arp.targetIp.toList)]

theorem fills_arp (arp : Arp) : Fills (arpPieces arp) arpLen where
  contiguous := by simp [Contiguous, arpPieces]
  length := by simp [arpPieces, arpLen]

theorem writeArp_eq {arp : Arp} (h : arpLen ≤ buf.length) :
    writeArp buf arp = .ok (arpLen, spell (arpPieces arp) ++ buf.drop arpLen) :=
  bind_copyAll (fills_arp arp) h

/-- The parser takes requests and replies, and no other operation. -/
theorem parseArp_spell (arp : Arp) : parseArp (spell (arpPieces arp) ++ tail) =
      if arp.operation = arpRequest ∨ arp.operation = arpReply then .ok arp
      else .error (.err (.arpOperation arp.operation)) := by
  have hf := fills_arp arp
  rw [parseArp, if_neg (by rw [length_append, hf.length]; omega)]
  refine (bind_okOr (be16_spell hf arpHtypeEthernet (by simp [arpPieces]))).trans ?_
  refine (bind_okOr (be16_spell hf ethertypeIpv4 (by simp [arpPieces]))).trans ?_
  refine (bind_index (byte_spell hf 6 (by simp [arpPieces]))).trans ?_
  refine (bind_index (byte_spell hf 4 (by simp [arpPieces]))).trans ?_
  refine (bind_okOr (be16_spell hf arp.operation (by simp [arpPieces]))).trans ?_
  by_cases hop : arp.operation = arpRequest ∨ arp.operation = arpReply
  · rw [if_pos hop, if_neg (by tauto)]
    refine (bind_okOr (macAt_spell hf arp.senderMac (by simp [arpPieces]))).trans ?_
    refine (bind_okOr (ipAt_spell hf arp.senderIp (by simp [arpPieces]))).trans ?_
    refine (bind_okOr (macAt_spell hf arp.targetMac (by simp [arpPieces]))).trans ?_
    exact bind_okOr (ipAt_spell hf arp.targetIp (by simp [arpPieces]))
  · rw [if_neg hop, if_pos (by tauto)]
    rfl

/-! ## IPv4 -/

theorem fills_ipv4 (src dst : Ipv4Addr) (protocol : UInt8) (id : UInt16) (total : Nat) (h : s.length = 2) :
    Fills (ipv4Pieces src dst protocol id total s) ipv4Header where
  contiguous := by simp [Contiguous, ipv4Pieces, h]
  length := by simp [ipv4Pieces, ipv4Header, h]

def ipv4Sum (src dst : Ipv4Addr) (protocol : UInt8) (id : UInt16) (total : Nat) : UInt16 :=
  checksum [spell (ipv4Pieces src dst protocol id total [0, 0])]

theorem writeIpv4_eq {len : Nat} (h : ipv4Header ≤ buf.length) (hlen : ipv4Header + len < 2 ^ 16) :
    writeIpv4 buf src dst protocol id len =
      .ok (ipv4Header, spell (ipv4Pieces src dst protocol id (ipv4Header + len)
        (be16Bytes (ipv4Sum src dst protocol id (ipv4Header + len)))) ++ buf.drop ipv4Header) := by
  rw [writeIpv4, if_neg (not_le.mpr hlen)]
  have hf := fills_ipv4 src dst protocol id (ipv4Header + len) (s := [0, 0]) rfl
  refine (bind_copyAll hf h).trans ?_
  exact (bind_ok (copyTo_spell_self hf.contiguous (k := 7) rfl (length_be16Bytes _))).trans rfl

theorem parseIpv4_spell (hlen : ipv4Header + payload.length < 2 ^ 16) :
    parseIpv4 (spell (ipv4Pieces src dst protocol id (ipv4Header + payload.length)
        (be16Bytes (ipv4Sum src dst protocol id (ipv4Header + payload.length)))) ++ (payload ++ tail)) =
      .ok ⟨src, dst, protocol, 64, payload⟩ := by
  generalize htotal : ipv4Header + payload.length = total at hlen ⊢
  have hsum := checksum_spell_self (fills_ipv4 src dst protocol id total (s := [0, 0]) rfl).contiguous (k := 7) rfl rfl
  change checksum [spell (ipv4Pieces src dst protocol id total (be16Bytes (ipv4Sum src dst protocol id total)))] = 0
    at hsum
  generalize ipv4Sum src dst protocol id total = x at hsum ⊢
  have hf := fills_ipv4 src dst protocol id total (length_be16Bytes x)
  have hlen' : (spell (ipv4Pieces src dst protocol id total (be16Bytes x)) ++ (payload ++ tail)).length =
      total + tail.length := by
    rw [length_append, length_append, hf.length]
    omega
  have hnat : (ofNat total).toNat = total := toNat_ofNat_of_lt' hlen
  have hheader : (0x45 &&& 0x0f : UInt8).toNat * 4 = ipv4Header := rfl
  refine (bind_ok (a := (_, none)) ?_).trans rfl
  refine (bind_okOr (byte_spell hf 0x45 (by simp [ipv4Pieces]))).trans ?_
  rw [if_neg (by decide)]
  simp only [hheader, hlen']
  refine (if_neg (by omega)).trans ?_
  refine (bind_okOr (be16_spell hf (.ofNat total) (by simp [ipv4Pieces]))).trans ?_
  rw [hnat]
  refine (if_neg (by omega)).trans ((bind_range (Nat.zero_le _) (by omega)).trans ((if_neg ?_).trans ?_))
  · rw [drop_zero, Nat.sub_zero, hf.take]
    exact fun hne => hne hsum
  refine (bind_okOr (be16_spell hf ipv4Df (by simp [ipv4Pieces]))).trans ?_
  refine (bind_okOr (byte_spell hf 64 (by simp [ipv4Pieces]))).trans ?_
  refine (bind_okOr (byte_spell hf protocol (by simp [ipv4Pieces]))).trans ?_
  refine (bind_okOr (ipAt_spell hf src (by simp [ipv4Pieces]))).trans ?_
  refine (bind_okOr (ipAt_spell hf dst (by simp [ipv4Pieces]))).trans ?_
  refine (bind_range (by omega) (by omega)).trans ?_
  rw [hf.drop, ← htotal, Nat.add_sub_cancel_left, take_left]
  rfl

/-! ## ICMP -/

theorem fills_echo (kind : UInt8) (id seq : UInt16) (data : List UInt8) (h : s.length = 2) :
    Fills (echoPieces kind id seq data s) (icmpHeader + data.length) where
  contiguous := by simp [Contiguous, echoPieces, h]
  length := by
    simp [echoPieces, icmpHeader, h]
    omega

def echoSum (kind : UInt8) (id seq : UInt16) (data : List UInt8) : UInt16 :=
  checksum [spell (echoPieces kind id seq data [0, 0])]

theorem writeIcmpEcho_eq {kind : UInt8} {seq : UInt16} {data : List UInt8}
    (h : icmpHeader + data.length ≤ buf.length) :
    writeIcmpEcho buf kind id seq data = .ok (icmpHeader + data.length,
      spell (echoPieces kind id seq data (be16Bytes (echoSum kind id seq data))) ++
        buf.drop (icmpHeader + data.length)) := by
  have hf := fills_echo kind id seq data (s := [0, 0]) rfl
  refine (bind_copyAll hf h).trans ?_
  exact (bind_ok (copyTo_spell_self hf.contiguous (k := 2) rfl (length_be16Bytes _))).trans rfl

theorem checksum_echo (kind : UInt8) (id seq : UInt16) (data : List UInt8) :
    checksum [spell (echoPieces kind id seq data (be16Bytes (echoSum kind id seq data)))] = 0 := by
  have h := checksum_spell_self (fills_echo kind id seq data (s := [0, 0]) rfl).contiguous (k := 2) rfl rfl
  exact h

/-- The parser takes echo requests and replies, and no other kind. -/
theorem parseIcmpEcho_spell (kind : UInt8) (id seq : UInt16) (data : List UInt8) :
    parseIcmpEcho (spell (echoPieces kind id seq data (be16Bytes (echoSum kind id seq data)))) =
      if kind = icmpEchoRequest ∨ kind = icmpEchoReply then .ok ⟨kind, id, seq, data⟩
      else .error (.err .notEcho) := by
  have hsum := checksum_echo kind id seq data
  generalize echoSum kind id seq data = x at hsum ⊢
  have hf := fills_echo kind id seq data (length_be16Bytes x)
  have hl := hf.length
  rw [parseIcmpEcho, if_neg (by omega), if_neg (by simpa using hsum)]
  rw [← append_nil (spell _)] at hl ⊢
  refine (bind_index (byte_spell hf kind (by simp [echoPieces]))).trans ?_
  refine (bind_index (byte_spell hf 0 (by simp [echoPieces]))).trans ?_
  by_cases hkind : kind = icmpEchoRequest ∨ kind = icmpEchoReply
  · rw [if_pos hkind, if_neg (by tauto)]
    refine (bind_okOr (be16_spell hf id (by simp [echoPieces]))).trans ?_
    refine (bind_okOr (be16_spell hf seq (by simp [echoPieces]))).trans ?_
    refine (bind_range (by omega) le_rfl).trans ?_
    rw [hf.slice (v := data) (by simp [echoPieces, icmpHeader]) (by omega)]
    rfl
  · rw [if_neg hkind, if_pos (by tauto)]
    rfl

/-! ## UDP -/

theorem fills_udp (srcPort dstPort len : UInt16) (payload : List UInt8) (h : s.length = 2) :
    Fills (udpPieces srcPort dstPort len payload s) (udpHeader + payload.length) where
  contiguous := by simp [Contiguous, udpPieces, h]
  length := by
    simp [udpPieces, udpHeader, h]
    omega

@[simp] theorem length_pseudoHeader (protocol : UInt8) (len : UInt16) :
    (pseudoHeader src dst protocol len).length = 12 := by
  simp [pseudoHeader]

def udpSumOf (src dst : Ipv4Addr) (srcPort dstPort : UInt16) (payload : List UInt8) : UInt16 :=
  let len := ofNat (udpHeader + payload.length)
  udpSum (checksum [pseudoHeader src dst protoUdp len, spell (udpPieces srcPort dstPort len payload [0, 0])])

theorem writeUdp_eq (h : udpHeader + payload.length ≤ buf.length) (hlen : udpHeader + payload.length < 2 ^ 16) :
    writeUdp buf src dst srcPort dstPort payload = .ok (udpHeader + payload.length,
      spell (udpPieces srcPort dstPort (.ofNat (udpHeader + payload.length)) payload
        (be16Bytes (udpSumOf src dst srcPort dstPort payload))) ++ buf.drop (udpHeader + payload.length)) := by
  rw [writeUdp, if_neg (not_le.mpr hlen)]
  have hf := fills_udp srcPort dstPort (.ofNat (udpHeader + payload.length)) payload (s := [0, 0]) rfl
  refine (bind_copyAll hf h).trans ?_
  exact (bind_ok (copyTo_spell_self hf.contiguous (k := 3) rfl (length_be16Bytes _))).trans rfl

/-- The sum sent is never zero, and verifies. -/
theorem checksum_udp (src dst : Ipv4Addr) (srcPort dstPort : UInt16)
    (hlen : udpHeader + payload.length < 2 ^ 16) :
    udpSumOf src dst srcPort dstPort payload ≠ 0 ∧
      checksum [pseudoHeader src dst protoUdp (.ofNat (udpHeader + payload.length)),
        spell (udpPieces srcPort dstPort (.ofNat (udpHeader + payload.length)) payload
          (be16Bytes (udpSumOf src dst srcPort dstPort payload)))] = 0 := by
  unfold udpSumOf
  simp only
  generalize ofNat (udpHeader + payload.length) = len
  obtain ⟨hc, hl⟩ := fills_udp srcPort dstPort len payload (s := [0, 0]) rfl
  have hpseudo : (pseudoHeader src dst protoUdp len).length = 12 := length_pseudoHeader ..
  generalize pseudoHeader src dst protoUdp len = front at hpseudo ⊢
  have hk : (udpPieces srcPort dstPort len payload [0, 0])[3]? = some (6, [0, 0]) := rfl
  unfold udpSum
  split
  · next hzero =>
    refine ⟨by decide, ?_⟩
    refine checksum_fill_ones (l := front ++ spell ((udpPieces srcPort dstPort len payload [0, 0]).take 3))
      (r := spell ((udpPieces srcPort dstPort len payload [0, 0]).drop 4)) ?_ ?_ ?_ hzero ?_
    · rw [length_append, length_spell_take hc hk, hpseudo]
    · rw [spell_eq hk]
      simp
    · simp [udpPieces]
    · simp only [flatten_cons, flatten_nil, append_nil, length_append, hl, hpseudo]
      omega
  · next hne =>
    refine ⟨hne, ?_⟩
    have h := checksum_spell front [] hc hk (by omega) rfl
    rwa [append_nil, append_nil] at h

theorem parseUdp_spell (hlen : udpHeader + payload.length < 2 ^ 16) :
    parseUdp (spell (udpPieces srcPort dstPort (.ofNat (udpHeader + payload.length)) payload
        (be16Bytes (udpSumOf src dst srcPort dstPort payload))) ++ tail) src dst =
      .ok ⟨srcPort, dstPort, payload⟩ := by
  obtain ⟨-, hsum⟩ := checksum_udp src dst srcPort dstPort hlen
  generalize udpSumOf src dst srcPort dstPort payload = x at hsum ⊢
  have hnat : (ofNat (udpHeader + payload.length)).toNat = udpHeader + payload.length :=
    toNat_ofNat_of_lt' hlen
  generalize ofNat (udpHeader + payload.length) = len at hsum hnat ⊢
  have hf := fills_udp srcPort dstPort len payload (length_be16Bytes x)
  have hlen' : (spell (udpPieces srcPort dstPort len payload (be16Bytes x)) ++ tail).length =
      udpHeader + payload.length + tail.length := by
    rw [length_append, hf.length]
  refine (bind_okOr (be16_spell hf len (by simp [udpPieces]))).trans ?_
  refine (if_neg ?_).trans ?_
  · omega
  refine (bind_okOr (be16_spell hf x (by simp [udpPieces]))).trans ?_
  refine (bind_range (Nat.zero_le _) (by omega)).trans ?_
  refine (if_neg ?_).trans ?_
  · rw [drop_zero, Nat.sub_zero, hnat, hf.take]
    exact fun hne => hne.2 hsum
  refine (bind_okOr (be16_spell hf srcPort (by simp [udpPieces]))).trans ?_
  refine (bind_okOr (be16_spell hf dstPort (by simp [udpPieces]))).trans ?_
  refine (bind_range (by omega) (by omega)).trans ?_
  rw [hf.slice (v := payload) (by simp [udpPieces, udpHeader]) (by omega)]
  rfl

end Kintane.Wire
