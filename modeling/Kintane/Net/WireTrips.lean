import Kintane.Net.WireSafe
import Kintane.Net.WireTcp

/-!
# What is written reads back

For each format: with room in the buffer, whatever the buffer held, the writer succeeds and its parser
returns the fields that were written. Two writers take more than their parsers do: any ARP operation and
any ICMP kind can be written, and only requests and replies are read.
-/

open List

namespace Kintane.Wire

open Slices OnesComplement

variable {buf : List UInt8} {src dst : Ipv4Addr} {h : TcpHeader}

/-- As much as was written, and some of what follows. -/
theorem take_append_more {a b : List UInt8} {n : Nat} (h : a.length ≤ n) :
    (a ++ b).take n = a ++ b.take (n - a.length) := by
  rw [take_append, take_of_length_le h]

theorem writeTcp_eq {payload : List UInt8} (hroom : tcpHeaderLen h + payload.length ≤ buf.length)
    (hlen : tcpHeaderLen h + payload.length < 2 ^ 16) :
    writeTcp buf src dst h payload =
      .ok (tcpHeaderLen h + payload.length,
        segment src dst h payload ++ buf.drop (tcpHeaderLen h + payload.length)) := by
  have htake : (buf.take (tcpHeaderLen h)).length = tcpHeaderLen h := by
    rw [length_take, min_eq_left (by omega)]
  have hput := copyTo_append (ε := WireError) (a := buf.take (tcpHeaderLen h)) (b := buf.drop (tcpHeaderLen h))
    (v := payload) (by rw [length_drop]; omega)
  rw [take_append_drop, htake, drop_drop] at hput
  have hstart : writeTcp buf src dst h payload = writeTcpHeader
      ((buf.take (tcpHeaderLen h) ++ payload) ++ buf.drop (tcpHeaderLen h + payload.length)) src dst h
      payload.length := by
    rw [writeTcp, if_pos hroom]
    exact bind_ok hput
  have hdrop : ∀ rest : List UInt8, ((buf.take (tcpHeaderLen h) ++ payload) ++ rest).drop
      (tcpHeaderLen h + payload.length) = rest := by
    intro rest
    rw [drop_left']
    rw [length_append, htake]
  rw [hstart, writeTcpHeader_eq ?_ hlen ?_, hdrop]
  · simp only [length_append, htake]
    omega
  · rw [append_assoc, drop_left' htake, take_left]

/-- The two bytes of a datagram's checksum. -/
def udpSumField (p : List UInt8) : Option UInt16 := be16 p 6

/-- Each writer against its parser, and each parser on its own. -/
structure RoundTrips : Prop where
  ethernet (buf : List UInt8) (dst src : Mac) (ethertype : UInt16) (hroom : ethHeader ≤ buf.length) :
    ∃ out, writeEthernet buf dst src ethertype = .ok out ∧
      parseEthernet out = .ok ⟨dst, src, ethertype, buf.drop ethHeader⟩
  arp (buf : List UInt8) (arp : Arp) (hroom : arpLen ≤ buf.length) :
    ∃ out, writeArp buf arp = .ok (arpLen, out) ∧ ∀ n, arpLen ≤ n →
      parseArp (out.take n) =
        if arp.operation = arpRequest ∨ arp.operation = arpReply then .ok arp
        else .error (.err (.arpOperation arp.operation))
  ipv4 (buf : List UInt8) (src dst : Ipv4Addr) (protocol : UInt8) (id : UInt16) (payload : List UInt8)
      (hroom : ipv4Header + payload.length ≤ buf.length) (hlen : ipv4Header + payload.length < 2 ^ 16)
      (hpayload : (buf.drop ipv4Header).take payload.length = payload) :
    ∃ out, writeIpv4 buf src dst protocol id payload.length = .ok (ipv4Header, out) ∧
      ∀ n, ipv4Header + payload.length ≤ n →
        parseIpv4 (out.take n) = .ok ⟨src, dst, protocol, 64, payload⟩
  echo (buf : List UInt8) (kind : UInt8) (id seq : UInt16) (data : List UInt8)
      (hroom : icmpHeader + data.length ≤ buf.length) :
    ∃ out, writeIcmpEcho buf kind id seq data = .ok (icmpHeader + data.length, out) ∧
      checksum [out.take (icmpHeader + data.length)] = 0 ∧
      parseIcmpEcho (out.take (icmpHeader + data.length)) =
        if kind = icmpEchoRequest ∨ kind = icmpEchoReply then .ok ⟨kind, id, seq, data⟩
        else .error (.err .notEcho)
  udp (buf : List UInt8) (src dst : Ipv4Addr) (srcPort dstPort : UInt16) (payload : List UInt8)
      (hroom : udpHeader + payload.length ≤ buf.length) (hlen : udpHeader + payload.length < 2 ^ 16) :
    ∃ out, writeUdp buf src dst srcPort dstPort payload = .ok (udpHeader + payload.length, out) ∧
      udpSumField out ≠ some 0 ∧
      ∀ n, udpHeader + payload.length ≤ n →
        parseUdp (out.take n) src dst = .ok ⟨srcPort, dstPort, payload⟩
  tcp (buf : List UInt8) (src dst : Ipv4Addr) (h : TcpHeader) (payload : List UInt8)
      (hroom : tcpHeaderLen h + payload.length ≤ buf.length) (hlen : tcpHeaderLen h + payload.length < 2 ^ 16) :
    ∃ out sack, writeTcp buf src dst h payload = .ok (tcpHeaderLen h + payload.length, out) ∧
      blocks sack = blocks h.sack ∧
      parseTcp (out.take (tcpHeaderLen h + payload.length)) src dst =
        .ok ⟨h.srcPort, h.dstPort, h.seq, h.ack, h.flags, h.window, h.mss, h.sackPermitted, sack, payload⟩
  /-- The header alone, over a payload that is in its place, is the same segment. -/
  tcpInPlace (buf buf' : List UInt8) (src dst : Ipv4Addr) (h : TcpHeader) (payload : List UInt8)
      (hroom : tcpHeaderLen h + payload.length ≤ buf.length) (hroom' : tcpHeaderLen h + payload.length ≤ buf'.length)
      (hlen : tcpHeaderLen h + payload.length < 2 ^ 16)
      (hpayload : (buf'.drop (tcpHeaderLen h)).take payload.length = payload) :
    ∃ out out', writeTcp buf src dst h payload = .ok (tcpHeaderLen h + payload.length, out) ∧
      writeTcpHeader buf' src dst h payload.length = .ok (tcpHeaderLen h + payload.length, out') ∧
      out.take (tcpHeaderLen h + payload.length) = out'.take (tcpHeaderLen h + payload.length)
  safeEthernet (p : List UInt8) : Sound (parseEthernet p) fun eth => eth.payload <:+: p
  safeArp (p : List UInt8) : Sound (parseArp p) fun _ => True
  safeIpv4 (p : List UInt8) : Sound (parseIpv4Part p) fun r => r.1.payload <:+: p
  safeIpv4Whole (p : List UInt8) : Sound (parseIpv4 p) fun ip => ip.payload <:+: p
  safeEcho (p : List UInt8) : Sound (parseIcmpEcho p) fun echo => echo.data <:+: p
  safeUnreachable (p : List UInt8) : Sound (parseIcmpUnreachable p) fun _ => True
  safeUdp (p : List UInt8) (src dst : Ipv4Addr) : Sound (parseUdp p src dst) fun udp => udp.payload <:+: p
  safeTcp (p : List UInt8) (src dst : Ipv4Addr) : Sound (parseTcp p src dst) fun tcp => tcp.payload <:+: p
  safeFrame (p : List UInt8) : Sound (parseFrame p) fun r => r.1.payload <:+: p ∧ r.2.Inside r.1.payload

/-- What any of the writers writes, its parser reads back, and no bytes lead a parser out of its input. -/
theorem wire_round_trips : RoundTrips where
  ethernet buf dst src ethertype hroom :=
    ⟨_, bind_copyAll (fills_ethernet ..) hroom, parseEthernet_spell dst src ethertype⟩
  arp buf arp hroom := by
    refine ⟨_, writeArp_eq hroom, fun n hn => ?_⟩
    rw [take_append_more (by rwa [(fills_arp arp).length])]
    exact parseArp_spell arp
  ipv4 buf src dst protocol id payload hroom hlen hpayload := by
    refine ⟨_, writeIpv4_eq (by omega) hlen, fun n hn => ?_⟩
    have hl := (fills_ipv4 src dst protocol id (ipv4Header + payload.length)
      (length_be16Bytes (ipv4Sum src dst protocol id (ipv4Header + payload.length)))).length
    have hbuf : (buf.drop ipv4Header).take (n - ipv4Header) =
        payload ++ ((buf.drop ipv4Header).drop payload.length).take (n - ipv4Header - payload.length) := by
      conv_lhs => rw [← take_append_drop payload.length (buf.drop ipv4Header), hpayload]
      exact take_append_more (by omega)
    rw [take_append_more (by omega), hl, hbuf]
    exact parseIpv4_spell hlen
  echo buf kind id seq data hroom := by
    have hl := (fills_echo kind id seq data (length_be16Bytes (echoSum kind id seq data))).length
    refine ⟨_, writeIcmpEcho_eq hroom, ?_, ?_⟩
    · rw [take_left' hl]
      exact checksum_echo kind id seq data
    · rw [take_left' hl]
      exact parseIcmpEcho_spell kind id seq data
  udp buf src dst srcPort dstPort payload hroom hlen := by
    have hf := fills_udp srcPort dstPort (.ofNat (udpHeader + payload.length)) payload
      (length_be16Bytes (udpSumOf src dst srcPort dstPort payload))
    have hl := hf.length
    refine ⟨_, writeUdp_eq hroom hlen, ?_, fun n hn => ?_⟩
    · rw [udpSumField, be16_spell hf (udpSumOf src dst srcPort dstPort payload) (by simp [udpPieces])]
      exact fun hzero => (checksum_udp _ _ _ _ hlen).1 (Option.some.inj hzero)
    · rw [take_append_more (by omega)]
      exact parseUdp_spell hlen
  tcp buf src dst h payload hroom hlen := by
    refine ⟨_, packed (blocks h.sack), writeTcp_eq hroom hlen, blocks_packed (length_blocks_le _), ?_⟩
    rw [take_left' (length_segment src dst h payload)]
    exact parseTcp_segment hlen
  tcpInPlace buf buf' src dst h payload hroom hroom' hlen hpayload := by
    refine ⟨_, _, writeTcp_eq hroom hlen, writeTcpHeader_eq hroom' hlen hpayload, ?_⟩
    have hl := length_segment src dst h payload
    rw [take_left' hl, take_left' hl]
  safeEthernet := sound_parseEthernet
  safeArp := sound_parseArp
  safeIpv4 := sound_parseIpv4Part
  safeIpv4Whole := sound_parseIpv4
  safeEcho := sound_parseIcmpEcho
  safeUnreachable := sound_parseIcmpUnreachable
  safeUdp := sound_parseUdp
  safeTcp := sound_parseTcp
  safeFrame p := (sound_parseEthernet p).bind fun eth heth =>
    (sound_parseInner eth).bind fun _ hin => sound_pure ⟨heth, hin⟩

/-- An ARP packet with an operation of its own is written and not read back. -/
theorem written_arp_refused : ¬∀ (buf : List UInt8) (arp : Arp) (n : Nat) (out : List UInt8),
      writeArp buf arp = .ok (n, out) → parseArp (out.take n) = .ok arp := by
  intro hall
  let arp : Arp := ⟨3, ⟨#[0, 0, 0, 0, 0, 0], rfl⟩, ⟨#[0, 0, 0, 0], rfl⟩, ⟨#[0, 0, 0, 0, 0, 0], rfl⟩,
    ⟨#[0, 0, 0, 0], rfl⟩⟩
  have hwrite : writeArp (List.replicate arpLen 0) arp = _ := writeArp_eq le_rfl
  have hread := hall _ _ _ _ hwrite
  rw [(fills_arp arp).take, ← append_nil (spell _), parseArp_spell arp] at hread
  cases hread

end Kintane.Wire
