import Mathlib.Logic.Function.Basic
import Mathlib.Data.List.FinRange
import Kintane.Lib.OnesComplement
import Kintane.Lib.Slices

/-!
# The wire formats

Parsing what arrives and writing what leaves: Ethernet, ARP, IPv4, ICMP, UDP and TCP. A parser takes
any bytes; a writer takes a buffer and returns how much it wrote, and the buffer. Sums of 32 bits
wrap.
-/

namespace Kintane.Wire

open Slices OnesComplement

abbrev Mac := Vector UInt8 6
abbrev Ipv4Addr := Vector UInt8 4

inductive WireError where
  | short
  | notIpv4OverEthernet
  | arpOperation (op : UInt16)
  | notIpv4
  | badHeaderLength
  | badTotalLength
  | badChecksum
  | fragmented
  | notEcho
  | badUdpLength
  | badTcpHeader
  | tooLarge
  deriving DecidableEq

/-- A parser or a writer: its errors, and where the code would panic. -/
abbrev R (α : Type) := Except (Stop WireError) α

def fail {α : Type} (e : WireError) : R α := .error (.err e)

/-! ## Fields -/

def be16Bytes (x : UInt16) : List UInt8 := toBeBytes 2 x.toNat

def be32Bytes (x : UInt32) : List UInt8 := toBeBytes 4 x.toNat

def be16 (b : List UInt8) (pos : Nat) : Option UInt16 := do
  let high ← b[pos]?
  let low ← b[pos + 1]?
  return UInt16.ofNat (fromBeBytes [high, low])

/-- `b.get(pos..pos + 4)`, as a number. -/
def be32 (b : List UInt8) (pos : Nat) : Option UInt32 :=
  if pos + 4 ≤ b.length then some (UInt32.ofNat (fromBeBytes ((b.drop pos).take 4))) else none

/-- `b.get(pos..pos + n)`, as an array. -/
def arrayAt (n : Nat) (b : List UInt8) (pos : Nat) : Option (Vector UInt8 n) :=
  if h : pos + n ≤ b.length then some ⟨((b.drop pos).take n).toArray, by simp; omega⟩ else none

def macAt (b : List UInt8) (pos : Nat) : Option Mac := arrayAt 6 b pos

def ipAt (b : List UInt8) (pos : Nat) : Option Ipv4Addr := arrayAt 4 b pos

/-- `buf.get_mut(..n).ok_or(TooLarge)?`. -/
def room (buf : List UInt8) (n : Nat) : R (List UInt8) := okOr (if n ≤ buf.length then some (buf.take n) else none) .tooLarge

/-! ## The checksum -/

/-- A byte is carried, or completes a word. -/
def sumByte (acc : Nat × Option UInt8) (byte : UInt8) : Nat × Option UInt8 :=
  match acc.2 with
  | some high => ((acc.1 + fromBeBytes [high, byte]) % 2 ^ 32, none)
  | none => (acc.1, some byte)

/-- The sum of the parts as if they were one run of bytes. -/
def sumParts (parts : List (List UInt8)) : Nat :=
  let acc := parts.foldl (fun acc part => part.foldl sumByte acc) (0, none)
  match acc.2 with
  | some high => (acc.1 + fromBeBytes [high, 0]) % 2 ^ 32
  | none => acc.1

def checksum (parts : List (List UInt8)) : UInt16 := ~~~UInt16.ofNat (fold 2 (sumParts parts))

/-! ## Ethernet -/

structure Ethernet where
  dst : Mac
  src : Mac
  ethertype : UInt16
  payload : List UInt8
  deriving DecidableEq

def ethHeader : Nat := 14

def parseEthernet (frame : List UInt8) : R Ethernet := do
  let dst ← okOr (macAt frame 0) .short
  let src ← okOr (macAt frame 6) .short
  let ethertype ← okOr (be16 frame 12) .short
  let payload ← okOr (if ethHeader ≤ frame.length then some (frame.drop ethHeader) else none) .short
  return { dst, src, ethertype, payload }

def writeEthernet (buf : List UInt8) (dst src : Mac) (ethertype : UInt16) : R (List UInt8) := do
  let header ← room buf ethHeader
  let header ← copyAll [(0, dst.toList), (6, src.toList), (12, be16Bytes ethertype)] header
  return header ++ buf.drop ethHeader

/-! ## ARP -/

structure Arp where
  operation : UInt16
  senderMac : Mac
  senderIp : Ipv4Addr
  targetMac : Mac
  targetIp : Ipv4Addr
  deriving DecidableEq

def arpLen : Nat := 28
def arpRequest : UInt16 := 1
def arpReply : UInt16 := 2
def arpHtypeEthernet : UInt16 := 1
def ethertypeIpv4 : UInt16 := 0x0800
def ethertypeArp : UInt16 := 0x0806

def parseArp (p : List UInt8) : R Arp :=
  if p.length < arpLen then fail .short
  else do
    let htype ← okOr (be16 p 0) .short
    let ptype ← okOr (be16 p 2) .short
    let hlen ← index p 4
    let plen ← index p 5
    if htype ≠ arpHtypeEthernet ∨ ptype ≠ ethertypeIpv4 ∨ hlen ≠ 6 ∨ plen ≠ 4 then fail .notIpv4OverEthernet
    else do
      let operation ← okOr (be16 p 6) .short
      if operation ≠ arpRequest ∧ operation ≠ arpReply then fail (.arpOperation operation)
      else do
        let senderMac ← okOr (macAt p 8) .short
        let senderIp ← okOr (ipAt p 14) .short
        let targetMac ← okOr (macAt p 18) .short
        let targetIp ← okOr (ipAt p 24) .short
        return { operation, senderMac, senderIp, targetMac, targetIp }

def writeArp (buf : List UInt8) (arp : Arp) : R (Nat × List UInt8) := do
  let p ← room buf arpLen
  let p ← copyAll [(0, be16Bytes arpHtypeEthernet), (2, be16Bytes ethertypeIpv4), (4, [6]), (5, [4]),
    (6, be16Bytes arp.operation), (8, arp.senderMac.toList), (14, arp.senderIp.toList),
    (18, arp.targetMac.toList), (24, arp.targetIp.toList)] p
  return (arpLen, p ++ buf.drop arpLen)

/-! ## IPv4 -/

structure Ipv4 where
  src : Ipv4Addr
  dst : Ipv4Addr
  protocol : UInt8
  ttl : UInt8
  payload : List UInt8
  deriving DecidableEq

structure Fragment where
  id : UInt16
  offset : Nat
  more : Bool
  deriving DecidableEq

def ipv4Header : Nat := 20
def ipv4Df : UInt16 := 0x4000
def ipv4Fragment : UInt16 := 0x3fff
def ipv4Mf : UInt16 := 0x2000
def ipv4Offset : UInt16 := 0x1fff

/-- Where a packet with these flags belongs, if it is a fragment. -/
def fragmentOf (p : List UInt8) (flags : UInt16) : Option Fragment :=
  if flags &&& ipv4Fragment ≠ 0 then
    some ⟨(be16 p 4).getD 0, (flags &&& ipv4Offset).toNat * 8, flags &&& ipv4Mf ≠ 0⟩
  else none

def parseIpv4Part (p : List UInt8) : R (Ipv4 × Option Fragment) := do
  let first : UInt8 ← okOr p[0]? .short
  if first >>> 4 ≠ 4 then fail .notIpv4
  else
    let header := (first &&& 0x0f).toNat * 4
    if header < ipv4Header ∨ p.length < header then fail .badHeaderLength
    else do
      let total ← okOr (be16 p 2) .short
      if total.toNat < header ∨ p.length < total.toNat then fail .badTotalLength
      else do
        let h ← range p 0 header
        if checksum [h] ≠ 0 then fail .badChecksum
        else do
          let flags ← okOr (be16 p 6) .short
          let ttl ← okOr p[8]? .short
          let protocol ← okOr p[9]? .short
          let src ← okOr (ipAt p 12) .short
          let dst ← okOr (ipAt p 16) .short
          let payload ← range p header total.toNat
          return ({ src, dst, protocol, ttl, payload }, fragmentOf p flags)

def parseIpv4 (p : List UInt8) : R Ipv4 := do
  let (ip, fragment) ← parseIpv4Part p
  match fragment with
  | none => return ip
  | some _ => fail .fragmented

/-- The bytes of a header for a packet of `total` bytes, with the checksum `sum`. -/
def ipv4Pieces (src dst : Ipv4Addr) (protocol : UInt8) (id : UInt16) (total : Nat) (sum : List UInt8) :
    List (Nat × List UInt8) :=
  [(0, [0x45]), (1, [0]), (2, be16Bytes (.ofNat total)), (4, be16Bytes id), (6, be16Bytes ipv4Df), (8, [64]),
    (9, [protocol]), (10, sum), (12, src.toList), (16, dst.toList)]

def writeIpv4 (buf : List UInt8) (src dst : Ipv4Addr) (protocol : UInt8) (id : UInt16) (payloadLen : Nat) :
    R (Nat × List UInt8) :=
  let total := ipv4Header + payloadLen
  if 2 ^ 16 ≤ total then fail .tooLarge
  else do
    let h ← room buf ipv4Header
    let h ← copyAll (ipv4Pieces src dst protocol id total [0, 0]) h
    let h ← copyTo h 10 (be16Bytes (checksum [h]))
    return (ipv4Header, h ++ buf.drop ipv4Header)

/-! ## ICMP -/

structure Unreachable where
  code : UInt8
  protocol : UInt8
  src : Ipv4Addr
  dst : Ipv4Addr
  srcPort : UInt16
  dstPort : UInt16
  deriving DecidableEq

def icmpHeader : Nat := 8
def icmpEchoReply : UInt8 := 0
def icmpEchoRequest : UInt8 := 8
def icmpUnreachable : UInt8 := 3

def parseIcmpUnreachable (p : List UInt8) : R Unreachable :=
  if p.length < icmpHeader then fail .short
  else if checksum [p] ≠ 0 then fail .badChecksum
  else do
    let kind ← index p 0
    if kind ≠ icmpUnreachable then fail .notEcho
    else do
      let inner ← okOr (if icmpHeader ≤ p.length then some (p.drop icmpHeader) else none) .short
      let first : UInt8 ← okOr inner[0]? .short
      if first >>> 4 ≠ 4 then fail .notIpv4
      else
        let header := (first &&& 0x0f).toNat * 4
        if header < ipv4Header ∨ inner.length < header then fail .badHeaderLength
        else do
          let code ← index p 1
          let protocol ← okOr inner[9]? .short
          let src ← okOr (ipAt inner 12) .short
          let dst ← okOr (ipAt inner 16) .short
          let srcPort ← okOr (be16 inner header) .short
          let dstPort ← okOr (be16 inner (header + 2)) .short
          return { code, protocol, src, dst, srcPort, dstPort }

structure Echo where
  kind : UInt8
  id : UInt16
  seq : UInt16
  data : List UInt8
  deriving DecidableEq

def parseIcmpEcho (p : List UInt8) : R Echo :=
  if p.length < icmpHeader then fail .short
  else if checksum [p] ≠ 0 then fail .badChecksum
  else do
    let kind ← index p 0
    let code ← index p 1
    if (kind ≠ icmpEchoRequest ∧ kind ≠ icmpEchoReply) ∨ code ≠ 0 then fail .notEcho
    else do
      let id ← okOr (be16 p 4) .short
      let seq ← okOr (be16 p 6) .short
      let data ← range p icmpHeader p.length
      return { kind, id, seq, data }

def echoPieces (kind : UInt8) (id seq : UInt16) (data sum : List UInt8) : List (Nat × List UInt8) :=
  [(0, [kind]), (1, [0]), (2, sum), (4, be16Bytes id), (6, be16Bytes seq), (8, data)]

def writeIcmpEcho (buf : List UInt8) (kind : UInt8) (id seq : UInt16) (data : List UInt8) :
    R (Nat × List UInt8) := do
  let len := icmpHeader + data.length
  let m ← room buf len
  let m ← copyAll (echoPieces kind id seq data [0, 0]) m
  let m ← copyTo m 2 (be16Bytes (checksum [m]))
  return (len, m ++ buf.drop len)

/-! ## UDP -/

structure Udp where
  srcPort : UInt16
  dstPort : UInt16
  payload : List UInt8
  deriving DecidableEq

def protoIcmp : UInt8 := 1
def protoTcp : UInt8 := 6
def protoUdp : UInt8 := 17
def udpHeader : Nat := 8

def pseudoHeader (src dst : Ipv4Addr) (protocol : UInt8) (len : UInt16) : List UInt8 :=
  src.toList ++ dst.toList ++ [0, protocol] ++ be16Bytes len

def parseUdp (p : List UInt8) (src dst : Ipv4Addr) : R Udp :=
  if p.length < udpHeader then fail .short
  else do
    let len ← okOr (be16 p 4) .short
    let n := len.toNat
    if n < udpHeader ∨ p.length < n then fail .badUdpLength
    else do
      let sum ← okOr (be16 p 6) .short
      let d ← range p 0 n
      if sum ≠ 0 ∧ checksum [pseudoHeader src dst protoUdp len, d] ≠ 0 then fail .badChecksum
      else do
        let srcPort ← okOr (be16 p 0) .short
        let dstPort ← okOr (be16 p 2) .short
        let payload ← range p udpHeader n
        return { srcPort, dstPort, payload }

def udpPieces (srcPort dstPort len : UInt16) (payload sum : List UInt8) : List (Nat × List UInt8) :=
  [(0, be16Bytes srcPort), (2, be16Bytes dstPort), (4, be16Bytes len), (6, sum), (8, payload)]

/-- A sum of zero is sent as its other representation: zero means that there is none. -/
def udpSum (sum : UInt16) : UInt16 := if sum = 0 then 0xffff else sum

def writeUdp (buf : List UInt8) (src dst : Ipv4Addr) (srcPort dstPort : UInt16) (payload : List UInt8) :
    R (Nat × List UInt8) :=
  let n := udpHeader + payload.length
  if 2 ^ 16 ≤ n then fail .tooLarge
  else do
    let len := UInt16.ofNat n
    let d ← room buf n
    let d ← copyAll (udpPieces srcPort dstPort len payload [0, 0]) d
    let d ← copyTo d 6 (be16Bytes (udpSum (checksum [pseudoHeader src dst protoUdp len, d])))
    return (n, d ++ buf.drop n)

/-! ## TCP -/

/-- Blocks of a selective acknowledgement. -/
abbrev Sack := Fin 3 → Option (UInt32 × UInt32)

structure Tcp where
  srcPort : UInt16
  dstPort : UInt16
  seq : UInt32
  ack : UInt32
  flags : UInt8
  window : UInt16
  mss : Option UInt16
  sackPermitted : Bool
  sack : Sack
  payload : List UInt8

def tcpHeader : Nat := 20
def tcpOptEnd : UInt8 := 0
def tcpOptNop : UInt8 := 1
def tcpOptMss : UInt8 := 2
def tcpOptSackPermitted : UInt8 := 4
def tcpOptSack : UInt8 := 5

structure Options where
  mss : Option UInt16
  sackPermitted : Bool
  sack : Sack

def sackBlocks (p : List UInt8) (pos n : Nat) (sack : Sack) : List (Fin 3) → Sack
  | [] => sack
  | i :: rest =>
    let block := pos + 2 + i * 8
    if pos + n < block + 8 then sack
    else
      match be32 p block, be32 p (block + 4) with
      | some start, some stop => sackBlocks p pos n (Function.update sack i (some (start, stop))) rest
      | _, _ => sackBlocks p pos n sack rest

def readOption (p : List UInt8) (pos : Nat) (kind : UInt8) (n : Nat) (o : Options) : Options :=
  let o := if kind = tcpOptMss ∧ n = 4 then { o with mss := be16 p (pos + 2) } else o
  let o := if kind = tcpOptSackPermitted ∧ n = 2 then { o with sackPermitted := true } else o
  if kind = tcpOptSack ∧ 10 ≤ n ∧ (n - 2) % 8 = 0 then
    { o with sack := sackBlocks p pos n o.sack (List.finRange 3) }
  else o

/-- The options from `pos` up to `offset`. A round takes a byte at least. -/
def walkOptions (p : List UInt8) (offset : Nat) : Nat → Nat → Options → R Options
  | 0, pos, o => if pos < offset then .error .noFuel else .ok o
  | rounds + 1, pos, o =>
    if pos < offset then do
      let kind ← index p pos
      if kind = tcpOptEnd then return o
      else if kind = tcpOptNop then walkOptions p offset rounds (pos + 1) o
      else do
        let n : UInt8 ← okOr p[pos + 1]? .badTcpHeader
        if n.toNat < 2 ∨ offset < pos + n.toNat then fail .badTcpHeader
        else walkOptions p offset rounds (pos + n.toNat) (readOption p pos kind n.toNat o)
    else .ok o

def parseTcp (p : List UInt8) (src dst : Ipv4Addr) : R Tcp :=
  if p.length < tcpHeader then fail .short
  else if 2 ^ 16 ≤ p.length then fail .badTcpHeader
  else do
    let len := UInt16.ofNat p.length
    let word : UInt8 ← okOr p[12]? .short
    let offset := (word >>> 4).toNat * 4
    if offset < tcpHeader ∨ p.length < offset then fail .badTcpHeader
    else if checksum [pseudoHeader src dst protoTcp len, p] ≠ 0 then fail .badChecksum
    else do
      let o ← walkOptions p offset offset tcpHeader ⟨none, false, fun _ => none⟩
      let srcPort ← okOr (be16 p 0) .short
      let dstPort ← okOr (be16 p 2) .short
      let seq ← okOr (be32 p 4) .short
      let ack ← okOr (be32 p 8) .short
      let flags ← okOr p[13]? .short
      let window ← okOr (be16 p 14) .short
      let payload ← range p offset p.length
      return { srcPort, dstPort, seq, ack, flags, window, mss := o.mss, sackPermitted := o.sackPermitted,
               sack := o.sack, payload }

structure TcpHeader where
  srcPort : UInt16
  dstPort : UInt16
  seq : UInt32
  ack : UInt32
  flags : UInt8
  window : UInt16
  mss : Option UInt16
  sackPermitted : Bool
  sack : Sack

/-- `sack.iter().flatten()`. -/
def blocks (sack : Sack) : List (UInt32 × UInt32) := (List.finRange 3).filterMap sack

def tcpHeaderLen (h : TcpHeader) : Nat :=
  tcpHeader + (if h.mss.isSome then 4 else 0) + (if h.sackPermitted then 4 else 0) +
    if 0 < (blocks h.sack).length then 4 + 8 * (blocks h.sack).length else 0

/-- The fields before the options; the sum and the urgent pointer are cleared at first. -/
def tcpPieces (h : TcpHeader) (sum : List UInt8) : List (Nat × List UInt8) :=
  [(0, be16Bytes h.srcPort), (2, be16Bytes h.dstPort), (4, be32Bytes h.seq), (8, be32Bytes h.ack),
    (12, [UInt8.ofNat (tcpHeaderLen h / 4) <<< 4]), (13, [h.flags]), (14, be16Bytes h.window),
    (16, sum), (18, [0, 0])]

def writeMss (h : TcpHeader) (s : List UInt8) (pos : Nat) : R (List UInt8 × Nat) :=
  match h.mss with
  | some mss => do
    let s ← copyAll [(pos, [tcpOptMss]), (pos + 1, [4]), (pos + 2, be16Bytes mss)] s
    return (s, pos + 4)
  | none => return (s, pos)

def writeSackPermitted (h : TcpHeader) (s : List UInt8) (pos : Nat) : R (List UInt8 × Nat) :=
  if h.sackPermitted then do
    let s ← copyAll [(pos, [tcpOptNop]), (pos + 1, [tcpOptNop]), (pos + 2, [tcpOptSackPermitted]),
      (pos + 3, [2])] s
    return (s, pos + 4)
  else return (s, pos)

def writeBlocks : List (UInt32 × UInt32) → List UInt8 → Nat → R (List UInt8)
  | [], s, _ => return s
  | (start, stop) :: rest, s, pos => do
    let s ← copyAll [(pos, be32Bytes start), (pos + 4, be32Bytes stop)] s
    writeBlocks rest s (pos + 8)

def writeSack (h : TcpHeader) (s : List UInt8) (pos : Nat) : R (List UInt8) :=
  let count := (blocks h.sack).length
  if 0 < count then do
    let s ← copyAll [(pos, [tcpOptNop]), (pos + 1, [tcpOptNop]), (pos + 2, [tcpOptSack]),
      (pos + 3, [UInt8.ofNat (2 + 8 * count)])] s
    writeBlocks (blocks h.sack) s (pos + 4)
  else return s

def writeTcpHeader (buf : List UInt8) (src dst : Ipv4Addr) (h : TcpHeader) (payloadLen : Nat) :
    R (Nat × List UInt8) :=
  let n := tcpHeaderLen h + payloadLen
  if 2 ^ 16 ≤ n then fail .tooLarge
  else do
    let s ← room buf n
    let s ← copyAll (tcpPieces h [0, 0]) s
    let (s, pos) ← writeMss h s tcpHeader
    let (s, pos) ← writeSackPermitted h s pos
    let s ← writeSack h s pos
    let s ← copyTo s 16 (be16Bytes (checksum [pseudoHeader src dst protoTcp (.ofNat n), s]))
    return (n, s ++ buf.drop n)

def writeTcp (buf : List UInt8) (src dst : Ipv4Addr) (h : TcpHeader) (payload : List UInt8) :
    R (Nat × List UInt8) := do
  let header := tcpHeaderLen h
  let buf ← if header + payload.length ≤ buf.length then copyTo buf header payload else fail .tooLarge
  writeTcpHeader buf src dst h payload.length

/-! ## Frames -/

inductive Frame where
  | arp (arp : Arp)
  | echo (ip : Ipv4) (echo : Echo)
  | unreachable (ip : Ipv4) (u : Unreachable)
  | udp (ip : Ipv4) (udp : Udp)
  | tcp (ip : Ipv4) (tcp : Tcp)
  | otherIpv4 (ip : Ipv4)
  | otherEthernet (ethertype : UInt16)

/-- What an ICMP message is; one that is no echo may be an unreachable message. -/
def parseIcmp (ip : Ipv4) : R Frame :=
  match parseIcmpEcho ip.payload with
  | .ok echo => .ok (.echo ip echo)
  | .error (.err .notEcho) => do
    let u ← parseIcmpUnreachable ip.payload
    return .unreachable ip u
  | .error e => .error e

def parseInner (eth : Ethernet) : R Frame :=
  if eth.ethertype = ethertypeArp then do
    let arp ← parseArp eth.payload
    return .arp arp
  else if eth.ethertype = ethertypeIpv4 then do
    let ip ← parseIpv4 eth.payload
    if ip.protocol = protoIcmp then parseIcmp ip
    else if ip.protocol = protoUdp then do
      let udp ← parseUdp ip.payload ip.src ip.dst
      return .udp ip udp
    else if ip.protocol = protoTcp then do
      let tcp ← parseTcp ip.payload ip.src ip.dst
      return .tcp ip tcp
    else return .otherIpv4 ip
  else return .otherEthernet eth.ethertype

def parseFrame (frame : List UInt8) : R (Ethernet × Frame) := do
  let eth ← parseEthernet frame
  let inner ← parseInner eth
  return (eth, inner)

end Kintane.Wire
