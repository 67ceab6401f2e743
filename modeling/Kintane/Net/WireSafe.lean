import Kintane.Net.Wire

/-!
# No bytes make a parser panic

For every byte string each parser returns an error, or views inside the bytes it was given; no index
is out of range, and the walk over the options ends.
-/

namespace Kintane.Wire

open Slices

variable {p : List UInt8} {α : Type}

theorem sound_fail (e : WireError) (P : α → Prop) : Sound (fail e) P := trivial

theorem sound_pure {a : α} {P : α → Prop} (h : P a) : Sound (pure a : R α) P := h

/-- A field that has to be there. -/
theorem sound_field {β : Type} {o : Option α} {e : WireError} {f : α → R β} {Q : β → Prop}
    (h : ∀ a, Sound (f a) Q) : Sound (okOr o e >>= f) Q :=
  (sound_okOr o e).bind fun a _ => h a

theorem drop_isInfix_of_some {n : Nat} {l : List UInt8}
    (h : (if n ≤ p.length then some (p.drop n) else none) = some l) : l <:+: p := by
  split at h
  · cases h
    exact (List.drop_suffix n p).isInfix
  · cases h

theorem sound_parseEthernet (p : List UInt8) : Sound (parseEthernet p) fun eth => eth.payload <:+: p := by
  refine sound_field fun dst => sound_field fun src => sound_field fun ethertype => ?_
  exact (sound_okOr _ _).bind fun payload h => sound_pure (drop_isInfix_of_some h)

theorem sound_parseArp (p : List UInt8) : Sound (parseArp p) fun _ => True := by
  refine sound_unless fun hlen => ?_
  unfold arpLen at hlen
  refine sound_field fun htype => sound_field fun ptype => ?_
  refine (sound_index (by omega)).bind fun hlen' _ => (sound_index (by omega)).bind fun plen _ => ?_
  refine sound_unless fun _ => sound_field fun operation => sound_unless fun _ => ?_
  exact sound_field fun _ => sound_field fun _ => sound_field fun _ => sound_field fun _ =>
    sound_pure trivial

theorem sound_parseIpv4Part (p : List UInt8) : Sound (parseIpv4Part p) fun r => r.1.payload <:+: p := by
  refine sound_field fun first => sound_unless fun _ => sound_unless fun hheader => ?_
  refine sound_field fun total => sound_unless fun htotal => ?_
  refine (sound_range (Nat.zero_le _) (by omega)).bind fun h _ => sound_unless fun _ => ?_
  refine sound_field fun _ => sound_field fun _ => sound_field fun _ => sound_field fun _ =>
    sound_field fun _ => ?_
  refine (sound_range (by omega) (by omega)).bind fun payload hp => sound_pure ?_
  subst hp
  exact take_drop_isInfix ..

theorem sound_parseIpv4 (p : List UInt8) : Sound (parseIpv4 p) fun ip => ip.payload <:+: p := by
  refine (sound_parseIpv4Part p).bind fun r h => ?_
  obtain ⟨ip, fragment⟩ := r
  cases fragment with
  | none => exact h
  | some _ => exact sound_fail _ _

theorem sound_parseIcmpUnreachable (p : List UInt8) : Sound (parseIcmpUnreachable p) fun _ => True := by
  refine sound_unless fun hlen => sound_unless fun _ => ?_
  unfold icmpHeader at hlen
  refine (sound_index (by omega)).bind fun kind _ => sound_unless fun _ => ?_
  refine sound_field fun inner => sound_field fun first => sound_unless fun _ => sound_unless fun _ => ?_
  refine (sound_index (by omega)).bind fun code _ => ?_
  exact sound_field fun _ => sound_field fun _ => sound_field fun _ => sound_field fun _ =>
    sound_field fun _ => sound_pure trivial

theorem sound_parseIcmpEcho (p : List UInt8) : Sound (parseIcmpEcho p) fun echo => echo.data <:+: p := by
  refine sound_unless fun hlen => sound_unless fun _ => ?_
  unfold icmpHeader at hlen
  refine (sound_index (by omega)).bind fun kind _ => (sound_index (by omega)).bind fun code _ => ?_
  refine sound_unless fun _ => sound_field fun _ => sound_field fun _ => ?_
  refine (sound_range (by unfold icmpHeader; omega) le_rfl).bind fun data hd => sound_pure ?_
  subst hd
  exact take_drop_isInfix ..

theorem sound_parseUdp (p : List UInt8) (src dst : Ipv4Addr) :
    Sound (parseUdp p src dst) fun udp => udp.payload <:+: p := by
  refine sound_unless fun _ => sound_field fun len => sound_unless fun hn => sound_field fun sum => ?_
  refine (sound_range (Nat.zero_le _) (by omega)).bind fun d _ => sound_unless fun _ => ?_
  refine sound_field fun _ => sound_field fun _ => ?_
  refine (sound_range (by omega) (by omega)).bind fun payload hp => sound_pure ?_
  subst hp
  exact take_drop_isInfix ..

/-- Each round moves on, by a byte or by an option of two at least. -/
theorem sound_walkOptions {offset rounds pos : Nat} {o : Options} (hoff : offset ≤ p.length)
    (h : offset ≤ pos + rounds) : Sound (walkOptions p offset rounds pos o) fun _ => True := by
  induction rounds generalizing pos o with
  | zero =>
    unfold walkOptions
    rw [if_neg (by omega)]
    trivial
  | succ rounds ih =>
    unfold walkOptions
    split
    · refine (sound_index (by omega)).bind fun kind _ => ?_
      split
      · exact sound_pure trivial
      · split
        · exact ih (by omega)
        · exact sound_field fun n => sound_unless fun _ => ih (by omega)
    · trivial

theorem sound_parseTcp (p : List UInt8) (src dst : Ipv4Addr) :
    Sound (parseTcp p src dst) fun tcp => tcp.payload <:+: p := by
  refine sound_unless fun _ => sound_unless fun _ => sound_field fun word => ?_
  refine sound_unless fun hoffset => sound_unless fun _ => ?_
  refine (sound_walkOptions (by omega) (by omega)).bind fun o _ => ?_
  refine sound_field fun _ => sound_field fun _ => sound_field fun _ => sound_field fun _ =>
    sound_field fun _ => sound_field fun _ => ?_
  refine (sound_range (by omega) le_rfl).bind fun payload hp => sound_pure ?_
  subst hp
  exact take_drop_isInfix ..

/-- What a frame shows lies inside its payload. -/
def Frame.Inside (payload : List UInt8) : Frame → Prop
  | .arp _ | .otherEthernet _ => True
  | .otherIpv4 ip | .unreachable ip _ => ip.payload <:+: payload
  | .echo ip e => ip.payload <:+: payload ∧ e.data <:+: ip.payload
  | .udp ip u => ip.payload <:+: payload ∧ u.payload <:+: ip.payload
  | .tcp ip t => ip.payload <:+: payload ∧ t.payload <:+: ip.payload

theorem sound_parseIcmp {ip : Ipv4} {payload : List UInt8} (h : ip.payload <:+: payload) :
    Sound (parseIcmp ip) (Frame.Inside payload) := by
  have hecho := sound_parseIcmpEcho ip.payload
  unfold parseIcmp
  split
  · next echo heq =>
    rw [heq] at hecho
    exact ⟨h, hecho⟩
  · exact (sound_parseIcmpUnreachable ip.payload).bind fun u _ => sound_pure h
  · next e _ heq =>
    rw [heq] at hecho
    cases e with
    | err e => trivial
    | outOfRange => exact hecho
    | overflow => exact hecho
    | noFuel => exact hecho

theorem sound_parseInner (eth : Ethernet) : Sound (parseInner eth) (Frame.Inside eth.payload) := by
  unfold parseInner
  split
  · exact (sound_parseArp _).bind fun arp _ => sound_pure trivial
  split
  · refine (sound_parseIpv4 _).bind fun ip hip => ?_
    split
    · exact sound_parseIcmp hip
    split
    · exact (sound_parseUdp ..).bind fun udp hudp => sound_pure ⟨hip, hudp⟩
    · split
      · exact (sound_parseTcp ..).bind fun tcp htcp => sound_pure ⟨hip, htcp⟩
      · exact sound_pure hip
  · exact sound_pure trivial

end Kintane.Wire
