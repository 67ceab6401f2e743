import Kintane.Net.Continues
import Kintane.Net.TcpRuns

/-!
# Whose connection `accept` returns

A listener is named by the slot it has, and its connections name it by that slot. The history
below remembers which connection of a slot is which, and for each connection that a SYN opened,
the SYN and the listener that received it.

Two uses of the calls are kept out by `Proper`: `shutdown` and `abort` of a listener do not reset
its connections, so a later listener in the slot would have them; and a SYN that waited while its
listener went away opens a connection of the listener that has the slot then.
-/

open List Function

namespace Kintane

open Tcp

namespace Tcp

/-- The SYN that a listener receives with a segment. -/
def synFor (s : Tcp) (src : Ipv4Addr) (seg : TcpSegment) : Option Syn :=
  if s.tcbs.any (belongs src seg) || !(seg.hasSyn && !seg.hasAck && !seg.hasRst) then none
  else
    (s.tcbs.findIdx? fun t => t.active && t.state = .listen && t.localPort = seg.dstPort).map
      (synOf · src seg)

/-- The slot that a call gives to a new connection or listener. -/
def fills (s : Tcp) : TcpOp → Option Nat
  | .connect p remoteIp remotePort now =>
    (s.connect p remoteIp remotePort now).2.2.toOption.map (·.index)
  | .listen port => (s.listen port).2.toOption.map (·.index)
  | .openPassive p syn now => s.opensAt p syn now
  | _ => none

/-- Only a slot without a listener is given up or filled. -/
theorem Opens.listener {s : Tcp} {fresh : Tcb → Prop} {filled : Option Nat} {tcbs : List Tcb} {i : Nat} {l : Tcb}
    (ho : s.Opens fresh filled tcbs) (hl : s.tcbs[i]? = some l) (ha : l.active = true) (hs : l.state = .listen) :
    tcbs[i]? = some l ∧ filled ≠ some i := by
  have hne {k : Nat} {u : Tcb} (hu : s.tcbs[k]? = some u) (hf : Free u) : k ≠ i := by
    rintro rfl
    cases hl.symm.trans hu
    rcases hf with hf | hf
    · cases ha.symm.trans hf
    · cases (evictable_state hf).symm.trans hs
  cases ho with
  | kept => exact ⟨hl, nofun⟩
  | evicted k u hu he => exact ⟨(getElem?_set_ne (hne hu (.inr he))).trans hl, nofun⟩
  | installed k u u0 hu hf _ =>
    exact ⟨(getElem?_set_ne (hne hu hf)).trans hl, fun he => hne hu hf (Option.some.inj he)⟩

end Tcp

/-- The stack, and where its connections came from. -/
structure TcpHistory where
  tcp : Tcp
  /-- How many connections each slot has had. -/
  serial : Nat → Nat
  /-- The SYN that opened the connection in a slot, with its listener's serial number. -/
  origin : Nat → Option (Syn × Nat)
  /-- Every SYN that a listener received, with the listener's serial number. -/
  received : List (Syn × Nat)
  /-- Every SYN that `take_syn` returned. -/
  taken : List Syn

namespace TcpHistory

def new : TcpHistory := ⟨.new, fun _ => 0, fun _ => none, [], []⟩

variable (h : TcpHistory) {t' t : Tcb} {s s' : Tcp} {i : Nat}

/-- Where a connection that a call makes comes from. -/
def cause : TcpOp → Option (Syn × Nat)
  | .openPassive _ syn _ => some (syn, h.serial syn.listener)
  | _ => none

/-- The serial numbers after a call that filled a slot, if it did. -/
def serialAfter : Option Nat → Nat → Nat
  | none => h.serial
  | some i => update h.serial i (h.serial i + 1)

def originAfter (cause : Option (Syn × Nat)) : Option Nat → Nat → Option (Syn × Nat)
  | none => h.origin
  | some i => update h.origin i cause

def step (op : TcpOp) : TcpHistory where
  tcp := h.tcp.step op
  serial := h.serialAfter (h.tcp.fills op)
  origin := h.originAfter (h.cause op) (h.tcp.fills op)
  received :=
    match op with
    | .input src seg _ _ =>
      ((h.tcp.synFor src seg).map fun syn => (syn, h.serial syn.listener)).toList ++ h.received
    | _ => h.received
  taken :=
    match op with
    | .takeSyn => h.tcp.takeSyn.1.toList ++ h.taken
    | _ => h.taken

/-- A SYN comes from `take_syn` only. -/
def Possible : TcpOp → Prop
  | .openPassive _ syn _ => syn ∈ h.taken
  | _ => True

/-- Every connection of the listener in slot `i` that nobody has accepted is closed. -/
def NoChild (tcp : Tcp) (i : Nat) : Prop :=
  ∀ (j : Nat) (t : Tcb), tcp.tcbs[j]? = some t → unaccepted i t = true → t.state = .closed

/-- A listener is shut down or aborted without connections only, and a SYN opens a connection for
the listener that received it. -/
def Proper : TcpOp → Prop
  | .shutdown c | .abort c => ∀ l, h.tcp.get c = some l → l.state = .listen → NoChild h.tcp c.index
  | .openPassive _ syn _ => (syn, h.serial syn.listener) ∈ h.received
  | _ => True

/-- The histories in which every call is possible and allowed. -/
inductive Reaches (allowed : TcpHistory → TcpOp → Prop) : TcpHistory → Prop where
  | new : Reaches allowed new
  | step {h : TcpHistory} {op : TcpOp} (hr : Reaches allowed h) (hp : h.Possible op)
      (ha : allowed h op) : Reaches allowed (h.step op)

/-! ## What is promised -/

/-- What `accept` returns was opened from a SYN for the listener's port, which that very listener
received. -/
def AcceptsOwn : Prop :=
  ∀ l c, (h.tcp.accept l).2 = .ok c → ∃ t syn, h.tcp.get l = some t ∧ t.state = .listen ∧
    h.origin c.index = some (syn, h.serial l.index) ∧ (syn, h.serial l.index) ∈ h.received ∧
    syn.listener = l.index ∧ syn.localPort = t.localPort

/-- A listener that goes away resets every connection it did not hand out, unless it was closed. -/
def ResetsChildren (op : TcpOp) : Prop :=
  ∀ (i : Nat) (l : Tcb), h.tcp.tcbs[i]? = some l → l.active = true → l.state = .listen →
    (∀ l', (h.step op).tcp.tcbs[i]? = some l' → ¬(l'.active = true ∧ l'.state = .listen)) →
    ∀ (j : Nat) (t : Tcb), h.tcp.tcbs[j]? = some t → unaccepted i t = true → t.state ≠ .closed →
      ∃ t', (h.step op).tcp.tcbs[j]? = some t' ∧ t'.state = .closed ∧ t'.rstNow = true

/-! ## Slots -/

/-- A connection that goes on: it is no listener's but the one it had, and a listener is left
alone. -/
structure Quiet (t t' : Tcb) : Prop where
  child : ∀ i, unaccepted i t' = true → unaccepted i t = true
  closed : t.state = .closed → t'.state = .closed
  listen : t'.state = .listen → t.state = .listen
  listener : t.state = .listen → t' = t

theorem Quiet.refl (t : Tcb) : Quiet t t := ⟨fun _ => id, id, id, fun _ => rfl⟩

theorem unaccepted_of_tag (h : t'.tag = t.tag) (i : Nat) : unaccepted i t' = unaccepted i t := by
  have h1 : t'.active = t.active := congrArg Tcb.Tag.active h
  have h2 : t'.parent = t.parent := congrArg Tcb.Tag.parent h
  have h3 : t'.accepted = t.accepted := congrArg Tcb.Tag.accepted h
  unfold unaccepted
  rw [h1, h2, h3]

theorem Quiet.of_continues (h : t.Continues t') (hl : t.state = .listen → t' = t) : Quiet t t' :=
  ⟨fun i hi => unaccepted_of_tag h.tag i ▸ hi, h.onward.closed, h.onward.listen, hl⟩

/-- The listener in slot `i` has left, and every connection that it had not handed out is closed,
those with a reset that were not closed before. -/
structure Left (s s' : Tcp) (i : Nat) (t t' : Tcb) : Prop where
  listen : t.state = .listen
  closed : t'.state = .closed
  noChild : NoChild s' i
  reset : ∀ (j : Nat) (u : Tcb), s.tcbs[j]? = some u → unaccepted i u = true →
    u.state ≠ .closed → ∃ u', s'.tcbs[j]? = some u' ∧ u'.state = .closed ∧ u'.rstNow = true

/-- No slot is filled. -/
structure Evolves (s s' : Tcp) : Prop where
  back : ∀ j t', s'.tcbs[j]? = some t' → ∃ t, s.tcbs[j]? = some t ∧ (Quiet t t' ∨ Left s s' j t t')
  length : s'.tcbs.length = s.tcbs.length

theorem Evolves.refl (h : s'.tcbs = s.tcbs) : Evolves s s' :=
  ⟨fun _ t ht => ⟨t, h ▸ ht, .inl (.refl t)⟩, h ▸ rfl⟩

theorem evolves_put (hs : s'.tcbs = s.tcbs.set i t')
    (hi : s.tcbs[i]? = some t) (h : Quiet t t' ∨ Left s s' i t t') : Evolves s s' := by
  refine ⟨fun j u hu => ?_, by rw [hs, length_set]⟩
  rw [hs] at hu
  rcases getElem?_put hu with ⟨rfl, rfl, -⟩ | ⟨-, hu⟩
  · exact ⟨t, hi, h⟩
  · exact ⟨u, hu, .inl (.refl u)⟩

/-- A listener stays, or it has left. -/
theorem Evolves.listener (he : Evolves s s') {l : Tcb} (hl : s.tcbs[i]? = some l) (hs : l.state = .listen) :
    s'.tcbs[i]? = some l ∨ ∃ l', Left s s' i l l' := by
  have hl' := getElem?_eq_getElem (he.length ▸ (List.getElem?_eq_some_iff.mp hl).1)
  obtain ⟨l0, hl0, hq | hq⟩ := he.back i _ hl'
  · cases hl.symm.trans hl0
    exact .inl (hq.listener hs ▸ hl')
  · cases hl.symm.trans hl0
    exact .inr ⟨_, hq⟩

theorem evolves_map (f : Tcb → Tcb) (hs : s'.tcbs = s.tcbs.map f)
    (h : ∀ t ∈ s.tcbs, Quiet t (f t)) : Evolves s s' := by
  refine ⟨fun j u hu => ?_, by rw [hs, length_map]⟩
  rw [hs, getElem?_map, Option.map_eq_some_iff] at hu
  obtain ⟨t, ht, rfl⟩ := hu
  exact ⟨t, ht, .inl (h t (mem_of_getElem? ht))⟩

/-! ## The invariant -/

/-- A listener's record is the one it was made with. -/
def Listener (t : Tcb) : Prop :=
  ∃ port generation, t = { Tcb.listening port with generation, active := true }

namespace Listener

variable (hl : Listener t)

include hl

theorem active : t.active = true := by
  obtain ⟨_, _, rfl⟩ := hl
  rfl

theorem not_unaccepted (i : Nat) : unaccepted i t = false := by
  obtain ⟨_, _, rfl⟩ := hl
  rfl

theorem send (ring data : List UInt8) : (t.send ring data).1 = t := by
  obtain ⟨_, _, rfl⟩ := hl
  rfl

theorem recv (ring : List UInt8) (size : Nat) : (t.recv ring size).1 = t := by
  obtain ⟨_, _, rfl⟩ := hl
  unfold Tcb.recv
  rw [show (TcpRing.len _) = 0 from rfl, Nat.min_zero]
  split <;> rfl

theorem timers (now : Nat) : t.timers now = t := by
  obtain ⟨_, _, rfl⟩ := hl
  rfl

theorem nextSegment (now : Nat) : (t.nextSegment now).1 = t := by
  obtain ⟨_, _, rfl⟩ := hl
  rfl

end Listener

/-- There is a listener in slot `i`, and it received the SYN that a connection comes from. -/
def Child (i : Nat) (origin : Option (Syn × Nat)) : Prop :=
  ∃ l syn, h.tcp.tcbs[i]? = some l ∧ l.state = .listen ∧ origin = some (syn, h.serial i) ∧
    (syn, h.serial i) ∈ h.received ∧ syn.listener = i ∧ syn.localPort = l.localPort

theorem Child.mono {h h' : TcpHistory} {origin : Option (Syn × Nat)} (hc : h.Child i origin)
    (hkeep : ∀ l, h.tcp.tcbs[i]? = some l → l.state = .listen →
      h'.tcp.tcbs[i]? = some l ∧ h'.serial i = h.serial i)
    (hrecv : ∀ r ∈ h.received, r ∈ h'.received) : h'.Child i origin := by
  obtain ⟨l, syn, hl, hs, ho, hr, hrest⟩ := hc
  obtain ⟨hl', hserial⟩ := hkeep l hl hs
  rw [← hserial] at ho hr
  exact ⟨l, syn, hl', hs, ho, hrecv _ hr, hrest⟩

/-- Every connection that is not closed and that nobody has accepted has its listener, which
received the SYN it was opened from. -/
structure Inv (h : TcpHistory) : Prop where
  listener : ∀ t ∈ h.tcp.tcbs, t.state = .listen → Listener t
  child : ∀ i j t, h.tcp.tcbs[j]? = some t → unaccepted i t = true → t.state ≠ .closed →
    h.Child i (h.origin j)

theorem inv_new : Inv new := by
  have hs : ∀ t ∈ new.tcp.tcbs, t = .empty := fun t ht => eq_of_mem_replicate ht
  constructor
  · intro t ht hl
    rw [hs t ht] at hl
    cases hl
  · intro i j t ht hu
    rw [hs t (mem_of_getElem? ht)] at hu
    cases hu

namespace Inv

variable {h} {h' : TcpHistory} {c : Conn} {op : TcpOp}

/-- A call that fills no slot. -/
theorem evolves (hi : Inv h) (he : Evolves h.tcp h'.tcp)
    (hserial : h'.serial = h.serial) (horigin : h'.origin = h.origin)
    (hrecv : ∀ r ∈ h.received, r ∈ h'.received) : Inv h' := by
  constructor
  · intro t' ht' hl
    obtain ⟨j, hj⟩ := mem_iff_getElem?.mp ht'
    obtain ⟨t, ht, hq | hq⟩ := he.back j t' hj
    · have hl' := hq.listen hl
      rw [hq.listener hl']
      exact hi.listener t (mem_of_getElem? ht) hl'
    · exact absurd (hq.closed.symm.trans hl) nofun
  · intro i j t' hj hu hc
    obtain ⟨t, ht, hq | hq⟩ := he.back j t' hj
    · have hchild := hi.child i j t ht (hq.child i hu) fun hc' => hc (hq.closed hc')
      rw [horigin]
      -- The listener is still there, or this connection would be closed.
      refine hchild.mono (fun l hl hs => ⟨?_, congrFun hserial i⟩) hrecv
      exact (he.listener hl hs).resolve_right fun ⟨_, hq'⟩ => hc (hq'.noChild j t' hj hu)
    · exact absurd hq.closed hc

/-- The connections that a call makes: new listeners, and children of listeners that received a SYN. -/
structure Fresh (h : TcpHistory) (cause : Option (Syn × Nat)) (fresh : Tcb → Prop) : Prop where
  listen : ∀ t, fresh t → t.state = .listen → ∃ port, t = .listening port
  child : ∀ t, fresh t → ∀ i, t.parent = some i → h.Child i cause

/-- A call that gives up or fills a slot. -/
theorem opens (hi : Inv h) {fresh : Tcb → Prop} {filled : Option Nat}
    {cause : Option (Syn × Nat)} (ho : h.tcp.Opens fresh filled h'.tcp.tcbs) (hf : Fresh h cause fresh)
    (hserial : h'.serial = h.serialAfter filled)
    (horigin : h'.origin = h.originAfter cause filled)
    (hrecv : h'.received = h.received) : Inv h' := by
  generalize htcbs : h'.tcp.tcbs = tcbs at ho
  have hkeep {k : Nat} {o : Option (Syn × Nat)} (hc : h.Child k o) : h'.Child k o := by
    refine hc.mono (fun l hl hs => ?_) fun _ => hrecv ▸ id
    obtain ⟨hl', hne⟩ := ho.listener hl (hi.listener l (mem_of_getElem? hl) hs).active hs
    refine ⟨htcbs ▸ hl', hserial ▸ ?_⟩
    cases filled with
    | none => rfl
    | some i => exact update_of_ne (fun he => hne (congrArg some he.symm)) _ _
  cases ho with
  | kept => exact hi.evolves (.refl htcbs) hserial horigin fun _ => hrecv ▸ id
  | evicted i t ht he =>
    have hst := evictable_state he
    have hq : Quiet t { t with active := false } :=
      ⟨fun _ hu => absurd hu nofun, id, id, fun hl => absurd (hst.symm.trans hl) nofun⟩
    exact hi.evolves (evolves_put htcbs ht (.inl hq)) hserial horigin fun _ => hrecv ▸ id
  | installed i t t0 ht hfree h0 =>
    have hget {j : Nat} {u : Tcb} (hj : h'.tcp.tcbs[j]? = some u) :
        (i = j ∧ u = { t0 with generation := (t.generation + 1) % 2 ^ 32, active := true }) ∨
          (i ≠ j ∧ h.tcp.tcbs[j]? = some u) := by
      rw [htcbs] at hj
      rcases getElem?_put hj with ⟨h1, h2, -⟩ | h2
      · exact .inl ⟨h1, h2⟩
      · exact .inr h2
    constructor
    · intro u hu hl
      obtain ⟨j, hj⟩ := mem_iff_getElem?.mp hu
      rcases hget hj with ⟨-, rfl⟩ | ⟨-, hj⟩
      · obtain ⟨port, rfl⟩ := hf.listen t0 h0 hl
        exact ⟨port, _, rfl⟩
      · exact hi.listener u (mem_of_getElem? hj) hl
    · intro k j u hj hu hc
      rw [horigin]
      rcases hget hj with ⟨rfl, rfl⟩ | ⟨hne, hj⟩
      · simp only [unaccepted, Bool.and_eq_true, decide_eq_true_eq] at hu
        rw [show h.originAfter cause (some i) i = cause from update_self ..]
        exact hkeep (hf.child t0 h0 k hu.1.2)
      · rw [show h.originAfter cause (some i) j = h.origin j from update_of_ne hne.symm ..]
        exact hkeep (hi.child k j u hj hu hc)

/-! ## Calls that fill no slot -/

theorem quiet (hi : Inv h) (ht : t ∈ h.tcp.tcbs) (hc : t.Continues t') (hl : Listener t → t' = t) : Quiet t t' :=
  .of_continues hc fun hs => hl (hi.listener t ht hs)

theorem evolves_send (hi : Inv h) (p : Pool) (c : Conn) (data : List UInt8) :
    Evolves h.tcp (h.tcp.send p c data).1 := by
  rcases send_cases (s := h.tcp) p c data with hs | ⟨t, ring, hg, hs⟩
  · exact .refl hs
  · obtain ⟨ht, -, -⟩ := get_eq_some hg
    exact evolves_put hs ht (.inl (hi.quiet (mem_of_getElem? ht) (t.continues_send ring data)
      fun hl => hl.send ring data))

theorem evolves_recv (hi : Inv h) (p : Pool) (c : Conn) (size : Nat) :
    Evolves h.tcp (h.tcp.recv p c size).1 := by
  rcases recv_cases (s := h.tcp) p c size with hs | ⟨t, ring, hg, hs⟩
  · exact .refl hs
  · obtain ⟨ht, -, -⟩ := get_eq_some hg
    exact evolves_put hs ht (.inl (hi.quiet (mem_of_getElem? ht) (t.continues_recv ring size)
      fun hl => hl.recv ring size))

theorem evolves_accept (l : Conn) : Evolves h.tcp (h.tcp.accept l).1 := by
  rcases accept_cases (s := h.tcp) l with ⟨hs, -⟩ | ⟨i, t, lt, -, -, ht, -, hsync, hs⟩
  · exact .refl (congrArg tcbs hs)
  rw [hs]
  refine evolves_put rfl ht (.inl ⟨fun i hu => ?_, id, id, fun hl => ?_⟩)
  · simp [unaccepted] at hu
  · rw [hl] at hsync
    cases hsync

theorem evolves_nextSegment (hi : Inv h) (i now : Nat) : Evolves h.tcp (h.tcp.nextSegment i now).1 := by
  rcases nextSegment_cases (s := h.tcp) i now with ⟨hs, -⟩ | ⟨t, ht, -, hs⟩
  · exact .refl (congrArg tcbs hs)
  · rw [hs]
    exact evolves_put rfl ht (.inl (hi.quiet (mem_of_getElem? ht)
      (t.continues_nextSegment now) fun hl => hl.nextSegment now))

theorem evolves_timers (hi : Inv h) (now : Nat) : Evolves h.tcp (h.tcp.timers now) := by
  refine evolves_map _ rfl fun t ht => ?_
  split
  · exact hi.quiet ht (t.continues_timers now) fun hl => hl.timers now
  · exact .refl t

theorem evolves_input (src : Ipv4Addr) (seg : TcpSegment) (start now : Nat) :
    Evolves h.tcp (h.tcp.input src seg start now).1 := by
  rcases input_cases (s := h.tcp) src seg start now with hs | ⟨i, t, -, ht, hb, hs⟩
  · exact .refl hs
  · refine evolves_put hs ht (.inl (.of_continues (t.continues_segment now seg start) fun hl => ?_))
    simp [belongs, hl] at hb

theorem quiet_reapOne (p : Pool) (t : Tcb) : Quiet t (reapOne p t).1 := by
  unfold reapOne
  split
  · rename_i ho
    simp only [finished, Bool.and_eq_true, Bool.or_eq_true, decide_eq_true_eq] at ho
    refine ⟨fun i hu => ?_, id, id, fun hs => ?_⟩
    · simp only [unaccepted, Bool.and_eq_true] at hu ⊢
      exact ⟨⟨ho.1.1.1, hu.1.2⟩, hu.2⟩
    · rcases ho.1.2 with hc | hc <;> exact absurd (hs.symm.trans hc) nofun
  · exact .refl t

theorem evolves_reap (p : Pool) : Evolves h.tcp (h.tcp.reap p).1 := by
  refine ⟨fun j t' hj => ?_, length_reapAll p _⟩
  obtain ⟨t, q, ht, rfl⟩ := reapAll_getElem? p _ hj
  exact ⟨t, ht, .inl (quiet_reapOne q t)⟩

/-- A connection is shut; a listener only without connections. -/
theorem evolves_shut (hg : s.get c = some t) (hc : t.Continues t')
    (hclosed : t.state = .listen → t'.state = .closed) (hno : t.state = .listen → NoChild s c.index) :
    Evolves s (s.put c.index t') := by
  obtain ⟨ht, -, -⟩ := get_eq_some hg
  refine evolves_put rfl ht ?_
  by_cases hs : t.state = .listen
  · refine .inr ⟨hs, hclosed hs, fun j u hu hun => ?_, fun j u hu hun hne => absurd (hno hs j u hu hun) hne⟩
    rcases getElem?_put hu with ⟨-, rfl, -⟩ | ⟨-, hu⟩
    · exact hclosed hs
    · exact hno hs j u hu hun
  · exact .inl (.of_continues hc fun hl => absurd hl hs)

theorem evolves_shutdown (ha : h.Proper (.shutdown c)) : Evolves h.tcp (h.tcp.shutdown c).1 := by
  unfold shutdown
  split
  · exact .refl rfl
  rename_i t hg
  refine evolves_shut hg t.shuts_shutdown.continues (fun hs => ?_) (ha t hg)
  unfold Tcb.shutdown
  rw [hs]
  rfl

theorem evolves_abort (ha : h.Proper (.abort c)) : Evolves h.tcp (h.tcp.abort c).1 := by
  unfold abort
  split
  · exact .refl rfl
  · next t hg => exact evolves_shut hg t.shuts_abort.continues (fun _ => rfl) (ha t hg)

/-- A slot after a listener was closed. -/
theorem closed_slot {j : Nat} {u' : Tcb} (hu : ((s.resetChildren i).put i t').tcbs[j]? = some u') :
    (i = j ∧ u' = t') ∨ ∃ u, s.tcbs[j]? = some u ∧
      u' = if unaccepted i u then resetChild u else u := by
  rcases getElem?_put hu with ⟨h1, h2, -⟩ | ⟨-, hu'⟩
  · exact .inl ⟨h1, h2⟩
  · rw [resetChildren, getElem?_map, Option.map_eq_some_iff] at hu'
    obtain ⟨u, hu, he⟩ := hu'
    exact .inr ⟨u, hu, he.symm⟩

theorem left_close (ht : s.tcbs[i]? = some t) (hs : t.state = .listen)
    (hl : Listener t) : Left s ((s.resetChildren i).put i t.closeOwn) i t t.closeOwn := by
  have hclosed : t.closeOwn.state = .closed := by
    obtain ⟨_, _, rfl⟩ := hl
    rfl
  refine ⟨hs, hclosed, fun j u' hu' hun => ?_, fun j u hu hun hne => ?_⟩
  · rcases closed_slot hu' with ⟨-, rfl⟩ | ⟨u, -, rfl⟩
    · exact hclosed
    split at hun
    · rw [if_pos ‹_›]
      rfl
    · exact absurd hun ‹_›
  · have hj : i ≠ j := by
      rintro rfl
      cases ht.symm.trans hu
      rw [hl.not_unaccepted] at hun
      cases hun
    refine ⟨resetChild u, ?_, rfl, decide_eq_true hne⟩
    change (List.set _ _ _)[j]? = _
    rw [getElem?_set_ne hj, resetChildren, getElem?_map, hu, Option.map_some, if_pos hun]

theorem evolves_close (hi : Inv h) (c : Conn) : Evolves h.tcp (h.tcp.close c).1 := by
  unfold close
  split
  · exact .refl rfl
  rename_i t hg
  obtain ⟨ht, hact, hgen⟩ := get_eq_some hg
  dsimp only
  by_cases hs : t.state = .listen
  · rw [if_pos hs]
    have hl := hi.listener t (mem_of_getElem? ht) hs
    -- The listener is none of its own connections, so it is found again.
    have hmap : (h.tcp.resetChildren c.index).tcbs[c.index]? = some t := by
      rw [resetChildren, getElem?_map, ht, Option.map_some, hl.not_unaccepted]
      rfl
    have hg' : (h.tcp.resetChildren c.index).get c = some t := by
      refine Option.filter_eq_some_iff.mpr ⟨hmap, ?_⟩
      rw [hact, hgen]
      simp
    rw [hg']
    refine ⟨fun j u' hu' => ?_, ?_⟩
    · rcases closed_slot hu' with ⟨rfl, rfl⟩ | ⟨u, hu, rfl⟩
      · exact ⟨t, ht, .inr (left_close ht hs hl)⟩
      refine ⟨u, hu, .inl ?_⟩
      split
      · rename_i hun
        refine .of_continues (.closed rfl rfl) fun hl' => ?_
        rw [(hi.listener u (mem_of_getElem? hu) hl').not_unaccepted] at hun
        cases hun
      · exact .refl u
    · change (List.set _ _ _).length = _
      rw [length_set, resetChildren, length_map]
  · rw [if_neg hs, hg]
    exact evolves_shut hg t.shuts_closeOwn.continues (absurd · hs) (absurd · hs)

/-! ## Every call -/

/-- A call fills no slot, or gives up or fills one. -/
theorem step_cases (hi : Inv h) (ha : h.Proper op) :
    (h.tcp.fills op = none ∧ Evolves h.tcp (h.step op).tcp) ∨
      ((h.step op).received = h.received ∧ ∃ fresh, h.tcp.Opens fresh (h.tcp.fills op) (h.step op).tcp.tcbs ∧
        Fresh h (h.cause op) fresh) := by
  cases op with
  | connect p remoteIp remotePort now =>
    refine .inr ⟨rfl, _, opens_connect p remoteIp remotePort now, ⟨?_, ?_⟩⟩
    · rintro t ⟨port, iss, rx, tx, rfl⟩ hs
      cases hs
    · rintro t ⟨port, iss, rx, tx, rfl⟩ i hp
      cases hp
  | listen port =>
    refine .inr ⟨rfl, _, opens_listen port, ⟨?_, ?_⟩⟩
    · rintro t rfl -
      exact ⟨port, rfl⟩
    · rintro t rfl i hp
      cases hp
  | openPassive p syn now =>
    refine .inr ⟨rfl, _, opens_openPassive p syn now, ⟨?_, ?_⟩⟩
    · rintro t ⟨-, iss, rx, tx, rfl⟩ hs
      cases hs
    · rintro t ⟨⟨l, hl, -, hs, hport⟩, iss, rx, tx, rfl⟩ i hp
      cases hp
      exact ⟨l, syn, hl, hs, rfl, ha, rfl, hport.symm⟩
  | accept l => exact .inl ⟨rfl, evolves_accept l⟩
  | send p c data => exact .inl ⟨rfl, hi.evolves_send p c data⟩
  | recv p c size => exact .inl ⟨rfl, hi.evolves_recv p c size⟩
  | shutdown c => exact .inl ⟨rfl, evolves_shutdown ha⟩
  | close c => exact .inl ⟨rfl, hi.evolves_close c⟩
  | abort c => exact .inl ⟨rfl, evolves_abort ha⟩
  | reap p => exact .inl ⟨rfl, evolves_reap p⟩
  | timers now => exact .inl ⟨rfl, hi.evolves_timers now⟩
  | input src seg start now => exact .inl ⟨rfl, evolves_input src seg start now⟩
  | takeReset => exact .inl ⟨rfl, .refl rfl⟩
  | takeSyn => exact .inl ⟨rfl, .refl rfl⟩
  | nextSegment i now => exact .inl ⟨rfl, hi.evolves_nextSegment i now⟩

theorem step (hi : Inv h) (ha : h.Proper op) : Inv (h.step op) := by
  rcases hi.step_cases ha with ⟨hf, he⟩ | ⟨hr, fresh, ho, hf⟩
  · refine hi.evolves he ?_ ?_ fun r hr => ?_
    · exact congrArg h.serialAfter hf
    · exact congrArg (h.originAfter _) hf
    · cases op <;> first | exact hr | exact mem_append_right _ hr
  · exact hi.opens ho hf rfl rfl hr

theorem acceptsOwn (hi : Inv h) : h.AcceptsOwn := by
  intro l c hc
  rcases accept_cases (s := h.tcp) l with ⟨-, hno⟩ | ⟨i, t, lt, hl, hs, ht, hu, hsync, he⟩
  · exact absurd hc (hno c)
  rw [he] at hc
  cases hc
  have hne : t.state ≠ .closed := by
    intro hc
    rw [hc] at hsync
    cases hsync
  obtain ⟨l', syn, hl', -, ho, hr, h1, h2⟩ := hi.child l.index i t ht hu hne
  rw [(get_eq_some hl).1] at hl'
  cases hl'
  exact ⟨lt, syn, hl, hs, ho, hr, h1, h2⟩

theorem resetsChildren (hi : Inv h) (ha : h.Proper op) : h.ResetsChildren op := by
  intro i l hl hact hs hgone j t ht hun hne
  rcases hi.step_cases ha with ⟨-, he⟩ | ⟨-, fresh, ho, -⟩
  · rcases he.listener hl hs with hl' | ⟨_, hq⟩
    · exact absurd ⟨hact, hs⟩ (hgone l hl')
    · exact hq.reset j t ht hun hne
  · exact absurd ⟨hact, hs⟩ (hgone l (ho.listener hl hact hs).1)

end Inv

theorem Reaches.inv {h : TcpHistory} (hr : Reaches Proper h) : Inv h := by
  induction hr with
  | new => exact inv_new
  | step _ _ ha ih => exact ih.step ha

end TcpHistory

/-- As long as listeners are shut down without connections only, and SYNs open connections for the
listener that received them, `accept` returns a listener's own connections, and a listener that
goes away resets those that it did not hand out. -/
theorem accept_own {h : TcpHistory} (hr : TcpHistory.Reaches TcpHistory.Proper h) :
    h.AcceptsOwn ∧ ∀ op, h.Proper op → h.ResetsChildren op :=
  ⟨hr.inv.acceptsOwn, fun _ ha => hr.inv.resetsChildren ha⟩

namespace TcpHistory

/-- A segment for port 80 without payload: a SYN, or an acknowledgement. -/
def plainSegment (syn : Bool) (seq ack : Seq) : TcpSegment :=
  ⟨7, 80, seq, ack, syn, false, false, !syn, 1000, none, false, [], [], TcpSegment.empty_lt⟩

/-- The SYN that a listener in slot 0 receives. -/
def plainSyn : Syn := synOf 0 1 (plainSegment true 9 0)

/-- Port 80 is listened on, and a SYN waits. -/
def waiting : TcpHistory :=
  ((new.step (.listen 80)).step (.input 1 (plainSegment true 9 0) 54 0)).step .takeSyn

/-- The SYN's connection is made, and its peer acknowledges. -/
def connected : TcpHistory :=
  ((waiting.step (.openPassive .new plainSyn 0)).step (.nextSegment 1 0)).step
    (.input 1 (plainSegment false 10 (iss 0 80 7 + 1)) 54 0)

/-- Nothing else in the run asks for anything. -/
theorem connected_reached {allowed : TcpHistory → TcpOp → Prop}
    (hopen : allowed waiting (.openPassive .new plainSyn 0))
    (hrest : ∀ h, allowed h (.listen 80) ∧ allowed h .takeSyn ∧ allowed h (.nextSegment 1 0) ∧
      ∀ seg, allowed h (.input 1 seg 54 0)) : Reaches allowed connected := by
  refine .step (.step (.step ?_ (show plainSyn ∈ waiting.taken by decide +kernel) hopen) trivial (hrest _).2.2.1) trivial
    ((hrest _).2.2.2 _)
  exact .step (.step (.step .new trivial (hrest _).1) trivial ((hrest _).2.2.2 _)) trivial
    (hrest _).2.1

/-- The listener on port 80 is shut down and closed, and port 81 listened on in its slot. -/
def replaced : TcpHistory :=
  (((connected.step (.shutdown ⟨0, 1⟩)).step (.close ⟨0, 1⟩)).step (.reap .new)).step (.listen 81)

end TcpHistory

/-- The peer's connection is accepted. -/
theorem accept_own_connected :
    (TcpHistory.connected.tcp.accept ⟨0, 1⟩).2 = .ok ⟨1, 1⟩ ∧ TcpHistory.connected.AcceptsOwn ∧
      TcpHistory.connected.ResetsChildren (.close ⟨0, 1⟩) := by
  have hproper : TcpHistory.waiting.Proper (.openPassive .new TcpHistory.plainSyn 0) :=
    show (_, _) ∈ TcpHistory.waiting.received by decide +kernel
  obtain ⟨h1, h2⟩ := accept_own (TcpHistory.connected_reached hproper
    fun _ => ⟨trivial, trivial, trivial, fun _ => trivial⟩)
  exact ⟨by decide +kernel, h1, h2 _ trivial⟩

/-- The listener on port 81 accepts the connection to port 80. -/
theorem accept_own_fails : ∃ h, TcpHistory.Reaches (fun _ _ => True) h ∧ ¬h.AcceptsOwn := by
  refine ⟨TcpHistory.replaced, ?_, fun ha => ?_⟩
  · have hr : TcpHistory.Reaches (fun _ _ => True) TcpHistory.connected :=
      TcpHistory.connected_reached trivial fun _ => ⟨trivial, trivial, trivial, fun _ => trivial⟩
    exact .step (.step (.step (.step hr trivial trivial) trivial trivial) trivial trivial) trivial trivial
  · obtain ⟨t, syn, -, -, ho, -⟩ := ha ⟨0, 2⟩ ⟨1, 1⟩ (by decide +kernel)
    have hn : (TcpHistory.replaced.origin 1).map (·.2) ≠ some (TcpHistory.replaced.serial 0) := by
      decide +kernel
    exact hn (by rw [show TcpHistory.replaced.origin 1 = _ from ho]; rfl)

end Kintane
