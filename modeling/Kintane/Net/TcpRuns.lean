import Kintane.Lib.Slots
import Kintane.Net.Tcp

/-!
# Runs of the table of connections

The calls of programs and of the stack as steps, each with the pool it is given, and what a call
that makes a connection does to the slots.
-/

open List

namespace Kintane

inductive TcpOp where
  | connect (p : Pool) (remoteIp : Ipv4Addr) (remotePort now : Nat)
  | listen (port : Nat)
  | accept (listener : Conn)
  | send (p : Pool) (c : Conn) (data : List UInt8)
  | recv (p : Pool) (c : Conn) (size : Nat)
  | shutdown (c : Conn)
  | close (c : Conn)
  | abort (c : Conn)
  | reap (p : Pool)
  | timers (now : Nat)
  | input (src : Ipv4Addr) (seg : TcpSegment) (start now : Nat)
  | takeReset
  | takeSyn
  | openPassive (p : Pool) (syn : Syn) (now : Nat)
  | nextSegment (i now : Nat)

namespace Tcp

variable (s : Tcp) {t t' : Tcb} {i j : Nat}

def step : TcpOp → Tcp
  | .connect p remoteIp remotePort now => (s.connect p remoteIp remotePort now).1
  | .listen port => (s.listen port).1
  | .accept listener => (s.accept listener).1
  | .send p c data => (s.send p c data).1
  | .recv p c size => (s.recv p c size).1
  | .shutdown c => (s.shutdown c).1
  | .close c => (s.close c).1
  | .abort c => (s.abort c).1
  | .reap p => (s.reap p).1
  | .timers now => s.timers now
  | .input src seg start now => (s.input src seg start now).1
  | .takeReset => s.takeReset.2
  | .takeSyn => s.takeSyn.2
  | .openPassive p syn now => (s.openPassive p syn now).1
  | .nextSegment i now => (s.nextSegment i now).1

/-! ## Slots -/

variable {s}

theorem get_eq_some {c : Conn} (h : s.get c = some t) :
    s.tcbs[c.index]? = some t ∧ t.active = true ∧ t.generation = c.generation := by
  obtain ⟨h1, h2⟩ := Option.filter_eq_some_iff.mp h
  rw [Bool.and_eq_true, decide_eq_true_eq] at h2
  exact ⟨h1, h2⟩

/-- What is in a slot after another or the same was filled. -/
theorem getElem?_put {u : Tcb} (h : (s.put i t').tcbs[j]? = some u) :
    (i = j ∧ u = t' ∧ i < s.tcbs.length) ∨ (i ≠ j ∧ s.tcbs[j]? = some u) :=
  Slots.of_set h

/-- A slot that a new connection may have. -/
def Free (t : Tcb) : Prop := t.active = false ∨ evictable t = true

theorem evictable_state (h : evictable t = true) : t.state = .timeWait := by
  simp only [evictable, Bool.and_eq_true, decide_eq_true_eq] at h
  exact h.1.1.1

theorem nearestEnd_eq_some {tcbs : List Tcb} {least : Nat} (h : nearestEnd tcbs = some (i, least)) :
    ∃ t, tcbs[i]? = some t ∧ evictable t = true := by
  -- The invariant of the loop: what it found so far may be given up.
  refine List.foldlRecOn (motive := fun best => ∀ b, best = some b → ∃ t, tcbs[b.1]? = some t ∧ evictable t = true)
    _ _ (by simp) (fun best hb p hp b he => ?_) _ h
  have hp := mk_mem_zipIdx_iff_getElem?.mp hp
  dsimp only at he
  split at he
  · rename_i hev
    split at he
    · cases he
      exact ⟨p.1, hp, hev⟩
    split at he
    · cases he
      exact ⟨p.1, hp, hev⟩
    · cases he
      exact hb _ rfl
  · exact hb b he

/-- `slot` finds a slot that is free, or gives one up. -/
inductive SlotCases (s : Tcp) : Option Nat × Tcp → Prop where
  | full : SlotCases s (none, s)
  | free (i : Nat) (t : Tcb) (hi : s.tcbs[i]? = some t) (h : t.active = false) : SlotCases s (some i, s)
  | evicted (i : Nat) (t : Tcb) (hi : s.tcbs[i]? = some t) (h : evictable t = true) :
      SlotCases s (some i, s.put i { t with active := false })

theorem slot_cases : SlotCases s s.slot := by
  unfold slot
  split
  · rename_i i hi
    obtain ⟨hlt, hp, -⟩ := findIdx?_eq_some_iff_getElem.mp hi
    exact .free i _ (getElem?_eq_getElem hlt) (by simpa using hp)
  split
  · exact .full
  rename_i i least hn
  obtain ⟨t, ht, he⟩ := nearestEnd_eq_some hn
  have hm : s.tcbs.modify i (fun t => { t with active := false }) =
      s.tcbs.set i { t with active := false } := by
    refine ext_getElem? fun j => ?_
    rw [getElem?_modify, getElem?_set]
    split
    · rename_i hj
      subst hj
      rw [ht, if_pos (List.getElem?_eq_some_iff.mp ht).1]
      rfl
    · cases s.tcbs[j]? <;> rfl
  rw [hm]
  exact .evicted i t ht he

/-- A call that may make a connection: it leaves the slots alone, gives one up, or fills one. -/
inductive Opens (s : Tcp) (fresh : Tcb → Prop) : Option Nat → List Tcb → Prop where
  | kept : Opens s fresh none s.tcbs
  | evicted (i : Nat) (t : Tcb) (hi : s.tcbs[i]? = some t) (h : evictable t = true) :
      Opens s fresh none (s.tcbs.set i { t with active := false })
  | installed (i : Nat) (t t0 : Tcb) (hi : s.tcbs[i]? = some t) (h : Free t) (h0 : fresh t0) :
      Opens s fresh (some i)
        (s.tcbs.set i { t0 with generation := (t.generation + 1) % 2 ^ 32, active := true })

/-- The call ended after `slot`. -/
theorem SlotCases.opens {r : Option Nat × Tcp} (h : SlotCases s r) (fresh : Tcb → Prop) {tcp : Tcp}
    (ht : tcp.tcbs = r.2.tcbs) : s.Opens fresh none tcp.tcbs := by
  rw [ht]
  cases h with
  | full => exact .kept
  | free i t hi h => exact .kept
  | evicted i t hi h => exact .evicted i t hi h

/-- The call filled the slot. -/
theorem SlotCases.installed {s1 s2 : Tcp} (h : SlotCases s (some i, s1))
    (ht : s2.tcbs = s1.tcbs) {fresh : Tcb → Prop} {t0 : Tcb} (h0 : fresh t0) :
    s.Opens fresh (some (s2.install i t0).1.index) (s2.install i t0).2.tcbs := by
  unfold install put
  rw [ht]
  cases h with
  | free _ t hi h =>
    rw [hi]
    exact .installed i t t0 hi (.inl h) h0
  | evicted _ t hi h =>
    have hlt : i < s.tcbs.length := (List.getElem?_eq_some_iff.mp hi).1
    change s.Opens fresh _ ((s.tcbs.set i { t with active := false }).set i _)
    rw [set_set, show (s.put i { t with active := false }).tcbs[i]? = _ from getElem?_set_self hlt]
    exact .installed i t t0 hi (.inr h) h0

theorem opens_connect (p : Pool) (remoteIp : Ipv4Addr) (remotePort now : Nat) :
    s.Opens (fun t => ∃ port iss rx tx, t = .connecting port remoteIp remotePort iss rx tx)
      ((s.connect p remoteIp remotePort now).2.2.toOption.map (·.index))
      (s.connect p remoteIp remotePort now).1.tcbs := by
  have hs := slot_cases (s := s)
  unfold connect
  split
  · rename_i he
    rw [he] at hs
    exact hs.opens _ rfl
  rename_i i s1 he
  rw [he] at hs
  have he2 : (s1.ephemeral now).2.tcbs = s1.tcbs := rfl
  split
  · rename_i s2 hp
    rw [hp] at he2
    exact hs.opens _ he2
  · rename_i port s2 hp
    rw [hp] at he2
    split
    · exact hs.opens _ he2
    · exact hs.installed he2 ⟨_, _, _, _, rfl⟩

theorem opens_listen (port : Nat) :
    s.Opens (· = .listening port) ((s.listen port).2.toOption.map (·.index)) (s.listen port).1.tcbs := by
  have hs := slot_cases (s := s)
  unfold listen
  split
  · exact .kept
  split
  · rename_i he
    rw [he] at hs
    exact hs.opens _ rfl
  · rename_i i s1 he
    rw [he] at hs
    exact hs.installed rfl rfl

/-- The listener that a SYN waits for. -/
def IsListening (s : Tcp) (syn : Syn) : Prop :=
  ∃ t, s.tcbs[syn.listener]? = some t ∧ t.active = true ∧ t.state = .listen ∧ t.localPort = syn.localPort

/-- The slot that `open_passive` fills, if it does. -/
def opensAt (s : Tcp) (p : Pool) (syn : Syn) (now : Nat) : Option Nat :=
  if (s.openPassive p syn now).2.2 then s.slot.1 else none

theorem opens_openPassive (p : Pool) (syn : Syn) (now : Nat) :
    s.Opens (fun t => s.IsListening syn ∧ ∃ iss rx tx, t = .opened syn iss rx tx)
      (s.opensAt p syn now) (s.openPassive p syn now).1.tcbs := by
  have hs := slot_cases (s := s)
  unfold opensAt openPassive
  dsimp only
  split
  · exact .kept
  rename_i hl
  rw [Bool.or_eq_true, not_or, Bool.not_eq_true', Bool.not_eq_false] at hl
  have hlist : s.IsListening syn := by
    cases ht : s.tcbs[syn.listener]? with
    | none =>
      rw [ht] at hl
      exact absurd hl.1 nofun
    | some t =>
      rw [ht, Option.any_some, Bool.and_eq_true, Bool.and_eq_true, decide_eq_true_eq, decide_eq_true_eq] at hl
      exact ⟨t, ht, hl.1.1.1, hl.1.1.2, hl.1.2⟩
  split
  · rename_i he
    rw [he] at hs
    exact hs.opens _ rfl
  · rename_i i s1 he
    rw [he] at hs ⊢
    split
    · exact hs.opens _ rfl
    · exact hs.installed rfl ⟨hlist, _, _, _, rfl⟩

/-! ## Calls that change one slot -/

theorem send_cases (p : Pool) (c : Conn) (data : List UInt8) :
    (s.send p c data).1.tcbs = s.tcbs ∨ ∃ t ring, s.get c = some t ∧
      (s.send p c data).1.tcbs = s.tcbs.set c.index (t.send ring data).1 := by
  unfold send
  split
  · exact .inl rfl
  rename_i t ht
  split
  · exact .inr ⟨t, _, ht, rfl⟩
  · split <;> exact .inl rfl

theorem recv_cases (p : Pool) (c : Conn) (size : Nat) :
    (s.recv p c size).1.tcbs = s.tcbs ∨ ∃ t ring, s.get c = some t ∧
      (s.recv p c size).1.tcbs = s.tcbs.set c.index (t.recv ring size).1 := by
  unfold recv
  split
  · exact .inl rfl
  rename_i t ht
  split
  · exact .inr ⟨t, _, ht, rfl⟩
  · split <;> exact .inl rfl

/-- What `accept` returns is a connection of the listener, and changes hands. -/
theorem accept_cases (l : Conn) : ((s.accept l).1 = s ∧ ∀ c, (s.accept l).2 ≠ .ok c) ∨
      ∃ (i : Nat) (t lt : Tcb), s.get l = some lt ∧ lt.state = .listen ∧ s.tcbs[i]? = some t ∧
        unaccepted l.index t = true ∧ t.state.synchronized = true ∧
        s.accept l = (s.put i { t with accepted := true, parent := none }, .ok ⟨i, t.generation⟩) := by
  unfold accept
  split
  · exact .inl ⟨rfl, nofun⟩
  rename_i lt hl
  split
  · exact .inl ⟨rfl, nofun⟩
  rename_i hs
  rw [not_not] at hs
  split
  · exact .inl ⟨rfl, nofun⟩
  rename_i i hf
  obtain ⟨hlt, hp, -⟩ := findIdx?_eq_some_iff_getElem.mp hf
  rw [Bool.and_eq_true] at hp
  have ht := getElem?_eq_getElem hlt
  rw [ht]
  exact .inr ⟨i, _, lt, hl, hs, ht, hp.1, hp.2, rfl⟩

theorem nextSegment_cases (i now : Nat) :
    ((s.nextSegment i now).1 = s ∧ ∀ t, s.tcbs[i]? = some t → t.active = false) ∨
      ∃ t, s.tcbs[i]? = some t ∧ t.active = true ∧
        s.nextSegment i now = (s.put i (t.nextSegment now).1, (t.nextSegment now).2) := by
  unfold nextSegment
  split
  · rename_i hf
    refine .inl ⟨rfl, fun t ht => ?_⟩
    rw [ht, Option.filter_some] at hf
    split at hf
    · cases hf
    · exact Bool.eq_false_iff.mpr ‹_›
  · rename_i t hf
    obtain ⟨ht, ha⟩ := Option.filter_eq_some_iff.mp hf
    exact .inr ⟨t, ht, ha, rfl⟩

theorem queueReset_tcbs (src : Ipv4Addr) (seg : TcpSegment) : (s.queueReset src seg).tcbs = s.tcbs := by
  unfold queueReset
  split <;> rfl

theorem input_cases (src : Ipv4Addr) (seg : TcpSegment) (start now : Nat) :
    (s.input src seg start now).1.tcbs = s.tcbs ∨
      ∃ i t, s.tcbs.findIdx? (belongs src seg) = some i ∧ s.tcbs[i]? = some t ∧
        belongs src seg t = true ∧
        (s.input src seg start now).1.tcbs = s.tcbs.set i (t.segment seg start now).1 := by
  unfold input
  split
  · refine .inl ?_
    unfold unmatched
    split
    · exact queueReset_tcbs src seg
    dsimp only
    split
    · split <;> rfl
    · exact queueReset_tcbs src seg
  · rename_i i hf
    obtain ⟨hlt, hp, -⟩ := findIdx?_eq_some_iff_getElem.mp hf
    have ht := getElem?_eq_getElem hlt
    rw [ht]
    refine .inr ⟨i, _, hf, ht, hp, ?_⟩
    dsimp only
    split
    · exact queueReset_tcbs src seg
    · rfl

/-! ## Reaping -/

theorem reapAll_getElem? (p : Pool) (ts : List Tcb)
    (h : (reapAll p ts).1[j]? = some t') : ∃ t q, ts[j]? = some t ∧ t' = (reapOne q t).1 := by
  induction ts generalizing p j with
  | nil => cases h
  | cons t ts ih =>
    cases j with
    | zero =>
      cases h
      exact ⟨t, p, rfl, rfl⟩
    | succ j => exact ih _ h

theorem length_reapAll (p : Pool) (ts : List Tcb) : (reapAll p ts).1.length = ts.length := by
  induction ts generalizing p with
  | nil => rfl
  | cons t ts ih => exact congrArg (· + 1) (ih _)

end Tcp

end Kintane
