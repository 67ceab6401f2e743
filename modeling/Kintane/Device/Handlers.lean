import Kintane.Device.Resource

/-!
# Phases of a device and its interrupt handlers

A device that was probed is bound, started or suspended, as the token that stands for it says, until it is
removed. Handlers are registered with any token, enabled and disabled with a started one. Nothing ties the
two machines together: stopping, suspending and removing a device do not look at the table, so a handler
runs for started devices only where each device is made quiet before it is stopped.
-/

open List

namespace Kintane.Device

open Slots

/-! ## The table -/

structure Handler where
  number : Nat
  owner : Owner
  /-- The function that runs, by its address. -/
  handler : Nat
  enabled : Bool
  deriving DecidableEq

inductive HandlerError where
  | notOwner
  | busy
  | notRegistered
  | stillEnabled
  | noRoom
  deriving DecidableEq

namespace Handlers

variable (t : Table Handler)

def register (owner : Bound) (line : IrqLine) (number handler : Nat) : Except HandlerError (Table Handler) :=
  if line.owner ≠ owner.owner then .error .notOwner
  else if (granted t).any (·.number = number) then .error .busy
  else
    match position t with
    | none => .error .noRoom
    | some slot => .ok (t.set slot (some { number, owner := owner.owner, handler, enabled := false }))

def slotOf (owner : Bound) (number : Nat) : Option Nat :=
  t.findIdx? (·.any fun h => h.number = number ∧ h.owner = owner.owner)

def setEnabled (owner : Bound) (number : Nat) (enabled : Bool) : Except HandlerError (Table Handler) :=
  match slotOf t owner number with
  | none => .error .notRegistered
  | some slot =>
    match t[slot]? with
    | some (some h) => .ok (t.set slot (some { h with enabled }))
    | _ => .error .notRegistered

def enable (started : Bound) (number : Nat) := setEnabled t started number true

def disable (started : Bound) (number : Nat) := setEnabled t started number false

def unregister (owner : Bound) (number : Nat) : Except HandlerError (Table Handler) :=
  match slotOf t owner number with
  | none => .error .notRegistered
  | some slot => if t[slot]?.join.any (·.enabled) then .error .stillEnabled else .ok (t.set slot none)

def lookup (number : Nat) : Option Nat :=
  ((granted t).find? fun h => h.number = number ∧ h.enabled).map (·.handler)

end Handlers

/-! ## Devices -/

inductive Phase where
  | bound
  | started
  | suspended
  deriving DecidableEq

/-- The ledger, the token of every device that is not removed, and the handlers. -/
structure Machine where
  world : World
  tokens : List (Bound × Phase)
  handlers : Table Handler

/-- What is done with tokens. Where a driver may fail, with what it answers. -/
inductive Op where
  | probe (node : NodeId) (driver : String) (requests : List Request) (ok : Bool)
  | start (device : Nat) (ok : Bool)
  | stop (device : Nat)
  | suspend (device : Nat) (ok : Bool)
  | resume (device : Nat) (ok : Bool)
  | remove (device : Nat)
  | register (device line number handler : Nat)
  | enable (device number : Nat)
  | disable (device number : Nat)
  | unregister (device number : Nat)

namespace Machine

variable (m : Machine)

def init (mmio irqs : Nat) (ports : Option Nat) (slots : Nat) : Machine where
  world := .init mmio irqs ports
  tokens := []
  handlers := List.replicate slots none

def probe (node : NodeId) (driver : String) (requests : List Request) (ok : Bool) : Machine :=
  { m with
    world := m.world.probe node driver requests ok
    tokens := if ok then m.tokens ++ [({ node, owner := m.world.res.begin.1, driver }, .bound)] else m.tokens }

/-- Something done with a token, which has to be of a phase that allows it. -/
def token (d : Nat) (may : Phase → Bool) (f : Bound → Machine) : Option Machine :=
  match m.tokens[d]? with
  | none => none
  | some (b, p) => if may p then some (f b) else none

/-- Where the driver fails, the token comes back. -/
def move (d : Nat) (src dst : Phase) (ok : Bool) : Option Machine :=
  m.token d (· = src) fun b => if ok then { m with tokens := m.tokens.set d (b, dst) } else m

def start (d : Nat) (ok : Bool) := m.move d .bound .started ok

def stop (d : Nat) := m.move d .started .bound true

def suspend (d : Nat) (ok : Bool) := m.move d .started .suspended ok

def resume (d : Nat) (ok : Bool) := m.move d .suspended .started ok

def remove (d : Nat) : Option Machine :=
  m.token d (· = .bound) fun b =>
    { m with world := m.world.remove (m.world.bound.idxOf b), tokens := m.tokens.eraseIdx d }

/-- An error leaves the table as it is. -/
def update : Except HandlerError (Table Handler) → Machine
  | .error _ => m
  | .ok handlers => { m with handlers }

def register (d line number handler : Nat) : Option Machine :=
  m.world.irqs[line]?.bind fun l =>
    m.token d (fun _ => true) fun b => m.update (Handlers.register m.handlers b l number handler)

def step : Op → Option Machine
  | .probe node driver requests ok => some (m.probe node driver requests ok)
  | .start d ok => m.start d ok
  | .stop d => m.stop d
  | .suspend d ok => m.suspend d ok
  | .resume d ok => m.resume d ok
  | .remove d => m.remove d
  | .register d line number handler => m.register d line number handler
  | .enable d number => m.token d (· = .started) fun b => m.update (Handlers.enable m.handlers b number)
  | .disable d number => m.token d (· = .started) fun b => m.update (Handlers.disable m.handlers b number)
  | .unregister d number => m.token d (fun _ => true) fun b => m.update (Handlers.unregister m.handlers b number)

/-- What steps that meet a condition lead to. -/
inductive Reaches (ok : Machine → Op → Prop) (start : Machine) : Machine → Prop where
  | start : Reaches ok start start
  | step {m m' : Machine} (before : Reaches ok start m) (op : Op) (hok : ok m op) (hs : m.step op = some m') :
      Reaches ok start m'

/-- Devices are told apart by their owners. A handler in the table is of one that is not removed, and of one
that is started where it is found. -/
structure Safe : Prop where
  distinct : (m.tokens.map (·.1.owner)).Nodup
  registered : ∀ a ∈ granted m.handlers, ∃ t ∈ m.tokens, t.1.owner = a.owner
  found : ∀ n f, Handlers.lookup m.handlers n = some f → ∃ a ∈ granted m.handlers, a.number = n ∧ a.handler = f ∧
    ∃ t ∈ m.tokens, t.1.owner = a.owner ∧ t.2 = .started

/-- The handlers of device `d` are `P`. -/
def Each (d : Nat) (P : Handler → Prop) : Prop :=
  ∀ t, m.tokens[d]? = some t → ∀ a ∈ granted m.handlers, a.owner = t.1.owner → P a

/-- A device is stopped and suspended with no handler enabled and removed with none registered, and none is
bound under the owner of another. -/
def Quiet : Op → Prop
  | .probe _ _ _ true => ∀ t ∈ m.tokens, t.1.owner ≠ m.world.res.begin.1
  | .stop d | .suspend d true => m.Each d fun a => a.enabled = false
  | .remove d => m.Each d fun _ => False
  | _ => True

/-! ## What quiet runs keep -/

/-- The device of a handler, started where the handler is enabled. -/
def Owned (tokens : List (Bound × Phase)) (a : Handler) : Prop :=
  ∃ t ∈ tokens, t.1.owner = a.owner ∧ (a.enabled = true → t.2 = .started)

structure Inv : Prop where
  distinct : (m.tokens.map (·.1.owner)).Nodup
  owned : ∀ a ∈ granted m.handlers, Owned m.tokens a

variable {m m' : Machine} {d : Nat} {b : Bound} {p : Phase}

theorem Inv.safe (h : m.Inv) : m.Safe := by
  refine ⟨h.distinct, fun a ha => ?_, fun n f hf => ?_⟩
  · obtain ⟨t, ht, ho, -⟩ := h.owned a ha
    exact ⟨t, ht, ho⟩
  · obtain ⟨a, ha, rfl⟩ := Option.map_eq_some_iff.mp hf
    have hp := find?_some ha
    rw [decide_eq_true_iff] at hp
    obtain ⟨hn, he⟩ := hp
    have ha := mem_of_find?_eq_some ha
    obtain ⟨t, ht, ho, hs⟩ := h.owned a ha
    exact ⟨a, ha, hn, rfl, t, ht, ho, hs he⟩

theorem Inv.probe (h : m.Inv) (node : NodeId) (driver : String) (requests : List Request) (ok : Bool)
    (hq : m.Quiet (.probe node driver requests ok)) : (m.probe node driver requests ok).Inv := by
  cases ok with
  | false => exact ⟨h.distinct, h.owned⟩
  | true =>
    constructor
    · show ((m.tokens ++ [_]).map _).Nodup
      rw [map_append]
      refine nodup_append.mpr ⟨h.distinct, by simp, fun x hx y hy => ?_⟩
      obtain ⟨t, ht, rfl⟩ := mem_map.mp hx
      rw [mem_singleton.mp hy]
      exact hq t ht
    · intro a ha
      obtain ⟨t, ht, hrest⟩ := h.owned a ha
      exact ⟨t, mem_append_left _ ht, hrest⟩

theorem of_token {may : Phase → Bool} {f : Bound → Machine} (hs : m.token d may f = some m') :
    ∃ b p, m.tokens[d]? = some (b, p) ∧ may p = true ∧ m' = f b := by
  unfold token at hs
  split at hs
  · cases hs
  · split at hs
    · cases hs
      exact ⟨_, _, ‹_›, ‹_›, rfl⟩
    · cases hs

/-- The tokens of other devices stay where one is replaced. -/
theorem Inv.other (h : m.Inv) (hd : m.tokens[d]? = some (b, p)) {a : Handler} (ha : a ∈ granted m.handlers)
    (hne : a.owner ≠ b.owner) : ∃ j t, j ≠ d ∧ m.tokens[j]? = some t ∧ t.1.owner = a.owner ∧
      (a.enabled = true → t.2 = .started) := by
  obtain ⟨t, ht, ho, hs⟩ := h.owned a ha
  obtain ⟨j, hj⟩ := mem_iff_getElem?.mp ht
  refine ⟨j, t, ?_, hj, ho, hs⟩
  rintro rfl
  cases hj.symm.trans hd
  exact hne ho.symm

/-- A device moves where its handlers let it. -/
theorem Inv.move (h : m.Inv) {src dst : Phase} {ok : Bool} (hs : m.move d src dst ok = some m')
    (hdst : ok = true → m.Each d fun a => a.enabled = true → dst = .started) : m'.Inv := by
  obtain ⟨b, p, hd, -, rfl⟩ := of_token hs
  cases ok with
  | false => exact h
  | true =>
    obtain ⟨hlt, hget⟩ := List.getElem?_eq_some_iff.mp hd
    constructor
    · have hsame : (m.tokens.set d (b, dst)).map (·.1.owner) = m.tokens.map (·.1.owner) := by
        refine ext_getElem (by simp) fun j _ _ => ?_
        rw [getElem_map, getElem_map, getElem_set]
        split <;> simp_all
      exact hsame ▸ h.distinct
    · intro a ha
      by_cases ho : a.owner = b.owner
      · exact ⟨(b, dst), mem_of_getElem? (getElem?_set_self hlt), ho.symm, hdst rfl _ hd a ha ho⟩
      · obtain ⟨j, t, hne, hj, hrest⟩ := h.other hd ha ho
        exact ⟨t, mem_of_getElem? ((getElem?_set_ne hne.symm).trans hj), hrest⟩

theorem Inv.remove (h : m.Inv) (hs : m.remove d = some m') (hq : m.Each d fun _ => False) : m'.Inv := by
  obtain ⟨b, p, hd, -, rfl⟩ := of_token hs
  refine ⟨h.distinct.sublist ((eraseIdx_sublist _ _).map _), fun a ha => ?_⟩
  obtain ⟨j, t, hne, hj, hrest⟩ := h.other hd ha (hq _ hd a ha)
  exact ⟨t, mem_eraseIdx_iff_getElem?.mpr ⟨j, hne, hj⟩, hrest⟩

/-- The table changes: a handler stays, or is one of this device. -/
theorem Inv.update (h : m.Inv) (hd : m.tokens[d]? = some (b, p)) {r : Except HandlerError (Table Handler)}
    (hr : ∀ t, r = .ok t → ∀ a ∈ granted t, a ∈ granted m.handlers ∨
      a.owner = b.owner ∧ (a.enabled = true → p = .started)) : (m.update r).Inv := by
  cases r with
  | error e => exact h
  | ok t =>
    refine ⟨h.distinct, fun a ha => ?_⟩
    rcases hr t rfl a ha with ha | ⟨ho, hp⟩
    · exact h.owned a ha
    · exact ⟨(b, p), mem_of_getElem? hd, ho.symm, hp⟩

section

variable {t t' : Table Handler} {a : Handler} {number : Nat}

theorem mem_of_set {slot : Nat} {v : Option Handler} (ha : a ∈ granted (t.set slot v)) : a ∈ granted t ∨ v = some a := by
  obtain ⟨i, hi⟩ := mem_granted.mp ha
  rcases of_set hi with ⟨-, he, -⟩ | ⟨-, hi⟩
  · exact .inr he.symm
  · exact .inl (mem_granted.mpr ⟨i, hi⟩)

theorem mem_register {line : IrqLine} {handler : Nat} (h : Handlers.register t b line number handler = .ok t')
    (ha : a ∈ granted t') : a ∈ granted t ∨ a.owner = b.owner ∧ a.enabled = false := by
  unfold Handlers.register at h
  split_ifs at h
  split at h
  · cases h
  cases h
  refine (mem_of_set ha).imp_right fun he => ?_
  cases he
  exact ⟨rfl, rfl⟩

theorem mem_setEnabled {v : Bool} (h : Handlers.setEnabled t b number v = .ok t') (ha : a ∈ granted t') :
    a ∈ granted t ∨ a.owner = b.owner := by
  unfold Handlers.setEnabled at h
  split at h
  · cases h
  rename_i slot hslot
  split at h
  · rename_i a' ha'
    cases h
    obtain ⟨hlt, hany, -⟩ := findIdx?_eq_some_iff_getElem.mp hslot
    rw [getElem?_eq_getElem hlt, Option.some.injEq] at ha'
    rw [ha'] at hany
    refine (mem_of_set ha).imp_right fun he => ?_
    cases he
    exact (of_decide_eq_true hany).2
  · cases h

theorem mem_unregister (h : Handlers.unregister t b number = .ok t') (ha : a ∈ granted t') : a ∈ granted t := by
  unfold Handlers.unregister at h
  split at h
  · cases h
  split_ifs at h
  cases h
  exact (mem_of_set ha).resolve_right (by simp)

end

theorem Inv.step (h : m.Inv) {op : Op} (hs : m.step op = some m') (hq : m.Quiet op) : m'.Inv := by
  cases op with
  | probe node driver requests ok =>
    cases hs
    exact h.probe node driver requests ok hq
  | start d ok | resume d ok => exact h.move hs fun _ _ _ _ _ _ _ => rfl
  | stop d => exact h.move hs fun _ t ht a ha ho => by simp [hq t ht a ha ho]
  | suspend d ok =>
    refine h.move hs fun hok t ht a ha ho => ?_
    subst hok
    simp [hq t ht a ha ho]
  | remove d => exact h.remove hs hq
  | register d line number handler =>
    obtain ⟨l, -, hs⟩ := Option.bind_eq_some_iff.mp hs
    obtain ⟨b, p, hd, -, rfl⟩ := of_token hs
    refine h.update hd fun t ht a ha => (mem_register ht ha).imp_right fun hnew => ?_
    exact ⟨hnew.1, by simp [hnew.2]⟩
  | enable d number | disable d number =>
    obtain ⟨b, p, hd, hp, rfl⟩ := of_token hs
    refine h.update hd fun t ht a ha => (mem_setEnabled ht ha).imp_right fun ho => ?_
    exact ⟨ho, fun _ => of_decide_eq_true hp⟩
  | unregister d number =>
    obtain ⟨b, p, hd, -, rfl⟩ := of_token hs
    exact h.update hd fun t ht a ha => .inl (mem_unregister ht ha)

end Machine

open Machine

/-- **Handlers run for started devices only**, in every run that is quiet. -/
theorem lookup_started (mmio irqs : Nat) (ports : Option Nat) (slots : Nat) {m : Machine}
    (hr : Reaches Quiet (init mmio irqs ports slots) m) : m.Safe := by
  suffices h : m.Inv from h.safe
  induction hr with
  | start => exact ⟨nodup_nil, fun a ha => by simp [init, granted] at ha⟩
  | step before op hok hs ih => exact ih.step hs hok

/-- A device that asks for a line, registers a handler for it and starts, and what stopping it then does. -/
theorem reaches_uart : ∃ m m', Reaches Quiet (init 0 1 none 1) m ∧ Handlers.lookup m.handlers 33 = some 7 ∧
    m.step (.stop 0) = some m' ∧ Handlers.lookup m'.handlers 33 = some 7 ∧ ∀ t ∈ m'.tokens, t.2 = .bound := by
  have hinit : Reaches Quiet (init 0 1 none 1) (init 0 1 none 1) := .start
  have hprobe := hinit.step (.probe 0 "uart" [.irq ⟨0, #v[0, 0, 0, 0], 1⟩] true) (by intro t ht; cases ht) rfl
  have hregister := hprobe.step (.register 0 0 33 7) trivial rfl
  have hstart := hregister.step (.start 0 true) trivial rfl
  have henable := hstart.step (.enable 0 33) trivial rfl
  exact ⟨_, _, henable, rfl, rfl, rfl, by decide⟩

theorem lookup_started_uart : ∃ m, Reaches Quiet (init 0 1 none 1) m ∧ Handlers.lookup m.handlers 33 = some 7 ∧
    m.Safe := by
  obtain ⟨m, _, hr, hfound, -⟩ := reaches_uart
  exact ⟨m, hr, hfound, lookup_started 0 1 none 1 hr⟩

/-- Stopped, the device still has its handler run. -/
theorem lookup_stopped : ∃ m m', Reaches Quiet (init 0 1 none 1) m ∧ m.step (.stop 0) = some m' ∧ ¬m'.Safe := by
  obtain ⟨m, m', hr, -, hstop, hfound, hbound⟩ := reaches_uart
  refine ⟨m, m', hr, hstop, fun hsafe => ?_⟩
  obtain ⟨_, -, -, -, t, ht, -, hstarted⟩ := hsafe.found 33 7 hfound
  cases (hbound t ht).symm.trans hstarted

end Kintane.Device
