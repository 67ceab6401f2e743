import Kintane.Lib.Ring
import Kintane.Lib.Tally
import Kintane.Wait.Queue

/-!
# What a blocked thread relies on

A thread that has registered and looked at a member, and found it not ready, relies on whatever makes the
member ready later to wake it. The invariant says that it can: as long as such a member is ready, and the
thread is on its way to block or blocked, the operation that made the member ready has not yet passed the
thread's slot. Every step keeps this but one: a change that no wake of the same operation follows.
-/

open List

namespace Kintane.Wait

open Tally World Slot Option

variable {σ μ : Type} {m : μ} {due : Bool} {ready : σ → μ → Bool} {s : Nat}

/-- The slot a thread is registered in. -/
def Place.slot : Place → Option Nat
  | .second s _ => some s
  | .blocking s => some s
  | .blocked s => some s
  | .leaving s _ => some s
  | _ => none

/-- Whether a program is sure to wake the queue. -/
def Prog.Wakes : Prog σ → Prop
  | .done => False
  | .act _ rest => ∀ s, (rest s).Wakes
  | .wake _ _ => True

/-- An operation that holds the queue's lock. -/
def Op.Inside : Op σ → Prop
  | .scanning _ _ => True
  | .waking _ _ _ => True
  | _ => False

/-- An operation that is yet to wake the thread in a slot. -/
def Op.Pending (s : Nat) : Op σ → Prop
  | .run p => p.Wakes
  | .locking _ => True
  | .scanning pos rest => pos ≤ s ∨ rest.Wakes
  | .waking pos _ rest => pos ≤ s ∨ rest.Wakes

/-- What is left of an operation. -/
def Op.prog : Op σ → Prog σ
  | .run p => p
  | .locking rest => rest
  | .scanning _ rest => rest
  | .waking _ _ rest => rest

def Op.Finished : Op σ → Prop
  | .run .done => True
  | _ => False

theorem Op.Pending.not_finished {op : Op σ} (h : op.Pending s) : ¬op.Finished := by
  intro hf
  unfold Op.Finished at hf
  split at hf
  · exact h
  · exact hf

/-- A member the thread has found not ready since it registered, and on which it now blocks or may. -/
def Waiter.Relies (x : Waiter μ) (s : Nat) (woken : Bool) (m : μ) : Prop :=
  match x.place with
  | .second s' n => s' = s ∧ woken = false ∧ m ∈ x.set.take n
  | .blocking s' => s' = s ∧ woken = false ∧ m ∈ x.set
  | .blocked s' => s' = s ∧ m ∈ x.set
  | _ => False

variable {Allowed : World σ μ → Action σ μ → Prop}

theorem Waiter.Relies.slot {x : Waiter μ} {woken : Bool} (h : x.Relies s woken m) :
    x.place.slot = some s := by
  unfold Waiter.Relies at h
  split at h
  case h_4 => exact h.elim
  all_goals
    rename_i hp
    rw [hp]
    exact congrArg some h.1

/-- The thread in a slot relies on a member. -/
def World.Relied (w : World σ μ) (s : Nat) (m : μ) : Prop :=
  ∃ (t : Nat) (x : Waiter μ) (k : Slot), w.threads[t]? = some x ∧ w.slots[s]? = some k ∧ x.Relies s k.woken m

/-- A change makes ready nothing that a thread relies on, or the same operation wakes the queue after it. -/
def World.Covers (ready : σ → μ → Bool) (w : World σ μ) (f : σ → σ) (rest : Prog σ) : Prop :=
  ∀ s m, w.Relied s m → ready w.state m = false → ready (f w.state) m = true → rest.Wakes

def Slot.used (k : Slot) : Nat := if k.thread.isSome then 1 else 0

/-- Waking touches nothing but a thread. -/
theorem wakeBlocked_eq (w : World σ μ) (t : Nat) : ∃ threads, w.wakeBlocked t = { w with threads } := by
  unfold wakeBlocked
  split
  · exact ⟨_, rfl⟩
  · split <;> exact ⟨_, rfl⟩

/-- The slot that a thread has. -/
def World.seat (w : World σ μ) (t : Nat) : Option Nat := (w.threads[t]?).bind (·.place.slot)

/-- The thread that a slot has. -/
def World.tenant (w : World σ μ) (s : Nat) : Option Nat := (w.slots[s]?).bind (·.thread)

/-- What holds of a program also holds of what is left of it. -/
structure Prog.Closed (P : Prog σ → Prop) : Prop where
  act : ∀ {f rest}, P (.act f rest) → ∀ s, P (rest s)
  wake : ∀ {skip rest}, P (.wake skip rest) → P rest

/-- `P` is kept of what is left of each operation. -/
structure Inv (ready : σ → μ → Bool) (P : Prog σ → Prop) (w : World σ μ) : Prop where
  seats : ∀ t s : Nat, w.seat t = some s ↔ w.tenant s = some t
  counted : w.registered = total used w.slots
  inside : ∀ (j : Nat) (op : Op σ), w.ops[j]? = some op → op.Inside → w.holder = some j
  waking : ∀ (j pos t : Nat) (rest : Prog σ), w.ops[j]? = some (.waking pos t rest) →
    w.slots[pos]? = some { thread := some t, woken := true }
  covered : ∀ s m, w.Relied s m → ready w.state m = true → ∃ op, w.ops[w.cause m]? = some op ∧ op.Pending s
  progs : ∀ op ∈ w.ops, P op.prog

variable {P : Prog σ → Prop} {w w' : World σ μ}

namespace Inv

variable {t j s i n pos : Nat} {x x' : Waiter μ} {op op' : Op σ} {rest : Prog σ} {α β : Type} {k : Slot}

theorem init (state : σ) (n : Nat) : Inv ready P (World.init (μ := μ) state n) := by
  have hidle : ∀ (t : Nat) (x : Waiter μ), (World.init (μ := μ) state n).threads[t]? = some x → x.place = .idle := by
    intro t x hx
    rw [(mem_replicate.mp (mem_of_getElem? hx)).2]
  exact {
    seats := fun t s => iff_of_false
      (fun ht => by
        obtain ⟨x, hx, hs⟩ := bind_eq_some_iff.mp ht
        rw [hidle t x hx] at hs
        cases hs)
      fun hs => by
        obtain ⟨k, hk, ht⟩ := bind_eq_some_iff.mp hs
        rw [(mem_replicate.mp (mem_of_getElem? hk)).2] at ht
        cases ht
    counted := rfl
    inside := fun j op hj => (nomatch hj)
    waking := fun j pos t rest hj => (nomatch hj)
    covered := fun s m ⟨t, x, k, hx, _, hr⟩ => by
      have := hr.slot
      rw [hidle t x hx] at this
      cases this
    progs := nofun }

theorem holds (h : Inv ready P w) (t : Nat) (x : Waiter μ) (s : Nat) (ht : w.threads[t]? = some x)
    (hs : x.place.slot = some s) : ∃ k, w.slots[s]? = some k ∧ k.thread = some t :=
  bind_eq_some_iff.mp ((h.seats t s).mp (bind_eq_some_iff.mpr ⟨x, ht, hs⟩))

/-- While somebody is registered, `has_waiters` says so. -/
theorem registered_pos (h : Inv ready P w) (ht : w.threads[t]? = some x) (hs : x.place.slot = some s) :
    w.registered ≠ 0 := by
  obtain ⟨k, hk, hkt⟩ := h.holds t x s ht hs
  have hset := total_set used hk { k with thread := none }
  have hused : k.used = 1 := by unfold used; rw [hkt]; rfl
  have hfree : used { k with thread := none } = 0 := rfl
  rw [h.counted]
  omega

variable {a b : α} {l : List α}

theorem getElem?_set_of_some (h : l[i]? = some a) : (l.set i b)[n]? = if n = i then some b else l[n]? := by
  obtain ⟨hlt, -⟩ := List.getElem?_eq_some_iff.mp h
  rw [getElem?_set]
  by_cases hn : n = i
  · subst hn
    rw [if_pos rfl, if_pos rfl, if_pos hlt]
  · rw [if_neg (Ne.symm hn), if_neg hn]

theorem bind_set_of_some (h : l[i]? = some a) (g : α → Option β) :
    ((l.set i b)[n]?).bind g = if n = i then g b else (l[n]?).bind g := by
  rw [getElem?_set_of_some h]
  split <;> rfl

theorem bind_set_same (h : l[i]? = some a) {g : α → Option β}
    (hg : g b = g a) : ((l.set i b)[n]?).bind g = (l[n]?).bind g := by
  rw [bind_set_of_some h]
  split
  · next hn => rw [hn, h, hg]; rfl
  · rfl

section

variable (h : Inv ready P w)

include h

/-- A thread moves on and keeps its slot, or has none. -/
theorem setThread (ht : w.threads[t]? = some x) (hslot : x'.place.slot = x.place.slot)
    (hrel : ∀ (s : Nat) (k : Slot) (m : μ), w.slots[s]? = some k → x'.Relies s k.woken m → ready w.state m = true →
      x.Relies s k.woken m) : Inv ready P { w with threads := w.threads.set t x' } := by
  have hthreads (n : Nat) : (w.threads.set t x')[n]? = if n = t then some x' else w.threads[n]? :=
    getElem?_set_of_some ht
  refine { h with seats := ?seats, covered := ?covered }
  case seats =>
    intro t1 s1
    have hat := h.seats t1 s1
    unfold seat at hat ⊢
    rw [bind_set_same ht hslot]
    exact hat
  case covered =>
    rintro s1 m ⟨t1, x1, k, h1, hk, hr⟩ hready
    refine h.covered s1 m ?_ hready
    rw [hthreads] at h1
    split at h1
    · cases h1
      exact ⟨t, x, k, ht, hk, hrel s1 k m hk hr hready⟩
    · exact ⟨t1, x1, k, h1, hk, hr⟩

/-- An operation moves on, and what it was yet to wake it still is. -/
theorem setOp (hj : w.ops[j]? = some op) (hprog : P op.prog → P op'.prog) (hin : op'.Inside → w.holder = some j)
    (hwaking : ∀ pos t rest, op' = .waking pos t rest → w.slots[pos]? = some { thread := some t, woken := true })
    (hpend : ∀ s m, w.Relied s m → op.Pending s → op'.Pending s) : Inv ready P (w.setOp j op') := by
  have hops (n : Nat) : (w.ops.set j op')[n]? = if n = j then some op' else w.ops[n]? := getElem?_set_of_some hj
  refine { h with
    inside := ?inside, waking := ?waking, covered := ?covered
    progs := Ring.forall_mem_set h.progs (hprog (h.progs op (mem_of_getElem? hj))) j }
  case inside =>
    intro n o hn ho
    change (w.ops.set j op')[n]? = some o at hn
    rw [hops] at hn
    split at hn
    · next heq =>
      cases hn
      exact heq ▸ hin ho
    · exact h.inside n o hn ho
  case waking =>
    intro n pos t rest hn
    change (w.ops.set j op')[n]? = some _ at hn
    rw [hops] at hn
    split at hn
    · exact hwaking pos t rest (some.inj hn)
    · exact h.waking n pos t rest hn
  case covered =>
    intro s m hr hready
    obtain ⟨o, ho, hp⟩ := h.covered s m hr hready
    show ∃ o, (w.ops.set j op')[w.cause m]? = some o ∧ o.Pending s
    rw [hops]
    split
    · next heq =>
      rw [heq] at ho
      cases hj.symm.trans ho
      exact ⟨op', rfl, hpend s m hr hp⟩
    · exact ⟨o, ho, hp⟩

/-- A thread takes a slot or gives one back, with the queue's lock free. -/
theorem setSlot {k' : Slot} (hfree : w.holder = none) (ht : w.threads[t]? = some x) (hk : w.slots[s]? = some k)
    (hold : (k.thread = none ∧ x.place.slot = none) ∨ (k.thread = some t ∧ x.place.slot = some s))
    (hnew : (k'.thread = none ∧ x'.place.slot = none) ∨ (k'.thread = some t ∧ x'.place.slot = some s))
    (hrel : ∀ s woken m, ¬x'.Relies s woken m) (hn : n + k.used = w.registered + k'.used) :
    Inv ready P { w with slots := w.slots.set s k', registered := n, threads := w.threads.set t x' } := by
  have hthreads (i : Nat) : (w.threads.set t x')[i]? = if i = t then some x' else w.threads[i]? :=
    getElem?_set_of_some ht
  have hslots (i : Nat) : (w.slots.set s k')[i]? = if i = s then some k' else w.slots[i]? :=
    getElem?_set_of_some hk
  -- Another thread's slot is another one.
  have hother {t1 s1 : Nat} {x1 : Waiter μ} (hne : t1 ≠ t) (h1 : w.threads[t1]? = some x1)
      (hs1 : x1.place.slot = some s1) : s1 ≠ s := by
    rintro rfl
    obtain ⟨k1, hk1, hkt1⟩ := h.holds t1 x1 s1 h1 hs1
    cases hk.symm.trans hk1
    rcases hold with ⟨hnone, -⟩ | ⟨hsome, -⟩
    · cases hnone.symm.trans hkt1
    · exact hne (some.inj (hkt1.symm.trans hsome))
  constructor
  case seats =>
    intro t1 s1
    have hat := h.seats t1 s1
    have hx : w.seat t = x.place.slot := by rw [seat, ht]; rfl
    have hk' : w.tenant s = k.thread := by rw [tenant, hk]; rfl
    have ht' := h.seats t s1
    have hs' := h.seats t1 s
    unfold seat tenant at *
    rw [bind_set_of_some ht, bind_set_of_some hk]
    grind
  case counted =>
    have hset := total_set used hk k'
    have := h.counted
    show n = total used (w.slots.set s k')
    omega
  case inside => exact h.inside
  case progs => exact h.progs
  case waking =>
    intro i pos t1 rest hi
    have := h.inside i _ hi trivial
    cases hfree.symm.trans this
  case covered =>
    rintro s1 m ⟨t1, x1, k1, h1, hk1, hr⟩ hready
    rw [hthreads] at h1
    rw [hslots] at hk1
    split at h1
    · cases h1
      exact (hrel s1 k1.woken m hr).elim
    · next hne =>
      rw [if_neg (hother hne h1 hr.slot)] at hk1
      exact h.covered s1 m ⟨t1, x1, k1, h1, hk1, hr⟩ hready

/-! ## Steps of threads -/

theorem register (ht : w.threads[t]? = some x) (hp : x.place = .registering)
    (hfree : w.holder = none) : Inv ready P (w.register t x) := by
  have hslot : x.place.slot = none := by rw [hp]; rfl
  unfold World.register
  split
  · exact h.setThread ht hslot.symm fun s k m _ hr => hr.elim
  rename_i s hs
  obtain ⟨hlt, hnone, -⟩ := findIdx?_eq_some_iff_getElem.mp hs
  have hk := getElem?_eq_getElem hlt
  have hthread := eq_of_beq hnone
  refine h.setSlot hfree ht hk (.inl ⟨hthread, hslot⟩) (.inr ⟨rfl, rfl⟩) ?_ ?_
  · intro s woken m hr
    exact not_mem_nil hr.2.2
  · have hused : used (w.slots.get ⟨s, hlt⟩) = 0 := by unfold used; rw [get_eq_getElem, hthread]; rfl
    show w.registered + 1 + used (w.slots.get ⟨s, hlt⟩) = w.registered + 1
    omega

theorem release {found : Bool} (ht : w.threads[t]? = some x) (hp : x.place = .leaving s found)
    (hfree : w.holder = none) : Inv ready P (w.release t x s found) := by
  have hslot : x.place.slot = some s := by rw [hp]; rfl
  obtain ⟨k, hk, hkt⟩ := h.holds t x s ht hslot
  have hmodify : w.slots.modify s ({ · with thread := none }) = w.slots.set s { k with thread := none } := by
    rw [modify_eq_set_getElem?, hk]
    rfl
  unfold World.release World.move
  rw [hmodify]
  have hpos := h.registered_pos ht hslot
  refine h.setSlot hfree ht hk (.inr ⟨hkt, hslot⟩) (.inl ⟨rfl, ?_⟩) ?_ ?_
  · cases found <;> rfl
  · intro s woken m hr
    cases found <;> exact hr.elim
  · have hused : k.used = 1 := by unfold used; rw [hkt]; rfl
    have hnew : used { k with thread := none } = 0 := rfl
    show w.registered - 1 + k.used = w.registered + used { k with thread := none }
    omega

theorem advanceThread (hs : w.advanceThread ready t due = some w') : Inv ready P w' := by
  unfold World.advanceThread at hs
  split at hs
  · cases hs
  rename_i x ht
  -- Places without a slot rely on nothing.
  have hnone {p : Place} (hx : x.place.slot = none) (hp : p.slot = none) : Inv ready P (w.move t x p) := by
    refine h.setThread ht (hp.trans hx.symm) fun s k m _ hr _ => ?_
    have := hr.slot
    rw [show ({ x with place := p } : Waiter μ).place.slot = none from hp] at this
    cases this
  have hleave {s : Nat} {found : Bool} (hx : x.place.slot = some s) : Inv ready P (w.move t x (.leaving s found)) :=
    h.setThread ht hx.symm fun s k m _ hr => hr.elim
  split at hs
  · cases hs
  · next n hp =>
    have hslot : x.place.slot = none := by rw [hp]; rfl
    split at hs
    · cases hs
      split <;> exact hnone hslot rfl
    · exact some.inj hs ▸ hnone hslot rfl
  · next hp =>
    split at hs
    · next hfree => exact some.inj hs ▸ h.register ht hp hfree
    · cases hs
  · next s n hp =>
    have hslot : x.place.slot = some s := by rw [hp]; rfl
    split at hs
    · next m hm =>
      cases hs
      split
      · exact hleave hslot
      rename_i hready
      -- The member just looked at is not ready, so nothing more is relied on that is.
      refine h.setThread ht hslot.symm fun s' k m' hk hr hready' => ?_
      obtain ⟨rfl, hwoken, hmem⟩ := hr
      unfold Waiter.Relies
      rw [hp]
      refine ⟨rfl, hwoken, ?_⟩
      rw [take_add_one, hm] at hmem
      rcases mem_append.mp hmem with hmem | hmem
      · exact hmem
      · obtain rfl := mem_singleton.mp hmem
        exact absurd hready' hready
    · next hm =>
      cases hs
      refine h.setThread ht hslot.symm fun s' k m' hk hr _ => ?_
      obtain ⟨rfl, hwoken, hmem⟩ := hr
      unfold Waiter.Relies
      rw [hp]
      exact ⟨rfl, hwoken, by rwa [take_of_length_le (getElem?_eq_none_iff.mp hm)]⟩
  · next s hp =>
    have hslot : x.place.slot = some s := by rw [hp]; rfl
    cases hs
    split
    · exact hleave hslot
    rename_i hwoken
    refine h.setThread ht hslot.symm fun s' k m' hk hr _ => ?_
    obtain ⟨rfl, hmem⟩ := hr
    unfold Waiter.Relies
    rw [hp]
    refine ⟨rfl, ?_, hmem⟩
    by_contra hk'
    refine hwoken (.inl ?_)
    unfold World.woken
    rw [hk]
    simpa using hk'
  · next s hp =>
    split at hs
    · exact some.inj hs ▸ hleave (by rw [hp]; rfl)
    · cases hs
  · next s found hp =>
    split at hs
    · next hfree => exact some.inj hs ▸ h.release ht hp hfree
    · cases hs
  · next n hp =>
    have hslot : x.place.slot = none := by rw [hp]; rfl
    split at hs <;> cases hs <;> split <;> exact hnone hslot rfl
  · next hp => exact some.inj hs ▸ hnone (by rw [hp]; rfl) rfl

/-! ## Steps of operations -/

theorem wakeBlocked (t : Nat) : Inv ready P (w.wakeBlocked t) := by
  unfold World.wakeBlocked
  split
  · exact h
  rename_i x ht
  split
  · next s hp => exact h.setThread ht (by rw [hp]; rfl) fun s k m _ hr => hr.elim
  · exact h

end

/-- A thread that has been woken is not blocked. -/
theorem not_blocked_wakeBlocked (w : World σ μ) (t : Nat) (hx : (w.wakeBlocked t).threads[t]? = some x) (s : Nat) :
    x.place ≠ .blocked s := by
  intro hb
  unfold World.wakeBlocked at hx
  split at hx
  · next hnone => cases hnone.symm.trans hx
  rename_i y hy
  split at hx
  · have : (w.threads.set t _)[t]? = some x := hx
    rw [getElem?_set_of_some hy, if_pos rfl] at this
    cases this
    cases hb
  · next hne =>
    cases hy.symm.trans hx
    exact hne s hb

variable (h : Inv ready P w)

include h

/-- The lock is taken. -/
theorem lock (hj : w.ops[j]? = some (.locking rest)) (hfree : w.holder = none) :
    Inv ready P ({ w with holder := some j }.setOp j (.scanning 0 rest)) := by
  have hlocked : Inv ready P { w with holder := some j } :=
    { h with
      inside := fun i op hi hin => by
        have := h.inside i op hi hin
        rw [hfree] at this
        cases this }
  exact hlocked.setOp hj id (fun _ => rfl) nofun fun s _ _ _ => .inl (Nat.zero_le s)

/-- The lock is given back past the last slot. -/
theorem unlock (hj : w.ops[j]? = some (.scanning pos rest))
    (hpos : w.slots[pos]? = none) : Inv ready P ({ w with holder := none }.setOp j (.run rest)) := by
  have hmoved : Inv ready P (w.setOp j (.run rest)) := by
    refine h.setOp hj id (fun hin => hin.elim) nofun fun s m ⟨_, _, k, _, hk, _⟩ hp => ?_
    refine hp.resolve_left fun hle => ?_
    have := (List.getElem?_eq_some_iff.mp hk).1
    have := getElem?_eq_none_iff.mp hpos
    omega
  refine { hmoved with inside := fun i op hi hin => ?_ }
  -- No other operation is inside: it would hold the lock too.
  have hops : (w.ops.set j (.run rest))[i]? = some op := hi
  rw [getElem?_set_of_some hj] at hops
  split at hops
  · cases hops
    exact hin.elim
  rename_i hne
  have h1 := h.inside i op hops hin
  have h2 := h.inside j _ hj trivial
  exact absurd (some.inj (h1.symm.trans h2)) hne

/-- A slot's flag is set. -/
theorem flag (hj : w.ops[j]? = some (.scanning pos rest)) (hk : w.slots[pos]? = some k) (hkt : k.thread = some t) :
    Inv ready P ({ w with slots := w.slots.set pos { k with woken := true } }.setOp j (.waking pos t rest)) := by
  have hslots (i : Nat) : (w.slots.set pos { k with woken := true })[i]? =
      if i = pos then some { k with woken := true } else w.slots[i]? := getElem?_set_of_some hk
  have hflag : Inv ready P { w with slots := w.slots.set pos { k with woken := true } } := by
    constructor
    case seats =>
      intro t1 s1
      have hat := h.seats t1 s1
      unfold tenant at hat ⊢
      rw [bind_set_same (b := { k with woken := true }) hk rfl]
      exact hat
    case counted =>
      have hset := total_set used hk { k with woken := true }
      have hsame : used { k with woken := true } = k.used := rfl
      have := h.counted
      show w.registered = total used (w.slots.set pos { k with woken := true })
      omega
    case inside => exact h.inside
    case progs => exact h.progs
    case waking =>
      intro i pos' t' rest' hi
      have := h.waking i pos' t' rest' hi
      rw [hslots]
      split
      · next heq =>
        subst heq
        cases hk.symm.trans this
        rfl
      · exact this
    case covered =>
      rintro s1 m ⟨t1, x1, k1, h1, hk1, hr⟩ hready
      rw [hslots] at hk1
      split at hk1
      · next heq =>
        subst heq
        cases hk1
        refine h.covered s1 m ⟨t1, x1, k, h1, hk, ?_⟩ hready
        unfold Waiter.Relies at hr ⊢
        split at hr <;> first | exact hr | exact absurd hr.2.1 nofun
      · exact h.covered s1 m ⟨t1, x1, k1, h1, hk1, hr⟩ hready
  refine hflag.setOp hj id (fun _ => h.inside j _ hj trivial) ?_ fun _ _ _ hp => hp
  intro pos' t' rest' heq
  obtain ⟨rfl, rfl, rfl⟩ := Op.waking.inj heq
  rw [hslots, if_pos rfl, hkt]

theorem change {f : σ → σ} {rest : σ → Prog σ} (hP : Prog.Closed P) (hj : w.ops[j]? = some (.run (.act f rest)))
    (hc : w.Covers ready f (rest w.state)) : Inv ready P ((w.change ready j f).setOp j (.run (rest w.state))) := by
  have hops (n : Nat) : (w.ops.set j (.run (rest w.state)))[n]? =
      if n = j then some (.run (rest w.state)) else w.ops[n]? := getElem?_set_of_some hj
  have hmoved : Inv ready P (w.setOp j (.run (rest w.state))) :=
    h.setOp hj (hP.act · _) (fun hin => hin.elim) nofun fun _ _ _ hp => hp w.state
  refine { hmoved with covered := ?_ }
  intro s m hr hready
  show ∃ op, (w.ops.set j (.run (rest w.state)))[
    if ready w.state m = false ∧ ready (f w.state) m = true then j else w.cause m]? = some op ∧ op.Pending s
  by_cases hbefore : ready w.state m = true
  · rw [if_neg (by simp [hbefore])]
    exact hmoved.covered s m hr hbefore
  · have hbefore := Bool.eq_false_iff.mpr hbefore
    rw [if_pos ⟨hbefore, hready⟩, hops, if_pos rfl]
    exact ⟨_, rfl, hc s m hr hbefore hready⟩

theorem advanceOp (hP : Prog.Closed P) (hs : w.advanceOp ready j = some w')
    (hc : ∀ f rest, w.ops[j]? = some (.run (.act f rest)) → w.Covers ready f (rest w.state)) : Inv ready P w' := by
  unfold World.advanceOp at hs
  split at hs
  · cases hs
  · cases hs
  · next f rest hj => exact some.inj hs ▸ h.change hP hj (hc f rest hj)
  · next skip rest hj =>
    cases hs
    split
    · next hskip =>
      refine h.setOp hj hP.wake (fun hin => hin.elim) (by simp) fun s m hrel _ => ?_
      obtain ⟨t, x, k, ht, -, hr⟩ := hrel
      exact absurd hskip.2 (h.registered_pos ht hr.slot)
    · exact h.setOp hj hP.wake (fun hin => hin.elim) (by simp) fun _ _ _ _ => trivial
  · next rest hj =>
    split at hs
    · next hfree => exact some.inj hs ▸ h.lock hj hfree
    · cases hs
  · next pos rest hj =>
    split at hs
    · next hpos => exact some.inj hs ▸ h.unlock hj hpos
    rename_i k hk
    split at hs
    · next hnone =>
      cases hs
      refine h.setOp hj id (fun _ => h.inside j _ hj trivial) (by simp) fun s m hrel hp => ?_
      obtain ⟨t, x, _, ht, -, hr⟩ := hrel
      refine hp.imp_left fun hle => Nat.lt_of_le_of_ne hle ?_
      rintro rfl
      obtain ⟨k'', hk'', hkt⟩ := h.holds t x pos ht hr.slot
      cases hk.symm.trans hk''
      cases hnone.symm.trans hkt
    · next t hkt => exact some.inj hs ▸ h.flag hj hk hkt
  · next pos t rest hj =>
    cases hs
    have hwoken := h.waking j pos t rest hj
    obtain ⟨threads, heq⟩ := wakeBlocked_eq w t
    have hslots : (w.wakeBlocked t).slots = w.slots := by rw [heq]
    have hj' : (w.wakeBlocked t).ops[j]? = some (.waking pos t rest) := by rw [heq]; exact hj
    refine (h.wakeBlocked t).setOp hj' id (fun _ => ?_) (by simp) fun s m hrel hp => ?_
    · rw [heq]
      exact h.inside j _ hj trivial
    · obtain ⟨t', x, k, ht, hk, hr⟩ := hrel
      refine hp.imp_left fun hle => Nat.lt_of_le_of_ne hle ?_
      rintro rfl
      -- The thread in this slot has its flag set and is not blocked, so it relies on nothing.
      obtain ⟨k', hk', hkt⟩ := (h.wakeBlocked t).holds t' x pos ht hr.slot
      rw [hslots] at hk hk'
      cases hwoken.symm.trans hk
      cases hwoken.symm.trans hk'
      cases hkt
      unfold Waiter.Relies at hr
      split at hr
      · cases hr.2.1
      · cases hr.2.1
      · next hb => exact not_blocked_wakeBlocked w t ht _ hb
      · exact hr

theorem start {p : Prog σ} (hp : P p) : Inv ready P { w with ops := w.ops ++ [.run p] } := by
  have hold {i : Nat} {op : Op σ} (hi : (w.ops ++ [.run p])[i]? = some op) : w.ops[i]? = some op ∨ op = .run p := by
    rcases Nat.lt_or_ge i w.ops.length with hlt | hge
    · rw [getElem?_append_left hlt] at hi
      exact .inl hi
    · rw [getElem?_append_right hge] at hi
      exact .inr (mem_singleton.mp (mem_of_getElem? hi))
  refine { h with
    inside := ?_, waking := ?_, covered := ?_
    progs := forall_mem_append.mpr ⟨h.progs, forall_mem_singleton.mpr hp⟩ }
  · intro i op hi hin
    rcases hold hi with hi | rfl
    · exact h.inside i op hi hin
    · exact hin.elim
  · intro i pos t rest hi
    rcases hold hi with hi | heq
    · exact h.waking i pos t rest hi
    · cases heq
  · intro s m hr hready
    obtain ⟨op, hop, hp⟩ := h.covered s m hr hready
    exact ⟨op, List.getElem?_append_left (List.getElem?_eq_some_iff.mp hop).1 ▸ hop, hp⟩

theorem step {a : Action σ μ} (hP : Prog.Closed P) (hs : w.step ready a = some w') (hstart : ∀ p, a = .start p → P p)
    (hc : ∀ j f rest, a = .op j → w.ops[j]? = some (.run (.act f rest)) → w.Covers ready f (rest w.state)) :
    Inv ready P w' := by
  cases a with
  | wait t set deadline again =>
    unfold World.step at hs
    dsimp only at hs
    split at hs
    · cases hs
    rename_i x ht
    split at hs
    · next hidle =>
      cases hs
      exact h.setThread ht (by rw [hidle]; rfl) fun s k m _ hr => hr.elim
    · cases hs
  | thread t due => exact h.advanceThread hs
  | start p => exact some.inj hs ▸ h.start (hstart p rfl)
  | op j => exact h.advanceOp hP hs fun f rest => hc j f rest rfl

/-- A blocked thread whose member is ready is yet to be woken by the operation that made it so. -/
theorem pending_of_blocked (ht : w.threads[t]? = some x) (hb : x.place = .blocked s)
    (hm : m ∈ x.set) (hready : ready w.state m = true) : ∃ op, w.ops[w.cause m]? = some op ∧ op.Pending s := by
  obtain ⟨k, hk, -⟩ := h.holds t x s ht (by rw [hb]; rfl)
  refine h.covered s m ⟨t, x, k, ht, hk, ?_⟩ hready
  unfold Waiter.Relies
  rw [hb]
  exact ⟨rfl, hm⟩

end Inv

/-! ## Operations that wake after they change -/

/-- After every change that makes a member ready, the program wakes the queue. -/
def Prog.Sound (ready : σ → μ → Bool) : Prog σ → Prop
  | .done => True
  | .act f rest => ∀ s, ((∃ m, ready s m = false ∧ ready (f s) m = true) → (rest s).Wakes) ∧ (rest s).Sound ready
  | .wake _ rest => rest.Sound ready

/-- The worlds that steps lead to, each of which is of an allowed kind. -/
inductive Reached (ready : σ → μ → Bool) (Allowed : World σ μ → Action σ μ → Prop) : World σ μ → Prop where
  | init (state : σ) (n : Nat) : Reached ready Allowed (.init state n)
  | step {w w' : World σ μ} (a : Action σ μ) : Reached ready Allowed w → Allowed w a → w.step ready a = some w' →
    Reached ready Allowed w'

theorem Reached.run {as : List (Action σ μ)} (h : Reached ready Allowed w) (ha : ∀ a ∈ as, ∀ w, Allowed w a)
    (hr : w.run ready as = some w') : Reached ready Allowed w' := by
  induction as generalizing w with
  | nil => exact some.inj hr ▸ h
  | cons a as ih =>
    obtain ⟨next, hnext, hr⟩ := bind_eq_some_iff.mp hr
    refine ih (.step a h (ha a mem_cons_self w) hnext) (fun b hb => ha b (mem_cons_of_mem a hb)) hr

/-- Operations that wake after they change keep the invariant, whatever the interleaving. -/
theorem Reached.inv (hsound : ∀ w p, Allowed w (.start p) → p.Sound ready) (h : Reached ready Allowed w) :
    Inv ready (Prog.Sound ready) w := by
  induction h with
  | init state n => exact Inv.init state n
  | step a _ ha hs ih =>
    refine ih.step ⟨fun h s => (h s).2, id⟩ hs (fun p hp => hsound _ p (hp ▸ ha)) fun j f rest _ hj => ?_
    intro s m _ hbefore hafter
    exact (ih.progs _ (mem_of_getElem? hj) _).1 ⟨m, hbefore, hafter⟩

end Kintane.Wait
