import Mathlib.Data.List.Nodup
import Mathlib.Data.List.Perm.Basic
import Kintane.Kobject.Store
import Kintane.Lib.Slots

/-!
# The object store counts, and destroys once

An invariant of every history of critical sections. A reference passes through the hands of
the thread that drops it, so the invariant is stated with one slot for which a reference is
in hand, and releasing it is one lemma for `retire` and for the drop of an `ObjRef`.
-/

open List Function

namespace Kintane

open ObjectStore ObjState StoreWorld

variable {T : Type} {r : ObjRef T} {s : ObjSlot T} {i id : Nat} {o : T}

def ObjState.object? : ObjState T → Option T
  | .live o | .retiring o => some o
  | .free | .worn => none

theorem ObjState.held_iff {s : ObjState T} : s.held = true ↔ ∃ o, s.object? = some o := by
  cases s <;> simp [held, object?]

namespace ObjectStore

variable {t : ObjectStore T}

/-- What an operation that counts in at most one reference does. -/
inductive Taken (t : ObjectStore T) : ObjectStore T → Option (ObjRef T) → Prop where
  | none : Taken t t none
  | some {r : ObjRef T} {s : ObjSlot T} (slot : t.slots[r.index]? = some s)
      (object : s.state.object? = some r.object) (id : s.id = r.id) (kind : s.kind = r.kind) :
      Taken t ⟨t.slots.set r.index { s with refs := s.refs + 1 }, t.live⟩ (some r)

/-- What a lookup does: nothing, or it counts in a reference to an object that is live. -/
inductive Looked (t : ObjectStore T) : ObjectStore T × Except StoreError (ObjRef T) → Prop where
  | failed (e : StoreError) : Looked t (t, .error e)
  | found {r : ObjRef T} {s : ObjSlot T} (slot : t.slots[r.index]? = some s)
      (state : s.state = .live r.object) (id : s.id = r.id) (kind : s.kind = r.kind) :
      Looked t (⟨t.slots.set r.index { s with refs := s.refs + 1 }, t.live⟩, .ok r)

namespace Looked

variable {out : ObjectStore T × Except StoreError (ObjRef T)}

theorem taken (h : Looked t out) : Taken t out.1 out.2.toOption := by
  cases h with
  | failed e => exact .none
  | found slot state id kind => exact .some slot (by rw [state]; rfl) id kind

theorem live (h : Looked t out) (hr : out.2 = .ok r) :
    ∃ s, t.slots[r.index]? = some s ∧ s.state.isLive = true := by
  cases h with
  | failed e => cases hr
  | found slot state =>
    cases hr
    exact ⟨_, slot, by rw [state]; rfl⟩

end Looked

theorem acquire_looked (t : ObjectStore T) (i : Nat) : Looked t (t.acquire i) := by
  unfold acquire
  cases hs : t.slots[i]? with
  | none => exact .failed _
  | some s =>
    cases ho : s.state with
    | live o =>
      cases hadd : checkedAdd u32Max s.refs 1 with
      | none => simp only [ho, hadd]; exact .failed _
      | some refs =>
        obtain ⟨-, rfl⟩ := checkedAdd_eq_some.mp hadd
        simpa only [ho, hadd] using Looked.found (r := ⟨i, s.id, s.kind, o⟩) hs ho rfl rfl
    | _ => simp only [ho]; exact .failed _

theorem get_looked (t : ObjectStore T) (id : Nat) : Looked t (t.get id) := by
  unfold get
  cases t.find id with
  | none => exact .failed _
  | some i => exact acquire_looked t i

theorem getAt_looked (t : ObjectStore T) (loc : Locator) (id : Nat) : Looked t (t.getAt loc id) := by
  unfold getAt
  cases t.slots[loc.index]? with
  | none => exact .failed _
  | some s =>
    simp only
    split
    · exact .failed _
    · exact acquire_looked t loc.index

theorem getAt_ok {loc : Locator} (h : (t.getAt loc id).2 = .ok r) : r.index = loc.index ∧
      ∃ s, t.slots[loc.index]? = some s ∧ s.generation = loc.generation := by
  unfold getAt acquire at h
  cases hs : t.slots[loc.index]? with
  | none => rw [hs] at h; cases h
  | some s =>
    simp only [hs] at h
    split at h
    · cases h
    rename_i hne
    repeat' split at h
    all_goals cases h
    exact ⟨rfl, s, rfl, not_not.mp (not_or.mp hne).1⟩

/-- A reference to an object of another type is counted in like the one returned. -/
theorem resolve_taken (t : ObjectStore T) (table : HandleTable) (h : Handle) (kind : ObjectType)
    (required : Rights) :
    Taken t (t.resolve table h kind required).1
        ((t.resolve table h kind required).2.1.toOption.orElse
          fun _ => (t.resolve table h kind required).2.2) ∧
      ∀ r, (t.resolve table h kind required).2.1 = .ok r →
        ∃ s, t.slots[r.index]? = some s ∧ s.state.isLive = true := by
  unfold resolve
  cases table.getChecked h kind required with
  | error e => exact ⟨.none, nofun⟩
  | ok entry =>
    have hg := get_looked t entry.object
    rcases ht : t.get entry.object with ⟨t', e | r⟩ <;> rw [ht] at hg <;> simp only [ht]
    · exact ⟨hg.taken, nofun⟩
    · split
      · exact ⟨hg.taken, nofun⟩
      · exact ⟨hg.taken, fun _ => hg.live⟩

theorem tryClone_taken (slot : t.slots[r.index]? = some s)
    (object : s.state.object? = some r.object) (id : s.id = r.id) (kind : s.kind = r.kind) :
    Taken t (t.tryClone r).1 (t.tryClone r).2.toOption := by
  unfold tryClone
  cases hadd : checkedAdd u32Max s.refs 1 with
  | none => simp only [slot, hadd]; exact .none
  | some refs =>
    obtain ⟨-, rfl⟩ := checkedAdd_eq_some.mp hadd
    simp only [slot, hadd]
    exact .some slot object id kind

/-- Whether a slot holds an object. -/
def holds (t : ObjectStore T) (i : Nat) : Bool := t.slots[i]?.any (·.state.held)

theorem holds_eq (slot : t.slots[i]? = some s) : t.holds i = s.state.held := by
  rw [holds, slot]
  rfl

theorem holds_set (slot : t.slots[i]? = some s) (u : ObjSlot T) (live j : Nat) :
    holds ⟨t.slots.set i u, live⟩ j = if i = j then u.state.held else t.holds j := by
  unfold holds
  by_cases hj : i = j
  · subst hj
    simp [getElem?_set_self (List.getElem?_eq_some_iff.mp slot).1]
  · simp [getElem?_set_ne hj, hj]

/-- Releasing a reference with more left only counts it out. -/
theorem release_more (slot : t.slots[i]? = some s) (hr : 1 < s.refs) :
    t.release i = (⟨t.slots.set i { s with refs := s.refs - 1 }, t.live⟩, none) := by
  unfold release
  simp only [slot, checkedSub_of_le hr.le]
  rw [if_pos (by omega)]

/-- Releasing the last reference to a retiring object vacates its slot. -/
theorem release_last (slot : t.slots[i]? = some s)
    (hr : s.refs = 1) (ho : s.state = .retiring o) (hg : s.generation < u32Max) :
    t.release i =
      (⟨t.slots.set i
          ⟨s.generation + 1, s.id, s.kind, 0, if u32Max ≤ s.generation + 1 then .worn else .free⟩,
        t.live - 1⟩, some (s.id, o)) := by
  have hmod : (s.generation + 1) % 2 ^ 32 = s.generation + 1 :=
    Nat.mod_eq_of_lt (by unfold u32Max at hg; omega)
  unfold release
  simp only [slot, hr, ho, checkedSub_of_le (le_refl 1), hmod]
  rfl

end ObjectStore

namespace StoreWorld

variable {w : StoreWorld T} {x : Option Nat} {n : Nat} {state : ObjState T} {d : DestroyCall T}

/-- The outstanding references to one slot. -/
def count (w : StoreWorld T) (i : Nat) : Nat := w.refs.countP fun r => r.1.index == i

/-- The calls of `destroy`, made or to be made. -/
def calls (w : StoreWorld T) : List (DestroyCall T) := w.destroyed ++ w.destroying

/-- The serial numbers of the objects in slots. -/
def inSlots (w : StoreWorld T) : List Nat := ((range w.store.slots.length).filter w.store.holds).map w.serial

/-- What holds of a slot: `x` is the slot a reference in hand is to, if there is one. -/
structure SlotOk (w : StoreWorld T) (x : Option Nat) (i : Nat) (s : ObjSlot T) : Prop where
  refs : s.refs = w.count i + (if s.state.isLive then 1 else 0) + if x = some i then 1 else 0
  counted : s.state.held = true → 0 < s.refs
  generation : s.state.held = true ∨ s.state.isFree = true → s.generation < u32Max
  occupant : ∀ o, s.state.object? = some o → w.inserted[w.serial i]? = some (s.id, o)
  mark : s.state.held = true → (w.serial i ∈ w.retired ↔ s.state.isLive = false)

/-- What every step preserves of a store with `n` slots. -/
structure Inv (n : Nat) (w : StoreWorld T) (x : Option Nat) : Prop where
  size : w.store.slots.length = n
  slot : ∀ i s, w.store.slots[i]? = some s → SlotOk w x i s
  hand : ∀ i, x = some i → ∃ s, w.store.slots[i]? = some s ∧ s.state.held = true
  ref : ∀ r ∈ w.refs, w.serial r.1.index = r.2 ∧
    ∃ s, w.store.slots[r.1.index]? = some s ∧ s.state.object? = some r.1.object ∧
      s.id = r.1.id ∧ s.kind = r.1.kind
  /-- Every object there ever was is in one slot or in one call. -/
  objects : (w.inSlots ++ w.calls.map (·.serial)).Perm (range w.inserted.length)
  call : ∀ d ∈ w.calls, w.inserted[d.serial]? = some (d.id, d.object) ∧ d.serial ∈ w.retired
  retired : ∀ k ∈ w.retired, k < w.inserted.length
  /-- A locator is that of a slot, whose generation is past it once the object is gone. -/
  located : ∀ l ∈ w.issued, ∃ i s, w.store.slots[i]? = some s ∧ l.1.index = i % 2 ^ 32 ∧
    l.1.generation ≤ s.generation ∧
      (s.generation = l.1.generation → s.state.held = true ∧ w.serial i = l.2)

theorem Inv.new (n : Nat) : Inv n (new T n) none where
  size := length_replicate
  slot i s hs := by
    obtain rfl := eq_of_mem_replicate (mem_of_getElem? hs)
    exact ⟨rfl, nofun, fun _ => Nat.succ_pos _, nofun, nofun⟩
  hand i h := nomatch h
  ref := nofun
  objects := by
    have hno (j : Nat) (hj : j < n) : (StoreWorld.new T n).store.holds j = false := by
      simp [holds, StoreWorld.new, ObjectStore.new, hj, held]
    simpa [inSlots, calls, StoreWorld.new, ObjectStore.new] using hno
  call := nofun
  retired := nofun
  located := nofun

section

variable (h : Inv n w x)

include h

theorem Inv.nodup : (w.inSlots ++ w.calls.map (·.serial)).Nodup := h.objects.nodup_iff.mpr nodup_range

variable (slot : w.store.slots[i]? = some s) (held : s.state.held = true)

include slot held

omit h in
theorem mem_holds : i ∈ (range w.store.slots.length).filter w.store.holds := by
  rw [mem_filter, mem_range, holds_eq slot]
  exact ⟨(List.getElem?_eq_some_iff.mp slot).1, held⟩

theorem Inv.apart {j : Nat} {s' : ObjSlot T} (slot' : w.store.slots[j]? = some s') (held' : s'.state.held = true)
    (he : w.serial i = w.serial j) : i = j :=
  inj_on_of_nodup_map (nodup_append.mp h.nodup).1 (mem_holds slot held) (mem_holds slot' held') he

theorem Inv.uncalled (hd : d ∈ w.calls) : w.serial i ≠ d.serial :=
  (nodup_append.mp h.nodup).2.2 _ (mem_map_of_mem (mem_holds slot held)) _ (mem_map_of_mem hd)

end

/-- One more slot holds an object. -/
theorem holds_perm {p q : Nat → Bool} (hi : i < n) (hq : q i = false) (hp : ∀ j, p j = if i = j then true else q j) :
    (i :: (range n).filter q).Perm ((range n).filter p) := by
  refine (perm_ext_iff_of_nodup (nodup_cons.mpr ⟨by simp [hq], nodup_range.filter _⟩) (nodup_range.filter _)).mpr fun j => ?_
  by_cases hj : i = j
  · subst hj
    simp [hp, hi]
  · simp [hp, hj, Ne.symm hj]

theorem held_congr {a b : ObjState T} (h : a.object? = b.object?) : a.held = b.held := by
  cases a <;> cases b <;> first | rfl | cases h

/-- A change at slot `i` that leaves its object there: references to it come and go, and it
may be retired. -/
theorem Inv.recount (h : Inv n w x) {m : Nat} (x' : Option Nat)
    (refs : List (ObjRef T × Nat)) {retired : List Nat} (live : Nat)
    (slot : w.store.slots[i]? = some s) (held : s.state.held = true) (object : state.object? = s.state.object?)
    (hx : ∀ j, x = some j → i = j) (hx' : ∀ j, x' = some j → i = j)
    (count : ∀ j, j ≠ i → refs.countP (fun r => r.1.index == j) = w.count j)
    (hrefs : ∀ r ∈ refs, r ∈ w.refs ∨ (r.1.index = i ∧ w.serial i = r.2 ∧
      s.state.object? = some r.1.object ∧ s.id = r.1.id ∧ s.kind = r.1.kind))
    (retire : retired = w.retired ∨ retired = w.serial i :: w.retired)
    (hrefs' : m = refs.countP (fun r => r.1.index == i) +
      (if state.isLive then 1 else 0) + if x' = some i then 1 else 0)
    (counted : 0 < m) (mark : w.serial i ∈ retired ↔ state.isLive = false) :
    Inv n { w with store := ⟨w.store.slots.set i { s with refs := m, state }, live⟩, refs, retired } x' := by
  have held' : state.held = true := (held_congr object).trans held
  have hset : (w.store.slots.set i { s with refs := m, state })[i]? = some { s with refs := m, state } :=
    getElem?_set_self (List.getElem?_eq_some_iff.mp slot).1
  have hholds : holds ⟨w.store.slots.set i { s with refs := m, state }, live⟩ = w.store.holds := by
    funext j
    rw [holds_set slot]
    split
    · subst j
      exact held'.trans ((holds_eq slot).trans held).symm
    · rfl
  refine ⟨length_set.trans h.size, fun j u hu => ?_, fun j hj => ?_, fun r hr => ?_, ?_,
    fun d hd => ⟨(h.call d hd).1, ?_⟩, ?_, fun l hl => ?_⟩
  · rcases Slots.of_set hu with ⟨rfl, rfl, -⟩ | ⟨hj, hold⟩
    · have hs := h.slot i s slot
      exact ⟨hrefs', fun _ => counted, fun _ => hs.generation (.inl held),
        fun o ho => hs.occupant o (object ▸ ho), fun _ => mark⟩
    · have hs := h.slot j u hold
      refine { hs with refs := ?_, mark := fun hh => ?_ }
      · have hc := hs.refs
        rw [if_neg fun he => hj (hx j he)] at hc
        rw [if_neg fun he => hj (hx' j he), hc, ← count j hj.symm]
        rfl
      · rw [← hs.mark hh]
        rcases retire with rfl | rfl
        · exact Iff.rfl
        · refine mem_cons.trans (or_iff_right fun he => hj ?_)
          exact h.apart slot held hold hh he.symm
  · obtain rfl := hx' j hj
    exact ⟨_, hset, held'⟩
  · rcases hrefs r hr with hr | ⟨rfl, hk, ho, hrest⟩
    · refine ⟨(h.ref r hr).1, Slots.at_set slot (h.ref r hr).2 (fun _ ⟨ho, hrest⟩ => ?_) fun _ _ hu => hu⟩
      exact ⟨object.trans ho, hrest⟩
    · exact ⟨hk, _, hset, object.trans ho, hrest⟩
  · unfold inSlots
    rw [hholds, length_set]
    exact h.objects
  · rcases retire with rfl | rfl
    · exact (h.call d hd).2
    · exact mem_cons_of_mem _ (h.call d hd).2
  · rcases retire with rfl | rfl
    · exact h.retired
    · exact forall_mem_cons.mpr ⟨mem_range.mp (h.objects.mem_iff.mp
        (mem_append_left _ (mem_map_of_mem (mem_holds slot held)))), h.retired⟩
  · refine (h.located l hl).imp fun j hj => Slots.at_set slot hj (fun _ ⟨hidx, hgen, hcur⟩ => ?_) fun _ _ hu => hu
    exact ⟨hidx, hgen, fun he => ⟨held', (hcur he).2⟩⟩

/-- A reference counted in is held. -/
theorem Inv.hold (h : Inv n w none) {t : ObjectStore T} {taken : Option (ObjRef T)}
    (ht : w.store.Taken t taken) : Inv n (w.hold t taken) none := by
  cases ht with
  | none => exact h
  | @some r s slot object id kind =>
    have held := held_iff.mpr ⟨_, object⟩
    have hs := h.slot _ s slot
    refine h.recount none _ _ slot held rfl nofun nofun (fun j hj => ?_)
      (fun r' hr => ?_) (.inl rfl) ?_ (Nat.succ_pos _) (hs.mark held)
    · exact countP_cons_of_neg (by simpa using hj.symm)
    · rcases mem_cons.mp hr with rfl | hr
      · exact .inr ⟨rfl, rfl, object, id, kind⟩
      · exact .inl hr
    · have hc : (((r, w.serial r.index) :: w.refs).countP fun r' => r'.1.index == r.index) =
          w.count r.index + 1 := countP_cons_of_pos (by simp)
      have hr := hs.refs
      simp only [Option.toList_some, map_cons, map_nil, cons_append, nil_append, hc]
      omega

/-- A reference taken out of the list is in hand. -/
theorem Inv.unref (h : Inv n w none) {j : Nat} {r : ObjRef T × Nat} (hj : w.refs[j]? = some r) :
    Inv n { w with refs := w.refs.eraseIdx j } (some r.1.index) := by
  have hmem := mem_of_getElem? hj
  obtain ⟨-, s, slot, object, -⟩ := h.ref r hmem
  have held := held_iff.mpr ⟨_, object⟩
  have hs := h.slot _ s slot
  obtain ⟨hlt, rfl⟩ := List.getElem?_eq_some_iff.mp hj
  have hperm := getElem_cons_eraseIdx_perm hlt
  have := h.recount (some w.refs[j].1.index) (w.refs.eraseIdx j) w.store.live slot held rfl nofun
    (fun _ => Option.some.inj) (fun i hi => ?_) (fun r' hr => .inl (mem_of_mem_eraseIdx hr)) (.inl rfl) ?_
    (hs.counted held) (hs.mark held)
  · rwa [show w.store.slots.set w.refs[j].1.index s = w.store.slots by
      obtain ⟨hi, rfl⟩ := List.getElem?_eq_some_iff.mp slot
      exact set_getElem_self hi] at this
  · rw [count, ← hperm.countP_eq, countP_cons_of_neg (by simpa using hi.symm)]
  · have hr := hs.refs
    rw [count, ← hperm.countP_eq, countP_cons_of_pos (by simp)] at hr
    simp only [reduceCtorEq, if_false, if_true] at hr ⊢
    omega

/-- The store's own reference to an object that is retired is in hand. -/
theorem Inv.mark (h : Inv n w none) (slot : w.store.slots[i]? = some s) (ho : s.state = .live o) : Inv n { w with
      store := ⟨w.store.slots.set i { s with state := .retiring o }, w.store.live⟩
      retired := w.serial i :: w.retired } (some i) := by
  have held : s.state.held = true := by rw [ho]; rfl
  have hs := h.slot _ s slot
  refine h.recount (some i) _ _ slot held (by rw [ho]; rfl) nofun (fun _ => Option.some.inj)
    (fun _ _ => rfl) (fun r hr => .inl hr) (.inr rfl) ?_ (hs.counted held) (iff_of_true mem_cons_self rfl)
  have hr := hs.refs
  rw [ho] at hr
  simpa [isLive, count] using hr

/-- The last reference in hand is to a retiring object, and its slot is vacated. -/
theorem Inv.vacate (h : Inv n w (some i))
    (slot : w.store.slots[i]? = some s) (ho : s.state = .retiring o) (hr : s.refs = 1)
    {live : Nat} (empty : state.object? = none)
    (worn : state.isFree = true → s.generation + 1 < u32Max) :
    Inv n { w with
      store := ⟨w.store.slots.set i ⟨s.generation + 1, s.id, s.kind, 0, state⟩, live⟩
      destroying := ⟨s.id, o, w.serial i⟩ :: w.destroying } none := by
  have held : s.state.held = true := by rw [ho]; rfl
  have hs := h.slot i s slot
  have vacant : state.held = false := by cases state <;> first | rfl | cases empty
  have hcount : w.count i = 0 := by
    have := hs.refs
    rw [ho, hr] at this
    simpa [isLive] using this
  have hmem : w.serial i ∈ w.retired := (hs.mark held).mpr (by rw [ho]; rfl)
  have hcalls : (w.destroyed ++ ⟨s.id, o, w.serial i⟩ :: w.destroying).Perm (⟨s.id, o, w.serial i⟩ :: w.calls) :=
    perm_middle
  refine ⟨length_set.trans h.size, fun j u hu => ?_, nofun, fun r hr => ?_, ?_, fun d hd => ?_, h.retired,
    fun l hl => ?_⟩
  · rcases Slots.of_set hu with ⟨rfl, rfl, -⟩ | ⟨hj, hu⟩
    · have hlive : state.isLive = false := by cases state <;> first | rfl | cases empty
      refine ⟨?_, fun hh => absurd (vacant.symm.trans hh) (by decide), fun hg => ?_,
        fun o' ho' => (by rw [empty] at ho'; cases ho'), fun hh => absurd (vacant.symm.trans hh) (by decide)⟩
      · show 0 = w.count i + (if state.isLive then 1 else 0) + _
        simp [hcount, hlive]
      · exact worn (hg.resolve_left (by simp [vacant]))
    · have hu' := h.slot j u hu
      have := hu'.refs
      rw [if_neg (fun hc => hj (Option.some.inj hc))] at this
      exact { hu' with refs := this }
  · refine ⟨(h.ref r hr).1, Slots.at_set slot (h.ref r hr).2 (fun he _ => ?_) fun _ _ hu => hu⟩
    have : 0 < w.count i := countP_pos_iff.mpr ⟨r, hr, by simp [he]⟩
    exact absurd hcount this.ne'
  · -- the object leaves its slot for the call
    have hslots := holds_perm (p := w.store.holds)
      (q := holds ⟨w.store.slots.set i ⟨s.generation + 1, s.id, s.kind, 0, state⟩, live⟩)
      (List.getElem?_eq_some_iff.mp slot).1 (by rw [holds_set slot, if_pos rfl]; exact vacant) fun j => by
        rw [holds_set slot]
        split
        · subst j
          exact (holds_eq slot).trans held
        · rfl
    refine ((hcalls.map (·.serial)).append_left _).trans (perm_middle.trans ?_)
    unfold inSlots
    rw [length_set]
    exact ((hslots.map w.serial).append_right _).trans h.objects
  · rcases mem_cons.mp (hcalls.mem_iff.mp hd) with rfl | hd
    · exact ⟨hs.occupant o (by rw [ho]; rfl), hmem⟩
    · exact h.call d hd
  · refine (h.located l hl).imp fun j hj => Slots.at_set slot hj (fun _ ⟨hidx, hgen, _⟩ => ?_) fun _ _ hu => hu
    exact ⟨hidx, Nat.le_succ_of_le hgen, fun he => absurd (he.le.trans hgen) (Nat.not_succ_le_self _)⟩

/-- The reference in hand is released. -/
theorem Inv.release (h : Inv n w (some i)) : Inv n (w.release i) none := by
  obtain ⟨s, slot, held⟩ := h.hand i rfl
  have hs := h.slot i s slot
  have hr := hs.refs
  have hg := hs.generation (.inl held)
  rw [if_pos rfl] at hr
  unfold StoreWorld.release vacated
  by_cases hlast : s.refs = 1
  · -- A live object has the store's reference too.
    have hlive : s.state.isLive = false := by
      rw [Bool.eq_false_iff]
      intro hl
      rw [if_pos hl] at hr
      omega
    cases ho : s.state with
    | retiring o =>
      rw [release_last slot hlast ho hg]
      refine h.vacate slot ho hlast ?_ ?_
      · split <;> rfl
      · split
        · exact nofun
        · exact fun _ => Nat.lt_of_not_le ‹_›
    | live o => rw [ho] at hlive; cases hlive
    | free => rw [ho] at held; cases held
    | worn => rw [ho] at held; cases held
  · rw [release_more slot (by omega)]
    refine h.recount none _ _ slot held rfl (fun _ => Option.some.inj) nofun (fun _ _ => rfl)
      (fun r hr => .inl hr) (.inl rfl) ?_ ?_ (hs.mark held)
    · show s.refs - 1 = w.count i + _ + _
      simp only [reduceCtorEq, if_false]
      omega
    · show 0 < s.refs - 1
      omega

section

variable (h : Inv n w none)

include h

theorem Inv.retire (id : Nat) : Inv n (w.step (.retire id)) none := by
  unfold step ObjectStore.retire
  cases hf : w.store.find id with
  | none => simp only [hf]; exact h
  | some i =>
    obtain ⟨s, slot⟩ : ∃ s, w.store.slots[i]? = some s :=
      ⟨_, getElem?_eq_getElem (findIdx?_eq_some_iff_getElem.mp hf).1⟩
    cases ho : s.state with
    | live o =>
      simp only [hf, slot, ho]
      exact (h.mark slot ho).release
    | _ => simp only [hf, slot, ho]; exact h

theorem Inv.drop (position : Nat) : Inv n (w.step (.drop position)) none := by
  unfold step
  cases hr : w.refs[position]? with
  | none => simp only [hr]; exact h
  | some r => simp only [hr]; exact (h.unref hr).release

theorem Inv.tryClone (position : Nat) : Inv n (w.step (.tryClone position)) none := by
  unfold step
  cases hr : w.refs[position]? with
  | none => simp only [hr]; exact h
  | some r =>
    obtain ⟨-, s, slot, object, id, kind⟩ := h.ref r (mem_of_getElem? hr)
    simp only [hr]
    exact h.hold (tryClone_taken slot object id kind)

/-- A pending call is made. -/
theorem Inv.destroy (position : Nat) : Inv n (w.step (.destroy position)) none := by
  unfold step
  cases hd : w.destroying[position]? with
  | none => simp only [hd]; exact h
  | some call =>
    simp only [hd]
    obtain ⟨hlt, rfl⟩ := List.getElem?_eq_some_iff.mp hd
    have hperm : (w.destroying[position] :: w.destroyed ++ w.destroying.eraseIdx position).Perm
        w.calls :=
      (perm_middle.symm).trans
        ((getElem_cons_eraseIdx_perm hlt).append_left w.destroyed)
    exact { h with
      slot := fun i s hs => { h.slot i s hs with }
      objects := ((hperm.map _).append_left _).trans h.objects
      call := fun d hd => h.call d (hperm.mem_iff.mp hd) }

end

/-- A free slot is filled. -/
theorem Inv.fill (h : Inv n w none) (slot : w.store.slots[i]? = some s)
    (free : s.state.isFree = true) (id : Nat) (kind : ObjectType) (object : T) {live : Nat} :
    Inv n { w with
      store := ⟨w.store.slots.set i ⟨s.generation, id, kind, 1, .live object⟩, live⟩
      inserted := w.inserted ++ [(id, object)]
      serial := update w.serial i w.inserted.length
      issued := (⟨i % 2 ^ 32, s.generation⟩, w.inserted.length) :: w.issued } none := by
  have vacant : s.state.held = false := by
    cases hs : s.state <;> rw [hs] at free <;> first | rfl | cases free
  have hs := h.slot i s slot
  have hser : ∀ j, i ≠ j → update w.serial i w.inserted.length j = w.serial j :=
    fun j hj => update_of_ne hj.symm _ _
  have hne : ∀ j u, w.store.slots[j]? = some u → u.state.held = true → i ≠ j := by
    rintro j u hu hh rfl
    cases slot.symm.trans hu
    cases vacant.symm.trans hh
  have hcount : w.count i = 0 := by
    refine countP_eq_zero.mpr fun r hr he => ?_
    obtain ⟨-, u, hu, ho, -⟩ := h.ref r hr
    exact hne _ u hu (held_iff.mpr ⟨_, ho⟩) (beq_iff_eq.mp he).symm
  have old : ∀ {k : Nat} {p : Nat × T}, w.inserted[k]? = some p →
      (w.inserted ++ [(id, object)])[k]? = some p := by
    intro k p hk
    rw [List.getElem?_append_left (List.getElem?_eq_some_iff.mp hk).1, hk]
  have hslots := holds_perm (p := holds ⟨w.store.slots.set i ⟨s.generation, id, kind, 1, .live object⟩, live⟩)
    (List.getElem?_eq_some_iff.mp slot).1 ((holds_eq slot).trans vacant) (holds_set slot _ _)
  refine ⟨length_set.trans h.size, fun j u hu => ?_, nofun, fun r hr => ?_, ?_,
    fun d hd => ⟨old (h.call d hd).1, (h.call d hd).2⟩, fun k hk => ?_, fun l hl => ?_⟩
  · rcases Slots.of_set hu with ⟨rfl, rfl, -⟩ | ⟨hj, hu⟩
    · refine ⟨?_, fun _ => one_pos, fun _ => hs.generation (.inr free), fun o ho => ?_,
        fun _ => iff_of_false (fun hin => ?_) (by simp [isLive])⟩
      · show 1 = w.count i + 1 + 0
        rw [hcount]
      · cases ho
        simp
      · simp only [update_self] at hin
        exact lt_irrefl _ (h.retired _ hin)
    · have hu' := h.slot j u hu
      refine ⟨hu'.refs, hu'.counted, hu'.generation, fun o ho => ?_, ?_⟩
      · simp only [hser j hj]
        exact old (hu'.occupant o ho)
      · simp only [hser j hj]
        exact hu'.mark
  · obtain ⟨hk, u, hu, ho, hrest⟩ := h.ref r hr
    have hj := hne _ u hu (held_iff.mpr ⟨_, ho⟩)
    exact ⟨(hser _ hj).trans hk, u, by rw [getElem?_set_ne hj, hu], ho, hrest⟩
  · unfold inSlots
    rw [length_set, length_append, length_singleton, range_succ]
    refine ((hslots.map (update w.serial i w.inserted.length)).symm.append_right _).trans ?_
    rw [map_cons, update_self, map_congr_left (g := w.serial) fun j hj => hser j ?_]
    · exact (h.objects.cons _).trans (perm_append_singleton _ _).symm
    · rintro rfl
      simp [holds_eq slot, vacant] at hj
  · rw [length_append]
    exact Nat.lt_succ_of_lt (h.retired k hk)
  · rcases mem_cons.mp hl with rfl | hl
    · exact ⟨i, _, getElem?_set_self (List.getElem?_eq_some_iff.mp slot).1, rfl, le_rfl,
        fun _ => ⟨rfl, update_self ..⟩⟩
    refine (h.located l hl).imp fun j hj => Slots.at_set slot hj (fun _ ⟨hidx, hgen, hcur⟩ => ?_)
      fun hj u ⟨hidx, hgen, hcur⟩ => ⟨hidx, hgen, fun he => ⟨(hcur he).1, (hser j hj).trans (hcur he).2⟩⟩
    refine ⟨hidx, hgen, fun he => ?_⟩
    rw [vacant] at hcur
    cases (hcur he).1

theorem step_insert (hid : w.store.find id = none) (first : w.store.slots.findIdx? (·.state.isFree) = some i)
    (slot : w.store.slots[i]? = some s) (kind : ObjectType) (object : T) :
    w.step (.insert id kind object) =
      { w with
        store := ⟨w.store.slots.set i ⟨s.generation, id, kind, 1, .live object⟩, w.store.live + 1⟩
        inserted := w.inserted ++ [(id, object)]
        serial := update w.serial i w.inserted.length
        issued := (⟨i % 2 ^ 32, s.generation⟩, w.inserted.length) :: w.issued } := by
  unfold step ObjectStore.insert
  simp only [hid, first, slot, Option.isSome_none, Bool.false_eq_true, if_false]

theorem step_insert_full (kind : ObjectType) (object : T) (full : (w.store.find id).isSome = true ∨
      w.store.slots.findIdx? (·.state.isFree) = none) : w.step (.insert id kind object) = w := by
  unfold step ObjectStore.insert
  cases hid : (w.store.find id).isSome with
  | true => simp only [hid, if_true]
  | false =>
    have hf := full.resolve_left (by simp [hid])
    simp only [hid, hf, Bool.false_eq_true, if_false]

variable (h : Inv n w none)

include h

theorem Inv.insert (id : Nat) (kind : ObjectType) (object : T) :
    Inv n (w.step (.insert id kind object)) none := by
  cases hid : w.store.find id with
  | some i => rwa [step_insert_full kind object (.inl (by rw [hid]; rfl))]
  | none =>
    cases hf : w.store.slots.findIdx? (·.state.isFree) with
    | none => rwa [step_insert_full kind object (.inr hf)]
    | some i =>
      obtain ⟨hi, hp, -⟩ := findIdx?_eq_some_iff_getElem.mp hf
      have slot := getElem?_eq_getElem hi
      rw [step_insert hid hf slot]
      exact h.fill slot hp id kind object

theorem Inv.step (op : StoreOp T) : Inv n (w.step op) none := by
  cases op with
  | insert id kind object => exact h.insert id kind object
  | get id => exact h.hold (get_looked _ id).taken
  | getAt loc id => exact h.hold (getAt_looked _ loc id).taken
  | resolve table g kind required => exact h.hold (resolve_taken _ table g kind required).1
  | retire id => exact h.retire id
  | tryClone position => exact h.tryClone position
  | drop position => exact h.drop position
  | destroy position => exact h.destroy position

theorem Inv.foldl (ops : List (StoreOp T)) : Inv n (ops.foldl StoreWorld.step w) none :=
  foldlRecOn (motive := (Inv n · none)) ops _ h fun _ h op _ => h.step op

/-- References to a held slot are those to the object in it. -/
theorem Inv.outstanding_eq (slot : w.store.slots[i]? = some s) (held : s.state.held = true) :
    w.outstanding (w.serial i) = w.count i := by
  refine countP_congr fun r hr => ?_
  obtain ⟨hk, u, hu, ho, -⟩ := h.ref r hr
  rw [beq_iff_eq, beq_iff_eq, ← hk]
  exact ⟨h.apart hu (held_iff.mpr ⟨_, ho⟩) slot held, congrArg w.serial⟩

/-- There is no reference to an object that is being destroyed. -/
theorem Inv.outstanding_call (hd : d ∈ w.calls) : w.outstanding d.serial = 0 := by
  refine countP_eq_zero.mpr fun r hr he => ?_
  obtain ⟨hk, u, hu, ho, -⟩ := h.ref r hr
  refine h.uncalled hu (held_iff.mpr ⟨_, ho⟩) hd ?_
  rw [hk, beq_iff_eq.mp he]

theorem Inv.live (slot : w.store.slots[i]? = some s)
    (live : s.state.isLive = true) : w.serial i ∉ w.retired := by
  have held : s.state.held = true := by
    cases hs : s.state <;> rw [hs] at live <;> first | rfl | cases live
  intro hin
  rw [((h.slot i s slot).mark held).mp hin] at live
  cases live

/-- A locator whose number was not cut off finds the object it was issued for, or nothing. -/
theorem Inv.getAt_serial (hn : n ≤ 2 ^ 32) {l : Locator × Nat} (hl : l ∈ w.issued)
    (hr : (w.store.getAt l.1 id).2 = .ok r) : w.serial r.index = l.2 := by
  obtain ⟨i, s, slot, hidx, -, hcur⟩ := h.located l hl
  obtain ⟨hi, u, hu, hgen⟩ := getAt_ok hr
  have hlt := (List.getElem?_eq_some_iff.mp slot).1
  rw [Nat.mod_eq_of_lt (lt_of_lt_of_le (h.size ▸ hlt) hn)] at hidx
  rw [hidx, slot] at hu
  cases hu
  rw [hi, hidx]
  exact (hcur hgen).2

theorem Inv.sound (hn : n ≤ 2 ^ 32) : w.Sound where
  counted i s slot held := by
    have hs := h.slot i s slot
    rw [h.outstanding_eq slot held, hs.refs, if_neg (by simp : ¬ none = some i), add_zero]
    congr 1
    cases hl : s.state.isLive with
    | true => rw [if_pos rfl, if_neg (h.live slot hl)]
    | false => rw [if_neg (by decide), if_pos ((hs.mark held).mpr hl)]
  once := (nodup_append.mp h.nodup).2.1
  due d hd := ⟨(h.call d hd).1, (h.call d hd).2, h.outstanding_call hd⟩
  complete k hk ho := by
    refine mem_map.mp ((mem_append.mp (h.objects.mem_iff.mpr (mem_range.mpr (h.retired k hk)))).resolve_left ?_)
    intro hin
    obtain ⟨i, hi, rfl⟩ := mem_map.mp hin
    obtain ⟨s, slot, held⟩ := (Option.any_eq_true _ _).mp (mem_filter.mp hi).2
    have hs := h.slot i s slot
    have hr := hs.refs
    have hpos := hs.counted held
    rw [← h.outstanding_eq slot held, ho, (hs.mark held).mp hk] at hr
    simp only [Bool.false_eq_true, if_false, reduceCtorEq] at hr
    omega
  get id r hr := by
    obtain ⟨s, slot, hl⟩ := (get_looked _ id).live hr
    exact h.live slot hl
  getAt loc id r hr := by
    obtain ⟨s, slot, hl⟩ := (getAt_looked _ loc id).live hr
    exact h.live slot hl
  resolve table g kind required r hr := by
    obtain ⟨s, slot, hl⟩ := (resolve_taken _ table g kind required).2 r hr
    exact h.live slot hl
  located loc k id r hl hr := (h.getAt_serial hn hl hr).le

end StoreWorld

end Kintane
