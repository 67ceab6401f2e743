import Mathlib.Data.Finset.Card
import Mathlib.Data.Multiset.Count
import Kintane.Ipc.Accounts

/-!
# Marking finds what can be reached

An endpoint is reachable when an entry outside the set's queues names it, or one queued in the
inbox of a reachable endpoint. On a set whose accounts are in order the collector's marks are
exactly the reachable endpoints: the roots are those held outside, each pass marks only what is
reachable, and passes go on until one marks nothing.
-/

open List Function

namespace Kintane

namespace ChannelSet

variable {set : ChannelSet} {all outside : Multiset Key} {ids : List Nat} {β : Type*} {e : Entry} {q : Side × Entry}
  {l : List (Side × Entry)} {c : Channel} {i : Nat} {p : Nat × Side} {seen : Marks} {s : Side} {acc : Marks × Bool}
  {holder : Side → Seen}

/-- What can be received, starting from the endpoints that entries `outside` name. -/
inductive Reach (set : ChannelSet) (outside : Multiset Key) : Nat × Side → Prop
  | held {i : Nat} {c : Channel} (s : Side) (hi : set.channel i = some c)
      (hc : outside.count (c.id s, .channel) ≠ 0) : Reach set outside (i, s)
  | carried {i : Nat} {c : Channel} {s : Side} {e : Entry} {p : Nat × Side}
      (hr : Reach set outside (i, s)) (hi : set.channel i = some c) (he : e ∈ c.queued s)
      (hp : set.named e = some p) : Reach set outside p

/-! ## Counting -/

/-- Every queued entry, in the order in which queues are visited. -/
def slotQueued (slot : Option Channel) : List (Side × Entry) :=
  match slot with
  | none => []
  | some c => c.forEachQueued

theorem countInFlight_eq (seen : Marks) :
    set.countInFlight seen = (set.channels.flatMap slotQueued).foldl set.countEntry seen := by
  rw [countInFlight, foldl_flatMap]
  congr 1
  funext seen slot
  cases slot <;> rfl

theorem slotCarried_eq (g : Entry → β) (slot : Option Channel) :
    slotCarried g slot = ↑((slotQueued slot).map fun q => g q.2) := by
  cases slot with
  | none => rfl
  | some c =>
    rw [slotCarried, slotQueued, Channel.forEachQueued, Channel.carried, map_append,
      map_append, map_map, map_map]
    rfl

theorem carried_eq_coe (g : Entry → β) (set : ChannelSet) :
    set.carried g = ↑((set.channels.flatMap slotQueued).map fun q => g q.2) := by
  rw [carried]
  induction set.channels with
  | nil => rfl
  | cons slot l ih =>
    rw [Tally.total_cons, ih, slotCarried_eq, flatMap_cons, map_append,
      ← Multiset.coe_add]

/-- What a count leaves of an endpoint. -/
theorem foldl_countEntry (l : List (Side × Entry)) (seen : Marks) (p : Nat × Side)
    (hle : (seen p).inFlight ≤ u32Max) :
    l.foldl set.countEntry seen p =
      { seen p with
        inFlight := min ((seen p).inFlight + l.countP fun q => set.named q.2 = some p) u32Max } := by
  induction l generalizing seen with
  | nil => rw [foldl_nil, countP_nil, add_zero, min_eq_left hle]
  | cons q l ih =>
    rw [foldl_cons]
    by_cases hq : set.named q.2 = some p
    · have hseen : set.countEntry seen q p =
          { seen p with inFlight := satAdd u32Max (seen p).inFlight 1 } := by
        rw [countEntry, hq]
        exact update_self ..
      rw [ih _ (by rw [hseen]; exact min_le_right ..), hseen,
        countP_cons_of_pos (by simpa using hq)]
      simp only [satAdd, Seen.mk.injEq, true_and, and_true]
      omega
    · have hseen : set.countEntry seen q p = seen p := by
        cases hn : set.named q.2 with
        | none => simp only [countEntry, hn]
        | some at? =>
          simp only [countEntry, hn]
          exact update_of_ne (fun he : p = at? => hq (hn.trans (congrArg some he.symm))) ..
      rw [ih _ (hseen ▸ hle), hseen, countP_cons_of_neg (by simpa using hq)]

/-- The copies of an endpoint that are in flight. -/
theorem countP_named (h : Accounts set all ids) (hi : set.channel i = some c) (s : Side) :
    ((set.channels.flatMap slotQueued).countP fun q => set.named q.2 = some (i, s)) =
      set.keys.count (c.id s, .channel) := by
  rw [keys, carried_eq_coe, Multiset.count, Multiset.coe_countP, countP_map]
  refine countP_congr fun q _ => ?_
  rw [decide_eq_true_iff, named_iff h, Function.comp_apply, decide_eq_true_iff]
  constructor
  · rintro ⟨c', hc', he⟩
    rw [hi] at hc'
    cases hc'
    exact he.symm
  · exact fun he => ⟨c, hi, he.symm⟩

def start (set : ChannelSet) : Marks := roots (set.countInFlight set.endStates)

theorem start_none (hp : set.channel p.1 = none) :
    (set.start p).isOpen = false ∧ (set.start p).queued = 0 := by
  have hend : set.endStates p = .none := by
    rw [endStates, hp]
  have hle : (set.endStates p).inFlight ≤ u32Max := by
    rw [hend]
    exact Nat.zero_le _
  rw [start, roots, countInFlight_eq, foldl_countEntry _ _ _ hle, hend]
  exact ⟨rfl, rfl⟩

/-- The roots are the endpoints held outside. -/
theorem start_some (h : Accounts set (set.keys + outside) ids)
    (hi : set.channel i = some c) (s : Side) :
    (set.start (i, s)).isOpen = (c.ends s).isOpen ∧
      (set.start (i, s)).queued = (c.ends s).inbox.len ∧
      ((set.start (i, s)).reachable = true ↔ outside.count (c.id s, .channel) ≠ 0) := by
  have hend : set.endStates (i, s) =
      ⟨(c.ends s).refs, (c.ends s).isOpen, (c.ends s).inbox.len, 0, false⟩ := by
    simp only [endStates, hi]
    rfl
  have hrefs := h.refs i c hi s
  have hbound := h.bound i c hi s
  have hopen := h.isOpen i c hi s
  rw [Multiset.count_add] at hrefs
  have hle : (set.endStates (i, s)).inFlight ≤ u32Max := by
    rw [hend]
    exact Nat.zero_le _
  have hstart : set.start (i, s) =
      { refs := (c.ends s).refs
        isOpen := (c.ends s).isOpen
        queued := (c.ends s).inbox.len
        inFlight := set.keys.count (c.id s, .channel)
        reachable := (c.ends s).isOpen && (c.ends s).refs != set.keys.count (c.id s, .channel) } := by
    rw [start, roots, countInFlight_eq, foldl_countEntry _ _ _ hle, countP_named h hi, hend]
    simp only [Nat.zero_add, Nat.min_eq_left (show set.keys.count (c.id s, .channel) ≤ u32Max by omega)]
  rw [hstart]
  refine ⟨rfl, rfl, ?_⟩
  simp only [Bool.and_eq_true, bne_iff_ne, hopen]
  omega

/-! ## Passes -/

/-- Marks that differ from the first ones only in what is reachable, and there only upwards and
only where it is true. -/
structure Marked (set : ChannelSet) (outside : Multiset Key) (seen : Marks) :
    Prop where
  isOpen : ∀ p, (seen p).isOpen = (set.start p).isOpen
  queued : ∀ p, (seen p).queued = (set.start p).queued
  roots : ∀ p, (set.start p).reachable = true → (seen p).reachable = true
  sound : ∀ p, (seen p).reachable = true → Reach set outside p

theorem update_reachable (seen : Marks) (p q : Nat × Side) :
    update seen p { seen p with reachable := true } q =
      { seen q with reachable := (seen q).reachable || decide (q = p) } := by
  by_cases hqp : q = p
  · subst hqp
    simp
  · simp [hqp]

/-- One endpoint more. -/
theorem Marked.update (h : Marked set outside seen) (hp : Reach set outside p) :
    Marked set outside (update seen p { seen p with reachable := true }) := by
  refine ⟨fun q => ?_, fun q => ?_, fun q hq => ?_, fun q hq => ?_⟩
  · rw [update_reachable]
    exact h.isOpen q
  · rw [update_reachable]
    exact h.queued q
  · rw [update_reachable]
    exact Bool.or_eq_true_iff.mpr (.inl (h.roots q hq))
  · rw [update_reachable] at hq
    rcases Bool.or_eq_true_iff.mp hq with hq | hq
    · exact h.sound q hq
    · exact of_decide_eq_true hq ▸ hp

def marked (set : ChannelSet) (seen : Marks) : Nat :=
  (set.endpoints.toFinset.filter fun p => (seen p).reachable = true).card

theorem mem_endpoints : p ∈ set.endpoints ↔ p.1 < set.channels.length := by
  obtain ⟨i, s⟩ := p
  rw [endpoints, mem_flatMap]
  constructor
  · rintro ⟨j, hj, hp⟩
    rcases mem_pair.mp hp with hp | hp <;>
    · cases hp
      exact mem_range.mp hj
  · intro hi
    refine ⟨i, mem_range.mpr hi, ?_⟩
    cases s <;> simp

theorem marked_update (set : ChannelSet) (hp : p.1 < set.channels.length)
    (hn : (seen p).reachable = false) :
    set.marked seen < set.marked (update seen p { seen p with reachable := true }) := by
  refine Finset.card_lt_card (Finset.ssubset_iff_subset_ne.mpr ⟨fun q hq => ?_, fun he => ?_⟩)
  · rw [Finset.mem_filter] at hq ⊢
    rw [update_reachable]
    exact ⟨hq.1, Bool.or_eq_true_iff.mpr (.inl hq.2)⟩
  · have hmem : p ∈ set.endpoints.toFinset.filter fun q =>
        (update seen p { seen p with reachable := true } q).reachable = true := by
      rw [Finset.mem_filter, mem_toFinset, mem_endpoints, update_reachable]
      exact ⟨hp, by simp⟩
    rw [← he, Finset.mem_filter, hn] at hmem
    cases hmem.2

/-- With as many marks as endpoints, all are marked. -/
theorem all_marked (h : 2 * set.channels.length ≤ set.marked seen) (hp : p.1 < set.channels.length) :
    (seen p).reachable = true := by
  have hcard : set.endpoints.toFinset.card ≤ set.marked seen :=
    ((toFinset_card_le _).trans (by
      rw [endpoints, length_flatMap]
      simp [mul_comm])).trans h
  have heq := Finset.eq_of_subset_of_card_le (Finset.filter_subset _ _) hcard
  have hmem : p ∈ set.endpoints.toFinset := mem_toFinset.mpr (mem_endpoints.mpr hp)
  rw [← heq] at hmem
  exact (Finset.mem_filter.mp hmem).2

theorem mem_forEachQueued : (s, e) ∈ c.forEachQueued ↔ e ∈ c.queued s := by
  rw [Channel.forEachQueued, mem_append, mem_map, mem_map]
  cases s <;> simp

/-- The state of a pass that began with `seen`. -/
structure Passing (set : ChannelSet) (outside : Multiset Key) (seen : Marks)
    (acc : Marks × Bool) : Prop where
  marked : Marked set outside acc.1
  same : acc.2 = false → acc.1 = seen
  more : acc.2 = true → set.marked seen < set.marked acc.1

theorem Passing.entry (h : Passing set outside seen acc) (hi : set.channel i = some c)
    (hh : ∀ s, (holder s).reachable = true → Reach set outside (i, s))
    (hq : q ∈ c.forEachQueued) : Passing set outside seen (set.markEntry holder acc q) := by
  rw [markEntry]
  split
  case isFalse => exact h
  case isTrue hactive =>
    split
    · exact h
    rename_i p hp
    split
    · exact h
    rename_i hnot
    have hnot : (acc.1 p).reachable = false := Bool.not_eq_true _ ▸ hnot
    have hr := hh q.1 (Bool.and_eq_true_iff.mp hactive).1
    obtain ⟨c', hc'⟩ := channel_of_named hp
    have hlt := marked_update set (lt_of_channel hc') hnot
    refine ⟨h.marked.update (hr.carried hi (mem_forEachQueued.mp hq) hp), nofun, fun _ => ?_⟩
    cases hacc : acc.2 with
    | false => exact h.same hacc ▸ hlt
    | true => exact (h.more hacc).trans hlt

theorem Passing.entries (h : Passing set outside seen acc) (hi : set.channel i = some c)
    (hh : ∀ s, (holder s).reachable = true → Reach set outside (i, s))
    (hl : ∀ q ∈ l, q ∈ c.forEachQueued) :
    Passing set outside seen (l.foldl (set.markEntry holder) acc) :=
  foldlRecOn l _ h fun _ h q hq => h.entry hi hh (hl q hq)

/-- What one slot contributes to a pass. -/
def passSlot (set : ChannelSet) (acc : Marks × Bool) (p : Option Channel × Nat) : Marks × Bool :=
  match p.1 with
  | none => acc
  | some c => c.forEachQueued.foldl (set.markEntry fun s => acc.1 (p.2, s)) acc

theorem Passing.slots (h : Passing set outside seen acc)
    {l : List (Option Channel × Nat)} (hl : ∀ p ∈ l, p ∈ set.channels.zipIdx) :
    Passing set outside seen (l.foldl set.passSlot acc) := by
  refine foldlRecOn l _ h fun acc h p hp => ?_
  obtain ⟨slot, i⟩ := p
  cases slot with
  | none => exact h
  | some c =>
    have hi : set.channel i = some c := channel_eq_some.mpr (mk_mem_zipIdx_iff_getElem?.mp (hl _ hp))
    exact h.entries hi (fun s hs => h.marked.sound _ hs) fun q hq => hq

theorem Marked.pass (h : Marked set outside seen) :
    Passing set outside seen (set.markPass seen) := by
  have hstart : Passing set outside seen (seen, false) := ⟨h, fun _ => rfl, nofun⟩
  exact hstart.slots fun p hp => hp

/-! ### A pass that marks nothing -/

theorem markEntry_quiet (h : (set.markEntry holder acc q).2 = false) : set.markEntry holder acc q = acc ∧
      ((holder q.1).reachable = true → (holder q.1).isOpen = true →
        ∀ p, set.named q.2 = some p → (acc.1 p).reachable = true) := by
  rw [markEntry] at h ⊢
  by_cases hactive : ((holder q.1).reachable && (holder q.1).isOpen) = true
  · rw [if_pos hactive] at h ⊢
    cases hn : set.named q.2 with
    | none => exact ⟨rfl, nofun⟩
    | some p =>
      simp only [hn] at h ⊢
      split at h
      · rename_i hp
        exact ⟨if_pos hp, fun _ _ p' he => Option.some.inj he ▸ hp⟩
      · cases h
  · rw [if_neg hactive]
    exact ⟨rfl, fun h1 h2 => absurd (Bool.and_eq_true_iff.mpr ⟨h1, h2⟩) hactive⟩

/-- A fold that leaves the flag down changed nothing on the way. -/
theorem foldl_quiet {β : Type} {f : Marks × Bool → β → Marks × Bool} {Q : Marks × Bool → β → Prop} {l : List β}
    (step : ∀ acc b, (f acc b).2 = false → f acc b = acc ∧ Q acc b) (h : (l.foldl f acc).2 = false) :
    l.foldl f acc = acc ∧ ∀ b ∈ l, Q acc b := by
  induction l generalizing acc with
  | nil => exact ⟨rfl, nofun⟩
  | cons b l ih =>
    rw [foldl_cons] at h ⊢
    obtain ⟨hrest, hl⟩ := ih h
    rw [hrest] at h
    obtain ⟨hb, hq⟩ := step acc b h
    rw [hb] at hrest hl
    rw [hb]
    exact ⟨hrest, forall_mem_cons.mpr ⟨hq, hl⟩⟩

theorem passSlot_quiet (acc : Marks × Bool) (x : Option Channel × Nat) (h : (set.passSlot acc x).2 = false) :
    set.passSlot acc x = acc ∧ ∀ c, x.1 = some c → ∀ q ∈ c.forEachQueued,
      (acc.1 (x.2, q.1)).reachable = true → (acc.1 (x.2, q.1)).isOpen = true →
        ∀ p, set.named q.2 = some p → (acc.1 p).reachable = true := by
  obtain ⟨slot, j⟩ := x
  cases slot with
  | none => exact ⟨rfl, nofun⟩
  | some c' =>
    obtain ⟨hq, hmarked⟩ := foldl_quiet (fun _ _ => markEntry_quiet) h
    exact ⟨hq, fun c hc => Option.some.inj hc ▸ hmarked⟩

/-- Whatever is queued at a marked open endpoint names marked ones. -/
def Stable (set : ChannelSet) (seen : Marks) : Prop :=
  ∀ i c s e p, set.channel i = some c → e ∈ c.queued s → (seen (i, s)).reachable = true →
    (seen (i, s)).isOpen = true → set.named e = some p → (seen p).reachable = true

theorem markPass_quiet (h : (set.markPass seen).2 = false) : Stable set (set.markPass seen).1 := by
  obtain ⟨heq, hl⟩ := foldl_quiet passSlot_quiet (h : (foldl set.passSlot _ _).2 = false)
  rw [show set.markPass seen = (seen, false) from heq]
  intro i c s e p hi he hr ho hp
  exact hl _ (mk_mem_zipIdx_iff_getElem?.mpr (channel_eq_some.mp hi)) c rfl (s, e)
    (mem_forEachQueued.mpr he) hr ho p hp

/-! ## The marks -/

section

variable (h : Accounts set (set.keys + outside) ids)

include h

theorem start_marked : Marked set outside set.start := by
  refine ⟨fun _ => rfl, fun _ => rfl, fun _ h => h, fun p hp => ?_⟩
  obtain ⟨i, s⟩ := p
  cases hi : set.channel i with
  | none =>
    have := (start_none (p := (i, s)) hi).1
    have hroot : (set.start (i, s)).reachable = ((set.start (i, s)).isOpen &&
      (set.start (i, s)).refs != (set.start (i, s)).inFlight) := rfl
    rw [hroot, this] at hp
    cases hp
  | some c => exact .held s hi ((start_some h hi s).2.2.mp hp)

theorem mark_marked : Marked set outside set.mark :=
  passes_invariant (fun _ hm => hm.pass.marked) _ (start_marked h)

theorem mark_stable : Stable set set.mark := by
  refine passes_stable (P := Marked set outside) (μ := set.marked)
    (fun _ hm => hm.pass.marked) (fun _ hm hc => hm.pass.more hc) (fun _ _ hc => markPass_quiet hc)
    (fun seen _ hb => ?_) _ (start_marked h) (Nat.le_add_right _ _)
  intro i c s e p _ _ _ _ hp
  obtain ⟨c', hc'⟩ := channel_of_named hp
  exact all_marked hb (lt_of_channel hc')

end

/-- An entry there is names an open endpoint. -/
theorem isOpen_of_count (h : Accounts set all ids)
    (hi : set.channel i = some c) (hc : all.count (c.id s, .channel) ≠ 0) :
    (c.ends s).isOpen = true := by
  rw [h.isOpen i c hi s, h.refs i c hi s]
  exact hc

theorem mem_keys (hi : set.channel i = some c) (he : e ∈ c.queued s) : e.key ∈ set.keys := by
  rw [keys, carried_eq_coe, Multiset.mem_coe, mem_map]
  exact ⟨(s, e), mem_flatMap.mpr ⟨some c, mem_of_getElem? (channel_eq_some.mp hi),
    mem_forEachQueued.mpr he⟩, rfl⟩

variable (h : Accounts set (set.keys + outside) ids)

include h

theorem Reach.isOpen
    (hr : Reach set outside p) : ∃ c, set.channel p.1 = some c ∧ (c.ends p.2).isOpen = true := by
  cases hr with
  | held s hi hc =>
    refine ⟨_, hi, isOpen_of_count h hi ?_⟩
    rw [Multiset.count_add]
    exact fun hz => hc (Nat.eq_zero_of_add_eq_zero_left hz)
  | carried hr hi he hp =>
    obtain ⟨c, hc, hkey⟩ := (named_iff h).mp hp
    refine ⟨c, hc, isOpen_of_count h hc ?_⟩
    rw [← hkey, Multiset.count_ne_zero, Multiset.mem_add]
    exact .inl (mem_keys hi he)

/-- The marks are what can be reached. -/
theorem mark_iff (p : Nat × Side) : (set.mark p).reachable = true ↔ Reach set outside p := by
  have hm := mark_marked h
  refine ⟨hm.sound p, fun hr => ?_⟩
  induction hr with
  | held s hi hc => exact hm.roots _ ((start_some h hi s).2.2.mpr hc)
  | carried hr hi he hp ih =>
    obtain ⟨c', hc', ho⟩ := hr.isOpen h
    refine mark_stable h _ _ _ _ _ hi he ih ?_ hp
    rw [hm.isOpen, (start_some h hc' _).1]
    exact ho

theorem mem_dead : p ∈ set.dead ↔ ∃ c, set.channel p.1 = some c ∧
      ((c.ends p.2).isOpen = true ∧ ¬ Reach set outside p ∨
        (c.ends p.2).isOpen = false ∧ 0 < (c.ends p.2).inbox.len) := by
  have hm := mark_marked h
  rw [dead, mem_filter, mem_endpoints, isDead, ← mark_iff h p, hm.isOpen, hm.queued]
  cases hi : set.channel p.1 with
  | none =>
    obtain ⟨ho, hq⟩ := start_none hi
    simp [ho, hq]
  | some c =>
    obtain ⟨ho, hq, -⟩ := start_some h hi p.2
    have hlt := lt_of_channel hi
    rw [ho, hq]
    cases hopen : (c.ends p.2).isOpen <;> simp [hlt, hopen]

end ChannelSet

end Kintane
