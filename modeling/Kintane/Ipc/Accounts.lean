import Kintane.Ipc.Keys
import Kintane.Ipc.Set

/-!
# The references of a set's endpoints

What a set's queues carry, and the accounts of its endpoints against all the entries there
are: an endpoint has as many references as there are entries that name it. Whatever is done to
one channel keeps the accounts of the others.
-/

open Multiset

namespace Kintane

open Channel ChannelSet

theorem count_add_ne {m : Multiset Key} {k k' : Nat} (h : k ≠ k') :
    (m + {(k', ObjectType.channel)}).count (k, .channel) = m.count (k, .channel) := by
  rw [count_add, count_singleton, if_neg fun he => h (Prod.ext_iff.mp he).1, add_zero]

theorem count_add_self (m : Multiset Key) (k : Nat) :
    (m + {(k, ObjectType.channel)}).count (k, .channel) = m.count (k, .channel) + 1 := by
  rw [count_add, count_singleton_self]

variable {i j : Nat} {e : Entry} {set : ChannelSet} {c c' : Channel} {all : Multiset Key} {ids : List Nat}

namespace ChannelSet

theorem channel_eq_some : set.channel i = some c ↔ set.channels[i]? = some (some c) := Option.join_eq_some_iff

theorem channel_put_self (hj : j < set.channels.length) (c : Channel) : (set.put j c).channel j = some c :=
  channel_eq_some.mpr (List.getElem?_set_self hj)

theorem channel_put_ne (h : i ≠ j) (c : Channel) : (set.put j c).channel i = set.channel i := by
  rw [channel, put, List.getElem?_set_ne h.symm, channel]

theorem lt_of_channel (hj : set.channel j = some c) :
    j < set.channels.length := (List.getElem?_eq_some_iff.mp (channel_eq_some.mp hj)).1

theorem put_same (hj : set.channel j = some c) : set.put j c = set := by
  rw [put, Tally.set_same (channel_eq_some.mp hj)]

/-! ## Naming -/

variable {p : Nat × Side}

theorem find_spec {object : Nat} (h : set.find object = some p) :
    ∃ c, set.channel p.1 = some c ∧ c.id p.2 = object := by
  obtain ⟨⟨slot, i⟩, hmem, he⟩ := List.exists_of_findSome?_eq_some h
  have hslot := List.mk_mem_zipIdx_iff_getElem?.mp hmem
  cases slot with
  | none => cases he
  | some c =>
    simp only [Option.bind_some, Option.map_eq_some_iff] at he
    obtain ⟨s, hs, rfl⟩ := he
    exact ⟨c, channel_eq_some.mpr hslot, id_of_sideOf hs⟩

theorem sideOf_isSome (c : Channel) (s : Side) : (c.sideOf (c.id s)).isSome = true := by
  unfold Channel.sideOf
  cases s
  · rw [Channel.id, if_pos rfl]
    rfl
  · split
    · rfl
    · rw [Channel.id, if_pos rfl]
      rfl

theorem find_isSome (hi : set.channel i = some c) (s : Side) : (set.find (c.id s)).isSome = true := by
  rw [find, List.findSome?_isSome_iff]
  refine ⟨(some c, i), List.mk_mem_zipIdx_iff_getElem?.mpr (channel_eq_some.mp hi), ?_⟩
  rw [Option.isSome_map]
  exact sideOf_isSome c s

theorem channel_of_named (he : set.named e = some p) : ∃ c, set.channel p.1 = some c := by
  unfold named at he
  split at he
  · cases he
  · obtain ⟨c, hc, -⟩ := find_spec he
    exact ⟨c, hc⟩

theorem key_ne_of_named (hn : set.named e = none)
    (hi : set.channel i = some c) (s : Side) : e.key ≠ (c.id s, .channel) := by
  intro he
  have hobject : e.object = c.id s := congrArg Prod.fst he
  have hkind : e.kind = .channel := congrArg Prod.snd he
  rw [named, if_neg (not_not.mpr hkind), hobject] at hn
  have := find_isSome hi s
  rw [hn] at this
  cases this

/-! ## What the queues carry -/

section Carried

variable {β : Type*} (g : Entry → β) {m : Multiset β}

def slotCarried (slot : Option Channel) : Multiset β :=
  match slot with
  | none => 0
  | some c => c.carried g

/-- What is known of the entries in the queues of a set. -/
def carried (set : ChannelSet) : Multiset β := Tally.total (slotCarried g) set.channels

theorem carried_new (cap : Nat) : (new cap).carried g = 0 := by
  rw [carried, new]
  induction cap with
  | zero => rfl
  | succ n ih =>
    rw [List.replicate_succ, Tally.total_cons, ih]
    rfl

section

variable (hj : set.channel j = some c)

include hj

theorem carried_put_add (hc : c'.carried g = c.carried g + m) : (set.put j c').carried g = set.carried g + m :=
  Tally.total_set_add (slotCarried g) (channel_eq_some.mp hj) hc

theorem carried_put_sub (hc : c.carried g = c'.carried g + m) : set.carried g = (set.put j c').carried g + m :=
  Tally.total_set_sub (slotCarried g) (channel_eq_some.mp hj) hc

theorem carried_put_same (hc : c'.carried g = c.carried g) : (set.put j c').carried g = set.carried g := by
  have := carried_put_add g hj (m := 0) (hc.trans (add_zero _).symm)
  rwa [add_zero] at this

end

theorem slotCarried_vacant {slot : Option Channel} (h : vacant slot = true) : slotCarried g slot = 0 := by
  cases slot with
  | none => rfl
  | some c =>
    simp only [vacant, finished, List.all_cons, List.all_nil, Bool.and_true, Bool.and_eq_true, beq_iff_eq] at h
    have none : ∀ s, (c.ends s).inbox.len = 0 → c.queueOf g s = 0 := by
      intro s hs
      rw [queueOf, queued, Inbox.messages, hs]
      rfl
    rw [slotCarried, carried_eq g c .a, none _ h.1.2]
    exact (zero_add _).trans (none .b h.2.2)

end Carried

/-- What the entries in the queues of a set name. -/
abbrev keys (set : ChannelSet) : Multiset Key := set.carried Entry.key

end ChannelSet

/-! ## Accounts -/

/-- The endpoints of a set, against all the entries there are and the identities in use. -/
structure Accounts (set : ChannelSet) (all : Multiset Key) (ids : List Nat) :
    Prop where
  fits : ∀ i c, set.channel i = some c → ∃ d, c.Fits d
  refs : ∀ i c, set.channel i = some c → ∀ s, (c.ends s).refs = all.count (c.id s, .channel)
  bound : ∀ i c, set.channel i = some c → ∀ s, (c.ends s).refs ≤ u32Max
  isOpen : ∀ i c, set.channel i = some c → ∀ s, (c.ends s).isOpen = true ↔ (c.ends s).refs ≠ 0
  apart : ∀ i j c c' s s', set.channel i = some c → set.channel j = some c' →
    c.id s = c'.id s' → i = j ∧ s = s'
  used : ∀ i c, set.channel i = some c → ∀ s, c.id s ∈ ids
  known : ∀ k ∈ all, k.2 = .channel → k.1 ∈ ids

namespace Accounts

variable {all' : Multiset Key} {side : Side} {d : Nat}

theorem new (cap : Nat) : Accounts (.new cap) 0 [] := by
  have empty : ∀ i c, (ChannelSet.new cap).channel i ≠ some c := by
    intro i c h
    have := List.mem_of_getElem? (ChannelSet.channel_eq_some.mp h)
    cases List.eq_of_mem_replicate this
  exact ⟨fun i c h => absurd h (empty i c), fun i c h => absurd h (empty i c),
    fun i c h => absurd h (empty i c), fun i c h => absurd h (empty i c),
    fun i _ c _ _ _ h => absurd h (empty i c), fun i c h => absurd h (empty i c), nofun⟩

/-- The identities of a channel's endpoints are different. -/
theorem side_eq (h : Accounts set all ids) (hj : set.channel j = some c) {s s' : Side}
    (he : c.id s = c.id s') : s = s' := (h.apart j j c c s s' hj hj he).2

/-- A channel of the set is the one that changed, or as it was. -/
theorem put_cases {u : Channel} (hu : (set.put j c').channel i = some u) :
    i = j ∧ u = c' ∨ i ≠ j ∧ set.channel i = some u := by
  by_cases hi : i = j
  · subst hi
    have hlt := lt_of_channel hu
    rw [put, List.length_set] at hlt
    rw [channel_put_self hlt] at hu
    exact .inl ⟨rfl, (Option.some.inj hu).symm⟩
  · rw [channel_put_ne hi] at hu
    exact .inr ⟨hi, hu⟩

/-- What holds of the channel that changed and of the others holds of each. -/
theorem each_put {P : Nat → Channel → Prop} (here : P j c')
    (other : ∀ i u, i ≠ j → set.channel i = some u → P i u) : ∀ i u, (set.put j c').channel i = some u → P i u := by
  intro i u hu
  rcases put_cases hu with ⟨rfl, rfl⟩ | ⟨hne, hu⟩
  · exact here
  · exact other i u hne hu

section

variable (h : Accounts set all ids)

include h

/-- One channel changes, but not what its endpoints are. -/
theorem put (hj : set.channel j = some c) (id : c'.id = c.id) (fits : ∃ d, c'.Fits d)
    (here : ∀ s, (c'.ends s).refs = all'.count (c.id s, .channel))
    (bound : ∀ s, (c'.ends s).refs ≤ u32Max)
    (isOpen : ∀ s, (c'.ends s).isOpen = true ↔ (c'.ends s).refs ≠ 0)
    (elsewhere : ∀ k : Nat, (∀ s, k ≠ c.id s) → all'.count (k, .channel) = all.count (k, .channel))
    (known : ∀ k ∈ all', k ∈ all) : Accounts (set.put j c') all' ids := by
  -- Every channel is at the place of one with the same identities.
  have back : ∀ i u, (set.put j c').channel i = some u → ∃ v, set.channel i = some v ∧ u.id = v.id :=
    each_put ⟨c, hj, id⟩ fun i u _ hu => ⟨u, hu, rfl⟩
  refine ⟨each_put fits fun i u _ => h.fits i u, each_put (fun s => ?_) fun i u hne hu s => ?_,
    each_put bound fun i u _ => h.bound i u, each_put isOpen fun i u _ => h.isOpen i u,
    fun i i' u u' s s' hu hu' he => ?_, each_put (fun s => id ▸ h.used j c hj s) fun i u _ => h.used i u,
    fun k hk => h.known k (known k hk)⟩
  · rw [here, id]
  · rw [elsewhere _ fun s' he => hne (h.apart i j u c s s' hu hj he).1]
    exact h.refs i u hu s
  · obtain ⟨v, hv, hid⟩ := back i u hu
    obtain ⟨v', hv', hid'⟩ := back i' u' hu'
    rw [hid, hid'] at he
    exact h.apart i i' v v' s s' hv hv' he

/-- Entries moved between a channel and other places. -/
theorem kept (hj : set.channel j = some c)
    (hk : Channel.Kept d c c') : Accounts (set.put j c') all ids := by
  refine h.put hj hk.id ⟨d, hk.fits⟩ (fun s => ?_) (fun s => ?_) (fun s => ?_) (fun _ _ => rfl) fun _ hk => hk
  · rw [hk.refs s]
    exact h.refs j c hj s
  · rw [hk.refs s]
    exact h.bound j c hj s
  · rw [hk.refs s, hk.isOpen s]
    exact h.isOpen j c hj s

/-- References of one side more or less, as many as there are entries. -/
theorem counted {e : End} (hj : set.channel j = some c) (inbox : e.inbox = (c.ends side).inbox)
    (count : ∀ k : Nat, k ≠ c.id side → all'.count (k, .channel) = all.count (k, .channel))
    (here : e.refs = all'.count (c.id side, .channel)) (bound : e.refs ≤ u32Max)
    (isOpen : e.isOpen = true ↔ e.refs ≠ 0) (known : ∀ k ∈ all', k ∈ all) :
    Accounts (set.put j (c.setEnd side e)) all' ids := by
  obtain ⟨d, hfits⟩ := h.fits j c hj
  -- Each end is the one that changed, or as it was.
  have each {P : Side → End → Prop} (changed : P side e) (other : ∀ s, s ≠ side → P s (c.ends s)) (s : Side) :
      P s ((c.setEnd side e).ends s) := by
    by_cases hs : s = side
    · subst hs
      rwa [ends_setEnd_self]
    · rw [ends_setEnd_ne c hs]
      exact other s hs
  refine h.put hj (id_setEnd c side e) ⟨d, hfits.setEnd (inbox ▸ hfits side)⟩
    (each (P := fun s e => e.refs = all'.count (c.id s, .channel)) here fun s hs => ?_)
    (each (P := fun _ e => e.refs ≤ u32Max) bound fun s _ => h.bound j c hj s)
    (each (P := fun _ e => e.isOpen = true ↔ e.refs ≠ 0) isOpen fun s _ => h.isOpen j c hj s)
    (fun k hk => count k (hk side)) known
  rw [count _ fun he => hs (h.side_eq hj he)]
  exact h.refs j c hj s

/-- One reference more. -/
theorem acquired (hj : set.channel j = some c)
    (hopen : (c.ends side).isOpen = true) (hmax : (c.ends side).refs + 1 ≤ u32Max) :
    Accounts (set.put j (c.setEnd side { c.ends side with refs := (c.ends side).refs + 1 }))
      (all + {(c.id side, .channel)}) ids := by
  have hrefs := h.refs j c hj side
  refine h.counted hj rfl (fun k hk => count_add_ne hk) ?_ hmax
    (iff_of_true hopen (Nat.succ_ne_zero _)) fun k hk => ?_
  · rw [count_add_self, hrefs]
  · rw [mem_add, mem_singleton] at hk
    rcases hk with hk | rfl
    · exact hk
    · have := (h.isOpen j c hj side).mp hopen
      rw [hrefs] at this
      exact count_ne_zero.mp this

end

/-- One reference less. -/
theorem released (h : Accounts set (all + {(c.id side, .channel)}) ids) (hj : set.channel j = some c) :
    Accounts (set.put j (c.setEnd side (c.ends side).release)) all ids := by
  have hrefs := h.refs j c hj side
  rw [count_add_self] at hrefs
  have hopen : (c.ends side).isOpen = true := (h.isOpen j c hj side).mpr (by omega)
  refine h.counted hj rfl (fun k hk => (count_add_ne hk).symm) (Nat.sub_eq_of_eq_add hrefs)
    ((Nat.sub_le _ _).trans (h.bound j c hj side)) ?_ fun k hk => mem_add.mpr (.inl hk)
  simp only [End.release, hopen]
  by_cases hz : (c.ends side).refs - 1 = 0 <;> simp [hz]

/-- A channel whose identities nothing used. -/
theorem fresh (h : Accounts set all ids) (fits : c.Fits d) (refs : ∀ s, (c.ends s).refs = 1)
    (opened : ∀ s, (c.ends s).isOpen = true) (unused : ∀ s, c.id s ∉ ids) (ne : c.id .a ≠ c.id .b) :
    Accounts (set.put j c) (all + {(c.id .b, .channel)} + {(c.id .a, .channel)})
      (c.id .a :: c.id .b :: ids) := by
  have old : ∀ k ∈ ids, (all + {(c.id .b, .channel)} + {(c.id .a, .channel)}).count (k, .channel) =
      all.count (k, .channel) := by
    intro k hk
    have hne : ∀ s, k ≠ c.id s := fun s he => unused s (he ▸ hk)
    rw [count_add_ne (hne .a), count_add_ne (hne .b)]
  have none : ∀ s, all.count (c.id s, .channel) = 0 := fun s =>
    count_eq_zero.mpr fun hk => unused s (h.known _ hk rfl)
  have one : ∀ s, (all + {(c.id .b, .channel)} + {(c.id .a, .channel)}).count (c.id s, .channel) = 1 := by
    intro s
    cases s
    · rw [count_add_self, count_add_ne ne, none]
    · rw [count_add_ne ne.symm, count_add_self, none]
  refine ⟨each_put ⟨d, fits⟩ fun i u _ => h.fits i u,
    each_put (fun s => (refs s).trans (one s).symm) fun i u _ hu s => ?_,
    each_put (fun s => by rw [refs]; decide) fun i u _ => h.bound i u,
    each_put (fun s => iff_of_true (opened s) (by rw [refs]; exact Nat.one_ne_zero)) fun i u _ => h.isOpen i u,
    fun i i' u u' s s' hu hu' he => ?_, each_put (fun s => by cases s <;> simp) fun i u _ hu s => ?_,
    fun k hk hkind => ?_⟩
  · rw [old _ (h.used i u hu s)]
    exact h.refs i u hu s
  · -- An identity of the new channel is not one of an old channel.
    rcases put_cases hu with ⟨rfl, rfl⟩ | ⟨-, hv⟩ <;>
      rcases put_cases hu' with ⟨rfl, rfl⟩ | ⟨-, hv'⟩
    · refine ⟨rfl, ?_⟩
      cases s <;> cases s'
      · rfl
      · exact absurd he ne
      · exact absurd he ne.symm
      · rfl
    · exact absurd (he ▸ h.used i' u' hv' s') (unused s)
    · exact absurd (he ▸ h.used i u hv s) (unused s')
    · exact h.apart i i' u u' s s' hv hv' he
  · exact List.mem_cons_of_mem _ (List.mem_cons_of_mem _ (h.used i u hu s))
  · rw [mem_add, mem_add, mem_singleton, mem_singleton] at hk
    rcases hk with (hk | rfl) | rfl
    · exact List.mem_cons_of_mem _ (List.mem_cons_of_mem _ (h.known k hk hkind))
    · exact List.mem_cons_of_mem _ List.mem_cons_self
    · exact List.mem_cons_self

/-- An entry of another object comes. -/
theorem brought (h : Accounts set all ids) (hn : set.named e = none) :
    Accounts set (all + {e.key}) (e.object :: ids) := by
  refine { h with
    refs := fun i c hi s => ?_
    used := fun i c hi s => List.mem_cons_of_mem _ (h.used i c hi s)
    known := fun k hk hkind => ?_ }
  · rw [count_add, count_singleton, if_neg (key_ne_of_named hn hi s).symm, add_zero]
    exact h.refs i c hi s
  · rcases mem_add.mp hk with hk | hk
    · exact List.mem_cons_of_mem _ (h.known k hk hkind)
    · rw [mem_singleton.mp hk]
      exact List.mem_cons_self

/-- An entry of another object goes. -/
theorem discarded (h : Accounts set (all + {e.key}) ids) (hn : set.named e = none) : Accounts set all ids := by
  refine { h with
    refs := fun i c hi s => ?_
    known := fun k hk => h.known k (mem_add.mpr (.inl hk)) }
  have := h.refs i c hi s
  rwa [count_add, count_singleton, if_neg (key_ne_of_named hn hi s).symm, add_zero] at this

end Accounts

namespace ChannelSet

/-- An entry names the endpoint whose identity it has. -/
theorem named_iff (h : Accounts set all ids) {s : Side} :
    set.named e = some (i, s) ↔ ∃ c, set.channel i = some c ∧ e.key = (c.id s, .channel) := by
  unfold named
  constructor
  · intro he
    split at he
    · cases he
    · rename_i hkind
      obtain ⟨c, hc, hid⟩ := find_spec he
      exact ⟨c, hc, Prod.ext hid.symm (not_not.mp hkind)⟩
  · rintro ⟨c, hc, hkey⟩
    have hobject : e.object = c.id s := congrArg Prod.fst hkey
    have hkind : e.kind = .channel := congrArg Prod.snd hkey
    rw [if_neg (not_not.mpr hkind), hobject]
    obtain ⟨⟨j, s'⟩, hp⟩ := Option.isSome_iff_exists.mp (find_isSome hc s)
    obtain ⟨c', hc', hid⟩ := find_spec hp
    obtain ⟨rfl, rfl⟩ := h.apart _ _ _ _ _ _ hc' hc hid
    exact hp

end ChannelSet

end Kintane
