import Mathlib.Algebra.Order.BigOperators.Group.List
import Mathlib.Tactic.Abel
import Kintane.Ipc.SetProof

/-!
# Sweeping takes apart what cannot be reached

One entry disposed of, one message, one inbox, one round, and rounds until none is left to do.
No step touches the inbox of an endpoint that could be reached when the collection began, so
what can be reached stays the same throughout, and each round marks the same endpoints. A round
with something to do removes a message, because an open endpoint that cannot be reached is
named by an entry in an inbox that is to be taken apart.
-/

open Multiset

namespace Kintane

open Channel Entry

variable {c : Channel} {s : Side} {p : Nat × Side} {i fuel : Nat} {set : ChannelSet} {outside : Multiset Key}
  {ids : List Nat}

/-- Releasing an entry that names an endpoint which has references. -/
theorem Channel.releaseKeepingInbox_of_key {e : Entry}
    (he : e.key = (c.id s, .channel)) (apart : ∀ {s'}, c.id s' = c.id s → s' = s)
    (hone : 1 ≤ (c.ends s).refs) :
    ∃ closed, c.releaseKeepingInbox e = (c.setEnd s (c.ends s).release, .ok closed) := by
  have hobject : e.object = c.id s := congrArg Prod.fst he
  have hkind : e.kind = .channel := congrArg Prod.snd he
  have hside : c.sideOfEntry e = .ok s := by
    obtain ⟨s', hs'⟩ := Option.isSome_iff_exists.mp (ChannelSet.sideOf_isSome c s)
    have := apart (id_of_sideOf hs')
    subst this
    simp only [sideOfEntry, hkind, hobject, hs', ne_eq, not_true_eq_false, if_false]
  refine ⟨decide ((c.ends s).refs - 1 = 0), ?_⟩
  simp only [releaseKeepingInbox, hside, checkedSub_of_le hone, End.release]

namespace ChannelSet

variable {set' : ChannelSet} {c' : Channel}

/-- The inbox of an endpoint, and how many messages wait in it. -/
def inboxAt (set : ChannelSet) (p : Nat × Side) : Option Inbox :=
  (set.channel p.1).map fun c => (c.ends p.2).inbox

def lenAt (set : ChannelSet) (p : Nat × Side) : Nat := ((set.inboxAt p).map (·.len)).getD 0

def idsAt (set : ChannelSet) (i : Nat) : Option (Side → Nat) := (set.channel i).map Channel.id

theorem inboxAt_some (h : set.channel p.1 = some c) : set.inboxAt p = some (c.ends p.2).inbox := by
  rw [inboxAt, h]
  rfl

theorem lenAt_some (h : set.channel p.1 = some c) : set.lenAt p = (c.ends p.2).inbox.len := by
  rw [lenAt, inboxAt_some h]
  rfl

theorem lenAt_congr (h : set'.inboxAt p = set.inboxAt p) : set'.lenAt p = set.lenAt p := by
  rw [lenAt, lenAt, h]

theorem inboxAt_put (hi : set.channel i = some c) (h : p.1 = i → (c'.ends p.2).inbox = (c.ends p.2).inbox) :
    (set.put i c').inboxAt p = set.inboxAt p := by
  obtain ⟨j, s⟩ := p
  by_cases hj : j = i
  · subst hj
    rw [inboxAt_some (channel_put_self (lt_of_channel hi) c'), h rfl, inboxAt_some hi]
  · rw [inboxAt, channel_put_ne hj, inboxAt]

theorem idsAt_put (hi : set.channel i = some c) (h : c'.id = c.id)
    (j : Nat) : (set.put i c').idsAt j = set.idsAt j := by
  by_cases hj : j = i
  · subst hj
    rw [idsAt, channel_put_self (lt_of_channel hi), idsAt, hi, Option.map_some, h]
    rfl
  · rw [idsAt, channel_put_ne hj, idsAt]

theorem channel_of_idsAt (h : set'.idsAt i = set.idsAt i) (hi : set.channel i = some c) :
    ∃ c', set'.channel i = some c' ∧ c'.id = c.id := by
  rw [idsAt, idsAt, hi, Option.map_some, Option.map_eq_some_iff] at h
  exact h

def slotMessages (slot : Option Channel) : Nat :=
  match slot with
  | none => 0
  | some c => (c.ends .a).inbox.len + (c.ends .b).inbox.len

theorem messages_eq (set : ChannelSet) : set.messages = Tally.total slotMessages set.channels :=
  rfl

theorem slotMessages_setEnd (c : Channel) (s : Side) (e : End) :
    slotMessages (some (c.setEnd s e)) + (c.ends s).inbox.len =
      slotMessages (some c) + e.inbox.len := by
  have hpeer := ends_setEnd_ne c s.peer_ne e
  have hself := ends_setEnd_self c s e
  cases s
  · simp only [slotMessages, hself, show (c.setEnd .a e).ends .b = c.ends .b from hpeer]
    omega
  · simp only [slotMessages, hself, show (c.setEnd .b e).ends .a = c.ends .a from hpeer]
    omega

theorem messages_setEnd (hi : set.channel i = some c) (s : Side) (e : End) :
    (set.put i (c.setEnd s e)).messages + (c.ends s).inbox.len = set.messages + e.inbox.len := by
  have htotal : (set.put i (c.setEnd s e)).messages + slotMessages (some c) =
      set.messages + slotMessages (some (c.setEnd s e)) :=
    Tally.total_set slotMessages (channel_eq_some.mp hi) _
  have := slotMessages_setEnd c s e
  omega

theorem lenAt_le_messages (set : ChannelSet) (p : Nat × Side) : set.lenAt p ≤ set.messages := by
  cases hi : set.channel p.1 with
  | none =>
    rw [lenAt, inboxAt, hi]
    exact Nat.zero_le _
  | some c =>
    rw [lenAt_some hi, messages_eq]
    refine le_trans ?_ (List.le_sum_of_mem (List.mem_map_of_mem (List.mem_of_getElem? (channel_eq_some.mp hi))))
    cases p.2
    · exact Nat.le_add_right ..
    · exact Nat.le_add_left ..

theorem carried_map {β : Type*} (g : Entry → β) (set : ChannelSet) :
    set.carried g = (set.carried id).map g := by
  rw [carried_eq_coe, carried_eq_coe, map_coe, List.map_map]
  rfl

/-- What the references of an endpoint say has no part in its queue. -/
theorem put_setEnd {e : End} (hi : set.channel i = some c) (he : e.inbox = (c.ends s).inbox) :
    (∀ p, (set.put i (c.setEnd s e)).inboxAt p = set.inboxAt p) ∧
      (∀ j, (set.put i (c.setEnd s e)).idsAt j = set.idsAt j) ∧
      (set.put i (c.setEnd s e)).messages = set.messages ∧
      ∀ {β : Type} (g : Entry → β), (set.put i (c.setEnd s e)).carried g = set.carried g := by
  refine ⟨fun p => inboxAt_put hi fun _ => ?_, idsAt_put hi (id_setEnd c s e), ?_,
    fun g => carried_put_same g hi (carried_setEnd_same g he)⟩
  · by_cases hs : p.2 = s
    · rw [hs, ends_setEnd_self, he]
    · rw [ends_setEnd_ne c hs]
  · have := messages_setEnd hi s e
    rw [he] at this
    exact Nat.add_right_cancel this

/-- What an entry names depends on the identities only. -/
theorem named_congr {all all' : Multiset Key} (h : Accounts set all ids) (h' : Accounts set' all' ids)
    (hids : ∀ i, set'.idsAt i = set.idsAt i) (e : Entry) : set'.named e = set.named e := by
  refine Option.ext fun p => ?_
  obtain ⟨i, s⟩ := p
  rw [named_iff h, named_iff h']
  have key : ∀ u : ChannelSet, (∃ c, u.channel i = some c ∧ e.key = (c.id s, .channel)) ↔
      ∃ f, u.idsAt i = some f ∧ e.key = (f s, .channel) := by
    intro u
    rw [idsAt]
    constructor
    · rintro ⟨c, hc, hk⟩
      exact ⟨c.id, by rw [hc]; rfl, hk⟩
    · rintro ⟨f, hf, hk⟩
      obtain ⟨c, hc, rfl⟩ := Option.map_eq_some_iff.mp hf
      exact ⟨c, hc, hk⟩
  rw [key, key, hids]

end ChannelSet

/-! ## The invariant of a collection -/

open ChannelSet in
/-- A collection that began with `first`, with entries in hand that are still to be disposed
of. -/
structure Swept (first : ChannelSet) (outside : Multiset Key) (ids : List Nat)
    (pending : List Entry) (w : Sweep) : Prop where
  begun : Accounts first (first.keys + outside) ids
  accounts : Accounts w.set
    (w.set.keys + (↑(pending.map key) + ↑(w.sunk.map key) + outside)) ids
  idsAt : ∀ i, w.set.idsAt i = first.idsAt i
  kept : ∀ p, Reach first outside p → w.set.inboxAt p = first.inboxAt p
  total : w.set.messages + w.done.messages = first.messages
  /-- Where the entries went that are no longer queued. -/
  ledger : ∃ released : Multiset Entry,
    first.carried id = w.set.carried id + (↑pending + ↑w.sunk + released) ∧
      (∀ e ∈ released, (first.named e).isSome = true) ∧ ∀ e ∈ w.sunk, first.named e = none

namespace Swept

open ChannelSet

variable {first : ChannelSet} {pending : List Entry} {w : Sweep} {e : Entry}

theorem start (h : Accounts first (first.keys + outside) ids) :
    Swept first outside ids [] ⟨first, [], ⟨0, 0, 0⟩⟩ where
  begun := h
  accounts := by
    rw [List.map_nil, coe_nil, zero_add, zero_add]
    exact h
  idsAt _ := rfl
  kept _ _ := rfl
  total := add_zero _
  ledger := ⟨0, (add_zero _).symm, nofun, nofun⟩

theorem named (h : Swept first outside ids pending w) (e : Entry) :
    w.set.named e = first.named e := named_congr h.begun h.accounts h.idsAt e

/-- Only the counts of rounds and of closed endpoints changed. -/
theorem congr_done (h : Swept first outside ids pending w) (done : Collected)
    (hm : done.messages = w.done.messages) :
    Swept first outside ids pending { w with done } :=
  { h with total := hm ▸ h.total }

section

variable (h : Swept first outside ids (e :: pending) w)

include h

/-- An entry that names no endpoint of the set goes to the sink. -/
theorem sink (he : w.set.named e = none) :
    Swept first outside ids pending { w with sunk := w.sunk ++ [e] } := by
  have hcoe : ∀ {β : Type} (g : Entry → β), (↑(pending.map g) + ↑((w.sunk ++ [e]).map g) : Multiset β) =
      ↑((e :: pending).map g) + ↑(w.sunk.map g) := by
    intro β g
    simp only [coe_add, List.map_append, List.map_cons, List.map_nil, List.cons_append]
    exact coe_eq_coe.mpr
      (by rw [← List.append_assoc]; exact List.perm_append_comm.trans (List.Perm.refl _))
  obtain ⟨released, hl, hr, hs⟩ := h.ledger
  refine { h with accounts := ?_, ledger := ⟨released, ?_, hr, fun x hx => ?_⟩ }
  · simp only [hcoe]
    exact h.accounts
  · have := hcoe id
    simp only [List.map_id] at this
    rw [this]
    exact hl
  · rcases List.mem_append.mp hx with hx | hx
    · exact hs x hx
    · rw [List.mem_singleton.mp hx, ← h.named]
      exact he

/-- Another is released, and closes the endpoint it names when it was the last. -/
theorem release (hi : w.set.channel i = some c) (he : e.key = (c.id s, .channel)) :
    Swept first outside ids pending
      { w with set := w.set.put i (c.setEnd s (c.ends s).release) } := by
  have hall : w.set.keys + (↑((e :: pending).map key) + ↑(w.sunk.map key) + outside) =
      w.set.keys + (↑(pending.map key) + ↑(w.sunk.map key) + outside) +
        {(c.id s, .channel)} := by
    rw [List.map_cons, ← cons_coe, ← singleton_add, he]
    abel
  have haccounts := h.accounts
  rw [hall] at haccounts
  obtain ⟨hinbox, hids, hmessages, hcarried⟩ := put_setEnd hi (s := s) (e := (c.ends s).release) rfl
  obtain ⟨released, hl, hr, hs⟩ := h.ledger
  refine ⟨h.begun, ?_, fun j => (hids j).trans (h.idsAt j), fun p hp => (hinbox p).trans (h.kept p hp),
    by rw [hmessages]; exact h.total, released + {e}, ?_, fun x hx => ?_, hs⟩
  · rw [ChannelSet.keys, hcarried]
    exact haccounts.released hi
  · rw [hl, hcarried, ← cons_coe, ← singleton_add]
    abel
  · rcases mem_add.mp hx with hx | hx
    · exact hr x hx
    · rw [mem_singleton.mp hx, ← h.named, (named_iff h.accounts).mpr ⟨c, hi, he⟩]
      rfl

theorem dispose : Swept first outside ids pending (w.dispose e) := by
  cases hn : w.set.named e with
  | none =>
    simp only [Sweep.dispose, hn, Option.bind_none]
    exact h.sink hn
  | some p =>
    obtain ⟨i, s⟩ := p
    obtain ⟨c, hi, he⟩ := (named_iff h.accounts).mp hn
    have hw := h.release hi he
    have hone : 1 ≤ (c.ends s).refs := by
      rw [h.accounts.refs i c hi s, ← he, one_le_count_iff_mem, mem_add, mem_add, mem_add]
      exact .inr (.inl (.inl List.mem_cons_self))
    obtain ⟨b, hc⟩ := releaseKeepingInbox_of_key he (h.accounts.side_eq hi) hone
    cases b with
    | false =>
      simp only [Sweep.dispose, hn, Option.bind_some, hi, Option.map_some, hc]
      exact hw
    | true =>
      simp only [Sweep.dispose, hn, Option.bind_some, hi, Option.map_some, hc]
      exact hw.congr_done _ rfl

end

theorem disposeAll (h : Swept first outside ids pending w) :
    Swept first outside ids [] (pending.foldl Sweep.dispose w) := by
  induction pending generalizing w with
  | nil => exact h
  | cons e l ih => exact ih h.dispose

/-- The front message of an inbox that cannot be reached. -/
theorem take (h : Swept first outside ids [] w)
    (hr : ¬ Reach first outside (i, s)) (hi : w.set.channel i = some c) :
    c.takeMessage s = (c, none) ∧ (c.ends s).inbox.len = 0 ∨
      ∃ c' entries, c.takeMessage s = (c', some entries) ∧
        (w.set.put i c').lenAt (i, s) + 1 = w.set.lenAt (i, s) ∧
        (∀ p, p ≠ (i, s) → (w.set.put i c').inboxAt p = w.set.inboxAt p) ∧
        Swept first outside ids (entries.filterMap id)
          { w with
            set := w.set.put i c'
            done := { w.done with messages := w.done.messages + 1 } } := by
  obtain ⟨d, hfits⟩ := h.accounts.fits i c hi
  have hq := hfits s
  rcases takeMessage_cases hq with ⟨hempty, hc⟩ | ⟨msg, hfront, hc⟩
  · refine .inl ⟨hc, ?_⟩
    rw [← hq.length_packets, hempty]
    rfl
  obtain ⟨hpackets, hok, -⟩ := hq.pop hfront
  obtain ⟨c', taken, hc', hkept, hmoves⟩ := takeMessage_moves hfits s
  rw [hc] at hc'
  cases hc'
  have hlen : (c.ends s).inbox.len = (c.ends s).inbox.discardFront.len + 1 := by
    rw [← hq.length_packets, ← hok.length_packets, hpackets]
    rfl
  generalize he : ({ c.ends s with inbox := (c.ends s).inbox.discardFront } : End) = e
    at hc hkept hmoves
  have hinbox : e.inbox = (c.ends s).inbox.discardFront := he ▸ rfl
  rw [← hinbox] at hlen
  have hother : ∀ p, p ≠ (i, s) → (w.set.put i (c.setEnd s e)).inboxAt p = w.set.inboxAt p := by
    intro p hp
    refine inboxAt_put hi fun he => ?_
    rw [ends_setEnd_ne c fun hs => hp (Prod.ext he hs)]
  refine .inr ⟨_, _, hc, ?_, hother, ?_⟩
  · rw [lenAt_some (channel_put_self (lt_of_channel hi) _), lenAt_some hi, ends_setEnd_self]
    exact hlen.symm
  · have hcarried := fun {β : Type} (g : Entry → β) => carried_put_sub g hi (hmoves g)
    obtain ⟨released, hl, hrel, hs⟩ := h.ledger
    refine ⟨h.begun, ?_, fun j => (idsAt_put hi hkept.id j).trans (h.idsAt j),
      fun p hp => (hother p fun he => hr (he ▸ hp)).trans (h.kept p hp), ?_, released, ?_, hrel, hs⟩
    · have := h.accounts.kept hi hkept
      rw [ChannelSet.keys, hcarried key, List.map_nil, coe_nil, zero_add, add_assoc,
        ← add_assoc _ _ outside] at this
      exact this
    · have := messages_setEnd hi s e
      have := h.total
      simp only
      omega
    · rw [hl, hcarried id, coe_nil, zero_add, List.map_id, add_assoc, ← add_assoc _ _ released]
      rfl

theorem dispose_inboxAt (w : Sweep) (e : Entry) (p : Nat × Side) :
    (w.dispose e).set.inboxAt p = w.set.inboxAt p := by
  unfold Sweep.dispose
  cases hn : (w.set.named e).bind fun p => (w.set.channel p.1).map fun t => (p.1, t) with
  | none => rfl
  | some q =>
    obtain ⟨p', -, hq⟩ := Option.bind_eq_some_iff.mp hn
    obtain ⟨c, hi, rfl⟩ := Option.map_eq_some_iff.mp hq
    have same : (w.set.put p'.1 (c.releaseKeepingInbox e).1).inboxAt p = w.set.inboxAt p := by
      rcases releaseKeepingInbox_cases c e with ⟨err, hc⟩ | ⟨s', -, -, hc⟩
      · rw [hc, put_same hi]
      · rw [hc]
        refine (put_setEnd hi ?_).1 p
        rfl
    simp only
    split
    all_goals
      rename_i hc
      rw [hc] at same
      exact same

theorem dispose_messages (w : Sweep) (e : Entry) : (w.dispose e).done.messages = w.done.messages := by
  unfold Sweep.dispose
  split
  · rfl
  · split <;> rfl

theorem disposeAll_same {α : Type} {f : Sweep → α} (h : ∀ w e, f (w.dispose e) = f w) (l : List Entry) (w : Sweep) :
    f (l.foldl Sweep.dispose w) = f w := by
  induction l generalizing w with
  | nil => rfl
  | cons e l ih => rw [List.foldl_cons, ih, h]

/-- An inbox that cannot be reached is emptied, and the others are left alone. -/
theorem takeApart (h : Swept first outside ids [] w)
    (hr : ¬ Reach first outside (i, s)) (hf : w.set.lenAt (i, s) < fuel) :
    ∃ w', Sweep.takeApart i s fuel w = some w' ∧ Swept first outside ids [] w' ∧
      (∀ p, p ≠ (i, s) → w'.set.inboxAt p = w.set.inboxAt p) ∧
      w'.done.messages = w.done.messages + w.set.lenAt (i, s) := by
  induction fuel generalizing w with
  | zero => exact absurd hf (Nat.not_lt_zero _)
  | succ fuel ih =>
    cases hi : w.set.channel i with
    | none =>
      refine ⟨w, by simp only [Sweep.takeApart, hi], h, fun _ _ => rfl, ?_⟩
      rw [lenAt, inboxAt, hi]
      rfl
    | some c =>
      rcases h.take hr hi with ⟨hc, hz⟩ | ⟨c', entries, hc, hlen, hother, hw⟩
      · refine ⟨w, by simp only [Sweep.takeApart, hi, hc, put_same hi], h, fun _ _ => rfl, ?_⟩
        rw [lenAt_some hi, hz]
        rfl
      have hsame := fun p => disposeAll_same (f := (·.set.inboxAt p)) (dispose_inboxAt · · p) (entries.filterMap id)
        { w with
          set := w.set.put i c'
          done := { w.done with messages := w.done.messages + 1 } }
      have hlen' := lenAt_congr (hsame (i, s))
      obtain ⟨w', hw', hsw, hrest, hm⟩ := ih hw.disposeAll (by rw [hlen']; simp only; omega)
      refine ⟨w', by simp only [Sweep.takeApart, hi, hc, hw'], hsw,
        fun p hp => (hrest p hp).trans ((hsame p).trans (hother p hp)), ?_⟩
      rw [hm, hlen', disposeAll_same (f := (·.done.messages)) dispose_messages]
      simp only
      omega

/-- Inboxes that cannot be reached, one after the other. -/
theorem takeAll (h : Swept first outside ids [] w) (ps : List (Nat × Side))
    (hr : ∀ p ∈ ps, ¬ Reach first outside p) (hf : first.messages < fuel) :
    ∃ w', Sweep.takeAll fuel ps w = some w' ∧ Swept first outside ids [] w' ∧
      w.done.messages ≤ w'.done.messages ∧
      ∀ p ∈ ps, 0 < w.set.lenAt p → w.done.messages < w'.done.messages := by
  induction ps generalizing w with
  | nil => exact ⟨w, rfl, h, le_refl _, nofun⟩
  | cons p ps ih =>
    obtain ⟨i, s⟩ := p
    have hlen : w.set.lenAt (i, s) < fuel := by
      have := w.set.lenAt_le_messages (i, s)
      have := h.total
      omega
    obtain ⟨w1, hw1, hs1, hsame, hm1⟩ := h.takeApart (hr _ List.mem_cons_self) hlen
    obtain ⟨w2, hw2, hs2, hle, hlt⟩ := ih hs1 (List.forall_mem_cons.mp hr).2
    refine ⟨w2, by simp only [Sweep.takeAll, hw1, hw2], hs2, by omega, fun q hq hpos => ?_⟩
    by_cases hqp : q = (i, s)
    · subst hqp
      omega
    rcases List.mem_cons.mp hq with rfl | hq
    · exact absurd rfl hqp
    · have := hlt q hq (by rw [lenAt_congr (hsame q hqp)]; exact hpos)
      omega

/-! ## Rounds -/

section

variable (h : Swept first outside ids pending w)

include h

/-- What can be reached stays the same. -/
theorem reach_iff : Reach w.set outside p ↔ Reach first outside p := by
  have hqueued : ∀ {i s c c'}, Reach first outside (i, s) → w.set.channel i = some c →
      first.channel i = some c' → c.queued s = c'.queued s := by
    intro i s c c' hr hi hi'
    have := h.kept _ hr
    rw [inboxAt_some hi, inboxAt_some hi'] at this
    rw [queued, queued, Option.some.inj this]
  constructor
  · intro hr
    induction hr with
    | held s hi hc =>
      obtain ⟨c', hi', hid⟩ := channel_of_idsAt (h.idsAt _).symm hi
      exact .held s hi' (hid ▸ hc)
    | carried _ hi he hp ih =>
      obtain ⟨c', hi', -⟩ := channel_of_idsAt (h.idsAt _).symm hi
      exact .carried ih hi' (hqueued ih hi hi' ▸ he) (h.named _ ▸ hp)
  · intro hr
    induction hr with
    | held s hi hc =>
      obtain ⟨c', hi', hid⟩ := channel_of_idsAt (h.idsAt _) hi
      exact .held s hi' (hid ▸ hc)
    | carried hr hi he hp ih =>
      obtain ⟨c', hi', -⟩ := channel_of_idsAt (h.idsAt _) hi
      exact .carried ih hi' (hqueued hr hi' hi ▸ he) (h.named _ ▸ hp)

/-- What the sink was given names no endpoint. -/
theorem count_sunk (hi : w.set.channel i = some c) (s : Side) :
    (↑(w.sunk.map key) : Multiset Key).count (c.id s, .channel) = 0 := by
  rw [count_eq_zero, mem_coe, List.mem_map]
  rintro ⟨e, he, hkey⟩
  obtain ⟨-, -, -, hs⟩ := h.ledger
  have := hs e he
  rw [← h.named, (named_iff h.accounts).mpr ⟨c, hi, hkey⟩] at this
  cases this

theorem reach_sunk : Reach w.set (↑(w.sunk.map key) + outside) p ↔ Reach w.set outside p := by
  constructor
  · intro hr
    induction hr with
    | held s hi hc =>
      rw [count_add, h.count_sunk hi, zero_add] at hc
      exact .held s hi hc
    | carried _ hi he hp ih => exact .carried ih hi he hp
  · intro hr
    induction hr with
    | held s hi hc =>
      refine .held s hi ?_
      rwa [count_add, h.count_sunk hi, zero_add]
    | carried _ hi he hp ih => exact .carried ih hi he hp

end

section

variable (h : Swept first outside ids [] w)

include h

/-- The accounts between two rounds. -/
theorem settled : Accounts w.set (w.set.keys + (↑(w.sunk.map key) + outside)) ids := by
  have := h.accounts
  rwa [List.map_nil, coe_nil, zero_add] at this

theorem mem_dead : p ∈ w.set.dead ↔ ∃ c, w.set.channel p.1 = some c ∧
      ((c.ends p.2).isOpen = true ∧ ¬ Reach first outside p ∨
        (c.ends p.2).isOpen = false ∧ 0 < (c.ends p.2).inbox.len) := by
  rw [ChannelSet.mem_dead h.settled, h.reach_sunk, h.reach_iff]

theorem dead_unreachable (hp : p ∈ w.set.dead) : ¬ Reach first outside p := by
  obtain ⟨c, hi, ⟨-, hr⟩ | ⟨hclosed, -⟩⟩ := h.mem_dead.mp hp
  · exact hr
  · rw [← h.reach_iff, ← h.reach_sunk]
    intro hr
    obtain ⟨c', hi', hopen⟩ := hr.isOpen h.settled
    rw [hi] at hi'
    cases hi'
    cases hclosed.symm.trans hopen

end

/-- An inbox that holds an entry holds a message. -/
theorem len_pos (he : e ∈ c.queued s) : 0 < (c.ends s).inbox.len := by
  rcases Nat.eq_zero_or_pos (c.ends s).inbox.len with hz | hpos
  · rw [queued, Inbox.messages, hz] at he
    cases he
  · exact hpos

/-- If there is anything to take apart, there is a message. -/
theorem exists_message (h : Swept first outside ids [] w) (hp : p ∈ w.set.dead) :
    ∃ q ∈ w.set.dead, 0 < w.set.lenAt q := by
  obtain ⟨c, hi, ⟨hopen, hr⟩ | ⟨hclosed, hlen⟩⟩ := h.mem_dead.mp hp
  · -- Its references are all queued, in inboxes that cannot be reached either.
    have hrefs := (h.settled.isOpen _ c hi p.2).mp hopen
    have hout : outside.count (c.id p.2, .channel) = 0 := by
      by_contra hne
      exact hr (h.reach_iff.mp (.held p.2 hi hne))
    rw [h.settled.refs _ c hi, count_add, count_add, h.count_sunk hi, hout,
      Nat.add_zero, count_ne_zero, ChannelSet.keys, carried_eq_coe, mem_coe, List.mem_map] at hrefs
    obtain ⟨⟨s', e⟩, hmem, hkey⟩ := hrefs
    obtain ⟨slot, hslot, hq⟩ := List.mem_flatMap.mp hmem
    obtain ⟨j, hj⟩ := List.mem_iff_getElem?.mp hslot
    cases slot with
    | none => cases hq
    | some c' =>
      have hj := channel_eq_some.mpr hj
      have he := mem_forEachQueued.mp hq
      have hnamed := (named_iff h.settled).mpr ⟨c, hi, hkey⟩
      refine ⟨(j, s'), h.mem_dead.mpr ⟨c', hj, ?_⟩, ?_⟩
      · cases hopen' : (c'.ends s').isOpen with
        | false => exact .inr ⟨rfl, len_pos he⟩
        | true =>
          refine .inl ⟨rfl, fun hr' => hr (h.reach_iff.mp ?_)⟩
          exact .carried (h.reach_iff.mpr hr') hj he hnamed
      · rw [lenAt_some hj]
        exact len_pos he
  · refine ⟨p, hp, ?_⟩
    rw [lenAt_some hi]
    exact hlen

/-- With as many rounds as there are messages and one more, nothing is left to take apart. -/
theorem rounds (h : Swept first outside ids [] w) {n : Nat} (hf : first.messages < fuel) (hn : w.set.messages < n) :
    ∃ w', Sweep.rounds fuel n w = some w' ∧ Swept first outside ids [] w' ∧ w'.set.dead = [] := by
  induction n generalizing w with
  | zero => exact absurd hn (Nat.not_lt_zero _)
  | succ n ih =>
    rw [Sweep.rounds]
    by_cases hd : w.set.dead = []
    · refine ⟨w, ?_, h, hd⟩
      simp only [hd, List.isEmpty_nil, if_true]
    obtain ⟨p, hp⟩ := List.exists_mem_of_ne_nil _ hd
    obtain ⟨q, hq, hpos⟩ := h.exists_message hp
    have hround := h.congr_done { w.done with rounds := w.done.rounds + 1 } rfl
    obtain ⟨w', hw', hs', -, hlt⟩ := hround.takeAll w.set.dead
      (fun r hr => h.dead_unreachable hr) hf
    have hmore : w.done.messages < w'.done.messages := hlt q hq hpos
    have htotal := h.total
    have htotal' := hs'.total
    have hne : w.set.dead.isEmpty = false := by
      rw [Bool.eq_false_iff, Ne, List.isEmpty_iff]
      exact hd
    simp only [hne, Bool.false_eq_true, if_false, hw']
    rw [if_neg (by omega)]
    exact ih hs' (by omega)

end Swept

/-! ## What a collection does -/

open ChannelSet in
/-- A collection from `set` that ended with `r`, where `outside` is what entries that are not in
the set's queues name. -/
structure Collects (set : ChannelSet) (outside : Multiset Key) (r : Sweep) : Prop where
  /-- No endpoint that can be reached is closed, and its inbox is left alone. -/
  kept : ∀ i c s, set.channel i = some c → Reach set outside (i, s) →
    ∃ c', r.set.channel i = some c' ∧ c'.id = c.id ∧ (c'.ends s).isOpen = true ∧
      (c'.ends s).inbox = (c.ends s).inbox
  /-- Every open endpoint can be reached. -/
  reached : ∀ i c s, r.set.channel i = some c → (c.ends s).isOpen = true →
    Reach r.set outside (i, s)
  /-- Every closed one has an empty inbox. -/
  emptied : ∀ i c s, r.set.channel i = some c → (c.ends s).isOpen = false →
    (c.ends s).inbox.messages = []
  /-- What is no longer queued was released once or given to the sink once. -/
  ledger : ∃ released : Multiset Entry,
    set.carried id = r.set.carried id + (↑r.sunk + released) ∧
      (∀ e ∈ r.sunk, set.named e = none) ∧ (∀ e ∈ released, (set.named e).isSome = true) ∧
      ∀ i c c' s, set.channel i = some c → r.set.channel i = some c' →
        (c.ends s).refs =
          (c'.ends s).refs + released.countP fun e => set.named e = some (i, s)

namespace ChannelSet

theorem collects {r : Sweep} (h : Swept set outside ids [] r) (hd : r.set.dead = []) :
    Collects set outside r := by
  have live : ∀ {i c s}, r.set.channel i = some c → ¬ ((c.ends s).isOpen = true ∧
      ¬ Reach set outside (i, s) ∨ (c.ends s).isOpen = false ∧ 0 < (c.ends s).inbox.len) := by
    intro i c s hi hdead
    have hmem : (i, s) ∈ r.set.dead := h.mem_dead.mpr ⟨c, hi, hdead⟩
    rw [hd] at hmem
    cases hmem
  refine ⟨fun i c s hi hr => ?_, fun i c s hi hopen => ?_, fun i c s hi hclosed => ?_, ?_⟩
  · obtain ⟨c', hi', hid⟩ := channel_of_idsAt (h.idsAt i) hi
    obtain ⟨c'', hi'', hopen⟩ := (h.reach_sunk.mpr (h.reach_iff.mpr hr)).isOpen h.settled
    rw [hi'] at hi''
    cases hi''
    have := h.kept _ hr
    rw [inboxAt_some hi', inboxAt_some hi] at this
    exact ⟨c', hi', hid, hopen, Option.some.inj this⟩
  · by_contra hr
    exact live hi (.inl ⟨hopen, fun hr' => hr (h.reach_iff.mpr hr')⟩)
  · have hz : (c.ends s).inbox.len = 0 := by
      by_contra hne
      exact live hi (.inr ⟨hclosed, pos_of_ne_zero hne⟩)
    rw [Inbox.messages, hz]
    rfl
  · obtain ⟨released, hl, hrel, hs⟩ := h.ledger
    rw [coe_nil, zero_add] at hl
    refine ⟨released, hl, hs, hrel, fun i c c' s hi hi' => ?_⟩
    obtain ⟨c'', hi'', hid⟩ := channel_of_idsAt (h.idsAt i) hi
    rw [hi'] at hi''
    cases hi''
    have hkeys : set.keys = r.set.keys + (↑(r.sunk.map key) + released.map key) := by
      rw [keys, carried_map, hl, map_add, map_add, ← carried_map, map_coe]
    have hcount : (released.map key).count (c.id s, .channel) =
        released.countP fun e => set.named e = some (i, s) := by
      rw [Multiset.count, countP_map, ← countP_eq_card_filter]
      refine countP_congr rfl fun e _ => ?_
      rw [eq_iff_iff, named_iff h.begun]
      constructor
      · exact fun he => ⟨c, hi, he.symm⟩
      · rintro ⟨u, hu, he⟩
        cases hi.symm.trans hu
        exact he.symm
    rw [h.begun.refs i c hi, h.settled.refs i c' hi', hid, hkeys]
    simp only [count_add]
    omega

end ChannelSet

end Kintane
