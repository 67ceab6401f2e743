import Mathlib.Algebra.Order.Group.Multiset
import Kintane.Lib.Tally
import Kintane.Ipc.ChannelProof

/-!
# Entries in tables and in queues

Tables and queues as multisets of what their entries name. A send and a receive move a multiset
from one to the other, and taking a message apart hands one out.
-/

open List

namespace Kintane

open Tally HandleTable Entry

/-- An object's identity and type: what entries name. -/
abbrev Key := Nat × ObjectType

/-- What an entry names; its rights are the holder's. -/
def Entry.key (e : Entry) : Key := (e.object, e.kind)

/-! ## Tables -/

variable {e : Entry} {h : Handle} {object : Nat}

namespace HandleTable

variable {t t' : HandleTable}

def keys (t : HandleTable) : Multiset Key := ↑(t.entries.map key)

def slotKeys (s : Slot) : Multiset Key := ↑(s.entry.toList.map key)

theorem keys_eq_total (t : HandleTable) : t.keys = total slotKeys t.slots := by
  rw [keys, entries]
  induction t.slots with
  | nil => rfl
  | cons s l ih =>
    rw [total_cons, ← ih]
    cases he : s.entry with
    | none => rw [filterMap_cons_none he, slotKeys, he]; exact (zero_add _).symm
    | some e =>
      rw [filterMap_cons_some he, slotKeys, he]
      rfl

theorem keys_new (n : Nat) : (new n).keys = 0 := by
  have : (new n).entries = [] := filterMap_replicate_of_none rfl
  rw [keys, this]
  rfl

variable {s : Slot}

theorem keys_fill {i live : Nat} (hs : t.slots[i]? = some s) (hnone : s.entry = none) :
    keys ⟨t.slots.set i { s with entry := some e }, live⟩ = t.keys + {e.key} := by
  rw [keys_eq_total, keys_eq_total]
  refine total_set_add _ hs ?_
  rw [slotKeys, slotKeys, hnone]
  rfl

theorem advance_entry (s : Slot) : s.advance.entry = s.entry := by
  unfold Slot.advance
  simp only
  split <;> rfl

theorem keys_vacate (hn : t.Names h s e) : t.keys = (t.vacate h.index s).keys + {e.key} := by
  rw [keys_eq_total, keys_eq_total]
  refine total_set_sub _ hn.slot ?_
  rw [slotKeys, slotKeys, advance_entry, hn.entry]
  rfl

theorem keys_insert (hi : t.insert e.object e.kind e.rights = (t', .ok h)) : t'.keys = t.keys + {e.key} := by
  rcases insert_cases t e.object e.kind e.rights with ⟨i, s, hs, hfree, he⟩ | ⟨-, he⟩
  · cases he.symm.trans hi
    simp only [Slot.free, Bool.and_eq_true, Option.isNone_iff_eq_none] at hfree
    exact keys_fill hs hfree.1
  · cases he.symm.trans hi

theorem insert_error {kind : ObjectType} {rights : Rights} {e : HandleError}
    (hi : t.insert object kind rights = (t', .error e)) : t' = t := by
  rcases insert_cases t object kind rights with ⟨i, s, -, -, he⟩ | ⟨-, he⟩
  · cases he.symm.trans hi
  · cases he.symm.trans hi
    rfl

theorem keys_close (hc : t.close h = (t', .ok e)) : t.keys = t'.keys + {e.key} := by
  rcases close_cases t h with ⟨s, e', hn, he⟩ | ⟨-, he⟩
  · cases he.symm.trans hc
    exact keys_vacate hn
  · cases he.symm.trans hc

theorem close_error {e : HandleError} (hc : t.close h = (t', .error e)) : t' = t := by
  rcases close_cases t h with ⟨s, e', -, he⟩ | ⟨-, he⟩
  · cases he.symm.trans hc
  · cases he.symm.trans hc
    rfl

theorem keys_takeAll {handles : List Handle} (hm : t.Movable handles) (index : Nat) :
    t.keys = (t.takeAll index handles).1.keys +
      ↑((t.takeAll index handles).2.map fun p => p.2.key) := by
  induction handles generalizing t index with
  | nil => exact (add_zero _).symm
  | cons g handles ih =>
    obtain ⟨s, e, hn, -⟩ := hm.names g mem_cons_self
    rw [Movable.takeAll_cons hn, keys_vacate hn, ih (hm.tail hn) (index + 1), map_cons,
      ← Multiset.cons_coe, ← Multiset.singleton_add, add_assoc]
    exact congrArg _ (add_comm _ _)

theorem keys_duplicate {dup : Handle} {mask : Rights} (hd : t.duplicate h mask = (t', .ok dup)) :
    ∃ e, t.get h = .ok e ∧ t'.keys = t.keys + {e.key} := by
  unfold duplicate at hd
  cases hg : t.get h with
  | error e => rw [hg] at hd; cases hd
  | ok e =>
    simp only [hg] at hd
    split at hd
    · cases hd
    · exact ⟨e, rfl, keys_insert (e := ⟨e.object, e.kind, e.rights.narrow mask⟩) hd⟩

end HandleTable

/-! ## Channels -/

namespace Channel

variable {c : Channel} {d : Nat}

/-- What is known of the entries queued on one side, and on both. -/
def queueOf {β : Type*} (g : Entry → β) (c : Channel) (s : Side) : Multiset β := ↑((c.queued s).map g)

def carried {β : Type*} (g : Entry → β) (c : Channel) : Multiset β :=
  ↑((c.queued .a ++ c.queued .b).map g)

abbrev keys (c : Channel) : Multiset Key := c.carried key

variable {s : Side}

section Carried

variable {β : Type*} (g : Entry → β) {m : Multiset β} {e : End}

theorem carried_eq (c : Channel) (s : Side) : c.carried g = c.queueOf g s + c.queueOf g s.peer := by
  rw [carried, map_append, ← Multiset.coe_add]
  cases s
  · rfl
  · exact add_comm _ _

def packetOf (p : Packet) : Multiset β := ↑(p.entries.map g)

theorem queueOf_eq_total (c : Channel) (s : Side) :
    c.queueOf g s = total (packetOf g) (c.ends s).inbox.packets := by
  rw [queueOf, queued, Inbox.packets]
  induction (c.ends s).inbox.messages with
  | nil => rfl
  | cons m l ih =>
    rw [flatMap_cons, map_append, ← Multiset.coe_add, ih, map_cons, total_cons]
    rfl

/-- What a channel carries changes with one of its inboxes. -/
theorem carried_setEnd_add (h : total (packetOf g) e.inbox.packets =
      total (packetOf g) (c.ends s).inbox.packets + m) :
    (c.setEnd s e).carried g = c.carried g + m := by
  rw [carried_eq g _ s, carried_eq g c s, queueOf_eq_total, queueOf_eq_total,
    queueOf_eq_total g c s, queueOf_eq_total g c s.peer, ends_setEnd_self,
    ends_setEnd_ne c s.peer_ne, h, add_right_comm]

theorem carried_setEnd_sub (h : total (packetOf g) (c.ends s).inbox.packets =
      total (packetOf g) e.inbox.packets + m) :
    c.carried g = (c.setEnd s e).carried g + m := by
  rw [carried_eq g c s, carried_eq g (c.setEnd s e) s, queueOf_eq_total, queueOf_eq_total,
    queueOf_eq_total g _ s, queueOf_eq_total g _ s.peer, ends_setEnd_self,
    ends_setEnd_ne c s.peer_ne, h, add_right_comm]

theorem carried_setEnd_same (h : e.inbox = (c.ends s).inbox) :
    (c.setEnd s e).carried g = c.carried g := by
  have := carried_setEnd_add g (c := c) (s := s) (e := e) (m := 0) (by rw [h, add_zero])
  rwa [add_zero] at this

end Carried

theorem id_setEnd (c : Channel) (s : Side) (e : End) : (c.setEnd s e).id = c.id := by
  funext s'
  cases s' <;> rfl

theorem keys_installAll {table table' : HandleTable} {room : Nat} {es : List Entry}
    {hs : List Handle} (hroom : es.length ≤ room)
    (hall : installAll table room es = (table', hs, none)) :
    table'.keys = table.keys + ↑(es.map key) := by
  induction es generalizing table room hs with
  | nil =>
    cases room <;> cases hall <;> exact (add_zero _).symm
  | cons e es ih =>
    obtain ⟨room, rfl⟩ := Nat.exists_eq_add_of_lt hroom
    simp only [installAll] at hall
    rcases hi : table.insert e.object e.kind e.rights with ⟨t1, err | h⟩
    · rw [hi] at hall
      cases hall
    rcases hr : installAll t1 (es.length + room) es with ⟨t2, hs', f⟩
    simp only [hi, hr] at hall
    cases hall
    rw [ih (Nat.le_add_right _ _) hr, keys_insert hi, map_cons,
      ← Multiset.cons_coe, ← Multiset.singleton_add, add_assoc]

theorem id_of_sideOf (h : c.sideOf object = some s) : c.id s = object := by
  unfold sideOf at h
  split at h
  · cases h
    exact Eq.symm ‹_›
  split at h
  · cases h
    exact Eq.symm ‹_›
  · cases h

/-- The handle of an endpoint names it. -/
theorem endpoint_key {table : HandleTable} {required : Rights}
    (hend : c.endpoint table h required = .ok s) (hg : table.get h = .ok e) :
    e.key = (c.id s, .channel) := by
  unfold endpoint getChecked at hend
  rw [hg] at hend
  by_cases hkind : e.kind ≠ .channel
  · simp only [if_pos hkind] at hend
    cases hend
  simp only [if_neg hkind] at hend
  split at hend
  · cases hend
  rename_i e' he
  split at he
  · cases he
  cases he
  cases hs : c.sideOf e.object with
  | none => simp only [hs] at hend; cases hend
  | some s' =>
    simp only [hs] at hend
    cases hend
    rw [id_of_sideOf hs, key, not_not.mp hkind]

theorem sideOfEntry_key (h : c.sideOfEntry e = .ok s) : e.key = (c.id s, .channel) := by
  unfold sideOfEntry at h
  split at h
  · cases h
  rename_i hkind
  cases hs : c.sideOf e.object with
  | none => simp only [hs] at h; cases h
  | some s' =>
    simp only [hs] at h
    cases h
    rw [id_of_sideOf hs, key, not_not.mp hkind]

/-- The first part of a close takes one entry out of the table, or does nothing. -/
theorem closeHandle_cases (c : Channel) (table : HandleTable) (endpoint : Handle) :
    (∃ e, c.closeHandle table endpoint = (table, .error e)) ∨
      ∃ table' e, c.closeHandle table endpoint = (table', .ok e) ∧
        table.keys = table'.keys + {e.key} := by
  unfold closeHandle
  cases c.endpoint table endpoint .empty with
  | error e => exact .inl ⟨e, rfl⟩
  | ok s =>
    rcases hc : table.close endpoint with ⟨t, e | e⟩
    · obtain rfl := close_error hc
      exact .inl ⟨.endpoint e, rfl⟩
    · exact .inr ⟨t, e, rfl, keys_close hc⟩

/-- Nothing but the queues changed. -/
structure Kept (d : Nat) (c c' : Channel) : Prop where
  id : c'.id = c.id
  refs : ∀ s, (c'.ends s).refs = (c.ends s).refs
  isOpen : ∀ s, (c'.ends s).isOpen = (c.ends s).isOpen
  fits : Fits d c'

variable (hc : Fits d c)

include hc

theorem Kept.refl : Kept d c c := ⟨rfl, fun _ => rfl, fun _ => rfl, hc⟩

theorem Kept.setInbox {q : Inbox} (hq : q.Ok d c.maxBytes c.maxHandles) :
    Kept d c (c.setEnd s { c.ends s with inbox := q }) := by
  refine ⟨id_setEnd c s _, fun s' => ?_, fun s' => ?_, hc.setEnd hq⟩ <;>
  · by_cases h : s' = s
    · subst h
      rw [ends_setEnd_self]
    · rw [ends_setEnd_ne c h]

/-- A send moves entries from the table into a queue, and nothing else. -/
theorem send_moves (table : HandleTable) (endpoint : Handle) (bytes : List UInt8) (handles : List Transfer) :
    ∃ c' table' r moved, c.send table endpoint bytes handles = ((c', table'), r) ∧ Kept d c c' ∧
      table.keys = table'.keys + moved ∧ c'.keys = c.keys + moved := by
  rcases send_cases c table endpoint bytes handles with
    ⟨e, he⟩ | ⟨side, slot, -, hb, hh, -, -, hvac, hm, he⟩
  · exact ⟨c, table, .error e, 0, he, .refl hc, (add_zero _).symm, (add_zero _).symm⟩
  obtain ⟨hok, hpackets⟩ := (hc side.peer).push hvac hb ((History.offered_length table handles).trans hh)
  have hkeys : (offered table handles).map key =
      (table.takeAll 0 (handles.map (·.handle))).2.map fun p => p.2.key := by
    rw [← narrowed_takeAll hm, narrowed, map_map]
    rfl
  refine ⟨_, _, _, _, he, Kept.setInbox hc hok, keys_takeAll hm 0, carried_setEnd_add _ ?_⟩
  rw [hpackets, total_append, total_cons, total_nil, add_zero, packetOf, hkeys]

/-- A receive moves entries from a queue into the table, and nothing else. -/
theorem receive_moves (table : HandleTable) (endpoint : Handle) (bytes : List UInt8) (handles : List Handle) :
    ∃ c' table' out r moved,
      c.receive table endpoint bytes handles = ((c', table', out), r) ∧ Kept d c c' ∧
      c.keys = c'.keys + moved ∧ table'.keys = table.keys + moved := by
  rcases receive_cases c table endpoint bytes handles with
    ⟨e, he⟩ | ⟨side, msg, table', installed, -, -, hfront, hroom, -, hall, he⟩
  · exact ⟨c, table, _, _, 0, he, .refl hc, (add_zero _).symm, (add_zero _).symm⟩
  obtain ⟨hpackets, hok, -⟩ := (hc side).pop hfront
  refine ⟨_, _, _, _, _, he, Kept.setInbox hc hok, carried_setEnd_sub _ ?_, keys_installAll hroom hall⟩
  rw [hpackets, total_cons, add_comm]
  rfl

/-- Taking a message apart hands out its entries, and nothing else. -/
theorem takeMessage_moves (side : Side) : ∃ c' taken, c.takeMessage side = (c', taken) ∧ Kept d c c' ∧
      ∀ {β : Type} (g : Entry → β),
        c.carried g = c'.carried g + ↑(((taken.getD []).filterMap fun o => o).map g) := by
  rcases takeMessage_cases (hc side) with ⟨-, he⟩ | ⟨msg, hfront, he⟩
  · exact ⟨c, none, he, .refl hc, fun _ => (add_zero _).symm⟩
  obtain ⟨hpackets, hok, -, hflat, -⟩ := (hc side).pop hfront
  refine ⟨_, _, he, Kept.setInbox hc hok, fun {β} g => carried_setEnd_sub g ?_⟩
  rw [hpackets, total_cons, add_comm, Option.getD_some]
  congr 1
  exact congrArg (fun l : List Entry => (↑(l.map g) : Multiset β)) hflat.symm

end Channel

end Kintane
