import Kintane.Ipc.World

/-!
# No entry is created or lost

Every operation moves a multiset of entries between tables, queues and hands, except those that
create a reference and those that give one back, which change the endpoint's count by as much.
-/

open Multiset

namespace Kintane

open HandleTable Tally Accounts

namespace IpcWorld

variable {w w' v : IpcWorld} {e : Entry} {k : Key}

/-- The accounts are right for the entries of the whole system. -/
def Inv (w : IpcWorld) : Prop := Accounts w.set w.all w.ids

theorem Inv.init (cap : Nat) : Inv (init cap) := by
  have hall : (IpcWorld.init cap).all = 0 := by
    rw [all, inQueues, show (IpcWorld.init cap).set.keys = 0 from ChannelSet.carried_new _ cap]
    rfl
  rw [Inv, hall]
  exact new cap

theorem Inv.of_all (h : Inv w) (set : w'.set = w.set) (ids : w'.ids = w.ids)
    (all : w'.all = w.all) : Inv w' := by
  rw [Inv, set, ids, all]
  exact h

/-- Entries moved between a channel and other places. -/
theorem Inv.kept (h : Inv w) {j d : Nat} {c c' : Channel} (hj : w.set.channel j = some c)
    (set : w'.set = w.set.put j c') (ids : w'.ids = w.ids) (hk : Channel.Kept d c c')
    (all : w'.all = w.all) : Inv w' := by
  rw [Inv, set, ids, all]
  exact Accounts.kept h hj hk

theorem inHands_eraseIdx {position : Nat} (h : w.hands[position]? = some e) :
    w.inHands = ↑((w.hands.eraseIdx position).map Entry.key) + {e.key} := by
  obtain ⟨hi, rfl⟩ := List.getElem?_eq_some_iff.mp h
  have hp := (List.getElem_cons_eraseIdx_perm hi).map Entry.key
  rw [inHands, ← coe_eq_coe.mpr hp, List.map_cons, ← cons_coe, ← singleton_add, add_comm]

theorem Moves.refl (a b c : Multiset Key) : Moves a b c a b c :=
  ⟨0, (add_zero _).symm, (add_zero _).symm, rfl⟩

theorem Moves.sum {a b c a' b' c' : Multiset Key} (h : Moves a b c a' b' c') : a' + b' + c' = a + b + c := by
  obtain ⟨m, rfl, rfl, rfl⟩ := h
  rw [add_right_comm a' m, add_assoc a' b m]

/-! ### Steps -/

/-- The accounts are kept, and entries move from the first place to the second. -/
def Moved (a b c : IpcWorld → Multiset Key) (w w' : IpcWorld) : Prop :=
  Inv w' ∧ Moves (a w) (b w) (c w) (a w') (b w') (c w')

section

variable (h : Inv w)

include h

theorem Moved.same {a b c : IpcWorld → Multiset Key} : Moved a b c w w := ⟨h, .refl ..⟩

theorem step_send (j i : Nat) (endpoint : Handle) (bytes : List UInt8) (handles : List Transfer) :
    Moved inTables inQueues inHands w (w.step (.send j i endpoint bytes handles)) := by
  simp only [step]
  split
  case h_2 => exact .same h
  rename_i c table hj hi
  obtain ⟨d, hfits⟩ := h.fits j c hj
  obtain ⟨c', table', r, moved, he, hkept, htable, hqueue⟩ :=
    Channel.send_moves hfits table endpoint bytes handles
  simp only [he]
  have hm : Moves w.inTables w.inQueues w.inHands (total HandleTable.keys (w.tables.set i table'))
      (w.set.put j c').keys w.inHands :=
    ⟨moved, total_set_sub _ hi htable, ChannelSet.carried_put_add _ hj hqueue, rfl⟩
  exact ⟨h.kept hj rfl rfl hkept hm.sum, hm⟩

theorem step_receive (j i : Nat) (endpoint : Handle) (bytes : List UInt8) (handles : List Handle) :
    Moved inQueues inTables inHands w (w.step (.receive j i endpoint bytes handles)) := by
  simp only [step]
  split
  case h_2 => exact .same h
  rename_i c table hj hi
  obtain ⟨d, hfits⟩ := h.fits j c hj
  obtain ⟨c', table', out, r, moved, he, hkept, hqueue, htable⟩ :=
    Channel.receive_moves hfits table endpoint bytes handles
  simp only [he]
  have hm : Moves w.inQueues w.inTables w.inHands (w.set.put j c').keys
      (total HandleTable.keys (w.tables.set i table')) w.inHands :=
    ⟨moved, ChannelSet.carried_put_sub _ hj hqueue, total_set_add _ hi htable, rfl⟩
  refine ⟨h.kept hj rfl rfl hkept ?_, hm⟩
  have := hm.sum
  rwa [add_comm (w.set.put j c').keys, add_comm w.inQueues] at this

theorem step_close (j i : Nat) (endpoint : Handle) :
    Moved inTables inHands inQueues w (w.step (.close j i endpoint)) := by
  simp only [step]
  split
  case h_2 => exact .same h
  rename_i c table hj hi
  rcases Channel.closeHandle_cases c table endpoint with ⟨e, hc⟩ | ⟨table', e, hc, hkeys⟩
  · simp only [hc, set_same hi]
    exact .same h
  simp only [hc]
  have hm : Moves w.inTables w.inHands w.inQueues (total HandleTable.keys (w.tables.set i table'))
      ↑((e :: w.hands).map Entry.key) w.inQueues := by
    refine ⟨{e.key}, total_set_sub _ hi hkeys, ?_, rfl⟩
    rw [List.map_cons, ← cons_coe, ← singleton_add, add_comm]
    rfl
  refine ⟨h.of_all rfl rfl ?_, hm⟩
  have := hm.sum
  rwa [add_right_comm, add_right_comm w.inTables] at this

theorem step_install (i position : Nat) : Moved inHands inTables inQueues w (w.step (.install i position)) := by
  simp only [step]
  split
  case h_2 => exact .same h
  rename_i table e hi hp
  rcases hins : table.insert e.object e.kind e.rights with ⟨table', err | g⟩
  · obtain rfl := insert_error hins
    simp only [set_same hi]
    exact .same h
  have hm : Moves w.inHands w.inTables w.inQueues ↑((w.hands.eraseIdx position).map Entry.key)
      (total HandleTable.keys (w.tables.set i table')) w.inQueues :=
    ⟨{e.key}, inHands_eraseIdx hp, total_set_add _ hi (keys_insert hins), rfl⟩
  refine ⟨h.of_all rfl rfl ?_, hm⟩
  have := hm.sum
  rwa [add_comm (Multiset.ofList _), add_comm w.inHands, add_right_comm, add_right_comm w.inTables] at this

theorem step_drain (position : Nat) : Moved inQueues inHands inTables w (w.step (.drain position)) := by
  cases hp : w.draining[position]? with
  | none => simp only [step, hp]; exact .same h
  | some p =>
    obtain ⟨j, side⟩ := p
    cases hj : w.set.channel j with
    | none => simp only [step, hp, hj]; exact .same h
    | some c =>
      obtain ⟨d, hfits⟩ := h.fits j c hj
      obtain ⟨c', taken, he, hkept, hkeys⟩ := Channel.takeMessage_moves hfits side
      -- With no message left there is nothing to hand out.
      have hm : Moves w.inQueues w.inHands w.inTables
          (w.set.put j c').keys
          ↑((((taken.getD []).filterMap fun o => o) ++ w.hands).map Entry.key) w.inTables := by
        refine ⟨_, ChannelSet.carried_put_sub _ hj (hkeys Entry.key), ?_, rfl⟩
        rw [List.map_append, ← coe_add, add_comm]
        rfl
      have hall := hm.sum
      rw [add_right_comm, add_comm (w.set.put j c').keys, add_right_comm w.inQueues,
        add_comm w.inQueues] at hall
      cases taken with
      | none =>
        simp only [step, hp, hj, he]
        exact ⟨h.kept hj rfl rfl hkept hall, hm⟩
      | some entries =>
        simp only [step, hp, hj, he]
        exact ⟨h.kept hj rfl rfl hkept hall, hm⟩

end

theorem all_add_table (tables : v.inTables = w.inTables + {k})
    (queues : v.inQueues = w.inQueues) (hands : v.inHands = w.inHands) : v.all = w.all + {k} := by
  rw [all, tables, queues, hands, add_right_comm w.inTables, add_right_comm (w.inTables + w.inQueues), all]

theorem all_add_hands (tables : v.inTables = w.inTables)
    (queues : v.inQueues = w.inQueues) (hands : v.inHands = w.inHands + {k}) : v.all = w.all + {k} := by
  rw [all, tables, queues, hands, ← add_assoc, all]

theorem step_duplicate (h : Inv w) (j i : Nat) (endpoint : Handle) (mask : Rights) :
    Inv (w.step (.duplicate j i endpoint mask)) ∧
      Makes w (w.step (.duplicate j i endpoint mask)) := by
  have same : Inv w ∧ Makes w w := ⟨h, rfl, rfl, .inl rfl⟩
  simp only [step]
  split
  case h_2 => exact same
  rename_i c table hj hi
  rcases Channel.duplicate_cases c table endpoint mask with
    ⟨e, he⟩ | ⟨side, table', dup, hend, hopen, hmax, hdup, he⟩
  · simpa only [he, set_same hi, ChannelSet.put_same hj] using same
  obtain ⟨e, hg, hkeys⟩ := keys_duplicate hdup
  rw [Channel.endpoint_key hend hg] at hkeys
  simp only [he]
  have htables := total_set_add HandleTable.keys hi hkeys
  have hqueues : (w.set.put j (c.setEnd side
      { c.ends side with refs := (c.ends side).refs + 1 })).keys = w.inQueues :=
    ChannelSet.carried_put_same _ hj (Channel.carried_setEnd_same _ rfl)
  refine ⟨?_, rfl, hqueues, .inr ⟨_, htables⟩⟩
  have hall := all_add_table (w := w)
    (v := { w with set := w.set.put j _, tables := w.tables.set i table' })
    htables hqueues rfl
  rw [Inv, hall]
  exact acquired h hj hopen hmax

theorem step_release (h : Inv w) (j position : Nat) :
    Inv (w.step (.release j position)) ∧ GivesBack w (w.step (.release j position)) position := by
  have same : Inv w ∧ GivesBack w w position := ⟨h, rfl, rfl, .inl rfl⟩
  simp only [step]
  split
  case h_2 => exact same
  rename_i c e hj hp
  rcases Channel.releaseKeepingInbox_cases c e with ⟨err, he⟩ | ⟨side, hside, hone, he⟩
  · simpa only [he] using same
  have hkey := Channel.sideOfEntry_key hside
  have hhands := inHands_eraseIdx hp
  rw [hkey] at hhands
  simp only [he, hside]
  have hqueues : (w.set.put j (c.setEnd side (c.ends side).release)).keys = w.inQueues :=
    ChannelSet.carried_put_same _ hj (Channel.carried_setEnd_same _ rfl)
  refine ⟨?_, rfl, hqueues, .inr ⟨e, hp, hkey ▸ hhands⟩⟩
  have hall := all_add_hands (v := w)
    (w := { w with set := w.set.put j _, hands := w.hands.eraseIdx position })
    rfl hqueues.symm hhands
  rw [Inv, hall] at h
  exact h.released hj

theorem step_newTable (h : Inv w) (n : Nat) : Inv (w.step (.newTable n)) := by
  refine h.of_all rfl rfl ?_
  have : (w.step (.newTable n)).inTables = w.inTables := by
    simp only [inTables, step]
    rw [total_append, total_cons, total_nil, add_zero, keys_new, add_zero]
  rw [all, this]
  rfl

/-- An entry comes into a caller's hands. -/
theorem all_cons (tables : v.inTables = w.inTables)
    (queues : v.inQueues = w.inQueues) (hands : v.hands = e :: w.hands) : v.all = w.all + {e.key} := by
  refine all_add_hands tables queues ?_
  rw [inHands, hands, List.map_cons, ← cons_coe, ← singleton_add, add_comm, inHands]

theorem step_bring (h : Inv w) (e : Entry) : Inv (w.step (.bring e)) := by
  simp only [step]
  split
  case isFalse => exact h
  case isTrue hn =>
    have hall := all_cons (w := w) (v := { w with hands := e :: w.hands, ids := e.object :: w.ids })
      rfl rfl rfl
    rw [Inv, hall]
    exact brought h hn

theorem step_discard (h : Inv w) (position : Nat) : Inv (w.step (.discard position)) := by
  simp only [step]
  split
  next => exact h
  next e hp =>
    split
    case isFalse => exact h
    case isTrue hn =>
      have hall := all_add_hands (v := w) (w := { w with hands := w.hands.eraseIdx position }) rfl
        rfl (inHands_eraseIdx hp)
      rw [Inv, hall] at h
      exact h.discarded hn

theorem step_newChannel (h : Inv w) (slot a b depth maxBytes maxHandles : Nat) (rights : Rights) :
    Inv (w.step (.newChannel slot a b depth maxBytes maxHandles rights)) := by
  simp only [step]
  split
  case isFalse => exact h
  case isTrue hnew =>
    obtain ⟨hslot, -, hdepth, ha, hb, hab⟩ := hnew
    cases hs : w.set.channels[slot]? with
    | none =>
      rw [hs] at hslot
      cases hslot
    | some old =>
      rw [hs] at hslot
      have hfits := Channel.Fits.new hdepth a b maxBytes maxHandles rights
      have hqueues : (w.set.put slot (Channel.new a b depth maxBytes maxHandles rights).1).keys =
          w.inQueues := by
        refine (Tally.total_set_add _ hs ?_).trans (add_zero _)
        rw [ChannelSet.slotCarried_vacant _ hslot, zero_add]
        rfl
      have hfresh := fresh (j := slot) h hfits (fun _ => rfl) (fun _ => rfl)
        (fun s => by cases s; exacts [ha, hb]) hab
      let v : IpcWorld := { w with hands := ⟨b, .channel, rights⟩ :: w.hands }
      have hv := all_cons (w := w) (v := v) rfl rfl rfl
      have hall := all_cons (w := v)
        (v := { w with set := w.set.put slot _, hands := ⟨a, .channel, rights⟩ :: v.hands })
        rfl hqueues rfl
      rw [hv] at hall
      exact Eq.mpr (congrArg (Accounts _ · _) hall) hfresh

theorem Inv.step (h : Inv w) (op : IpcOp) : Inv (w.step op) := by
  cases op with
  | newTable n => exact step_newTable h n
  | newChannel slot a b depth maxBytes maxHandles rights =>
    exact step_newChannel h slot a b depth maxBytes maxHandles rights
  | bring e => exact step_bring h e
  | discard position => exact step_discard h position
  | install i position => exact (step_install h i position).1
  | send j i endpoint bytes handles => exact (step_send h j i endpoint bytes handles).1
  | receive j i endpoint bytes handles => exact (step_receive h j i endpoint bytes handles).1
  | duplicate j i endpoint mask => exact (step_duplicate h j i endpoint mask).1
  | close j i endpoint => exact (step_close h j i endpoint).1
  | release j position => exact (step_release h j position).1
  | drain position => exact (step_drain h position).1

theorem Inv.foldl (h : Inv w) (ops : List IpcOp) : Inv (ops.foldl IpcWorld.step w) :=
  List.foldlRecOn ops _ h fun _ h op _ => h.step op

/-- Whatever the tables, the channels and the interleaving, an endpoint's references are the
entries that name it, and sends, receives and closes move entries and make none. -/
theorem run_conserves (cap : Nat) (ops : List IpcOp) : (run cap ops).Conserves := by
  have h : Inv (run cap ops) := (Inv.init cap).foldl ops
  exact {
    refs := h.refs
    isOpen := fun i c hc s => by rw [h.isOpen i c hc s, h.refs i c hc s]
    send := fun j i endpoint bytes handles => (step_send h j i endpoint bytes handles).2
    receive := fun j i endpoint bytes handles => (step_receive h j i endpoint bytes handles).2
    close := fun j i endpoint => (step_close h j i endpoint).2
    drain := fun position => (step_drain h position).2
    install := fun i position => (step_install h i position).2
    release := fun j position => (step_release h j position).2
    duplicate := fun j i endpoint mask => (step_duplicate h j i endpoint mask).2 }

end IpcWorld

end Kintane
