import Kintane.Ipc.SetSweep
import Kintane.Ipc.WorldProof

/-!
# Runs of a set

A set of channels in a world of handle tables: whatever is done to its channels through
`channel`, and the operations of the set itself, which have it to themselves. A run in which a
collection does not end has no outcome. There is none: in every state that a run reaches a
collection ends, and it takes apart what cannot be reached from a table or a caller's hands and
nothing else.
-/

namespace Kintane

open ChannelSet

inductive SetOp where
  /-- A step of an operation on a table, or on a channel of the set. -/
  | ipc (op : IpcOp)
  | create (a b depth maxBytes maxHandles : Nat) (rights : Rights)
  | collect
  /-- `ChannelSet::release` of an entry in hand. -/
  | release (position : Nat)
  | close (table : Nat) (endpoint : Handle)

/-- A handle that may be used as an endpoint can be closed. -/
theorem HandleTable.close_of_getChecked {t : HandleTable} {h : Handle} {kind : ObjectType}
    {required : Rights} {e : Entry} (hg : t.getChecked h kind required = .ok e) :
    e.kind = kind ∧ ∃ t', t.close h = (t', .ok e) ∧ t.keys = t'.keys + {e.key} := by
  unfold getChecked at hg
  cases he : t.get h with
  | error err => simp only [he] at hg; cases hg
  | ok e' =>
    simp only [he] at hg
    split at hg
    · cases hg
    rename_i hkind
    split at hg
    · cases hg
    · cases hg
      obtain ⟨s, hn⟩ := get_eq_ok.mp he
      exact ⟨not_not.mp hkind, _, close_names hn, keys_vacate hn⟩

namespace ChannelSet

variable {set : ChannelSet} {all : Multiset Key} {ids : List Nat} {e : Entry}

theorem release_none (hn : set.named e = none) (fuel : Nat) :
    ∃ err, set.release e fuel = .error err := by
  unfold named at hn
  unfold release
  split at hn
  · rename_i hkind
    exact ⟨_, if_pos hkind⟩
  · rename_i hkind
    rw [if_neg hkind, hn]
    exact ⟨_, rfl⟩

variable {p : Nat × Side}

/-- A release gives back the reference and goes on to collect. -/
theorem release_some (h : Accounts set (all + {e.key}) ids) (hn : set.named e = some p) :
    ∃ set', (∀ fuel, set.release e fuel = .ok (set'.collect fuel)) ∧ Accounts set' all ids ∧
      set'.keys = set.keys ∧ set'.messages = set.messages := by
  obtain ⟨i, s⟩ := p
  obtain ⟨c, hi, he⟩ := (named_iff h).mp hn
  have hone : 1 ≤ (c.ends s).refs := by
    rw [h.refs i c hi s, ← he, Multiset.one_le_count_iff_mem, Multiset.mem_add]
    exact .inr (Multiset.mem_singleton_self _)
  obtain ⟨closed, hc⟩ := Channel.releaseKeepingInbox_of_key he (h.side_eq hi) hone
  obtain ⟨-, -, hmessages, hcarried⟩ := put_setEnd hi (s := s) (e := (c.ends s).release) rfl
  rw [he] at h
  refine ⟨_, fun fuel => ?_, h.released hi, hcarried _, hmessages⟩
  unfold named at hn
  split at hn
  · cases hn
  rename_i hkind
  unfold release
  rw [if_neg hkind]
  simp only [hn, hi, hc]

end ChannelSet

namespace IpcWorld

/-- What a collection leaves: the sink's entries are in the caller's hands. -/
def collected (w : IpcWorld) (r : Sweep) : IpcWorld :=
  { w with set := r.set, hands := r.sunk ++ w.hands }

/-- One step; `none` is a collection that does not end. -/
def setStep (w : IpcWorld) (op : SetOp) : Option IpcWorld :=
  let fuel := w.set.messages + 1
  match op with
  | .ipc op => some (w.step op)
  | .create a b depth maxBytes maxHandles rights =>
    if w.draining = [] ∧ 0 < depth ∧ a ∉ w.ids ∧ b ∉ w.ids ∧ a ≠ b then
      match w.set.create a b depth maxBytes maxHandles rights with
      | none => some w
      | some (set, _, entries) =>
        some { w with set, hands := entries ++ w.hands, ids := a :: b :: w.ids }
    else some w
  | .collect =>
    if w.draining = [] then (w.set.collect fuel).map w.collected else some w
  | .release position =>
    match w.hands[position]? with
    | none => some w
    | some e =>
      if w.draining = [] then
        match w.set.release e fuel with
        | .error _ => some w
        | .ok outcome =>
          outcome.map ({ w with hands := w.hands.eraseIdx position } : IpcWorld).collected
      else some w
  | .close i endpoint =>
    match w.tables[i]? with
    | none => some w
    | some table =>
      if w.draining = [] then
        match w.set.close table endpoint fuel with
        | (table', .error _) => some { w with tables := w.tables.set i table' }
        | (table', .ok outcome) =>
          outcome.map ({ w with tables := w.tables.set i table' } : IpcWorld).collected
      else some w

def setRun (cap : Nat) (ops : List SetOp) : Option IpcWorld := ops.foldlM setStep (init cap)

variable {w : IpcWorld}

theorem all_eq_keys (w : IpcWorld) : w.all = w.set.keys + (w.inTables + w.inHands) := by
  rw [all, add_right_comm, add_comm]
  rfl

section

variable (h : Inv w)

include h

/-- A collection from a world with its accounts in order. -/
theorem Inv.collect (fuel : Nat) (hf : w.set.messages < fuel) :
    ∃ r, w.set.collect fuel = some r ∧ Collects w.set (w.inTables + w.inHands) r ∧
      Inv (w.collected r) := by
  rw [Inv, all_eq_keys] at h
  obtain ⟨r, hr, hs, hd⟩ := (Swept.start h).rounds hf hf
  have hacc := hs.settled
  refine ⟨r, hr, collects hs hd, ?_⟩
  rw [Inv, all_eq_keys]
  have : (w.collected r).inHands = ↑(r.sunk.map Entry.key) + w.inHands := by
    rw [inHands, collected, List.map_append, ← Multiset.coe_add]
    rfl
  rw [this, add_left_comm (w.collected r).inTables]
  exact hacc

theorem step_create (a b depth maxBytes maxHandles : Nat) (rights : Rights) :
    ∃ w', w.setStep (.create a b depth maxBytes maxHandles rights) = some w' ∧ Inv w' := by
  simp only [setStep]
  split
  case isFalse => exact ⟨w, rfl, h⟩
  case isTrue hnew =>
    obtain ⟨hidle, hnew⟩ := hnew
    unfold create
    cases hs : w.set.channels.findIdx? vacant with
    | none => exact ⟨w, rfl, h⟩
    | some slot =>
      refine ⟨_, rfl, ?_⟩
      have := step_newChannel h slot a b depth maxBytes maxHandles rights
      obtain ⟨hlt, hvacant, -⟩ := List.findIdx?_eq_some_iff_getElem.mp hs
      have hslot : (w.set.channels[slot]?.map vacant).getD false = true := by
        rw [List.getElem?_eq_getElem hlt]
        exact hvacant
      simp only [step] at this
      rwa [if_pos ⟨hslot, by rw [hidle]; simp, hnew⟩] at this

/-- The accounts of a world that has given back a reference, collected. -/
theorem Inv.released {v : IpcWorld} {e : Entry}
    (hn : w.set.named e = some p) (hset : v.set = w.set) (hids : v.ids = w.ids)
    (hall : w.all = v.all + {e.key}) :
    ∃ set' : ChannelSet, (∀ fuel, w.set.release e fuel = .ok (set'.collect fuel)) ∧
      ∃ r, set'.collect (w.set.messages + 1) = some r ∧ Inv (v.collected r) := by
  rw [Inv, hall] at h
  obtain ⟨set', hrel, hacc, hkeys, hmessages⟩ := release_some h hn
  have hv : Inv { v with set := set' } := by
    have : ({ v with set := set' } : IpcWorld).all = v.all := by
      rw [all_eq_keys, all_eq_keys, hset]
      exact congrArg (· + (v.inTables + v.inHands)) hkeys
    rw [Inv, this, hids]
    exact hacc
  obtain ⟨r, hr, -, hinv⟩ := hv.collect (w.set.messages + 1)
    (by rw [hmessages]; exact Nat.lt_succ_self _)
  exact ⟨set', hrel, r, hr, hinv⟩

theorem step_setRelease (position : Nat) : ∃ w', w.setStep (.release position) = some w' ∧ Inv w' := by
  simp only [setStep]
  cases hp : w.hands[position]? with
  | none => exact ⟨w, rfl, h⟩
  | some e =>
    simp only
    split
    case isFalse => exact ⟨w, rfl, h⟩
    case isTrue =>
      cases hn : w.set.named e with
      | none =>
        obtain ⟨err, he⟩ := release_none hn (w.set.messages + 1)
        simp only [he]
        exact ⟨w, rfl, h⟩
      | some p =>
        obtain ⟨set', hrel, r, hr, hinv⟩ := h.released
          (v := { w with hands := w.hands.eraseIdx position }) hn rfl rfl
          (all_add_hands rfl rfl (inHands_eraseIdx hp))
        simp only [hrel, hr]
        exact ⟨_, rfl, hinv⟩

theorem step_setClose (i : Nat) (endpoint : Handle) : ∃ w', w.setStep (.close i endpoint) = some w' ∧ Inv w' := by
  simp only [setStep]
  cases hi : w.tables[i]? with
  | none => exact ⟨w, rfl, h⟩
  | some table =>
    simp only
    split
    case isFalse => exact ⟨w, rfl, h⟩
    case isTrue =>
      unfold close
      cases hg : table.getChecked endpoint .channel .empty with
      | error err =>
        simp only [Tally.set_same hi]
        exact ⟨w, rfl, h⟩
      | ok e =>
        simp only
        cases hf : w.set.find e.object with
        | none =>
          simp only [Tally.set_same hi]
          exact ⟨w, rfl, h⟩
        | some p =>
          obtain ⟨hkind, table', hc, hkeys⟩ := HandleTable.close_of_getChecked hg
          have hn : w.set.named e = some p := by
            rw [named, if_neg (not_not.mpr hkind), hf]
          have htables := Tally.total_set_sub HandleTable.keys hi hkeys
          obtain ⟨set', hrel, r, hr, hinv⟩ := h.released
            (v := { w with tables := w.tables.set i table' }) hn rfl rfl
            (all_add_table htables rfl rfl)
          simp only [hc, hrel, hr]
          exact ⟨_, rfl, hinv⟩

theorem Inv.setStep (op : SetOp) : ∃ w', w.setStep op = some w' ∧ Inv w' := by
  cases op with
  | ipc op => exact ⟨_, rfl, h.step op⟩
  | create a b depth maxBytes maxHandles rights =>
    exact step_create h a b depth maxBytes maxHandles rights
  | collect =>
    simp only [IpcWorld.setStep]
    split
    · obtain ⟨r, hr, -, hinv⟩ := h.collect _ (Nat.lt_succ_self _)
      exact ⟨_, by rw [hr]; rfl, hinv⟩
    · exact ⟨w, rfl, h⟩
  | release position => exact step_setRelease h position
  | close i endpoint => exact step_setClose h i endpoint

theorem Inv.setRun (ops : List SetOp) : ∃ w', ops.foldlM IpcWorld.setStep w = some w' ∧ Inv w' := by
  induction ops generalizing w with
  | nil => exact ⟨w, rfl, h⟩
  | cons op ops ih =>
    obtain ⟨w1, hw1, h1⟩ := h.setStep op
    obtain ⟨w2, hw2, h2⟩ := ih h1
    exact ⟨w2, by rw [List.foldlM_cons, hw1]; exact hw2, h2⟩

end

/-- Every run of a set reaches a state, and a collection from there ends and does what it should,
however far beyond the number of queued messages it may go on. -/
theorem set_collects (cap : Nat) (ops : List SetOp) : ∃ w, setRun cap ops = some w ∧ ∀ more, ∃ r,
      w.set.collect (w.set.messages + 1 + more) = some r ∧
        Collects w.set (w.inTables + w.inHands) r := by
  obtain ⟨w, hw, h⟩ := (Inv.init cap).setRun ops
  refine ⟨w, hw, fun more => ?_⟩
  obtain ⟨r, hr, hc, -⟩ := h.collect (w.set.messages + 1 + more) (by omega)
  exact ⟨r, hr, hc⟩

end IpcWorld

end Kintane
