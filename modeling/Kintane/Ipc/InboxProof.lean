import Kintane.Ipc.Inbox

/-!
# The inbox is a bounded queue

Appending a message and removing the front one, on the ring and on the list of packets it
holds.
-/

open List

namespace Kintane

open Kintane.Ring Message List

variable {es : List Entry} {m : Message}

/-- The entries of a packed list of handle positions. -/
theorem Message.entries_packed {n : Nat}
    (h : m.handles = es.map some ++ replicate n none) : m.entries = es := by
  have hnone : (replicate n (none : Option Entry)).takeWhile Option.isSome = [] := by
    cases n <;> rfl
  rw [entries, h, takeWhile_append_of_pos (by simp), hnone, append_nil,
    filterMap_map, Function.id_comp, filterMap_some]

/-- Staged into empty positions that are enough, a list is packed there. -/
theorem stageInto_none {dsts : List (Option Entry)} (hd : ∀ d ∈ dsts, d = none)
    (hes : es.length ≤ dsts.length) :
    stageInto dsts es = es.map some ++ replicate (dsts.length - es.length) none := by
  induction dsts generalizing es with
  | nil =>
    obtain rfl := length_eq_zero_iff.mp (Nat.le_zero.mp hes)
    rfl
  | cons d dsts ih =>
    cases es with
    | nil =>
      rw [stageInto]
      · exact eq_replicate_of_mem hd
      · simp
    | cons e es =>
      rw [stageInto, ih (fun d hd' => hd d (mem_cons_of_mem _ hd'))
        (Nat.le_of_succ_le_succ hes)]
      simp

namespace Inbox

variable {q : Inbox} {d b h i : Nat}

theorem messages_eq (q : Inbox) : q.messages = window q.slots q.head q.len := rfl

theorem Ok.new (hd : 0 < d) : Ok d b h (new d b h) where
  length := length_replicate
  pos := hd
  head := hd
  len := Nat.zero_le d
  bytes m hm := by
    rw [eq_of_mem_replicate hm]
    exact length_replicate
  handles m hm := by
    rw [eq_of_mem_replicate hm]
    exact length_replicate
  clear i _ _ m hm e he := by
    rw [eq_of_mem_replicate (at?_mem hm)] at he
    exact eq_of_mem_replicate he
  packed i hi := absurd hi (Nat.not_lt_zero i)

theorem Ok.length_packets (hq : Ok d b h q) : q.packets.length = q.len := by
  rw [packets, length_map, messages_eq, length_window (hq.length ▸ hq.pos)]

theorem Ok.vacant_some (hq : Ok d b h q) (hi : q.vacant = some i) :
    q.len < d ∧ i = (q.head + q.len) % q.slots.length := by
  unfold vacant at hi
  split at hi
  · cases hi
  · rename_i hfull
    rw [isFull, hq.length, decide_eq_true_iff, not_le] at hfull
    exact ⟨hfull, (Option.some.inj hi).symm⟩

/-- Staging and committing write the vacant slot once. -/
theorem stage_commit_eq (hm : q.slots[i]? = some m) (es : List Entry) (bytes : List UInt8) :
    (q.stage i es).commit i bytes =
      ⟨q.slots.set i
        ⟨bytes.take (min bytes.length m.bytes.length) ++
            m.bytes.drop (min bytes.length m.bytes.length),
          min bytes.length m.bytes.length, stageInto m.handles es⟩,
        q.head, min (q.len + 1) q.slots.length⟩ := by
  have hi := (List.getElem?_eq_some_iff.mp hm).1
  unfold stage
  simp only [hm]
  unfold commit
  simp only [getElem?_set_self hi, set_set, length_set]

/-- A message is appended. -/
theorem Ok.push (hq : Ok d b h q) (hi : q.vacant = some i) {bytes : List UInt8} (hb : bytes.length ≤ b)
    (hes : es.length ≤ h) :
    Ok d b h ((q.stage i es).commit i bytes) ∧
      ((q.stage i es).commit i bytes).packets = q.packets ++ [⟨bytes, es⟩] := by
  obtain ⟨hlen, rfl⟩ := hq.vacant_some hi
  have hl : 0 < q.slots.length := hq.length ▸ hq.pos
  obtain ⟨m, hm⟩ := at?_isSome hl (q.head + q.len)
  have hmb := hq.bytes m (at?_mem hm)
  have hmh := hq.handles m (at?_mem hm)
  have hmin : min bytes.length m.bytes.length = bytes.length := by omega
  have hlen' : min (q.len + 1) q.slots.length = q.len + 1 := by rw [hq.length]; omega
  have hstage : stageInto m.handles es = es.map some ++ replicate (h - es.length) none := by
    rw [stageInto_none (hq.clear q.len (le_refl _) hlen m hm) (by omega), hmh]
  rw [stage_commit_eq hm es bytes, hmin, take_length, hstage, hlen']
  have hentries := entries_packed
    (m := ⟨bytes ++ m.bytes.drop bytes.length, bytes.length,
      es.map some ++ replicate (h - es.length) none⟩) rfl
  generalize hm' : (⟨bytes ++ m.bytes.drop bytes.length, bytes.length,
      es.map some ++ replicate (h - es.length) none⟩ : Message) = m' at hentries ⊢
  have hset := at?_set_self hl (q.head + q.len) m'
  -- A slot other than the one written is as before.
  have other : ∀ j < d, j ≠ q.len → at? (q.slots.set ((q.head + q.len) % q.slots.length) m')
      (q.head + j) = at? q.slots (q.head + j) := fun j hj hne =>
    at?_set_ne (hq.length ▸ hlen) (hq.length ▸ hj) hne.symm m'
  constructor
  · refine ⟨length_set.trans hq.length, hq.pos, hq.head, hlen, forall_mem_set hq.bytes ?_ _,
      forall_mem_set hq.handles ?_ _, fun j hj hjd x hx => ?_, fun j hj x hx => ?_⟩
    · subst hm'
      simp only [length_append, length_drop]
      omega
    · subst hm'
      simp only [length_append, length_map, length_replicate]
      omega
    · rw [other j hjd (ne_of_gt hj)] at hx
      exact hq.clear j (Nat.le_of_succ_le hj) hjd x hx
    · rcases Nat.lt_succ_iff_lt_or_eq.mp hj with hj | rfl
      · rw [other j (hj.trans hlen) (ne_of_lt hj)] at hx
        exact hq.packed j hj x hx
      cases hset.symm.trans hx
      rw [hentries]
      subst hm'
      exact ⟨hb, rfl⟩
  · rw [packets, messages_eq, window_set_end (hq.length ▸ hlen), map_append]
    subst hm'
    have hpacket : (⟨bytes ++ m.bytes.drop bytes.length, bytes.length,
        es.map some ++ replicate (h - es.length) none⟩ : Message).packet = ⟨bytes, es⟩ := by
      rw [packet, hentries, data, if_pos (by simp), take_left]
    rw [map_singleton, hpacket]
    rfl

/-- Without a front message the queue is empty, and there is nothing to take. -/
theorem Ok.front_none (hq : Ok d b h q) (hf : q.front = none) : q.packets = [] ∧ q.takeFront = (q, none) := by
  have hlen : q.len = 0 := by
    by_contra hne
    rw [front, if_neg hne, getElem?_eq_none_iff, hq.length] at hf
    exact absurd hq.head (not_lt.mpr hf)
  constructor
  · rw [packets, messages_eq, hlen]
    rfl
  · rw [takeFront, if_pos hlen]

/-- The front message is the first of the queue, and removing it hands out its entries. -/
theorem Ok.pop (hq : Ok d b h q) (hm : q.front = some m) :
    q.packets = m.packet :: q.discardFront.packets ∧ Ok d b h q.discardFront ∧
      q.takeFront.2 = some m.handles ∧ m.handles.filterMap id = m.entries ∧
      m.data.length = m.len ∧ m.entries.length ≤ h := by
  have hl : 0 < q.slots.length := hq.length ▸ hq.pos
  unfold front at hm
  split at hm
  · cases hm
  rename_i hne
  obtain ⟨len, hlen⟩ := Nat.exists_eq_succ_of_ne_zero hne
  have hat : at? q.slots q.head = some m := by
    rw [at?, Nat.mod_eq_of_lt (hq.length ▸ hq.head), hm]
  obtain ⟨hmlen, hpacked⟩ := hq.packed 0 (by omega) m hat
  have hmh := hq.handles m (at?_mem hat)
  have htake : q.takeFront = (⟨q.slots.set q.head { m with len := 0, handles := m.handles.map fun _ => none },
        q.index 1, len⟩, some m.handles) := by
    unfold takeFront
    rw [if_neg hne, hm, hlen]
    rfl
  have hidx : (q.head + 1) % q.slots.length < d := hq.length ▸ Nat.mod_lt _ hl
  generalize hm' : ({ m with len := 0, handles := m.handles.map fun _ => none } : Message) = m'
    at htake
  have hhead : q.head = (q.head + 0) % q.slots.length :=
    (Nat.mod_eq_of_lt (hq.length ▸ hq.head)).symm
  have other : ∀ j < d, j ≠ 0 → at? (q.slots.set q.head m') (q.head + j) =
      at? q.slots (q.head + j) := fun j hj hne => by
    conv_lhs => rw [show q.slots.set q.head m' = q.slots.set ((q.head + 0) % q.slots.length) m' by
      rw [← hhead]]
    exact at?_set_ne hl (hq.length ▸ hj) hne.symm m'
  -- Positions in the new queue, counted from its head.
  have next : ∀ j, at? (q.slots.set q.head m') (q.index 1 + j) =
      at? (q.slots.set q.head m') (q.head + (j + 1)) := fun j => by
    have := at?_mod_add (q.slots.set q.head m') (q.head + 1) j
    rw [length_set] at this
    rw [index, this, add_assoc, add_comm 1 j]
  have hlend : len < d := by have := hq.len; omega
  refine ⟨?_, ?_, by rw [htake], ?_, ?_, ?_⟩
  · rw [discardFront, htake, packets, packets, messages_eq, messages_eq, hlen, Nat.succ_eq_add_one,
      window_cons hat, map_cons]
    congr 2
    refine window_congr fun i hi => ?_
    rw [next, other (i + 1) (by omega) (Nat.succ_ne_zero i), add_assoc, add_comm 1 i]
  · rw [discardFront, htake]
    refine ⟨length_set.trans hq.length, hq.pos, hidx, hlend.le, forall_mem_set hq.bytes ?_ _,
      forall_mem_set hq.handles ?_ _, fun j hj hjd x hx => ?_, fun j hj x hx => ?_⟩
    · subst hm'
      exact hq.bytes m (at?_mem hat)
    · subst hm'
      exact (length_map _).trans hmh
    · simp only at hx hj
      rw [next] at hx
      by_cases hjd' : j + 1 < d
      · rw [other (j + 1) hjd' (Nat.succ_ne_zero j)] at hx
        exact hq.clear (j + 1) (by omega) hjd' x hx
      · -- The slot just left is now the last one behind the queue.
        have hwrap : at? (q.slots.set q.head m') (q.head + (j + 1)) = some m' := by
          have hj' : j + 1 = q.slots.length := by rw [hq.length]; omega
          rw [hj', at?, length_set, Nat.add_mod_right, Nat.mod_eq_of_lt (hq.length ▸ hq.head)]
          exact getElem?_set_self (hq.length ▸ hq.head)
        cases hwrap.symm.trans hx
        subst hm'
        intro e he
        obtain ⟨-, -, rfl⟩ := mem_map.mp he
        rfl
    · simp only at hx hj
      rw [next, other (j + 1) (by omega) (Nat.succ_ne_zero j)] at hx
      exact hq.packed (j + 1) (by omega) x hx
  · conv_lhs => rw [hpacked]
    simp
  · rw [data, if_pos (by rw [hq.bytes m (at?_mem hat)]; exact hmlen), length_take, hq.bytes m (at?_mem hat)]
    exact min_eq_left hmlen
  · have := congrArg List.length hpacked
    simp only [length_append, length_map, length_replicate] at this
    omega

end Inbox

end Kintane
