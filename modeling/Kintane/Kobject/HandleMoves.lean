import Kintane.Kobject.HandleProof

/-!
# Entries in and out of a table

What a transfer takes out of a table is what its handles named, in order, and what an insert
returns names what was inserted until it is closed.
-/

open List

namespace Kintane.HandleTable

variable {t t' : HandleTable} {h : Handle}

/-- A table as its operations leave it: a handle has room for the numbers of its slots, and
for their generations. -/
structure Valid (t : HandleTable) : Prop where
  length : t.slots.length ≤ Handle.maxSlots
  generation : ∀ s ∈ t.slots, ∃ k < 2 ^ 22, s.generation = k * 2 ^ 10

/-- Every table of a run is valid. -/
theorem valid_of_inv {n : Nat} {l : Life} (hl : Life.Inv n l) : l.table.Valid where
  length := hl.length.trans_le hl.small
  generation s hs := by
    obtain ⟨i, hi⟩ := mem_iff_getElem?.mp hs
    have hs := hl.slot hi
    cases hr : s.retired with
    | false =>
      obtain ⟨hg, hk⟩ := hs.live hr
      exact ⟨_, hk.trans (by decide), hg⟩
    | true =>
      obtain ⟨hg, hk, -⟩ := hs.retired hr
      exact ⟨_, by rw [hk]; decide, hg⟩

/-- What `t'` has over `t`: one more entry, in a slot that was free, under a new handle. -/
structure Added (t t' : HandleTable) (h : Handle) (e : Entry) : Prop where
  names : ∃ s, t'.Names h s e
  frame : ∀ {g s e}, t.Names g s e → t'.Names g s e
  free : t'.freeSlots + 1 = t.freeSlots
  valid : t'.Valid

/-- An insert into a table with a free slot takes one. -/
theorem insert_free (hf : 0 < t.freeSlots) (e : Entry) :
    ∃ i s, t.slots[i]? = some s ∧ s.free = true ∧
      t.insert e.object e.kind e.rights =
        (⟨t.slots.set i { s with entry := some e }, t.live + 1⟩,
          .ok (Handle.new i s.generation)) ∧
      freeSlots ⟨t.slots.set i { s with entry := some e }, t.live + 1⟩ + 1 = t.freeSlots := by
  rcases insert_cases t e.object e.kind e.rights with ⟨i, s, hs, hfree, he⟩ | ⟨h0, -⟩
  · obtain ⟨hi, hget⟩ := List.getElem?_eq_some_iff.mp hs
    refine ⟨i, s, hs, hfree, he, ?_⟩
    have hc : 0 < t.slots.countP Slot.free := hf
    simp only [freeSlots]
    rw [countP_set hi, hget, if_pos hfree]
    simp only [Slot.free, Option.isNone_some, Bool.false_and, Bool.false_eq_true, if_false]
    omega
  · omega

/-- It adds the entry. -/
theorem insert_added (hv : t.Valid) (hf : 0 < t.freeSlots) (e : Entry) :
    ∃ t' h, t.insert e.object e.kind e.rights = (t', .ok h) ∧ Added t t' h e := by
  obtain ⟨i, s, hs, hfree, he, hcount⟩ := insert_free hf e
  have hi := (List.getElem?_eq_some_iff.mp hs).1
  have hmax := hi.trans_le hv.length
  obtain ⟨k, hk, hg⟩ := hv.generation s (mem_of_getElem? hs)
  have hnone : s.entry = none := by
    simp only [Slot.free, Bool.and_eq_true, Option.isNone_iff_eq_none] at hfree
    exact hfree.1
  refine ⟨_, _, he, ⟨⟨{ s with entry := some e }, ?_, ?_, rfl⟩, fun {g u e'} hn => ?_, hcount, ?_⟩⟩
  · rw [hg, Handle.index_new hmax hk]
    exact getElem?_set_self hi
  · rw [hg, Handle.generation_new hmax hk]
  · have hne : i ≠ g.index := by
      rintro rfl
      have := hn.slot
      cases hs.symm.trans this
      cases hnone.symm.trans hn.entry
    exact ⟨(getElem?_set_ne hne).trans hn.slot, hn.generation, hn.entry⟩
  · refine ⟨length_set.trans_le hv.length, fun u hu => ?_⟩
    rcases mem_or_eq_of_mem_set hu with hu | rfl
    · exact hv.generation u hu
    · exact ⟨k, hk, hg⟩

theorem duplicate_error {mask : Rights} {e : HandleError}
    (hd : t.duplicate h mask = (t', .error e)) : t' = t := by
  rcases duplicate_cases t h mask with ⟨e', he⟩ | ⟨e', he⟩
  · rw [he] at hd
    exact (Prod.ext_iff.mp hd).1.symm
  rw [he] at hd
  rcases insert_cases t e'.object e'.kind (e'.rights.narrow mask) with ⟨i, s, -, -, hi⟩ | ⟨-, hi⟩
  · cases hi.symm.trans hd
  · rw [hi] at hd
    exact (Prod.ext_iff.mp hd).1.symm

def named (t : HandleTable) (h : Handle) : Option Entry := (t.get h).toOption

theorem Names.named {s : Slot} {e : Entry} (hn : t.Names h s e) : t.named h = some e := by
  rw [HandleTable.named, get_eq_ok.mpr ⟨s, hn⟩]
  rfl

/-- A transfer hands out what the handles named, each with its position. -/
theorem takeAll_sunk {handles : List Handle} (hm : t.Movable handles) (index : Nat) :
    (t.takeAll index handles).2.length = handles.length ∧
      ∀ i e, (t.takeAll index handles).2[i]? = some e →
        e.1 = index + i ∧ ∃ h, handles[i]? = some h ∧ t.named h = some e.2 := by
  induction handles generalizing t index with
  | nil => exact ⟨rfl, by simp [takeAll]⟩
  | cons g handles ih =>
    obtain ⟨s, e, hn, -⟩ := hm.names g mem_cons_self
    rw [Movable.takeAll_cons hn]
    obtain ⟨hlen, hget⟩ := ih (hm.tail hn) (index + 1)
    refine ⟨by rw [length_cons, hlen, length_cons], fun i p hp => ?_⟩
    cases i with
    | zero =>
      cases hp
      exact ⟨rfl, g, rfl, hn.named⟩
    | succ i =>
      obtain ⟨h1, h', hh, hnamed⟩ := hget i p hp
      refine ⟨by omega, h', hh, ?_⟩
      -- The first handle's slot is not one of the others'.
      obtain ⟨hnot, -⟩ := nodup_cons.mp hm.nodup
      obtain ⟨s', e', hn', -⟩ := hm.names h' (mem_cons_of_mem _ (mem_of_getElem? hh))
      have hne : h'.index ≠ g.index := fun hi =>
        hnot ((hn'.inj hn hi) ▸ mem_of_getElem? hh)
      rw [(hn'.vacate (s := s) hne).named] at hnamed
      rw [hn'.named]
      exact hnamed

end Kintane.HandleTable
