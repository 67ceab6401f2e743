import Kintane.Kobject.StoreProof

/-!
# The object store and the size of its locators

What the store promises holds of every history exactly for stores of at most `2 ^ 32` slots.
A larger one gives two slots the same locators, and one of them can find an object that was
inserted after the object it was issued for.
-/

open List

namespace Kintane

open ObjectStore

variable {T : Type}

namespace StoreWorld

variable {w : StoreWorld T} {id i m n : Nat} {s : ObjSlot T} {t : ObjectStore T} {c : T}

/-! ## More slots than a locator can number

Slots `0` and `2 ^ 32` have the same locators. -/

theorem find_eq_some (slot : t.slots[i]? = some s) (hid : s.id = id) (held : s.state.held = true)
    (before : ∀ (j : Nat) (u : ObjSlot T), j < i → t.slots[j]? = some u → u.id ≠ id) : t.find id = some i := by
  obtain ⟨hi, rfl⟩ := List.getElem?_eq_some_iff.mp slot
  refine findIdx?_eq_some_iff_getElem.mpr ⟨hi, by simp [hid, held], fun j hj => ?_⟩
  have := before j _ hj (getElem?_eq_getElem (hj.trans hi))
  simp [this]

theorem find_eq_none
    (h : ∀ (i : Nat) (s : ObjSlot T), t.slots[i]? = some s → s.state.held = true → s.id ≠ id) : t.find id = none := by
  refine findIdx?_eq_none_iff.mpr fun s hs => ?_
  obtain ⟨i, hi⟩ := mem_iff_getElem?.mp hs
  cases hh : s.state.held with
  | false => simp
  | true => simp [h i s hi hh]

theorem first_free (slot : t.slots[i]? = some s) (free : s.state.isFree = true)
    (before : ∀ (j : Nat) (u : ObjSlot T), j < i → t.slots[j]? = some u → u.state.isFree = false) :
    t.slots.findIdx? (·.state.isFree) = some i := by
  obtain ⟨hi, rfl⟩ := List.getElem?_eq_some_iff.mp slot
  refine findIdx?_eq_some_iff_getElem.mpr ⟨hi, free, fun j hj => ?_⟩
  simp [before j _ hj (getElem?_eq_getElem (hj.trans hi))]

/-- Retiring an object nobody refers to frees its slot. -/
theorem step_retire {o : T} (hf : w.store.find id = some i)
    (slot : w.store.slots[i]? = some s) (ho : s.state = .live o) (hr : s.refs = 1)
    (hg : s.generation + 1 < u32Max) :
    w.step (.retire id) =
      { w with
        store :=
          ⟨w.store.slots.set i ⟨s.generation + 1, s.id, s.kind, 0, .free⟩, w.store.live - 1⟩
        retired := w.serial i :: w.retired
        destroying := ⟨s.id, o, w.serial i⟩ :: w.destroying } := by
  have hi := (List.getElem?_eq_some_iff.mp slot).1
  unfold StoreWorld.step retire
  simp only [hf, slot, ho]
  rw [release_last (s := { s with state := .retiring o })
      (getElem?_set_self hi) hr rfl (Nat.lt_of_succ_lt hg),
    if_neg (Nat.not_le_of_lt hg), set_set]
  rfl

/-- The insertions that fill the first `m` slots. -/
def fills (c : T) (m : Nat) : List (StoreOp T) :=
  (List.range m).map fun i => .insert (i + 1) .event c

/-- What they leave. -/
structure Filled (n m : Nat) (c : T) (w : StoreWorld T) : Prop where
  full : ∀ i < m, w.store.slots[i]? = some ⟨0, i + 1, .event, 1, .live c⟩
  rest : ∀ i, m ≤ i → i < n → w.store.slots[i]? = some ⟨0, 0, .event, 0, .free⟩
  length : w.store.slots.length = n
  inserted : w.inserted.length = m

theorem Filled.slot (h : Filled n m c w) (slot : w.store.slots[i]? = some s) :
    (i < m ∧ s = ⟨0, i + 1, .event, 1, .live c⟩) ∨ (m ≤ i ∧ s = ⟨0, 0, .event, 0, .free⟩) := by
  have hi := (List.getElem?_eq_some_iff.mp slot).1
  rcases lt_or_ge i m with him | him
  · exact .inl ⟨him, Option.some.inj (slot.symm.trans (h.full i him))⟩
  · exact .inr ⟨him, Option.some.inj (slot.symm.trans (h.rest i him (h.length ▸ hi)))⟩

theorem filled_run (c : T) (hm : m ≤ n) : Filled n m c (run n (fills c m)) := by
  induction m with
  | zero =>
    refine ⟨nofun, fun i _ hi => ?_, length_replicate, rfl⟩
    exact getElem?_replicate_of_lt hi
  | succ m ih =>
    have h := ih (Nat.le_of_succ_le hm)
    have hslot := h.rest m (le_refl m) hm
    have hm' := (List.getElem?_eq_some_iff.mp hslot).1
    have hrun : run n (fills c (m + 1)) = (run n (fills c m)).step (.insert (m + 1) .event c) := by
      simp only [run, fills, range_succ, map_append, foldl_append, map_cons, map_nil, foldl_cons, foldl_nil]
    rw [hrun, step_insert ?_ (first_free hslot rfl ?_) hslot]
    · refine ⟨fun i hi => ?_, fun i hi hin => ?_, by simp [h.length], by simp [h.inserted]⟩
      · rcases Nat.lt_succ_iff_lt_or_eq.mp hi with hi | rfl
        · exact (getElem?_set_ne hi.ne').trans (h.full i hi)
        · exact getElem?_set_self hm'
      · exact (getElem?_set_ne (ne_of_lt hi)).trans (h.rest i (Nat.le_of_succ_le hi) hin)
    · refine find_eq_none fun i s hs hh => ?_
      rcases h.slot hs with ⟨hi, rfl⟩ | ⟨-, rfl⟩
      · exact fun he => hi.ne (Nat.succ.inj he)
      · cases hh
    · intro j u hj hu
      rw [h.full j hj] at hu
      cases hu
      rfl

/-- The first object of a slot is replaced by its second. -/
theorem replace_eq (found : w.store.find id = some i) (slot : w.store.slots[i]? = some ⟨0, id, .event, 1, .live c⟩)
    (before : ∀ (j : Nat) (u : ObjSlot T), j < i → w.store.slots[j]? = some u →
      u.state.isFree = false)
    (id' : Nat) (unused : ∀ (j : Nat) (u : ObjSlot T), w.store.slots[j]? = some u →
      u.state.held = true → u.id ≠ id') :
    ∃ w' : StoreWorld T, (w.step (.retire id)).step (.insert id' .event c) = w' ∧
      w'.store.slots = w.store.slots.set i ⟨1, id', .event, 1, .live c⟩ ∧
      w'.inserted.length = w.inserted.length + 1 ∧
      w'.serial = Function.update w.serial i w.inserted.length ∧
      w'.issued = (⟨i % 2 ^ 32, 1⟩, w.inserted.length) :: w.issued := by
  have hi := (List.getElem?_eq_some_iff.mp slot).1
  rw [step_retire found slot rfl rfl (by simp [u32Max])]
  refine ⟨_, step_insert (s := ⟨1, id, .event, 0, .free⟩) (find_eq_none fun j u hu hh => ?_)
    (first_free (getElem?_set_self hi) rfl fun j u hj hu => ?_)
    (getElem?_set_self hi) .event c, set_set .., length_append, rfl, rfl⟩
  · rcases Slots.of_set hu with ⟨-, rfl, -⟩ | ⟨-, hu⟩
    · cases hh
    · exact unused j u hu hh
  · rw [getElem?_set_ne hj.ne'] at hu
    exact before j u hj hu

/-- With `q + 1` slots filled, the object of slot `q` is replaced, and then that of slot
`0`. -/
def replaces (c : T) (q : Nat) : List (StoreOp T) :=
  [.retire (q + 1), .insert (q + 2) .event c, .retire 1, .insert (q + 3) .event c]

/-- The locator of slot `2 ^ 32` finds the object that is put into slot `0` later. -/
theorem replaces_unsound (c : T) (hn : 2 ^ 32 < n) :
    ¬ (run n (fills c (2 ^ 32 + 1) ++ replaces c (2 ^ 32))).Sound := by
  obtain ⟨q, hq⟩ : ∃ q, q = 2 ^ 32 := ⟨_, rfl⟩
  rw [← hq] at hn ⊢
  have h := filled_run c (Nat.succ_le_of_lt hn)
  rw [run, foldl_append]
  change ¬ (List.foldl StoreWorld.step (run n (fills c (q + 1))) _).Sound
  generalize run n (fills c (q + 1)) = w at h
  have hq0 : 0 < q := by omega
  have slot_q := h.full q (Nat.lt_succ_self q)
  have below : ∀ (j : Nat) (u : ObjSlot T), j < q → w.store.slots[j]? = some u →
      u = ⟨0, j + 1, .event, 1, .live c⟩ := fun j u hj hu =>
    Option.some.inj (hu.symm.trans (h.full j (Nat.lt_succ_of_lt hj)))
  have used : ∀ (j : Nat) (u : ObjSlot T), w.store.slots[j]? = some u → u.state.held = true →
      u.id < q + 2 := by
    intro j u hu hh
    rcases h.slot hu with ⟨hj, rfl⟩ | ⟨-, rfl⟩
    · exact Nat.succ_lt_succ hj
    · cases hh
  -- The object of slot `q` goes, and its slot is the first free one.
  obtain ⟨w1, step1, slots1, inserted1, serial1, issued1⟩ :=
    replace_eq (find_eq_some slot_q rfl rfl fun j u hj hu he => hj.ne (by
      rw [below j u hj hu] at he
      exact Nat.succ.inj he)) slot_q
      (fun j u hj hu => by rw [below j u hj hu]; rfl) (q + 2) (fun j u hu hh => (used j u hu hh).ne)
  -- Then that of slot `0`, which has been through as many objects.
  have slot_0 : w1.store.slots[0]? = some ⟨0, 1, .event, 1, .live c⟩ := by
    rw [slots1, getElem?_set_ne hq0.ne', h.full 0 (Nat.succ_pos q)]
  have used1 : ∀ (j : Nat) (u : ObjSlot T), w1.store.slots[j]? = some u → u.state.held = true →
      u.id ≠ q + 3 := by
    intro j u hu hh
    rw [slots1] at hu
    rcases Slots.of_set hu with ⟨-, rfl, -⟩ | ⟨-, hu⟩
    · exact (Nat.lt_succ_self _).ne
    · exact (Nat.lt_succ_of_lt (used j u hu hh)).ne
  obtain ⟨w2, step2, slots2, -, serial2, issued2⟩ :=
    replace_eq (find_eq_some slot_0 rfl rfl fun j u hj => absurd hj (Nat.not_lt_zero j)) slot_0
      (fun j u hj => absurd hj (Nat.not_lt_zero j)) (q + 3) used1
  rw [replaces, foldl_cons, foldl_cons, step1, foldl_cons, foldl_cons, step2, foldl_nil]
  intro hs
  have found : (w2.store.getAt ⟨0, 1⟩ (q + 3)).2 = .ok ⟨0, q + 3, .event, c⟩ := by
    have hlen : 0 < w1.store.slots.length := (List.getElem?_eq_some_iff.mp slot_0).1
    have slot : w2.store.slots[0]? = some ⟨1, q + 3, .event, 1, .live c⟩ := by
      rw [slots2, getElem?_set_self hlen]
    unfold getAt acquire
    simp [slot, checkedAdd, u32Max]
  have hle := hs.located _ w.inserted.length (q + 3) _ (by simp [issued2, issued1, hq]) found
  rw [serial2, Function.update_self, inserted1] at hle
  exact Nat.not_succ_le_self _ hle

/-! ## The store's guarantee -/

/-- Every history of a store keeps what its callers rely on, exactly if the store has no more
slots than a locator can number. -/
theorem sound_iff [Inhabited T] (n : Nat) : (∀ ops : List (StoreOp T), (run n ops).Sound) ↔ n ≤ 2 ^ 32 := by
  constructor
  · intro h
    exact Nat.le_of_not_lt fun hn => replaces_unsound (default : T) hn (h _)
  · exact fun hn ops => ((Inv.new n).foldl ops).sound hn

/-- A run of a store of `2 ^ 32 + 1` slots. -/
theorem sound_fails_past_limit : ¬ (run (2 ^ 32 + 1) (fills () (2 ^ 32 + 1) ++ replaces () (2 ^ 32))).Sound :=
  replaces_unsound () (Nat.lt_succ_self _)

end StoreWorld

end Kintane
