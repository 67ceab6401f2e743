import Mathlib.Data.List.Count
import Kintane.Kobject.Handle

/-!
# No handle names two things

A slot's generation counts how often it was vacated, so the handles a slot issues are its
index with one generation after the other, and a handle that was closed or sent away names a
generation that is past. At the end the slot is retired with its last generation still in
place and nothing in it, which rejects the last handle as well.

`Life` is a table with all handles it ever issued and all that were closed or transferred
out. `Life.Inv` relates each slot to how many of them are its own.
-/

open List

namespace Kintane

open Handle HandleTable

/-! ## Words -/

variable {h' h : Handle} {i : Nat} {e : Entry}

namespace Handle

theorem index_eq (h : Handle) : h.index = h.raw.toNat % 2 ^ 10 :=
  Nat.and_two_pow_sub_one_eq_mod _ 10

theorem generation_eq (h : Handle) : h.generation = h.raw.toNat / 2 ^ 10 * 2 ^ 10 :=
  and_complement_eq (by decide) h.raw.isLt

/-- Index and generation are all there is to a handle. -/
theorem ext_iff' {h : Handle} : h = h' ↔ h.index = h'.index ∧ h.generation = h'.generation := by
  constructor
  · intro he
    rw [he]
    exact ⟨rfl, rfl⟩
  · intro ⟨hi, hg⟩
    rw [index_eq, index_eq] at hi
    rw [generation_eq, generation_eq] at hg
    have hraw : h.raw.toNat = h'.raw.toNat := by omega
    cases h
    cases h'
    exact congrArg mk (BitVec.eq_of_toNat_eq hraw)

variable {k : Nat}

variable (hi : i < maxSlots)

include hi

theorem new_raw (hk : k < 2 ^ 22) : (new i (k * 2 ^ 10)).raw.toNat = 2 ^ 10 * k + i := by
  have hi : i < 2 ^ 10 := hi
  have h1 : k * 2 ^ 10 &&& (u32Max ^^^ indexMask) = k * 2 ^ 10 := by
    have := and_complement_eq (w := 32) (k := 10) (v := k * 2 ^ 10) (by decide) (by omega)
    rwa [Nat.mul_div_cancel _ (by decide)] at this
  have h2 : i &&& indexMask = i := by
    have := Nat.and_two_pow_sub_one_eq_mod i 10
    rwa [Nat.mod_eq_of_lt hi] at this
  rw [new, h1, h2, BitVec.toNat_ofNat, mul_comm, ← Nat.two_pow_add_eq_or_of_lt hi]
  exact Nat.mod_eq_of_lt (by omega)

theorem index_new (hk : k < 2 ^ 22) : (new i (k * 2 ^ 10)).index = i := by
  rw [index_eq, new_raw hi hk, Nat.mul_add_mod]
  exact Nat.mod_eq_of_lt hi

theorem generation_new (hk : k < 2 ^ 22) : (new i (k * 2 ^ 10)).generation = k * 2 ^ 10 := by
  have hi' : i < 2 ^ 10 := hi
  rw [generation_eq, new_raw hi hk, Nat.mul_add_div (by decide), Nat.div_eq_of_lt hi', add_zero]

end Handle

variable {s : Slot}

/-- A slot's generation moves on by one, or the slot retires at the last but one. -/
theorem Slot.advance_eq {k : Nat} (hg : s.generation = k * 2 ^ 10) (hk : k < maxGeneration) :
    s.advance = if k + 1 = maxGeneration then { s with retired := true }
      else { s with generation := (k + 1) * 2 ^ 10 } := by
  have hk' : k < 2 ^ 22 - 1 := hk
  have hshift : s.generation >>> indexBits = k := by
    rw [hg, Nat.shiftRight_eq_div_pow]
    exact Nat.mul_div_cancel _ (by decide)
  have hnext : (k + 1) % 2 ^ 32 = k + 1 := Nat.mod_eq_of_lt (by omega)
  unfold Slot.advance
  simp only [hshift, hnext]
  by_cases hlast : k + 1 = maxGeneration
  · rw [if_pos hlast.symm.le, if_pos hlast]
  have hlt : k + 1 < 2 ^ 22 - 1 := lt_of_le_of_ne hk hlast
  have hnot : ¬ maxGeneration ≤ k + 1 := not_le.mpr hlt
  rw [if_neg hnot, if_neg hlast, Nat.shiftLeft_eq,
    show indexBits = 10 from rfl, Nat.mod_eq_of_lt (by omega)]

/-! ## What each operation does -/

namespace HandleTable

variable {t t' : HandleTable} {e' : Entry} {s' : Slot} {handles : List Handle}

/-- The handle is to entry `e`, in slot `s`. -/
structure Names (t : HandleTable) (h : Handle) (s : Slot) (e : Entry) : Prop where
  slot : t.slots[h.index]? = some s
  generation : s.generation = h.generation
  entry : s.entry = some e

theorem Names.get (hn : t.Names h s e) : t.get h = .ok e := by
  simp [HandleTable.get, hn.slot, hn.generation, hn.entry]

theorem close_names (hn : t.Names h s e) : t.close h = (t.vacate h.index s, .ok e) := by
  simp [close, hn.slot, hn.generation, hn.entry]

theorem not_named (hno : ∀ s e, ¬ t.Names h s e) :
    t.get h = .error .badHandle ∧ t.close h = (t, .error .badHandle) := by
  unfold get close
  cases hs : t.slots[h.index]? with
  | none => exact ⟨rfl, rfl⟩
  | some s =>
    by_cases hg : s.generation = h.generation
    · cases he : s.entry with
      | none => simp [hg, he]
      | some e => exact absurd ⟨hs, hg, he⟩ (hno s e)
    · simp [hg]

theorem get_eq_ok : t.get h = .ok e ↔ ∃ s, t.Names h s e := by
  refine ⟨fun hg => ?_, fun ⟨s, hs⟩ => hs.get⟩
  by_cases hn : ∃ s e, t.Names h s e
  · obtain ⟨s, e', hn⟩ := hn
    cases hn.get.symm.trans hg
    exact ⟨s, hn⟩
  · cases (not_named fun s e hse => hn ⟨s, e, hse⟩).1.symm.trans hg

/-- A close takes one entry out, or does nothing. -/
theorem close_cases (t : HandleTable) (h : Handle) :
    (∃ s e, t.Names h s e ∧ t.close h = (t.vacate h.index s, .ok e)) ∨
      ((∀ s e, ¬ t.Names h s e) ∧ t.close h = (t, .error .badHandle)) := by
  by_cases hn : ∃ s e, t.Names h s e
  · obtain ⟨s, e, hn⟩ := hn
    exact .inl ⟨s, e, hn, close_names hn⟩
  · have hno : ∀ s e, ¬ t.Names h s e := fun s e hse => hn ⟨s, e, hse⟩
    exact .inr ⟨hno, (not_named hno).2⟩

/-- An insert puts one entry into the first free slot, or there is none. -/
theorem insert_cases (t : HandleTable) (object : Nat) (kind : ObjectType) (rights : Rights) :
    (∃ i s, t.slots[i]? = some s ∧ s.free = true ∧
        t.insert object kind rights =
          (⟨t.slots.set i { s with entry := some ⟨object, kind, rights⟩ }, t.live + 1⟩,
            .ok (Handle.new i s.generation))) ∨
      (t.freeSlots = 0 ∧ t.insert object kind rights = (t, .error .tableFull)) := by
  unfold insert
  cases hf : t.slots.findIdx? Slot.free with
  | none =>
    refine .inr ⟨?_, rfl⟩
    rw [freeSlots, countP_eq_zero]
    intro s hs
    rw [findIdx?_eq_none_iff] at hf
    rw [hf s hs]
    exact Bool.false_ne_true
  | some i =>
    obtain ⟨hlt, hfree, -⟩ := findIdx?_eq_some_iff_getElem.mp hf
    refine .inl ⟨i, t.slots[i], getElem?_eq_getElem hlt, hfree, ?_⟩
    simp only [getElem?_eq_getElem hlt]

theorem duplicate_cases (t : HandleTable) (h : Handle) (mask : Rights) :
    (∃ e, t.duplicate h mask = (t, .error e)) ∨
      ∃ e : Entry, t.duplicate h mask = t.insert e.object e.kind (e.rights.narrow mask) := by
  unfold duplicate
  cases t.get h with
  | error e => exact .inl ⟨e, rfl⟩
  | ok e =>
    simp only
    split
    · exact .inl ⟨_, rfl⟩
    · exact .inr ⟨e, rfl⟩

theorem transferOut_cases (t : HandleTable) (h : Handle) :
    (∃ e, t.transferOut h = (t, .error e)) ∨ t.transferOut h = t.close h := by
  unfold transferOut
  cases t.get h with
  | error e => exact .inl ⟨e, rfl⟩
  | ok e =>
    simp only
    split
    · exact .inl ⟨_, rfl⟩
    · exact .inr rfl

/-- What `transferOutMany` checks of a list. -/
theorem checkTransfer_ok (rest : List Handle) (earlier : List Handle) :
    t.checkTransfer earlier rest = .ok () ↔
      (∀ h ∈ rest, ∃ e, t.get h = .ok e ∧ e.rights.contains .transfer = true) ∧
        rest.Nodup ∧ ∀ h ∈ rest, h ∉ earlier := by
  induction rest generalizing earlier with
  | nil => simp [checkTransfer]
  | cons h rest ih =>
    unfold checkTransfer
    cases hg : t.get h with
    | error e => simp [hg]
    | ok e =>
      simp only
      by_cases hr : e.rights.contains .transfer = true
      · rw [if_neg (not_not.mpr hr)]
        by_cases he : h ∈ earlier
        · simp [he]
        rw [if_neg he, ih]
        simp only [mem_cons, forall_eq_or_imp, hg, Except.ok.injEq, exists_eq_left', hr,
          true_and, nodup_cons, mem_append, not_or, he, not_false_eq_true]
        constructor
        · intro ⟨h1, h2, h3⟩
          exact ⟨h1, ⟨fun hin => (h3 h hin).2.1 rfl, h2⟩, fun x hx => (h3 x hx).1⟩
        · intro ⟨h1, ⟨h2, h3⟩, h4⟩
          exact ⟨h1, h3, fun x hx => ⟨h4 x hx, fun hin => h2 (hin ▸ hx), not_mem_nil⟩⟩
      · simp [hg, hr]

/-- Vacating a slot leaves what handles of other slots name. -/
theorem Names.vacate (hn : t.Names h' s' e') (hi : h'.index ≠ h.index) : (t.vacate h.index s).Names h' s' e' := by
  refine ⟨?_, hn.generation, hn.entry⟩
  simp only [HandleTable.vacate]
  rw [getElem?_set_ne hi.symm]
  exact hn.slot

/-- Handles of one slot that name something are one handle. -/
theorem Names.inj (hn : t.Names h s e) (hn' : t.Names h' s' e') (hi : h.index = h'.index) : h = h' := by
  have hs : s = s' := by
    have := hn.slot
    rw [hi, hn'.slot] at this
    exact (Option.some.inj this).symm
  exact ext_iff'.mpr ⟨hi, by rw [← hn.generation, hs, hn'.generation]⟩

/-- A list that passed the checks names distinct slots, each with something in it. -/
structure Movable (t : HandleTable) (handles : List Handle) : Prop where
  names : ∀ h ∈ handles, ∃ s e, t.Names h s e ∧ e.rights.contains .transfer = true
  nodup : handles.Nodup

theorem checkTransferOutMany_ok : t.checkTransferOutMany handles = .ok () ↔ t.Movable handles := by
  unfold checkTransferOutMany
  rw [checkTransfer_ok]
  constructor
  · intro hc
    obtain ⟨h1, h2, -⟩ := hc
    refine ⟨fun h hh => ?_, h2⟩
    obtain ⟨e, hg, hr⟩ := h1 h hh
    obtain ⟨s, hs⟩ := get_eq_ok.mp hg
    exact ⟨s, e, hs, hr⟩
  · intro hm
    refine ⟨fun h hh => ?_, hm.nodup, by simp⟩
    obtain ⟨s, e, hs, hr⟩ := hm.names h hh
    exact ⟨e, get_eq_ok.mpr ⟨s, hs⟩, hr⟩

theorem transferOutMany_cases (t : HandleTable) (handles : List Handle) :
    (∃ e, t.transferOutMany handles = (t, .error e)) ∨
      (t.Movable handles ∧
        t.transferOutMany handles = ((t.takeAll 0 handles).1, .ok (t.takeAll 0 handles).2)) := by
  unfold transferOutMany
  cases hc : t.checkTransferOutMany handles with
  | error e => exact .inl ⟨e, rfl⟩
  | ok u => exact .inr ⟨checkTransferOutMany_ok.mp hc, rfl⟩

/-- Moving the first of a movable list leaves the rest movable. -/
theorem Movable.tail (hm : t.Movable (h :: handles))
    (hn : t.Names h s e) : (t.vacate h.index s).Movable handles := by
  obtain ⟨hnot, hnd⟩ := nodup_cons.mp hm.nodup
  refine ⟨fun h' hh => ?_, hnd⟩
  obtain ⟨s', e', hn', hr⟩ := hm.names h' (mem_cons_of_mem _ hh)
  refine ⟨s', e', hn'.vacate fun hi => hnot ?_, hr⟩
  rwa [← hn'.inj hn hi]

/-- The one step of moving a movable list. -/
theorem Movable.takeAll_cons {index : Nat} (hn : t.Names h s e) : t.takeAll index (h :: handles) =
      (((t.vacate h.index s).takeAll (index + 1) handles).1,
        (index, e) :: ((t.vacate h.index s).takeAll (index + 1) handles).2) := by
  conv_lhs => unfold takeAll
  rw [hn.slot]
  simp only [hn.entry]

/-- A bad handle in a list stops the transfer where it stands. -/
theorem checkTransfer_bad {pre : List Handle} (post : List Handle) (hbad : t.get h = .error .badHandle)
    (earlier : List Handle) (hpre : t.checkTransfer earlier pre = .ok ()) :
    t.checkTransfer earlier (pre ++ h :: post) =
      .error (.handle (earlier.length + pre.length) .badHandle) := by
  induction pre generalizing earlier with
  | nil =>
    simp only [nil_append]
    unfold checkTransfer
    rw [hbad]
    rfl
  | cons g pre ih =>
    rw [cons_append]
    unfold checkTransfer at hpre ⊢
    cases hg : t.get g with
    | error e => rw [hg] at hpre; cases hpre
    | ok e =>
      rw [hg] at hpre
      simp only at hpre ⊢
      split at hpre
      · cases hpre
      rename_i hr
      rw [if_neg hr]
      split at hpre
      · cases hpre
      rename_i hin
      rw [if_neg hin, ih _ hpre]
      simp only [length_append, length_cons, length_nil]
      congr 2
      omega

end HandleTable

/-! ## A table's whole life -/

inductive HandleOp where
  | insert (object : Nat) (kind : ObjectType) (rights : Rights)
  | close (h : Handle)
  | duplicate (h : Handle) (mask : Rights)
  | transferOut (h : Handle)
  | transferOutMany (handles : List Handle)

/-- A table with the handles it issued and those that were closed or transferred out. -/
structure Life where
  table : HandleTable
  issued : List Handle
  gone : List Handle

namespace Life

open HandleTable

def new (n : Nat) : Life := ⟨.new n, [], []⟩

/-- The table an operation left, and the handle it issued. -/
def issue (l : Life) : HandleTable × Except HandleError Handle → Life
  | (t, .ok h) => { l with table := t, issued := h :: l.issued }
  | (t, .error _) => { l with table := t }

/-- The table an operation left, and the handles it took. -/
def lose {ε α : Type} (l : Life) (handles : List Handle) : HandleTable × Except ε α → Life
  | (t, .ok _) => { l with table := t, gone := handles ++ l.gone }
  | (t, .error _) => { l with table := t }

def step (l : Life) : HandleOp → Life
  | .insert object kind rights => l.issue (l.table.insert object kind rights)
  | .close h => l.lose [h] (l.table.close h)
  | .duplicate h mask => l.issue (l.table.duplicate h mask)
  | .transferOut h => l.lose [h] (l.table.transferOut h)
  | .transferOutMany handles => l.lose handles.reverse (l.table.transferOutMany handles)

def run (l : Life) (ops : List HandleOp) : Life := ops.foldl step l

/-- How often a slot was filled, and how often it was vacated. -/
def opens (l : Life) (i : Nat) : Nat := l.issued.countP (·.index == i)

def closes (l : Life) (i : Nat) : Nat := l.gone.countP (·.index == i)

/-- A slot against its counts. -/
structure SlotInv (s : Slot) (opens closes : Nat) : Prop where
  opens : opens = closes + if s.entry.isSome then 1 else 0
  live : s.retired = false →
    s.generation = (closes + 1) * 2 ^ 10 ∧ closes + 1 < maxGeneration
  retired : s.retired = true →
    s.generation = closes * 2 ^ 10 ∧ closes = cyclesPerSlot ∧ s.entry = none

theorem SlotInv.not_retired {opens closes : Nat} (h : SlotInv s opens closes) (he : s.entry = some e) :
    s.retired = false := by
  rw [Bool.eq_false_iff]
  intro hr
  cases he.symm.trans (h.retired hr).2.2

/-- What holds all its life of a table with `n` slots. -/
structure Inv (n : Nat) (l : Life) : Prop where
  length : l.table.slots.length = n
  small : n ≤ maxSlots
  slot : ∀ {i s}, l.table.slots[i]? = some s → SlotInv s (l.opens i) (l.closes i)
  /-- Handles are issued in the order of their generations. -/
  issued : ∀ h ∈ l.issued, ∃ k, h.generation = k * 2 ^ 10 ∧ k ≤ l.opens h.index
  nodup : l.issued.Nodup
  gone : ∀ h ∈ l.gone, ∃ k, h.generation = k * 2 ^ 10 ∧ k ≤ l.closes h.index

theorem Inv.new {n : Nat} (hn : n ≤ maxSlots) : Inv n (new n) where
  length := length_replicate
  small := hn
  slot := by
    intro i s hs
    have : s = ⟨1 <<< indexBits, none, false⟩ :=
      eq_of_mem_replicate (mem_of_getElem? hs)
    subst this
    refine ⟨rfl, fun _ => ⟨?_, ?_⟩, nofun⟩
    · simp [Life.closes, Life.new, indexBits]
    · simp [Life.closes, Life.new, maxGeneration, indexBits]
  issued := by simp [Life.new]
  nodup := nodup_nil
  gone := by simp [Life.new]

variable {n : Nat} {l : Life} {g : Handle}

theorem Inv.lt (h : Inv n l) (hs : l.table.slots[i]? = some s) : i < n ∧ i < maxSlots := by
  obtain ⟨hlt, -⟩ := List.getElem?_eq_some_iff.mp hs
  rw [h.length] at hlt
  exact ⟨hlt, hlt.trans_le h.small⟩

theorem count_cons (hs : List Handle) (h : Handle) (i : Nat) :
    (h :: hs).countP (·.index == i) = hs.countP (·.index == i) + if h.index = i then 1 else 0 := by
  by_cases hi : h.index = i <;> simp [hi]

theorem opens_cons (l : Life) (t : HandleTable) (h : Handle) (i : Nat) :
    opens ⟨t, h :: l.issued, l.gone⟩ i = l.opens i + if h.index = i then 1 else 0 :=
  count_cons l.issued h i

theorem closes_cons (l : Life) (t : HandleTable) (h : Handle) (i : Nat) :
    closes ⟨t, l.issued, h :: l.gone⟩ i = l.closes i + if h.index = i then 1 else 0 :=
  count_cons l.gone h i

/-- A free slot is filled, and its handle is new. -/
theorem Inv.fill (h : Inv n l) {live : Nat} (e : Entry) (hs : l.table.slots[i]? = some s) (hf : s.free = true) :
    Inv n ⟨⟨l.table.slots.set i { s with entry := some e }, live⟩,
      Handle.new i s.generation :: l.issued, l.gone⟩ := by
  simp only [Slot.free, Bool.and_eq_true, Option.isNone_iff_eq_none, Bool.not_eq_true'] at hf
  obtain ⟨hlt, hmax⟩ := h.lt hs
  have hi := h.slot hs
  obtain ⟨hg, hk⟩ := hi.live hf.2
  have hk : l.closes i + 1 < 2 ^ 22 := hk.trans (by decide)
  have hopens : l.opens i = l.closes i := by simpa [hf.1] using hi.opens
  have hidx : (Handle.new i s.generation).index = i := by
    rw [hg]
    exact Handle.index_new hmax hk
  have hgen : (Handle.new i s.generation).generation = (l.closes i + 1) * 2 ^ 10 := by
    rw [hg]
    exact Handle.generation_new hmax hk
  refine ⟨by simpa using h.length, h.small, ?_, ?_, nodup_cons.mpr ⟨fun hin => ?_, h.nodup⟩, h.gone⟩
  · intro j s' hs'
    rw [opens_cons, hidx]
    by_cases hij : i = j
    · subst hij
      rw [getElem?_set_self (by rw [h.length]; exact hlt)] at hs'
      cases hs'
      refine ⟨?_, fun _ => hi.live hf.2, fun hr => ?_⟩
      · simp only [hopens, Option.isSome_some, if_true]
        rfl
      · cases hf.2.symm.trans hr
    · rw [getElem?_set_ne hij] at hs'
      rw [if_neg hij, add_zero]
      exact h.slot hs'
  · intro h' hh
    rw [opens_cons, hidx]
    rcases mem_cons.mp hh with rfl | hh
    · exact ⟨l.closes i + 1, hgen, by rw [hidx, hopens, if_pos rfl]⟩
    · obtain ⟨k, hk, hle⟩ := h.issued h' hh
      exact ⟨k, hk, hle.trans (Nat.le_add_right _ _)⟩
  · -- handles of the slot issued before have smaller generations
    obtain ⟨k, hk, hle⟩ := h.issued _ hin
    rw [hidx, hopens] at hle
    omega

/-- A slot is vacated, and the handle that named it is past. -/
theorem Inv.vacate (h : Inv n l) (hn : l.table.Names g s e) :
    Inv n ⟨l.table.vacate g.index s, l.issued, g :: l.gone⟩ := by
  obtain ⟨hlt, hmax⟩ := h.lt hn.slot
  have hi := h.slot hn.slot
  have hlive := hi.not_retired hn.entry
  obtain ⟨hg, hk⟩ := hi.live hlive
  have hopens : l.opens g.index = l.closes g.index + 1 := by simpa [hn.entry] using hi.opens
  have hadv := Slot.advance_eq (s := { s with entry := none }) hg hk
  refine { h with length := by simpa [HandleTable.vacate] using h.length, slot := ?_, gone := ?_ }
  · intro j s' hs'
    simp only [HandleTable.vacate] at hs'
    rw [closes_cons]
    by_cases hij : g.index = j
    · subst hij
      rw [getElem?_set_self (by rw [h.length]; exact hlt)] at hs'
      obtain rfl := (Option.some.inj hs').symm
      rw [hadv, if_pos rfl]
      by_cases hlast : l.closes g.index + 1 + 1 = maxGeneration
      · rw [if_pos hlast]
        refine ⟨by simp only [Option.isSome_none]; exact hopens, nofun, fun _ => ⟨hg, ?_, rfl⟩⟩
        exact Nat.eq_sub_of_add_eq hlast
      · rw [if_neg hlast]
        refine ⟨by simp only [Option.isSome_none]; exact hopens,
          fun _ => ⟨rfl, lt_of_le_of_ne hk hlast⟩, fun hr => ?_⟩
        cases hlive.symm.trans hr
    · rw [getElem?_set_ne hij] at hs'
      rw [if_neg hij, add_zero]
      exact h.slot hs'
  · intro h' hh
    rw [closes_cons]
    rcases mem_cons.mp hh with rfl | hh
    · exact ⟨l.closes h'.index + 1, by rw [← hn.generation, hg], by rw [if_pos rfl]⟩
    · obtain ⟨k, hk, hle⟩ := h.gone h' hh
      exact ⟨k, hk, hle.trans (Nat.le_add_right _ _)⟩

theorem Inv.takeAll (h : Inv n l) (handles : List Handle) (index : Nat) (hm : l.table.Movable handles) :
    Inv n ⟨(l.table.takeAll index handles).1, l.issued, handles.reverse ++ l.gone⟩ := by
  induction handles generalizing l index with
  | nil => exact h
  | cons g handles ih =>
    obtain ⟨s, e, hn, -⟩ := hm.names g mem_cons_self
    rw [Movable.takeAll_cons hn]
    have := ih (h.vacate hn) (index + 1) (hm.tail hn)
    rwa [reverse_cons, append_assoc]

theorem Inv.insert (h : Inv n l) (object : Nat) (kind : ObjectType) (rights : Rights) :
    Inv n (l.issue (l.table.insert object kind rights)) := by
  rcases insert_cases l.table object kind rights with ⟨i, s, hs, hf, he⟩ | ⟨-, he⟩ <;> rw [he]
  · exact h.fill _ hs hf
  · exact h

theorem Inv.close (h : Inv n l) (g : Handle) : Inv n (l.lose [g] (l.table.close g)) := by
  rcases close_cases l.table g with ⟨s, e, hn, he⟩ | ⟨-, he⟩ <;> rw [he]
  · exact h.vacate hn
  · exact h

theorem Inv.step (h : Inv n l) (op : HandleOp) : Inv n (l.step op) := by
  cases op with
  | insert object kind rights => exact h.insert object kind rights
  | close g => exact h.close g
  | duplicate g mask =>
    rw [Life.step]
    rcases duplicate_cases l.table g mask with ⟨e, he⟩ | ⟨e, he⟩ <;> rw [he]
    · exact h
    · exact h.insert e.object e.kind (e.rights.narrow mask)
  | transferOut g =>
    rw [Life.step]
    rcases transferOut_cases l.table g with ⟨e, he⟩ | he <;> rw [he]
    · exact h
    · exact h.close g
  | transferOutMany handles =>
    rw [Life.step]
    rcases transferOutMany_cases l.table handles with ⟨e, he⟩ | ⟨hm, he⟩ <;> rw [he]
    · exact h
    · exact h.takeAll handles 0 hm

theorem Inv.run (h : Inv n l) (ops : List HandleOp) : Inv n (l.run ops) :=
  foldlRecOn ops _ h fun _ h op _ => h.step op

/-- What is gone stays gone. -/
theorem gone_step (l : Life) (op : HandleOp) (hg : h ∈ l.gone) : h ∈ (l.step op).gone := by
  have hissue : ∀ r, h ∈ (l.issue r).gone := by
    rintro ⟨t, _ | _⟩ <;> exact hg
  have hlose : ∀ {ε α : Type} (handles) (r : HandleTable × Except ε α), h ∈ (l.lose handles r).gone := by
    rintro ε α handles ⟨t, _ | _⟩
    · exact hg
    · exact mem_append_right _ hg
  cases op with
  | insert | duplicate => exact hissue _
  | close | transferOut | transferOutMany => exact hlose _ _

theorem gone_run (l : Life) (ops : List HandleOp) (hg : h ∈ l.gone) : h ∈ (l.run ops).gone :=
  foldlRecOn (motive := (h ∈ gone ·)) ops _ hg fun l hg op _ => gone_step l op hg

/-- Nothing can be done with the handle. -/
structure Dead (t : HandleTable) (h : Handle) : Prop where
  get : t.get h = .error .badHandle
  close : t.close h = (t, .error .badHandle)
  duplicate : ∀ mask, t.duplicate h mask = (t, .error .badHandle)
  transferOut : t.transferOut h = (t, .error .badHandle)
  /-- In a list, it is the first thing wrong unless something before it is. -/
  transferOutMany : ∀ pre post, t.checkTransferOutMany pre = .ok () →
    t.transferOutMany (pre ++ h :: post) = (t, .error (.handle pre.length .badHandle))

theorem dead_of_not_names {t : HandleTable} (hno : ∀ s e, ¬ t.Names h s e) : Dead t h := by
  obtain ⟨hget, hclose⟩ := not_named hno
  refine ⟨hget, hclose, fun mask => ?_, ?_, fun pre post hpre => ?_⟩
  · unfold duplicate
    rw [hget]
  · unfold transferOut
    rw [hget]
  · have := checkTransfer_bad post hget [] hpre
    unfold transferOutMany checkTransferOutMany
    rw [this, length_nil, zero_add]

/-- A handle of a past generation, or of a retired slot, names nothing. -/
theorem Inv.dead (h : Inv n l) (hg : g ∈ l.gone) : Dead l.table g := by
  refine dead_of_not_names fun s e hn => ?_
  have hi := h.slot hn.slot
  have hlive := hi.not_retired hn.entry
  obtain ⟨k, hk, hle⟩ := h.gone g hg
  have hgen := (hi.live hlive).1
  rw [hn.generation, hk] at hgen
  omega

/-- How a slot was used: it was vacated at most `CYCLES_PER_SLOT` times, is retired exactly
once it was vacated that often, and was filled as often as it was vacated, and once more if
something is in it. -/
structure Served (l : Life) (i : Nat) (s : Slot) : Prop where
  closes_le : l.closes i ≤ cyclesPerSlot
  retired_iff : s.retired = true ↔ l.closes i = cyclesPerSlot
  opens_eq : l.opens i = l.closes i + if s.entry.isSome then 1 else 0
  opens_le : l.opens i ≤ cyclesPerSlot

theorem Inv.served (h : Inv n l) (hs : l.table.slots[i]? = some s) : Served l i s := by
  have hi := h.slot hs
  have hc : cyclesPerSlot = maxGeneration - 1 := rfl
  cases hr : s.retired with
  | false =>
    obtain ⟨-, hlt⟩ := hi.live hr
    refine ⟨by omega, ⟨fun hr' => ?_, fun he => by omega⟩, hi.opens, ?_⟩
    · rw [hr] at hr'
      cases hr'
    rw [hi.opens]
    split <;> omega
  | true =>
    obtain ⟨-, he, hnone⟩ := hi.retired hr
    refine ⟨he.le, ⟨fun _ => he, fun _ => hr⟩, hi.opens, ?_⟩
    rw [hi.opens, hnone]
    exact he.le

/-- **No capability through a stale handle.** Over a table's whole life, whatever is asked of
it, no handle value is issued twice; a handle that was closed or transferred out is dead from
then on; and every slot is retired after `CYCLES_PER_SLOT` cycles and not used again. -/
theorem handles_never_reused (n : Nat) (hn : n ≤ maxSlots) (ops : List HandleOp) :
    ((Life.new n).run ops).issued.Nodup ∧
      (∀ h ∈ ((Life.new n).run ops).gone, ∀ later,
        Dead (((Life.new n).run ops).run later).table h) ∧
      ∀ i < n, ∃ s, ((Life.new n).run ops).table.slots[i]? = some s ∧
        Served ((Life.new n).run ops) i s := by
  have h := (Inv.new hn).run ops
  refine ⟨h.nodup, fun g hg later => (h.run later).dead (gone_run _ later hg), fun i hi => ?_⟩
  have hlt : i < ((Life.new n).run ops).table.slots.length := by rwa [h.length]
  exact ⟨_, getElem?_eq_getElem hlt, h.served (getElem?_eq_getElem hlt)⟩

/-- A handle is closed and its slot filled again: one slot, two handles, the first dead. -/
def reuse : List HandleOp :=
  [.insert 1 .channel .all, .close ⟨0x400⟩, .insert 2 .process .all]

theorem handles_never_reused_reuse : 2 ≤ maxSlots ∧ ((Life.new 2).run reuse).issued = [⟨0x800⟩, ⟨0x400⟩] ∧
    ((Life.new 2).run reuse).gone = [⟨0x400⟩] ∧ Dead ((Life.new 2).run reuse).table ⟨0x400⟩ := by
  have hgone : ((Life.new 2).run reuse).gone = [⟨0x400⟩] := by decide +kernel
  refine ⟨by decide, by decide +kernel, hgone, ?_⟩
  exact (handles_never_reused 2 (by decide) reuse).2.1 _ (by rw [hgone]; simp) []

end Life

end Kintane
