import Mathlib.Data.Fintype.Card
import Kintane.Bcache.CacheInv

/-!
# What the operations do to the view

Each operation from a state with the invariant, whatever the device does: the state it leaves when
it succeeds and when it fails. Only `write_at` and `write_block` change the view.
-/

open List Function

namespace Kintane.Bcache

open Image Fallible Cache World Finset

variable {n g upto lba rounds len offset : Nat} {bs : Nat} {disk0 v : Nat → UInt8} {F : Faults} {x : Option (Fin n)}
  {w w' : World n} {i : Fin n} {p : Slot → Bool} {bytes : List UInt8}

/-- The invariant, with the view and the generation. -/
structure Shows (bs : Nat) (disk0 v : Nat → UInt8) (g : Nat) (x : Option (Fin n)) (w : World n) : Prop where
  inv : Inv bs disk0 x w
  view : view bs disk0 w.trace = v
  gen : w.cache.generation = g

theorem Shows.idle {e : Event} (h : Shows bs disk0 v g x w) (he : e.Idle)
    (htrace : w'.trace = w.trace ++ [e]) (hdisk : w'.disk = w.disk) (hcache : w'.cache = w.cache) :
    Shows bs disk0 v g x w' where
  inv := h.inv.idle he htrace hdisk hcache
  view := by
    rw [htrace, view_concat, h.view]
    cases e <;> first | rfl | cases he
  gen := by
    rw [hcache]
    exact h.gen

/-- No slot of `w'` holds a block it did not hold in `w`. -/
def Fewer (w w' : World n) : Prop :=
  ∀ i, (w'.cache.slots i).valid = true →
    (w.cache.slots i).valid = true ∧ (w'.cache.slots i).lba = (w.cache.slots i).lba

theorem Fewer.refl : Fewer w w := fun _ h => ⟨h, rfl⟩

theorem Fewer.trans {w1 w2 w3 : World n} (h : Fewer w1 w2) (h' : Fewer w2 w3) : Fewer w1 w3 := by
  intro i hi
  obtain ⟨hv, hl⟩ := h' i hi
  obtain ⟨hv', hl'⟩ := h i hv
  exact ⟨hv', hl.trans hl'⟩

/-- The program keeps what is shown, also when it fails. -/
abbrev Keeps {α : Type} (bs : Nat) (disk0 v : Nat → UInt8) (g : Nat) (w : World n) (m : M n α)
    (Q : α → World n → Prop) : Prop :=
  wp m (fun a w' => Shows bs disk0 v g none w' ∧ Q a w') (fun _ w' => Shows bs disk0 v g none w') w

/-! ## Searches -/

namespace Cache

variable {c : Cache n}

theorem of_nextOut (h : c.nextOut upto = some i) :
    (c.slots i).dirty = true ∧ (c.slots i).generation ≤ upto ∧
      ∀ j, (c.slots j).valid = true → (c.slots j).dirty = true →
        (c.slots i).generation ≤ (c.slots j).generation := by
  have hi := (of_pick h).2
  simp only [Bool.and_eq_true, decide_eq_true_eq] at hi
  refine ⟨hi.1.2, hi.2, fun j hv hd => ?_⟩
  rcases lt_or_ge upto (c.slots j).generation with hup | hup
  · exact (hi.2.trans_lt hup).le
  refine pick_le (R := fun _ _ => True) (fun i => (c.slots i).generation) ?_ ?_
    (pairwise_of_forall fun _ _ => trivial) h (mem_finRange j) ?_
  · intro a b hab
    simp only [Bool.or_eq_true, Bool.and_eq_true, decide_eq_true_eq] at hab
    omega
  · intro a b _ hab
    simp only [Bool.or_eq_false_iff, decide_eq_false_iff_not] at hab
    omega
  · simp [hv, hd, hup]

theorem of_position (h : c.position p = some i) : p (c.slots i) = true := by
  simpa using find?_some h

theorem of_cached (h : c.cached lba = some i) : (c.slots i).valid = true ∧ (c.slots i).lba = lba := by
  simpa using of_position h

theorem of_cached_none (h : c.cached lba = none) (hv : (c.slots i).valid = true) : (c.slots i).lba ≠ lba := by
  have := find?_eq_none.mp h i (mem_finRange i)
  simpa [hv] using this

end Cache

/-! ## Writing out -/

/-- How many slots are still to be written out. -/
def due (c : Cache n) (upto : Nat) : Nat :=
  (univ.filter fun i => (c.slots i).dirty = true ∧ (c.slots i).generation ≤ upto).card

theorem due_le (c : Cache n) : due c upto ≤ n :=
  (card_le_univ _).trans_eq (Fintype.card_fin n)

theorem due_clean {c : Cache n} (hd : (c.slots i).dirty = true) (hg : (c.slots i).generation ≤ upto) :
    due (c.setSlot i { c.slots i with dirty := false }) upto < due c upto := by
  refine Finset.card_lt_card (Finset.ssubset_iff_of_subset ?_ |>.mpr ⟨i, ?_, ?_⟩)
  · intro j hj
    have hj' := (Finset.mem_filter.mp hj).2
    refine Finset.mem_filter.mpr ⟨Finset.mem_univ j, ?_⟩
    by_cases hji : j = i
    · subst hji
      simp [setSlot] at hj'
    · simpa [setSlot, hji] using hj'
  · exact Finset.mem_filter.mpr ⟨Finset.mem_univ i, hd, hg⟩
  · intro hi
    have hi' := (Finset.mem_filter.mp hi).2
    simp [setSlot] at hi'

/-- Slots of `w'` are those of `w`, some of them clean now. -/
def Cleaner (w w' : World n) : Prop :=
  ∀ i, w'.cache.slots i = w.cache.slots i ∨ w'.cache.slots i = { w.cache.slots i with dirty := false }

theorem Cleaner.fewer (h : Cleaner w w') : Fewer w w' := by
  intro i hi
  rcases h i with heq | heq
  · rw [heq] at hi ⊢
    exact ⟨hi, rfl⟩
  · rw [heq] at hi ⊢
    exact ⟨hi, rfl⟩

theorem wp_writeRounds (h : Shows bs disk0 v g none w) (hdue : due w.cache upto ≤ rounds) :
    Keeps bs disk0 v g w (writeRounds F bs upto rounds) fun _ w' =>
      Cleaner w w' ∧
        ∀ i, (w'.cache.slots i).dirty = true → upto < (w'.cache.slots i).generation := by
  induction rounds generalizing w with
  | zero =>
    refine ⟨h, fun i => .inl rfl, fun i hi => ?_⟩
    have : due w.cache upto = 0 := Nat.le_zero.mp hdue
    rw [due, card_eq_zero, filter_eq_empty_iff] at this
    have hnot := this (mem_univ i)
    exact Nat.lt_of_not_le fun hle => hnot ⟨hi, hle⟩
  | succ rounds ih =>
    unfold Keeps writeRounds
    rw [wp_bind, wp_get]
    split
    · next hnone =>
      refine ⟨h, fun i => .inl rfl, fun i hi => ?_⟩
      simpa [h.inv.valid i hi, hi] using of_pick_none hnone i (mem_finRange i)
    rename_i i hi
    obtain ⟨hd, hg, hmin⟩ := of_nextOut hi
    rw [wp_bind, deviceWrite, wp_bind, wp_get]
    split
    · exact h.idle (e := .refused (w.cache.slots i).lba) trivial rfl rfl rfl
    rw [wp_set, wp_bind, wp_modify]
    have hclean := due_clean (c := w.cache) hd hg
    refine wp_mono (ih ⟨?_, ?_, h.gen⟩ (Nat.le_of_lt_succ (hclean.trans_le hdue))) ?_ fun _ _ => id
    · exact h.inv.back hd (fun j hj => hmin j (h.inv.valid j hj) hj) rfl rfl rfl
    · exact view_concat.trans h.view
    · rintro _ w2 ⟨hs, hc, hall⟩
      refine ⟨hs, fun j => ?_, hall⟩
      have hcj := hc j
      by_cases hji : j = i
      · subst hji
        simp only [setCache, setSlot, log, update_self] at hcj
        exact .inr (hcj.elim id id)
      · simpa [setCache, setSlot, log, hji] using hcj

/-! ## Slots -/

theorem wp_victim (h : Shows bs disk0 v g none w) :
    Keeps bs disk0 v g w (victim F bs) fun i w' => Fewer w w' ∧ (w'.cache.slots i).dirty = false := by
  unfold Keeps victim
  rw [wp_bind, wp_get]
  split
  · next i hi =>
    refine ⟨h, .refl, Bool.eq_false_iff.mpr fun hd => ?_⟩
    have := of_position hi
    rw [h.inv.valid i hd] at this
    cases this
  · split
    · next i hi => exact ⟨h, .refl, by simpa using (of_pick hi).2⟩
    refine wp_seq (wp_mono (wp_writeRounds h (due_le _)) (fun _ w1 h1 => ?_) fun _ _ => id) fun _ _ => id
    obtain ⟨hs, hc, -⟩ := h1
    rw [wp_bind, wp_get]
    split
    · next i hi => exact ⟨hs, hc.fewer, by simpa using of_position hi⟩
    · exact hs

/-- With nothing dirty there is always a slot, and the device is not asked. -/
theorem wp_victim_of_clean (hn : 0 < n) (h : ∀ i, (w.cache.slots i).dirty = false) :
    wp (victim F bs) (fun _ w' => w' = w) (fun _ _ => False) w := by
  unfold victim
  rw [wp_bind, wp_get]
  split
  · rfl
  split
  · rfl
  · next hnone =>
    have := of_pick_none hnone ⟨0, hn⟩ (mem_finRange _)
    simp [h] at this

def Vacant (w : World n) (i : Fin n) : Prop :=
  (w.cache.slots i).valid = false ∧ (w.cache.slots i).dirty = false

section

variable (h : Shows bs disk0 v g none w)

include h

theorem Shows.vacate (hi : (w.cache.slots i).dirty = false) :
    let w' := w.setCache (w.cache.setSlot i { w.cache.slots i with valid := false })
    Shows bs disk0 v g none w' ∧ Fewer w w' ∧ Vacant w' i := by
  refine ⟨⟨h.inv.forget rfl rfl rfl fun j => ?_, h.view, h.gen⟩, fun j hj => ?_, ?_⟩
  · by_cases hji : j = i
    · simp [setCache, setSlot, hji, hi]
    · exact .inr ⟨⟨_, update_of_ne hji ..⟩, rfl⟩
  · by_cases hji : j = i
    · simp [setCache, setSlot, hji] at hj
    · simpa [setCache, setSlot, hji] using hj
  · simp [Vacant, setCache, setSlot, hi]

theorem wp_take : Keeps bs disk0 v g w (take F bs) fun i w' => Fewer w w' ∧ Vacant w' i := by
  refine wp_seq (wp_victim h) fun i w1 ⟨hs, hf, hd⟩ => ?_
  obtain ⟨hs', hf', hv⟩ := hs.vacate hd
  exact ⟨hs', hf.trans hf', hv⟩

/-- A vacant slot's bytes are anyone's. -/
theorem Shows.scratch (hi : Vacant w i) (bytes : List UInt8) (hlen : bytes.length = bs) :
    Shows bs disk0 v g none (w.setCache { w.cache with data := splice w.cache.data (i * bs) bytes }) where
  inv := by
    refine h.inv.forget rfl rfl rfl fun j => ?_
    by_cases hji : j = i
    · subst hji
      exact .inl ⟨hi.2, hi.2, hi.1⟩
    · refine .inr ⟨⟨_, rfl⟩, ?_⟩
      rw [← add_zero ((i : Nat) * bs)]
      exact block_splice_of_ne (fun heq => hji (Fin.ext heq)) (by omega)
  view := h.view
  gen := h.gen

theorem wp_deviceRead (hi : Vacant w i) :
    Keeps bs disk0 v g w (deviceRead F bs lba (i * bs)) fun _ w' =>
      w'.cache.slots = w.cache.slots ∧
        block bs w'.cache.data i = block bs w'.disk lba := by
  have hlog : ∀ bytes : List UInt8, bytes.length = bs → Shows bs disk0 v g none (log { w with
      calls := w.calls + 1
      cache := { w.cache with data := splice w.cache.data (i * bs) bytes } } (.fetch lba)) := by
    intro bytes hlen
    exact (h.scratch hi bytes hlen).idle (e := .fetch lba) trivial rfl rfl rfl
  unfold Keeps deviceRead
  rw [wp_bind, wp_get, wp_bind, wp_set]
  split
  · exact hlog _ length_slice
  refine ⟨hlog _ length_slice, rfl, ?_⟩
  show block bs (splice w.cache.data (i * bs) (slice _ 0 bs)) i = block bs w.disk lba
  rw [block_splice_self length_slice, block, slice_eq_slice_iff]
  intro k _
  rw [zero_add]

end

def Holds (w : World n) (i : Fin n) (lba : Nat) : Prop :=
  (w.cache.slots i).valid = true ∧ (w.cache.slots i).lba = lba

theorem Shows.touch (h : Shows bs disk0 v g x w) (now : Nat) : Shows bs disk0 v g x
      (w.setCache ({ w.cache with clock := now }.setSlot i { w.cache.slots i with usedAt := now })) := by
  refine ⟨h.inv.forget rfl rfl rfl fun j => .inr ⟨?_, rfl⟩, h.view, h.gen⟩
  by_cases hji : j = i
  · exact ⟨now, hji ▸ update_self ..⟩
  · exact ⟨_, update_of_ne hji ..⟩

theorem wp_slotFor (h : Shows bs disk0 v g none w) :
    Keeps bs disk0 v g w (slotFor F bs lba) fun i w' => Holds w' i lba := by
  unfold Keeps slotFor
  rw [wp_bind, wp_get]
  split
  · next i hi =>
    obtain ⟨hv, hlba⟩ := of_cached hi
    refine ⟨h.touch _, ?_⟩
    simp [Holds, setCache, setSlot, hv, hlba]
  rename_i hnone
  refine wp_seq (wp_take h) fun i w1 ⟨h1, hf, hvac⟩ => ?_
  refine wp_seq (wp_deviceRead h1 hvac) fun _ w2 ⟨h2, hslots, hdata⟩ => ?_
  refine ⟨⟨h2.inv.install _ ?_ (.inl rfl) (fun j _ hj => ?_) rfl (fun _ _ => rfl) (.inr ⟨rfl, hdata⟩),
    h2.view, h2.gen⟩, ?_⟩
  · rw [hslots]
    exact hvac.2
  · rw [hslots] at hj ⊢
    obtain ⟨hv, hlba⟩ := hf j hj
    rw [hlba]
    exact of_cached_none hnone hv
  · simp [Holds, setCache, setSlot]

theorem wp_writeSlot {taken : Nat} (h : Shows bs disk0 v g none w) : wp (writeSlot F bs lba taken)
      (fun i w' => Holds w' i lba ∧ (Shows bs disk0 v g none w' ∨
        Shows bs disk0 v g (some i) w' ∧ taken = bs ∧ (w'.cache.slots i).dirty = false))
      (fun _ w' => Shows bs disk0 v g none w') w := by
  unfold writeSlot
  rw [wp_bind, wp_get]
  split
  · next i hi => exact ⟨of_cached hi, .inl h⟩
  rename_i hnone
  split
  · next hwhole =>
    refine wp_seq (wp_take h) fun i w1 ⟨h1, hf, hvac⟩ => ?_
    refine ⟨by simp [Holds, setCache, setSlot], .inr ⟨⟨?_, h1.view, h1.gen⟩, hwhole, ?_⟩⟩
    · refine h1.inv.install _ hvac.2 (.inl rfl) (fun j _ hj => ?_) rfl (fun _ _ => rfl) (.inl rfl)
      obtain ⟨hv, hlba⟩ := hf j hj
      rw [hlba]
      exact of_cached_none hnone hv
    · simp [setCache, setSlot]
  · exact wp_mono (wp_slotFor h) (fun i w' h' => ⟨h'.2, .inl h'.1⟩) fun _ _ => id

/-! ## Reading -/

theorem wp_readRounds {got : List UInt8} (hbs : 0 < bs)
    (h : Shows bs disk0 v g none w) (hgot : got = slice v offset got.length)
    (hle : got.length ≤ len) (hr : len - got.length ≤ rounds) :
    Keeps bs disk0 v g w (readRounds F bs offset len rounds got) fun r _ => r = slice v offset len := by
  induction rounds generalizing w got with
  | zero =>
    refine ⟨h, ?_⟩
    rwa [show got.length = len by omega] at hgot
  | succ rounds ih =>
    unfold Keeps readRounds
    split
    · simp only
      split
      · exact h
      refine wp_seq (wp_slotFor h) fun i w1 ⟨h1, hi⟩ => ?_
      rw [wp_bind, wp_get]
      have hmod : (offset + got.length) % bs < bs := Nat.mod_lt _ hbs
      generalize hk : min (bs - (offset + got.length) % bs) (len - got.length) = k
      have hin : (offset + got.length) % bs + k ≤ bs := by omega
      have hblock := h1.inv.held i nofun hi.1
      rw [hi.2, h1.view] at hblock
      have hpiece := slice_eq_of_block_eq hblock hin
      rw [Nat.div_mul_self_eq_mod_sub_self, Nat.sub_add_cancel (Nat.mod_le _ _)] at hpiece
      rw [hpiece]
      refine ih h1 ?_ ?_ ?_
      · rw [length_append, length_slice, slice_append, ← hgot]
      · rw [length_append, length_slice]
        omega
      · rw [length_append, length_slice]
        omega
    · refine ⟨h, ?_⟩
      rwa [show got.length = len by omega] at hgot

theorem wp_readAt (hbs : 0 < bs) (h : Shows bs disk0 v g none w) :
    Keeps bs disk0 v g w (readAt F bs offset len) fun r _ => r = slice v offset len :=
  wp_readRounds hbs h rfl (Nat.zero_le _) le_rfl

/-! ## Writing back -/

theorem wp_putBytes {within : Nat} (h : Shows bs disk0 v g x w)
    (hx : x = none ∨ x = some i) (hi : Holds w i lba) (hin : within + bytes.length ≤ bs)
    (hwhole : x = some i → within = 0 ∧ bytes.length = bs)
    (hcur : (w.cache.slots i).dirty = true → (w.cache.slots i).generation = g) :
    wp (putBytes bs i lba within bytes)
      (fun _ w' => Shows bs disk0 (splice v (lba * bs + within) bytes) g none w') (fun _ _ => False) w := by
  obtain ⟨hv, rfl⟩ := hi
  unfold putBytes
  rw [wp_modify]
  refine ⟨?_, ?_, h.gen⟩
  · exact h.inv.put (s := { w.cache.slots i with
        usedAt := w.cache.now, dirty := true, generation := w.cache.generation }) hx hv hin hwhole
      (fun hd => (hcur hd).trans h.gen.symm) ⟨hv, rfl, rfl⟩ rfl rfl rfl rfl rfl rfl
  · rw [log, view_concat]
    exact congrArg (splice · _ bytes) h.view

theorem wp_ruleTwo (h : Shows bs disk0 v g none w) (hi : Holds w i lba) :
    Keeps bs disk0 v g w (ruleTwo F bs i) fun _ w' =>
      Holds w' i lba ∧
        ((w'.cache.slots i).dirty = true → (w'.cache.slots i).generation = g) := by
  unfold Keeps ruleTwo
  rw [wp_bind, wp_get]
  simp only
  split
  · next hold =>
    refine wp_mono (wp_writeRounds h (due_le _)) (fun _ w1 ⟨h1, hc, hall⟩ => ⟨h1, ?_, fun hd => ?_⟩) fun _ _ => id
    · rcases hc i with heq | heq
      · rw [Holds, heq]
        exact hi
      · rw [Holds, heq]
        exact hi
    · have hlt := hall i hd
      rcases hc i with heq | heq
      · rw [heq] at hlt
        omega
      · rw [heq] at hd
        cases hd
  · next hnew =>
    refine ⟨h, hi, fun hd => ?_⟩
    have hle := h.inv.gen hd
    simp only [hd, Bool.true_and, decide_eq_true_eq] at hnew
    rw [h.gen] at hnew hle
    omega

theorem wp_writeFrom {done : Nat} (hbs : 0 < bs)
    (h : Shows bs disk0 (splice v offset (bytes.take done)) g none w) (hle : done ≤ bytes.length)
    (hr : bytes.length - done ≤ rounds) :
    wp (writeFrom F bs offset bytes rounds done)
      (fun _ w' => Shows bs disk0 (splice v offset bytes) g none w')
      (fun _ w' => ∃ m ≤ bytes.length, Shows bs disk0 (splice v offset (bytes.take m)) g none w') w := by
  induction rounds generalizing w done with
  | zero =>
    rw [take_of_length_le (by omega)] at h
    exact h
  | succ rounds ih =>
    unfold writeFrom
    split
    · simp only
      split
      · exact ⟨done, hle, h⟩
      have hmod : (offset + done) % bs < bs := Nat.mod_lt _ hbs
      have hpos : (offset + done) / bs * bs + (offset + done) % bs = offset + done :=
        Nat.div_add_mod' _ _
      generalize hk : min (bs - (offset + done) % bs) (bytes.length - done) = k
      have hlen : ((bytes.drop done).take k).length = k := by simp; omega
      have hfail : ∀ (e : Error) (w' : World n), Shows bs disk0 (splice v offset (bytes.take done)) g none w' →
          ∃ m ≤ bytes.length, Shows bs disk0 (splice v offset (bytes.take m)) g none w' :=
        fun _ _ h' => ⟨done, hle, h'⟩
      -- what is left to do once the slot is there and may change
      have hput : ∀ {x w1} {i : Fin n}, Shows bs disk0 (splice v offset (bytes.take done)) g x w1 →
          (x = none ∨ x = some i) → Holds w1 i ((offset + done) / bs) → (x = some i → k = bs) →
          ((w1.cache.slots i).dirty = true → (w1.cache.slots i).generation = g) →
          wp (do
              putBytes bs i ((offset + done) / bs) ((offset + done) % bs) ((bytes.drop done).take k)
              writeFrom F bs offset bytes rounds (done + k))
            (fun _ w' => Shows bs disk0 (splice v offset bytes) g none w')
            (fun _ w' => ∃ m ≤ bytes.length, Shows bs disk0 (splice v offset (bytes.take m)) g none w')
            w1 := by
        intro x w1 i h1 hx hi hwhole hcur
        refine wp_seq (wp_mono (wp_putBytes h1 hx hi (by omega) (fun hxi => ?_) hcur)
          (fun _ _ => id) fun _ _ => False.elim) fun _ w2 h2 => ?_
        · have := hwhole hxi
          omega
        · rw [hpos] at h2
          refine ih ?_ (by omega) (by omega)
          rw [take_add, splice_append, length_take, min_eq_left hle]
          exact h2
      refine wp_seq (wp_mono (wp_writeSlot h) (fun _ _ => id) hfail) fun i w1 ⟨hi, h1⟩ => ?_
      rcases h1 with h1 | ⟨h1, hwhole, hclean⟩
      · refine wp_seq (wp_mono (wp_ruleTwo h1 hi) (fun _ _ => id) hfail) fun _ w2 ⟨h2, hi2, hcur⟩ => ?_
        exact hput h2 (.inl rfl) hi2 nofun hcur
      rw [wp_bind, ruleTwo, wp_bind, wp_get, if_neg (by simp [hclean])]
      refine hput h1 (.inr rfl) hi (fun _ => hwhole) fun hd => ?_
      cases hclean.symm.trans hd
    · rw [take_of_length_le (by omega)] at h
      exact h

theorem wp_writeAt (hbs : 0 < bs) (h : Shows bs disk0 v g none w) : wp (writeAt F bs offset bytes)
      (fun _ w' => Shows bs disk0 (splice v offset bytes) g none w')
      (fun _ w' => ∃ m ≤ bytes.length, Shows bs disk0 (splice v offset (bytes.take m)) g none w') w := by
  refine wp_writeFrom hbs ?_ (Nat.zero_le _) le_rfl
  rw [take_zero, splice_nil]
  exact h

/-! ## Writing through -/

/-- Once everything is written out, nothing is dirty. -/
theorem wp_writeOut_all (h : Shows bs disk0 v g none w) :
    Keeps bs disk0 v g w (writeOut F bs (2 ^ 64 - 1)) fun _ w' => ∀ i, (w'.cache.slots i).dirty = false := by
  refine wp_mono (wp_writeRounds h (due_le _)) (fun _ w' ⟨h', _, hall⟩ => ⟨h', fun i => ?_⟩) fun _ _ => id
  rw [Bool.eq_false_iff]
  intro hd
  have hlt := hall i hd
  have hle := h'.inv.gen hd
  have hbound := h'.inv.bound
  omega

theorem wp_deviceWrite_through (h : Shows bs disk0 v g none w) (hlen : bytes.length = bs)
    (hclean : ∀ i, (w.cache.slots i).dirty = false) :
    wp (deviceWrite F bs lba bytes (.through lba bytes))
      (fun _ w' => Shows bs disk0 (splice v (lba * bs) bytes) g (w'.cache.cached lba) w' ∧
        w'.cache = w.cache ∧ block bs w'.disk lba = bytes)
      (fun _ w' => Shows bs disk0 v g none w') w := by
  unfold deviceWrite
  rw [wp_bind, wp_get]
  split
  · exact h.idle (e := .refused lba) trivial rfl rfl rfl
  refine ⟨⟨?_, ?_, h.gen⟩, rfl, block_splice_self hlen⟩
  · refine h.inv.through hlen hclean (fun i hv hl => ?_) rfl rfl rfl
    show w.cache.cached lba = some i
    cases hc : w.cache.cached lba with
    | none => exact absurd hl (of_cached_none hc hv)
    | some j =>
      obtain ⟨hjv, hjl⟩ := of_cached hc
      rw [h.inv.once j i hjv hv (hjl.trans hl.symm)]
  · rw [log, view_concat]
    exact congrArg (splice · _ bytes) h.view

/-- The slot of a block that the device has just taken. -/
theorem wp_throughSlot (hn : 0 < n) (h : Shows bs disk0 v g (w.cache.cached lba) w)
    (hclean : ∀ i, (w.cache.slots i).dirty = false) :
    wp (throughSlot F bs lba)
      (fun i w' => ∃ x, Shows bs disk0 v g x w' ∧ (x = none ∨ x = some i) ∧ w'.disk = w.disk ∧
        (w'.cache.slots i).dirty = false ∧
        ∀ j, j ≠ i → (w'.cache.slots j).valid = true → (w'.cache.slots j).lba ≠ lba)
      (fun _ _ => False) w := by
  unfold throughSlot
  rw [wp_bind, wp_get]
  cases hc : w.cache.cached lba with
  | some i =>
    obtain ⟨hv, hl⟩ := of_cached hc
    refine ⟨some i, hc ▸ h, .inr rfl, rfl, hclean i, fun j hji hj hjl => hji ?_⟩
    exact h.inv.once j i hj hv (hjl.trans hl.symm)
  | none =>
    rw [hc] at h
    refine wp_seq (wp_victim_of_clean hn hclean) fun i w1 hw => ?_
    subst hw
    obtain ⟨h1, hf, hvac⟩ := h.vacate (hclean i)
    refine ⟨none, h1, .inl rfl, rfl, hvac.2, fun j _ hj => ?_⟩
    obtain ⟨hv, hl⟩ := hf j hj
    rw [hl]
    exact of_cached_none hc hv

/-- A block is written whole, or, when the call fails, not at all. -/
theorem wp_writeBlock (hn : 0 < n) (h : Shows bs disk0 v g none w) : wp (writeBlock F bs lba bytes)
      (fun _ w' => Shows bs disk0 (splice v (lba * bs) bytes) g none w')
      (fun _ w' => Shows bs disk0 v g none w') w := by
  unfold writeBlock
  split
  · exact h
  rename_i hlen
  have hlen : bytes.length = bs := Decidable.not_not.mp hlen
  refine wp_seq (wp_writeOut_all h) fun _ w1 ⟨h1, hclean⟩ => ?_
  refine wp_seq (wp_deviceWrite_through h1 hlen hclean) fun _ w2 ⟨h2, hcache, hdisk⟩ => ?_
  have hclean2 : ∀ i, (w2.cache.slots i).dirty = false := hcache ▸ hclean
  refine wp_seq (wp_mono (wp_throughSlot hn h2 hclean2) (fun _ _ => id) fun _ _ => False.elim)
    fun i w3 ⟨x, h3, hx, hdisk3, hd, hother⟩ => ?_
  refine ⟨h3.inv.install (s := ⟨lba, true, w3.cache.now, false, 0⟩) _ hd hx hother rfl (fun j hji => ?_)
    (.inr ⟨rfl, ?_⟩), h3.view, h3.gen⟩
  · exact block_splice_of_ne (fun heq => hji (Fin.ext heq)) ((zero_add _).trans hlen).le
  · rw [block_splice_self hlen, hdisk3, hdisk]

/-! ## Steps -/

theorem wp_barrier (h : Shows bs disk0 v g none w)
    (hgen : (∃ i, (w.cache.slots i).dirty = true ∧ (w.cache.slots i).generation = g) → g + 1 < 2 ^ 64) :
    wp (barrier : M n Unit)
      (fun _ w' => ∃ g', Shows bs disk0 v g' none w' ∧ w'.cache.slots = w.cache.slots ∧ w'.disk = w.disk)
      (fun _ _ => False) w := by
  unfold barrier
  rw [wp_bind, wp_get]
  have hview : ∀ c, view bs disk0 ((w.setCache c).log .barrier).trace = v := fun c =>
    view_concat.trans h.view
  simp only
  split
  · next hany =>
    obtain ⟨i, -, hi⟩ := any_eq_true.mp hany
    simp only [Bool.and_eq_true, decide_eq_true_eq] at hi
    have hlt : w.cache.generation + 1 < 2 ^ 64 := by
      rw [h.gen]
      exact hgen ⟨i, hi.1.2, hi.2.trans h.gen⟩
    refine ⟨_, ⟨h.inv.barrier ?_ ?_ (fun j hj => ?_) rfl rfl rfl rfl, hview _, rfl⟩, rfl, rfl⟩
    · rw [Nat.mod_eq_of_lt hlt]
      exact Nat.le_succ _
    · exact Nat.mod_lt _ (by decide)
    · rw [Nat.mod_eq_of_lt hlt]
      exact Nat.lt_succ_of_le (h.inv.gen hj)
  · next hnone =>
    refine ⟨g, ⟨h.inv.barrier le_rfl h.inv.bound (fun j hj => ?_) rfl rfl rfl rfl,
      view_concat.trans h.view, h.gen⟩, rfl, rfl⟩
    refine lt_of_le_of_ne (h.inv.gen hj) fun heq => hnone ?_
    change _ = w.cache.generation at heq
    exact any_eq_true.mpr ⟨j, mem_finRange j, by simp [h.inv.valid j hj, hj, heq]⟩

theorem Shows.invalidate (h : Shows bs disk0 v g none w) (hp : ∀ s, p s = true → s.dirty = false) :
    Shows bs disk0 v g none (w.setCache { w.cache with slots := fun i =>
      if (p (w.cache.slots i)) = true then { w.cache.slots i with valid := false } else w.cache.slots i }) := by
  refine ⟨h.inv.forget rfl rfl rfl fun i => ?_, h.view, h.gen⟩
  by_cases hpi : p (w.cache.slots i) = true
  · exact .inl (by simp [setCache, hpi, hp _ hpi])
  · exact .inr ⟨⟨_, if_neg hpi⟩, rfl⟩

/-- After a sync nothing is dirty and the device has the view. -/
theorem wp_sync (hbs : 0 < bs) (h : Shows bs disk0 v g none w) : wp (sync F bs)
      (fun _ w' => (∃ g', Shows bs disk0 v g' none w') ∧ (∀ i, (w'.cache.slots i).dirty = false) ∧ w'.disk = v)
      (fun _ w' => ∃ g', Shows bs disk0 v g' none w') w := by
  refine wp_seq (wp_mono (wp_writeOut_all h) (fun _ _ => id) fun _ _ h' => ⟨g, h'⟩) fun _ w1 ⟨h1, hclean⟩ => ?_
  refine wp_seq (wp_mono (wp_barrier h1 ?_) (fun _ _ => id) fun _ _ => False.elim)
    fun _ w2 ⟨g', h2, hslots, hdisk⟩ => ?_
  · rintro ⟨i, hi, -⟩
    rw [hclean] at hi
    cases hi
  · have h3 : Shows bs disk0 v g' none { w2 with calls := w2.calls + 1 } := ⟨{ h2.inv with }, h2.view, h2.gen⟩
    unfold deviceFlush
    rw [wp_bind, wp_get, wp_bind, wp_set]
    split
    · exact ⟨g', h3⟩
    refine ⟨⟨g', h3⟩, ?_, ?_⟩
    · rw [hslots]
      exact hclean
    · funext a
      have hblock := h2.inv.clean (a / bs) fun g ⟨i, hi, _⟩ => by
        rw [hslots, hclean] at hi
        cases hi
      rw [h2.view, block_eq_block_iff] at hblock
      have := hblock (a % bs) (Nat.mod_lt _ hbs)
      rwa [Nat.div_add_mod'] at this

end Kintane.Bcache
