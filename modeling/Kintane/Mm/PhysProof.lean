import Kintane.Mm.Phys
import Mathlib.Algebra.Order.Interval.Finset.Basic

/-!
# The frame allocator is two sets

`Inv` ties the counters to the bit arrays. Everything else follows from reading the
arrays as sets of indices: a search finds a member of `pool \ taken` or proves there
is none, and each operation inserts into or removes from one of the two sets.
-/

open Finset

namespace Kintane.FrameAllocator

open Bitmap Phys

variable {A : Arch} {a : FrameAllocator A} {i n s count idx span base : Nat} {F : Finset Nat}
  {map : List MemoryRegion} {e : AllocError} {r : MemoryRegion} {store : List UInt8}

/-- What every operation keeps. The search hint is not part of it. -/
structure Inv (a : FrameAllocator A) : Prop where
  pool_len : a.pool.length = Phys.storeBytes a.span
  taken_len : a.taken.length = Phys.storeBytes a.span
  /-- Bits past the end of the span are never set in `pool`. -/
  pool_lt : ∀ i ∈ bits a.pool, i < a.span
  /-- Every frame of the span has a 64-bit address. -/
  top : (a.base + a.span) * A.pageSize ≤ u64Max
  span_le : a.span ≤ A.usizeMax
  total : a.total = (bits a.pool).card
  free : a.free = (bits a.pool \ bits a.taken).card

def freeBits (a : FrameAllocator A) : Finset Nat := bits a.pool \ bits a.taken

theorem mem_freeBits : i ∈ a.freeBits ↔ a.isFree i = true := by
  unfold freeBits isFree
  rw [mem_sdiff, mem_bits, mem_bits]
  simp

theorem le_storeBytes (n : Nat) : n ≤ 8 * Phys.storeBytes n := by unfold Phys.storeBytes; omega

namespace Inv

theorem lt_bits (h : Inv a) (hi : i < a.span) : i < 8 * a.taken.length := by
  rw [h.taken_len]; exact hi.trans_le (le_storeBytes _)

theorem free_lt (h : Inv a) (hi : i ∈ a.freeBits) : i < a.span :=
  h.pool_lt i (mem_sdiff.mp hi).1

/-- A frame of the span always exists. -/
theorem frameAt (h : Inv a) (hi : i < a.span) :
    ∃ f, a.frameAt i = .ok f ∧ f.number = a.base + i := by
  have hpos := A.pageSize_pos
  have htop := h.top
  have hlt : (a.base + i) * A.pageSize < 2 ^ 64 := by
    have h1 : (a.base + i) * A.pageSize + A.pageSize ≤ (a.base + a.span) * A.pageSize := by
      rw [← Nat.succ_mul]; exact Nat.mul_le_mul_right _ (by omega)
    unfold u64Max at htop
    omega
  have hle : a.base + i ≤ u64Max := by
    have := Nat.le_mul_of_pos_right (a.base + i) hpos
    unfold u64Max
    omega
  obtain ⟨f, hf, hn⟩ := Frame.fromNumber_ok (A := A) hlt
  refine ⟨f, ?_, hn⟩
  unfold FrameAllocator.frameAt
  rw [checkedAdd_of_le hle]
  exact hf

theorem indexOf_eq_ok (h : Inv a) {f : Frame A} : a.indexOf f = .ok i ↔ i < a.span ∧ f.number = a.base + i := by
  have hle := h.span_le
  unfold FrameAllocator.indexOf narrow
  by_cases h1 : f.number < a.base
  · simp only [if_pos h1, reduceCtorEq, false_iff]
    omega
  · by_cases h2 : f.number - a.base ≤ A.usizeMax
    · by_cases h3 : a.span ≤ f.number - a.base
      · simp only [if_neg h1, if_pos h2, if_pos h3, reduceCtorEq, false_iff]
        omega
      · simp only [if_neg h1, if_pos h2, if_neg h3, Except.ok.injEq]
        omega
    · simp only [if_neg h1, if_neg h2, reduceCtorEq, false_iff]
      omega

end Inv

/-! ## Searching -/

theorem findIn_spec (h : Inv a) : ∀ {is : List Nat}, (∀ i ∈ is, i < Phys.storeBytes a.span) →
      (∃ idx ∈ a.freeBits, a.findIn is = some idx) ∨
        (a.findIn is = none ∧ ∀ idx ∈ a.freeBits, idx / 8 ∉ is) := by
  intro is
  induction is with
  | nil => exact fun _ => .inr ⟨rfl, by simp⟩
  | cons i is ih =>
    intro hlt
    have hi := hlt i List.mem_cons_self
    have hrest := ih (List.forall_mem_cons.mp hlt).2
    obtain ⟨p, hp⟩ : ∃ p, a.pool[i]? = some p :=
      ⟨_, List.getElem?_eq_getElem (by rw [h.pool_len]; exact hi)⟩
    obtain ⟨q, hq⟩ : ∃ q, a.taken[i]? = some q :=
      ⟨_, List.getElem?_eq_getElem (by rw [h.taken_len]; exact hi)⟩
    have hfree : ∀ k < 8, (8 * i + k ∈ a.freeBits ↔ (p &&& ~~~q).toBitVec.getLsbD k = true) := by
      intro k hk
      rw [mem_freeBits, isFree, bit_eq, bit_eq, show (8 * i + k) / 8 = i by omega,
        show (8 * i + k) % 8 = k by omega, hp, hq, UInt8.toBitVec_and, UInt8.toBitVec_not,
        BitVec.getLsbD_and, BitVec.getLsbD_not]
      simp [hk]
    unfold findIn
    simp only [hp, hq, Option.bind_some]
    by_cases h0 : p &&& ~~~q = 0
    · -- nothing free in this byte
      rw [if_pos h0]
      refine hrest.imp_right fun hr => ⟨hr.1, fun idx hidx hmem => ?_⟩
      rcases List.mem_cons.mp hmem with he | hmem
      · have hdiv : 8 * i + idx % 8 = idx := by omega
        have := (hfree (idx % 8) (Nat.mod_lt _ (by decide))).mp (hdiv.symm ▸ hidx)
        rw [h0] at this
        simp at this
      · exact hr.2 idx hidx hmem
    · obtain ⟨htz, hbit⟩ := trailingZeros_byte h0
      have hidx := (hfree _ htz).mpr hbit
      have hspan := h.free_lt hidx
      have hmax := h.span_le
      rw [if_neg h0, checkedMul_of_le (by omega), Option.bind_some, mul_comm i 8,
        checkedAdd_of_le (by omega), Option.bind_some, if_pos hspan]
      exact .inl ⟨_, hidx, rfl⟩

/-- The search finds a free frame unless there is none, whatever the hint. -/
theorem findFree_spec (h : Inv a) :
    (∃ idx ∈ a.freeBits, a.findFree = some idx) ∨ (a.findFree = none ∧ a.freeBits = ∅) := by
  unfold findFree
  by_cases h0 : a.pool.length = 0
  · refine .inr ⟨if_pos h0, eq_empty_of_forall_notMem fun idx hidx => ?_⟩
    have := lt_of_mem_bits (mem_sdiff.mp hidx).1
    omega
  simp only [if_neg h0]
  have hlen := h.pool_len
  have hin : ∀ i ∈ List.range' (min a.hint (a.pool.length - 1))
      (a.pool.length - min a.hint (a.pool.length - 1)) ++
      List.range (min a.hint (a.pool.length - 1)), i < Phys.storeBytes a.span := by
    intro i hi
    rw [List.mem_append, List.mem_range'_1, List.mem_range] at hi
    omega
  rcases findIn_spec h hin with hs | ⟨hn, hno⟩
  · exact .inl hs
  refine .inr ⟨hn, eq_empty_of_forall_notMem fun idx hidx => hno idx hidx ?_⟩
  have := lt_of_mem_bits (mem_sdiff.mp hidx).1
  rw [List.mem_append, List.mem_range'_1, List.mem_range]
  omega

/-- `n` consecutive members of `F` from `s` on. -/
def IsRun (F : Finset Nat) (n s : Nat) : Prop := ∀ k < n, s + k ∈ F

theorem IsRun.mem (h : IsRun F n s) (hle : s ≤ i) (hlt : i < s + n) : i ∈ F := by
  have := h (i - s) (by omega)
  rwa [Nat.add_sub_cancel' hle] at this

/-- Where the scan of `alloc_contiguous` stands: `run` free frames end just before `idx`, the
one before them is not free, and no whole run lies before `idx`. -/
structure Scanned (F : Finset Nat) (count idx run : Nat) : Prop where
  run_lt : run < count
  run_le : run ≤ idx
  free : ∀ j, idx - run ≤ j → j < idx → j ∈ F
  stop : run = idx ∨ idx - run - 1 ∉ F
  none : ∀ s, s + count ≤ idx → ¬ IsRun F count s

theorem Scanned.start (h : 0 < count) : Scanned F count 0 0 where
  run_lt := h
  run_le := le_rfl
  free := by omega
  stop := .inl rfl
  none := by intro s hs; omega

theorem Scanned.skip {run : Nat} (h : Scanned F count idx run) (hidx : idx ∉ F) : Scanned F count (idx + 1) 0 where
  run_lt := (Nat.zero_le _).trans_lt h.run_lt
  run_le := Nat.zero_le _
  free := by omega
  stop := .inr (by simpa using hidx)
  none := by
    intro s hs hrun
    have hpos := h.run_lt
    by_cases he : s + count ≤ idx
    · exact h.none s he hrun
    · exact hidx (hrun.mem (by omega) (by omega))

theorem Scanned.grow {run : Nat} (h : Scanned F count idx run)
    (hidx : idx ∈ F) (hlt : run + 1 < count) : Scanned F count (idx + 1) (run + 1) where
  run_lt := hlt
  run_le := Nat.succ_le_succ h.run_le
  free := by
    intro j h1 h2
    rcases Nat.lt_or_eq_of_le (Nat.le_of_lt_succ h2) with hj | rfl
    · exact h.free j (by omega) hj
    · exact hidx
  stop := h.stop.imp (congrArg (· + 1)) fun hs => by
    rwa [show idx + 1 - (run + 1) - 1 = idx - run - 1 by omega]
  none := by
    intro s hs hrun
    by_cases he : s + count ≤ idx
    · exact h.none s he hrun
    -- such a run would reach back past the start of the current one
    rcases h.stop with h0 | hstop
    · omega
    · exact hstop (hrun.mem (by omega) (by omega))

theorem contiguousLoop_spec (hc : count ≤ A.usizeMax) : ∀ {left idx run : Nat}, Scanned a.freeBits count idx run →
      (∃ s, a.contiguousLoop count left idx run = some (s + (count - 1)) ∧
          s + count ≤ idx + left ∧ IsRun a.freeBits count s ∧
          ∀ s' < s, ¬ IsRun a.freeBits count s') ∨
        (a.contiguousLoop count left idx run = none ∧
          ∀ s, s + count ≤ idx + left → ¬ IsRun a.freeBits count s) := by
  intro left
  induction left with
  | zero => exact fun {idx run} hs => .inr ⟨rfl, hs.none⟩
  | succ left ih =>
    intro idx run hs
    have hpos := hs.run_lt
    have hle := hs.run_le
    unfold contiguousLoop
    by_cases hidx : idx ∈ a.freeBits
    · rw [if_pos (mem_freeBits.mp hidx)]
      simp only [satAdd_of_le (show run + 1 ≤ A.usizeMax by omega)]
      by_cases hdone : run + 1 = count
      · rw [if_pos hdone]
        refine .inl ⟨idx - run, by congr 1; omega, by omega, fun k hk => ?_, fun s' hs' => ?_⟩
        · rcases lt_or_ge (idx - run + k) idx with hlt | hge
          · exact hs.free _ (by omega) hlt
          · rwa [show idx - run + k = idx by omega]
        · exact hs.none s' (by omega)
      · rw [if_neg hdone, show idx + (left + 1) = idx + 1 + left by omega]
        exact ih (hs.grow hidx (by omega))
    · rw [if_neg (fun hf => hidx (mem_freeBits.mpr hf)),
        show idx + (left + 1) = idx + 1 + left by omega]
      exact ih (hs.skip hidx)

/-! ## Indices and frame numbers -/

/-- The numbers of the frames in the pool. -/
def poolFrames (a : FrameAllocator A) : Finset Nat := (bits a.pool).image (a.base + ·)

def takenFrames (a : FrameAllocator A) : Finset Nat := (bits a.taken).image (a.base + ·)

def freeFrames (a : FrameAllocator A) : Finset Nat := a.poolFrames \ a.takenFrames

theorem shift_injective (n : Nat) : Function.Injective (n + ·) := fun _ _ => Nat.add_left_cancel

theorem freeFrames_eq (a : FrameAllocator A) : a.freeFrames = a.freeBits.image (a.base + ·) := by
  unfold freeFrames poolFrames takenFrames freeBits
  rw [image_sdiff _ _ (shift_injective _)]

theorem shift_mem : base + i ∈ F.image (base + ·) ↔ i ∈ F :=
  (shift_injective base).mem_finset_image

theorem image_shift_Ico (base s n : Nat) :
    (Ico s (s + n)).image (base + ·) = Ico (base + s) (base + s + n) := by
  rw [image_add_left_Ico, add_assoc]

theorem isRun_shift : IsRun (F.image (base + ·)) n (base + s) ↔ IsRun F n s := by
  unfold IsRun
  simp only [add_assoc, shift_mem]

/-- The indices of the frames that are handed out. -/
def lentBits (a : FrameAllocator A) : Finset Nat := bits a.pool ∩ bits a.taken

theorem card_shift (base : Nat) (F : Finset Nat) : (F.image (base + ·)).card = F.card :=
  card_image_of_injective _ (shift_injective base)

/-- A run of frame numbers is a run of indices, shifted. -/
theorem IsRun.of_shift (hn : 0 < n) (h : IsRun (F.image (base + ·)) n s) : base ≤ s ∧ IsRun F n (s - base) := by
  obtain ⟨i, -, hi⟩ := mem_image.mp (h 0 hn)
  have hle : base ≤ s := by omega
  rw [← Nat.add_sub_cancel' hle] at h
  exact ⟨hle, isRun_shift.mp h⟩

theorem lentFrames_eq (a : FrameAllocator A) : a.poolFrames ∩ a.takenFrames = a.lentBits.image (a.base + ·) :=
  (image_inter _ _ (shift_injective a.base)).symm

/-! ## The operations on the two sets -/

/-- Handing out free frames. -/
theorem Inv.take (h : Inv a) (hfree : IsRun a.freeBits n s)
    {taken : List UInt8} (hlen : taken.length = a.taken.length)
    (hbits : bits taken = bits a.taken ∪ Ico s (s + n)) (hint : Nat) :
    Inv ({ a with taken := taken, free := a.free - n, hint := hint } : FrameAllocator A) := by
  refine { h with taken_len := hlen.trans h.taken_len, free := ?_ }
  have hsub : Ico s (s + n) ⊆ bits a.pool \ bits a.taken := by
    intro i hi
    rw [mem_Ico] at hi
    exact hfree.mem hi.1 hi.2
  have hset : bits a.pool \ bits taken = (bits a.pool \ bits a.taken) \ Ico s (s + n) := by
    rw [hbits, Finset.sdiff_union_distrib, Finset.sdiff_sdiff_left', Finset.inter_comm]
  simp only
  rw [hset, card_sdiff_of_subset hsub, Nat.card_Ico, h.free]
  omega

/-- `b` is `a` after its taken frames changed to those of `taken`. -/
structure TakenTo (a b : FrameAllocator A) (taken : Finset Nat) : Prop where
  inv : Inv b
  pool : b.pool = a.pool
  base : b.base = a.base
  span : b.span = a.span
  taken : bits b.taken = taken

/-- The same of frame numbers: `b` is in order, with the pool of `a` and the frames `taken` taken. -/
structure LentTo (a b : FrameAllocator A) (taken : Finset Nat) : Prop where
  inv : Inv b
  pool : b.poolFrames = a.poolFrames
  taken : b.takenFrames = taken

theorem TakenTo.lent {b : FrameAllocator A} {T T' : Finset Nat} (h : TakenTo a b T) (hT : T.image (a.base + ·) = T') :
    LentTo a b T' where
  inv := h.inv
  pool := by rw [poolFrames, poolFrames, h.pool, h.base]
  taken := by rw [takenFrames, h.base, h.taken, hT]

theorem Inv.allocFrame (h : Inv a) :
    (∃ f b, a.allocFrame = (b, .ok f) ∧ f.number ∈ a.freeFrames ∧ LentTo a b (insert f.number a.takenFrames)) ∨
      (a.allocFrame = (a, .error .exhausted) ∧ a.freeFrames = ∅) := by
  rw [freeFrames_eq]
  unfold FrameAllocator.allocFrame
  rcases findFree_spec h with ⟨idx, hidx, heq⟩ | ⟨heq, hno⟩
  · have hlt := h.free_lt hidx
    have hset : bits (setBit a.taken idx) = bits a.taken ∪ Ico idx (idx + 1) := by
      rw [bits_setBit (h.lt_bits hlt), Nat.Ico_succ_singleton, union_comm]
      rfl
    have hinv := h.take (n := 1) (fun k hk => by rwa [show idx + k = idx by omega])
      (length_setBit ..) hset (idx / 8)
    obtain ⟨f, hf, hnum⟩ := hinv.frameAt (i := idx) hlt
    have hb : TakenTo a _ _ := ⟨hinv, rfl, rfl, rfl, bits_setBit (h.lt_bits hlt)⟩
    simp only [heq]
    exact .inl ⟨f, _, by rw [hf], hnum ▸ shift_mem.mpr hidx, hb.lent (by rw [image_insert, hnum]; rfl)⟩
  · simp only [heq]
    exact .inr ⟨trivial, by rw [hno, image_empty]⟩

theorem Inv.allocContiguous (h : Inv a) (count : Nat) (hc : count ≤ A.usizeMax) :
    (∃ r b, a.allocContiguous count hc = (b, .ok r) ∧ r.count = count ∧ IsRun a.freeFrames count r.start.number ∧
        (∀ s < r.start.number, ¬ IsRun a.freeFrames count s) ∧
        LentTo a b (a.takenFrames ∪ Ico r.start.number (r.start.number + count))) ∨
      (a.allocContiguous count hc = (a, .error .emptyRequest) ∧ count = 0) ∨
      (a.allocContiguous count hc = (a, .error .exhausted) ∧ a.freeFrames.card < count) ∨
      (a.allocContiguous count hc = (a, .error .fragmented) ∧ 0 < count ∧
        count ≤ a.freeFrames.card ∧ ∀ s, ¬ IsRun a.freeFrames count s) := by
  rw [freeFrames_eq, card_shift]
  unfold FrameAllocator.allocContiguous
  by_cases h0 : count = 0
  · exact .inr (.inl ⟨if_pos h0, h0⟩)
  rw [if_neg h0]
  have hpos : 0 < count := pos_of_ne_zero h0
  have hcard : a.free = a.freeBits.card := h.free
  by_cases hlt : a.free < count
  · exact .inr (.inr (.inl ⟨if_pos hlt, by omega⟩))
  rw [if_neg hlt]
  rcases contiguousLoop_spec hc (Scanned.start (F := a.freeBits) hpos) with
    ⟨s, heq, hle, hrun, hlow⟩ | ⟨heq, hno⟩
  · rw [zero_add] at hle
    obtain ⟨hlen, hmem⟩ := writes_setBit.range (show s + count ≤ 8 * a.taken.length by
      rw [h.taken_len]; exact hle.trans (le_storeBytes _))
    have hbits : bits ((List.range' s count).foldl setBit a.taken) = bits a.taken ∪ Ico s (s + count) := by
      ext i
      rw [hmem, mem_union, mem_Ico]
      tauto
    have hinv := h.take hrun hlen hbits ((s + (count - 1)) / 8)
    obtain ⟨f, hf, hnum⟩ := hinv.frameAt (i := s) (by simp only; omega)
    have hfit : f.number + count ≤ u64Max := by
      have htop := h.top
      have := Nat.le_mul_of_pos_right (a.base + a.span) A.pageSize_pos
      simp only at hnum
      omega
    simp only [heq, show s + (count - 1) - (count - 1) = s by omega,
      show s + (count - 1) + 1 - s = count by omega, hf]
    have hb : TakenTo a _ _ := ⟨hinv, rfl, rfl, rfl, hbits⟩
    refine .inl ⟨_, _, by rw [FrameRange.new_ok _ hpos hfit], rfl, hnum ▸ isRun_shift.mpr hrun, fun s' hs' hrun' => ?_,
      hb.lent (by rw [image_union, image_shift_Ico, hnum]; rfl)⟩
    obtain ⟨hle, hrun'⟩ := hrun'.of_shift hpos
    exact hlow (s' - a.base) (by simp only at hs' hnum; omega) hrun'
  · rw [heq]
    refine .inr (.inr (.inr ⟨rfl, hpos, by omega, fun s hrun => ?_⟩))
    -- every run of free frames lies inside the span
    obtain ⟨-, hrun⟩ := hrun.of_shift hpos
    refine hno _ ?_ hrun
    have := h.free_lt (hrun (count - 1) (by omega))
    omega

theorem checkFreeable_cases (a : FrameAllocator A) (i : Nat) :
    (a.checkFreeable i = .ok () ∧ i ∈ a.lentBits) ∨ ((∃ e, a.checkFreeable i = .error e) ∧ i ∉ a.lentBits) := by
  unfold checkFreeable lentBits
  simp only [mem_inter, mem_bits]
  by_cases h1 : bit a.pool i
  · by_cases h2 : bit a.taken i
    · exact .inl ⟨by simp [h1, h2], h1, h2⟩
    · exact .inr ⟨⟨.notAllocated, by simp [h1, h2]⟩, fun h => h2 h.2⟩
  · exact .inr ⟨⟨.notInPool, by simp [h1]⟩, fun h => h1 h.1⟩

theorem Inv.lent_lt (h : Inv a) (hi : i ∈ a.lentBits) : i < a.span := h.pool_lt i (mem_inter.mp hi).1

theorem erase_sdiff_Ico (F : Finset Nat) (s n : Nat) :
    F.erase s \ Ico (s + 1) (s + 1 + n) = F \ Ico s (s + (n + 1)) := by
  ext i
  by_cases hi : i ∈ F
  · simp only [mem_sdiff, mem_erase, mem_Ico, hi, and_true, true_and]
    omega
  · simp [hi]

theorem Inv.card_le_usizeMax (h : Inv a) : (bits a.pool).card ≤ A.usizeMax := by
  have hsub : bits a.pool ⊆ Finset.range a.span := fun i hi => mem_range.mpr (h.pool_lt i hi)
  have := card_le_card hsub
  rw [card_range] at this
  exact this.trans h.span_le

theorem Inv.release (h : Inv a) (hi : i ∈ a.lentBits) : TakenTo a (a.release i) ((bits a.taken).erase i) := by
  obtain ⟨hp, ht⟩ := mem_inter.mp hi
  have hnot : i ∉ bits a.pool \ bits a.taken := fun hm => (mem_sdiff.mp hm).2 ht
  have hset : bits a.pool \ (bits a.taken).erase i = insert i (bits a.pool \ bits a.taken) := by
    rw [sdiff_erase hp]
  have hcard := (card_le_card (insert_subset hp (sdiff_subset (t := bits a.taken)))).trans h.card_le_usizeMax
  refine ⟨{ h with taken_len := (length_clearBit ..).trans h.taken_len, free := ?_ }, rfl, rfl, rfl, bits_clearBit⟩
  simp only [FrameAllocator.release]
  rw [bits_clearBit, hset, h.free]
  rw [card_insert_of_notMem hnot] at hcard ⊢
  exact satAdd_of_le hcard

theorem Inv.freeFrame (h : Inv a) (f : Frame A) :
    (∃ b, a.freeFrame f = (b, .ok ()) ∧ f.number ∈ a.poolFrames ∩ a.takenFrames ∧
        LentTo a b (a.takenFrames.erase f.number)) ∨
      ((∃ e, a.freeFrame f = (a, .error e)) ∧ f.number ∉ a.poolFrames ∩ a.takenFrames) := by
  rw [lentFrames_eq]
  unfold FrameAllocator.freeFrame
  cases hidx : a.indexOf f with
  | error e =>
    refine .inr ⟨⟨e, rfl⟩, fun hm => ?_⟩
    obtain ⟨i, hi, hn⟩ := mem_image.mp hm
    rw [h.indexOf_eq_ok.mpr ⟨h.lent_lt hi, hn.symm⟩] at hidx
    cases hidx
  | ok i =>
    obtain ⟨-, hn⟩ := h.indexOf_eq_ok.mp hidx
    rw [hn, shift_mem]
    rcases checkFreeable_cases a i with ⟨hck, hi⟩ | ⟨⟨e, hck⟩, hno⟩
    · exact .inl ⟨_, by simp only [hck], hi, (h.release hi).lent (image_erase (shift_injective _) _ _)⟩
    · exact .inr ⟨⟨e, by simp only [hck]⟩, hno⟩

/-- The check before a run is freed passes exactly when every frame of it is allocated. -/
theorem checkRun_cases (a : FrameAllocator A) : ∀ {count idx : Nat},
      (a.checkRun count idx = .ok () ∧ Ico idx (idx + count) ⊆ a.lentBits) ∨
        ((∃ e, a.checkRun count idx = .error e) ∧ ¬Ico idx (idx + count) ⊆ a.lentBits) := by
  intro count
  induction count with
  | zero => exact fun {idx} => .inl ⟨rfl, by simp⟩
  | succ count ih =>
    intro idx
    have hsplit : Ico idx (idx + (count + 1)) = insert idx (Ico (idx + 1) (idx + 1 + count)) := by
      ext i
      rw [mem_insert, mem_Ico, mem_Ico]
      omega
    rw [hsplit, insert_subset_iff]
    unfold checkRun
    rcases checkFreeable_cases a idx with ⟨hck, hi⟩ | ⟨⟨e, hck⟩, hno⟩
    · simpa only [hck, hi, true_and] using @ih (idx + 1)
    · exact .inr ⟨⟨e, by simp only [hck]⟩, fun hsub => hno hsub.1⟩

theorem Inv.releaseRun :
    ∀ {n s : Nat} {a : FrameAllocator A}, Inv a → Ico s (s + n) ⊆ a.lentBits →
      TakenTo a ((List.range' s n).foldl FrameAllocator.release a) (bits a.taken \ Ico s (s + n)) := by
  intro n
  induction n with
  | zero => exact fun {s a} h _ => ⟨h, rfl, rfl, rfl, by simp⟩
  | succ n ih =>
    intro s a h hall
    rw [List.range'_succ, List.foldl_cons]
    have h1 := h.release (hall (mem_Ico.mpr ⟨le_refl s, by omega⟩))
    have h2 := ih (s := s + 1) h1.inv (by
      intro i hi
      rw [mem_Ico] at hi
      obtain ⟨hip, hit⟩ := mem_inter.mp (hall (mem_Ico.mpr (show s ≤ i ∧ i < _ by omega)))
      rw [lentBits, h1.pool, h1.taken]
      exact mem_inter.mpr ⟨hip, mem_erase.mpr ⟨by omega, hit⟩⟩)
    refine ⟨h2.inv, h2.pool.trans h1.pool, h2.base.trans h1.base, h2.span.trans h1.span, ?_⟩
    rw [h2.taken, h1.taken]
    exact erase_sdiff_Ico ..

theorem Inv.freeContiguous (h : Inv a) (r : FrameRange A) :
    let F := Ico r.start.number (r.start.number + r.count)
    (∃ b, a.freeContiguous r = (b, .ok ()) ∧ F ⊆ a.poolFrames ∩ a.takenFrames ∧ LentTo a b (a.takenFrames \ F)) ∨
      ((∃ e, a.freeContiguous r = (a, .error e)) ∧ ¬F ⊆ a.poolFrames ∩ a.takenFrames) := by
  have hpos := r.count_pos
  rw [lentFrames_eq]
  unfold FrameAllocator.freeContiguous
  cases hidx : a.indexOf r.start with
  | error e =>
    refine .inr ⟨⟨e, rfl⟩, fun hsub => ?_⟩
    -- the first frame is handed out, so it has an index
    obtain ⟨s, hs, hn⟩ := mem_image.mp (hsub (mem_Ico.mpr ⟨le_refl r.start.number, by omega⟩))
    rw [h.indexOf_eq_ok.mpr ⟨h.lent_lt hs, hn.symm⟩] at hidx
    cases hidx
  | ok s =>
    obtain ⟨-, hn⟩ := h.indexOf_eq_ok.mp hidx
    rw [hn, ← image_shift_Ico]
    simp only [image_subset_image_iff (shift_injective a.base)]
    -- a run that leaves the span holds a frame that is not in the pool
    have hout (hs : a.span < s + r.count) : ¬Ico s (s + r.count) ⊆ a.lentBits := fun hsub => by
      have := h.lent_lt (hsub (mem_Ico.mpr (show s ≤ s + r.count - 1 ∧ _ by omega)))
      omega
    cases hadd : checkedAdd A.usizeMax s r.count with
    | none =>
      refine .inr ⟨⟨_, rfl⟩, hout ?_⟩
      have := h.span_le
      unfold checkedAdd at hadd
      split at hadd
      · cases hadd
      · omega
    | some end_ =>
      obtain ⟨-, rfl⟩ := checkedAdd_eq_some.mp hadd
      simp only [Nat.add_sub_cancel_left]
      by_cases hspan : a.span < s + r.count
      · rw [if_pos hspan]
        exact .inr ⟨⟨_, rfl⟩, hout hspan⟩
      rw [if_neg hspan]
      rcases @checkRun_cases A a r.count s with ⟨heq, hall⟩ | ⟨⟨e, heq⟩, hno⟩
      · simp only [heq]
        exact .inl ⟨_, rfl, hall, (h.releaseRun hall).lent (image_sdiff _ _ (shift_injective a.base))⟩
      · simp only [heq]
        exact .inr ⟨⟨_, rfl⟩, hno⟩

/-! ## Reserving -/

/-- `[start, start + len)` has a byte in frame `n`. -/
def Touches (A : Arch) (start len n : Nat) : Prop :=
  0 < len ∧ n * A.pageSize < start + len ∧ start < (n + 1) * A.pageSize

theorem outerFramesRaw_spec (A : Arch) (start len : Nat) : match outerFramesRaw A start len with
    | .ok (some (lo, hi)) => ∀ n, Touches A start len n ↔ lo ≤ n ∧ n < hi
    | .ok none => ∀ n, ¬ Touches A start len n
    | .error _ => True := by
  have hps := A.pageSize_pos
  unfold outerFramesRaw
  by_cases h0 : len = 0
  · rw [if_pos h0]
    exact fun n ht => absurd ht.1 (by omega)
  rw [if_neg h0]
  cases hadd : checkedAdd u64Max start len with
  | none => trivial
  | some end_ =>
    obtain ⟨-, rfl⟩ := checkedAdd_eq_some.mp hadd
    simp only
    unfold alignUp
    cases hup : checkedAdd u64Max (start + len) (A.pageSize - 1) with
    | none => trivial
    | some up =>
      obtain ⟨-, rfl⟩ := checkedAdd_eq_some.mp hup
      simp only [indexOfAddr, Nat.mul_div_cancel _ hps]
      have hiff : ∀ n, Touches A start len n ↔ start / A.pageSize ≤ n ∧
          n < (start + len + (A.pageSize - 1)) / A.pageSize := by
        intro n
        rw [← Nat.lt_succ_iff, Nat.div_lt_iff_lt_mul hps, Nat.lt_iff_add_one_le (m := n),
          Nat.le_div_iff_mul_le hps, add_mul]
        constructor
        · rintro ⟨-, h1, h2⟩
          exact ⟨h2, by omega⟩
        · rintro ⟨h1, h2⟩
          exact ⟨by omega, by omega, h1⟩
      by_cases hlt : start / A.pageSize < (start + len + (A.pageSize - 1)) / A.pageSize
      · rw [if_pos hlt]
        exact hiff
      · rw [if_neg hlt]
        intro n ht
        have := (hiff n).mp ht
        omega

/-- Rounded up to whole frames, `[start, start + len)` runs past the top of the address space. -/
def PastTop (A : Arch) (start len : Nat) : Prop := 0 < len ∧ u64Max < start + len + (A.pageSize - 1)

theorem outerFramesRaw_error {start len : Nat} {e : AllocError} :
    outerFramesRaw A start len = .error e ↔ e = .overflow ∧ PastTop A start len := by
  unfold outerFramesRaw alignUp checkedAdd PastTop
  by_cases h0 : len = 0
  · simp [h0]
  by_cases hup : start + len + (A.pageSize - 1) ≤ u64Max
  · simp [h0, hup, (Nat.le_add_right ..).trans hup, not_lt.mpr hup]
  · by_cases hadd : start + len ≤ u64Max <;>
      simp [h0, hup, hadd, pos_of_ne_zero h0, not_le.mp hup, eq_comm]

/-- `clamp` never fails and selects the indices whose frames lie in `[lo, hi)`. -/
theorem clamp_spec (lo hi base : Nat) (hspan : span ≤ A.usizeMax) :
    ∃ first last, clamp A lo hi base (base + span) = .ok (first, last) ∧ first ≤ last ∧
      last ≤ span ∧ ∀ i < span, first ≤ i ∧ i < last ↔ lo ≤ base + i ∧ base + i < hi := by
  unfold clamp narrow
  by_cases hempty : min hi (base + span) ≤ max lo base
  · simp only [if_pos hempty]
    exact ⟨0, 0, rfl, le_rfl, Nat.zero_le _, fun i hi => by omega⟩
  · simp only [if_neg hempty, if_pos (show max lo base - base ≤ A.usizeMax by omega),
      if_pos (show min hi (base + span) - base ≤ A.usizeMax by omega)]
    exact ⟨_, _, rfl, by omega, by omega, fun i hi => by omega⟩

/-- `b` is `a` after its pool changed to `pool`. -/
structure PoolTo (a b : FrameAllocator A) (pool : Finset Nat) : Prop where
  inv : Inv b
  taken : b.taken = a.taken
  base : b.base = a.base
  span : b.span = a.span
  pool : bits b.pool = pool

/-- One frame of a reservation. -/
theorem Inv.reserveOne (h : Inv a) {removed : Nat} (idx : Nat)
    (hmax : removed + (bits a.pool).card ≤ A.usizeMax) :
    ∃ b n, FrameAllocator.reserveOne (a, removed) idx = (b, n) ∧ PoolTo a b ((bits a.pool).erase idx) ∧
      n + (bits b.pool).card = removed + (bits a.pool).card := by
  unfold FrameAllocator.reserveOne
  by_cases hbit : bit a.pool idx
  · have hmem : idx ∈ bits a.pool := mem_bits.mpr hbit
    have hcard := card_erase_of_mem hmem
    have hpos := card_pos.mpr ⟨idx, hmem⟩
    simp only [hbit, not_true_eq_false, if_false]
    refine ⟨_, _, rfl, ⟨{ h with
      pool_len := (length_clearBit ..).trans h.pool_len, pool_lt := ?_, total := ?_, free := ?_ }, rfl, rfl, rfl,
      bits_clearBit⟩, ?_⟩
    · intro i hi
      rw [bits_clearBit] at hi
      exact h.pool_lt i (mem_of_mem_erase hi)
    · rw [bits_clearBit, hcard, h.total]
    · -- only a frame that was free leaves the free count
      rw [bits_clearBit, erase_sdiff_comm]
      by_cases ht : bit a.taken idx
      · have hnot : idx ∉ bits a.pool \ bits a.taken := fun hm => (mem_sdiff.mp hm).2 (mem_bits.mpr ht)
        rw [if_neg (by simpa using ht), erase_eq_of_notMem hnot, h.free]
      · have hin : idx ∈ bits a.pool \ bits a.taken := mem_sdiff.mpr ⟨hmem, fun hm => ht (mem_bits.mp hm)⟩
        rw [if_pos ht, card_erase_of_mem hin, h.free]
    · rw [bits_clearBit, hcard, satAdd_of_le (by omega)]
      omega
  · have hnot : idx ∉ bits a.pool := fun hm => hbit (mem_bits.mp hm)
    simp only [hbit]
    exact ⟨a, removed, rfl, ⟨h, rfl, rfl, rfl, (erase_eq_of_notMem hnot).symm⟩, rfl⟩

theorem Inv.reserveRun :
    ∀ {n first removed : Nat} {a : FrameAllocator A}, Inv a → removed + (bits a.pool).card ≤ A.usizeMax →
      ∃ b k, (List.range' first n).foldl FrameAllocator.reserveOne (a, removed) = (b, k) ∧
        PoolTo a b (bits a.pool \ Ico first (first + n)) ∧
        k + (bits b.pool).card = removed + (bits a.pool).card := by
  intro n
  induction n with
  | zero => exact fun {first removed a} h _ => ⟨a, removed, rfl, ⟨h, rfl, rfl, rfl, by simp⟩, rfl⟩
  | succ n ih =>
    intro first removed a h hmax
    obtain ⟨b, k, heq, hb, hcount⟩ := h.reserveOne first hmax
    obtain ⟨c, j, heq', hc, hcount'⟩ := @ih (first + 1) k b hb.inv (by omega)
    rw [List.range'_succ, List.foldl_cons, heq]
    refine ⟨c, j, heq', ⟨hc.inv, hc.taken.trans hb.taken, hc.base.trans hb.base, hc.span.trans hb.span, ?_⟩, by omega⟩
    rw [hc.pool, hb.pool]
    exact erase_sdiff_Ico ..

theorem Inv.reserve (h : Inv a) (start len : Nat) :
    (¬PastTop A start len ∧ ∃ b n pool, a.reserve start len = (b, .ok n) ∧ PoolTo a b pool ∧
        (∀ i, i ∈ pool ↔ i ∈ bits a.pool ∧ ¬ Touches A start len (a.base + i)) ∧
        n + (bits b.pool).card = (bits a.pool).card) ∨
      PastTop A start len ∧ a.reserve start len = (a, .error .overflow) := by
  have hspec := outerFramesRaw_spec A start len
  unfold FrameAllocator.reserve
  cases hout : outerFramesRaw A start len with
  | error e =>
    obtain ⟨rfl, hpast⟩ := outerFramesRaw_error.mp hout
    exact .inr ⟨hpast, rfl⟩
  | ok o =>
    rw [hout] at hspec
    have hpast : ¬PastTop A start len := fun hp => by
      cases hout.symm.trans (outerFramesRaw_error.mpr ⟨rfl, hp⟩)
    refine .inl ⟨hpast, ?_⟩
    cases o with
    | none =>
      exact ⟨a, 0, _, rfl, ⟨h, rfl, rfl, rfl, rfl⟩, fun i => ⟨fun hi => ⟨hi, hspec _⟩, And.left⟩, zero_add _⟩
    | some p =>
      obtain ⟨lo, hi⟩ := p
      have hle : a.base + a.span ≤ u64Max :=
        (Nat.le_mul_of_pos_right _ A.pageSize_pos).trans h.top
      obtain ⟨first, last, hclamp, hfl, hls, hsel⟩ := clamp_spec lo hi a.base h.span_le
      obtain ⟨b, k, heq, hb, hcount⟩ := @Inv.reserveRun A (last - first) first 0 a h
        (by rw [zero_add]; exact h.card_le_usizeMax)
      simp only [checkedAdd_of_le hle, hclamp, heq]
      refine ⟨b, k, _, rfl, hb, fun i => ?_, by omega⟩
      rw [mem_sdiff, mem_Ico, hspec (a.base + i), Nat.add_sub_cancel' hfl]
      refine and_congr_right fun hi => ?_
      rw [hsel i (h.pool_lt i hi)]

/-! ## Construction -/

theorem innerFrames_top {region : MemoryRegion} {first last : Nat}
    (h : innerFrames A region = .ok (some (first, last))) : last * A.pageSize ≤ u64Max := by
  unfold innerFrames at h
  split at h
  · cases h
  rename_i end_ hadd
  obtain ⟨hle, rfl⟩ := checkedAdd_eq_some.mp hadd
  split at h
  · cases h
  simp only at h
  split at h <;> cases h
  exact (Nat.div_mul_le_self _ _).trans hle

/-- `f` picks out frame `n`. -/
def Selects (f : Except AllocError (Option (Nat × Nat))) (n : Nat) : Prop :=
  ∃ lo hi, f = .ok (some (lo, hi)) ∧ lo ≤ n ∧ n < hi

/-- What the loop finds reaches around the frames of every usable region. -/
structure Covers (A : Arch) (map : List MemoryRegion) (lo hi : Nat) : Prop where
  top : hi * A.pageSize ≤ u64Max
  reads : ∀ r ∈ map, r.kind = usable → ∃ o, innerFrames A r = .ok o
  frames : ∀ r ∈ map, r.kind = usable → ∀ n, Selects (innerFrames A r) n → lo ≤ n ∧ n < hi

theorem Covers.cons {lo hi : Nat} (h : Covers A map lo hi)
    (hr : r.kind = usable → (∃ o, innerFrames A r = .ok o) ∧ ∀ n, Selects (innerFrames A r) n → lo ≤ n ∧ n < hi) :
    Covers A (r :: map) lo hi :=
  ⟨h.top, List.forall_mem_cons.mpr ⟨fun hu => (hr hu).1, h.reads⟩,
    List.forall_mem_cons.mpr ⟨fun hu => (hr hu).2, h.frames⟩⟩

theorem spanLoop_covers :
    ∀ {lo hi : Nat} {found : Bool} {lo' hi' : Nat} {found' : Bool}, hi * A.pageSize ≤ u64Max →
      spanLoop A map lo hi found = .ok (lo', hi', found') → lo' ≤ lo ∧ hi ≤ hi' ∧ Covers A map lo' hi' := by
  induction map with
  | nil =>
    intro lo hi found lo' hi' found' htop h
    cases h
    exact ⟨le_rfl, le_rfl, htop, by simp, by simp⟩
  | cons region map ih =>
    intro lo hi found lo' hi' found' htop h
    unfold spanLoop at h
    by_cases hk : region.kind = usable
    · rw [if_pos hk] at h
      cases hin : innerFrames A region with
      | error e => rw [hin] at h; cases h
      | ok o =>
        rw [hin] at h
        cases o with
        | none =>
          obtain ⟨hlo, hhi, hc⟩ := ih htop h
          refine ⟨hlo, hhi, hc.cons fun _ => ⟨⟨_, hin⟩, fun n hn => ?_⟩⟩
          obtain ⟨_, _, heq, -⟩ := hn
          cases hin.symm.trans heq
        | some p =>
          have htop' : max hi p.2 * A.pageSize ≤ u64Max := by
            rcases le_total hi p.2 with hle | hle
            · rw [max_eq_right hle]; exact innerFrames_top hin
            · rw [max_eq_left hle]; exact htop
          obtain ⟨hlo, hhi, hc⟩ := ih htop' h
          refine ⟨by omega, by omega, hc.cons fun _ => ⟨⟨_, hin⟩, fun n hn => ?_⟩⟩
          obtain ⟨_, _, heq, hle, hlt⟩ := hn
          cases hin.symm.trans heq
          omega
    · rw [if_neg hk] at h
      obtain ⟨hlo, hhi, hc⟩ := ih htop h
      exact ⟨hlo, hhi, hc.cons fun hu => absurd hu hk⟩

theorem span_covers (h : Phys.span A map = .ok (base, span)) :
    span ≤ A.usizeMax ∧ Covers A map base (base + span) := by
  unfold Phys.span checkedSub at h
  split at h
  · cases h
  rename_i lo hi found hloop
  have hc := (spanLoop_covers (by rw [Nat.zero_mul]; exact Nat.zero_le _) hloop).2.2
  split at h
  · cases h
  by_cases hle : lo ≤ hi
  · simp only [if_pos hle] at h
    split at h
    · cases h
    rename_i frames hframes
    obtain ⟨hmax, rfl⟩ := narrow_eq_ok.mp hframes
    split at h <;> cases h
    exact ⟨hmax, by rwa [Nat.add_sub_cancel' hle]⟩
  · simp only [if_neg hle] at h
    cases h

/-- Some region's frame is `base + i`, an index of the span. -/
def Picked (frames : MemoryRegion → Except AllocError (Option (Nat × Nat))) (base span : Nat)
    (map : List MemoryRegion) (i : Nat) : Prop :=
  i < span ∧ ∃ r ∈ map, Selects (frames r) (base + i)

/-- Marking fails if a region cannot be read, and otherwise gives the value `v` to what the regions
pick and to nothing else. -/
def Marked (frames : MemoryRegion → Except AllocError (Option (Nat × Nat))) (v : Bool) (base span : Nat)
    (map : List MemoryRegion) (m : List UInt8) (out : Except AllocError (List UInt8)) : Prop :=
  (∃ r ∈ map, ∃ e, frames r = .error e) ∧ out = .error .overflow ∨
    (∀ r ∈ map, ∃ o, frames r = .ok o) ∧ ∃ m', out = .ok m' ∧ m'.length = Phys.storeBytes span ∧
      ∀ i, i ∈ bits m' ↔ Picked frames base span map i ∧ v = true ∨ ¬Picked frames base span map i ∧ i ∈ bits m

theorem markLoop_exact {frames : MemoryRegion → Except AllocError (Option (Nat × Nat))}
    {update : List UInt8 → Nat → List UInt8} {v : Bool} (hspan : span ≤ A.usizeMax)
    (herr : ∀ r e, frames r = .error e → e = .overflow) (hupdate : Writes update v) (base : Nat)
    (map : List MemoryRegion) : ∀ {m : List UInt8}, m.length = Phys.storeBytes span →
      Marked frames v base span map m (markLoop A frames update base (base + span) map m) := by
  induction map with
  | nil =>
    intro m hlen
    exact .inr ⟨by simp, m, rfl, hlen, fun i => by simp [Picked]⟩
  | cons region map ih =>
    intro m hlen
    unfold markLoop
    have hpicked : ∀ i, Picked frames base span (region :: map) i ↔
        i < span ∧ Selects (frames region) (base + i) ∨ Picked frames base span map i := by
      intro i
      simp only [Picked, List.exists_mem_cons_iff, and_or_left]
    cases hf : frames region with
    | error e =>
      obtain rfl := herr _ _ hf
      exact .inl ⟨⟨region, List.mem_cons_self, _, hf⟩, rfl⟩
    | ok o =>
      -- what the rest makes of the array this region leaves
      have hrest : ∀ m1, m1.length = Phys.storeBytes span →
          (∀ i, i ∈ bits m1 ↔ (i < span ∧ Selects (frames region) (base + i)) ∧ v = true ∨
            ¬(i < span ∧ Selects (frames region) (base + i)) ∧ i ∈ bits m) →
          Marked frames v base span (region :: map) m (markLoop A frames update base (base + span) map m1) := by
        intro m1 hlen1 hbits
        rcases ih hlen1 with ⟨⟨r, hr, hex⟩, heq⟩ | ⟨hall, m', heq, hlen', hbits'⟩
        · exact .inl ⟨⟨r, List.mem_cons_of_mem _ hr, hex⟩, heq⟩
        refine .inr ⟨List.forall_mem_cons.mpr ⟨⟨o, hf⟩, hall⟩, m', heq, hlen', fun i => ?_⟩
        rw [hbits', hbits, hpicked]
        by_cases h₁ : i < span ∧ Selects (frames region) (base + i) <;>
          by_cases h₂ : Picked frames base span map i <;> simp [h₁, h₂]
      cases o with
      | none => exact hrest m hlen fun i => by simp [Selects, hf]
      | some p =>
        obtain ⟨lo, hi⟩ := p
        obtain ⟨first, last, hclamp, hfl, hls, hsel⟩ := clamp_spec lo hi base hspan
        simp only [hclamp]
        obtain ⟨h1, h2⟩ := hupdate.range (m := m) (k := first) (n := last - first)
          (by have := le_storeBytes span; omega)
        refine hrest _ (h1.trans hlen) fun i => ?_
        have hiff : (first ≤ i ∧ i < first + (last - first)) ↔ i < span ∧ Selects (frames region) (base + i) := by
          rw [Nat.add_sub_cancel' hfl]
          constructor
          · intro hin
            have hlt : i < span := by omega
            exact ⟨hlt, lo, hi, hf, (hsel i hlt).mp hin⟩
          · rintro ⟨hlt, lo', hi', heq, hin⟩
            cases hf.symm.trans heq
            exact (hsel i hlt).mpr hin
        rw [h2, hiff]

theorem alignUp_error {v align : Nat} (h : alignUp v align = .error e) : e = .overflow := by
  unfold alignUp at h
  split at h <;> cases h
  rfl

theorem innerFrames_error (h : innerFrames A r = .error e) : e = .overflow := by
  unfold innerFrames at h
  split at h
  · cases h
    rfl
  split at h
  · cases h
    exact alignUp_error (by assumption)
  · cases h

theorem outerFrames_error (h : outerFrames A r = .error e) : e = .overflow :=
  (outerFramesRaw_error.mp h).1

theorem popcount_eq {m : List UInt8} :
    ∀ {n k : Nat}, popcount A m n = .ok k → k = n + (bits m).card := by
  induction m with
  | nil =>
    intro n k h
    cases h
    rw [show bits [] = ∅ from rfl, card_empty, add_zero]
  | cons b m ih =>
    intro n k h
    unfold popcount at h
    split at h
    · cases h
    rename_i set hset
    obtain ⟨-, rfl⟩ := narrow_eq_ok.mp hset
    split at h
    · cases h
    rename_i n' hn
    obtain ⟨-, rfl⟩ := checkedAdd_eq_some.mp hn
    rw [ih h, card_bits_cons, add_assoc]

/-- What `new` went through when it succeeds. -/
structure Built (map : List MemoryRegion) (a : FrameAllocator A) : Prop where
  span : Phys.span A map = .ok (a.base, a.span)
  pool_len : a.pool.length = Phys.storeBytes a.span
  pool : ∀ i, i ∈ bits a.pool ↔
    Picked (innerFrames A) a.base a.span (map.filter (·.kind = usable)) i ∧
      ¬Picked (outerFrames A) a.base a.span (map.filter (·.kind ≠ usable)) i
  taken : a.taken = List.replicate (Phys.storeBytes a.span) 0
  total : a.total = (bits a.pool).card
  free : a.free = a.total
  readable : ∀ r ∈ map, r.kind ≠ usable → ∃ o, outerFrames A r = .ok o

theorem built_new (h : new A map store = .ok a) : Built map a := by
  unfold new at h
  cases hspan : Phys.span A map with
  | error e => rw [hspan] at h; cases h
  | ok p =>
    obtain ⟨base, span⟩ := p
    obtain ⟨hmax, hcovers⟩ := span_covers hspan
    rw [hspan] at h
    simp only at h
    split at h
    · cases h
    split at h
    · cases h
    split at h
    · cases h
    split at h
    · cases h
    have hle : base + span ≤ u64Max :=
      (Nat.le_mul_of_pos_right _ A.pageSize_pos).trans hcovers.top
    simp only [checkedAdd_of_le hle] at h
    rcases markLoop_exact hmax (fun _ _ => innerFrames_error) writes_setBit base (map.filter (·.kind = usable))
      (List.length_replicate (n := Phys.storeBytes span) (a := 0)) with
      ⟨-, hmark⟩ | ⟨-, pool1, hmark, hlen1, hbits1⟩
    · rw [hmark] at h
      cases h
    simp only [hmark] at h
    split at h
    · cases h
    next pool2 heq =>
    rcases markLoop_exact hmax (fun _ _ => outerFrames_error) writes_clearBit base (map.filter (·.kind ≠ usable))
      hlen1 with ⟨-, hmark'⟩ | ⟨hall, pool2, hmark', hlen2, hbits2⟩
    · cases hmark'.symm.trans heq
    cases hmark'.symm.trans heq
    split at h
    · cases h
    next total hpop =>
    split at h
    · cases h
    have htotal := popcount_eq hpop
    rw [zero_add] at htotal
    cases h
    refine ⟨hspan, hlen2, fun i => ?_, rfl, htotal, rfl, fun r hr hk => hall r ?_⟩
    · rw [hbits2, hbits1, bits_replicate_zero]
      simp [and_comm]
    · exact List.mem_filter.mpr ⟨hr, by simpa using hk⟩

/-- A new allocator has nothing taken, and its counters are right. -/
theorem inv_new (h : new A map store = .ok a) : Inv a ∧ bits a.taken = ∅ := by
  have hb := built_new h
  obtain ⟨hmax, hcovers⟩ := span_covers hb.span
  have htaken : bits a.taken = ∅ := by rw [hb.taken, bits_replicate_zero]
  refine ⟨⟨hb.pool_len, by rw [hb.taken, List.length_replicate], fun i hi => ((hb.pool i).mp hi).1.1, hcovers.top, hmax,
    hb.total, ?_⟩, htaken⟩
  rw [htaken, sdiff_empty, hb.free, hb.total]

/-! ## The abstract allocator: two sets of frame numbers -/

inductive Op (A : Arch) where
  | allocFrame
  | allocContiguous (count : Nat) (hc : count ≤ A.usizeMax)
  | freeFrame (frame : Frame A)
  | freeContiguous (range : FrameRange A)
  | reserve (start len : Nat)

/-- The allocator after one call, whatever it returned. -/
def step (a : FrameAllocator A) : Op A → FrameAllocator A
  | .allocFrame => a.allocFrame.1
  | .allocContiguous count hc => (a.allocContiguous count hc).1
  | .freeFrame frame => (a.freeFrame frame).1
  | .freeContiguous range => (a.freeContiguous range).1
  | .reserve start len => (a.reserve start len).1

def run (a : FrameAllocator A) (ops : List (Op A)) : FrameAllocator A := ops.foldl step a

theorem Inv.step (h : Inv a) (op : Op A) : Inv (a.step op) := by
  -- a call that fails leaves the allocator as it was
  cases op with
  | allocFrame =>
    rcases h.allocFrame with ⟨_, b, heq, -, hb⟩ | ⟨heq, -⟩ <;> simp only [FrameAllocator.step, heq]
    exacts [hb.inv, h]
  | allocContiguous count hc =>
    rcases h.allocContiguous count hc with ⟨_, b, heq, -, -, -, hb⟩ | ⟨heq, -⟩ | ⟨heq, -⟩ | ⟨heq, -⟩ <;>
      simp only [FrameAllocator.step, heq]
    exacts [hb.inv, h, h, h]
  | freeFrame f =>
    rcases h.freeFrame f with ⟨b, heq, -, hb⟩ | ⟨⟨e, heq⟩, -⟩ <;> simp only [FrameAllocator.step, heq]
    exacts [hb.inv, h]
  | freeContiguous r =>
    rcases h.freeContiguous r with ⟨b, heq, -, hb⟩ | ⟨⟨e, heq⟩, -⟩ <;> simp only [FrameAllocator.step, heq]
    exacts [hb.inv, h]
  | reserve start len =>
    rcases h.reserve start len with ⟨-, b, _, _, heq, hb, -⟩ | ⟨-, heq⟩ <;> simp only [FrameAllocator.step, heq]
    exacts [hb.inv, h]

theorem Inv.run (h : Inv a) (ops : List (Op A)) : Inv (a.run ops) :=
  List.foldlRecOn ops _ h fun _ h op _ => h.step op

/-- The same allocator, told to start its next search elsewhere. -/
def withHint (a : FrameAllocator A) (hint : Nat) : FrameAllocator A := { a with hint := hint }

theorem Inv.withHint (h : Inv a) (hint : Nat) : Inv (a.withHint hint) := { h with }

/-- What each operation does to the sets `pool` and `taken` of frame numbers. A call that is not
listed as a success leaves the allocator, counters and all, exactly as it was. -/
structure Refines (a : FrameAllocator A) : Prop where
  total : a.total = a.poolFrames.card
  free : a.free = a.freeFrames.card
  /-- One free frame, or none is left; the hint plays no part. -/
  allocFrame : ∀ hint,
    (∃ f b, (a.withHint hint).allocFrame = (b, .ok f) ∧ f.number ∈ a.freeFrames ∧
        LentTo (a.withHint hint) b (insert f.number a.takenFrames)) ∨
      ((a.withHint hint).allocFrame = (a.withHint hint, .error .exhausted) ∧ a.freeFrames = ∅)
  /-- The lowest run of free frames, or the reason there is none. -/
  allocContiguous : ∀ n hn,
    (∃ r b, a.allocContiguous n hn = (b, .ok r) ∧ r.count = n ∧
        IsRun a.freeFrames n r.start.number ∧ (∀ s < r.start.number, ¬ IsRun a.freeFrames n s) ∧
        LentTo a b (a.takenFrames ∪ Ico r.start.number (r.start.number + n))) ∨
      (a.allocContiguous n hn = (a, .error .emptyRequest) ∧ n = 0) ∨
      (a.allocContiguous n hn = (a, .error .exhausted) ∧ a.freeFrames.card < n) ∨
      (a.allocContiguous n hn = (a, .error .fragmented) ∧ 0 < n ∧ n ≤ a.freeFrames.card ∧
        ∀ s, ¬ IsRun a.freeFrames n s)
  /-- Exactly the allocated frames can be given back. -/
  freeFrame : ∀ f,
    (∃ b, a.freeFrame f = (b, .ok ()) ∧ f.number ∈ a.poolFrames ∩ a.takenFrames ∧
        LentTo a b (a.takenFrames.erase f.number)) ∨
      ((∃ e, a.freeFrame f = (a, .error e)) ∧ f.number ∉ a.poolFrames ∩ a.takenFrames)
  freeContiguous : ∀ r : FrameRange A,
    let F := Ico r.start.number (r.start.number + r.count)
    (∃ b, a.freeContiguous r = (b, .ok ()) ∧ F ⊆ a.poolFrames ∩ a.takenFrames ∧ LentTo a b (a.takenFrames \ F)) ∨
      ((∃ e, a.freeContiguous r = (a, .error e)) ∧ ¬ F ⊆ a.poolFrames ∩ a.takenFrames)
  /-- The frames touched leave the pool, and their number is returned, unless the range runs past the
  top of the address space. -/
  reserve : ∀ start len,
    (¬PastTop A start len ∧ ∃ b n, a.reserve start len = (b, .ok n) ∧ b.takenFrames = a.takenFrames ∧
        (∀ f, f ∈ b.poolFrames ↔ f ∈ a.poolFrames ∧ ¬ Touches A start len f) ∧
        n + b.poolFrames.card = a.poolFrames.card) ∨
      PastTop A start len ∧ a.reserve start len = (a, .error .overflow)

theorem Inv.refines (h : Inv a) : Refines a where
  total := by rw [h.total]; exact (card_shift ..).symm
  free := by rw [h.free, freeFrames_eq, card_shift]; rfl
  allocFrame hint := (h.withHint hint).allocFrame
  allocContiguous := h.allocContiguous
  freeFrame := h.freeFrame
  freeContiguous := h.freeContiguous
  reserve := by
    intro start len
    rcases h.reserve start len with ⟨hpast, b, n, _, heq, hb, hpool, hcount⟩ | he
    · refine .inl ⟨hpast, b, n, heq, by rw [takenFrames, takenFrames, hb.taken, hb.base], fun f => ?_, ?_⟩
      · simp only [poolFrames, hb.base, hb.pool, mem_image, hpool]
        constructor
        · rintro ⟨i, ⟨h1, h2⟩, rfl⟩
          exact ⟨⟨i, h1, rfl⟩, h2⟩
        · rintro ⟨⟨i, h1, rfl⟩, h2⟩
          exact ⟨i, ⟨h1, h2⟩, rfl⟩
      · rw [poolFrames, poolFrames, card_shift, card_shift]; exact hcount
    · exact .inr he

/--
**The frame allocator refines a pair of finite sets.**

From any memory map `new` accepts and after any history of calls, refused ones
included, the counters are the sizes of `pool` and of `pool \ taken`, and every
operation acts on the two sets as `Refines` says.
-/
theorem history_refines {map : List MemoryRegion} {store : List UInt8}
    (hnew : new A map store = .ok a) (ops : List (Op A)) : Refines (a.run ops) :=
  ((inv_new hnew).1.run ops).refines

/-- Sixteen usable frames with one reserved byte in the fifth. -/
def sampleMap : List MemoryRegion := [⟨4096, 16 * 4096, 1⟩, ⟨5 * 4096 + 7, 1, 2⟩]

theorem history_refines_sampleMap :
    ∃ a, new Arch.full sampleMap (List.replicate 4 255) = .ok a ∧ a.total = 15 ∧
      Refines (a.run [.allocFrame, .allocContiguous 3 (by decide), .reserve 4096 1]) :=
  ⟨_, rfl, rfl,
    history_refines (show new Arch.full sampleMap (List.replicate 4 255) = .ok _ from rfl) _⟩

end Kintane.FrameAllocator
