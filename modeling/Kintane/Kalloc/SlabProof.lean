import Kintane.Kalloc.Slab
import Kintane.Lib.Bits

/-!
# What the slab keeps true

A block stands for a set of extents: its objects whose bits are set. Taking an object
sets one clear bit below the object count, freeing one clears a set bit, and since the
blocks are apart the first block that contains an address is the only one. The memory
of a block stays the block's from the moment it is added.
-/

open List

namespace Kintane.Slab

open Extent Block

variable {A : Arch} {m : DirectMap A} {j cls p i : Nat} {c : Block} {v : BitVec 64} {x : Extent} {l r bs : List Block}
  {b : Block} {s : Slab}

/-! ## Words -/

theorem bit_eq (hi : i < 64) : bit i = Bits.one 64 i := if_pos hi

theorem and_bit_ne_zero (hi : i < 64) (h : v.getLsbD i = true) : v &&& bit i ≠ 0#64 := by
  rw [bit_eq hi, Ne, Bits.and_one_eq_zero _ hi, h]
  exact Bool.noConfusion

theorem getLsbD_mask (hj : j < 64) : b.mask.getLsbD j = decide (j < b.objects) := by
  unfold mask
  by_cases ho : maxObjects ≤ b.objects
  · have : j < b.objects := hj.trans_le ho
    rw [if_pos ho, BitVec.getLsbD_allOnes]
    simp [hj, this]
  have hlt : b.objects < 64 := not_le.mp ho
  have hbit : (bit b.objects).toNat = 2 ^ b.objects := by
    rw [bit, if_pos hlt, ← BitVec.twoPow_eq, BitVec.toNat_twoPow_of_lt hlt]
  have hnat : (bit b.objects - 1#64).toNat = 2 ^ b.objects - 1 := by
    rw [BitVec.toNat_sub_of_le (BitVec.le_def.mpr (hbit ▸ Nat.two_pow_pos _)), hbit]
    rfl
  rw [if_neg ho, BitVec.getLsbD, hnat, Nat.testBit_two_pow_sub_one]

/-! ## Classes -/

theorem class_facts : ∀ c ∈ classSizes, 0 < c ∧ isPowerOfTwo c = true ∧ 0 < objectsPerBlock c ∧
    objectsPerBlock c ≤ 64 ∧ c * objectsPerBlock c ≤ 4096 := by decide

/-- The class serves the request's size and, being a power of two, its alignment. -/
theorem classFor_some {layout : Layout A} (h : classFor layout = some cls) :
    cls ∈ classSizes ∧ 0 < layout.size ∧ layout.size ≤ cls ∧ layout.align ∣ cls := by
  unfold classFor at h
  by_cases h0 : layout.size = 0
  · rw [if_pos h0] at h; cases h
  rw [if_neg h0] at h
  have hmem := mem_of_find?_eq_some h
  have hle : max layout.size layout.align ≤ cls := by simpa using find?_some h
  refine ⟨hmem, pos_of_ne_zero h0, by omega, ?_⟩
  obtain ⟨-, hpow, -⟩ := class_facts cls hmem
  obtain ⟨k, rfl⟩ := isPowerOfTwo_iff.mp hpow
  obtain ⟨j, hj⟩ := isPowerOfTwo_iff.mp layout.align_pow
  rw [hj] at hle ⊢
  have hjk : 2 ^ j ≤ 2 ^ k := by omega
  exact Nat.pow_dvd_pow 2 ((Nat.pow_le_pow_iff_right (by decide)).mp hjk)

/-- The layout of a class's own size always exists. -/
theorem fromSizeAlign_class {n c : Nat} (hc : c ∈ classSizes) (hn : n ≤ 4096) :
    ∃ layout, Layout.fromSizeAlign A n c = some layout ∧ layout.size = n ∧ layout.align = c := by
  have hpow : isPowerOfTwo c = true := (class_facts c hc).2.1
  have hle : c ≤ 1024 := (by decide : ∀ c ∈ classSizes, c ≤ 1024) c hc
  have hbits : 2 ^ 31 ≤ 2 ^ (A.usizeBits - 1) :=
    Nat.pow_le_pow_right (by decide) (by have := A.bits_ge; omega)
  refine ⟨⟨n, c, hpow, by omega⟩, ?_, rfl, rfl⟩
  unfold Layout.fromSizeAlign
  rw [dif_pos hpow, dif_pos]

theorem blockLayout_class {c : Nat} (hc : c ∈ classSizes) :
    ∃ layout, blockLayout A c = .ok layout ∧ layout.size = c * objectsPerBlock c ∧
      layout.align = c := by
  obtain ⟨-, -, -, -, hle⟩ := class_facts c hc
  obtain ⟨layout, hl, h1, h2⟩ := fromSizeAlign_class (A := A) hc hle
  refine ⟨layout, ?_, h1, h2⟩
  have := A.u32Max_le_usizeMax
  unfold blockLayout
  rw [checkedMul_of_le (by omega)]
  simp only [hl]

/-! ## One block -/

namespace Block

def extent (b : Block) : Extent := (b.virt, b.cls * b.objects)

def object (b : Block) (i : Nat) : Extent := (b.virt + i * b.cls, b.cls)

def objs (b : Block) : Finset Extent :=
  ((Finset.range b.objects).filter fun i => b.used.getLsbD i = true).image b.object

/-- A block of one of the classes, carved from mapped memory. -/
structure Ok (m : DirectMap A) (b : Block) : Prop where
  cls : b.cls ∈ classSizes
  objects : b.objects = objectsPerBlock b.cls
  aligned : b.cls ∣ b.virt
  nonnull : b.virt ≠ 0
  mapped : ∀ i < b.cls * b.objects, ∃ phys, m.Maps phys (b.virt + i)
  end_le : b.virt + b.cls * b.objects ≤ A.usizeMax
  used : ∀ i, b.used.getLsbD i = true → i < b.objects

theorem mem_objs : x ∈ b.objs ↔ ∃ i < b.objects, b.used.getLsbD i = true ∧ x = b.object i := by
  simp [objs, and_assoc, @eq_comm _ x]

theorem object_within (hi : i < b.objects) : Within (b.object i) b.extent := by
  have := Nat.mul_le_mul_left b.cls (Nat.succ_le_of_lt hi)
  rw [Nat.mul_succ, mul_comm b.cls i] at this
  exact ⟨Nat.le_add_right _ _, by simp only [object, extent]; omega⟩

theorem object_apart (hne : i ≠ j) : Apart (b.object i) (b.object j) := by
  have hstep : ∀ {i j : Nat}, i < j → b.virt + i * b.cls + b.cls ≤ b.virt + j * b.cls := by
    intro i j hij
    have := Nat.mul_le_mul_right b.cls (Nat.succ_le_of_lt hij)
    rw [Nat.succ_mul] at this
    omega
  rcases Nat.lt_or_gt_of_ne hne with hlt | hlt
  · exact .inl (hstep hlt)
  · exact .inr (hstep hlt)

theorem objs_within (hx : x ∈ b.objs) : Within x b.extent := by
  obtain ⟨i, hi, -, rfl⟩ := mem_objs.mp hx
  exact object_within hi

namespace Ok

variable (h : b.Ok m)

include h

theorem cls_pos : 0 < b.cls := (class_facts _ h.cls).1

theorem objects_pos : 0 < b.objects := by
  rw [h.objects]; exact (class_facts _ h.cls).2.2.1

theorem objects_le : b.objects ≤ 64 := by
  rw [h.objects]; exact (class_facts _ h.cls).2.2.2.1

theorem size_le : b.cls * b.objects ≤ 4096 := by
  rw [h.objects]; exact (class_facts _ h.cls).2.2.2.2

theorem bytes_eq : b.bytes A = b.cls * b.objects := by
  have := h.end_le
  unfold bytes satMul
  omega

theorem object_inj (he : b.object i = b.object j) : i = j := by
  have := (Prod.mk.inj he).1
  exact Nat.eq_of_mul_eq_mul_right h.cls_pos (Nat.add_left_cancel this)

theorem packed : Packed b.objs where
  pos := by
    intro x hx
    obtain ⟨i, -, -, rfl⟩ := mem_objs.mp hx
    exact h.cls_pos
  apart := by
    intro x hx y hy hne
    obtain ⟨i, -, -, rfl⟩ := mem_objs.mp hx
    obtain ⟨j, -, -, rfl⟩ := mem_objs.mp hy
    exact object_apart fun he => hne (he ▸ rfl)

/-- The bytes of the objects handed out, by popcount. -/
theorem size_objs : size b.objs = b.inUse * b.cls := by
  have hcard : ((Finset.range b.objects).filter fun i => b.used.getLsbD i = true).card =
      b.inUse := by
    unfold inUse countOnes
    rw [Nat.count_eq_card_filter_range]
    refine congrArg _ (Finset.ext fun i => ?_)
    simp only [Finset.mem_filter, Finset.mem_range]
    have := h.objects_le
    exact ⟨fun hi => ⟨by omega, hi.2⟩, fun hi => ⟨h.used i hi.2, hi.2⟩⟩
  unfold size objs
  rw [Finset.sum_image fun i _ j _ he => h.object_inj he, ← hcard]
  exact Finset.sum_const_nat fun i _ => rfl

theorem inUse_le : b.inUse * b.cls ≤ 4096 := by
  have hin := h.packed.size_le b.virt (b.virt + b.cls * b.objects) fun x hx => objs_within hx
  have := h.size_le
  rw [h.size_objs] at hin
  omega

/-- Setting a clear bit hands out that object. -/
theorem take (hi : i < b.objects) : ({ b with used := b.used ||| bit i } : Block).Ok m ∧
      ({ b with used := b.used ||| bit i } : Block).objs = insert (b.object i) b.objs := by
  have hbits (j : Nat) : (b.used ||| bit i).getLsbD j = true ↔ b.used.getLsbD j = true ∨ j = i := by
    have hi64 := hi.trans_le h.objects_le
    rw [bit_eq hi64, BitVec.getLsbD_or, Bits.getLsbD_one _ hi64, Bool.or_eq_true, decide_eq_true_eq]
  refine ⟨{ h with used := fun j hj => ?_ }, ?_⟩
  · rcases (hbits j).mp hj with hj | rfl
    · exact h.used j hj
    · exact hi
  · ext x
    rw [Finset.mem_insert, mem_objs, mem_objs]
    change (∃ j < b.objects, _ ∧ x = b.object j) ↔ _
    grind

/-- Clearing a bit takes that object back. -/
theorem free (hi : i < b.objects) : ({ b with used := b.used &&& ~~~bit i } : Block).Ok m ∧
      ({ b with used := b.used &&& ~~~bit i } : Block).objs = b.objs.erase (b.object i) := by
  have hbits (j : Nat) : (b.used &&& ~~~bit i).getLsbD j = true ↔ b.used.getLsbD j = true ∧ j ≠ i := by
    have hi64 := hi.trans_le h.objects_le
    rw [bit_eq hi64, Bits.getLsbD_erase _ _ hi64, Bool.and_eq_true, decide_eq_true_eq]
  refine ⟨{ h with used := fun j hj => h.used j ((hbits j).mp hj).1 }, ?_⟩
  have hinj (j k : Nat) : b.object j = b.object k → j = k := h.object_inj
  ext x
  rw [Finset.mem_erase, mem_objs, mem_objs]
  change (∃ j < b.objects, _ ∧ x = b.object j) ↔ _
  grind

/-- The address of an object is found at its index. -/
theorem indexOf_object (hi : i < b.objects) : b.indexOf A (b.virt + i * b.cls) = .ok (some i) := by
  have hpos := h.cls_pos
  have hw := (object_within hi).2
  simp only [object, extent] at hw
  unfold indexOf
  rw [checkedSub_of_le (Nat.le_add_right _ _), Nat.add_sub_cancel_left, h.bytes_eq]
  simp only
  rw [if_neg (by omega), if_neg (by simp; omega), Nat.mul_div_cancel _ hpos]

/-- An address outside the block is not found in it. -/
theorem indexOf_outside {a : Nat} (ha : ¬ Within (a, 1) b.extent) : b.indexOf A a = .ok none := by
  unfold indexOf checkedSub
  by_cases hle : b.virt ≤ a
  · rw [if_pos hle, h.bytes_eq]
    simp only
    rw [if_pos]
    by_contra hlt
    exact ha ⟨hle, by simp only [extent]; omega⟩
  · rw [if_neg hle]

end Ok

end Block

/-! ## The whole table -/

def objs : List Block → Finset Extent
  | [] => ∅
  | b :: bs => b.objs ∪ objs bs

/-- The extents of the blocks themselves. -/
def extents (bs : List Block) : Finset Extent := (bs.map extent).toFinset

/-- The slab's blocks are well formed and apart. -/
structure Inv (m : DirectMap A) (s : Slab) : Prop where
  ok : ∀ b ∈ s.blocks, b.Ok m
  apart : s.blocks.Pairwise fun b c => Apart b.extent c.extent
  room : s.blocks.length ≤ maxBlocks

theorem mem_objs : x ∈ objs bs ↔ ∃ b ∈ bs, x ∈ b.objs := by
  induction bs with
  | nil => simp [objs]
  | cons b bs ih => simp [objs, ih]

theorem mem_extents : x ∈ extents bs ↔ ∃ b ∈ bs, b.extent = x := by simp [extents]

theorem objs_append (l r : List Block) : objs (l ++ r) = objs l ∪ objs r := by
  induction l with
  | nil => simp [objs]
  | cons b l ih => rw [cons_append, objs, ih, objs, Finset.union_assoc]

/-- Every object lies in a block of the table. -/
theorem objs_within (hx : x ∈ objs bs) : ∃ y ∈ extents bs, Within x y := by
  obtain ⟨b, hb, hx⟩ := mem_objs.mp hx
  exact ⟨b.extent, mem_extents.mpr ⟨b, hb, rfl⟩, Block.objs_within hx⟩

/-- What lies in one block is apart from the others' objects. -/
theorem apart_objs {y : Extent} (hb : ∀ c ∈ bs, Apart b.extent c.extent)
    (hx : Within x b.extent) (hy : y ∈ objs bs) : Apart x y := by
  obtain ⟨c, hc, hy⟩ := mem_objs.mp hy
  exact (hb c hc).mono hx (Block.objs_within hy)

section Table

variable (hok : ∀ b ∈ bs, b.Ok m) (hap : bs.Pairwise fun b c => Apart b.extent c.extent)
include hok hap

theorem packed_objs : Packed (objs bs) := by
  induction bs with
  | nil => exact Packed.empty
  | cons b bs ih =>
    obtain ⟨hb, hbs⟩ := pairwise_cons.mp hap
    exact (hok b mem_cons_self).packed.union (ih (forall_mem_cons.mp hok).2 hbs) fun x hx y hy =>
      apart_objs hb (Block.objs_within hx) hy

/-- The bytes handed out, block by block. -/
theorem size_objs : size (objs bs) = (bs.map fun b => b.inUse * b.cls).sum := by
  induction bs with
  | nil => rfl
  | cons b bs ih =>
    obtain ⟨hb, hbs⟩ := pairwise_cons.mp hap
    have hb_ok := hok b mem_cons_self
    have hdis : Disjoint b.objs (objs bs) := hb_ok.packed.disjoint fun x hx y hy =>
      apart_objs hb (Block.objs_within hx) hy
    rw [objs, size_union hdis, hb_ok.size_objs, map_cons, sum_cons, ih (forall_mem_cons.mp hok).2 hbs]

/-- The bytes of the blocks, block by block. -/
theorem size_extents : size (extents bs) = (bs.map fun b => b.cls * b.objects).sum := by
  induction bs with
  | nil => rfl
  | cons b bs ih =>
    obtain ⟨hb, hbs⟩ := pairwise_cons.mp hap
    have hb_ok := hok b mem_cons_self
    have hnew : b.extent ∉ extents bs :=
      Packed.not_mem (Nat.mul_pos hb_ok.cls_pos hb_ok.objects_pos) fun y hy => by
        obtain ⟨c, hc, rfl⟩ := mem_extents.mp hy
        exact hb c hc
    have hins : extents (b :: bs) = insert b.extent (extents bs) := by simp [extents]
    rw [hins, size_insert hnew, map_cons, sum_cons, ih (forall_mem_cons.mp hok).2 hbs]
    rfl

end Table

/-- A change of one block's bits changes only that block's objects. -/
theorem objs_replace : objs (l ++ c :: r) = c.objs ∪ (objs l ∪ objs r) := by
  rw [objs_append, objs, ← Finset.union_assoc, Finset.union_comm (objs l), Finset.union_assoc]

theorem extents_replace (h : c.extent = b.extent) :
    extents (l ++ c :: r) = extents (l ++ b :: r) := by simp [extents, h]

theorem Inv.replace (h : Inv m s)
    (hs : s.blocks = l ++ b :: r) (hc : c.Ok m) (he : c.extent = b.extent) (allocations frees : Nat) :
    Inv m { s with blocks := l ++ c :: r, allocations := allocations, frees := frees } where
  ok := by
    have hok := h.ok
    rw [hs, forall_mem_append, forall_mem_cons] at hok
    exact forall_mem_append.mpr ⟨hok.1, forall_mem_cons.mpr ⟨hc, hok.2.2⟩⟩
  apart := by
    have := pairwise_map.mpr h.apart
    rw [hs, map_append, map_cons, ← he, ← map_cons, ← map_append] at this
    exact pairwise_map.mp this
  room := by
    have := h.room
    rw [hs] at this
    simpa using this

/-- An object of one block is no other block's. -/
theorem Inv.object_not_elsewhere (h : Inv m s) (hs : s.blocks = l ++ b :: r) (hi : i < b.objects) :
    b.object i ∉ objs l ∪ objs r := by
  have hap := h.apart
  rw [hs, pairwise_append, pairwise_cons] at hap
  obtain ⟨-, ⟨hr, -⟩, hl⟩ := hap
  have hb := h.ok b (by rw [hs]; exact mem_append_right _ mem_cons_self)
  refine Packed.not_mem hb.cls_pos fun y hy => ?_
  rcases Finset.mem_union.mp hy with hy | hy
  · exact apart_objs (fun c hc => (hl c hc b mem_cons_self).symm) (Block.object_within hi) hy
  · exact apart_objs hr (Block.object_within hi) hy

/-! ## Taking -/

/-- The search finds nothing, or sets one clear bit of one block of the class. -/
theorem takeIn_cases (cls : Nat) (hok : ∀ b ∈ bs, b.Ok m) :
    takeIn m cls bs = .error .exhausted ∨
      ∃ l b r i, bs = l ++ b :: r ∧ b.cls = cls ∧ i < b.objects ∧ b.used.getLsbD i = false ∧
        takeIn m cls bs =
          .ok (b.virt + i * b.cls, l ++ { b with used := b.used ||| bit i } :: r) := by
  induction bs with
  | nil => exact .inl rfl
  | cons b bs ih =>
    have hb := hok b mem_cons_self
    unfold takeIn
    simp only
    by_cases hskip : b.cls ≠ cls ∨ ~~~b.used &&& b.mask = 0#64
    · rw [if_pos hskip]
      rcases ih (forall_mem_cons.mp hok).2 with
        heq | ⟨l, c, r, i, rfl, h1, h2, h3, heq⟩
      · rw [heq]; exact .inl rfl
      · rw [heq]; exact .inr ⟨b :: l, c, r, i, rfl, h1, h2, h3, rfl⟩
    · rw [if_neg hskip]
      rw [not_or, not_not] at hskip
      obtain ⟨rfl, hfree⟩ := hskip
      -- a word that is not zero has a bit, and the one found is clear and below the count
      obtain ⟨k, hk⟩ : ∃ k < 64, (~~~b.used &&& b.mask).getLsbD k = true := by
        by_contra hno
        push Not at hno
        exact hfree (BitVec.eq_of_getLsbD_eq fun i hi => by simpa using hno i hi)
      obtain ⟨hlt, hbit⟩ := trailingZeros_spec hk.1 hk.2
      generalize trailingZeros 64 (~~~b.used &&& b.mask).toNat = i at hlt hbit ⊢
      have hbit' : (~~~b.used &&& b.mask).getLsbD i = true := hbit
      rw [BitVec.getLsbD_and, BitVec.getLsbD_not, getLsbD_mask hlt] at hbit'
      simp only [hlt, decide_true, Bool.true_and, Bool.and_eq_true, Bool.not_eq_true',
        decide_eq_true_eq] at hbit'
      obtain ⟨hclear, hi⟩ := hbit'
      have hin := (object_within hi).2
      have hend := hb.end_le
      simp only [object, extent] at hin
      obtain ⟨phys, hphys⟩ := hb.mapped (i * b.cls) (by have := hb.cls_pos; omega)
      have hnull : b.virt + i * b.cls ≠ 0 := by have := hb.nonnull; omega
      rw [checkedMul_of_le (by omega)]
      simp only
      rw [checkedAdd_of_le (by omega)]
      simp only [DirectMap.ptrAt_of_maps hphys hnull]
      exact .inr ⟨[], b, bs, i, rfl, rfl, hi, hclear, rfl⟩

/-- **Taking.** Nothing changes, or one object of the class is handed out that was not. -/
theorem Inv.tryTake (h : Inv m s) (cls : Nat) : s.tryTake cls m = (s, .error .exhausted) ∨
      ∃ s' p, s.tryTake cls m = (s', .ok p) ∧ Inv m s' ∧ extents s'.blocks = extents s.blocks ∧
        objs s'.blocks = insert (p, cls) (objs s.blocks) ∧ (p, cls) ∉ objs s.blocks ∧ cls ∣ p := by
  unfold Slab.tryTake
  rcases takeIn_cases cls h.ok with heq | ⟨l, b, r, i, hs, rfl, hi, hclear, heq⟩
  · rw [heq]; exact .inl rfl
  rw [heq]
  have hmem : b ∈ s.blocks := by rw [hs]; exact mem_append_right _ mem_cons_self
  have hb := h.ok b hmem
  obtain ⟨hok, hobjs⟩ := hb.take hi
  refine .inr ⟨_, _, rfl, h.replace hs hok rfl _ _, ?_, ?_, ?_, ?_⟩
  · rw [hs]; exact extents_replace rfl
  · rw [hs, objs_replace, objs_replace, hobjs, Finset.insert_union]
    rfl
  · rw [hs, objs_replace, Finset.mem_union, not_or]
    refine ⟨fun hx => ?_, h.object_not_elsewhere hs hi⟩
    obtain ⟨j, hj, hu, he⟩ := Block.mem_objs.mp hx
    rw [← hb.object_inj he, hclear] at hu
    cases hu
  · exact Nat.dvd_add hb.aligned (Nat.dvd_mul_left _ _)

/-! ## Adding a block -/

/-- A block carved from mapped memory nobody holds is accepted, with no object handed out. -/
theorem Inv.addBlock {virt : Nat} (h : Inv m s) (hroom : s.hasRoom = true)
    (hc : cls ∈ classSizes) (hal : cls ∣ virt) (h0 : virt ≠ 0)
    (hmap : ∀ i < cls * objectsPerBlock cls, ∃ phys, m.Maps phys (virt + i))
    (hend : virt + cls * objectsPerBlock cls ≤ A.usizeMax)
    (hap : ∀ x ∈ extents s.blocks, Apart (virt, cls * objectsPerBlock cls) x) :
    ∃ s', s.addBlock cls virt m = .ok s' ∧ Inv m s' ∧
      extents s'.blocks = insert (virt, cls * objectsPerBlock cls) (extents s.blocks) ∧
      objs s'.blocks = objs s.blocks := by
  obtain ⟨hpos, -, hobj, -, -⟩ := class_facts cls hc
  have hbytes : 0 < cls * objectsPerBlock cls := Nat.mul_pos hpos hobj
  obtain ⟨phys, hfirst⟩ := hmap 0 hbytes
  obtain ⟨physLast, hlast⟩ := hmap (cls * objectsPerBlock cls - 1) (by omega)
  have hlen : s.blocks.length < maxBlocks := by simpa [hasRoom] using hroom
  have hok : (⟨virt, phys, cls, objectsPerBlock cls, 0#64⟩ : Block).Ok m :=
    ⟨hc, rfl, hal, h0, hmap, hend, by simp⟩
  refine ⟨{ s with blocks := s.blocks ++ [⟨virt, phys, cls, objectsPerBlock cls, 0#64⟩] }, ?_,
    ⟨?_, ?_, ?_⟩, ?_, ?_⟩
  · unfold Slab.addBlock
    simp only [bind, Except.bind, pure, Except.pure, throw, throwThe, MonadExceptOf.throw]
    rw [add_zero] at hfirst
    rw [if_neg (not_not.mpr hroom), if_neg (by omega), checkedMul_of_le (by omega)]
    rw [DirectMap.toPhys_eq_ok.mpr hfirst]
    simp only
    rw [checkedAdd_of_le (by omega)]
    simp only
    rw [DirectMap.toPhys_eq_ok.mpr hlast]
  · exact forall_mem_append.mpr ⟨h.ok, forall_mem_singleton.mpr hok⟩
  · refine pairwise_append.mpr ⟨h.apart, pairwise_singleton .., fun b hb c hc => ?_⟩
    rw [mem_singleton.mp hc]
    exact (hap b.extent (mem_extents.mpr ⟨b, hb, rfl⟩)).symm
  · simp only [length_append, length_singleton]
    omega
  · ext x
    simp [extents, Block.extent, eq_comm]
  · simp [objs_append, objs, Block.objs]

/-! ## Freeing -/

/-- The search passes over blocks that do not contain the address. -/
theorem freeIn_skip (cls : Nat) (rest : List Block)
    (hok : ∀ b ∈ l, b.Ok m) (hout : ∀ b ∈ l, ¬ Within (p, 1) b.extent) :
    freeIn A p cls (l ++ rest) = match freeIn A p cls rest with
      | .error e => .error e
      | .ok rest => .ok (l ++ rest) := by
  induction l with
  | nil => rw [nil_append]; cases freeIn A p cls rest <;> rfl
  | cons b l ih =>
    have hb := (hok b mem_cons_self).indexOf_outside (hout b mem_cons_self)
    rw [cons_append, freeIn, hb]
    rw [ih (forall_mem_cons.mp hok).2
      (forall_mem_cons.mp hout).2]
    cases freeIn A p cls rest <;> rfl

/-- **Freeing.** An object handed out is taken back, and only that one. -/
theorem Inv.dealloc (h : Inv m s) (hx : (p, cls) ∈ objs s.blocks) :
    ∃ s', s.dealloc A p cls = (s', .ok ()) ∧ Inv m s' ∧ extents s'.blocks = extents s.blocks ∧
      objs s'.blocks = (objs s.blocks).erase (p, cls) := by
  obtain ⟨b, hb, hxb⟩ := mem_objs.mp hx
  obtain ⟨i, hi, hu, he⟩ := Block.mem_objs.mp hxb
  cases he
  obtain ⟨l, r, hs⟩ := append_of_mem hb
  have hok := h.ok b hb
  have hap := h.apart
  rw [hs, pairwise_append] at hap
  have hout : ∀ c ∈ l, ¬ Within (b.virt + i * b.cls, 1) c.extent := by
    intro c hc
    refine (hap.2.2 c hc b mem_cons_self).symm.not_both ?_
    obtain ⟨h1, h2⟩ := Block.object_within hi
    have := hok.cls_pos
    simp only [Block.object] at h1 h2
    exact ⟨h1, by simp only; omega⟩
  obtain ⟨hok', hobjs⟩ := hok.free hi
  have h64 : i < 64 := hi.trans_le hok.objects_le
  have hfree : freeIn A (b.virt + i * b.cls) b.cls s.blocks =
      .ok (l ++ { b with used := b.used &&& ~~~bit i } :: r) := by
    rw [hs, freeIn_skip _ _ (fun c hc => h.ok c (by rw [hs]; exact mem_append_left _ hc)) hout,
      freeIn, hok.indexOf_object hi]
    simp only [ne_eq, not_true_eq_false, if_false]
    have hset := and_bit_ne_zero h64 hu
    rw [if_neg (not_or.mpr ⟨fun h0 => hset (by rw [h0]; simp), hset⟩)]
  refine ⟨_, by rw [Slab.dealloc, hfree], h.replace hs hok' rfl _ _, ?_, ?_⟩
  · rw [hs]; exact extents_replace rfl
  · rw [hs, objs_replace, objs_replace, hobjs, Finset.erase_union_distrib,
      show (b.virt + i * b.cls, b.cls) = b.object i from rfl,
      Finset.erase_eq_of_notMem (h.object_not_elsewhere hs hi)]

/-- An address in no block is not the slab's. -/
theorem Inv.dealloc_outside (h : Inv m s) (cls : Nat) (hout : ∀ x ∈ extents s.blocks, ¬ Within (p, 1) x) :
    s.dealloc A p cls = (s, .error .unmanaged) ∧ s.owns A p = false := by
  have hout' : ∀ b ∈ s.blocks, ¬ Within (p, 1) b.extent := fun b hb =>
    hout _ (mem_extents.mpr ⟨b, hb, rfl⟩)
  have hfree := freeIn_skip cls [] h.ok hout'
  rw [append_nil] at hfree
  refine ⟨by rw [Slab.dealloc, hfree]; rfl, ?_⟩
  unfold owns
  rw [any_eq_false]
  intro b hb hin
  refine hout' b hb ?_
  unfold checkedSub at hin
  by_cases hle : b.virt ≤ p
  · rw [if_pos hle, (h.ok b hb).bytes_eq] at hin
    simp only [decide_eq_true_eq] at hin
    exact ⟨hle, by simp only [extent]; omega⟩
  · rw [if_neg hle] at hin
    cases hin

/-! ## Accounting -/

theorem foldl_count (hok : ∀ b ∈ bs, b.Ok m) :
    ∀ st : Stats, st.bytesReserved + bs.length * 4096 ≤ A.usizeMax →
      st.bytesInUse + bs.length * 4096 ≤ A.usizeMax →
      (bs.foldl (Stats.count A) st).bytesReserved =
          st.bytesReserved + (bs.map fun b => b.cls * b.objects).sum ∧
        (bs.foldl (Stats.count A) st).bytesInUse =
          st.bytesInUse + (bs.map fun b => b.inUse * b.cls).sum := by
  induction bs with
  | nil => exact fun _ _ _ => ⟨rfl, rfl⟩
  | cons b bs ih =>
    intro st hr hu
    have hb := hok b mem_cons_self
    have h1 := hb.size_le
    have h2 := hb.inUse_le
    simp only [length_cons] at hr hu
    have hres : (st.count A b).bytesReserved = st.bytesReserved + b.cls * b.objects := by
      simp only [Stats.count, hb.bytes_eq]
      exact satAdd_of_le (by omega)
    have huse : (st.count A b).bytesInUse = st.bytesInUse + b.inUse * b.cls := by
      simp only [Stats.count]
      rw [show satMul A.usizeMax b.inUse b.cls = b.inUse * b.cls from min_eq_left (by omega)]
      exact satAdd_of_le (by omega)
    obtain ⟨ih1, ih2⟩ := ih (forall_mem_cons.mp hok).2 (st.count A b)
      (by rw [hres]; omega) (by rw [huse]; omega)
    rw [foldl_cons, ih1, ih2, hres, huse, map_cons, map_cons, sum_cons, sum_cons]
    exact ⟨by omega, by omega⟩

/-- The statistics are the sizes of the blocks and of the objects handed out. -/
theorem Inv.stats (h : Inv m s) : (s.stats A).bytesReserved = size (extents s.blocks) ∧
      (s.stats A).bytesInUse = size (objs s.blocks) := by
  have hroom := h.room
  have hmax := A.u32Max_le_usizeMax
  unfold maxBlocks at hroom
  obtain ⟨h1, h2⟩ := foldl_count h.ok ⟨s.blocks.length, 0, 0, 0, 0, s.allocations, s.frees,
    s.doubleFrees, classSizes.map fun size => ⟨size, 0, 0, 0⟩⟩ (by simp only; omega)
    (by simp only; omega)
  rw [size_extents h.ok h.apart, size_objs h.ok h.apart]
  unfold Slab.stats
  rw [h1, h2]
  simp

end Kintane.Slab
