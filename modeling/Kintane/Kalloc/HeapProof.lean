import Mathlib.Algebra.BigOperators.Ring.Finset
import Kintane.Kalloc.BuddySpec
import Kintane.Kalloc.BumpProof
import Kintane.Kalloc.Heap
import Kintane.Kalloc.SlabProof

/-!
# What the heap keeps true

What callers hold is a set of extents in three parts: `R`, served by the arena directly;
the slab's objects; and `B`, blocks of the attached pages. The arena's own books count
`R` and the slab's blocks. The parts never meet: a slab object lies in a block that is
not in `R`, and the frames of the attached run were never given to the arena.

`Core` is that, said of the three allocators. `Books` ties it to the list of grants, the
allocations made and not freed, each with the number of bytes the heap charged for it.
From a pointer and a layout `dealloc` recovers which part a grant is in, because the
layout says whether a class would have served it and the pointer where it lies.
-/

open Finset List

namespace Kintane

open Extent Slab Frame

variable {A : Arch} {H : List (FrameRange A)} {R B O O' R' B' : Finset Extent} {d : Dyad}

/-! ## Pages -/

/-- The extents of buddy blocks, in a run seen from `virt` on. -/
def blockExtent (A : Arch) (virt : Nat) (d : Dyad) : Extent :=
  (virt + d.start * A.pageSize, 2 ^ d.order * A.pageSize)

/-- The heap's buddy allocator, over a run whose frames are none of `H`. -/
structure Attached (m : DirectMap A) (H : List (FrameRange A)) (b : Buddy A) (virt : Nat)
    (L : Nat → List Nat) (U : Finset Dyad) : Prop where
  inv : Buddy.Inv b L U
  shown : m.Shows b.run virt
  apart : ∀ run ∈ H, run.Apart b.run
  nonnull : ∀ d ∈ U, virt + d.start * A.pageSize ≠ 0

namespace Attached

variable {m : DirectMap A} {b c : Buddy A} {virt : Nat} {L L' : Nat → List Nat} {U U' : Finset Dyad}

/-- Blocks in use lie in the run. -/
theorem inside (h : Attached m H b virt L U) (hd : d ∈ U) : Within (blockExtent A virt d) (virt, b.run.bytes) := by
  have hin := h.inv.settled.tiling.inside d (h.inv.settled.used_sub hd)
  rw [h.inv.pages] at hin
  have := Nat.mul_le_mul_right A.pageSize hin
  rw [add_mul] at this
  exact ⟨Nat.le_add_right _ _, by simp only [blockExtent, FrameRange.bytes]; omega⟩

theorem block_inj {e : Dyad} (he : blockExtent A virt d = blockExtent A virt e) : d = e := by
  obtain ⟨h1, h2⟩ := Prod.mk.inj he
  have hstart := Nat.eq_of_mul_eq_mul_right A.pageSize_pos (Nat.add_left_cancel h1)
  have horder := Nat.eq_of_mul_eq_mul_right A.pageSize_pos h2
  cases d; cases e
  simp only [Dyad.mk.injEq]
  exact ⟨hstart, Nat.pow_right_injective (le_refl 2) horder⟩

variable (h : Attached m H b virt L U)

include h

theorem packed : Packed (U.image (blockExtent A virt)) where
  pos := by
    intro x hx
    obtain ⟨d, -, rfl⟩ := mem_image.mp hx
    exact Nat.mul_pos (Nat.two_pow_pos _) A.pageSize_pos
  apart := by
    intro x hx y hy hne
    obtain ⟨d, hd, rfl⟩ := mem_image.mp hx
    obtain ⟨e, he, rfl⟩ := mem_image.mp hy
    have hap := h.inv.settled.tiling.apart (h.inv.settled.used_sub hd) (h.inv.settled.used_sub he)
      fun hde => hne (hde ▸ rfl)
    rcases hap with hap | hap
    · have := Nat.mul_le_mul_right A.pageSize hap
      rw [add_mul] at this
      exact .inl (by simp only [blockExtent]; omega)
    · have := Nat.mul_le_mul_right A.pageSize hap
      rw [add_mul] at this
      exact .inr (by simp only [blockExtent]; omega)

/-- Every frame of the run has an address. -/
theorem inAddressSpace : b.run.InAddressSpace := by
  obtain ⟨v, hlast⟩ := h.shown.last
  have hlt := hlast.phys_lt
  have hpos := b.run.bytes_pos
  have hstart := b.run.start.start_eq
  have hcount := b.run.count_pos
  unfold FrameRange.InAddressSpace
  unfold FrameRange.bytes at hlt hpos
  rw [Nat.add_sub_assoc hcount, Nat.add_mul, Nat.sub_mul, Nat.one_mul]
  have := A.pageSize_pos
  omega

/-- The bytes in use are the pages not free. -/
theorem size_eq : size (U.image (blockExtent A virt)) = (b.pages - b.freePages) * A.pageSize := by
  have hsum := h.inv.settled.tiling.sum_eq
  rw [sum_union h.inv.settled.free_used, ← h.inv.settled.total] at hsum
  unfold size
  rw [sum_image fun d _ e _ he => block_inj he, ← hsum, Nat.add_sub_cancel_left, sum_mul]
  exact sum_congr rfl fun d _ => rfl

end Attached

/-! ## The heap's parts -/

namespace Heap

/-- The buddy allocator, if there is one, has `B` handed out. -/
def Pages (h : Heap A) (H : List (FrameRange A)) (B : Finset Extent) : Prop :=
  match h.pages with
  | none => B = ∅
  | some b => ∃ virt L U, Attached h.map H b virt L U ∧ B = U.image (blockExtent A virt)

theorem Pages.cases {h : Heap A} (hp : h.Pages H B) : (h.pages = none ∧ B = ∅) ∨ ∃ b virt L U, h.pages = some b ∧
      Attached h.map H b virt L U ∧ B = U.image (blockExtent A virt) := by
  unfold Pages at hp
  cases hb : h.pages with
  | none => rw [hb] at hp; exact .inl ⟨rfl, hp⟩
  | some b =>
    rw [hb] at hp
    obtain ⟨virt, L, U, hat, hB⟩ := hp
    exact .inr ⟨b, virt, L, U, rfl, hat, hB⟩

/-- The three allocators agree on who holds what. -/
structure Core (h : Heap A) (H : List (FrameRange A)) (R B : Finset Extent) : Prop where
  map : h.bump.map = h.map
  arena : Bump.Inv h.bump H (R ∪ extents h.slab.blocks)
  direct : Disjoint R (extents h.slab.blocks)
  slab : Slab.Inv h.map h.slab
  pages : h.Pages H B

variable {h h' : Heap A} {x : Extent}

theorem core_new (map : DirectMap A) : Core (new map) [] ∅ ∅ where
  map := rfl
  arena := by simpa [new, Slab.new, Slab.extents] using Bump.inv_new map
  direct := disjoint_empty_left _
  slab := ⟨by simp [new, Slab.new], by simp [new, Slab.new], Nat.zero_le _⟩
  pages := rfl

/-- A heap without its counters and its injector. -/
def bare (h : Heap A) : Heap A :=
  { new h.map with bump := h.bump, slab := h.slab, pages := h.pages }

theorem read_bare (he : h'.bare = h.bare) {β : Type} (f : Heap A → β) (hf : ∀ h, f h.bare = f h) : f h' = f h := by
  rw [← hf, he, hf]

/-- Counters and the injector are not part of it. -/
theorem Core.congr (hc : Core h H R B) (he : h'.bare = h.bare) : Core h' H R B := by
  have hb : Core h.bare H R B := { hc with }
  rw [← he] at hb
  exact { hb with }

namespace Core

variable (hc : Core h H R B) {y : Extent}

include hc

/-- What the arena serves directly is apart from every slab block. -/
theorem direct_apart (hx : x ∈ R) (hy : y ∈ extents h.slab.blocks) : Apart x y :=
  hc.arena.packed.apart x (mem_union_left _ hx) y (mem_union_right _ hy)
    fun he => disjoint_left.mp hc.direct hx (he ▸ hy)

/-- Nothing of the arena is in the attached run. -/
theorem arena_apart (hx : x ∈ R ∪ extents h.slab.blocks) (hy : y ∈ B) : Apart x y := by
  rcases hc.pages.cases with ⟨-, rfl⟩ | ⟨b, virt, L, U, -, hat, rfl⟩
  · exact absurd hy (notMem_empty _)
  obtain ⟨d, hd, rfl⟩ := mem_image.mp hy
  obtain ⟨r, hr, hin⟩ := hc.arena.inside x hx
  obtain ⟨run, hrun, hof⟩ := hc.arena.regions r hr
  rw [hc.map] at hof
  have := hof.shown.apart hat.shown (hat.apart run hrun)
  rw [← hof.bytes] at this
  exact this.mono hin (hat.inside hd)

theorem packed_pages : Packed B := by
  rcases hc.pages.cases with ⟨-, rfl⟩ | ⟨b, virt, L, U, -, hat, rfl⟩
  · exact Packed.empty
  · exact hat.packed

/-- An object is apart from everything outside its block that is not an object. -/
theorem objs_apart (hx : x ∈ objs h.slab.blocks) (hy : y ∈ R ∪ B) : Apart x y := by
  obtain ⟨e, he, hin⟩ := objs_within hx
  rcases mem_union.mp hy with hy | hy
  · exact (hc.direct_apart hy he).symm.mono hin (.refl _)
  · exact (hc.arena_apart (mem_union_right _ he) hy).mono hin (.refl _)

theorem objs_disjoint : Disjoint (objs h.slab.blocks) (R ∪ B) :=
  (packed_objs hc.slab.ok hc.slab.apart).disjoint fun _ hx _ hy => hc.objs_apart hx hy

theorem direct_disjoint : Disjoint R B :=
  (hc.arena.packed.subset subset_union_left).disjoint
    fun _ hx _ hy => hc.arena_apart (mem_union_left _ hx) hy

/-- **Everything callers hold is disjoint.** -/
theorem packed : Packed (objs h.slab.blocks ∪ (R ∪ B)) := by
  refine (packed_objs hc.slab.ok hc.slab.apart).union ?_ fun x hx y hy => hc.objs_apart hx hy
  exact (hc.arena.packed.subset subset_union_left).union hc.packed_pages
    fun x hx y hy => hc.arena_apart (mem_union_left _ hx) hy

/-- Nothing held starts at address zero or ends past the address space. -/
theorem bounds (hx : x ∈ objs h.slab.blocks ∪ (R ∪ B)) : 1 ≤ x.1 ∧ x.1 + x.2 ≤ A.usizeMax + 1 := by
  have harena : ∀ y ∈ R ∪ extents h.slab.blocks, 1 ≤ y.1 ∧ y.1 + y.2 ≤ A.usizeMax + 1 :=
    fun y hy => ⟨pos_of_ne_zero (hc.arena.nonnull y hy), Nat.le_succ_of_le (hc.arena.end_le hy)⟩
  rcases mem_union.mp hx with hx | hx
  · obtain ⟨e, he, h1, h2⟩ := objs_within hx
    obtain ⟨h3, h4⟩ := harena e (mem_union_right _ he)
    omega
  rcases mem_union.mp hx with hx | hx
  · exact harena x (mem_union_left _ hx)
  rcases hc.pages.cases with ⟨-, rfl⟩ | ⟨b, virt, L, U, -, hat, rfl⟩
  · exact absurd hx (notMem_empty _)
  obtain ⟨d, hd, rfl⟩ := mem_image.mp hx
  refine ⟨pos_of_ne_zero (hat.nonnull d hd), ?_⟩
  have hin := (hat.inside hd).2
  have hpos := b.run.bytes_pos
  have := (hat.shown.maps (i := b.run.bytes - 1) (by omega)).virt_le
  omega

end Core

/-! ## Where a pointer leads -/

/-- The first byte of a buddy block leads back to the block's first frame. -/
theorem pageOf_block {b : Buddy A} {virt : Nat} {L : Nat → List Nat} {U : Finset Dyad}
    (hb : h.pages = some b) (hat : Attached h.map H b virt L U) (hd : d ∈ U) :
    ∃ frame : Frame A, h.pageOf (virt + d.start * A.pageSize) = some (frame, frame.start) ∧
      frame.number = b.base.number + d.start := by
  have hlt : d.start < b.pages := hat.inv.settled.start_lt (hat.inv.settled.used_sub hd)
  have hmaps := hat.shown.maps (i := d.start * A.pageSize)
    (Nat.mul_lt_mul_of_pos_right (hat.inv.pages ▸ hlt) A.pageSize_pos)
  have hphys : b.run.start.start + d.start * A.pageSize =
      (b.base.number + d.start) * A.pageSize := by
    rw [add_mul, hat.inv.base, ← b.run.start.start_eq]
  rw [hphys] at hmaps
  have hnum : (containing A _ hmaps.phys_lt).number = b.base.number + d.start := by
    simp only [containing, number]
    rw [Nat.mul_div_cancel _ A.pageSize_pos, Nat.mul_div_cancel _ A.pageSize_pos]
  have hstart : (containing A _ hmaps.phys_lt).start =
      (b.base.number + d.start) * A.pageSize := by
    rw [start_eq, hnum]
  refine ⟨containing A _ hmaps.phys_lt, ?_, hnum⟩
  have howns : b.owns (containing A _ hmaps.phys_lt) = true := by
    unfold Buddy.owns
    rw [(Buddy.indexOf_eq_ok hat.inv.settled.sized.pages_lt_usizeMax.le).mpr ⟨hlt, hnum⟩]
    rfl
  unfold pageOf
  rw [hb, DirectMap.toPhys_eq_ok.mpr hmaps]
  simp only [dif_pos hmaps.phys_lt, howns, if_true, hstart]

/-- No address of the arena's leads to a page of the attached run. -/
theorem Core.pageOf_arena (hc : Core h H R B) (hx : x ∈ R ∪ extents h.slab.blocks) {a : Nat} (ha : Within (a, 1) x) :
    h.pageOf a = none := by
  rcases hc.pages.cases with ⟨hb, -⟩ | ⟨b, virt, L, U, hb, hat, -⟩
  · unfold pageOf; rw [hb]
  obtain ⟨r, hr, hin⟩ := hc.arena.inside x hx
  obtain ⟨run, hrun, hof⟩ := hc.arena.regions r hr
  rw [hc.map] at hof
  obtain ⟨h1, h2⟩ := ha.trans hin
  simp only [Region.extent] at h1 h2
  have hbytes := hof.bytes
  have hmaps := hof.shown.maps (i := a - r.virt) (by omega)
  rw [show r.virt + (a - r.virt) = a by omega] at hmaps
  unfold pageOf
  rw [hb, DirectMap.toPhys_eq_ok.mpr hmaps]
  simp only [dif_pos hmaps.phys_lt]
  rw [if_neg]
  intro howns
  -- its frame is one of `run`, and none of those is the buddy's
  unfold Buddy.owns at howns
  cases hidx : b.indexOf (containing A _ hmaps.phys_lt) with
  | error e => rw [hidx] at howns; cases howns
  | ok page =>
    obtain ⟨hlt, hnum⟩ := (Buddy.indexOf_eq_ok hat.inv.settled.sized.pages_lt_usizeMax.le).mp hidx
    have hdiv : (containing A _ hmaps.phys_lt).number =
        run.start.number + (a - r.virt) / A.pageSize := by
      simp only [containing, number]
      rw [Nat.mul_div_cancel _ A.pageSize_pos, run.start.start_eq, add_comm (_ * _),
        Nat.add_mul_div_right _ _ A.pageSize_pos, Nat.mul_div_cancel _ A.pageSize_pos,
        add_comm]
    have hoff : (a - r.virt) / A.pageSize < run.count := by
      rw [Nat.div_lt_iff_lt_mul A.pageSize_pos]
      simp only [FrameRange.bytes] at hbytes
      omega
    rw [hat.inv.pages] at hlt
    rw [hat.inv.base] at hnum
    generalize (a - r.virt) / A.pageSize = q at hdiv hoff
    rcases hat.apart run hrun with hap | hap <;> omega

/-! ## Grants -/

end Heap

/-- An allocation that was made and not freed, with the bytes the heap charged for it. -/
structure Grant (A : Arch) where
  ptr : Nat
  layout : Layout A
  charge : Nat
  deriving DecidableEq

def Grant.extent (g : Grant A) : Extent := (g.ptr, g.charge)

def Grant.asked (g : Grant A) : Extent := (g.ptr, g.layout.size)

/-- How a grant was served: `O` are the slab's objects. -/
inductive Routed (O R B : Finset Extent) (g : Grant A) : Prop
  /-- By the slab. -/
  | object (hc : classFor g.layout = some g.charge) (hx : g.extent ∈ O)
  /-- By the arena, at its class's size. -/
  | degraded (hc : classFor g.layout = some g.charge) (hx : g.extent ∈ R)
  /-- By the arena, at its own size. -/
  | large (hc : classFor g.layout = none) (hs : g.charge = g.layout.size)
      (hx : g.extent ∈ R)
  /-- By the attached pages, as a whole block. -/
  | block (order : Nat) (hc : classFor g.layout = none) (h0 : 0 < g.layout.size)
      (ho : orderFor A (divCeil g.layout.size A.pageSize) = some order)
      (hs : g.charge = 2 ^ order * A.pageSize) (hx : g.extent ∈ B)

variable {g : Grant A}

namespace Routed

variable (hr : Routed O R B g)

include hr

theorem mem : g.extent ∈ O ∪ (R ∪ B) := by
  cases hr with
  | object hc hx => exact mem_union_left _ hx
  | degraded hc hx => exact mem_union_right _ (mem_union_left _ hx)
  | large hc hs hx => exact mem_union_right _ (mem_union_left _ hx)
  | block order hc h0 ho hs hx => exact mem_union_right _ (mem_union_right _ hx)

/-- A grant stays routed as long as its own extent stays where it is. -/
theorem mono (hO : g.extent ∈ O → g.extent ∈ O')
    (hR : g.extent ∈ R → g.extent ∈ R') (hB : g.extent ∈ B → g.extent ∈ B') :
    Routed O' R' B' g := by
  cases hr with
  | object hc hx => exact .object hc (hO hx)
  | degraded hc hx => exact .degraded hc (hR hx)
  | large hc hs hx => exact .large hc hs (hR hx)
  | block order hc h0 ho hs hx => exact .block order hc h0 ho hs (hB hx)

/-- The charge covers the request. -/
theorem size_le : g.layout.size ≤ g.charge := by
  cases hr with
  | object hc hx => exact (classFor_some hc).2.2.1
  | degraded hc hx => exact (classFor_some hc).2.2.1
  | large hc hs hx => exact hs.symm.le
  | block order hc h0 ho hs hx =>
    rw [hs]
    exact le_trans (le_divCeil_mul A.pageSize_pos)
      (Nat.mul_le_mul_right _ (Buddy.le_of_orderFor ho))

end Routed

/-- The grants are what the three parts say is held, once each. -/
structure Books (O R B : Finset Extent) (live : List (Grant A)) : Prop where
  nodup : (live.map Grant.extent).Nodup
  held : ∀ x ∈ O ∪ (R ∪ B), ∃ g ∈ live, g.extent = x
  routed : ∀ g ∈ live, Routed O R B g

namespace Books

variable {live : List (Grant A)}

theorem nil : Books ∅ ∅ ∅ ([] : List (Grant A)) := ⟨nodup_nil, by simp, by simp⟩

variable (hb : Books O R B live)

include hb

/-- The bytes charged are the bytes held. -/
theorem size_eq : size (O ∪ (R ∪ B)) = (live.map Grant.charge).sum := by
  have hset : O ∪ (R ∪ B) = (live.map Grant.extent).toFinset := by
    ext x
    rw [List.mem_toFinset, List.mem_map]
    refine ⟨hb.held x, fun hex => ?_⟩
    obtain ⟨g, hg, rfl⟩ := hex
    exact (hb.routed g hg).mem
  rw [hset, size, List.sum_toFinset _ hb.nodup, List.map_map]
  rfl

/-- One more grant. -/
theorem cons (hO : O ⊆ O') (hR : R ⊆ R') (hB : B ⊆ B') (hnew : g.extent ∉ O ∪ (R ∪ B))
    (hall : O' ∪ (R' ∪ B') ⊆ insert g.extent (O ∪ (R ∪ B))) (hg : Routed O' R' B' g) :
    Books O' R' B' (g :: live) where
  nodup := by
    rw [List.map_cons, List.nodup_cons]
    refine ⟨fun hmem => hnew ?_, hb.nodup⟩
    obtain ⟨g', hg', he⟩ := List.mem_map.mp hmem
    rw [← he]
    exact (hb.routed g' hg').mem
  held := by
    intro x hx
    rcases mem_insert.mp (hall hx) with rfl | hx
    · exact ⟨g, List.mem_cons_self .., rfl⟩
    · obtain ⟨g', hg', he⟩ := hb.held x hx
      exact ⟨g', List.mem_cons_of_mem _ hg', he⟩
  routed := List.forall_mem_cons.mpr
    ⟨hg, fun g' hg' => (hb.routed g' hg').mono (fun h => hO h) (fun h => hR h) fun h => hB h⟩

/-- One grant less. -/
theorem erase (hg : g ∈ live) : Books (O.erase g.extent) (R.erase g.extent) (B.erase g.extent) (live.erase g) where
  nodup := hb.nodup.sublist ((erase_sublist ..).map _)
  held := by
    intro x hx
    rw [← erase_union_distrib, ← erase_union_distrib] at hx
    obtain ⟨hne, hx⟩ := mem_erase.mp hx
    obtain ⟨g', hg', rfl⟩ := hb.held x hx
    exact ⟨g', (mem_erase_of_ne fun he : g' = g => hne (by rw [he])).mpr hg', rfl⟩
  routed := by
    intro g' hg'
    have hnd : live.Nodup := hb.nodup.of_map _
    obtain ⟨hne, hmem⟩ := (hnd.mem_erase_iff).mp hg'
    have hext : g'.extent ≠ g.extent := fun he =>
      hne (inj_on_of_nodup_map hb.nodup hmem hg he)
    have hin {s : Finset Extent} (hs : g'.extent ∈ s) : g'.extent ∈ s.erase g.extent := mem_erase.mpr ⟨hext, hs⟩
    exact (hb.routed g' hmem).mono hin hin hin

end Books

end Kintane
