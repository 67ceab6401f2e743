import Kintane.Kalloc.HeapProof

/-!
# What the heap's operations do

Each operation keeps `Holds`: some `R` and `B` make the parts and the books agree. An
allocation that is refused leaves the grants as they were, whatever it took from the
frame source on the way; one that is served adds a single grant. A grant that is given
back is always accepted.

The frame source may hand out whatever it likes as long as `Fresh` holds of it: no frame
twice, and none of the attached run.
-/

open Finset

namespace Kintane.Heap

open Extent Slab List DirectMap

variable {A : Arch} {σ : Type} {h h' : Heap A} {H H' taken : List (FrameRange A)} {R B : Finset Extent}
  {live : List (Grant A)} {g : Grant A} {cls p virt order : Nat} {runs : σ → List (FrameRange A)} {cfg : Build}
  {src src' : σ} {layout : Layout A} {r : Except AllocError Nat} {m : DirectMap A} {slab : Slab}
  {L L' : Nat → List Nat} {U : Finset Dyad} {b c : Buddy A} {run : FrameRange A}

/-- What the heap charges for a block at `ptr`: its class, its whole block, or its size. -/
def charge (h : Heap A) (ptr : Nat) (layout : Layout A) : Nat :=
  match classFor layout with
  | some cls => cls
  | none =>
    match h.pageOf ptr, orderFor A (divCeil layout.size A.pageSize) with
    | some _, some order => blockPages order * A.pageSize
    | _, _ => layout.size

/-- The heap has been given the frames of `H`, and `live` is what callers hold. -/
def Holds (h : Heap A) (H : List (FrameRange A)) (live : List (Grant A)) : Prop :=
  ∃ R B, Core h H R B ∧ Books (objs h.slab.blocks) R B live

/-- What the heap would charge now is what it charged. -/
theorem Core.charge_eq (hc : Core h H R B)
    (hr : Routed (objs h.slab.blocks) R B g) : h.charge g.ptr g.layout = g.charge := by
  have hpos : 0 < g.charge := hc.packed.pos _ hr.mem
  unfold charge
  cases hr with
  | object hcls hx => simp only [hcls]
  | degraded hcls hx => simp only [hcls]
  | large hcls hs hx =>
    have hpage := hc.pageOf_arena (mem_union_left _ hx) (a := g.ptr)
      ⟨le_rfl, by simp only [Grant.extent]; omega⟩
    simp only [hcls, hpage, hs]
  | block order hcls h0 ho hs hx =>
    rcases hc.pages.cases with ⟨-, rfl⟩ | ⟨b, virt, L, U, hsome, hat, rfl⟩
    · exact absurd hx (notMem_empty _)
    obtain ⟨d, hd, he⟩ := mem_image.mp hx
    obtain ⟨frame, hpage, -⟩ := pageOf_block hsome hat hd
    rw [(Prod.mk.inj he).1] at hpage
    simp only [hcls, hpage, ho, hs, blockPages]

structure Fresh (h : Heap A) (H rs : List (FrameRange A)) : Prop where
  apart : (H ++ rs).Pairwise FrameRange.Apart
  attached : ∀ b, h.pages = some b → ∀ run ∈ rs, run.Apart b.run

/-- The attached run, if any, is the one that was attached before. -/
def SameRun (h h' : Heap A) : Prop :=
  ∀ b', h'.pages = some b' → ∃ b, h.pages = some b ∧ b'.run = b.run

theorem SameRun.of_pages (hp : h'.pages = h.pages) : SameRun h h' :=
  fun b' hb' => ⟨b', hp ▸ hb', rfl⟩

theorem Fresh.rest {rest : List (FrameRange A)} (hf : Fresh h H (taken ++ rest)) (hrun : SameRun h h') :
    Fresh h' (H ++ taken) rest where
  apart := by rw [append_assoc]; exact hf.apart
  attached := by
    intro b' hb' run hrun'
    obtain ⟨b, hb, he⟩ := hrun b' hb'
    rw [he]
    exact hf.attached b hb run (mem_append_right _ hrun')

theorem Fresh.congr {rs : List (FrameRange A)} (hf : Fresh h H rs) (he : h'.bare = h.bare) : Fresh h' H rs := by
  have hpages : h'.pages = h.pages := read_bare he pages fun _ => rfl
  exact ⟨hf.apart, hpages ▸ hf.attached⟩

/-- What a request for `layout` leaves behind. Only a block of the attached pages needs the
map's help to be aligned. -/
inductive Outcome (m : DirectMap A) (h' : Heap A) (H' : List (FrameRange A))
    (live : List (Grant A)) (layout : Layout A) : Except AllocError Nat → Prop
  | refused (e : AllocError) (hh : Holds h' H' live) : Outcome m h' H' live layout (.error e)
  | granted (p : Nat) (hh : Holds h' H' (⟨p, layout, h'.charge p layout⟩ :: live))
      (ha : m.KeepsPages ∨ h'.pageOf p = none → layout.align ∣ p) : Outcome m h' H' live layout (.ok p)

/-- `Holds` looks at the three allocators only. -/
theorem Holds.congr (hh : Holds h H live) (he : h'.bare = h.bare) : Holds h' H live := by
  obtain ⟨R, B, hc, hb⟩ := hh
  have hslab : h'.slab = h.slab := read_bare he slab fun _ => rfl
  exact ⟨R, B, hc.congr he, hslab ▸ hb⟩

/-- A grant the parts and the books agree on serves its request. -/
theorem Outcome.of_books (hc : Core h H R B) (hb : Books (objs h.slab.blocks) R B (g :: live))
    (ha : m.KeepsPages ∨ h.pageOf g.ptr = none → g.layout.align ∣ g.ptr) :
    Outcome m h H live g.layout (.ok g.ptr) := by
  refine .granted g.ptr ⟨R, B, hc, ?_⟩ ha
  rw [hc.charge_eq (hb.routed g mem_cons_self)]
  exact hb

theorem Outcome.congr (ho : Outcome m h H live layout r) (he : h'.bare = h.bare) : Outcome m h' H live layout r := by
  cases ho with
  | refused e hh => exact .refused e (hh.congr he)
  | granted p hh ha =>
    have hpage : h'.pageOf p = h.pageOf p := read_bare he (pageOf · p) fun _ => rfl
    have hcharge : h'.charge p layout = h.charge p layout := read_bare he (charge · p layout) fun _ => rfl
    exact .granted p (hcharge ▸ hh.congr he) (hpage ▸ ha)

/-- What became of a request: frames were drawn from the source, and the map and the attached run stay. -/
def Serves (runs : σ → List (FrameRange A)) (h : Heap A) (H : List (FrameRange A)) (live : List (Grant A))
    (layout : Layout A) (src : σ) (out : Heap A × σ × Except AllocError Nat) : Prop :=
  ∃ taken, runs src = taken ++ runs out.2.1 ∧ out.1.map = h.map ∧ SameRun h out.1 ∧
    Outcome h.map out.1 (H ++ taken) live layout out.2.2

theorem Serves.congr {out : Heap A × σ × Except AllocError Nat} (hs : Serves runs h' H live layout src out)
    (he : h'.bare = h.bare) : Serves runs h H live layout src out := by
  obtain ⟨taken, hruns, hmap, hrun, hout⟩ := hs
  have hmap' : h'.map = h.map := read_bare he Heap.map fun _ => rfl
  have hpages : h'.pages = h.pages := read_bare he Heap.pages fun _ => rfl
  exact ⟨taken, hruns, hmap.trans hmap', fun b hb => hpages ▸ hrun b hb, hmap' ▸ hout⟩

/-- A request that goes no further. -/
theorem Serves.refuse {e : AllocError} (hh : Holds h H live) (he : h'.bare = h.bare) :
    Serves runs h H live layout src (h', src, .error e) := by
  refine ⟨[], rfl, read_bare he map fun _ => rfl, .of_pages (read_bare he pages fun _ => rfl), .refused e ?_⟩
  rw [append_nil]
  exact hh.congr he

/-! ## The arena -/

variable [FrameSource A σ]

/-- The arena moved on: the frames of `H'` are the heap's, and nothing else changed. -/
structure Grew (h h' : Heap A) (H' : List (FrameRange A)) (B : Finset Extent) : Prop where
  map : h'.map = h.map
  slab : h'.slab = h.slab
  pages : h'.pages = h.pages
  bump : h'.bump.map = h'.map
  held : h'.Pages H' B

theorem Pages.mono (hp : h.Pages H B) (hmap : h'.map = h.map)
    (hpages : h'.pages = h.pages) (hnew : ∀ b, h.pages = some b → ∀ run ∈ taken, run.Apart b.run) :
    h'.Pages (H ++ taken) B := by
  rcases hp.cases with ⟨hb, rfl⟩ | ⟨b, virt, L, U, hb, hat, rfl⟩
  · unfold Pages
    rw [hpages, hb]
  unfold Pages
  rw [hpages, hb, hmap]
  exact ⟨virt, L, U, { hat with apart := forall_mem_append.mpr ⟨hat.apart, hnew b hb⟩ }, rfl⟩

/-- One request to the arena. -/
theorem Core.allocArena (hd : FrameSource.Draws A runs) (hc : Core h H R B)
    (hf : Fresh h H (runs src)) (ha : h.allocArena cfg layout src = (h', src', r)) :
    ∃ taken, runs src = taken ++ runs src' ∧ Grew h h' (H ++ taken) B ∧
      ((∃ e, r = .error e ∧
          Bump.Inv h'.bump (H ++ taken) (R ∪ extents h.slab.blocks)) ∨
        ∃ p, r = .ok p ∧ layout.align ∣ p ∧
          (∀ x ∈ R ∪ extents h.slab.blocks, Apart (p, layout.size) x) ∧ 0 < layout.size ∧
          Bump.Inv h'.bump (H ++ taken)
            (insert (p, layout.size) (R ∪ extents h.slab.blocks))) := by
  unfold Heap.allocArena at ha
  generalize hbump : h.bump.tryAllocIn layout (⟨cfg.faultInject, src, h.inject⟩ : Injected σ) = out
    at ha
  obtain ⟨bump, s, r'⟩ := out
  cases ha
  obtain ⟨taken, hruns, hmap, hcase⟩ :=
    hc.arena.tryAllocIn (Injected.draws hd) hf.apart hbump
  have hpages : ({ h with bump := bump, inject := s.inject } : Heap A).Pages (H ++ taken) B :=
    hc.pages.mono rfl rfl fun b hb run hrun =>
      hf.attached b hb run (by rw [show runs src = taken ++ _ from hruns]; exact mem_append_left _ hrun)
  exact ⟨taken, hruns, ⟨rfl, rfl, rfl, hmap.trans hc.map, hpages⟩, hcase⟩

/-- The arena grew, and served nothing. -/
theorem Core.grown (hc : Core h H R B) (hg : Grew h h' H' B)
    (hinv : Bump.Inv h'.bump H' (R ∪ extents h.slab.blocks)) : Core h' H' R B :=
  ⟨hg.bump, hg.slab ▸ hinv, hg.slab ▸ hc.direct, by rw [hg.slab, hg.map]; exact hc.slab, hg.held⟩

/-- A block the arena serves directly is a grant. -/
theorem Core.grant (hc : Core h H R B)
    (hb : Books (objs h.slab.blocks) R B live) (hg : Grew h h' H' B) (hpos : 0 < g.charge)
    (hap : ∀ x ∈ R ∪ extents h.slab.blocks, Apart g.extent x)
    (hinv : Bump.Inv h'.bump H' (insert g.extent (R ∪ extents h.slab.blocks)))
    (hroute : Routed (objs h.slab.blocks) (insert g.extent R) B g) :
    Core h' H' (insert g.extent R) B ∧
      Books (objs h'.slab.blocks) (insert g.extent R) B (g :: live) := by
  have hnew : g.extent ∉ R ∪ extents h.slab.blocks := Packed.not_mem hpos hap
  have hcore : Core h' H' (insert g.extent R) B :=
    { map := hg.bump
      arena := by rw [hg.slab, insert_union]; exact hinv
      direct := by
        rw [hg.slab, disjoint_insert_left]
        exact ⟨fun hx => hnew (mem_union_right _ hx), hc.direct⟩
      slab := by rw [hg.slab, hg.map]; exact hc.slab
      pages := hg.held }
  refine ⟨hcore, ?_⟩
  rw [hg.slab]
  refine hb.cons subset_rfl (subset_insert _ _) subset_rfl ?_ ?_ hroute
  · -- it is none of the slab's objects and none of the buddy's blocks
    have hobjs := disjoint_right.mp hcore.objs_disjoint
      (mem_union_left _ (mem_insert_self g.extent R))
    have hblocks := disjoint_left.mp hcore.direct_disjoint (mem_insert_self g.extent R)
    rw [hg.slab] at hobjs
    simp only [mem_union, not_or] at hnew ⊢
    exact ⟨hobjs, hnew.1, hblocks⟩
  · rw [insert_union, union_insert]

/-- A request the arena is asked for, at a size and an alignment that serve it. -/
theorem Holds.allocArena {direct : Layout A} (hd : FrameSource.Draws A runs) (hh : Holds h H live)
    (hf : Fresh h H (runs src)) (halign : layout.align ∣ direct.align)
    (hroute : ∀ p O R B, (p, direct.size) ∈ R → Routed O R B ⟨p, layout, direct.size⟩) :
    Serves runs h H live layout src (h.allocArena cfg direct src) := by
  obtain ⟨R, B, hc, hb⟩ := hh
  rcases ha : h.allocArena cfg direct src with ⟨h', src', r⟩
  obtain ⟨taken, hruns, hg, hcase⟩ := hc.allocArena hd hf ha
  refine ⟨taken, hruns, hg.map, .of_pages hg.pages, ?_⟩
  rcases hcase with ⟨e, rfl, hinv⟩ | ⟨p, rfl, hal, hap, hpos, hinv⟩
  · exact .refused e ⟨R, B, hc.grown hg hinv, hg.slab ▸ hb⟩
  · obtain ⟨hcore, hbooks⟩ := hc.grant (g := ⟨p, layout, direct.size⟩) hb hg hpos hap hinv
      (hroute p _ _ _ (mem_insert_self _ _))
    exact .of_books hcore hbooks fun _ => halign.trans hal

/-! ## Small objects -/

/-- What becomes of a small request the slab could not serve. -/
theorem Holds.allocDirect (hd : FrameSource.Draws A runs) (hh : Holds h H live) (hf : Fresh h H (runs src))
    (hcls : classFor layout = some cls) : Serves runs h H live layout src (h.allocDirect cfg cls src) := by
  obtain ⟨hmem, -, -, hdvd⟩ := classFor_some hcls
  have hle : cls ≤ 4096 := (by decide : ∀ c ∈ classSizes, c ≤ 4096) cls hmem
  obtain ⟨direct, hdirect, hsize, halign⟩ := fromSizeAlign_class (A := A) hmem hle
  simp only [Heap.allocDirect, hdirect]
  refine hh.allocArena hd hf (halign.symm ▸ hdvd) fun p O R B hx => .degraded ?_ hx
  rw [hsize]
  exact hcls

/-- The slab hands out an object it holds. -/
theorem Core.allocObject (hc : Core h H R B)
    (hb : Books (objs h.slab.blocks) R B live) (hcls : classFor layout = some cls)
    (hslab : Slab.Inv h.map slab) (hext : extents slab.blocks = extents h.slab.blocks)
    (hobjs : objs slab.blocks = insert (p, cls) (objs h.slab.blocks))
    (hnew : (p, cls) ∉ objs h.slab.blocks) (hdvd : cls ∣ p) :
    Outcome h.map { h with slab := slab } H live layout (.ok p) := by
  have hcore : Core { h with slab := slab } H R B :=
    { map := hc.map
      arena := by simp only [hext]; exact hc.arena
      direct := by simp only [hext]; exact hc.direct
      slab := hslab
      pages := hc.pages }
  obtain ⟨-, -, -, hal⟩ := classFor_some hcls
  have hmem : (p, cls) ∈ objs slab.blocks := by rw [hobjs]; exact mem_insert_self _ _
  refine .of_books (g := ⟨p, layout, cls⟩) hcore ?_ fun _ => dvd_trans hal hdvd
  refine hb.cons ?_ subset_rfl subset_rfl ?_ ?_ ?_
  · simp only [hobjs]; exact subset_insert _ _
  · rw [mem_union, not_or]
    exact ⟨hnew, disjoint_left.mp hcore.objs_disjoint hmem⟩
  · simp only [hobjs, Grant.extent, insert_union]
    exact subset_rfl
  · exact .object hcls hmem

/-- A block the arena served becomes the slab's. -/
theorem Core.addBlock (hc : Core h H R B)
    (hcls : cls ∈ classSizes) (hroom : h.slab.hasRoom = true) (hg : Grew h h' H' B) (hal : cls ∣ p)
    (hap : ∀ x ∈ R ∪ extents h.slab.blocks, Apart (p, cls * objectsPerBlock cls) x)
    (hpos : 0 < cls * objectsPerBlock cls)
    (hinv : Bump.Inv h'.bump H' (insert (p, cls * objectsPerBlock cls)
      (R ∪ extents h.slab.blocks))) :
    ∃ slab, h'.slab.addBlock cls p h'.map = .ok slab ∧ Core { h' with slab := slab } H' R B ∧
      objs slab.blocks = objs h.slab.blocks := by
  have hmem := mem_insert_self (p, cls * objectsPerBlock cls)
    (R ∪ extents h.slab.blocks)
  have hslabInv : Slab.Inv h'.map h'.slab := by rw [hg.slab, hg.map]; exact hc.slab
  obtain ⟨slab, heq, hinv', hext, hobjs⟩ := hslabInv.addBlock (hg.slab ▸ hroom) hcls hal
    (hinv.nonnull _ hmem) (fun i hi => hg.bump ▸ hinv.maps hmem hi) (hinv.end_le hmem)
    (fun x hx => hap x (mem_union_right _ (hg.slab ▸ hx)))
  refine ⟨slab, heq, ⟨hg.bump, ?_, ?_, hinv', hg.held⟩, hg.slab ▸ hobjs⟩
  · simp only [hext, hg.slab, union_insert]
    exact hinv
  · simp only [hext, hg.slab]
    rw [disjoint_insert_right]
    exact ⟨fun hx => Packed.not_mem hpos hap (mem_union_left _ hx), hc.direct⟩

/-- **Small requests.** -/
theorem Holds.allocSmall (hd : FrameSource.Draws A runs) (hh : Holds h H live) (hf : Fresh h H (runs src))
    (hcls : classFor layout = some cls) : Serves runs h H live layout src (h.allocSmall cfg cls src) := by
  have hmem := (classFor_some hcls).1
  -- what a small request comes to that the slab has no room for
  have direct (h1 : Heap A) (he : h1.bare = h.bare) : Serves runs h H live layout src (h1.allocDirect cfg cls src) :=
    ((hh.congr he).allocDirect hd (hf.congr he) hcls).congr he
  obtain ⟨R, B, hc, hb⟩ := hh
  unfold Heap.allocSmall
  rcases hc.slab.tryTake cls with heq | ⟨slab, p, heq, hinv, hext, hobjs, hnew, hdvd⟩
  · rw [heq]
    simp only
    by_cases hroom : h.slab.hasRoom = true
    · obtain ⟨block, hblock, hsize, halign⟩ := blockLayout_class (A := A) hmem
      rw [if_pos hroom, hblock]
      simp only [Heap.allocBlock]
      generalize h.inject.trip cfg.faultInject .slabBlock = tripped
      obtain ⟨inject, fail⟩ := tripped
      cases fail with
      | true => exact direct _ rfl
      | false =>
        have hc1 : Core { h with inject := inject } H R B := hc.congr rfl
        simp only [Bool.false_eq_true, if_false]
        rcases hal : ({ h with inject := inject } : Heap A).allocArena cfg block src with ⟨h1, s1, got⟩
        obtain ⟨taken, hruns, hg, hcase⟩ := hc1.allocArena hd (hf.congr rfl) hal
        rcases hcase with ⟨e, rfl, hinv⟩ | ⟨p, rfl, hdvd, hap, hpos, hinv⟩
        · -- the arena could not spare a block
          have hsame : SameRun h h1 := .of_pages hg.pages
          have hserves : Serves runs h1 (H ++ taken) live layout s1 (h1.allocDirect cfg cls s1) :=
            Holds.allocDirect hd ⟨R, B, hc1.grown hg hinv, by rw [hg.slab]; exact hb⟩ (Fresh.rest (hruns ▸ hf) hsame) hcls
          obtain ⟨taken', hruns', hmap', hrun', hout⟩ := hserves
          refine ⟨taken ++ taken', by rw [hruns, hruns', append_assoc], hmap'.trans hg.map, fun b' hb' => ?_, ?_⟩
          · obtain ⟨b, hb1, he⟩ := hrun' b' hb'
            exact ⟨b, hg.pages ▸ hb1, he⟩
          · rw [← append_assoc]
            exact hg.map ▸ hout
        · rw [hsize] at hap hpos hinv
          obtain ⟨slab, hadd, hc2, hobjs⟩ := hc1.addBlock hmem hroom hg (halign ▸ hdvd) hap hpos hinv
          have hb2 : Books (objs slab.blocks) R B live := by rw [hobjs]; exact hb
          simp only
          rw [hadd]
          refine ⟨taken, hruns, hg.map, .of_pages hg.pages, ?_⟩
          simp only
          rcases hc2.slab.tryTake cls with heq2 | ⟨slab2, p2, heq2, hinv2, hext2, hobjs2, hnew2, hdvd2⟩ <;>
            simp only at heq2 <;> rw [heq2]
          · exact .refused _ ⟨R, B, hc2, hb2⟩
          · exact hg.map ▸ hc2.allocObject hb2 hcls hinv2 hext2 hobjs2 hnew2 hdvd2
    · rw [if_neg hroom]
      exact direct _ rfl
  · rw [heq]
    refine ⟨[], rfl, rfl, .of_pages rfl, ?_⟩
    rw [append_nil]
    exact hc.allocObject hb hcls hinv hext hobjs hnew hdvd

/-! ## Large blocks -/

/-- The buddy allocator moved on to other blocks of the same run. -/
theorem Core.withPages {U' : Finset Dyad}
    (hc : Core h H R B) (hat : Attached h.map H b virt L U) (hinv : Buddy.Inv c L' U')
    (hrun : c.run = b.run) (hnull : ∀ d ∈ U', virt + d.start * A.pageSize ≠ 0) :
    Attached h.map H c virt L' U' ∧
      Core { h with pages := some c } H R (U'.image (blockExtent A virt)) := by
  have hat' : Attached h.map H c virt L' U' :=
    ⟨hinv, by rw [hrun]; exact hat.shown, by rw [hrun]; exact hat.apart, hnull⟩
  exact ⟨hat', { hc with pages := ⟨virt, L', U', hat', rfl⟩ }⟩

/-- A block the buddy allocator handed out becomes a pointer, or goes back. -/
theorem Core.handOutPages (cfg : Build) (layout : Layout A)
    {range : FrameRange A} (hc : Core h H R (U.image (blockExtent A virt)))
    (hb : Books (objs h.slab.blocks) R (U.image (blockExtent A virt)) live)
    (hat : Attached h.map H b virt L U) (hcls : classFor layout = none)
    (hsize : 0 < layout.size) (hal : layout.align ≤ A.pageSize)
    (ho : orderFor A (divCeil layout.size A.pageSize) = some order)
    (hnew : (⟨p, order⟩ : Dyad) ∉ U) (hinv : Buddy.Inv c L' (insert ⟨p, order⟩ U))
    (hrun : c.run = b.run) (hcov : Buddy.Covers c range ⟨p, order⟩) :
    ∃ h' r c', ({ h with pages := some c } : Heap A).handOutPages cfg range = .ret (h', r) ∧
      h'.map = h.map ∧ h'.pages = some c' ∧ c'.run = b.run ∧
      Outcome h.map h' H live layout r := by
  have hbase : c.base = b.base := by rw [hinv.base, hat.inv.base, hrun]
  have hlt : p < b.pages := by
    have := hinv.settled.start_lt (hinv.settled.used_sub (mem_insert_self _ _))
    rwa [hinv.pages, hrun, ← hat.inv.pages] at this
  have hmaps : h.map.Maps range.start.start (virt + p * A.pageSize) := by
    have := hat.shown.maps (i := p * A.pageSize)
      (Nat.mul_lt_mul_of_pos_right (hat.inv.pages ▸ hlt) A.pageSize_pos)
    rwa [range.start.start_eq, hcov.1, hbase, hat.inv.base, add_mul, ← b.run.start.start_eq]
  unfold Heap.handOutPages ptrToPhys
  simp only [toVirt_eq_ok.mpr hmaps]
  by_cases hnull : virt + p * A.pageSize = 0
  · have hptr : h.map.ptrAt (virt + p * A.pageSize) = .error .unmanaged := by
      unfold ptrAt
      split <;> rfl
    rw [hptr]
    obtain ⟨c', L'', hfree, hinv', hrun'⟩ :=
      hinv.free_ok cfg.checked (mem_insert_self _ _) hcov
    rw [erase_insert hnew] at hinv'
    rw [hfree]
    have hcr : c'.run = b.run := hrun'.trans hrun
    obtain ⟨-, hcore⟩ := hc.withPages hat hinv' hcr hat.nonnull
    exact ⟨_, _, c', rfl, rfl, rfl, hcr, .refused _ ⟨R, _, hcore, hb⟩⟩
  · rw [ptrAt_of_maps hmaps hnull]
    obtain ⟨hat', hcore⟩ := hc.withPages hat hinv hrun ((forall_mem_insert ..).mpr ⟨hnull, hat.nonnull⟩)
    rw [image_insert] at hcore
    obtain ⟨frame, hpage, -⟩ := pageOf_block (h := { h with pages := some c }) rfl hat'
      (mem_insert_self _ _)
    refine ⟨_, _, c, rfl, rfl, rfl, hrun,
      .of_books (g := ⟨virt + p * A.pageSize, layout, 2 ^ order * A.pageSize⟩) hcore ?_ fun hk => ?_⟩
    · have hmem := mem_insert_self (blockExtent A virt ⟨p, order⟩)
        (U.image (blockExtent A virt))
      refine hb.cons subset_rfl subset_rfl (subset_insert _ _) ?_ ?_ (.block order hcls hsize ho rfl hmem)
      · simp only [mem_union, not_or]
        refine ⟨disjoint_right.mp hcore.objs_disjoint (mem_union_right _ hmem),
          disjoint_right.mp hcore.direct_disjoint hmem, fun hx => ?_⟩
        obtain ⟨d, hd, he⟩ := mem_image.mp hx
        have he : blockExtent A virt d = blockExtent A virt ⟨p, order⟩ := he
        exact hnew (Attached.block_inj he ▸ hd)
      · rw [union_insert, union_insert]
        exact subset_rfl
    · have hk := hk.resolve_right fun hnone => by cases hpage.symm.trans hnone
      refine dvd_trans ?_ (hmaps.page_dvd hk range.start.aligned)
      obtain ⟨k, hk'⟩ := isPowerOfTwo_iff.mp layout.align_pow
      rw [hk', Arch.pageSize] at hal ⊢
      exact Nat.pow_dvd_pow 2 ((Nat.pow_le_pow_iff_right (by decide)).mp hal)

/-- **Large requests.** -/
theorem Holds.allocLarge (cfg : Build) (hd : FrameSource.Draws A runs) (hh : Holds h H live)
    (hf : Fresh h H (runs src)) (hcls : classFor layout = none) (hsize : 0 < layout.size) :
    ∃ out, h.allocLarge cfg layout src = .ret out ∧ Serves runs h H live layout src out := by
  -- wherever the request ends up with the arena
  have arena (h1 : Heap A) (he : h1.bare = h.bare) :
      Serves runs h H live layout src (h1.allocArena cfg layout src) :=
    ((hh.congr he).allocArena hd (hf.congr he) (dvd_refl _) fun _ _ _ _ hx => .large hcls rfl hx).congr he
  obtain ⟨R, B, hc, hb⟩ := hh
  unfold Heap.allocLarge
  by_cases hal : layout.align ≤ A.pageSize
  · rw [if_pos hal]
    rcases hc.pages.cases with ⟨hnone, -⟩ | ⟨b, virt, L, U, hsome, hat, rfl⟩
    · rw [hnone]
      exact ⟨_, rfl, arena h rfl⟩
    rw [hsome]
    generalize h.inject.trip cfg.faultInject .pages = tripped
    obtain ⟨inject, fail⟩ := tripped
    -- a refusal of the buddy's leaves it as it was
    have refused (e : AllocError) : ∃ out,
        (if e = .exhausted ∨ e = .fragmented then
          Call.ret (({ h with
              inject := inject
              pages := some b
              pagesOverflow := satAdd u64Max h.pagesOverflow 1 } : Heap A).allocArena cfg layout src)
        else .ret (({ h with inject := inject, pages := some b } : Heap A), src, .error e)) = .ret out ∧
          Serves runs h H live layout src out := by
      by_cases he : e = .exhausted ∨ e = .fragmented
      · rw [if_pos he]
        exact ⟨_, rfl, arena _ (by simp only [bare, hsome])⟩
      · rw [if_neg he]
        exact ⟨_, rfl, .refuse ⟨R, _, hc, hb⟩ (by simp only [bare, hsome])⟩
    cases fail with
    | true => exact refused .exhausted
    | false =>
      simp only [Bool.false_eq_true, if_false]
      rcases Buddy.allocPages_cases cfg.checked b (divCeil layout.size A.pageSize) with
        ⟨e, heq⟩ | ⟨order, ho, heq⟩
      · rw [heq]
        exact refused e
      rw [heq]
      rcases Buddy.allocOrder_spec hat.inv cfg.checked order with
        ⟨e, heq', -⟩ | ⟨p, c, L', hnew, hinv, hrun, ⟨range, heq', hcov⟩ | ⟨heq', hout⟩⟩
      · rw [heq']
        exact refused e
      · rw [heq']
        have hc1 : Core { h with inject := inject } H R (U.image (blockExtent A virt)) := hc.congr rfl
        obtain ⟨h', r, c', hhand, hmap, hpages, hcr, hout⟩ :=
          hc1.handOutPages cfg layout hb hat hcls hsize hal ho hnew hinv hrun hcov
        simp only [Call.bind, hhand]
        refine ⟨_, rfl, [], rfl, hmap, fun b' hb' => ⟨b, hsome, ?_⟩, ?_⟩
        · rw [hpages] at hb'
          rw [← Option.some.inj hb', hcr]
        · rw [append_nil]
          exact hout
      · -- a block past the top of memory: not in a run the window shows
        refine absurd (hat.inAddressSpace.number_mul_lt ?_) (hat.inv.base ▸ hout)
        have := hinv.settled.start_lt (hinv.settled.used_sub (mem_insert_self _ _))
        rwa [hinv.pages, hrun] at this
  · rw [if_neg hal]
    exact ⟨_, rfl, arena h rfl⟩

/-- **One request.** It is refused and nothing is granted, or it is served by one grant. -/
theorem Holds.tryAllocIn (cfg : Build) (hd : FrameSource.Draws A runs) (src : σ)
    (hh : Holds h H live) (hf : Fresh h H (runs src)) (layout : Layout A) (ctx : AllocContext) :
    ∃ out, h.tryAllocIn cfg layout ctx src = .ret out ∧ Serves runs h H live layout src out := by
  unfold Heap.tryAllocIn
  rw [layout.check_eq]
  by_cases h0 : layout.size = 0
  · rw [if_pos h0]
    exact ⟨_, rfl, .refuse hh rfl⟩
  rw [if_neg h0]
  simp only
  -- the counters and the injector
  generalize hcount : (if ctx.isBestEffort then
    { h with constrained := satAdd u64Max h.constrained 1 } else h) = h1
  have hsame : h1.bare = h.bare := by
    rw [← hcount]
    split <;> rfl
  generalize h1.inject.trip cfg.faultInject .entry = tripped
  obtain ⟨inject, fail⟩ := tripped
  cases fail with
  | true => exact ⟨_, rfl, .refuse hh hsame⟩
  | false =>
    generalize hinj : ({ h1 with inject := inject } : Heap A) = h2
    have hsame2 : h2.bare = h.bare := by rw [← hinj]; exact hsame
    have hh2 := hh.congr hsame2
    have hf2 := hf.congr hsame2
    -- counting what became of the request touches none of the allocators
    have finish (out : Heap A × σ × Except AllocError Nat) (hs : Serves runs h2 H live layout src out) :
        Serves runs h H live layout src (out.1.settle out.2.2, out.2.1, out.2.2) := by
      obtain ⟨h', src', r⟩ := out
      obtain ⟨taken, hruns, hmap, hrun, hout⟩ := hs.congr hsame2
      have settled : (h'.settle r).bare = h'.bare := by cases r <;> rfl
      refine ⟨taken, hruns, (read_bare settled map fun _ => rfl).trans hmap, fun b' hb' => ?_, hout.congr settled⟩
      exact hrun b' ((read_bare settled pages fun _ => rfl).symm.trans hb')
    cases hcls : classFor layout with
    | some cls => exact ⟨_, rfl, finish _ (hh2.allocSmall hd hf2 hcls)⟩
    | none =>
      obtain ⟨out, heq, hs⟩ := hh2.allocLarge cfg hd hf2 hcls (pos_of_ne_zero h0)
      simp only [heq, Call.bind]
      exact ⟨_, rfl, finish out hs⟩

/-! ## Freeing -/

section

variable (hc : Core h H R B) (hb : Books (objs h.slab.blocks) R B live) (hg : g ∈ live)

include hc hb hg

/-- The arena takes back a block it serves directly. -/
theorem Core.deallocArena (hR : g.extent ∈ R) (hs : layout.size = g.charge) :
    ∃ h', h.deallocArena g.ptr layout = (h', .ok ()) ∧ h'.map = h.map ∧ h'.pages = h.pages ∧
      Holds h' H (live.erase g) := by
  have hmem : (g.ptr, layout.size) ∈ R ∪ extents h.slab.blocks := by
    rw [hs]; exact mem_union_left _ hR
  obtain ⟨bump, heq, hmap, hinv⟩ := hc.arena.dealloc hmem
  have hnot : g.extent ∉ extents h.slab.blocks := fun hx =>
    disjoint_left.mp hc.direct hR hx
  unfold Heap.deallocArena
  rw [heq]
  refine ⟨_, rfl, rfl, rfl, R.erase g.extent, B, ⟨hmap.trans hc.map, ?_, ?_, hc.slab, hc.pages⟩, ?_⟩
  · have : (R ∪ extents h.slab.blocks).erase (g.ptr, layout.size) =
        R.erase g.extent ∪ extents h.slab.blocks := by
      rw [hs, erase_union_distrib, ← Grant.extent, erase_eq_of_notMem hnot]
    rw [this] at hinv
    exact hinv
  · exact disjoint_of_subset_left (erase_subset _ _) hc.direct
  · have hobjs := disjoint_right.mp hc.objs_disjoint (mem_union_left _ hR)
    have hblocks := disjoint_left.mp hc.direct_disjoint hR
    have := hb.erase hg
    rwa [erase_eq_of_notMem hobjs, erase_eq_of_notMem hblocks] at this

/-- The slab takes back one of its objects. -/
theorem Core.deallocObject (hO : g.extent ∈ objs h.slab.blocks) (hinv : Slab.Inv h.map slab)
    (hext : extents slab.blocks = extents h.slab.blocks)
    (hobjs : objs slab.blocks = (objs h.slab.blocks).erase g.extent) :
    Holds { h with slab := slab } H (live.erase g) := by
  refine ⟨R, B, ⟨hc.map, ?_, ?_, hinv, hc.pages⟩, ?_⟩
  · simp only [hext]; exact hc.arena
  · simp only [hext]; exact hc.direct
  · have hother := disjoint_left.mp hc.objs_disjoint hO
    rw [mem_union, not_or] at hother
    have := hb.erase hg
    rwa [← hobjs, erase_eq_of_notMem hother.1, erase_eq_of_notMem hother.2] at this

/-- The buddy allocator takes back one of its blocks. -/
theorem Core.freePages (cfg : Build) (ho : orderFor A (divCeil g.layout.size A.pageSize) = some order)
    (hs : g.charge = 2 ^ order * A.pageSize) (hB : g.extent ∈ B) :
    ∃ frame phys h', h.pageOf g.ptr = some (frame, phys) ∧
      h.freePages cfg frame phys g.layout = .ret (h', .ok ()) ∧ h'.map = h.map ∧ SameRun h h' ∧
      Holds h' H (live.erase g) := by
  rcases hc.pages.cases with ⟨-, rfl⟩ | ⟨b, virt, L, U, hsome, hat, rfl⟩
  · exact absurd hB (notMem_empty _)
  obtain ⟨d, hd, he⟩ := mem_image.mp hB
  obtain ⟨hptr, hcharge⟩ := Prod.mk.inj he
  -- the layout gives the block's order back
  obtain rfl : d.order = order := by
    rw [hs] at hcharge
    exact Nat.pow_right_injective (le_refl 2)
      (Nat.eq_of_mul_eq_mul_right A.pageSize_pos hcharge)
  obtain ⟨frame, hpage, hnum⟩ := pageOf_block hsome hat hd
  have hcount : 0 < blockPages d.order := Nat.two_pow_pos _
  have hfits : frame.number + blockPages d.order ≤ u64Max := by
    have h1 := hat.inv.settled.tiling.inside d (hat.inv.settled.used_sub hd)
    have h2 := b.run.fits
    rw [hat.inv.pages] at h1
    rw [hnum, hat.inv.base, blockPages]
    omega
  have hnew := FrameRange.new_ok (blockPages_le_usizeMax A (orderFor_le ho)) hcount hfits
  obtain ⟨c, L', hfree, hinv, hrun⟩ := hat.inv.free_ok cfg.checked hd
    (r := ⟨frame, blockPages d.order, hcount, blockPages_le_usizeMax A (orderFor_le ho), hfits⟩)
    ⟨hnum, rfl⟩
  refine ⟨frame, frame.start, { h with pages := some c }, hptr ▸ hpage, ?_, rfl, ?_, ?_⟩
  · unfold Heap.freePages
    rw [if_neg (not_not.mpr rfl)]
    split
    · rename_i hno
      cases ho.symm.trans hno
    · rename_i order hor
      cases ho.symm.trans hor
      rw [hnew]
      simp only [hsome, hfree, Call.bind]
  · intro b' hb'
    rw [← Option.some.inj hb']
    exact ⟨b, hsome, hrun⟩
  · obtain ⟨-, hcore⟩ := hc.withPages hat hinv hrun fun e he => hat.nonnull e (mem_of_mem_erase he)
    have hobjs := disjoint_right.mp hc.objs_disjoint (mem_union_right _ hB)
    have hdirect := disjoint_right.mp hc.direct_disjoint hB
    have := hb.erase hg
    rw [erase_eq_of_notMem hobjs, erase_eq_of_notMem hdirect, ← he,
      ← image_erase fun _ _ => Attached.block_inj] at this
    exact ⟨R, _, hcore, this⟩

end

/-- **One free.** A grant given back with its layout is accepted, and only it is gone. -/
theorem Holds.dealloc (cfg : Build) (hh : Holds h H live) (hg : g ∈ live) :
    ∃ h', h.dealloc cfg g.ptr g.layout = .ret (h', .ok ()) ∧ h'.map = h.map ∧ SameRun h h' ∧
      Holds h' H (live.erase g) := by
  obtain ⟨R, B, hc, hb⟩ := hh
  have hroute := hb.routed g hg
  have hpos : 0 < g.charge := hc.packed.pos _ hroute.mem
  have hhead : Within (g.ptr, 1) g.extent := ⟨le_rfl, by simp only [Grant.extent]; omega⟩
  -- the slab does not know what the arena serves directly
  have unknown : g.extent ∈ R → ∀ cls, h.slab.dealloc A g.ptr cls = (h.slab, .error .unmanaged) ∧
      h.slab.owns A g.ptr = false := fun hR cls =>
    hc.slab.dealloc_outside cls fun x hx => (hc.direct_apart hR hx).not_both hhead
  unfold Heap.dealloc
  rw [g.layout.check_eq]
  cases hroute with
  | object hcls hx =>
    have h0 := (classFor_some hcls).2.1
    obtain ⟨slab, heq, hinv, hext, hobjs⟩ := hc.slab.dealloc hx
    rw [if_neg (by omega)]
    simp only [hcls, heq]
    exact ⟨_, rfl, rfl, .of_pages rfl,
      (hc.deallocObject hb hg hx hinv hext hobjs).congr rfl⟩
  | degraded hcls hx =>
    obtain ⟨hmem, h0, -, -⟩ := classFor_some hcls
    have hle : g.charge ≤ 4096 := (by decide : ∀ c ∈ classSizes, c ≤ 4096) _ hmem
    obtain ⟨direct, hdirect, hsize, -⟩ := fromSizeAlign_class (A := A) hmem hle
    obtain ⟨h', heq, hmap, hpages, hh⟩ := hc.deallocArena hb hg hx hsize
    rw [if_neg (by omega)]
    simp only [hcls, (unknown hx g.charge).1, hdirect]
    exact ⟨h', by rw [heq], hmap, .of_pages hpages, hh⟩
  | large hcls hs hx =>
    obtain ⟨h', heq, hmap, hpages, hh⟩ := hc.deallocArena hb hg hx hs.symm
    rw [if_neg (by omega)]
    simp only [hcls, hc.pageOf_arena (mem_union_left _ hx) hhead, (unknown hx 0).2,
      Bool.false_eq_true, if_false]
    exact ⟨h', by rw [heq], hmap, .of_pages hpages, hh⟩
  | block order hcls h0 ho hs hx =>
    obtain ⟨frame, phys, h', hpage, heq, hmap, hrun, hh⟩ := hc.freePages hb hg cfg ho hs hx
    rw [if_neg (by omega)]
    simp only [hcls, hpage, heq, Call.bind]
    exact ⟨_, rfl, hmap, hrun, hh.congr rfl⟩

/-! ## Memory coming and going -/

/-- **Growing** the heap grants nothing. -/
theorem Holds.grow (cfg : Build) (hd : FrameSource.Draws A runs) (hh : Holds h H live)
    (hf : Fresh h H (runs src)) (n : Nat) :
    ∃ h' src' r taken, h.grow cfg src n = (h', src', r) ∧ runs src = taken ++ runs src' ∧
      h'.map = h.map ∧ h'.pages = h.pages ∧ Holds h' (H ++ taken) live := by
  obtain ⟨R, B, hc, hb⟩ := hh
  unfold Heap.grow
  generalize hg : h.bump.grow (⟨cfg.faultInject, src, h.inject⟩ : Injected σ) n = out
  obtain ⟨bump, s, r⟩ := out
  obtain ⟨taken, hruns, hinv, hmap⟩ := hc.arena.grow (Injected.draws hd) hf.apart hg
  refine ⟨_, s.src, r, taken, rfl, hruns, rfl, rfl, R, B, ⟨hmap.trans hc.map, hinv, hc.direct, hc.slab, ?_⟩, hb⟩
  refine hc.pages.mono rfl rfl fun b hb run hrun => hf.attached b hb run ?_
  rw [show runs src = taken ++ _ from hruns]
  exact mem_append_left _ hrun

theorem checkRun_ok (hr : checkRun m run = .ok ()) : ∃ virt, m.Shows run virt := by
  unfold checkRun at hr
  simp only [bind, Except.bind, pure, Except.pure, throw, throwThe, MonadExceptOf.throw] at hr
  split at hr
  · cases hr
  rename_i bytes hlen
  obtain rfl := FrameRange.lenBytes_ok hlen
  split at hr
  · cases hr
  rename_i last hlast
  obtain ⟨-, rfl⟩ := checkedAdd_eq_some.mp hlast
  split at hr
  · cases hr
  rename_i virt hvirt
  split at hr
  · cases hr
  rename_i lastVirt hlastVirt
  exact ⟨virt, shows_of_toVirt hvirt hlastVirt⟩

/-- **Attaching** a run the arena never had grants nothing. -/
theorem Holds.attachPages (cfg : Build) (hh : Holds h H live) (store : List UInt8)
    (hnew : ∀ run' ∈ H, run'.Apart run) :
    ∃ h' r, h.attachPages cfg run store = .ret (h', r) ∧ h'.map = h.map ∧ Holds h' H live := by
  unfold Heap.attachPages
  by_cases hsome : h.pages.isSome = true
  · rw [if_pos hsome]
    exact ⟨h, _, rfl, rfl, hh⟩
  rw [if_neg hsome]
  cases hr : checkRun h.map run with
  | error e => exact ⟨h, _, rfl, rfl, hh⟩
  | ok u =>
    obtain ⟨virt, hshows⟩ := checkRun_ok hr
    rcases Buddy.new_spec cfg.checked run store with ⟨e, he⟩ | ⟨b, L, hb, hinv, rfl⟩
    · rw [he]
      exact ⟨h, _, rfl, rfl, hh⟩
    rw [hb]
    obtain ⟨R, B, hc, hbooks⟩ := hh
    refine ⟨_, _, rfl, rfl, ?_⟩
    rcases hc.pages.cases with ⟨-, rfl⟩ | ⟨b', -, -, -, hb', -, -⟩
    · exact ⟨R, ∅, { hc with pages :=
        ⟨virt, L, ∅, ⟨hinv, hshows, hnew, by simp⟩, (image_empty _).symm⟩ }, hbooks⟩
    · rw [hb'] at hsome
      exact absurd rfl hsome

/-- **Detaching** succeeds only when nothing of the run is held. -/
theorem Holds.detachPages (hh : Holds h H live) :
    ∃ h' r, h.detachPages = (h', r) ∧ h'.map = h.map ∧ Holds h' H live := by
  unfold Heap.detachPages
  cases hp : h.pages with
  | none => exact ⟨h, _, rfl, rfl, hh⟩
  | some b =>
    by_cases hlive : 0 < b.liveBlocks
    · exact ⟨h, _, if_pos hlive, rfl, hh⟩
    · obtain ⟨R, B, hc, hb⟩ := hh
      refine ⟨_, _, if_neg hlive, rfl, R, B, { hc with pages := ?_ }, hb⟩
      rcases hc.pages.cases with ⟨hnone, -⟩ | ⟨b', virt, L, U, hb', hat, rfl⟩
      · cases hp.symm.trans hnone
      cases hp.symm.trans hb'
      have hcard : U.card = 0 := by rw [← hat.inv.live]; omega
      rw [card_eq_zero.mp hcard]
      exact image_empty _

/-! ## Accounting -/

/-- **The accounting is exact**: nothing saturates, and the arena's count less the slab's
blocks is what the arena serves directly. -/
theorem Core.bytesInUse (hc : Core h H R B) : h.stats.bytesInUse = size (objs h.slab.blocks ∪ (R ∪ B)) := by
  have hpacked := hc.packed
  have htotal : size (objs h.slab.blocks ∪ (R ∪ B)) ≤ A.usizeMax := by
    have := hpacked.size_le 1 (A.usizeMax + 1) fun x hx => hc.bounds hx
    omega
  have hsum : size (objs h.slab.blocks ∪ (R ∪ B)) =
      size (objs h.slab.blocks) + (size R + size B) := by
    rw [size_union hc.objs_disjoint, size_union hc.direct_disjoint]
  obtain ⟨hres, huse⟩ := hc.slab.stats
  have hin : h.bump.inUse = size R + size (extents h.slab.blocks) := by
    rw [hc.arena.inUse, size_union hc.direct]
  rw [hsum] at htotal ⊢
  unfold Heap.stats
  simp only [Bump.stats, hres, huse, hin, Nat.add_sub_cancel]
  rcases hc.pages.cases with ⟨hnone, rfl⟩ | ⟨b, virt, L, U, hsome, hat, rfl⟩
  · simp only [hnone, BuddyStats.zero, satMul, size_empty] at htotal ⊢
    rw [satAdd_of_le (show size R + _ ≤ _ by omega), mul_zero, Nat.zero_min, satAdd_of_le (by omega)]
    omega
  · have hsize := hat.size_eq
    simp only [hsome, Buddy.stats, satMul]
    rw [satAdd_of_le (show size R + _ ≤ _ by omega), min_eq_left (by omega), satAdd_of_le (by omega)]
    omega

theorem Holds.bytesInUse (hh : Holds h H live) : h.stats.bytesInUse = (live.map Grant.charge).sum := by
  obtain ⟨R, B, hc, hb⟩ := hh
  rw [hc.bytesInUse, hb.size_eq]

end Kintane.Heap
