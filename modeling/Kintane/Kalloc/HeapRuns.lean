import Kintane.Kalloc.HeapOps

/-!
# Whole histories of the heap

A history is any list of calls that keeps the heap's contract: no frame is handed to the
heap twice, none of the attached run's is, and what is freed is held and freed with the
layout it was asked for. Frame sources may fail or answer as they like, and the injector
may be replaced at any time.

After every such history what callers hold is disjoint and in memory the heap holds, and
the statistics count exactly the bytes charged for it. What is served by the slab or the
arena is aligned as asked. A block of the attached pages is aligned in *physical*
memory, so its pointer is aligned as asked if the direct map keeps page offsets, which
nothing in the heap checks.
-/

open List

namespace Kintane.Heap

open Extent Script

variable {A : Arch} {H : List (FrameRange A)} {h : Heap A}

inductive Op (A : Arch) where
  | grow (minBytes : Nat) (src : Script A)
  | attachPages (run : FrameRange A) (store : List UInt8)
  | detachPages
  | setInjector (inject : Injector)
  | tryAlloc (layout : Layout A) (ctx : AllocContext)
  | tryAllocIn (layout : Layout A) (ctx : AllocContext) (src : Script A)
  | dealloc (ptr : Nat) (layout : Layout A)

/-- The heap, what callers hold of it, and the runs frame sources have handed it. -/
structure Client (A : Arch) where
  heap : Heap A
  live : List (Grant A)
  handed : List (FrameRange A)

variable {c : Client A}

namespace Client

def new (map : DirectMap A) : Client A := ⟨Heap.new map, [], []⟩

def keep (h : Heap A) (live : List (Grant A)) (layout : Layout A) :
    Except AllocError Nat → List (Grant A)
  | .ok p => ⟨p, layout, h.charge p layout⟩ :: live
  | .error _ => live

/-- The grant a caller means by a pointer and a layout. -/
def named (live : List (Grant A)) (ptr : Nat) (layout : Layout A) : Option (Grant A) :=
  live.find? fun g => g.ptr = ptr ∧ g.layout = layout

/-- A caller holds a grant until its deallocation succeeds. -/
def step (cfg : Build) (c : Client A) : Op A → Call (Client A)
  | .grow minBytes src =>
    .ret { c with heap := (c.heap.grow cfg src minBytes).1, handed := c.handed ++ src.runs }
  | .attachPages run store =>
    (c.heap.attachPages cfg run store).bind fun (h, _) => .ret { c with heap := h }
  | .detachPages => .ret { c with heap := c.heap.detachPages.1 }
  | .setInjector inject => .ret { c with heap := c.heap.setInjector inject }
  | .tryAlloc layout ctx =>
    (c.heap.tryAlloc cfg layout ctx).bind fun (h, r) =>
      .ret { c with heap := h, live := keep h c.live layout r }
  | .tryAllocIn layout ctx src =>
    (c.heap.tryAllocIn cfg layout ctx src).bind fun (h, _, r) =>
      .ret ⟨h, keep h c.live layout r, c.handed ++ src.runs⟩
  | .dealloc ptr layout =>
    (c.heap.dealloc cfg ptr layout).bind fun
      | (h, .ok ()) =>
        .ret { c with
          heap := h
          live := match named c.live ptr layout with
            | some g => c.live.erase g
            | none => c.live }
      | (h, .error _) => .ret { c with heap := h }

def run (cfg : Build) : List (Op A) → Client A → Call (Client A)
  | [], c => .ret c
  | op :: ops, c => (c.step cfg op).bind (run cfg ops)

/-- The contract: fresh frames in, live grants out. -/
def Allows (c : Client A) : Op A → Prop
  | .grow _ src => Fresh c.heap c.handed src.runs
  | .attachPages run _ => ∀ r ∈ c.handed, r.Apart run
  | .tryAllocIn _ _ src => Fresh c.heap c.handed src.runs
  | .dealloc ptr layout => ∃ g ∈ c.live, g.ptr = ptr ∧ g.layout = layout
  | .detachPages => True
  | .setInjector _ => True
  | .tryAlloc _ _ => True

/-- Every call of the history keeps the contract where it is made. -/
def Conforms (cfg : Build) : List (Op A) → Client A → Prop
  | [], _ => True
  | op :: ops, c => c.Allows op ∧
    match c.step cfg op with
    | .ret c' => Conforms cfg ops c'
    | _ => True

instance (h : Heap A) (H rs : List (FrameRange A)) : Decidable (Fresh h H rs) :=
  decidable_of_iff ((H ++ rs).Pairwise FrameRange.Apart ∧
      ∀ b ∈ h.pages, ∀ run ∈ rs, run.Apart b.run)
    ⟨fun hf => ⟨hf.1, hf.2⟩, fun hf => ⟨hf.apart, hf.attached⟩⟩

instance (c : Client A) (op : Op A) : Decidable (c.Allows op) := by
  cases op <;> dsimp only [Allows] <;> infer_instance

instance (cfg : Build) : (ops : List (Op A)) → (c : Client A) → Decidable (Conforms cfg ops c)
  | [], _ => inferInstanceAs (Decidable True)
  | op :: ops, c => by
    have := instDecidableConforms cfg ops
    dsimp only [Conforms]
    cases c.step cfg op <;> infer_instance

/-- What every call that keeps the contract preserves. -/
structure Inv (c : Client A) : Prop where
  holds : Holds c.heap c.handed c.live
  handed : c.handed.Pairwise FrameRange.Apart
  aligned : c.heap.map.KeepsPages → ∀ g ∈ c.live, g.layout.align ∣ g.ptr

theorem inv_new (map : DirectMap A) : Inv (new map) :=
  ⟨⟨∅, ∅, core_new map, Books.nil⟩, List.Pairwise.nil, by simp [new]⟩

variable {rest taken : List (FrameRange A)} {g : Grant A}

theorem Holds.more {live : List (Grant A)} (hh : Holds h (H ++ taken) live)
    (hf : ∀ b, h.pages = some b → ∀ run ∈ rest, run.Apart b.run) :
    Holds h (H ++ (taken ++ rest)) live := by
  obtain ⟨R, B, hc, hb⟩ := hh
  rw [← append_assoc]
  exact ⟨R, B, { hc with
    arena := hc.arena.mono fun run hr => mem_append_left _ hr
    pages := hc.pages.mono rfl rfl hf }, hb⟩

/-- What a request leaves behind keeps the invariant. -/
theorem Inv.request {h' : Heap A} {layout : Layout A} {r : Except AllocError Nat}
    (hi : Inv c) (hf : Fresh c.heap c.handed (taken ++ rest))
    (hmap : h'.map = c.heap.map) (hrun : SameRun c.heap h')
    (ho : Outcome c.heap.map h' (c.handed ++ taken) c.live layout r) :
    Inv ⟨h', keep h' c.live layout r, c.handed ++ (taken ++ rest)⟩ := by
  have hrest : ∀ b', h'.pages = some b' → ∀ run ∈ rest, run.Apart b'.run := by
    intro b' hb' run hr
    obtain ⟨b, hb, he⟩ := hrun b' hb'
    rw [he]
    exact hf.attached b hb run (mem_append_right _ hr)
  cases ho with
  | refused e hh =>
    exact ⟨Holds.more hh hrest, hf.apart, fun hk => hi.aligned (hmap ▸ hk)⟩
  | granted p hh ha =>
    refine ⟨Holds.more hh hrest, hf.apart, fun hk => ?_⟩
    simp only [hmap] at hk
    exact forall_mem_cons.mpr ⟨ha (.inl hk), hi.aligned hk⟩

/-- A pointer and a layout name one grant. -/
theorem Inv.named_eq (hi : Inv c) (hg : g ∈ c.live) : named c.live g.ptr g.layout = some g := by
  have hex : (named c.live g.ptr g.layout).isSome = true := by
    rw [named, find?_isSome]
    exact ⟨g, hg, by simp⟩
  obtain ⟨g', hg'⟩ := Option.isSome_iff_exists.mp hex
  have hmem : g' ∈ c.live := mem_of_find?_eq_some hg'
  have hprop := find?_some hg'
  simp only [decide_eq_true_eq] at hprop
  obtain ⟨R, B, hc, hb⟩ := hi.holds
  have hcharge : g'.charge = g.charge := by
    rw [← hc.charge_eq (hb.routed g hg), ← hc.charge_eq (hb.routed g' hmem), hprop.1, hprop.2]
  have he : g' = g := by
    cases g; cases g'
    simp only [Grant.mk.injEq] at *
    exact ⟨hprop.1, hprop.2, hcharge⟩
  rw [hg', he]

theorem Inv.dealloc (hi : Inv c) (cfg : Build) (hg : g ∈ c.live) : ∃ h', c.step cfg (.dealloc g.ptr g.layout) =
        .ret { c with heap := h', live := c.live.erase g } ∧
      Inv { c with heap := h', live := c.live.erase g } ∧ h'.map = c.heap.map := by
  obtain ⟨h', heq, hmap, hrun, hh⟩ := hi.holds.dealloc cfg hg
  refine ⟨h', by simp only [Client.step, heq, Call.bind, hi.named_eq hg],
    ⟨hh, hi.handed, fun hk g' hg' => ?_⟩, hmap⟩
  exact hi.aligned (hmap ▸ hk) g' (mem_of_mem_erase hg')

/-- **One call** that keeps the contract returns and keeps the invariant. -/
theorem Inv.step (hi : Inv c) (cfg : Build) {op : Op A} (ha : c.Allows op) :
    ∃ c', c.step cfg op = .ret c' ∧ Inv c' ∧ c'.heap.map = c.heap.map := by
  cases op with
  | grow n src =>
    obtain ⟨h', src', r, taken, heq, hruns, hmap, hpages, hh⟩ :=
      hi.holds.grow cfg draws ha n
    refine ⟨_, rfl, ⟨?_, ha.apart, ?_⟩, ?_⟩
    · simp only [heq, hruns]
      refine Holds.more hh fun b hb run hr => ha.attached b (hpages ▸ hb) run ?_
      rw [hruns]
      exact mem_append_right _ hr
    · exact fun hk => hi.aligned (hmap ▸ hk)
    · simp only [heq]
      exact hmap
  | attachPages run store =>
    obtain ⟨h', r, heq, hmap, hh⟩ := hi.holds.attachPages cfg store ha
    exact ⟨{ c with heap := h' }, by simp only [Client.step, heq, Call.bind],
      ⟨hh, hi.handed, fun hk => hi.aligned (hmap ▸ hk)⟩, hmap⟩
  | detachPages =>
    obtain ⟨h', r, heq, hmap, hh⟩ := hi.holds.detachPages
    exact ⟨{ c with heap := h' }, by simp only [Client.step, heq],
      ⟨hh, hi.handed, fun hk => hi.aligned (hmap ▸ hk)⟩, hmap⟩
  | setInjector inject =>
    exact ⟨_, rfl, ⟨hi.holds.congr rfl, hi.handed, hi.aligned⟩, rfl⟩
  | tryAlloc layout ctx =>
    obtain ⟨⟨h', src', r⟩, heq, taken, hruns, hmap, hrun, ho⟩ := hi.holds.tryAllocIn cfg
      NoFrames.draws NoFrames.mk ⟨by simpa using hi.handed, by simp⟩ layout ctx
    refine ⟨⟨h', keep h' c.live layout r, c.handed⟩,
      by simp only [Client.step, Heap.tryAlloc, heq, Call.bind], ?_, hmap⟩
    obtain rfl : taken = [] := by simpa using hruns.symm
    have hf : Fresh c.heap c.handed ([] ++ []) := ⟨by simpa using hi.handed, by simp⟩
    have := hi.request hf hmap hrun ho
    rwa [append_nil, append_nil] at this
  | tryAllocIn layout ctx src =>
    obtain ⟨⟨h', src', r⟩, heq, taken, hruns, hmap, hrun, ho⟩ :=
      hi.holds.tryAllocIn cfg draws src ha layout ctx
    refine ⟨⟨h', keep h' c.live layout r, c.handed ++ src.runs⟩,
      by simp only [Client.step, heq, Call.bind], ?_, hmap⟩
    rw [hruns]
    exact hi.request (hruns ▸ ha) hmap hrun ho
  | dealloc ptr layout =>
    obtain ⟨g, hg, rfl, rfl⟩ := ha
    obtain ⟨h', heq, hinv, hmap⟩ := hi.dealloc cfg hg
    exact ⟨_, heq, hinv, hmap⟩

/-- **A whole history** that keeps the contract returns and keeps the invariant. -/
theorem Inv.run (cfg : Build) (ops : List (Op A)) : ∀ {c : Client A}, Inv c → Conforms cfg ops c →
      ∃ c', run cfg ops c = .ret c' ∧ Inv c' ∧ c'.heap.map = c.heap.map := by
  induction ops with
  | nil => exact fun {c} hi _ => ⟨c, rfl, hi, rfl⟩
  | cons op ops ih =>
    intro c hi hc
    obtain ⟨ha, hrest⟩ := hc
    obtain ⟨c1, heq, hi1, hmap1⟩ := hi.step cfg ha
    rw [heq] at hrest
    obtain ⟨c2, heq2, hi2, hmap2⟩ := ih hi1 hrest
    exact ⟨c2, by simp only [Client.run, heq, Call.bind, heq2], hi2, hmap2.trans hmap1⟩

end Client

/-! ## Safety -/

/-- The memory the heap holds: the arena's regions and the attached run, as pointers see it. -/
def holdings (h : Heap A) : List Extent :=
  h.bump.regions.map Region.extent ++
    match h.pages with
    | none => []
    | some b =>
      match h.map.toVirt b.run.start.start with
      | .ok virt => [(virt, b.run.bytes)]
      | .error _ => []

theorem Core.within_holdings {R B : Finset Extent}
    (hc : Core h H R B) {x : Extent} (hx : x ∈ Slab.objs h.slab.blocks ∪ (R ∪ B)) :
    ∃ y ∈ h.holdings, Within x y := by
  have harena : ∀ x ∈ R ∪ Slab.extents h.slab.blocks, ∃ y ∈ h.holdings, Within x y := by
    intro x hx
    obtain ⟨r, hr, hin⟩ := hc.arena.inside x hx
    exact ⟨r.extent, mem_append_left _ (mem_map_of_mem hr), hin⟩
  rcases Finset.mem_union.mp hx with hx | hx
  · obtain ⟨e, he, hin⟩ := Slab.objs_within hx
    obtain ⟨y, hy, hin'⟩ := harena e (Finset.mem_union_right _ he)
    exact ⟨y, hy, hin.trans hin'⟩
  rcases Finset.mem_union.mp hx with hx | hx
  · exact harena x (Finset.mem_union_left _ hx)
  rcases hc.pages.cases with ⟨-, rfl⟩ | ⟨b, virt, L, U, hb, hat, rfl⟩
  · exact absurd hx (Finset.notMem_empty _)
  obtain ⟨d, hd, rfl⟩ := Finset.mem_image.mp hx
  have hvirt := DirectMap.toVirt_eq_ok.mpr (hat.shown.maps (i := 0) b.run.bytes_pos)
  refine ⟨(virt, b.run.bytes), mem_append_right _ ?_, hat.inside hd⟩
  simp only [add_zero] at hvirt
  simp only [hb, hvirt, mem_singleton]

/-- What callers may rely on of the pointers they hold. -/
structure Safe (c : Client A) : Prop where
  /-- Pointers are aligned as asked, if pages are where their frames are modulo a page. -/
  aligned : c.heap.map.KeepsPages → ∀ g ∈ c.live, g.layout.align ∣ g.ptr
  /-- So is the next one, and one that is not a page of the attached run in any case. -/
  serves : ∀ {cfg layout ctx src h' src' p}, Fresh c.heap c.handed (runs src) →
    c.heap.tryAllocIn cfg layout ctx src = .ret (h', src', .ok p) →
    c.heap.map.KeepsPages ∨ h'.pageOf p = none → layout.align ∣ p
  /-- What was asked for lies in memory the heap holds. -/
  held : ∀ g ∈ c.live, ∃ y ∈ c.heap.holdings, Within g.asked y
  apart : c.live.Pairwise fun g g' => Apart g.asked g'.asked

theorem Client.Inv.safe (hi : c.Inv) : Safe c := by
  obtain ⟨R, B, hc, hb⟩ := hi.holds
  have hasked : ∀ g ∈ c.live, Within g.asked g.extent := fun g hg =>
    ⟨le_rfl, Nat.add_le_add_left (hb.routed g hg).size_le _⟩
  refine ⟨hi.aligned, fun {cfg layout ctx src h' src' p} hf heq => ?_, fun g hg => ?_, ?_⟩
  · obtain ⟨⟨h1, src1, r⟩, heq1, taken, -, -, -, ho⟩ :=
      hi.holds.tryAllocIn cfg draws src hf layout ctx
    cases heq.symm.trans heq1
    cases ho with
    | granted p hh ha => exact ha
  · obtain ⟨y, hy, hin⟩ := hc.within_holdings (hb.routed g hg).mem
    exact ⟨y, hy, (hasked g hg).trans hin⟩
  · refine (pairwise_map.mp hb.nodup).imp_of_mem fun {g g'} hg hg' hne => ?_
    exact (hc.packed.apart _ (hb.routed g hg).mem _ (hb.routed g' hg').mem hne).mono
      (hasked g hg) (hasked g' hg')

/-- **Every history is safe**: it returns, and what callers hold then is where it should be.
Without `KeepsPages` the alignment of blocks of the attached pages is lost, see
`oddMap_misaligns`. -/
theorem history_safe (cfg : Build) (map : DirectMap A) (ops : List (Op A))
    (hc : Client.Conforms cfg ops (Client.new map)) :
    ∃ c, Client.run cfg ops (Client.new map) = .ret c ∧ c.heap.map = map ∧ Safe c := by
  obtain ⟨c, heq, hi, hmap⟩ := (Client.inv_new map).run cfg ops hc
  exact ⟨c, heq, hmap, hi.safe⟩

/-- Four pages to attach, and four a frame source hands out. -/
def attachedRun : FrameRange Arch.full :=
  ⟨⟨4 * 4096, by decide, by decide⟩, 4, by decide, by decide, by decide⟩

def sourceRun : FrameRange Arch.full :=
  ⟨⟨32 * 4096, by decide, by decide⟩, 4, by decide, by decide, by decide⟩

def twoPages : Layout Arch.full := ⟨5000, 4096, by decide, by decide⟩

/-- Three requests, served by the attached pages, the slab and the arena. -/
def mixedHistory : List (Op Arch.full) :=
  [.attachPages attachedRun (List.replicate 36 0),
    .tryAllocIn twoPages .atomic ⟨[.error .exhausted]⟩,
    .tryAllocIn ⟨24, 8, by decide, by decide⟩ .atomic ⟨[.ok sourceRun]⟩,
    .tryAllocIn ⟨600, 8192, by decide, by decide⟩ .atomic ⟨[]⟩]

/-- Physical memory seen at its own address. -/
def identityMap : DirectMap Arch.full := (DirectMap.new Arch.full 0 0 (2 ^ 20)).toOption.get rfl

/-- Physical memory seen one byte up. -/
def oddMap : DirectMap Arch.full := (DirectMap.new Arch.full 0 1 (2 ^ 20)).toOption.get rfl

theorem mixedHistory_safe :
    ∃ c, Client.run ⟨true, false⟩ (mixedHistory ++ [.dealloc 16384 twoPages, .detachPages])
        (Client.new identityMap) = .ret c ∧ c.heap.map = identityMap ∧ Safe c :=
  history_safe _ _ _ (by decide)

/-- The pages of `attachedRun` are page-aligned, and the pointer to them is not. -/
theorem oddMap_misaligns : Client.Conforms ⟨true, false⟩ mixedHistory (Client.new oddMap) ∧
    ∃ c, Client.run ⟨true, false⟩ mixedHistory (Client.new oddMap) = .ret c ∧
      ∃ g ∈ c.live, ¬ g.layout.align ∣ g.ptr := by
  refine ⟨by decide, _, rfl, ?_⟩
  decide

/-! ## Accounting -/

/-- The grants given back one by one. -/
def drain (gs : List (Grant A)) : List (Op A) := gs.map fun g => .dealloc g.ptr g.layout

/-- What the heap's count of bytes in use says. -/
structure Exact (cfg : Build) (c : Client A) : Prop where
  /-- It is what is charged for the allocations there are. -/
  sum : c.heap.stats.bytesInUse = (c.live.map fun g => c.heap.charge g.ptr g.layout).sum
  /-- A request that fails does not move it, whatever it took from its source. -/
  refused : ∀ {layout ctx src h' src' e}, Fresh c.heap c.handed (runs src) →
    c.heap.tryAllocIn cfg layout ctx src = .ret (h', src', .error e) →
    h'.stats.bytesInUse = c.heap.stats.bytesInUse
  /-- It is zero once everything is freed, in whatever order. -/
  drained : ∀ gs, gs.Perm c.live → ∃ c', Client.run cfg (drain gs) c = .ret c' ∧
    c'.live = [] ∧ c'.heap.stats.bytesInUse = 0

theorem Client.Inv.drain {cfg : Build} (gs : List (Grant A)) :
    ∀ {c : Client A}, c.Inv → gs.Perm c.live →
      ∃ c', Client.run cfg (Heap.drain gs) c = .ret c' ∧ c'.Inv ∧ c'.live = [] := by
  induction gs with
  | nil => exact fun {c} hi hp => ⟨c, rfl, hi, hp.nil_eq.symm⟩
  | cons g gs ih =>
    intro c hi hp
    obtain ⟨h', heq, hi', -⟩ := hi.dealloc cfg (hp.subset mem_cons_self)
    have hp' : gs.Perm (c.live.erase g) := by
      have := hp.erase g
      rwa [erase_cons_head] at this
    obtain ⟨c', heq', hi'', hnil⟩ := ih hi' hp'
    exact ⟨c', by simp only [Heap.drain, map_cons, Client.run, heq, Call.bind]; exact heq', hi'', hnil⟩

theorem Client.Inv.exact (hi : c.Inv) (cfg : Build) : Exact cfg c where
  sum := by
    obtain ⟨R, B, hc, hb⟩ := hi.holds
    rw [hi.holds.bytesInUse]
    exact congrArg List.sum (map_congr_left fun g hg => (hc.charge_eq (hb.routed g hg)).symm)
  refused := by
    intro layout ctx src h' src' e hf heq
    obtain ⟨⟨h1, src1, r⟩, heq1, taken, -, -, -, ho⟩ :=
      hi.holds.tryAllocIn cfg draws src hf layout ctx
    cases heq.symm.trans heq1
    cases ho with
    | refused e hh => rw [hh.bytesInUse, hi.holds.bytesInUse]
  drained := by
    intro gs hp
    obtain ⟨c', heq, hi', hnil⟩ := hi.drain gs hp
    exact ⟨c', heq, hnil, by rw [hi'.holds.bytesInUse, hnil]; rfl⟩

/-- **The accounting is exact** after every history. -/
theorem history_accounts (cfg : Build) (map : DirectMap A) (ops : List (Op A))
    (hc : Client.Conforms cfg ops (Client.new map)) :
    ∃ c, Client.run cfg ops (Client.new map) = .ret c ∧ Exact cfg c := by
  obtain ⟨c, heq, hi, -⟩ := (Client.inv_new map).run cfg ops hc
  exact ⟨c, heq, hi.exact cfg⟩

/-- The slab is refused its block, and the arena serves the object. -/
theorem mixedHistory_accounts :
    ∃ c, Client.run ⟨true, true⟩ (.setInjector (.failNth .slabBlock 0) :: mixedHistory)
        (Client.new oddMap) = .ret c ∧ Exact ⟨true, true⟩ c :=
  history_accounts _ _ _ (by decide)

end Kintane.Heap
