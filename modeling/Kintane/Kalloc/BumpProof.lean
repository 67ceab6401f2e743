import Kintane.Kalloc.Bump

/-!
# What the arena keeps true

The ghost state is two collections: `H`, every run of frames handed to the heap so far,
and `P`, the extents the arena has handed out and not had back. The cursor's part of
its region is apart from all of `P`, so what is carved next is too; the last allocation
ends at the cursor, so taking it back only moves the cursor over bytes nobody holds.

The arena may lose memory (an abandoned tail, the padding before an aligned block, a
block that would have been the null pointer) but never hands any of it out twice.
-/

open List

namespace Kintane

variable {A : Arch} {σ : Type} [FrameSource A σ] {runs : σ → List (FrameRange A)} {x : Extent}

/-! ## Sources as lists of runs -/

/-- `runs` lists what the source will hand out; every take draws from the front of it. -/
structure FrameSource.Draws (A : Arch) [FrameSource A σ] (runs : σ → List (FrameRange A)) :
    Prop where
  take : ∀ {s s' : σ} {n : Nat} {r : Except AllocError (FrameRange A)},
    FrameSource.take s n = (s', r) →
      ∃ taken, runs s = taken ++ runs s' ∧ ∀ run, r = .ok run → run ∈ taken

theorem NoFrames.draws : FrameSource.Draws A (fun _ : NoFrames => ([] : List (FrameRange A))) where
  take := by
    intro s s' n r h
    obtain ⟨-, rfl⟩ := Prod.mk.inj h
    exact ⟨[], rfl, fun run hr => by cases hr⟩

theorem Script.draws : FrameSource.Draws A (Script.runs (A := A)) where
  take := by
    intro s s' n r h
    obtain ⟨answers⟩ := s
    cases answers with
    | nil =>
      obtain ⟨rfl, rfl⟩ := Prod.mk.inj h
      exact ⟨[], rfl, fun run hr => by cases hr⟩
    | cons a answers =>
      obtain ⟨rfl, rfl⟩ := Prod.mk.inj h
      cases a with
      | error e => exact ⟨[], rfl, fun run hr => by cases hr⟩
      | ok run =>
        refine ⟨[run], rfl, fun run' hr => ?_⟩
        rw [Except.ok.inj hr]
        exact mem_singleton_self _

theorem Injected.draws (hd : FrameSource.Draws A runs) :
    FrameSource.Draws A (fun s : Injected σ => runs s.src) where
  take := by
    intro s s' n r h
    simp only [FrameSource.take] at h
    split at h
    · cases h
      exact ⟨[], rfl, fun run hr => by cases hr⟩
    · cases h
      exact hd.take rfl

/-! ## The invariant -/

/-- The region is the run as the window shows it. -/
structure Region.Of (m : DirectMap A) (run : FrameRange A) (r : Region) : Prop where
  bytes : r.bytes = run.bytes
  shown : m.Shows run r.virt
  end_le : r.virt + r.bytes ≤ A.usizeMax

def Region.extent (r : Region) : Extent := (r.virt, r.bytes)

theorem Region.contains_of_within {r : Region} (h : Extent.Within x r.extent)
    (hr : r.bytes ≤ A.usizeMax) : r.contains A x.1 x.2 = true := by
  obtain ⟨h1, h2⟩ := h
  simp only [extent] at h1 h2
  unfold contains
  rw [checkedSub_of_le h1]
  simp only
  rw [checkedAdd_of_le (by omega)]
  simp only [decide_eq_true_eq]
  omega

namespace Bump

/-- The cursor runs over `r`. -/
structure Over (b : Bump A) (r : Region) : Prop where
  mem : r ∈ b.regions
  end_eq : b.end_ = r.virt + r.bytes
  lo : r.virt ≤ b.cursor
  hi : b.cursor ≤ b.end_
  /-- The last allocation, while it can be taken back, is in this region too. -/
  last : ∀ x, b.last = some x → r.virt ≤ x.1

/-- The arena has been given `H` and has handed out `P`. -/
structure Inv (b : Bump A) (H : List (FrameRange A)) (P : Finset Extent) : Prop where
  regions : ∀ r ∈ b.regions, ∃ run ∈ H, r.Of b.map run
  packed : Extent.Packed P
  inside : ∀ x ∈ P, ∃ r ∈ b.regions, Extent.Within x r.extent
  nonnull : ∀ x ∈ P, x.1 ≠ 0
  room : (b.cursor = 0 ∧ b.end_ = 0 ∧ b.last = none) ∨ ∃ r, b.Over r
  /-- What the cursor has not reached is nobody's. -/
  untouched : ∀ x ∈ P, Extent.Apart x (b.cursor, b.end_ - b.cursor)
  last : ∀ x, b.last = some x → x ∈ P ∧ x.1 + x.2 = b.cursor
  inUse : b.inUse = Extent.size P

variable {b b' : Bump A} {H : List (FrameRange A)} {P : Finset Extent} {src src' : σ} {r : Except AllocError Nat}
  {layout : Layout A} {start n : Nat} {run : FrameRange A}

theorem inv_new (map : DirectMap A) : Inv (new map) [] ∅ where
  regions := by simp [new]
  packed := Extent.Packed.empty
  inside := by simp
  nonnull := by simp
  room := .inl ⟨rfl, rfl, rfl⟩
  untouched := by simp
  last := by simp [new]
  inUse := rfl

namespace Inv

variable (h : Inv b H P)

include h

theorem mono {H' : List (FrameRange A)} (hs : ∀ run ∈ H, run ∈ H') : Inv b H' P :=
  { h with
    regions := fun r hr => by
      obtain ⟨run, hrun, hof⟩ := h.regions r hr
      exact ⟨run, hs run hrun, hof⟩ }

/-- Everything handed out ends inside the address space. -/
theorem end_le (hx : x ∈ P) : x.1 + x.2 ≤ A.usizeMax := by
  obtain ⟨r, hr, hin⟩ := h.inside x hx
  obtain ⟨run, -, hof⟩ := h.regions r hr
  exact hin.2.trans hof.end_le

/-- Every byte the arena handed out is in the direct map. -/
theorem maps (hx : x ∈ P) {i : Nat} (hi : i < x.2) : ∃ phys, b.map.Maps phys (x.1 + i) := by
  obtain ⟨r, hr, hin⟩ := h.inside x hx
  obtain ⟨run, -, hof⟩ := h.regions r hr
  obtain ⟨h1, h2⟩ := hin
  simp only [Region.extent] at h1 h2
  have := hof.shown.maps (i := x.1 + i - r.virt) (by have := hof.bytes; omega)
  rw [show r.virt + (x.1 + i - r.virt) = x.1 + i by omega] at this
  exact ⟨_, this⟩

end Inv

/-! ## Growing -/

/-- A run is added whole, as the region the cursor runs over from now on. -/
theorem addFrames_ok (h : b.addFrames run = .ok b') :
    ∃ r : Region, r.Of b.map run ∧ b'.map = b.map ∧ b'.regions = b.regions ++ [r] ∧
      b'.cursor = r.virt ∧ b'.end_ = r.virt + r.bytes ∧ b'.last = none ∧ b'.inUse = b.inUse := by
  unfold addFrames at h
  simp only [bind, Except.bind, pure, Except.pure, throw, throwThe, MonadExceptOf.throw] at h
  split at h
  · cases h
  split at h
  · cases h
  rename_i len hlen
  obtain rfl := FrameRange.lenBytes_ok hlen
  split at h
  · cases h
  rename_i bytes hnarrow
  obtain ⟨-, rfl⟩ := narrow_eq_ok.mp hnarrow
  split at h
  · cases h
  split at h
  · cases h
  rename_i virt hvirt
  split at h
  · cases h
  rename_i lastByte hlast
  obtain ⟨-, rfl⟩ := checkedAdd_eq_some.mp hlast
  split at h
  · cases h
  rename_i lastVirt hlastVirt
  split at h
  · cases h
  rename_i regionEnd hend
  obtain ⟨hle, rfl⟩ := checkedAdd_eq_some.mp hend
  cases h
  exact ⟨⟨virt, run.bytes, run.start.start, run.count⟩,
    ⟨rfl, DirectMap.shows_of_toVirt hvirt hlastVirt, hle⟩, rfl, rfl, rfl, rfl, rfl, rfl⟩

/-- A run that shares no frame with any before it brings memory nobody holds. -/
theorem Inv.addFrames (h : Inv b H P) (hnew : ∀ r ∈ H, r.Apart run)
    (hadd : b.addFrames run = .ok b') : Inv b' (H ++ [run]) P ∧ b'.map = b.map := by
  obtain ⟨r, hof, hmap, hregions, hcursor, hend, hlast, huse⟩ := addFrames_ok hadd
  have hmem : r ∈ b'.regions := by rw [hregions]; exact mem_append_right _ (by simp)
  refine ⟨⟨?_, h.packed, ?_, h.nonnull, .inr ⟨r, ?_⟩, ?_, ?_, huse.trans h.inUse⟩, hmap⟩
  · rw [hmap, hregions, forall_mem_append, forall_mem_singleton]
    exact ⟨fun s hs => (h.regions s hs).imp fun _ => And.imp_left (mem_append_left _),
      run, mem_append_right _ (by simp), hof⟩
  · intro x hx
    obtain ⟨s, hs, hin⟩ := h.inside x hx
    exact ⟨s, by rw [hregions]; exact mem_append_left _ hs, hin⟩
  · exact ⟨hmem, hend, hcursor.symm.le, by omega, by simp [hlast]⟩
  · intro x hx
    obtain ⟨s, hs, hin⟩ := h.inside x hx
    obtain ⟨run', hrun', hof'⟩ := h.regions s hs
    have hapart := hof'.shown.apart hof.shown (hnew run' hrun')
    rw [← hof.bytes, ← hof'.bytes] at hapart
    rw [hcursor, hend, Nat.add_sub_cancel_left]
    exact hapart.mono hin (.refl _)
  · simp [hlast]

section

variable (hd : FrameSource.Draws A runs)

include hd

theorem takeRun_draws {want need : Nat} {r : Except AllocError (FrameRange A)}
    (h : takeRun src want need = (src', r)) :
    ∃ taken, runs src = taken ++ runs src' ∧ ∀ run, r = .ok run → run ∈ taken := by
  unfold takeRun at h
  cases ht : FrameSource.take (A := A) src want with
  | mk s1 r1 =>
    obtain ⟨taken, hruns, hmem⟩ := hd.take ht
    rw [ht] at h
    cases r1 with
    | ok run =>
      cases h
      exact ⟨taken, hruns, hmem⟩
    | error e =>
      simp only at h
      split at h
      · obtain ⟨taken', hruns', hmem'⟩ := hd.take h
        refine ⟨taken ++ taken', by rw [hruns, hruns', append_assoc], fun run hr => ?_⟩
        exact mem_append_right _ (hmem' run hr)
      · cases h
        exact ⟨taken, hruns, hmem⟩

/-- `grow` changes nothing, or adds one run it took. -/
theorem grow_cases (h : b.grow src n = (b', src', r)) : ∃ taken, runs src = taken ++ runs src' ∧
      (b' = b ∨ ∃ run ∈ taken, b.addFrames run = .ok b') := by
  unfold grow at h
  split at h
  · cases h
    exact ⟨[], rfl, .inl rfl⟩
  split at h
  · cases h
    exact ⟨[], rfl, .inl rfl⟩
  simp only at h
  split at h
  · cases h
    exact ⟨[], rfl, .inl rfl⟩
  split at h
  · rename_i s e ht
    obtain ⟨taken, hruns, -⟩ := takeRun_draws hd ht
    cases h
    exact ⟨taken, hruns, .inl rfl⟩
  rename_i s run ht
  obtain ⟨taken, hruns, hmem⟩ := takeRun_draws hd ht
  cases hadd : b.addFrames run with
  | error e =>
    rw [hadd] at h
    cases h
    exact ⟨taken, hruns, .inl rfl⟩
  | ok b1 =>
    rw [hadd] at h
    cases h
    exact ⟨taken, hruns, .inr ⟨run, hmem run rfl, hadd⟩⟩

/-- **Growing** hands out nothing, whatever comes of it. -/
theorem Inv.grow (h : Inv b H P)
    (hfresh : (H ++ runs src).Pairwise FrameRange.Apart) (hg : b.grow src n = (b', src', r)) :
    ∃ taken, runs src = taken ++ runs src' ∧ Inv b' (H ++ taken) P ∧ b'.map = b.map := by
  obtain ⟨taken, hruns, hcase⟩ := grow_cases hd hg
  refine ⟨taken, hruns, ?_⟩
  rcases hcase with rfl | ⟨run, hrun, hadd⟩
  · exact ⟨h.mono fun run hr => mem_append_left _ hr, rfl⟩
  have hnew : ∀ r ∈ H, r.Apart run := fun r hr =>
    (pairwise_append.mp hfresh).2.2 r hr run (by rw [hruns]; exact mem_append_left _ hrun)
  obtain ⟨h', hmap⟩ := h.addFrames hnew hadd
  exact ⟨h'.mono (forall_mem_append.mpr
    ⟨fun _ => mem_append_left _, forall_mem_singleton.mpr (mem_append_right _ hrun)⟩), hmap⟩

end

/-! ## Allocating -/

/-- What is carved is aligned, comes from where the cursor stood, and ends at the new cursor. -/
theorem carve_ok (h : b.carve layout.size layout.align = .ok (start, b')) :
    b.cursor ≤ start ∧ layout.align ∣ start ∧ start + layout.size ≤ b.end_ ∧
      ∃ wasted, b' = { b with wasted := wasted, cursor := start + layout.size } := by
  obtain ⟨k, hk⟩ := isPowerOfTwo_iff.mp layout.align_pow
  have hkw : k ≤ A.usizeBits := by
    have h1 : 2 ^ k ≤ 2 ^ A.usizeBits := by
      have := layout.size_add_align_le
      have := Nat.two_pow_pos A.usizeBits
      unfold Arch.usizeMax at *
      omega
    exact (Nat.pow_le_pow_iff_right (by decide)).mp h1
  unfold carve at h
  rw [hk] at h ⊢
  split at h
  · cases h
  rename_i s hs
  obtain ⟨hle, hdvd, -⟩ := checkedAlignUp_spec hkw hs
  split at h
  · cases h
  rename_i next hnext
  obtain ⟨-, rfl⟩ := checkedAdd_eq_some.mp hnext
  split at h
  · cases h
  · rename_i hend
    cases h
    exact ⟨hle, hdvd, not_lt.mp hend, _, rfl⟩

theorem carveOrGrow_spec (hd : FrameSource.Draws A runs) {size align : Nat} (h : Inv b H P)
    (hfresh : (H ++ runs src).Pairwise FrameRange.Apart)
    (hc : b.carveOrGrow src size align = (b', src', r)) :
    ∃ taken b0, runs src = taken ++ runs src' ∧ Inv b0 (H ++ taken) P ∧ b0.map = b.map ∧
      ((∃ e, r = .error e ∧ b' = b0) ∨ ∃ start, r = .ok start ∧
        b0.carve size align = .ok (start, b')) := by
  have hsame : Inv b (H ++ []) P := by rwa [append_nil]
  unfold carveOrGrow at hc
  split at hc
  · rename_i start b1 hcarve
    cases hc
    exact ⟨[], b, rfl, hsame, rfl, .inr ⟨start, rfl, hcarve⟩⟩
  · split at hc
    · cases hc
      exact ⟨[], b, rfl, hsame, rfl, .inl ⟨_, rfl, rfl⟩⟩
    split at hc
    · rename_i b1 s1 e hg
      cases hc
      obtain ⟨taken, hruns, h', hmap⟩ := h.grow hd hfresh hg
      exact ⟨taken, _, hruns, h', hmap, .inl ⟨e, rfl, rfl⟩⟩
    rename_i b1 s1 n hg
    obtain ⟨taken, hruns, h', hmap⟩ := h.grow hd hfresh hg
    split at hc
    · rename_i e hcarve
      cases hc
      exact ⟨taken, _, hruns, h', hmap, .inl ⟨e, rfl, rfl⟩⟩
    · rename_i start b2 hcarve
      cases hc
      exact ⟨taken, b1, hruns, h', hmap, .inr ⟨start, rfl, hcarve⟩⟩
  · cases hc
    exact ⟨[], b, rfl, hsame, rfl, .inl ⟨_, rfl, rfl⟩⟩

/-- What is carved is nobody's, and lies in the region the cursor runs over. -/
theorem Inv.carved (h : Inv b H P) (h0 : 0 < layout.size)
    (hc : b.carve layout.size layout.align = .ok (start, b')) :
    (∀ x ∈ P, Extent.Apart (start, layout.size) x) ∧
      ∃ r, b.Over r ∧ Extent.Within (start, layout.size) r.extent := by
  obtain ⟨hle, -, hend, -⟩ := carve_ok hc
  constructor
  · intro x hx
    refine (h.untouched x hx).symm.mono ⟨hle, ?_⟩ (.refl x)
    omega
  · rcases h.room with ⟨-, hzero, -⟩ | ⟨r, hr⟩
    · omega
    · refine ⟨r, hr, hr.lo.trans hle, ?_⟩
      rw [hr.end_eq] at hend
      exact hend

/-- A block that would start at address zero is lost. -/
theorem Inv.carve_null (h : Inv b H P) (h0 : 0 < layout.size)
    (hc : b.carve layout.size layout.align = .ok (0, b')) : Inv b' H P := by
  obtain ⟨-, r, hr, -⟩ := h.carved h0 hc
  obtain ⟨hle, -, hend, wasted, rfl⟩ := carve_ok hc
  -- nothing ends at address zero, so there is nothing to take back
  have hlast : b.last = none := by
    cases hl : b.last with
    | none => rfl
    | some x =>
      obtain ⟨hx, hfin⟩ := h.last x hl
      have := h.packed.pos x hx
      omega
  have hlo := hr.lo
  refine { h with
    room := .inr ⟨r, hr.mem, hr.end_eq, ?_, hend, ?_⟩
    untouched := ?_
    last := ?_ }
  · simp only; omega
  · simp [hlast]
  · intro x hx
    refine (h.untouched x hx).mono (.refl x) ⟨?_, ?_⟩ <;> (simp only; omega)
  · simp [hlast]

/-- A block handed out joins `P`. -/
theorem Inv.handOut (h : Inv b H P) (h0 : 0 < layout.size)
    (hc : b.carve layout.size layout.align = .ok (start, b')) (hstart : start ≠ 0) :
    Inv (b'.handOut start layout.size) H (insert (start, layout.size) P) := by
  obtain ⟨hapart, r, hr, hin⟩ := h.carved h0 hc
  obtain ⟨hle, -, hend, wasted, rfl⟩ := carve_ok hc
  have hpacked := h.packed.insert (x := (start, layout.size)) h0 hapart
  have hinside : ∀ x ∈ insert (start, layout.size) P, ∃ r ∈ b.regions, Extent.Within x r.extent :=
    (Finset.forall_mem_insert ..).mpr ⟨⟨r, hr.mem, hin⟩, h.inside⟩
  have hnew : (start, layout.size) ∉ P := Extent.Packed.not_mem h0 hapart
  refine ⟨h.regions, hpacked, hinside, ?_, .inr ⟨r, hr.mem, hr.end_eq, ?_, hend, ?_⟩, ?_, ?_, ?_⟩
  · exact (Finset.forall_mem_insert ..).mpr ⟨hstart, h.nonnull⟩
  · have := hr.lo
    simp only [Bump.handOut]
    omega
  · intro x hx
    obtain rfl : (start, layout.size) = x := Option.some.inj hx
    exact hin.1
  · refine (Finset.forall_mem_insert ..).mpr ⟨.inl le_rfl, fun x hx => ?_⟩
    refine (h.untouched x hx).mono (.refl x) ⟨?_, ?_⟩ <;> (simp only [Bump.handOut]; omega)
  · intro x hx
    obtain rfl : (start, layout.size) = x := Option.some.inj hx
    exact ⟨Finset.mem_insert_self _ _, rfl⟩
  · -- the counter cannot saturate: the blocks are disjoint and inside the address space
    have hsize : Extent.size (insert (start, layout.size) P) ≤ A.usizeMax := by
      refine (hpacked.size_le 0 A.usizeMax fun x hx => ?_).trans (Nat.sub_le _ _)
      obtain ⟨s, hs, hw⟩ := hinside x hx
      obtain ⟨run, -, hof⟩ := h.regions s hs
      exact ⟨Nat.zero_le _, hw.2.trans hof.end_le⟩
    rw [Extent.size_insert hnew] at hsize ⊢
    simp only [Bump.handOut, h.inUse]
    rw [satAdd_of_le (by omega), Nat.add_comm]

/-- **Allocating from the arena.** A refusal hands out nothing; otherwise the block is
aligned, not null, and apart from everything handed out before. -/
theorem Inv.tryAllocIn (hd : FrameSource.Draws A runs) (h : Inv b H P)
    (hfresh : (H ++ runs src).Pairwise FrameRange.Apart)
    (ha : b.tryAllocIn layout src = (b', src', r)) :
    ∃ taken, runs src = taken ++ runs src' ∧ b'.map = b.map ∧
      ((∃ e, r = .error e ∧ Inv b' (H ++ taken) P) ∨
        ∃ p, r = .ok p ∧ layout.align ∣ p ∧ (∀ x ∈ P, Extent.Apart (p, layout.size) x) ∧
          0 < layout.size ∧ Inv b' (H ++ taken) (insert (p, layout.size) P)) := by
  unfold Bump.tryAllocIn at ha
  rw [layout.check_eq] at ha
  by_cases h0 : layout.size = 0
  · rw [if_pos h0] at ha
    cases ha
    exact ⟨[], rfl, rfl, .inl ⟨_, rfl, by rwa [append_nil]⟩⟩
  rw [if_neg h0] at ha
  have hpos := pos_of_ne_zero h0
  rcases hc : b.carveOrGrow src layout.size layout.align with ⟨b1, s1, r1⟩
  simp only [hc] at ha
  obtain ⟨taken, b0, hruns, h', hmap, ⟨e, rfl, rfl⟩ | ⟨start, rfl, hcarve⟩⟩ := carveOrGrow_spec hd h hfresh hc
  · cases ha
    exact ⟨taken, hruns, hmap, .inl ⟨_, rfl, h'⟩⟩
  obtain ⟨-, hdvd, -, wasted, hb1⟩ := carve_ok hcarve
  have hmap1 : b1.map = b.map := by rw [hb1]; exact hmap
  by_cases hnull : start = 0
  · subst hnull
    have hptr : b1.map.ptrAt 0 = .error .unmanaged := by
      unfold DirectMap.ptrAt
      split <;> rfl
    simp only [hptr] at ha
    cases ha
    exact ⟨taken, hruns, hmap1, .inl ⟨_, rfl, h'.carve_null hpos hcarve⟩⟩
  · have hout := h'.handOut hpos hcarve hnull
    obtain ⟨phys, hphys⟩ : ∃ phys, b1.map.Maps phys start := hout.maps (Finset.mem_insert_self _ _) hpos
    simp only [DirectMap.ptrAt_of_maps hphys hnull] at ha
    cases ha
    exact ⟨taken, hruns, hmap1, .inr ⟨start, rfl, hdvd, (h'.carved hpos hcarve).1, hpos, hout⟩⟩

/-! ## Freeing -/

/-- **Freeing to the arena.** A block handed out is taken back, and only that one. -/
theorem Inv.dealloc {p : Nat} (h : Inv b H P) (hp : (p, layout.size) ∈ P) :
    ∃ b', b.dealloc p layout = .ok b' ∧ b'.map = b.map ∧ Inv b' H (P.erase (p, layout.size)) := by
  have hpos : 0 < layout.size := h.packed.pos _ hp
  have howns : b.owns p layout.size = true := by
    obtain ⟨r, hr, hin⟩ := h.inside _ hp
    obtain ⟨run, -, hof⟩ := h.regions r hr
    exact any_eq_true.mpr ⟨r, hr, r.contains_of_within hin (by have := hof.end_le; omega)⟩
  have huse : b.inUse - layout.size = Extent.size (P.erase (p, layout.size)) := by
    have := Extent.size_erase hp
    rw [h.inUse]
    omega
  unfold Bump.dealloc
  rw [layout.check_eq, if_neg (pos_iff_ne_zero.mp hpos)]
  simp only [howns, not_true_eq_false, if_false]
  by_cases hl : b.last = some (p, layout.size)
  · rw [if_pos hl]
    obtain ⟨-, hfin⟩ := h.last _ hl
    refine ⟨_, rfl, rfl, h.regions, h.packed.erase _, ?_, ?_, ?_, ?_, ?_, huse⟩
    · exact fun x hx => h.inside x (Finset.mem_of_mem_erase hx)
    · exact fun x hx => h.nonnull x (Finset.mem_of_mem_erase hx)
    · rcases h.room with ⟨-, -, hnone⟩ | ⟨r, hr⟩
      · cases hnone.symm.trans hl
      refine .inr ⟨r, hr.mem, hr.end_eq, hr.last _ hl, ?_, by simp⟩
      have := hr.hi
      simp only
      omega
    · -- the block and the cursor's tail meet, so what is apart from both is apart from the two
      intro x hx
      obtain ⟨hne, hx⟩ := Finset.mem_erase.mp hx
      have h1 := h.packed.apart x hx _ hp hne
      have h2 := h.untouched x hx
      have h3 := h.packed.pos x hx
      simp only [Extent.Apart] at h1 h2 ⊢
      omega
    · simp
  · rw [if_neg hl]
    refine ⟨_, rfl, rfl, { h with
      packed := h.packed.erase _
      inside := fun x hx => h.inside x (Finset.mem_of_mem_erase hx)
      nonnull := fun x hx => h.nonnull x (Finset.mem_of_mem_erase hx)
      room := ?_
      untouched := fun x hx => h.untouched x (Finset.mem_of_mem_erase hx)
      last := fun x hx => ?_
      inUse := huse }⟩
    · rcases h.room with hzero | ⟨r, hr⟩
      · exact .inl hzero
      · exact .inr ⟨r, { hr with }⟩
    · obtain ⟨h1, h2⟩ := h.last x hx
      refine ⟨Finset.mem_erase.mpr ⟨?_, h1⟩, h2⟩
      rintro rfl
      exact hl hx

end Bump

end Kintane
