import Kintane.Lib.Extents
import Kintane.Mm.Frame

/-!
# The direct map

A window of physical memory the kernel reaches through a fixed offset. It is a claim,
not a mapping: whoever builds one asserts that the window is mapped. What `new` checks
is that neither end of the window leaves its address space, so that the conversions
fail only for addresses outside it.

Nothing asks that the offset keep an address's place in its page. That is
`KeepsPages`, a property of the window rather than of the type.
-/

namespace Kintane

/-- `len` bytes of physical memory from `physBase`, visible at `virtBase`. -/
structure DirectMap (A : Arch) where
  physBase : Nat
  virtBase : Nat
  len : Nat
  len_pos : 0 < len
  /-- The last physical byte is a `u64`. -/
  phys_fits : physBase + (len - 1) ≤ u64Max
  /-- The last virtual byte is a `usize`. -/
  virt_fits : virtBase + (len - 1) ≤ A.usizeMax

namespace DirectMap

variable {A : Arch} {m : DirectMap A} {phys virt i : Nat}

def new (A : Arch) (physBase virtBase len : Nat) : Except AllocError (DirectMap A) :=
  if h0 : len = 0 then .error .emptyRequest
  else if hp : physBase + (len - 1) ≤ u64Max then
    match narrow A (len - 1) with
    | .error e => .error e
    | .ok _ =>
      if hv : virtBase + (len - 1) ≤ A.usizeMax then
        .ok ⟨physBase, virtBase, len, Nat.pos_of_ne_zero h0, hp, hv⟩
      else .error .overflow
  else .error .overflow

def coversVirt (m : DirectMap A) (virt : Nat) : Bool :=
  match checkedSub virt m.virtBase with
  | some off => off < m.len
  | none => false

def toVirt (m : DirectMap A) (phys : Nat) : Except AllocError Nat :=
  match checkedSub phys m.physBase with
  | none => .error .unmanaged
  | some off =>
    if m.len ≤ off then .error .unmanaged
    else match narrow A off with
      | .error e => .error e
      | .ok off =>
        match checkedAdd A.usizeMax m.virtBase off with
        | none => .error .overflow
        | some v => .ok v

def toPhys (m : DirectMap A) (virt : Nat) : Except AllocError Nat :=
  match checkedSub virt m.virtBase with
  | none => .error .unmanaged
  | some off =>
    if m.len ≤ off then .error .unmanaged
    else match checkedAdd u64Max m.physBase off with
      | none => .error .overflow
      | some p => .ok p

def ptrAt (m : DirectMap A) (virt : Nat) : Except AllocError Nat :=
  if ¬ m.coversVirt virt then .error .unmanaged
  else if virt = 0 then .error .unmanaged
  else .ok virt

def ptrToPhys (m : DirectMap A) (phys : Nat) : Except AllocError Nat :=
  match m.toVirt phys with
  | .error e => .error e
  | .ok v => m.ptrAt v

/-- An address has the same place in its page on both sides of the window. -/
def KeepsPages (m : DirectMap A) : Prop := m.virtBase % A.pageSize = m.physBase % A.pageSize

/-- `virt` is where the window shows `phys`. -/
def Maps (m : DirectMap A) (phys virt : Nat) : Prop :=
  ∃ off < m.len, phys = m.physBase + off ∧ virt = m.virtBase + off

/-- Inside the window the conversion is the offset, and outside it is refused. -/
theorem toVirt_eq_ok : m.toVirt phys = .ok virt ↔ m.Maps phys virt := by
  have hv := m.virt_fits
  unfold toVirt checkedSub narrow checkedAdd Maps
  by_cases h1 : m.physBase ≤ phys
  · by_cases h2 : m.len ≤ phys - m.physBase
    · simp only [if_pos h1, if_pos h2, reduceCtorEq, false_iff]
      intro hex
      omega
    rw [if_pos h1]
    simp only
    rw [if_neg h2, if_pos (by omega)]
    simp only
    rw [if_pos (by omega)]
    simp only [Except.ok.injEq]
    refine ⟨fun he => ⟨phys - m.physBase, by omega, by omega, he.symm⟩, fun hex => ?_⟩
    omega
  · simp only [if_neg h1, reduceCtorEq, false_iff]
    intro hex
    omega

theorem toPhys_eq_ok : m.toPhys virt = .ok phys ↔ m.Maps phys virt := by
  have hp := m.phys_fits
  unfold toPhys checkedSub checkedAdd Maps
  by_cases h1 : m.virtBase ≤ virt
  · by_cases h2 : m.len ≤ virt - m.virtBase
    · simp only [if_pos h1, if_pos h2, reduceCtorEq, false_iff]
      intro hex
      omega
    · rw [if_pos h1]
      simp only
      rw [if_neg h2, if_pos (by omega)]
      simp only [Except.ok.injEq]
      refine ⟨fun he => ⟨virt - m.virtBase, by omega, he.symm, by omega⟩, fun hex => ?_⟩
      omega
  · simp only [if_neg h1, reduceCtorEq, false_iff]
    intro hex
    omega

theorem coversVirt_iff : m.coversVirt virt = true ↔ ∃ phys, m.Maps phys virt := by
  unfold coversVirt checkedSub Maps
  by_cases h1 : m.virtBase ≤ virt
  · simp only [if_pos h1, decide_eq_true_eq]
    refine ⟨fun h => ⟨_, virt - m.virtBase, h, rfl, by omega⟩, fun hex => ?_⟩
    omega
  · simp only [if_neg h1, Bool.false_eq_true, false_iff]
    intro hex
    omega

/-- A pointer into the window is formed for every address but zero. -/
theorem ptrAt_of_maps (h : m.Maps phys virt) (h0 : virt ≠ 0) : m.ptrAt virt = .ok virt := by
  have hc : m.coversVirt virt = true := coversVirt_iff.mpr ⟨phys, h⟩
  unfold ptrAt
  rw [if_neg (not_not.mpr hc), if_neg h0]

namespace Maps

variable (h : m.Maps phys virt)

include h

theorem virt_le : virt ≤ A.usizeMax := by
  obtain ⟨off, hlt, -, rfl⟩ := h
  have := m.virt_fits
  omega

theorem phys_lt : phys < 2 ^ 64 := by
  obtain ⟨off, hlt, rfl, -⟩ := h
  have := m.phys_fits
  simp only [u64Max] at this
  omega

/-- Distances are the same on both sides. -/
theorem sub_eq {phys' virt' : Nat} (h' : m.Maps phys' virt') : phys + virt' = phys' + virt := by
  obtain ⟨off, -, rfl, rfl⟩ := h
  obtain ⟨off', -, rfl, rfl⟩ := h'
  omega

/-- Between two mapped addresses everything is mapped. -/
theorem between {n : Nat} (hn : ∃ v, m.Maps (phys + n) v) (hi : i ≤ n) : m.Maps (phys + i) (virt + i) := by
  obtain ⟨off, hlt, rfl, rfl⟩ := h
  obtain ⟨v, off', hlt', he, -⟩ := hn
  exact ⟨off + i, by omega, by omega, by omega⟩

/-- In a window that keeps pages, a page boundary is one on both sides. -/
theorem page_dvd (hk : m.KeepsPages) (hp : A.pageSize ∣ phys) : A.pageSize ∣ virt := by
  obtain ⟨off, -, rfl, rfl⟩ := h
  rw [Nat.dvd_iff_mod_eq_zero] at hp ⊢
  rw [Nat.add_mod] at hp ⊢
  rw [hk, hp]

end Maps

/-! ## Runs of frames -/

/-- The window shows every byte of `run`, from `virt` on. -/
structure Shows (m : DirectMap A) (run : FrameRange A) (virt : Nat) : Prop where
  first : m.Maps run.start.start virt
  last : ∃ v, m.Maps (run.start.start + (run.bytes - 1)) v

namespace Shows

variable {run run' : FrameRange A} {virt' : Nat}

theorem maps (h : m.Shows run virt) (hi : i < run.bytes) :
    m.Maps (run.start.start + i) (virt + i) := h.first.between h.last (by omega)

/-- Runs that share no frame are seen at addresses that are apart. -/
theorem apart (h : m.Shows run virt) (h' : m.Shows run' virt') (ha : run.Apart run') :
    Extent.Apart (virt, run.bytes) (virt', run'.bytes) := by
  have hsub := h.first.sub_eq h'.first
  have h1 := run.start.start_eq
  have h2 := run'.start.start_eq
  rcases ha with ha | ha
  · have := Nat.mul_le_mul_right A.pageSize ha
    rw [add_mul] at this
    exact .inl (by simp only [FrameRange.bytes]; omega)
  · have := Nat.mul_le_mul_right A.pageSize ha
    rw [add_mul] at this
    exact .inr (by simp only [FrameRange.bytes]; omega)

end Shows

/-- Both ends of a run inside the window put all of it there. -/
theorem shows_of_toVirt {run : FrameRange A} {last : Nat} (h1 : m.toVirt run.start.start = .ok virt)
    (h2 : m.toVirt (run.start.start + (run.bytes - 1)) = .ok last) : m.Shows run virt :=
  ⟨toVirt_eq_ok.mp h1, last, toVirt_eq_ok.mp h2⟩

end DirectMap

end Kintane
