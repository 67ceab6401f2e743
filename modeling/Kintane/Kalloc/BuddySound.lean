import Kintane.Kalloc.BuddyRuns

/-!
# What the checker has shown

`check` may be run over anything: a store of arbitrary bytes, heads and counters that mean nothing,
any number of pages. It always comes back, and when it finds nothing wrong the allocator is
consistent.

The walks never look for a free block that is on no list. Such a block would make the pages tagged
free more than the pages listed, and both sums have to be `free_pages`.
-/

open Finset

namespace Kintane.Buddy

variable {A : Arch} {b : Buddy A} {L : Nat → List Nat} {T : Finset Dyad}

/-- What `check` is there to find out. -/
structure Consistent (b : Buddy A) : Prop where
  tiles : Tiling b.pages maxOrder (freeHeads b ∪ usedHeads b)
  /-- The pages inside a block carry no tag. -/
  interior : ∀ d ∈ freeHeads b ∪ usedHeads b, ∀ p, d.start < p → p < d.start + 2 ^ d.order → b.tag p = 0
  /-- Each order's links spell the heads tagged free at that order, once each. -/
  lists : ∀ o ≤ maxOrder, ∃ l, Linked b.next b.prev nilLink nilLink (b.head o) l ∧ l.Nodup ∧
    ∀ p, p ∈ l ↔ ⟨p, o⟩ ∈ freeHeads b
  coalesced : Coalesced maxOrder (freeHeads b)
  free_pages : b.freePages = ∑ d ∈ freeHeads b, 2 ^ d.order

/-- Fuel for every page is enough. -/
theorem checkPages_fuel (more : Nat) : ∀ (fuel page tf : Nat), b.pages ≤ page + fuel →
    b.checkPages (fuel + more) page tf = b.checkPages fuel page tf := by
  intro fuel
  induction fuel with
  | zero =>
    intro page tf hle
    rcases checkPages_step b page tf with ⟨-, hend⟩ | ⟨hlt, -⟩
    · rw [hend, hend]
    · omega
  | succ fuel ih =>
    intro page tf hle
    rw [add_right_comm]
    rcases checkPages_step b page tf with ⟨-, hend⟩ | ⟨-, ⟨⟨e, herr⟩, -⟩ | ⟨order, hblock, hnext⟩⟩
    · rw [hend, hend]
    · rw [herr, herr]
    · have := Nat.two_pow_pos order
      rw [hnext, hnext, ih _ _ (by omega)]

section

variable (h : Checked b L T)

include h

theorem Checked.nodup (o : Nat) (ho : o < orders) : (L o).Nodup :=
  (h.lists o ho).linked.nodup fun hmem => (h.lists o ho).linked.ne_nil _ hmem rfl

/-- The sum of the lists cannot have saturated: the pages tagged free are fewer than that. -/
theorem Checked.sum_eq : ∑ d ∈ freeSet L, 2 ^ d.order = b.freePages := by
  have hle : b.freePages ≤ b.pages := by
    rw [h.walked.total, ← h.walked.tiling.sum_eq]
    exact sum_le_sum_of_subset (filter_subset _ _)
  have hlisted := h.listed
  have := h.walked.small
  rw [sum_freeSet h.nodup, range_eq_Ico]
  unfold satAdd at hlisted
  omega

theorem Checked.tag_eq {p o : Nat} (hp : ⟨p, o⟩ ∈ freeSet L) : p < b.pages ∧ b.tag p = freeTag o :=
  (h.lists o (mem_freeSet.mp hp).1).tags p (mem_freeSet.mp hp).2

/-- Blocks that are listed are blocks the page walk met, and as the sums agree it met no other. -/
theorem Checked.freeSet_eq : freeSet L = freeHeads b := by
  have hsub : freeSet L ⊆ freeHeads b := by
    intro d hd
    obtain ⟨hp, htag⟩ := h.tag_eq hd
    obtain ⟨hfree, horder, -⟩ := freeTag_decode d.order (mem_freeSet.mp hd).1
    refine mem_image.mpr ⟨d.start, mem_filter.mpr ⟨mem_range.mpr hp, htag ▸ hfree⟩, ?_⟩
    rw [htag, horder]
  refine Finset.Subset.antisymm hsub fun d hd => ?_
  by_contra hnot
  have := sum_lt_sum_of_subset (f := fun d : Dyad => 2 ^ d.order) hsub hd hnot
    (Nat.two_pow_pos d.order) fun _ _ _ => Nat.zero_le _
  rw [h.sum_eq, ← h.walked.total_eq] at this
  exact Nat.lt_irrefl _ this

theorem Checked.consistent : Consistent b := by
  have hF := h.freeSet_eq
  have hT : freeHeads b ∪ usedHeads b = T := by
    rw [h.walked.freeHeads_eq, h.walked.usedHeads_eq, filter_union_filter_not_eq]
  constructor
  case tiles => exact hT ▸ h.walked.tiling
  case interior => exact fun d hd => (h.walked.block d (hT ▸ hd)).interior
  case lists =>
    intro o ho
    have ho : o < orders := Nat.lt_succ_of_le ho
    refine ⟨L o, (h.lists o ho).linked, h.nodup o ho, fun p => ?_⟩
    rw [← hF, mem_freeSet]
    exact (and_iff_right ho).symm
  case coalesced =>
    intro p k hk hdvd hp hq
    have hin := h.walked.tiling.inside _ (hT ▸ mem_union_left _ hq)
    have hfree := hp
    rw [h.walked.freeHeads_eq] at hfree
    obtain ⟨hmem, hfree⟩ := mem_filter.mp hfree
    have hapart := (h.walked.block _ hmem).apart hfree hk
    rw [Dyad.xor_eq_of_dvd hdvd] at hapart
    rw [← hF] at hp hq
    exact hapart ((Nat.min_le_left _ _).trans hin) ((h.tag_eq hq).2.trans (h.tag_eq hp).2.symm)
  case free_pages => rw [← hF, h.sum_eq]

end

/-- **The checker is sound for arbitrary contents.** It comes back, whatever the bytes, and when it
finds nothing wrong the allocator is consistent. -/
theorem check_sound (b : Buddy A) : (∃ r, b.check = .ret r) ∧
      (∀ more, b.checkPages (b.pages + more) 0 0 = b.checkPages b.pages 0 0) ∧
      (b.check = .ret (.ok ()) → Consistent b) := by
  obtain ⟨r, hr, hiff⟩ := check_spec b
  refine ⟨⟨r, hr⟩, fun more => checkPages_fuel more _ _ _ (by omega), fun h => ?_⟩
  cases hr.symm.trans h
  obtain ⟨L, T, hfound⟩ := hiff.mp rfl
  exact hfound.consistent

end Kintane.Buddy
