import Kintane.Kalloc.BuddyInv

/-!
# Splitting, merging and carving keep the metadata honest

Allocation takes a free block in hand, halves it until it has the size asked for,
and marks it used. Freeing takes a used block in hand, joins it with its buddy for
as long as the buddy is free, and lists the result. Each step below is one round of
one of those loops: what it does to the lists `L`, to the blocks in use `U` and to
the tiling `T`, and why the free blocks stay coalesced.
-/

open Finset Function

namespace Kintane.Buddy

open Tiling

variable {A : Arch} {b : Buddy A} {m p k : Nat} {L : Nat → List Nat} {U T : Finset Dyad} {x d : Dyad}

/-- Every block is free or in use, except `x`, which is in hand. -/
structure Holding (b : Buddy A) (m : Nat) (L : Nat → List Nat) (U T : Finset Dyad) (x : Dyad) :
    Prop where
  rep : Rep b m L U T
  mem : x ∈ T
  not_free : x ∉ freeSet L
  not_used : x ∉ U
  rest : ∀ d ∈ T, d ∈ freeSet L ∨ d ∈ U ∨ d = x

/-- Every block is free or in use. -/
def Settled (b : Buddy A) (m : Nat) (L : Nat → List Nat) (U : Finset Dyad) : Prop :=
  Rep b m L U (freeSet L ∪ U)

theorem Holding.tiling_eq (h : Holding b m L U T x) : T = insert x (freeSet L ∪ U) := by
  ext d
  simp only [mem_insert, mem_union]
  constructor
  · intro hd
    rcases h.rest d hd with h1 | h1 | h1 <;> simp [h1]
  · rintro (rfl | h1 | h1)
    · exact h.mem
    · exact h.rep.free_sub h1
    · exact h.rep.used_sub h1

/-! ## Taking a block in hand, and putting it down -/

theorem Settled.take (h : Settled b m L U) {p o : Nat} (ho : o < orders) (hp : p ∈ L o) :
    Holding (b.unlink p o) m (update L o ((L o).erase p)) U (freeSet L ∪ U) ⟨p, o⟩ := by
  have hF : (⟨p, o⟩ : Dyad) ∈ freeSet L := mem_freeSet.mpr ⟨ho, hp⟩
  have hset := freeSet_erase (p := p) (h.nodup o ho)
  refine ⟨h.unlink ho hp, mem_union_left _ hF, ?_, ?_, ?_⟩
  · rw [hset]; exact notMem_erase _ _
  · exact disjoint_left.mp h.free_used hF
  · intro d hd
    rw [hset]
    rcases mem_union.mp hd with hd | hd
    · by_cases he : d = ⟨p, o⟩
      · exact .inr (.inr he)
      · exact .inl (mem_erase.mpr ⟨he, hd⟩)
    · exact .inr (.inl hd)

/-- Marking the block in hand as used. -/
theorem Holding.use (h : Holding b m L U T x) :
    Settled (b.setTag x.start (usedTag x.order)) m L (insert x U) := by
  have hr := h.rep.setTag h.mem h.not_free h.not_used (usedTag x.order)
  have hT : freeSet L ∪ insert x U = T := by
    rw [h.tiling_eq, union_insert]
  unfold Settled
  rw [hT]
  exact
    { hr with
      used_sub := insert_subset h.mem h.rep.used_sub
      free_used := by
        rw [disjoint_insert_right]; exact ⟨h.not_free, h.rep.free_used⟩
      tag_used := fun d hd => by
        rcases mem_insert.mp hd with rfl | hd
        · exact h.rep.tag_setTag h.mem _
        · exact hr.tag_used d hd }

/-- Listing the block in hand as free. -/
theorem Holding.list (h : Holding b m L U T x) :
    Settled ((b.setTag x.start (freeTag x.order)).push x.start x.order) m
      (update L x.order (x.start :: L x.order)) U := by
  have hr := h.rep.setTag h.mem h.not_free h.not_used (freeTag x.order)
  have := hr.push (p := x.start) (o := x.order) h.mem h.not_free h.not_used (h.rep.tag_setTag h.mem _)
  unfold Settled
  rw [freeSet_push (h.rep.order_lt h.mem), insert_union]
  rwa [h.tiling_eq] at this

/-- Taking a used block in hand, untagged. -/
theorem Settled.release (h : Settled b m L U) (hx : x ∈ U) :
    Holding (b.setTag x.start 0) m L (U.erase x) (freeSet L ∪ U) x ∧
      (b.setTag x.start 0).tag x.start = 0 := by
  have hxF : x ∉ freeSet L := fun hF => disjoint_left.mp h.free_used hF hx
  have hxT : x ∈ freeSet L ∪ U := mem_union_right _ hx
  have hweak : Rep b m L (U.erase x) (freeSet L ∪ U) :=
    { h with
      used_sub := (erase_subset _ _).trans h.used_sub
      free_used := h.free_used.mono_right (erase_subset _ _)
      tag_used := fun d hd => h.tag_used d (mem_of_mem_erase hd) }
  refine ⟨⟨hweak.setTag hxT hxF (notMem_erase _ _) 0, hxT, hxF, notMem_erase _ _, ?_⟩, ?_⟩
  · intro d hd
    rcases mem_union.mp hd with hd | hd
    · exact .inl hd
    · by_cases he : d = x
      · exact .inr (.inr he)
      · exact .inr (.inl (mem_erase.mpr ⟨he, hd⟩))
  · exact h.tag_setTag hxT 0

/-! ## Splitting -/

/-- Seeing the block in hand as its two halves. -/
theorem Rep.split (h : Rep b m L U T) (hx : ⟨p, k + 1⟩ ∈ T)
    (hxF : ⟨p, k + 1⟩ ∉ freeSet L) (hxU : ⟨p, k + 1⟩ ∉ U) :
    Rep b m L U (halves p k ∪ (T \ {⟨p, k + 1⟩})) :=
  { h with
    tiling := h.tiling.split hx
    free_sub := fun d hd => mem_union_right _
      (mem_sdiff.mpr ⟨h.free_sub hd, fun he => hxF (mem_singleton.mp he ▸ hd)⟩)
    used_sub := fun d hd => mem_union_right _
      (mem_sdiff.mpr ⟨h.used_sub hd, fun he => hxU (mem_singleton.mp he ▸ hd)⟩)
    tag_zero := fun q hq hno => by
      refine h.tag_zero q hq fun d hd hs => ?_
      by_cases he : d = ⟨p, k + 1⟩
      · subst he
        exact hno ⟨p, k⟩ (mem_union_left _ (mem_halves.mpr (.inl rfl))) hs
      · exact hno d (mem_union_right _
          (mem_sdiff.mpr ⟨hd, by rwa [mem_singleton]⟩)) hs }

theorem mem_half_of (hd : d ∈ halves p k) : d.start ∈ Dyad.mk p (k + 1) :=
  halves_cover.mp ⟨d, hd, d.start_mem⟩

theorem half_ne (hd : d ∈ halves p k) : d ≠ ⟨p, k + 1⟩ := by
  rintro rfl
  rcases mem_halves.mp hd with he | he <;> simp at he

/-- **One split.** The upper half is listed, the lower half stays in hand. -/
theorem Holding.halve (h : Holding b m L U T ⟨p, k + 1⟩) (hc : Coalesced maxOrder (freeSet L)) :
    ∃ T', Holding ((b.setTag (p + 2 ^ k) (freeTag k)).push (p + 2 ^ k) k) m
        (update L k ((p + 2 ^ k) :: L k)) U T' ⟨p, k⟩ ∧
      Coalesced maxOrder (freeSet (update L k ((p + 2 ^ k) :: L k))) := by
  have hal : 2 ^ (k + 1) ∣ p := h.rep.tiling.aligned _ h.mem
  have hk : k < orders := Nat.lt_of_succ_lt (h.rep.order_lt h.mem)
  have hsplit := h.rep.split h.mem h.not_free h.not_used
  have hlo : (⟨p, k⟩ : Dyad) ∈ halves p k := mem_halves.mpr (.inl rfl)
  have hup : (⟨p + 2 ^ k, k⟩ : Dyad) ∈ halves p k := mem_halves.mpr (.inr rfl)
  have hne : (⟨p, k⟩ : Dyad) ≠ ⟨p + 2 ^ k, k⟩ := by
    have := Nat.two_pow_pos k; simp
  -- neither half is already free or in use: it would overlap the block in hand
  have hnot : ∀ d ∈ halves p k, d ∉ freeSet L ∧ d ∉ U := by
    intro d hd
    refine ⟨fun hF => half_ne hd ?_, fun hU => half_ne hd ?_⟩
    · exact h.rep.tiling.disjoint _ (h.rep.free_sub hF) _ h.mem _ d.start_mem (mem_half_of hd)
    · exact h.rep.tiling.disjoint _ (h.rep.used_sub hU) _ h.mem _ d.start_mem (mem_half_of hd)
  have htagged := hsplit.setTag (mem_union_left _ hup) (hnot _ hup).1 (hnot _ hup).2
    (freeTag k)
  have hpushed := htagged.push (mem_union_left _ hup) (hnot _ hup).1 (hnot _ hup).2
    (hsplit.tag_setTag (mem_union_left _ hup) _)
  have hset := freeSet_push (L := L) (p := p + 2 ^ k) hk
  refine ⟨_, ⟨hpushed, mem_union_left _ hlo, ?_, (hnot _ hlo).2, ?_⟩, ?_⟩
  · rw [hset, mem_insert, not_or]
    exact ⟨hne, (hnot _ hlo).1⟩
  · intro d hd
    rw [hset]
    rcases mem_union.mp hd with hd | hd
    · rcases mem_halves.mp hd with rfl | rfl
      · exact .inr (.inr rfl)
      · exact .inl (mem_insert_self _ _)
    · obtain ⟨hd1, hd2⟩ := mem_sdiff.mp hd
      rcases h.rest d hd1 with h1 | h1 | h1
      · exact .inl (mem_insert_of_mem h1)
      · exact .inr (.inl h1)
      · exact absurd (mem_singleton.mpr h1) hd2
  · -- the new free block's buddy is the half in hand
    rw [hset]
    refine hc.insert fun _ => ?_
    rw [Dyad.xor_add_two_pow hal]
    exact (hnot _ hlo).1

/-! ## Merging -/

/-- Seeing two halves in hand as their parent, once neither carries a tag. -/
theorem Rep.join (h : Rep b m L U T) {r k : Nat} (hal : 2 ^ (k + 1) ∣ r) (hk : k + 1 ≤ maxOrder)
    (hT : halves r k ⊆ T) (hnot : ∀ d ∈ halves r k, d ∉ freeSet L ∧ d ∉ U)
    (htag : b.tag (r + 2 ^ k) = 0) :
    Rep b m L U ({⟨r, k + 1⟩} ∪ (T \ halves r k)) :=
  { h with
    tiling := h.tiling.join hal hk hT
    free_sub := fun d hd => mem_union_right _
      (mem_sdiff.mpr ⟨h.free_sub hd, fun hh => (hnot d hh).1 hd⟩)
    used_sub := fun d hd => mem_union_right _
      (mem_sdiff.mpr ⟨h.used_sub hd, fun hh => (hnot d hh).2 hd⟩)
    tag_zero := fun q hq hno => by
      by_cases he : q = r + 2 ^ k
      · rw [he]; exact htag
      refine h.tag_zero q hq fun d hd hs => ?_
      by_cases hh : d ∈ halves r k
      · rcases mem_halves.mp hh with rfl | rfl
        · exact hno ⟨r, k + 1⟩ (mem_union_left _ (mem_singleton_self _)) hs
        · exact he hs.symm
      · exact hno d (mem_union_right _ (mem_sdiff.mpr ⟨hd, hh⟩)) hs }

/-- **One merge.** The free buddy leaves its list and the two become their parent. -/
theorem Holding.absorb (h : Holding b m L U T ⟨p, k⟩) (htag : b.tag p = 0)
    (hk : k < maxOrder) (hbud : (⟨p ^^^ 2 ^ k, k⟩ : Dyad) ∈ freeSet L) :
    ∃ T', Holding ((b.unlink (p ^^^ 2 ^ k) k).setTag (p ^^^ 2 ^ k) 0) m
        (update L k ((L k).erase (p ^^^ 2 ^ k))) U T' ⟨min p (p ^^^ 2 ^ k), k + 1⟩ ∧
      ((b.unlink (p ^^^ 2 ^ k) k).setTag (p ^^^ 2 ^ k) 0).tag (min p (p ^^^ 2 ^ k)) = 0 := by
  have ho : k < orders := Nat.lt_succ_of_lt hk
  obtain ⟨r, hal, hcase⟩ := Dyad.exists_parent (h.rep.tiling.aligned _ h.mem)
  simp only at hal hcase
  generalize p ^^^ 2 ^ k = q at *
  have hmin : min p q = r := by omega
  have hqL : q ∈ L k := (mem_freeSet.mp hbud).2
  have hset := freeSet_erase (p := q) (h.rep.nodup k ho)
  have hqU : (⟨q, k⟩ : Dyad) ∉ U := disjoint_left.mp h.rep.free_used hbud
  have h1 := h.rep.unlink ho hqL
  have hqF : (⟨q, k⟩ : Dyad) ∉ freeSet (update L k ((L k).erase q)) := by
    rw [hset]; exact notMem_erase _ _
  have hqT : (⟨q, k⟩ : Dyad) ∈ T := h.rep.free_sub hbud
  have h2 := h1.setTag hqT hqF hqU 0
  have hpP := h1.start_lt h.mem
  have hqP := h1.start_lt hqT
  -- both halves are now untagged
  have htp : ((b.unlink q k).setTag q 0).tag p = 0 := by
    rw [h1.sized.tag_setTag hqP hpP]
    split
    · rfl
    rw [(h.rep.unlinked ho hqL).tag p (h.rep.start_lt h.mem)]
    exact htag
  have htq : ((b.unlink q k).setTag q 0).tag q = 0 := h1.tag_setTag hqT 0
  have hmem : ∀ d ∈ halves r k, d = ⟨p, k⟩ ∨ d = ⟨q, k⟩ := by
    intro d hd
    rcases hcase with ⟨h3, h4⟩ | ⟨h3, h4⟩ <;> rw [h3, h4]
    · exact mem_halves.mp hd
    · exact (mem_halves.mp hd).symm
  have hmem' : (⟨p, k⟩ : Dyad) ∈ halves r k ∧ (⟨q, k⟩ : Dyad) ∈ halves r k := by
    rcases hcase with ⟨h3, h4⟩ | ⟨h3, h4⟩ <;> rw [h3, h4] <;> simp [halves]
  have hpF : (⟨p, k⟩ : Dyad) ∉ freeSet (update L k ((L k).erase q)) := by
    rw [hset]; exact fun hm => h.not_free (mem_of_mem_erase hm)
  have hjoin := h2.join (r := r) (k := k) hal hk
    (fun d hd => by rcases hmem d hd with rfl | rfl; exacts [h.mem, hqT])
    (fun d hd => by
      rcases hmem d hd with rfl | rfl
      exacts [⟨hpF, h.not_used⟩, ⟨hqF, hqU⟩])
    (by rcases hcase with ⟨h3, h4⟩ | ⟨h3, h4⟩
        · rw [← h4]; exact htq
        · rw [← h3]; exact htp)
  rw [hmin]
  -- the parent is new: it overlaps the halves
  have hpar : ∀ d ∈ T, d ≠ ⟨r, k + 1⟩ := by
    rintro d hd rfl
    have := h.rep.tiling.disjoint _ h.mem _ hd _ (Dyad.start_mem ⟨p, k⟩) (mem_half_of hmem'.1)
    simp at this
  refine ⟨_, ⟨hjoin, mem_union_left _ (mem_singleton_self _), ?_, ?_, ?_⟩, ?_⟩
  · rw [hset]
    exact fun hm => hpar _ (h.rep.free_sub (mem_of_mem_erase hm)) rfl
  · exact fun hm => hpar _ (h.rep.used_sub hm) rfl
  · intro d hd
    rw [hset]
    rcases mem_union.mp hd with hd | hd
    · exact .inr (.inr (mem_singleton.mp hd))
    obtain ⟨hd1, hd2⟩ := mem_sdiff.mp hd
    rcases h.rest d hd1 with h5 | h5 | h5
    · refine .inl (mem_erase.mpr ⟨?_, h5⟩)
      rintro rfl; exact hd2 hmem'.2
    · exact .inr (.inl h5)
    · exact absurd (h5 ▸ hmem'.1) hd2
  · rcases hcase with ⟨h3, h4⟩ | ⟨h3, h4⟩
    · rw [← h3]; exact htp
    · rw [← h4]; exact htq

end Kintane.Buddy
