import Kintane.Lib.Dyadic
import Kintane.Lib.Linked
import Kintane.Kalloc.BuddyStore

/-!
# What a buddy allocator's metadata means

The bytes describe three things at once, and the invariant says that they agree:
a tiling of the run by dyadic blocks, which of them are free, and which are handed
out. `Rep b m L U T` reads the metadata that way. `L o` is the free list of order
`o`, front first; `U` is the set of blocks in use; `T` tiles the first `m` pages.

Between two writes a block may be in neither `L` nor `U`: it has been unlinked and
not yet given a new role. At most one is ever held like that when a step begins,
and `Holding` names it; `Settled` says there is none. Every operation is a chain
of steps from `Settled` through `Holding` back to `Settled`.
-/

open Finset Function

namespace Kintane.Buddy

variable {A : Arch} {b : Buddy A} {d : Dyad} {p o o' o : Nat} {L : Nat → List Nat}

/-! ## Tags -/

abbrev freeTag (order : Nat) : UInt8 := tagFree ||| orderBits order

abbrev usedTag (order : Nat) : UInt8 := tagUsed ||| orderBits order

theorem freeTag_decode : ∀ o < orders, freeTag o &&& tagFree ≠ 0 ∧
    (freeTag o &&& tagOrder).toNat = o ∧ freeTag o ≠ 0 := by decide

theorem usedTag_decode : ∀ o < orders, usedTag o &&& tagFree = 0 ∧ usedTag o &&& tagUsed ≠ 0 ∧
    (usedTag o &&& tagOrder).toNat = o ∧ usedTag o ≠ 0 := by decide

theorem freeTag_inj (ho : o < orders) (ho' : o' < orders)
    (h : freeTag o = freeTag o') : o = o' := by
  rw [← (freeTag_decode o ho).2.1, ← (freeTag_decode o' ho').2.1, h]

theorem usedTag_ne_freeTag (ho : o < orders) (ho' : o' < orders) : usedTag o ≠ freeTag o' := by
  intro h
  have h1 := (usedTag_decode o ho).1
  rw [h] at h1
  exact (freeTag_decode o' ho').1 h1

/-! ## Free lists as a set of blocks -/

/-- The blocks the free lists name. -/
def freeSet (L : Nat → List Nat) : Finset Dyad :=
  (range orders).biUnion fun o => (L o).toFinset.image fun p => ⟨p, o⟩

theorem mem_freeSet : d ∈ freeSet L ↔ d.order < orders ∧ d.start ∈ L d.order := by
  unfold freeSet
  simp only [mem_biUnion, mem_range, mem_image, List.mem_toFinset]
  constructor
  · rintro ⟨o, ho, p, hp, rfl⟩; exact ⟨ho, hp⟩
  · rintro ⟨ho, hp⟩; exact ⟨d.order, ho, d.start, hp, rfl⟩

theorem freeSet_push (ho : o < orders) :
    freeSet (update L o (p :: L o)) = insert ⟨p, o⟩ (freeSet L) := by
  ext ⟨q, o'⟩
  simp only [mem_insert, mem_freeSet, Dyad.mk.injEq]
  by_cases he : o' = o
  · subst he; simp [ho]
  · simp [he]

theorem freeSet_erase (hnd : (L o).Nodup) :
    freeSet (update L o ((L o).erase p)) = (freeSet L).erase ⟨p, o⟩ := by
  ext ⟨q, o'⟩
  simp only [mem_erase, mem_freeSet, ne_eq, Dyad.mk.injEq]
  by_cases he : o' = o
  · subst he; simp [hnd.mem_erase_iff, and_left_comm]
  · simp [he]

/-- The pages on the free lists, order by order. -/
theorem sum_freeSet (hnd : ∀ o < orders, (L o).Nodup) :
    ∑ d ∈ freeSet L, 2 ^ d.order = ∑ o ∈ range orders, (L o).length * 2 ^ o := by
  unfold freeSet
  rw [sum_biUnion]
  · refine sum_congr rfl fun o ho => ?_
    rw [sum_image (by intro x _ y _ h; exact (Dyad.mk.inj h).1)]
    rw [sum_const_nat (m := 2 ^ o) (fun _ _ => rfl), List.toFinset_card_of_nodup (hnd o (mem_range.mp ho))]
  · intro o _ o' _ hne
    refine disjoint_left.mpr fun d hd hd' => hne ?_
    obtain ⟨p, _, rfl⟩ := mem_image.mp hd
    obtain ⟨p', _, he⟩ := mem_image.mp hd'
    exact (Dyad.mk.inj he).2.symm

/-! ## The representation -/

/-- The metadata of `b` describes the tiling `T` of the first `m` pages. -/
structure Rep (b : Buddy A) (m : Nat) (L : Nat → List Nat) (U T : Finset Dyad) : Prop where
  sized : b.Sized
  le_pages : m ≤ b.pages
  tiling : Tiling m maxOrder T
  /-- Each order's links spell its free list in both directions. -/
  linked : ∀ o < orders, Linked b.next b.prev nilLink nilLink (b.head o) (L o)
  free_sub : freeSet L ⊆ T
  used_sub : U ⊆ T
  free_used : Disjoint (freeSet L) U
  count : ∀ o < orders, b.freeBlocks[o]?.getD 0 = (L o).length
  total : b.freePages = ∑ d ∈ freeSet L, 2 ^ d.order
  tag_free : ∀ d ∈ freeSet L, b.tag d.start = freeTag d.order
  tag_used : ∀ d ∈ U, b.tag d.start = usedTag d.order
  /-- A page no block starts at carries no tag. -/
  tag_zero : ∀ p < b.pages, (∀ d ∈ T, d.start ≠ p) → b.tag p = 0

namespace Rep

variable {m : Nat} {U T : Finset Dyad}

variable (h : Rep b m L U T)

include h

theorem order_lt (hd : d ∈ T) : d.order < orders :=
  Nat.lt_succ_of_le (h.tiling.order_le d hd)

theorem start_lt (hd : d ∈ T) : d.start < b.pages :=
  (h.tiling.start_lt hd).trans_le h.le_pages

theorem nodup (o : Nat) (ho : o < orders) : (L o).Nodup :=
  (h.linked o ho).nodup fun hm => (h.linked o ho).ne_nil _ hm rfl

section

variable (ho : o < orders)

include ho

theorem mem_list (hp : p ∈ L o) : ⟨p, o⟩ ∈ T := h.free_sub (mem_freeSet.mpr ⟨ho, hp⟩)

/-- No page is on two lists. -/
theorem order_eq (ho' : o' < orders) (hp : p ∈ L o) (hp' : p ∈ L o') : o = o' :=
  (Dyad.mk.inj (h.tiling.eq_of_start (h.mem_list ho hp) (h.mem_list ho' hp') rfl)).2

theorem list_lt (hp : p ∈ L o) : p < b.pages := h.start_lt (h.mem_list ho hp)

theorem length_le : (L o).length ≤ b.pages := by
  have hsub : (L o).toFinset ⊆ range b.pages := by
    intro p hp
    exact mem_range.mpr (h.list_lt ho (List.mem_toFinset.mp hp))
  have := card_le_card hsub
  rwa [List.toFinset_card_of_nodup (h.nodup o ho), card_range] at this

theorem head_mem (hn : b.head o ≠ nilLink) : b.head o ∈ L o := by
  obtain ⟨t, ht⟩ := (h.linked o ho).eq_cons hn
  exact ht ▸ List.mem_cons_self ..

theorem head_ok : b.head o = nilLink ∨ b.head o < b.pages := by
  by_cases hn : b.head o = nilLink
  · exact .inl hn
  · exact .inr (h.list_lt ho (h.head_mem ho hn))

end

/-- The free pages never exceed the run, whatever is in hand. -/
theorem total_add_le (hd : d ∈ T) (hdF : d ∉ freeSet L) : b.freePages + 2 ^ d.order ≤ b.pages := by
  have hins : insert d (freeSet L) ⊆ T := insert_subset hd h.free_sub
  have hsum := sum_le_sum_of_subset (f := fun d : Dyad => 2 ^ d.order) hins
  rw [sum_insert hdF, h.tiling.sum_eq, ← h.total] at hsum
  have := h.le_pages
  omega

theorem coalesced_erase {M : Nat} (hc : Coalesced M (freeSet L)) (ho : o < orders) :
    Coalesced M (freeSet (update L o ((L o).erase p))) := by
  rw [freeSet_erase (h.nodup o ho)]
  exact hc.mono (erase_subset _ _)

/-- A free tag is carried by the blocks of the free lists and by nothing else. -/
theorem tag_eq_freeTag (hp : p < b.pages) (ho : o < orders)
    (hhand : ∀ d ∈ T, d.start = p → d ∈ freeSet L ∨ d ∈ U) :
    b.tag p = freeTag o ↔ ⟨p, o⟩ ∈ freeSet L := by
  constructor
  · intro ht
    by_cases hs : ∃ d ∈ T, d.start = p
    · obtain ⟨d, hd, rfl⟩ := hs
      rcases hhand d hd rfl with hF | hU
      · rw [h.tag_free d hF] at ht
        rw [← freeTag_inj (h.order_lt hd) ho ht]
        exact hF
      · rw [h.tag_used d hU] at ht
        exact absurd ht (usedTag_ne_freeTag (h.order_lt hd) ho)
    · rw [h.tag_zero p hp (fun d hd he => hs ⟨d, hd, he⟩)] at ht
      exact absurd ht.symm (freeTag_decode o ho).2.2
  · intro hF
    exact h.tag_free ⟨p, o⟩ hF

/-! ## Primitive steps -/

/-- Tagging a block that is in hand disturbs nothing. -/
theorem setTag (hd : d ∈ T) (hdF : d ∉ freeSet L) (hdU : d ∉ U)
    (t : UInt8) : Rep (b.setTag d.start t) m L U T := by
  have hs : StoreOnly b (b.setTag d.start t) := .setField ..
  have hr := h.sized.setTag (h.start_lt hd) t
  have htag : ∀ e ∈ T, e ≠ d → (b.setTag d.start t).tag e.start = b.tag e.start := by
    intro e he hne
    rw [hr.tag _ (h.start_lt he), if_neg]
    exact fun hst => hne (h.tiling.eq_of_start he hd hst)
  exact
    { h with
      sized := hr.sized
      le_pages := hr.pages ▸ h.le_pages
      linked := fun o ho => by
        rw [hs.head]
        exact (h.linked o ho).frame (fun q hq => hr.next q (h.list_lt ho hq)) fun q hq => hr.prev q (h.list_lt ho hq)
      count := by rw [hs.eq]; exact h.count
      total := by rw [hs.eq]; exact h.total
      tag_free := fun e he => by
        rw [htag e (h.free_sub he) (fun hed => hdF (hed ▸ he))]; exact h.tag_free e he
      tag_used := fun e he => by
        rw [htag e (h.used_sub he) (fun hed => hdU (hed ▸ he))]; exact h.tag_used e he
      tag_zero := fun p hp hno => by
        rw [hr.pages] at hp
        rw [hr.tag p hp, if_neg (hno d hd).symm]
        exact h.tag_zero p hp hno }

theorem tag_setTag (hd : d ∈ T) (t : UInt8) : (b.setTag d.start t).tag d.start = t :=
  (h.sized.tag_setTag (h.start_lt hd) (h.start_lt hd)).trans (if_pos rfl)

/-- Counters that no invariant reads. -/
theorem setStats (live splits merges : Nat) :
    Rep { b with liveBlocks := live, splits := splits, merges := merges } m L U T :=
  { h with sized := { h.sized with } }

theorem unlinked (ho : o < orders) (hp : p ∈ L o) : Unlinked b (b.unlink p o) p o := by
  refine h.sized.unlink ho ?_ ?_
  · exact (List.mem_cons.mp ((h.linked o ho).prev_mem hp)).imp_right fun hq => h.list_lt ho hq
  · exact ((h.linked o ho).next_mem hp).imp_right fun hq => h.list_lt ho (List.mem_of_mem_tail hq)

/-- Unlinking a free block takes it in hand. -/
theorem unlink (ho : o < orders) (hp : p ∈ L o) : Rep (b.unlink p o) m (update L o ((L o).erase p)) U T := by
  have hl := h.linked o ho
  have hu := h.unlinked ho hp
  have hset := freeSet_erase (p := p) (h.nodup o ho)
  have hpF : (⟨p, o⟩ : Dyad) ∈ freeSet L := mem_freeSet.mpr ⟨ho, hp⟩
  have hnil : nilLink ∉ L o := fun hm => hl.ne_nil _ hm rfl
  exact
    { h with
      sized := hu.sized
      le_pages := hu.pages ▸ h.le_pages
      linked := fun o' ho' => by
        by_cases he : o' = o
        · subst he
          rw [update_self, hu.head]
          have hgone : Linked (b.unlink p o').next (b.unlink p o').prev nilLink nilLink
              (if b.prev p = nilLink then b.next p else b.head o') ((L o').erase p) :=
            hl.erase hp hnil
              (fun q hq _ => hu.next q (h.list_lt ho hq))
              (fun q hq _ => hu.prev q (h.list_lt ho hq))
          simpa using hgone
        · rw [update_of_ne he, hu.head, if_neg (fun hh => he hh.2)]
          refine (h.linked o' ho').frame (fun q hq => ?_) (fun q hq => ?_)
          · rw [hu.next q (h.list_lt ho' hq), if_neg]
            rintro rfl
            rcases List.mem_cons.mp (hl.prev_mem hp) with hn | hm
            · exact (h.linked o' ho').ne_nil _ hq hn
            · exact he (h.order_eq ho' ho hq hm)
          · rw [hu.prev q (h.list_lt ho' hq), if_neg]
            rintro rfl
            rcases hl.next_mem hp with hn | hm
            · exact (h.linked o' ho').ne_nil _ hq hn
            · exact he (h.order_eq ho' ho hq (List.mem_of_mem_tail hm))
      free_sub := by rw [hset]; exact (erase_subset _ _).trans h.free_sub
      free_used := by rw [hset]; exact h.free_used.mono_left (erase_subset _ _)
      count := fun o' ho' => by
        rw [hu.freeBlocks]
        by_cases he : o' = o
        · subst he
          rw [if_pos rfl, update_self, List.length_erase_of_mem hp, h.count o' ho]
        · rw [if_neg he, update_of_ne he]; exact h.count o' ho'
      total := by
        rw [hu.freePages, hset, h.total, ← add_sum_erase _ _ hpF]
        exact Nat.add_sub_cancel_left ..
      tag_free := fun d hd => by
        rw [hset] at hd
        have hdF := mem_of_mem_erase hd
        rw [hu.tag _ (h.start_lt (h.free_sub hdF))]
        exact h.tag_free d hdF
      tag_used := fun d hd => by
        rw [hu.tag _ (h.start_lt (h.used_sub hd))]
        exact h.tag_used d hd
      tag_zero := fun q hq hno => by
        rw [hu.pages] at hq
        rw [hu.tag q hq]
        exact h.tag_zero q hq hno }

/-- Pushing a block that is in hand and tagged free puts it on its list. -/
theorem push (hT : ⟨p, o⟩ ∈ T) (hF : ⟨p, o⟩ ∉ freeSet L) (hU : ⟨p, o⟩ ∉ U) (htag : b.tag p = freeTag o) :
    Rep (b.push p o) m (update L o (p :: L o)) U T := by
  have ho : o < orders := h.order_lt hT
  have hp : p < b.pages := h.start_lt hT
  have hpu := h.sized.push hp ho (h.head_ok ho)
  have hset := freeSet_push (L := L) (p := p) ho
  have hpL : ∀ o' < orders, p ∉ L o' := by
    intro o' ho' hm
    have := h.tiling.eq_of_start (h.mem_list ho' hm) hT rfl
    rw [(Dyad.mk.inj this).2] at hm
    exact hF (mem_freeSet.mpr ⟨ho, hm⟩)
  have hlenle := h.length_le ho
  have hpl := h.sized.pages_lt
  have hmax : nilLink ≤ A.usizeMax := A.u32Max_le_usizeMax
  exact
    { h with
      sized := hpu.sized
      le_pages := hpu.pages ▸ h.le_pages
      linked := fun o' ho' => by
        have hne : ∀ q ∈ L o', q ≠ p := fun q hq he => hpL o' ho' (he ▸ hq)
        by_cases he : o' = o
        · subst he
          rw [update_self, hpu.head, if_pos rfl]
          refine (h.linked o' ho').push (hp.trans hpl).ne ?_ ?_ ?_ ?_ ?_
          · rw [hpu.next p hp, if_pos rfl]
          · have hne' : p ≠ b.head o' := fun heq =>
              hpL o' ho' (heq ▸ h.head_mem ho' (heq ▸ (hp.trans hpl).ne))
            rw [hpu.prev p hp, if_neg hne', if_pos rfl]
          · intro hn
            rw [hpu.prev _ ((h.head_ok ho).resolve_left hn), if_pos rfl]
          · intro q hq
            rw [hpu.next q (h.list_lt ho' hq), if_neg (hne q hq)]
          · intro q hq hqh
            rw [hpu.prev q (h.list_lt ho' hq), if_neg hqh, if_neg (hne q hq)]
        · rw [update_of_ne he, hpu.head, if_neg he]
          refine (h.linked o' ho').frame (fun q hq => ?_) (fun q hq => ?_)
          · rw [hpu.next q (h.list_lt ho' hq), if_neg (hne q hq)]
          · rw [hpu.prev q (h.list_lt ho' hq), if_neg, if_neg (hne q hq)]
            -- the old front of order `o` is on no other list
            rintro rfl
            exact he (h.order_eq ho' ho hq (h.head_mem ho ((h.linked o' ho').ne_nil _ hq)))
      free_sub := by rw [hset]; exact insert_subset hT h.free_sub
      free_used := by
        rw [hset, disjoint_insert_left]; exact ⟨hU, h.free_used⟩
      count := fun o' ho' => by
        rw [hpu.freeBlocks]
        by_cases he : o' = o
        · subst he
          rw [if_pos rfl, update_self, List.length_cons, h.count o' ho, satAdd_of_le (by omega)]
        · rw [if_neg he, update_of_ne he]; exact h.count o' ho'
      total := by
        have hle := h.total_add_le hT hF
        rw [hpu.freePages, hset, sum_insert hF, ← h.total]
        simp only [blockPages] at *
        rw [satAdd_of_le (by omega), add_comm]
      tag_free := fun d hd => by
        rw [hset] at hd
        rcases mem_insert.mp hd with rfl | hd
        · rw [hpu.tag p hp]; exact htag
        · rw [hpu.tag _ (h.start_lt (h.free_sub hd))]; exact h.tag_free d hd
      tag_used := fun d hd => by
        rw [hpu.tag _ (h.start_lt (h.used_sub hd))]; exact h.tag_used d hd
      tag_zero := fun q hq hno => by
        rw [hpu.pages] at hq
        rw [hpu.tag q hq]; exact h.tag_zero q hq hno }

end Rep

end Kintane.Buddy
