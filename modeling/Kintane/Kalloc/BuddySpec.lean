import Kintane.Kalloc.BuddyCheck

/-!
# What `new`, `alloc_order` and `free` do

The loops of the allocator are runs of the single steps: `splitDown` halves until
the block has the size asked for, `mergeUp` absorbs free buddies until there is
none, `carve` lists the largest block that fits until the run is used up. Each
keeps the invariant below, and the three specifications say what became of the
lists and of the blocks in use. A call that is refused changes nothing at all.
-/

open Finset Function

namespace Kintane.Buddy

open Buddy

variable {A : Arch} {b c : Buddy A} {m order p k page pages n o : Nat} {L : Nat → List Nat} {U T : Finset Dyad}
  {r : FrameRange A}

/-- The allocator between two operations: `L` its free lists, `U` its blocks in use. -/
structure Inv (b : Buddy A) (L : Nat → List Nat) (U : Finset Dyad) : Prop where
  base : b.base = b.run.start
  pages : b.pages = b.run.count
  settled : Settled b b.pages L U
  coalesced : Coalesced maxOrder (freeSet L)
  live : b.liveBlocks = U.card

theorem Inv.next {L' : Nat → List Nat} {U' : Finset Dyad} (h : Inv b L U) (hrun : c.run = b.run)
    (hbase : c.base = b.base) (hpages : c.pages = b.pages) (hset : Settled c b.pages L' U')
    (hc : Coalesced maxOrder (freeSet L')) (hlive : c.liveBlocks = U'.card) : Inv c L' U' where
  base := by rw [hbase, hrun, h.base]
  pages := by rw [hpages, hrun, h.pages]
  settled := hpages ▸ hset
  coalesced := hc
  live := hlive

theorem Inv.usedHeads_eq (h : Inv b L U) : usedHeads b = U := h.settled.usedHeads_eq h.coalesced

theorem Inv.verify (h : Inv b L U) (checked : Bool) : b.verify checked = .ret () := by
  unfold Buddy.verify
  rw [check_of_settled h.settled h.coalesced]
  cases checked <;> rfl

/-- `c` manages the same run as `b`. -/
structure SameRun (b c : Buddy A) : Prop where
  run : c.run = b.run
  base : c.base = b.base
  pages : c.pages = b.pages
  live : c.liveBlocks = b.liveBlocks

namespace SameRun

theorem refl (b : Buddy A) : SameRun b b := ⟨rfl, rfl, rfl, rfl⟩

theorem trans {d : Buddy A} (h : SameRun b c) (h' : SameRun c d) : SameRun b d :=
  ⟨h'.run.trans h.run, h'.base.trans h.base, h'.pages.trans h.pages, h'.live.trans h.live⟩

theorem of_storeOnly (h : StoreOnly b c) : SameRun b c := by
  rw [h.eq]
  exact ⟨rfl, rfl, rfl, rfl⟩

theorem setTag (b : Buddy A) (p : Nat) (t : UInt8) : SameRun b (b.setTag p t) :=
  .of_storeOnly (.setField ..)

theorem push (b : Buddy A) (p o : Nat) : SameRun b (b.push p o) := by
  have h1 : SameRun b ((b.setNext p (b.head o)).setPrev p nilLink) :=
    .of_storeOnly ((StoreOnly.setField ..).trans (.setField ..))
  have h2 := h1.trans (.of_storeOnly (relinkPrev_storeOnly _ (b.head o) (toLink p)))
  exact { h2 with }

theorem unlink (b : Buddy A) (p o : Nat) : SameRun b (b.unlink p o) := by
  have h1 : SameRun b (if b.prev p = nilLink then b.setHead o (b.next p)
      else b.setNext (toIndex (b.prev p)) (b.next p)) := by
    split
    · exact ⟨rfl, rfl, rfl, rfl⟩
    · exact .of_storeOnly (.setField ..)
  have h2 := h1.trans (.of_storeOnly (relinkPrev_storeOnly _ (b.next p) (b.prev p)))
  exact { h2 with }

end SameRun

theorem Holding.setStats {x : Dyad} (h : Holding b m L U T x) (live splits merges : Nat) :
    Holding { b with liveBlocks := live, splits := splits, merges := merges } m L U T x :=
  { h with rep := h.rep.setStats live splits merges }

/-! ## The split loop -/

theorem Holding.splitDown : ∀ {k : Nat} {b : Buddy A} {L : Nat → List Nat} {T : Finset Dyad},
      Holding b m L U T ⟨p, k⟩ → Coalesced maxOrder (freeSet L) → order ≤ k →
      ∃ L' T', Holding (splitDown p order k b) m L' U T' ⟨p, order⟩ ∧
        Coalesced maxOrder (freeSet L') ∧ SameRun b (splitDown p order k b) := by
  intro k
  induction k with
  | zero =>
    intro b L T h hc hle
    obtain rfl : order = 0 := Nat.le_zero.mp hle
    exact ⟨L, T, h, hc, .refl b⟩
  | succ k ih =>
    intro b L T h hc hle
    unfold Buddy.splitDown
    by_cases hlt : order < k + 1
    · have hin := h.rep.tiling.inside _ h.mem
      have hpl := h.rep.sized.pages_lt_usizeMax
      have hmp := h.rep.le_pages
      simp only [pow_succ] at hin
      have hbud : satAdd A.usizeMax p (blockPages k) = p + 2 ^ k :=
        satAdd_of_le (by rw [blockPages]; omega)
      obtain ⟨T', h', hc'⟩ := h.halve hc
      have hs : SameRun b ((b.setTag (p + 2 ^ k) (freeTag k)).push (p + 2 ^ k) k) :=
        (SameRun.setTag ..).trans (.push ..)
      simp only [if_pos hlt, hbud]
      generalize (b.setTag (p + 2 ^ k) (freeTag k)).push (p + 2 ^ k) k = d at h' hs ⊢
      obtain ⟨L'', T'', h'', hc'', hs'⟩ :=
        ih (h'.setStats d.liveBlocks (satAdd u64Max d.splits 1) d.merges) hc' (by omega)
      have hd : SameRun b { d with splits := satAdd u64Max d.splits 1 } := { hs with }
      exact ⟨L'', T'', h'', hc'', hd.trans hs'⟩
    · rw [if_neg hlt]
      obtain rfl : order = k + 1 := by omega
      exact ⟨L, T, h, hc, .refl b⟩

/-! ## The merge loop -/

/-- The buddy test of `free` finds exactly the free buddies. -/
theorem Holding.buddy_free (h : Holding b b.pages L U T ⟨p, k⟩) (hk : k < maxOrder) :
    (¬ (¬ ((checkedAdd A.usizeMax (p ^^^ blockPages k) (blockPages k)).any (· ≤ b.pages)) = true ∨
      b.tag (p ^^^ blockPages k) ≠ tagFree ||| orderBits k)) ↔
      (⟨p ^^^ 2 ^ k, k⟩ : Dyad) ∈ freeSet L := by
  have hk' : k < orders := Nat.lt_succ_of_lt hk
  have hpl := h.rep.sized.pages_lt_usizeMax
  have hpos := Nat.two_pow_pos k
  have hne : p ≠ p ^^^ 2 ^ k := by
    obtain ⟨r, -, hcase⟩ := Dyad.exists_parent (h.rep.tiling.aligned _ h.mem)
    simp only at hcase
    omega
  have hhand : ∀ d ∈ T, d.start = p ^^^ 2 ^ k → d ∈ freeSet L ∨ d ∈ U := fun d hd hs =>
    (h.rest d hd).imp_right fun hU => hU.resolve_right fun he => hne ((congrArg Dyad.start he).symm.trans hs)
  rw [blockPages, not_or, not_not, not_not]
  constructor
  · rintro ⟨hfit, htag⟩
    obtain ⟨e, he, hle⟩ := (Option.any_eq_true _ _).mp hfit
    obtain ⟨_, rfl⟩ := checkedAdd_eq_some.mp he
    have hle : (p ^^^ 2 ^ k) + 2 ^ k ≤ b.pages := of_decide_eq_true hle
    exact (h.rep.tag_eq_freeTag (by omega) hk' hhand).mp htag
  · intro hF
    have hin := h.rep.tiling.inside _ (h.rep.free_sub hF)
    refine ⟨?_, h.rep.tag_free ⟨p ^^^ 2 ^ k, k⟩ hF⟩
    simp only at hin
    rw [checkedAdd_of_le (by omega)]
    simpa using hin

theorem Holding.mergeUp :
    ∀ (room : Nat) {p k : Nat} {b : Buddy A} {L : Nat → List Nat} {T : Finset Dyad},
      Holding b b.pages L U T ⟨p, k⟩ → b.tag p = 0 → Coalesced maxOrder (freeSet L) →
      maxOrder ≤ k + room →
      ∃ c q j L' T', mergeUp room p k b = (c, q, j) ∧ Holding c b.pages L' U T' ⟨q, j⟩ ∧
        Coalesced maxOrder (freeSet L') ∧
        (j < maxOrder → (⟨q ^^^ 2 ^ j, j⟩ : Dyad) ∉ freeSet L') ∧ SameRun b c := by
  intro room
  induction room with
  | zero =>
    intro p k b L T h _ hc hroom
    exact ⟨b, p, k, L, T, rfl, h, hc, fun hk => absurd hk (by omega), .refl b⟩
  | succ room ih =>
    intro p k b L T h htag hc hroom
    unfold Buddy.mergeUp
    by_cases hk : k < maxOrder
    · simp only [if_pos hk]
      by_cases hF : (⟨p ^^^ 2 ^ k, k⟩ : Dyad) ∈ freeSet L
      · rw [if_neg ((h.buddy_free hk).mpr hF)]
        obtain ⟨T', h', htag'⟩ := h.absorb htag hk hF
        have hc' := h.rep.coalesced_erase (p := p ^^^ 2 ^ k) hc (Nat.lt_succ_of_lt hk)
        have hs : SameRun b ((b.unlink (p ^^^ 2 ^ k) k).setTag (p ^^^ 2 ^ k) 0) :=
          (SameRun.unlink ..).trans (.setTag ..)
        simp only [blockPages]
        generalize (b.unlink (p ^^^ 2 ^ k) k).setTag (p ^^^ 2 ^ k) 0 = d at h' htag' hs ⊢
        rw [← hs.pages] at h'
        obtain ⟨c, q, j, L'', T'', heq, h'', hc'', hno, hs'⟩ :=
          ih (h'.setStats d.liveBlocks d.splits (satAdd u64Max d.merges 1)) htag' hc' (by omega)
        have hd : SameRun b { d with merges := satAdd u64Max d.merges 1 } := { hs with }
        exact ⟨c, q, j, L'', T'', heq, hs.pages ▸ h'', hc'', hno, hd.trans hs'⟩
      · rw [if_pos (not_not.mp (mt (h.buddy_free hk).mp hF))]
        exact ⟨b, p, k, L, T, rfl, h, hc, fun _ => hF, .refl b⟩
    · rw [if_neg hk]
      exact ⟨b, p, k, L, T, rfl, h, hc, fun hk' => absurd hk' hk, .refl b⟩

/-! ## The carving loop -/

/-- `carveOrder` finds the largest order, up to `top`, whose block fits at `page`. -/
theorem carveOrder_spec (hpage : page < pages) (hlt : pages < A.usizeMax) :
    ∀ top, carveOrder A pages page top ≤ top ∧ 2 ^ carveOrder A pages page top ∣ page ∧
      page + 2 ^ carveOrder A pages page top ≤ pages ∧
      (carveOrder A pages page top < top →
        ¬ (2 ^ (carveOrder A pages page top + 1) ∣ page ∧
          page + 2 ^ (carveOrder A pages page top + 1) ≤ pages)) := by
  intro top
  induction top with
  | zero => simp [carveOrder]; omega
  | succ top ih =>
    obtain ⟨h1, h2, h3, h4⟩ := ih
    rw [carveOrder]
    split
    · rename_i hbad
      refine ⟨by omega, h2, h3, fun hk => ?_⟩
      rcases Nat.lt_or_eq_of_le h1 with hlt' | he
      · exact h4 hlt'
      -- the order just tried is the one above the answer
      rw [he]
      rintro ⟨h5, h6⟩
      rcases hbad with hbad | hbad
      · exact hbad (Nat.mod_eq_zero_of_dvd h5)
      · rw [lt_satAdd hlt, blockPages] at hbad
        omega
    · rename_i hgood
      rw [not_or, not_not, not_lt] at hgood
      refine ⟨le_rfl, Nat.dvd_of_mod_eq_zero hgood.1, ?_, fun h => absurd h (by omega)⟩
      have := hgood.2
      rw [← not_lt, lt_satAdd hlt, blockPages] at this
      omega

/-- Every free block is as large as its place allows. -/
def Maximal (pages : Nat) (F : Finset Dyad) : Prop :=
  ∀ d ∈ F, d.order < maxOrder →
    ¬ (2 ^ (d.order + 1) ∣ d.start ∧ d.start + 2 ^ (d.order + 1) ≤ pages)

theorem Maximal.coalesced {F : Finset Dyad} (h : Maximal n F)
    (hin : ∀ d ∈ F, d.start + 2 ^ d.order ≤ n) : Coalesced maxOrder F := by
  intro p k hk hp h1 h2
  have hfit := hin _ h2
  simp only at hfit
  exact h _ h1 hk ⟨hp, by simp only [pow_succ]; omega⟩

/-- The uncarved page `m` heads a block in hand. -/
theorem Settled.extend (h : Settled b m L ∅) (ho : o ≤ maxOrder) (ha : 2 ^ o ∣ m) (hle : m + 2 ^ o ≤ b.pages) :
    Holding b (m + 2 ^ o) L ∅ (insert ⟨m, o⟩ (freeSet L ∪ ∅)) ⟨m, o⟩ where
  rep :=
    { h with
      le_pages := hle
      tiling := h.tiling.extend ho ha
      free_sub := h.free_sub.trans (subset_insert _ _)
      used_sub := empty_subset _
      tag_zero := fun p hp hno =>
        h.tag_zero p hp fun d hd => hno d (mem_insert_of_mem hd) }
  mem := mem_insert_self _ _
  not_free := fun hF => lt_irrefl _ (h.tiling.start_lt (h.free_sub hF))
  not_used := notMem_empty _
  rest := (forall_mem_insert ..).mpr ⟨.inr (.inr rfl), fun _ hd => (mem_union.mp hd).imp_right .inl⟩

theorem Settled.carve : ∀ (fuel : Nat) {m : Nat} {b : Buddy A} {L : Nat → List Nat},
      Settled b m L ∅ → Maximal b.pages (freeSet L) → b.pages ≤ m + fuel →
      ∃ L', Settled (carve fuel m b) b.pages L' ∅ ∧ Maximal b.pages (freeSet L') ∧
        SameRun b (carve fuel m b) := by
  intro fuel
  induction fuel with
  | zero =>
    intro m b L h hmax hfuel
    obtain rfl : m = b.pages := h.le_pages.antisymm hfuel
    exact ⟨L, h, hmax, .refl b⟩
  | succ fuel ih =>
    intro m b L h hmax hfuel
    unfold Buddy.carve
    by_cases hlt : m < b.pages
    · have hpl := h.sized.pages_lt
      have hu : nilLink ≤ A.usizeMax := A.u32Max_le_usizeMax
      obtain ⟨ho, hal, hfit, hbig⟩ := carveOrder_spec (A := A) hlt (by omega) maxOrder
      generalize carveOrder A b.pages m maxOrder = o at ho hal hfit hbig ⊢
      have hlist := (h.extend ho hal hfit).list
      have hs : SameRun b ((b.setTag m (freeTag o)).push m o) :=
        (SameRun.setTag ..).trans (.push ..)
      have hset := freeSet_push (L := L) (p := m) (Nat.lt_succ_of_le ho)
      have hmax' : Maximal ((b.setTag m (freeTag o)).push m o).pages
          (freeSet (update L o (m :: L o))) := by
        rw [hs.pages, hset]
        exact (forall_mem_insert ..).mpr ⟨hbig, hmax⟩
      obtain ⟨L', h', hm', hs'⟩ := ih hlist hmax' (by rw [hs.pages]; omega)
      rw [hs.pages] at h' hm'
      simp only [if_pos hlt]
      rw [satAdd_of_le (by rw [blockPages]; omega)]
      exact ⟨L', h', hm', hs.trans hs'⟩
    · rw [if_neg hlt]
      obtain rfl : m = b.pages := h.le_pages.antisymm (not_lt.mp hlt)
      exact ⟨L, h, hmax, .refl b⟩

/-! ## Construction -/

theorem storeBytes_ok {needed : Nat} (h : storeBytes A pages = .ok needed) :
    pages < nilLink ∧ pages * storeBytesPerPage ≤ A.usizeMax ∧
      needed = pages * storeBytesPerPage := by
  unfold storeBytes checkedMul at h
  split at h
  · cases h
  rename_i hn
  by_cases hm : pages * storeBytesPerPage ≤ A.usizeMax
  · rw [if_pos hm] at h
    cases h
    exact ⟨not_le.mp hn, hm, rfl⟩
  · rw [if_neg hm] at h
    cases h

theorem freeSet_nil : freeSet (fun _ => []) = ∅ := by
  ext d; simp [mem_freeSet]

theorem settled_blank {run : FrameRange A} {store : List UInt8} (h : (blank run store).Sized) :
    Settled (blank run store) 0 (fun _ => []) ∅ where
  sized := h
  le_pages := Nat.zero_le _
  tiling := by rw [freeSet_nil]; exact Tiling.empty maxOrder
  linked := fun o ho => by simp [head, blank, Linked, ho]
  free_sub := subset_union_left
  used_sub := empty_subset _
  free_used := disjoint_empty_right _
  count := fun o ho => by simp [blank, ho]
  total := by rw [freeSet_nil]; rfl
  tag_free := by rw [freeSet_nil]; simp
  tag_used := by simp
  tag_zero := fun p hp _ => by
    rw [tag, h.field_eq hp (by decide)]
    have hlen := h.store_le
    have hin : p * storeBytesPerPage + 8 + 1 ≤ store.length := by
      simp only [blank, List.length_replicate, storeBytesPerPage] at hlen hp ⊢
      omega
    rw [blank, getSlice, if_pos (by simpa using hin), List.drop_replicate, List.take_replicate,
      Nat.min_eq_left (Nat.le_sub_of_add_le' hin)]
    rfl

/-- `new` refuses, or returns an allocator with every page free. -/
theorem new_spec (checked : Bool) (run : FrameRange A) (store : List UInt8) :
    (∃ e, new checked run store = .ret (.error e)) ∨
      ∃ b L, new checked run store = .ret (.ok b) ∧ Inv b L ∅ ∧ b.run = run := by
  unfold new
  cases hb : storeBytes A run.count with
  | error e => exact .inl ⟨e, by simp only [hb]⟩
  | ok needed =>
    by_cases hlen : store.length < needed
    · exact .inl ⟨.storageTooSmall needed, by simp only [hb, if_pos hlen]⟩
    refine .inr ?_
    obtain ⟨hn, hm, rfl⟩ := storeBytes_ok hb
    have hsized : (blank run store).Sized := ⟨hn, hm, by simpa [blank] using hlen⟩
    obtain ⟨L, hset, hmax, hs⟩ := (settled_blank hsized).carve run.count
      (by intro d hd; simp [freeSet_nil] at hd) (by simp [blank])
    have hinv : Inv (carve run.count 0 (blank run store)) L ∅ :=
      { base := by rw [hs.base, hs.run]; rfl
        pages := by rw [hs.pages, hs.run]; rfl
        settled := by rw [hs.pages]; exact hset
        coalesced := hmax.coalesced fun d hd => hset.tiling.inside d (hset.free_sub hd)
        live := by rw [hs.live]; rfl }
    refine ⟨_, L, ?_, hinv, hs.run⟩
    simp only [hb, if_neg hlen, hinv.verify checked, Call.bind]

/-! ## Allocation -/

/-- `r` is the block `d` of the run, as callers see it. -/
def Covers (b : Buddy A) (r : FrameRange A) (d : Dyad) : Prop :=
  r.start.number = b.base.number + d.start ∧ r.count = 2 ^ d.order

/-- What the caller is told about a block: its range, if its first frame exists. -/
theorem Inv.range_of_block (h : Inv b L U) (hd : ⟨p, order⟩ ∈ freeSet L ∪ U) (hc : blockPages order ≤ A.usizeMax) :
    (∃ r f, b.frameAt p = .ok f ∧ FrameRange.new f (blockPages order) hc = .ok r ∧
      Covers b r ⟨p, order⟩) ∨
    (b.frameAt p = .error .overflow ∧ ¬ (b.base.number + p) * A.pageSize < 2 ^ 64) := by
  have hin := h.settled.tiling.inside _ hd
  have hfits := b.run.fits
  have hpos := Nat.two_pow_pos order
  rw [← h.base, ← h.pages] at hfits
  simp only at hin
  unfold frameAt
  rw [checkedAdd_of_le (by omega)]
  by_cases hlt : (b.base.number + p) * A.pageSize < 2 ^ 64
  · obtain ⟨f, hf, hnum⟩ := Frame.fromNumber_ok (A := A) hlt
    have hrep : f.number + blockPages order ≤ u64Max := by rw [hnum, blockPages]; omega
    exact .inl ⟨_, f, hf, FrameRange.new_ok _ hpos hrep, hnum, rfl⟩
  · exact .inr ⟨dif_neg hlt, hlt⟩

/-- **Allocation.** A refusal changes nothing; otherwise one new block is in use, and it is
handed out unless its first frame has no 64-bit address. -/
theorem allocOrder_spec (h : Inv b L U) (checked : Bool) (order : Nat) :
    (∃ e, b.allocOrder checked order = .ret (b, .error e) ∧
      (order ≤ maxOrder → e = (if blockPages order ≤ b.freePages then .fragmented else .exhausted) ∧
        ∀ o, order ≤ o → o < orders → L o = [])) ∨
    ∃ p c L', ⟨p, order⟩ ∉ U ∧ Inv c L' (insert ⟨p, order⟩ U) ∧ c.run = b.run ∧
      ((∃ r, b.allocOrder checked order = .ret (c, .ok r) ∧ Covers c r ⟨p, order⟩) ∨
        (b.allocOrder checked order = .ret (c, .error .overflow) ∧
          ¬ (b.base.number + p) * A.pageSize < 2 ^ 64)) := by
  unfold allocOrder
  by_cases ho : maxOrder < order
  · exact .inl ⟨_, dif_pos ho, fun hle => absurd ho (not_lt.mpr hle)⟩
  simp only [dif_neg ho]
  cases hfind : (List.range' order (orders - order)).find? (fun o => b.head o ≠ nilLink) with
  | none =>
    refine .inl ⟨_, rfl, fun hle => ⟨rfl, fun o hlo hlt => ?_⟩⟩
    have hnil := List.find?_eq_none.mp hfind o (List.mem_range'_1.mpr ⟨hlo, by omega⟩)
    exact ((h.settled.linked o hlt).eq_nil_iff).mp (by simpa using hnil)
  | some k =>
    have hmem := List.mem_range'_1.mp (List.mem_of_find?_eq_some hfind)
    have hk : k < orders := by omega
    have hne : b.head k ≠ nilLink := by simpa using List.find?_some hfind
    have htake := h.settled.take hk (Rep.head_mem h.settled hk hne)
    obtain ⟨L', T', hsplit, hc', hs⟩ := htake.splitDown (h.settled.coalesced_erase h.coalesced hk) hmem.1
    have hs := ((SameRun.unlink b (b.head k) k).trans hs).trans (.setTag _ (b.head k) (usedTag order))
    have hused := hsplit.use
    have hcard : U.card < A.usizeMax := by
      have h1 := card_le_card h.settled.used_sub
      have h2 := h.settled.tiling.card_le
      have h3 := h.settled.sized.pages_lt_usizeMax
      omega
    simp only [toIndex_eq]
    generalize hd : ((splitDown (b.head k) order k (b.unlink (b.head k) k)).setTag
      (b.head k) (tagUsed ||| orderBits order)) = d at hused hs ⊢
    have hinv : Inv { d with liveBlocks := satAdd A.usizeMax d.liveBlocks 1 } L'
        (insert ⟨b.head k, order⟩ U) := by
      refine h.next hs.run hs.base hs.pages (Rep.setStats hused _ d.splits d.merges) hc' ?_
      rw [card_insert_of_notMem hsplit.not_used, ← h.live, ← hs.live]
      exact satAdd_of_le (by rw [hs.live, h.live]; omega)
    have hmem' : (⟨b.head k, order⟩ : Dyad) ∈ freeSet L' ∪ insert ⟨b.head k, order⟩ U :=
      mem_union_right _ (mem_insert_self _ _)
    refine .inr ⟨b.head k, _, L', hsplit.not_used, hinv, hs.run, ?_⟩
    rw [hinv.verify checked]
    rcases hinv.range_of_block hmem' (blockPages_le_usizeMax A (not_lt.mp ho)) with
      ⟨r, f, hf, hr, hcov⟩ | ⟨hf, hlt⟩
    · refine .inl ⟨r, ?_, hcov⟩
      simp only [Call.bind, hf, hr]
    · refine .inr ⟨?_, hs.base ▸ hlt⟩
      simp only [Call.bind, hf]

/-- `alloc_pages` is a refusal or an `alloc_order`. -/
theorem allocPages_cases (checked : Bool) (b : Buddy A) (n : Nat) :
    (∃ e, b.allocPages checked n = .ret (b, .error e)) ∨
      ∃ order, orderFor A n = some order ∧
        b.allocPages checked n = b.allocOrder checked order := by
  unfold allocPages
  split
  · exact .inl ⟨_, rfl⟩
  · cases ho : orderFor A n with
    | none => exact .inl ⟨_, rfl⟩
    | some order => exact .inr ⟨order, rfl, rfl⟩

/-! ## Freeing -/

theorem lt_usizeBits (hk : 2 ^ k ≤ A.usizeMax) : k < A.usizeBits := by
  refine (Nat.pow_lt_pow_iff_right (by decide : 1 < 2)).mp ?_
  have := Nat.two_pow_pos k
  unfold Arch.usizeMax at hk
  omega

/-- The order of a power of two is its exponent, as far as orders go. -/
theorem orderFor_two_pow (hk : 2 ^ k ≤ A.usizeMax) : orderFor A (2 ^ k) = if k ≤ maxOrder then some k else none := by
  unfold orderFor checkedNextPowerOfTwo
  rw [max_eq_left Nat.one_le_two_pow, nextPowerOfTwo_two_pow, if_pos hk, Option.bind_some]
  simp only [trailingZeros_two_pow (lt_usizeBits hk)]

/-- The order found is large enough. -/
theorem le_of_orderFor (h : orderFor A n = some o) : n ≤ 2 ^ o := by
  obtain ⟨p, hp, ho⟩ := Option.bind_eq_some_iff.mp h
  unfold checkedNextPowerOfTwo at hp
  obtain ⟨k, hk⟩ := nextPowerOfTwo_eq (max n 1)
  have hle := le_nextPowerOfTwo (max n 1)
  rw [hk] at hp hle
  split at hp
  · rename_i hmax
    cases hp
    simp only [trailingZeros_two_pow (lt_usizeBits hmax)] at ho
    split at ho
    · cases ho
      omega
    · cases ho
  · cases hp

theorem indexOf_eq_ok {f : Frame A} (hle : b.pages ≤ A.usizeMax) :
    b.indexOf f = .ok page ↔ page < b.pages ∧ f.number = b.base.number + page := by
  unfold indexOf checkedSub narrow
  by_cases h1 : b.base.number ≤ f.number
  · by_cases h2 : f.number - b.base.number ≤ A.usizeMax
    · by_cases h3 : b.pages ≤ f.number - b.base.number <;> simp [h1, h2, h3] <;> omega
    · simp [h1, h2]
      omega
  · simp [h1]
    omega

/-- A block in use is accepted back. -/
theorem Inv.free_ok (h : Inv b L U) (checked : Bool) {d : Dyad} (hd : d ∈ U) (hcov : Covers b r d) :
    ∃ c L', b.free checked r = .ret (c, .ok ()) ∧ Inv c L' (U.erase d) ∧ c.run = b.run := by
  have hdT : d ∈ freeSet L ∪ U := mem_union_right _ hd
  have hin := h.settled.tiling.inside d hdT
  have hord := h.settled.tiling.order_le d hdT
  have hpl := h.settled.sized.pages_lt_usizeMax
  have hpos := Nat.two_pow_pos d.order
  obtain ⟨hnum, hcount⟩ := hcov
  have hidx : b.indexOf r.start = .ok d.start :=
    (indexOf_eq_ok h.settled.sized.pages_lt_usizeMax.le).mpr ⟨by omega, hnum⟩
  obtain ⟨ht1, ht2, ht3, -⟩ := usedTag_decode d.order (Nat.lt_succ_of_le hord)
  obtain ⟨hheld, htag⟩ := h.settled.release hd
  have hsame := SameRun.setTag b d.start 0
  -- the state the merge loop starts from
  generalize hb1 : { b.setTag d.start 0 with
    liveBlocks := (b.setTag d.start 0).liveBlocks - 1 } = b1
  have hheld1 : Holding b1 b1.pages L (U.erase d) (freeSet L ∪ U) d := by
    subst hb1
    have := hheld.setStats ((b.setTag d.start 0).liveBlocks - 1) (b.setTag d.start 0).splits
      (b.setTag d.start 0).merges
    rwa [← hsame.pages] at this
  have htag1 : b1.tag d.start = 0 := by subst hb1; exact htag
  obtain ⟨c, q, j, L', T', hmerge, hheld', hc', hno, hs⟩ :=
    hheld1.mergeUp maxOrder htag1 h.coalesced (by omega)
  have hrun : SameRun b1 ((c.setTag q (freeTag j)).push q j) :=
    hs.trans ((SameRun.setTag ..).trans (.push ..))
  have hj := hheld'.rep.order_lt hheld'.mem
  have hinv : Inv ((c.setTag q (freeTag j)).push q j) (update L' j (q :: L' j))
      (U.erase d) := by
    refine h.next ?_ ?_ ?_ ?_ ?_ ?_
    · rw [hrun.run, ← hb1]; exact hsame.run
    · rw [hrun.base, ← hb1]; exact hsame.base
    · rw [hrun.pages, ← hb1]; exact hsame.pages
    · have := hheld'.list
      rwa [show b1.pages = b.pages by rw [← hb1]; exact hsame.pages] at this
    · rw [freeSet_push hj]
      exact hc'.insert hno
    · rw [hrun.live, card_erase_of_mem hd, ← h.live, ← hb1]
      exact congrArg (· - 1) hsame.live
  refine ⟨_, _, ?_, hinv, ?_⟩
  · unfold free
    have hsmall : 2 ^ d.order ≤ A.usizeMax := by omega
    simp only [hidx, hcount, checkedAdd_of_le (show d.start + 2 ^ d.order ≤ A.usizeMax by omega),
      Option.all_some, not_lt.mpr hin, decide_false, Bool.false_eq_true, if_false,
      isPowerOfTwo_iff.mpr ⟨d.order, rfl⟩, not_true_eq_false, orderFor_two_pow hsmall,
      if_pos hord, h.settled.tag_used d hd, ht1, ht2, ht3, ne_eq, or_self, hb1, hmerge,
      hinv.verify checked, Call.bind]
  · rw [hrun.run, ← hb1]; exact hsame.run

/-- Nothing but a block in use is accepted back. -/
theorem Inv.free_error (h : Inv b L U) (checked : Bool)
    (hnot : ∀ d ∈ U, ¬ Covers b r d) : ∃ e, b.free checked r = .ret (b, .error e) := by
  unfold free
  cases hidx : b.indexOf r.start with
  | error e => exact ⟨e, rfl⟩
  | ok page =>
    simp only
    split
    · exact ⟨_, rfl⟩
    split
    · exact ⟨_, rfl⟩
    rename_i hpow
    obtain ⟨k, hk⟩ := isPowerOfTwo_iff.mp (not_not.mp hpow)
    have hfor := orderFor_two_pow (A := A) (k := k) (hk ▸ r.count_le)
    by_cases hle : k ≤ maxOrder
    · rw [hk, hfor, if_pos hle]
      simp only
      split
      · exact ⟨_, rfl⟩
      split
      · exact ⟨_, rfl⟩
      rename_i hfree hused
      rw [not_or, not_not] at hused
      -- every test passed: the page heads a block in use, which the caller named
      obtain ⟨hp, hnum⟩ := (indexOf_eq_ok h.settled.sized.pages_lt_usizeMax.le).mp hidx
      have hU : ⟨page, k⟩ ∈ usedHeads b := mem_image.mpr
        ⟨page, mem_filter.mpr ⟨mem_range.mpr hp, not_not.mp hfree, hused.1⟩, by rw [hused.2]⟩
      exact absurd ⟨hnum, hk⟩ (hnot ⟨page, k⟩ (h.usedHeads_eq ▸ hU))
    · rw [hk, hfor, if_neg hle]
      exact ⟨_, rfl⟩

end Kintane.Buddy
