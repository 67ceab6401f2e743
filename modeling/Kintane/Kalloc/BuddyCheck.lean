import Mathlib.Algebra.Order.BigOperators.Group.LocallyFinite
import Kintane.Kalloc.BuddyOps

/-!
# What the checker's two walks look for

`check` walks the lists and then the pages. Each walk is described by what it would have to find to
pass: `Spells` for a list, `Walked` for the pages. Both come back over any bytes whatever, and pass
exactly if that is there to be found. A settled representation with coalesced free blocks has it, so
`check` accepts every well-formed allocator.

The list walk cannot go round in circles, count or no count: a block is passed only if it points
back at the one before, and no block points back at two.
-/

open Finset Function

namespace Kintane.Buddy

variable {A : Arch} {b : Buddy A} {L : Nat → List Nat} {U T : Finset Dyad} {d : Dyad} {seen : Finset Nat}
  {l : List Nat} {prv at_ page tf order : Nat}

theorem mul_le_of_tag (h : b.tag page ≠ 0) : page * 9 ≤ A.usizeMax := by
  by_contra hlt
  refine h ?_
  rw [tag, field, fieldAt, storeBytesPerPage, checkedMul, if_neg hlt]
  rfl

/-! ## The list walk -/

/-- The walk has come to `prv` over the blocks of `seen`. -/
structure Trail (b : Buddy A) (seen : Finset Nat) (prv : Nat) : Prop where
  here : prv = nilLink ∨ prv ∈ seen
  back : ∀ x ∈ seen, b.prev x = nilLink ∨ b.prev x ∈ seen
  /-- Nothing points back at the last block yet. -/
  fresh : ∀ x ∈ seen, b.prev x ≠ prv
  tagged : ∀ x ∈ seen, x < b.pages ∧ b.tag x ≠ 0

theorem Trail.step (h : Trail b seen prv) {x : Nat} (hx : x ≠ nilLink) (hp : b.prev x = prv)
    (ht : x < b.pages ∧ b.tag x ≠ 0) : x ∉ seen ∧ Trail b (insert x seen) x := by
  have hnew : x ∉ seen := fun hmem => h.fresh x hmem hp
  have hne : ∀ y, y = nilLink ∨ y ∈ seen → y ≠ x := by
    rintro y (rfl | hy) rfl
    · exact hx rfl
    · exact hnew hy
  refine ⟨hnew, .inr (mem_insert_self x seen), ?_, ?_, ?_⟩ <;> rw [forall_mem_insert]
  · exact ⟨hp ▸ h.here.imp id mem_insert_of_mem, fun y hy => (h.back y hy).imp id mem_insert_of_mem⟩
  · exact ⟨hp ▸ hne prv h.here, fun y hy => hne _ (h.back y hy)⟩
  · exact ⟨ht, h.tagged⟩

theorem Trail.card_lt (h : Trail b seen prv) : seen.card < A.usizeMax := by
  have hmax := A.u32Max_le_usizeMax
  have hsub : seen ⊆ range (A.usizeMax / 9 + 1) := by
    intro x hx
    have := mul_le_of_tag (h.tagged x hx).2
    rw [mem_range]
    omega
  have := card_le_card hsub
  rw [card_range] at this
  omega

/-- From `at_` on, the links spell `l`, and all of it is tagged free at this order. -/
structure Spells (b : Buddy A) (order prv at_ : Nat) (l : List Nat) : Prop where
  linked : Linked b.next b.prev nilLink prv at_ l
  tags : ∀ p ∈ l, p < b.pages ∧ b.tag p = freeTag order

theorem spells_nil : Spells b order prv nilLink l ↔ l = [] := by
  constructor
  · exact fun h => h.linked.eq_nil_iff.mp rfl
  · rintro rfl
    exact ⟨rfl, by simp⟩

theorem spells_cons (hn : at_ ≠ nilLink) : Spells b order prv at_ l ↔ ∃ t, l = at_ :: t ∧
    (at_ < b.pages ∧ b.prev at_ = prv ∧ b.tag at_ = freeTag order) ∧ Spells b order at_ (b.next at_) t := by
  constructor
  · rintro ⟨hl, htags⟩
    obtain ⟨t, rfl⟩ := hl.eq_cons hn
    obtain ⟨⟨hlt, htag⟩, hrest⟩ := List.forall_mem_cons.mp htags
    exact ⟨t, rfl, ⟨hlt, hl.2.2.1, htag⟩, hl.2.2.2, hrest⟩
  · rintro ⟨t, rfl, ⟨hlt, hprev, htag⟩, hl, htags⟩
    exact ⟨⟨rfl, hn, hprev, hl⟩, List.forall_mem_cons.mpr ⟨⟨hlt, htag⟩, htags⟩⟩

/-- One order's walk comes back, and passes exactly if the links spell a list. -/
theorem checkList_spec (ho : order < orders) :
    ∀ (room : Nat) {seen : Finset Nat} {prv : Nat} (at_ listed : Nat), Trail b seen prv →
      seen.card + room = b.pages → listed ≤ A.usizeMax →
      ∃ r, b.checkList order room prv at_ seen.card listed = .ret r ∧ ∀ s, r = .ok s ↔
        ∃ l, Spells b order prv at_ l ∧
          s = (seen.card + l.length, satAdd A.usizeMax listed (l.length * 2 ^ order)) := by
  intro room
  induction room with
  | zero =>
    intro seen prv at_ listed ht hcard hle
    rw [checkList]
    split
    · next hnil => exact ⟨_, rfl, fun s => by simp [hnil, spells_nil, satAdd, hle, eq_comm]⟩
    next hnil =>
    have := ht.card_lt
    rw [if_pos (by rw [satAdd_of_le (by omega)]; omega)]
    refine ⟨_, rfl, fun s => iff_of_false (by simp) ?_⟩
    rintro ⟨l, hl, -⟩
    -- one block more than there are pages
    obtain ⟨t, -, ⟨hlt, hprev, htag⟩, -⟩ := (spells_cons hnil).mp hl
    obtain ⟨hnew, ht'⟩ := ht.step hnil hprev ⟨hlt, htag ▸ (freeTag_decode order ho).2.2⟩
    have hsub := card_le_card fun x hx => mem_range.mpr (ht'.tagged x hx).1
    rw [card_insert_of_notMem hnew, card_range] at hsub
    omega
  | succ room ih =>
    intro seen prv at_ listed ht hcard hle
    rw [checkList]
    split
    · next hnil => exact ⟨_, rfl, fun s => by simp [hnil, spells_nil, satAdd, hle, eq_comm]⟩
    next hnil =>
    have hrefuse : ∀ e : Invariant, ¬(at_ < b.pages ∧ b.prev at_ = prv ∧ b.tag at_ = freeTag order) →
        ∀ s : Nat × Nat, Except.error e = .ok s ↔ ∃ l, Spells b order prv at_ l ∧
          s = (seen.card + l.length, satAdd A.usizeMax listed (l.length * 2 ^ order)) := by
      refine fun e hno s => iff_of_false (by simp) ?_
      rintro ⟨l, hl, -⟩
      obtain ⟨-, -, hhead, -⟩ := (spells_cons hnil).mp hl
      exact hno hhead
    dsimp only [toIndex]
    by_cases hlt : b.pages ≤ at_
    · exact ⟨_, if_pos hlt, hrefuse _ fun h => absurd h.1 (Nat.not_lt.mpr hlt)⟩
    rw [if_neg hlt]
    by_cases hprev : b.prev at_ = prv
    case neg => exact ⟨_, if_pos hprev, hrefuse _ fun h => hprev h.2.1⟩
    rw [if_neg (not_not.mpr hprev)]
    by_cases htag : b.tag at_ = freeTag order
    case neg => exact ⟨_, if_pos htag, hrefuse _ fun h => htag h.2.2⟩
    rw [if_neg (not_not.mpr htag)]
    rw [Nat.not_le] at hlt
    obtain ⟨hnew, ht'⟩ := ht.step hnil hprev ⟨hlt, htag ▸ (freeTag_decode order ho).2.2⟩
    have hcard' := card_insert_of_notMem hnew
    rw [satAdd_of_le ht.card_lt, ← hcard']
    obtain ⟨r, hr, hiff⟩ := ih (b.next at_) (satAdd A.usizeMax listed (blockPages order)) ht' (by omega)
      (Nat.min_le_right _ _)
    refine ⟨r, hr, fun s => (hiff s).trans ?_⟩
    have hlen : ∀ t : List Nat, (#(insert at_ seen) + t.length,
        satAdd A.usizeMax (satAdd A.usizeMax listed (blockPages order)) (t.length * 2 ^ order)) =
        (seen.card + (at_ :: t).length, satAdd A.usizeMax listed ((at_ :: t).length * 2 ^ order)) := by
      intro t
      rw [hcard', List.length_cons, Nat.add_mul, Nat.one_mul, blockPages]
      unfold satAdd
      congr 1 <;> omega
    simp only [spells_cons hnil, hlen]
    constructor
    · rintro ⟨t, ht, rfl⟩
      exact ⟨at_ :: t, ⟨t, rfl, ⟨hlt, hprev, htag⟩, ht⟩, rfl⟩
    · rintro ⟨-, ⟨t, rfl, -, ht⟩, rfl⟩
      exact ⟨t, ht, rfl⟩

/-- What an order's list has to be. -/
structure Listed (b : Buddy A) (order : Nat) (l : List Nat) : Prop extends
    Spells b order nilLink (b.head order) l where
  count : b.freeBlocks[order]? = some l.length

theorem checkLists_spec : ∀ (left order listed : Nat), order + left = orders → listed ≤ A.usizeMax →
    ∃ r, b.checkLists left order listed = .ret r ∧ ∀ s, r = .ok s ↔
      ∃ L : Nat → List Nat, (∀ o, order ≤ o → o < orders → Listed b o (L o)) ∧
        s = satAdd A.usizeMax listed (∑ o ∈ Ico order orders, (L o).length * 2 ^ o) := by
  intro left
  induction left with
  | zero =>
    intro order listed horder hle
    refine ⟨_, rfl, fun s => ?_⟩
    rw [Finset.Ico_eq_empty (by omega)]
    simp only [sum_empty, satAdd, add_zero, min_eq_left hle, Except.ok.injEq, exists_and_right]
    exact ⟨fun h => ⟨⟨fun _ => [], fun o hlo hhi => by omega⟩, h.symm⟩, fun h => h.2.symm⟩
  | succ left ih =>
    intro order listed horder hle
    have ho : order < orders := by omega
    have htrail : Trail b ∅ nilLink := ⟨.inl rfl, by simp, by simp, by simp⟩
    obtain ⟨r, hr, hiff⟩ := checkList_spec ho b.pages (b.head order) listed htrail (by simp) hle
    rw [card_empty] at hr hiff
    rw [checkLists, hr]
    cases r with
    | error e =>
      refine ⟨_, rfl, fun s => iff_of_false (by simp) ?_⟩
      rintro ⟨L, hL, -⟩
      exact absurd ((hiff _).mpr ⟨L order, (hL order le_rfl ho).toSpells, rfl⟩) (by simp)
    | ok res =>
      obtain ⟨l, hl, rfl⟩ := (hiff res).mp rfl
      -- the walk has found the one list there can be
      have hone : ∀ {l'}, Listed b order l' → l' = l := fun h' => h'.linked.unique hl.linked
      simp only [Call.bind, zero_add]
      by_cases hcount : b.freeBlocks[order]? = some l.length
      case neg =>
        refine ⟨_, if_pos hcount, fun s => iff_of_false (by simp) ?_⟩
        rintro ⟨L, hL, -⟩
        exact hcount (hone (hL order le_rfl ho) ▸ (hL order le_rfl ho).count)
      rw [if_neg (not_not.mpr hcount)]
      obtain ⟨r, hr, hiff⟩ := ih (order + 1) _ (by omega)
        (min_le_right (listed + l.length * 2 ^ order) A.usizeMax)
      refine ⟨r, hr, fun s => (hiff s).trans ?_⟩
      simp only [sum_eq_sum_Ico_succ_bot ho]
      constructor
      · rintro ⟨L, hL, rfl⟩
        refine ⟨update L order l, fun o hlo hhi => ?_, ?_⟩
        · rcases Nat.eq_or_lt_of_le hlo with rfl | hlt
          · rw [update_self]
            exact ⟨hl, hcount⟩
          · rw [update_of_ne (by omega)]
            exact hL o hlt hhi
        · have hrest : ∑ o ∈ Ico (order + 1) orders, (update L order l o).length * 2 ^ o =
              ∑ o ∈ Ico (order + 1) orders, (L o).length * 2 ^ o := by
            refine sum_congr rfl fun o hmem => ?_
            rw [update_of_ne (by rw [mem_Ico] at hmem; omega)]
          rw [update_self, hrest]
          unfold satAdd
          omega
      · rintro ⟨L, hL, rfl⟩
        refine ⟨L, fun o hlo => hL o (by omega), ?_⟩
        rw [hone (hL order le_rfl ho)]
        unfold satAdd
        omega

/-! ## The page walk -/

/-- A block at `page`, as far as the page walk looks at it. -/
structure Block (b : Buddy A) (page order : Nat) : Prop where
  marked : b.tag page &&& tagFree ≠ 0 ∨ b.tag page &&& tagUsed ≠ 0
  order_eq : (b.tag page &&& tagOrder).toNat = order
  order_le : order ≤ maxOrder
  aligned : 2 ^ order ∣ page
  inside : page + 2 ^ order ≤ b.pages
  small : page + 2 ^ order < A.usizeMax
  interior : ∀ p, page < p → p < page + 2 ^ order → b.tag p = 0
  apart : b.tag page &&& tagFree ≠ 0 → order < maxOrder →
    satAdd A.usizeMax (page ^^^ 2 ^ order) (2 ^ order) ≤ b.pages → b.tag (page ^^^ 2 ^ order) ≠ b.tag page

/-- Free pages counted after the block at `page`. -/
def counted (b : Buddy A) (page order tf : Nat) : Nat :=
  if b.tag page &&& tagFree ≠ 0 then satAdd A.usizeMax tf (2 ^ order) else tf

theorem Block.tag_ne (h : Block b page order) : b.tag page ≠ 0 := by
  intro hz
  have := h.marked
  rw [hz] at this
  exact absurd this (by decide)

/-- The walk is over, or it passes a block, or there is none to pass and it fails; how much fuel
there is makes no difference. -/
theorem checkPages_step (b : Buddy A) (page tf : Nat) :
    (b.pages ≤ page ∧ ∀ fuel, b.checkPages fuel page tf = .ok tf) ∨
    page < b.pages ∧ (((∃ e, ∀ fuel, b.checkPages (fuel + 1) page tf = .error e) ∧
        ∀ order, ¬Block b page order) ∨
      ∃ order, Block b page order ∧ ∀ fuel, b.checkPages (fuel + 1) page tf =
        b.checkPages fuel (page + 2 ^ order) (b.counted page order tf)) := by
  by_cases hlt : page < b.pages
  case neg =>
    refine .inl ⟨Nat.le_of_not_lt hlt, fun fuel => ?_⟩
    cases fuel with
    | zero => rfl
    | succ fuel => exact if_neg hlt
  refine .inr ⟨hlt, ?_⟩
  simp only [checkPages, if_pos hlt]
  by_cases hmark : b.tag page &&& tagFree ≠ 0 ∨ b.tag page &&& tagUsed ≠ 0
  case neg =>
    refine .inl ⟨?_, fun _ hb => hmark hb.marked⟩
    rw [not_or, not_not, not_not] at hmark
    exact ⟨_, fun _ => if_pos ⟨not_not.mpr hmark.1, hmark.2⟩⟩
  have hmarked : ¬(¬b.tag page &&& tagFree ≠ 0 ∧ b.tag page &&& tagUsed = 0) :=
    fun hand => hmark.elim hand.1 (· hand.2)
  simp only [if_neg hmarked]
  generalize horder : (b.tag page &&& tagOrder).toNat = order
  have hrefuse : ¬Block b page order → ∀ o, ¬Block b page o :=
    fun hno o hb => hno (hb.order_eq.symm.trans horder ▸ hb)
  by_cases hfit : maxOrder < order ∨ page % blockPages order ≠ 0 ∨ b.pages < satAdd A.usizeMax page (blockPages order)
  · refine .inl ⟨⟨_, fun _ => if_pos hfit⟩, hrefuse fun hb => ?_⟩
    rcases hfit with h | h | h
    · exact absurd hb.order_le (Nat.not_le.mpr h)
    · exact h (Nat.mod_eq_zero_of_dvd hb.aligned)
    · exact absurd ((min_le_left _ _).trans hb.inside) (Nat.not_le.mpr h)
  simp only [if_neg hfit]
  rw [not_or, not_or, not_not, Nat.not_lt, Nat.not_lt] at hfit
  obtain ⟨hle, hal, hin⟩ := hfit
  -- a page with a tag has its record in memory, so nothing saturates
  have hsmall : page + 2 ^ order < A.usizeMax := by
    have htag : b.tag page ≠ 0 := by
      intro hz
      rw [hz] at hmark
      exact absurd hmark (by decide)
    have := mul_le_of_tag htag
    have := A.u32Max_le_usizeMax
    have : 2 ^ order ≤ 2 ^ maxOrder := Nat.pow_le_pow_right (by decide) hle
    unfold maxOrder at this
    omega
  rw [blockPages] at hal
  rw [blockPages, satAdd_of_le hsmall.le] at hin
  simp only [blockPages, satAdd_of_le hsmall.le, satAdd_of_le (show page + 1 ≤ A.usizeMax by omega)]
  cases hfind : (List.range' (page + 1) (page + 2 ^ order - (page + 1))).find? (fun p => b.tag p ≠ 0) with
  | some p =>
    refine .inl ⟨⟨_, fun _ => rfl⟩, hrefuse fun hb => ?_⟩
    obtain ⟨hlo, hhi⟩ := List.mem_range'_1.mp (List.mem_of_find?_eq_some hfind)
    exact absurd (List.find?_some hfind) (by simp [hb.interior p hlo (by omega)])
  | none =>
    have hinner : ∀ p, page < p → p < page + 2 ^ order → b.tag p = 0 := by
      intro p hlo hhi
      have := List.find?_eq_none.mp hfind p (List.mem_range'_1.mpr ⟨hlo, by omega⟩)
      simpa using this
    have hblock : (b.tag page &&& tagFree ≠ 0 → order < maxOrder →
        satAdd A.usizeMax (page ^^^ 2 ^ order) (2 ^ order) ≤ b.pages → b.tag (page ^^^ 2 ^ order) ≠ b.tag page) →
        Block b page order :=
      fun h => ⟨hmark, horder, hle, Nat.dvd_of_mod_eq_zero hal, hin, hsmall, hinner, h⟩
    by_cases hfree : b.tag page &&& tagFree ≠ 0
    case neg =>
      refine .inr ⟨order, hblock fun h => absurd h hfree, fun fuel => ?_⟩
      rw [show b.counted page order tf = tf from if_neg hfree]
      exact if_neg hfree
    by_cases hbuddy : order < maxOrder ∧ satAdd A.usizeMax (page ^^^ 2 ^ order) (2 ^ order) ≤ b.pages ∧
        b.tag (page ^^^ 2 ^ order) = b.tag page
    · exact .inl ⟨⟨_, fun _ => (if_pos hfree).trans (if_pos hbuddy)⟩,
        hrefuse fun hb => hb.apart hfree hbuddy.1 hbuddy.2.1 hbuddy.2.2⟩
    · refine .inr ⟨order, hblock fun _ ho hend heq => hbuddy ⟨ho, hend, heq⟩, fun fuel => ?_⟩
      rw [show b.counted page order tf = satAdd A.usizeMax tf (2 ^ order) from if_pos hfree]
      exact (if_pos hfree).trans (if_neg hbuddy)

/-- The walk has come to `page` over the blocks of `T`, of which the free ones have `tf` pages. -/
structure Walked (b : Buddy A) (page : Nat) (T : Finset Dyad) (tf : Nat) : Prop where
  tiling : Tiling page maxOrder T
  block : ∀ d ∈ T, Block b d.start d.order
  small : page < A.usizeMax
  total : tf = ∑ d ∈ T with b.tag d.start &&& tagFree ≠ 0, 2 ^ d.order

theorem Walked.pass (h : Walked b page T tf) (hb : Block b page order) :
    Walked b (page + 2 ^ order) (insert ⟨page, order⟩ T) (b.counted page order tf) where
  tiling := h.tiling.extend hb.order_le hb.aligned
  block := (forall_mem_insert ..).mpr ⟨hb, h.block⟩
  small := hb.small
  total := by
    have hnew : ⟨page, order⟩ ∉ T := fun hmem => lt_irrefl _ (h.tiling.start_lt hmem)
    rw [counted, filter_insert]
    split
    · have hle : tf ≤ page := by
        rw [h.total, ← h.tiling.sum_eq]
        exact sum_le_sum_of_subset (filter_subset _ _)
      have := hb.small
      rw [sum_insert (fun hmem => hnew (mem_filter.mp hmem).1), ← h.total, satAdd_of_le (by omega), add_comm]
    · exact h.total

/-! ## What the tags say -/

def freeHeads (b : Buddy A) : Finset Dyad :=
  ((range b.pages).filter fun p => b.tag p &&& tagFree ≠ 0).image
    fun p => ⟨p, (b.tag p &&& tagOrder).toNat⟩

def usedHeads (b : Buddy A) : Finset Dyad :=
  ((range b.pages).filter fun p => b.tag p &&& tagFree = 0 ∧ b.tag p &&& tagUsed ≠ 0).image
    fun p => ⟨p, (b.tag p &&& tagOrder).toNat⟩

/-- Every page with a mark that the walk has come past starts a block of it. -/
theorem Walked.mem_of_marked (h : Walked b page T tf) {p : Nat} (hp : p < page) (hmark : b.tag p ≠ 0) :
    ⟨p, (b.tag p &&& tagOrder).toNat⟩ ∈ T := by
  obtain ⟨d, hd, hpd⟩ := h.tiling.cover p hp
  have hblock := h.block d hd
  rcases Nat.eq_or_lt_of_le hpd.1 with heq | hlt
  · rw [← heq, hblock.order_eq]
    exact hd
  · exact absurd (hblock.interior p hlt hpd.2) hmark

section

variable (h : Walked b b.pages T tf)

include h

/-- Past the last page, the blocks of the walk are the heads the tags name. -/
theorem Walked.image_eq {P : UInt8 → Prop} [DecidablePred P] (hP : ¬P 0) :
    (((range b.pages).filter fun p => P (b.tag p)).image fun p => (⟨p, (b.tag p &&& tagOrder).toNat⟩ : Dyad)) =
      {d ∈ T | P (b.tag d.start)} := by
  ext d
  simp only [mem_image, mem_filter, mem_range]
  constructor
  · rintro ⟨p, ⟨hp, hmark⟩, rfl⟩
    exact ⟨h.mem_of_marked hp fun hz => hP (hz ▸ hmark), hmark⟩
  · rintro ⟨hd, hmark⟩
    exact ⟨d.start, ⟨h.tiling.start_lt hd, hmark⟩, by rw [(h.block d hd).order_eq]⟩

theorem Walked.freeHeads_eq : freeHeads b = {d ∈ T | b.tag d.start &&& tagFree ≠ 0} :=
  h.image_eq (P := fun t => t &&& tagFree ≠ 0) (by decide)

theorem Walked.usedHeads_eq : usedHeads b = {d ∈ T | ¬b.tag d.start &&& tagFree ≠ 0} := by
  refine (h.image_eq (P := fun t => t &&& tagFree = 0 ∧ t &&& tagUsed ≠ 0) (by decide)).trans
    (filter_congr fun d hd => ?_)
  rw [not_not, and_iff_left_iff_imp]
  exact fun hfree => (h.block d hd).marked.resolve_left (· hfree)

theorem Walked.total_eq : tf = ∑ d ∈ freeHeads b, 2 ^ d.order := h.freeHeads_eq ▸ h.total

end

/-- The page walk passes exactly if the pages are blocks all the way. -/
theorem checkPages_spec : ∀ (fuel : Nat) {page tf : Nat} {T : Finset Dyad}, Walked b page T tf →
    page ≤ b.pages → b.pages ≤ page + fuel →
    ∀ r, b.checkPages fuel page tf = .ok r ↔ ∃ T, Walked b b.pages T r := by
  have hover : ∀ {tf r : Nat} {T : Finset Dyad}, Walked b b.pages T tf →
      ((.ok tf : Except Invariant Nat) = .ok r ↔ ∃ T, Walked b b.pages T r) := by
    refine fun h => ⟨fun heq => ?_, fun ⟨T', h'⟩ => by rw [h.total_eq, h'.total_eq]⟩
    cases heq
    exact ⟨_, h⟩
  intro fuel
  induction fuel with
  | zero =>
    intro page tf T h hle hfuel r
    exact hover (hle.antisymm hfuel ▸ h)
  | succ fuel ih =>
    intro page tf T h hle hfuel r
    rcases checkPages_step b page tf with ⟨hge, hend⟩ | ⟨hlt, ⟨⟨e, herr⟩, hno⟩ | ⟨order, hblock, hnext⟩⟩
    · rw [hend]
      exact hover (hle.antisymm hge ▸ h)
    · rw [herr]
      refine iff_of_false (by simp) ?_
      rintro ⟨T', h'⟩
      -- a block of that tiling that reaches over `page` without starting there has been passed
      obtain ⟨d, hd, hpd⟩ := h'.tiling.cover page hlt
      have hb := h'.block d hd
      rcases Nat.eq_or_lt_of_le hpd.1 with heq | hbefore
      · exact hno d.order (heq ▸ hb)
      · have hmem := h.mem_of_marked hbefore hb.tag_ne
        rw [hb.order_eq] at hmem
        exact absurd hpd.2 (Nat.not_lt.mpr (h.tiling.inside _ hmem))
    · have := Nat.two_pow_pos order
      rw [hnext]
      exact ih (h.pass hblock) hblock.inside (by omega) r

/-! ## Both together -/

/-- What `check` has to find. -/
structure Checked (b : Buddy A) (L : Nat → List Nat) (T : Finset Dyad) : Prop where
  lists : ∀ o < orders, Listed b o (L o)
  listed : b.freePages = satAdd A.usizeMax 0 (∑ o ∈ Ico 0 orders, (L o).length * 2 ^ o)
  walked : Walked b b.pages T b.freePages

/-- `check` comes back, whatever the bytes, and finds nothing wrong exactly if everything is there. -/
theorem check_spec (b : Buddy A) :
    ∃ r, b.check = .ret r ∧ (r = .ok () ↔ ∃ L T, Checked b L T) := by
  have hstart : Walked b 0 ∅ 0 := ⟨.empty maxOrder, by simp, Nat.lt_of_lt_of_le (by decide) A.u32Max_le_usizeMax, rfl⟩
  have hpages := checkPages_spec b.pages hstart (Nat.zero_le _) (by omega)
  obtain ⟨r, hr, hlists⟩ := checkLists_spec (b := b) orders 0 0 (Nat.zero_add _) (Nat.zero_le _)
  have hno : ∀ e : Invariant, ¬(r = .ok b.freePages ∧ b.checkPages b.pages 0 0 = .ok b.freePages) →
      (Except.error e = .ok () ↔ ∃ L T, Checked b L T) := by
    refine fun e hne => iff_of_false (by simp) ?_
    rintro ⟨L, T, h⟩
    exact hne ⟨(hlists _).mpr ⟨L, fun o _ => h.lists o, h.listed⟩, (hpages _).mpr ⟨T, h.walked⟩⟩
  rw [check, hr]
  cases r with
  | error e => exact ⟨_, rfl, hno e (by simp)⟩
  | ok s =>
    simp only [Call.bind]
    split
    · next hs => exact ⟨_, rfl, hno _ fun h => hs (Except.ok.inj h.1)⟩
    next hs =>
    split
    · next hp => exact ⟨_, rfl, hno _ fun h => by simp [hp] at h⟩
    next hp =>
    split
    · next htf => exact ⟨_, rfl, hno _ fun h => htf (Except.ok.inj (hp.symm.trans h.2))⟩
    next htf =>
    rw [not_not] at hs htf
    subst hs htf
    obtain ⟨L, hL, hlisted⟩ := (hlists _).mp rfl
    obtain ⟨T, hT⟩ := (hpages _).mp hp
    exact ⟨_, rfl, iff_of_true rfl ⟨L, T, fun o => hL o (Nat.zero_le o), hlisted, hT⟩⟩

theorem Settled.tag_decode (h : Settled b b.pages L U) (hd : d ∈ freeSet L ∪ U) :
    (b.tag d.start &&& tagFree ≠ 0 ↔ d ∈ freeSet L) ∧
      (b.tag d.start &&& tagFree ≠ 0 ∨ b.tag d.start &&& tagUsed ≠ 0) ∧
      (b.tag d.start &&& tagOrder).toNat = d.order := by
  rcases mem_union.mp hd with hF | hU
  · obtain ⟨hfree, horder, -⟩ := freeTag_decode d.order (h.order_lt hd)
    rw [h.tag_free d hF]
    exact ⟨iff_of_true hfree hF, .inl hfree, horder⟩
  · obtain ⟨hfree, hused, horder, -⟩ := usedTag_decode d.order (h.order_lt hd)
    rw [h.tag_used d hU]
    exact ⟨iff_of_false (not_not.mpr hfree) (disjoint_right.mp h.free_used hU), .inr hused, horder⟩

/-- The pages inside a block carry no tag. -/
theorem Rep.tag_interior (h : Rep b b.pages L U T) (hd : d ∈ T)
    {q : Nat} (hq : d.start < q) (hq' : q < d.start + 2 ^ d.order) : b.tag q = 0 := by
  refine h.tag_zero q (hq'.trans_le (h.tiling.inside d hd)) fun e he hs => ?_
  have := h.tiling.disjoint d hd e he q ⟨hq.le, hq'⟩ (hs ▸ e.start_mem)
  subst this
  exact lt_irrefl _ (hs ▸ hq)

section

variable (h : Settled b b.pages L U) (hc : Coalesced maxOrder (freeSet L))

include h hc

theorem Settled.block (hd : d ∈ freeSet L ∪ U) : Block b d.start d.order where
  marked := (h.tag_decode hd).2.1
  order_eq := (h.tag_decode hd).2.2
  order_le := h.tiling.order_le d hd
  aligned := h.tiling.aligned d hd
  inside := h.tiling.inside d hd
  small := (h.tiling.inside d hd).trans_lt h.sized.pages_lt_usizeMax
  interior := fun _ => Rep.tag_interior h hd
  apart := by
    intro hfree ho hend heq
    have hF := (h.tag_decode hd).1.mp hfree
    have hlt : d.start ^^^ 2 ^ d.order < b.pages := by
      have := h.sized.pages_lt_usizeMax
      have := Nat.two_pow_pos d.order
      unfold satAdd at hend
      omega
    rw [h.tag_free d hF, Rep.tag_eq_freeTag h hlt (h.order_lt hd) fun e he _ => mem_union.mp he] at heq
    have hdF : (⟨d.start, d.order⟩ : Dyad) ∈ freeSet L := hF
    obtain ⟨r, hr, ⟨hlo, hhi⟩ | ⟨hlo, hhi⟩⟩ := Dyad.exists_parent (h.tiling.aligned d hd) <;>
      rw [hlo] at hdF <;> rw [hhi] at heq
    · exact hc r d.order ho hr hdF heq
    · exact hc r d.order ho hr heq hdF

/-- The page walk finds the tiling. -/
theorem Settled.walked : Walked b b.pages (freeSet L ∪ U) b.freePages where
  tiling := h.tiling
  block := fun _ => h.block hc
  small := h.sized.pages_lt_usizeMax
  total := by
    rw [h.total, filter_congr fun d hd => (h.tag_decode hd).1, filter_mem_eq_inter, union_inter_cancel_left]

theorem Settled.freeHeads_eq : freeHeads b = freeSet L := by
  rw [(h.walked hc).freeHeads_eq, filter_congr fun d hd => (h.tag_decode hd).1, filter_mem_eq_inter,
    union_inter_cancel_left]

theorem Settled.usedHeads_eq : usedHeads b = U := by
  rw [(h.walked hc).usedHeads_eq, filter_congr fun d hd => not_congr (h.tag_decode hd).1,
    filter_notMem_eq_sdiff, union_sdiff_cancel_left h.free_used]

/-- **Nothing is found wrong** with a settled allocator whose free blocks are coalesced. -/
theorem check_of_settled : b.check = .ret (.ok ()) := by
  obtain ⟨r, hr, hiff⟩ := check_spec b
  rw [hr, hiff.mpr ⟨L, _, ?_, ?_, h.walked hc⟩]
  · intro o ho
    refine ⟨⟨h.linked o ho, fun p hp => ⟨h.list_lt ho hp, h.tag_free ⟨p, o⟩ (mem_freeSet.mpr ⟨ho, hp⟩)⟩⟩, ?_⟩
    have := h.count o ho
    rw [Vector.getElem?_eq_getElem ho] at this ⊢
    simpa using this
  · have hle : b.freePages ≤ b.pages := by
      rw [h.total, ← h.tiling.sum_eq]
      exact sum_le_sum_of_subset h.free_sub
    have := h.sized.pages_lt_usizeMax
    rw [← range_eq_Ico, ← sum_freeSet h.nodup, ← h.total, satAdd_of_le (by omega), zero_add]

end

end Kintane.Buddy
