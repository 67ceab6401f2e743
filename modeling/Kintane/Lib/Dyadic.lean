import Mathlib.Algebra.BigOperators.Group.Finset.Basic
import Mathlib.Algebra.Order.BigOperators.Group.Finset
import Mathlib.Order.Interval.Finset.Nat
import Mathlib.Data.Nat.Bitwise
import Mathlib.Algebra.Order.Ring.Nat
import Mathlib.Tactic.Ring

/-!
# Dyadic blocks and their tilings

A dyadic block is `[start, start + 2^order)` with `start` a multiple of its own
size. Two such blocks are nested or disjoint, and that single fact drives
everything here: a block splits into two halves, two halves join back, and a set
of blocks covering `[0, n)` without overlap keeps doing so under both.

The last result is about **coalesced** tilings, those in which no two free halves
of one parent are left apart. Given which part of the range is occupied, there is
exactly one coalesced way to tile the rest. The range need not be a power of two.
-/

open Finset

namespace Kintane

/-- The block `[start, start + 2^order)`. -/
structure Dyad where
  start : Nat
  order : Nat
  deriving DecidableEq, Repr

variable {b c : Dyad} {p k q o M n : Nat} {F F' U : Finset Dyad}

namespace Dyad

instance : Membership Nat Dyad := ⟨fun b p => b.start ≤ p ∧ p < b.start + 2 ^ b.order⟩

theorem mem_iff : p ∈ b ↔ b.start ≤ p ∧ p < b.start + 2 ^ b.order := Iff.rfl

theorem start_mem (b : Dyad) : b.start ∈ b :=
  ⟨le_rfl, Nat.lt_add_of_pos_right (Nat.two_pow_pos _)⟩

/-- A block starts at a multiple of its size. -/
def Aligned (b : Dyad) : Prop := 2 ^ b.order ∣ b.start

/-- An aligned block holds the pages that divide as its start does. -/
theorem mem_iff_div (ha : b.Aligned) : p ∈ b ↔ p / 2 ^ b.order = b.start / 2 ^ b.order := by
  obtain ⟨k, hk⟩ := ha
  have hpos := Nat.two_pow_pos b.order
  rw [mem_iff, hk, Nat.mul_div_cancel_left _ hpos, Nat.div_eq_iff hpos, mul_comm]
  omega

section

variable (hb : b.Aligned) (hc : c.Aligned) (hpb : p ∈ b) (hpc : p ∈ c)
include hb hc hpb hpc

/-- The aligned block of an order around a page is unique. -/
theorem eq_of_mem (ho : b.order = c.order) : b = c := by
  obtain ⟨s, o⟩ := b
  obtain ⟨s', o'⟩ := c
  obtain rfl : o = o' := ho
  have hs := ((mem_iff_div hb).mp hpb).symm.trans ((mem_iff_div hc).mp hpc)
  exact congrArg (Dyad.mk · o) ((Nat.div_left_inj hb hc).mp hs)

/-- **Meeting blocks are nested**: the smaller lies inside the larger. -/
theorem subset_of_meet (ho : b.order ≤ c.order) (hq : q ∈ b) : q ∈ c := by
  rw [mem_iff_div hb] at hpb hq
  rw [mem_iff_div hc] at hpc ⊢
  obtain ⟨d, hd⟩ := Nat.exists_eq_add_of_le ho
  rw [← hpc, hd, pow_add, ← Nat.div_div_eq_div_mul, ← Nat.div_div_eq_div_mul, hq, hpb]

end

/-! ## Halves and buddies -/

/-- The lower half of the block of order `k + 1` at `p` is aligned. -/
theorem aligned_lower (h : 2 ^ (k + 1) ∣ p) : (Dyad.mk p k).Aligned :=
  dvd_trans (Nat.pow_dvd_pow 2 (Nat.le_succ k)) h

theorem aligned_upper (h : 2 ^ (k + 1) ∣ p) : (Dyad.mk (p + 2 ^ k) k).Aligned :=
  Nat.dvd_add (aligned_lower h) (dvd_refl _)

theorem mem_halves : q ∈ Dyad.mk p (k + 1) ↔ q ∈ Dyad.mk p k ∨ q ∈ Dyad.mk (p + 2 ^ k) k := by
  simp only [mem_iff, pow_succ]
  omega

theorem not_mem_both : ¬ (q ∈ Dyad.mk p k ∧ q ∈ Dyad.mk (p + 2 ^ k) k) := by
  simp only [mem_iff]
  omega

/-- Flipping the size bit of an aligned start moves to the other half of the parent. -/
theorem xor_eq_of_dvd (h : 2 ^ (k + 1) ∣ p) : p ^^^ 2 ^ k = p + 2 ^ k := by
  obtain ⟨j, rfl⟩ := h
  have h1 : 2 ^ (k + 1) * j = (2 * j) <<< k := by rw [Nat.shiftLeft_eq, pow_succ]; ring
  have h2 : 2 ^ k = 1 <<< k := by rw [Nat.one_shiftLeft]
  have h3 : 2 * j ^^^ 1 = 2 * j + 1 := by simp
  rw [h1, h2, ← Nat.shiftLeft_xor_distrib, h3, Nat.shiftLeft_eq, Nat.shiftLeft_eq, Nat.shiftLeft_eq]
  ring

theorem xor_add_two_pow (h : 2 ^ (k + 1) ∣ p) : (p + 2 ^ k) ^^^ 2 ^ k = p := by
  rw [← xor_eq_of_dvd h, Nat.xor_assoc, Nat.xor_self, Nat.xor_zero]

/-- An aligned block is the lower or the upper half of its parent, and its buddy the other. -/
theorem exists_parent (h : 2 ^ k ∣ p) : ∃ q, 2 ^ (k + 1) ∣ q ∧
    (p = q ∧ p ^^^ 2 ^ k = q + 2 ^ k ∨ p = q + 2 ^ k ∧ p ^^^ 2 ^ k = q) := by
  obtain ⟨j, rfl⟩ := h
  rcases Nat.even_or_odd' j with ⟨i, hj⟩
  have hq : 2 ^ (k + 1) ∣ 2 ^ k * (2 * i) := ⟨i, by rw [pow_succ]; ring⟩
  refine ⟨_, hq, ?_⟩
  rcases hj with rfl | rfl
  · exact .inl ⟨rfl, xor_eq_of_dvd hq⟩
  · exact .inr ⟨rfl, xor_add_two_pow hq⟩

end Dyad

/-- `B` tiles `[0, n)` with aligned blocks of order at most `M`. -/
structure Tiling (n M : Nat) (B : Finset Dyad) : Prop where
  /-- Every block sits at a multiple of its size. -/
  aligned : ∀ b ∈ B, b.Aligned
  /-- No block runs past the end. -/
  inside : ∀ b ∈ B, b.start + 2 ^ b.order ≤ n
  /-- No block exceeds the largest order. -/
  order_le : ∀ b ∈ B, b.order ≤ M
  /-- Every page lies in some block. -/
  cover : ∀ p, p < n → ∃ b ∈ B, p ∈ b
  /-- No page lies in two. -/
  disjoint : ∀ b ∈ B, ∀ c ∈ B, ∀ p : Nat, p ∈ b → p ∈ c → b = c

namespace Tiling

variable {n M : Nat} {B : Finset Dyad}

theorem start_lt (h : Tiling n M B) (hb : b ∈ B) : b.start < n :=
  (Nat.lt_add_of_pos_right (Nat.two_pow_pos _)).trans_le (h.inside b hb)

/-- A start names its block. -/
theorem eq_of_start (h : Tiling n M B) (hb : b ∈ B) (hc : c ∈ B) (hs : b.start = c.start) : b = c :=
  h.disjoint b hb c hc b.start b.start_mem (hs ▸ c.start_mem)

/-- Two blocks lie one after the other. -/
theorem apart (h : Tiling n M B) (hb : b ∈ B) (hc : c ∈ B) (hne : b ≠ c) :
    b.start + 2 ^ b.order ≤ c.start ∨ c.start + 2 ^ c.order ≤ b.start := by
  by_contra hmeet
  rw [not_or, not_le, not_le] at hmeet
  -- the later of the two starts would be in both
  refine hne (h.disjoint b hb c hc (max b.start c.start) ?_ ?_)
  · have := b.start_mem.2
    exact ⟨le_max_left _ _, Nat.max_lt.mpr ⟨this, hmeet.1⟩⟩
  · have := c.start_mem.2
    exact ⟨le_max_right _ _, Nat.max_lt.mpr ⟨hmeet.2, this⟩⟩

theorem empty (M : Nat) : Tiling 0 M ∅ where
  aligned := by simp
  inside := by simp
  order_le := by simp
  cover := by simp
  disjoint := by simp

section

variable (h : Tiling n M B)

include h

/-- Laying one more block at the end. -/
theorem extend (ho : o ≤ M) (ha : 2 ^ o ∣ n) : Tiling (n + 2 ^ o) M (insert ⟨n, o⟩ B) where
  aligned := (forall_mem_insert ..).mpr ⟨ha, h.aligned⟩
  inside := (forall_mem_insert ..).mpr ⟨le_rfl, fun b hb => (h.inside b hb).trans (Nat.le_add_right _ _)⟩
  order_le := (forall_mem_insert ..).mpr ⟨ho, h.order_le⟩
  cover := by
    intro p hp
    rcases lt_or_ge p n with hlt | hge
    · obtain ⟨b, hb, hpb⟩ := h.cover p hlt
      exact ⟨b, mem_insert_of_mem hb, hpb⟩
    · exact ⟨⟨n, o⟩, mem_insert_self _ _, hge, hp⟩
  disjoint := by
    intro b hb c hc p hpb hpc
    rcases mem_insert.mp hb with rfl | hb <;> rcases mem_insert.mp hc with rfl | hc
    · rfl
    · have := h.inside c hc
      have := hpb.1; have := hpc.2
      simp only at *
      omega
    · have := h.inside b hb
      have := hpb.2; have := hpc.1
      simp only at *
      omega
    · exact h.disjoint b hb c hc p hpb hpc

/-- Replacing blocks by others that cover the same pages keeps a tiling. -/
theorem exchange {old new : Finset Dyad} (hold : old ⊆ B)
    (haligned : ∀ b ∈ new, b.Aligned) (hinside : ∀ b ∈ new, b.start + 2 ^ b.order ≤ n)
    (horder : ∀ b ∈ new, b.order ≤ M)
    (hsame : ∀ p : Nat, (∃ b ∈ new, p ∈ b) ↔ ∃ b ∈ old, p ∈ b)
    (hdisj : ∀ b ∈ new, ∀ c ∈ new, ∀ p : Nat, p ∈ b → p ∈ c → b = c) :
    Tiling n M (new ∪ (B \ old)) where
  aligned := forall_mem_union.mpr ⟨haligned, fun b hb => h.aligned b (mem_sdiff.mp hb).1⟩
  inside := forall_mem_union.mpr ⟨hinside, fun b hb => h.inside b (mem_sdiff.mp hb).1⟩
  order_le := forall_mem_union.mpr ⟨horder, fun b hb => h.order_le b (mem_sdiff.mp hb).1⟩
  cover := by
    intro p hp
    obtain ⟨b, hb, hpb⟩ := h.cover p hp
    by_cases hbo : b ∈ old
    · obtain ⟨c, hc, hpc⟩ := (hsame p).mpr ⟨b, hbo, hpb⟩
      exact ⟨c, mem_union_left _ hc, hpc⟩
    · exact ⟨b, mem_union_right _ (mem_sdiff.mpr ⟨hb, hbo⟩), hpb⟩
  disjoint := by
    -- a new block and a kept one cannot meet: the page would also lie in an old one
    have hcross : ∀ b ∈ new, ∀ c ∈ B \ old, ∀ p : Nat, p ∈ b → p ∉ c := by
      intro b hb c hc p hpb hpc
      obtain ⟨d, hd, hpd⟩ := (hsame p).mp ⟨b, hb, hpb⟩
      obtain ⟨hc1, hc2⟩ := mem_sdiff.mp hc
      exact hc2 (h.disjoint c hc1 d (hold hd) p hpc hpd ▸ hd)
    intro b hb c hc p hpb hpc
    rcases mem_union.mp hb with hb | hb <;> rcases mem_union.mp hc with hc | hc
    · exact hdisj b hb c hc p hpb hpc
    · exact absurd hpc (hcross b hb c hc p hpb)
    · exact absurd hpb (hcross c hc b hb p hpc)
    · exact h.disjoint b (mem_sdiff.mp hb).1 c (mem_sdiff.mp hc).1 p hpb hpc

/-- The blocks of a tiling add up to the whole range. -/
theorem sum_eq : ∑ b ∈ B, 2 ^ b.order = n := by
  have hcard : ((B.biUnion fun b => Ico b.start (b.start + 2 ^ b.order))).card
      = ∑ b ∈ B, 2 ^ b.order := by
    rw [card_biUnion]
    · exact sum_congr rfl fun b _ => by simp
    · intro b hb c hc hne
      refine disjoint_left.mpr fun p hpb hpc => hne ?_
      exact h.disjoint b hb c hc p (mem_Ico.mp hpb) (mem_Ico.mp hpc)
  have hset : (B.biUnion fun b => Ico b.start (b.start + 2 ^ b.order))
      = range n := by
    ext p
    simp only [mem_biUnion, mem_Ico, mem_range]
    constructor
    · rintro ⟨b, hb, _, hp⟩
      exact hp.trans_le (h.inside b hb)
    · intro hp
      obtain ⟨b, hb, hpb⟩ := h.cover p hp
      exact ⟨b, hb, hpb⟩
  rw [← hcard, hset, card_range]

/-- There are no more blocks than pages. -/
theorem card_le : B.card ≤ n := by
  rw [← h.sum_eq, card_eq_sum_ones]
  exact sum_le_sum fun b _ => Nat.one_le_two_pow

end

/-- The two blocks that one splits into. -/
def halves (p k : Nat) : Finset Dyad := {⟨p, k⟩, ⟨p + 2 ^ k, k⟩}

theorem mem_halves : b ∈ halves p k ↔ b = ⟨p, k⟩ ∨ b = ⟨p + 2 ^ k, k⟩ := by
  simp [halves]

theorem forall_mem_halves {P : Dyad → Prop} : (∀ b ∈ halves p k, P b) ↔ P ⟨p, k⟩ ∧ P ⟨p + 2 ^ k, k⟩ := by
  simp [halves]

theorem halves_cover : (∃ b ∈ halves p k, q ∈ b) ↔ q ∈ Dyad.mk p (k + 1) := by
  rw [Dyad.mem_halves]
  simp [halves]

/-- **Splitting** a block into its halves keeps a tiling. -/
theorem split (h : Tiling n M B) (hb : ⟨p, k + 1⟩ ∈ B) : Tiling n M (halves p k ∪ (B \ {⟨p, k + 1⟩})) := by
  have hal : 2 ^ (k + 1) ∣ p := h.aligned _ hb
  have hin : p + 2 ^ (k + 1) ≤ n := h.inside _ hb
  have hord : k + 1 ≤ M := h.order_le _ hb
  refine h.exchange (by simpa using hb) (forall_mem_halves.mpr ⟨Dyad.aligned_lower hal, Dyad.aligned_upper hal⟩)
    (forall_mem_halves.mpr ?_) (forall_mem_halves.mpr ?_) ?_ ?_
  · simp only
    omega
  · simp only
    omega
  · intro q; rw [halves_cover]; simp
  · intro b hb' c hc' q hqb hqc
    rcases mem_halves.mp hb' with rfl | rfl <;> rcases mem_halves.mp hc' with rfl | rfl
    · rfl
    · exact absurd ⟨hqb, hqc⟩ Dyad.not_mem_both
    · exact absurd ⟨hqc, hqb⟩ Dyad.not_mem_both
    · rfl

/-- **Joining** two halves back into their parent keeps a tiling. -/
theorem join (h : Tiling n M B) (hal : 2 ^ (k + 1) ∣ p) (hord : k + 1 ≤ M)
    (hb : halves p k ⊆ B) : Tiling n M ({⟨p, k + 1⟩} ∪ (B \ halves p k)) := by
  have hin : p + 2 ^ k + 2 ^ k ≤ n := h.inside _ (hb (mem_halves.mpr (.inr rfl)))
  refine h.exchange hb ?_ ?_ ?_ (fun q => by rw [halves_cover]; simp) (by simp) <;> simp only [mem_singleton, forall_eq]
  · exact hal
  · omega
  · exact hord

end Tiling

/-! ## Coalesced tilings are unique -/

/-- No two halves of one parent of order at most `M` are both in `F`. -/
def Coalesced (M : Nat) (F : Finset Dyad) : Prop :=
  ∀ p k, k < M → 2 ^ (k + 1) ∣ p → ⟨p, k⟩ ∈ F → ⟨p + 2 ^ k, k⟩ ∉ F

theorem Coalesced.mono (h : Coalesced M F) (hs : F' ⊆ F) : Coalesced M F' :=
  fun p k hk hp h1 h2 => h p k hk hp (hs h1) (hs h2)

/-- Adding a block whose other half is absent keeps a set coalesced. -/
theorem Coalesced.insert (h : Coalesced M F)
    (hbud : o < M → (⟨p ^^^ 2 ^ o, o⟩ : Dyad) ∉ F) : Coalesced M (insert ⟨p, o⟩ F) := by
  intro r k hk hr h1 h2
  rcases mem_insert.mp h1 with he1 | hF1
  · obtain ⟨rfl, rfl⟩ := Dyad.mk.inj he1
    rcases mem_insert.mp h2 with he2 | hF2
    · have := (Dyad.mk.inj he2).1; omega
    · exact hbud hk (Dyad.xor_eq_of_dvd hr ▸ hF2)
  · rcases mem_insert.mp h2 with he2 | hF2
    · obtain ⟨rfl, rfl⟩ := Dyad.mk.inj he2
      have := hbud hk
      rw [Dyad.xor_add_two_pow hr] at this
      exact this hF1
    · exact h r k hk hr hF1 hF2

/--
A coalesced tiling leaves no free block strictly inside an aligned region that is
wholly free: its buddy region would have to be tiled by something smaller still,
or by the buddy itself.
-/
theorem Coalesced.not_refine (hc : Coalesced M F)
    (ht : Tiling n M (F ∪ U)) (hca : c.Aligned) (hcn : c.start + 2 ^ c.order ≤ n)
    (hcM : c.order ≤ M) (hcU : ∀ u ∈ U, ∀ p : Nat, p ∈ u → p ∉ c) :
    ∀ (o : Nat) (b : Dyad), b ∈ F → b.order = o → b.start ∈ c → o < c.order → False := by
  intro o
  induction o using Nat.strongRecOn with
  | ind o ih =>
    rintro ⟨s, o'⟩ hbF rfl hbc ho
    simp only at hbc ho ih
    have hbB : ⟨s, o'⟩ ∈ F ∪ U := mem_union_left _ hbF
    -- the parent of `b`, which lies inside `c`
    have hal : 2 ^ o' ∣ s := ht.aligned _ hbB
    obtain ⟨q, hq, hs⟩ := Dyad.exists_parent hal
    generalize s ^^^ 2 ^ o' = s' at hs
    have hsp : s ∈ Dyad.mk q (o' + 1) ∧ s' ∈ Dyad.mk q (o' + 1) := by
      simp only [Dyad.mem_iff, pow_succ]
      omega
    obtain ⟨hsp, hs'p⟩ := hsp
    have hin (r : Nat) : r ∈ Dyad.mk q (o' + 1) → r ∈ c := Dyad.subset_of_meet hq hca hsp hbc ho
    have hsal : (Dyad.mk s' o').Aligned := by
      rcases hs with ⟨-, rfl⟩ | ⟨-, rfl⟩
      · exact Dyad.aligned_upper hq
      · exact Dyad.aligned_lower hq
    -- the block `d` that covers the buddy's start
    obtain ⟨d, hdB, hsd⟩ := ht.cover s' (lt_of_lt_of_le (hin s' hs'p).2 hcn)
    have hdF : d ∈ F := by
      rcases mem_union.mp hdB with h | h
      · exact h
      · exact absurd (hin s' hs'p) (hcU d h s' hsd)
    have hdal := ht.aligned d hdB
    rcases lt_trichotomy d.order o' with hlt | heq | hgt
    · -- smaller than `b`: the induction hypothesis
      have hsub := Dyad.subset_of_meet hdal hsal hsd (Dyad.start_mem _) hlt.le d.start_mem
      have hds : d.start = s' := hsd.1.antisymm hsub.1
      exact ih d.order hlt d hdF rfl (hds ▸ hin s' hs'p) (by omega)
    · -- the buddy itself is free: not coalesced
      rw [Dyad.eq_of_mem hdal hsal hsd (Dyad.start_mem _) heq] at hdF
      have hno := hc q o' (by omega) hq
      rcases hs with ⟨rfl, rfl⟩ | ⟨rfl, rfl⟩
      · exact hno hbF hdF
      · exact hno hdF hbF
    · -- larger: it would contain `b`
      have : s ∈ d := Dyad.subset_of_meet (b := ⟨q, o' + 1⟩) hq hdal hs'p hsd hgt hsp
      have hbd := ht.disjoint _ hbB d hdB s (Dyad.start_mem _) this
      rw [← hbd] at hgt
      exact lt_irrefl _ hgt

theorem Coalesced.subset (hc : Coalesced M F)
    (hc' : Coalesced M F') (ht : Tiling n M (F ∪ U)) (ht' : Tiling n M (F' ∪ U))
    (hd : Disjoint F U) (hd' : Disjoint F' U) : F ⊆ F' := by
  -- a block free in one tiling meets no occupied block of either
  have clear : ∀ {G : Finset Dyad}, Tiling n M (G ∪ U) → Disjoint G U →
      ∀ b ∈ G, ∀ u ∈ U, ∀ p : Nat, p ∈ u → p ∉ b := by
    intro G hG hGU b hb u hu p hpu hpb
    have := hG.disjoint b (mem_union_left _ hb) u (mem_union_right _ hu) p hpb hpu
    exact disjoint_left.mp hGU hb (this ▸ hu)
  intro b hb
  have hbB : b ∈ F ∪ U := mem_union_left _ hb
  obtain ⟨c, hcB, hbc⟩ := ht'.cover b.start (ht.start_lt hbB)
  have hcF : c ∈ F' := by
    rcases mem_union.mp hcB with h | h
    · exact h
    · exact absurd b.start_mem (clear ht hd b hb c h b.start hbc)
  have hba := ht.aligned b hbB
  have hca := ht'.aligned c hcB
  rcases lt_trichotomy b.order c.order with hlt | heq | hgt
  · exact (hc.not_refine ht hca (ht'.inside c hcB) (ht'.order_le c hcB)
      (clear ht' hd' c hcF) b.order b hb rfl hbc hlt).elim
  · exact Dyad.eq_of_mem hba hca b.start_mem hbc heq ▸ hcF
  · have hcs := Dyad.subset_of_meet hca hba hbc b.start_mem hgt.le c.start_mem
    exact (hc'.not_refine ht' hba (ht.inside b hbB) (ht.order_le b hbB)
      (clear ht hd b hb) c.order c hcF rfl hcs hgt).elim

/-- **There is one coalesced tiling of what is not occupied.** -/
theorem Coalesced.unique (hc : Coalesced M F)
    (hc' : Coalesced M F') (ht : Tiling n M (F ∪ U)) (ht' : Tiling n M (F' ∪ U))
    (hd : Disjoint F U) (hd' : Disjoint F' U) : F = F' :=
  Finset.Subset.antisymm (hc.subset hc' ht ht' hd hd') (hc'.subset hc ht' ht hd' hd)

end Kintane
