import Kintane.Kalloc.BuddySpec

/-!
# Whole histories of a buddy allocator

A history is any list of operations, with any arguments, refused ones included. An
`Owner` is the allocator together with the ranges it has handed out and not had
back. `Sound` is everything `check` tests, said of the tags and links themselves,
and `Handed` says that what callers hold is what the tags call used.

Every history keeps `Sound`. It keeps `Handed` exactly when every frame of the run
has a 64-bit address: `alloc_order` marks a block used and counts it before it asks
for the block's first frame, so a block past the top of memory is lost.
-/

open Finset

namespace Kintane.Buddy

variable {A : Arch} {b c : Buddy A} {L L' : Nat → List Nat} {U U' : Finset Dyad} {checked : Bool}

theorem inv_of_new {run : FrameRange A} {store : List UInt8}
    (hb : new checked run store = .ret (.ok b)) : ∃ L, Inv b L ∅ ∧ b.run = run := by
  rcases new_spec checked run store with ⟨e, he⟩ | ⟨b', L, hb', hinv, hrun⟩
  · cases he.symm.trans hb
  · cases hb'.symm.trans hb
    exact ⟨L, hinv, hrun⟩

/-- Everything `check` tests, and the count of live blocks. -/
structure Sound (b : Buddy A) : Prop where
  /-- The blocks tile the run, each aligned to its own size. -/
  tiles : Tiling b.pages maxOrder (freeHeads b ∪ usedHeads b)
  distinct : Disjoint (freeHeads b) (usedHeads b)
  /-- The pages inside a block carry no tag. -/
  interior : ∀ d ∈ freeHeads b ∪ usedHeads b, ∀ p, d.start < p → p < d.start + 2 ^ d.order →
    b.tag p = 0
  /-- Each order's doubly linked list holds the heads tagged free at that order, once each. -/
  lists : ∀ o ≤ maxOrder, ∃ l, Linked b.next b.prev nilLink nilLink (b.head o) l ∧ l.Nodup ∧
    (∀ p, p ∈ l ↔ p < b.pages ∧ b.tag p = tagFree ||| orderBits o) ∧
    b.freeBlocks[o]? = some l.length
  /-- No two free buddies are left unmerged. -/
  coalesced : Coalesced maxOrder (freeHeads b)
  free_pages : b.freePages = ∑ d ∈ freeHeads b, 2 ^ d.order
  live_blocks : b.liveBlocks = (usedHeads b).card
  check : b.check = .ret (.ok ())

theorem Inv.sound (h : Inv b L U) : Sound b where
  tiles := by rw [h.settled.freeHeads_eq h.coalesced, h.usedHeads_eq]; exact h.settled.tiling
  distinct := by rw [h.settled.freeHeads_eq h.coalesced, h.usedHeads_eq]; exact h.settled.free_used
  interior := by
    rw [h.settled.freeHeads_eq h.coalesced, h.usedHeads_eq]
    exact fun d hd p h1 h2 => Rep.tag_interior h.settled hd h1 h2
  lists := fun o ho => by
    have ho' : o < orders := Nat.lt_succ_of_le ho
    refine ⟨L o, h.settled.linked o ho', h.settled.nodup o ho', fun p => ?_, ?_⟩
    · constructor
      · intro hp
        exact ⟨h.settled.list_lt ho' hp, h.settled.tag_free ⟨p, o⟩ (mem_freeSet.mpr ⟨ho', hp⟩)⟩
      · rintro ⟨hp, htag⟩
        have hF := (Rep.tag_eq_freeTag h.settled hp ho' fun d hd _ => mem_union.mp hd).mp htag
        exact (mem_freeSet.mp hF).2
    · have := h.settled.count o ho'
      rw [Vector.getElem?_eq_getElem ho'] at this ⊢
      simpa using this
  coalesced := by rw [h.settled.freeHeads_eq h.coalesced]; exact h.coalesced
  free_pages := by rw [h.settled.freeHeads_eq h.coalesced]; exact h.settled.total
  live_blocks := by rw [h.usedHeads_eq]; exact h.live
  check := check_of_settled h.settled h.coalesced

/-! ## Histories -/

inductive Op (A : Arch) where
  | allocOrder (order : Nat)
  | allocPages (pages : Nat)
  | free (range : FrameRange A)

/-- The allocator, and the ranges it handed out that have not come back. -/
structure Owner (A : Arch) where
  buddy : Buddy A
  held : List (FrameRange A)
  deriving DecidableEq

namespace Owner

/-- What the callers hold after an allocation returned `r`. -/
def keep (held : List (FrameRange A)) : Except AllocError (FrameRange A) → List (FrameRange A)
  | .ok r => r :: held
  | .error _ => held

/-- A range is held from the allocation that returned it to the free that took it. -/
def step (checked : Bool) (s : Owner A) : Op A → Call (Owner A)
  | .allocOrder order =>
    (s.buddy.allocOrder checked order).bind fun (b, r) => .ret ⟨b, keep s.held r⟩
  | .allocPages pages =>
    (s.buddy.allocPages checked pages).bind fun (b, r) => .ret ⟨b, keep s.held r⟩
  | .free range =>
    (s.buddy.free checked range).bind fun
      | (b, .ok ()) => .ret ⟨b, s.held.erase range⟩
      | (b, .error _) => .ret ⟨b, s.held⟩

def run (checked : Bool) : List (Op A) → Owner A → Call (Owner A)
  | [], s => .ret s
  | op :: ops, s => (s.step checked op).bind (run checked ops)

end Owner

/-- The ranges held are the blocks of `U`, once each. -/
structure Matches (b : Buddy A) (held : List (FrameRange A)) (U : Finset Dyad) : Prop where
  nodup : held.Nodup
  used : ∀ d ∈ U, ∃ r ∈ held, Covers b r d
  held : ∀ r ∈ held, ∃ d ∈ U, Covers b r d

variable {r : FrameRange A} {d : Dyad} {held : List (FrameRange A)} {s : Owner A}

theorem Covers.block_unique {d e : Dyad} (hd : Covers b r d) (he : Covers b r e) : d = e := by
  obtain ⟨d1, d2⟩ := hd
  obtain ⟨e1, e2⟩ := he
  cases d; cases e
  simp only [Dyad.mk.injEq] at *
  exact ⟨by omega, Nat.pow_right_injective (le_refl 2) (d2.symm.trans e2)⟩

theorem Covers.range_unique {r s : FrameRange A} (hr : Covers b r d) (hs : Covers b s d) : r = s :=
  FrameRange.ext_of (hr.1.trans hs.1.symm) (hr.2.trans hs.2.symm)

theorem Covers.of_run (hr : Covers b r d) (hb : c.base = b.base) : Covers c r d := ⟨hb ▸ hr.1, hr.2⟩

namespace Matches

variable {held : List (FrameRange A)}

theorem nil (b : Buddy A) : Matches b [] ∅ := ⟨List.nodup_nil, by simp, by simp⟩

variable (h : Matches b held U)

include h

theorem of_base (hb : c.base = b.base) : Matches c held U where
  nodup := h.nodup
  used := fun d hd => (h.used d hd).imp fun _ hr => ⟨hr.1, hr.2.of_run hb⟩
  held := fun r hr => (h.held r hr).imp fun _ hd => ⟨hd.1, hd.2.of_run hb⟩

theorem cons (hcov : Covers b r d) (hd : d ∉ U) : Matches b (r :: held) (insert d U) where
  nodup := by
    refine List.nodup_cons.mpr ⟨fun hr => ?_, h.nodup⟩
    obtain ⟨e, he, hcov'⟩ := h.held r hr
    exact hd (hcov.block_unique hcov' ▸ he)
  used := (forall_mem_insert ..).mpr ⟨⟨r, List.mem_cons_self, hcov⟩,
    fun e he => (h.used e he).imp fun _ hs => hs.imp_left (List.mem_cons_of_mem _)⟩
  held := List.forall_mem_cons.mpr ⟨⟨d, mem_insert_self .., hcov⟩,
    fun s hs => (h.held s hs).imp fun _ he => he.imp_left mem_insert_of_mem⟩

theorem erase (hcov : Covers b r d) : Matches b (held.erase r) (U.erase d) where
  nodup := h.nodup.erase r
  used := by
    intro e he
    obtain ⟨hne, he⟩ := mem_erase.mp he
    obtain ⟨s, hs, hc⟩ := h.used e he
    refine ⟨s, (h.nodup.mem_erase_iff).mpr ⟨?_, hs⟩, hc⟩
    rintro rfl
    exact hne (hc.block_unique hcov)
  held := by
    intro s hs
    obtain ⟨hne, hs⟩ := (h.nodup.mem_erase_iff).mp hs
    obtain ⟨e, he, hc⟩ := h.held s hs
    refine ⟨e, mem_erase.mpr ⟨?_, he⟩, hc⟩
    rintro rfl
    exact hne (hc.range_unique hcov)

end Matches

theorem Inv.base_eq (h : Inv b L U) (h' : Inv c L' U') (hrun : c.run = b.run) :
    c.base = b.base := by rw [h'.base, hrun, h.base]

/-- An allocation that fails changes nothing. -/
def Refuses (checked : Bool) (b : Buddy A) : Prop :=
  ∀ order c e, b.allocOrder checked order = .ret (c, .error e) → c = b

theorem Inv.refuses (h : Inv b L U) (checked : Bool) (hspace : b.run.InAddressSpace) : b.Refuses checked := by
  intro order c e he
  rcases allocOrder_spec h checked order with
    ⟨e', heq, -⟩ | ⟨p, c', L', -, hinv, hrun, ⟨r, heq, -⟩ | ⟨heq, hout⟩⟩
  · cases heq.symm.trans he
    rfl
  · cases heq.symm.trans he
  have hin := hinv.settled.start_lt (hinv.settled.used_sub (mem_insert_self _ _))
  refine absurd ?_ hout
  rw [h.base]
  exact hspace.number_mul_lt (by rw [← hrun, ← hinv.pages]; exact hin)

/-- One allocation, seen by an owner. -/
theorem Inv.step_allocOrder (h : Inv b L U) (checked : Bool) (order : Nat) (held : List (FrameRange A)) :
    ∃ c r L' U', b.allocOrder checked order = .ret (c, r) ∧ Inv c L' U' ∧ c.run = b.run ∧
      (b.Refuses checked → Matches b held U → Matches c (Owner.keep held r) U') := by
  rcases allocOrder_spec h checked order with
    ⟨e, heq, -⟩ | ⟨p, c, L', hnew, hinv, hrun, ⟨r, heq, hcov⟩ | ⟨heq, hout⟩⟩
  · exact ⟨b, _, L, U, heq, h, rfl, fun _ hm => hm⟩
  · exact ⟨c, _, L', _, heq, hinv, hrun, fun _ hm =>
      (hm.of_base (h.base_eq hinv hrun)).cons hcov hnew⟩
  refine ⟨c, _, L', _, heq, hinv, hrun, fun hrefuse _ => ?_⟩
  -- the block was counted, so the state is another
  have hlive := hinv.live
  rw [hrefuse order c _ heq, h.live, card_insert_of_notMem hnew] at hlive
  omega

/-- **One operation** keeps the invariant, and what callers hold unless a block is lost. -/
theorem Owner.step_inv (h : Inv s.buddy L U) (checked : Bool) (op : Op A) :
    ∃ s' L' U', s.step checked op = .ret s' ∧ Inv s'.buddy L' U' ∧
      s'.buddy.run = s.buddy.run ∧
      (s.buddy.Refuses checked → Matches s.buddy s.held U → Matches s'.buddy s'.held U') := by
  cases op with
  | allocOrder order =>
    obtain ⟨c, r, L', U', heq, hinv, hrun, hm⟩ := h.step_allocOrder checked order s.held
    exact ⟨⟨c, keep s.held r⟩, L', U', by simp only [step, heq, Call.bind], hinv, hrun, hm⟩
  | allocPages n =>
    rcases allocPages_cases checked s.buddy n with ⟨e, heq⟩ | ⟨order, -, heq'⟩
    · exact ⟨s, L, U, by simp only [step, heq, Call.bind, keep], h, rfl, fun _ hm => hm⟩
    · obtain ⟨c, r, L', U', heq, hinv, hrun, hm⟩ := h.step_allocOrder checked order s.held
      exact ⟨⟨c, keep s.held r⟩, L', U', by simp only [step, heq', heq, Call.bind], hinv, hrun, hm⟩
  | free range =>
    by_cases hex : ∃ d ∈ U, Covers s.buddy range d
    · obtain ⟨d, hd, hcov⟩ := hex
      obtain ⟨c, L', heq, hinv, hrun⟩ := h.free_ok checked hd hcov
      refine ⟨⟨c, s.held.erase range⟩, L', _, by simp only [step, heq, Call.bind], hinv, hrun, fun _ hm => ?_⟩
      exact (hm.erase hcov).of_base (h.base_eq hinv hrun)
    · obtain ⟨e, heq⟩ := h.free_error checked (r := range) fun d hd hc => hex ⟨d, hd, hc⟩
      exact ⟨s, L, U, by simp only [step, heq, Call.bind], h, rfl, fun _ hm => hm⟩

/-- **A whole history** keeps the invariant and never stops the machine. -/
theorem Owner.run_inv (checked : Bool) (ops : List (Op A)) :
    ∀ {s : Owner A} {L : Nat → List Nat} {U : Finset Dyad}, Inv s.buddy L U →
      ∃ s' L' U', run checked ops s = .ret s' ∧ Inv s'.buddy L' U' ∧
        s'.buddy.run = s.buddy.run ∧
        ((∀ pre t, run checked pre s = .ret t → t.buddy.Refuses checked) → Matches s.buddy s.held U →
          Matches s'.buddy s'.held U') := by
  induction ops with
  | nil => exact fun {s L U} h => ⟨s, L, U, rfl, h, rfl, fun _ hm => hm⟩
  | cons op ops ih =>
    intro s L U h
    obtain ⟨s1, L1, U1, heq1, h1, hrun1, hm1⟩ := step_inv h checked op
    obtain ⟨s2, L2, U2, heq2, h2, hrun2, hm2⟩ := ih h1
    refine ⟨s2, L2, U2, by simp only [run, heq1, Call.bind, heq2], h2, hrun2.trans hrun1, ?_⟩
    refine fun hrefuse hm => hm2 (fun pre t ht => hrefuse (op :: pre) t ?_) (hm1 (hrefuse [] s rfl) hm)
    rw [run, heq1]
    exact ht

theorem Owner.run_refuses (h : Inv s.buddy L U) (hspace : s.buddy.run.InAddressSpace)
    (ops : List (Op A)) (t : Owner A) (ht : run checked ops s = .ret t) : t.buddy.Refuses checked := by
  obtain ⟨s', L', U', heq, h', hrun, -⟩ := run_inv checked ops h
  cases heq.symm.trans ht
  exact h'.refuses checked (hrun ▸ hspace)

/-! ## What callers hold -/

/-- The blocks handed out and not given back are exactly the blocks tagged used. -/
structure Handed (b : Buddy A) (held : List (FrameRange A)) : Prop where
  used_held : ∀ d ∈ usedHeads b, ∃ r ∈ held, Covers b r d
  held_used : ∀ r ∈ held, ∃ d ∈ usedHeads b, Covers b r d
  apart : held.Pairwise fun r s =>
    r.start.number + r.count ≤ s.start.number ∨ s.start.number + s.count ≤ r.start.number
  inside : ∀ r ∈ held, b.run.start.number ≤ r.start.number ∧
    r.start.number + r.count ≤ b.run.start.number + b.run.count

theorem Matches.handed (hm : Matches b held U) (h : Inv b L U) :
    Handed b held where
  used_held := by rw [h.usedHeads_eq]; exact hm.used
  held_used := by rw [h.usedHeads_eq]; exact hm.held
  apart := by
    refine hm.nodup.imp_of_mem fun {r s} hr hs hne => ?_
    obtain ⟨d, hd, hd1, hd2⟩ := hm.held r hr
    obtain ⟨e, he, he1, he2⟩ := hm.held s hs
    have hde : d ≠ e := by
      rintro rfl
      exact hne (Covers.range_unique ⟨hd1, hd2⟩ ⟨he1, he2⟩)
    have := h.settled.tiling.apart (h.settled.used_sub hd) (h.settled.used_sub he) hde
    omega
  inside := by
    intro r hr
    obtain ⟨d, hd, hd1, hd2⟩ := hm.held r hr
    have := h.settled.tiling.inside d (h.settled.used_sub hd)
    rw [h.pages] at this
    rw [← h.base]
    omega

/-- Single pages can be taken until none is left. -/
theorem Inv.exhaust (checked : Bool) :
    ∀ {n : Nat} {s : Owner A} {L : Nat → List Nat} {U : Finset Dyad}, Inv s.buddy L U →
      (∀ d ∈ U, d.order = 0) → s.buddy.pages ≤ U.card + n →
      ∃ ops s' L' U', Owner.run checked ops s = .ret s' ∧ Inv s'.buddy L' U' ∧
        s'.buddy.run = s.buddy.run ∧ (∀ d ∈ U', d.order = 0) ∧ ∀ o < orders, L' o = [] := by
  intro n
  induction n with
  | zero =>
    intro s L U h h0 hle
    refine ⟨[], s, L, U, rfl, h, rfl, h0, fun o ho => ?_⟩
    -- the pages in use already fill the run
    have hsum : ∑ d ∈ U, 2 ^ d.order = U.card := by
      rw [card_eq_sum_ones]
      exact sum_congr rfl fun d hd => by rw [h0 d hd]; rfl
    have htotal := h.settled.tiling.sum_eq
    rw [sum_union h.settled.free_used, hsum] at htotal
    have hzero : ∑ d ∈ freeSet L, 2 ^ d.order = 0 := by omega
    refine List.eq_nil_iff_forall_not_mem.mpr fun p hp => ?_
    have := (sum_eq_zero_iff.mp hzero) ⟨p, o⟩ (mem_freeSet.mpr ⟨ho, hp⟩)
    exact absurd this (Nat.two_pow_pos o).ne'
  | succ n ih =>
    intro s L U h h0 hle
    rcases allocOrder_spec h checked 0 with ⟨e, -, hnil⟩ | ⟨p, c, L', hnew, hinv, hrun, hret⟩
    · exact ⟨[], s, L, U, rfl, h, rfl, h0, fun o ho => (hnil (Nat.zero_le _)).2 o (Nat.zero_le _) ho⟩
    have hone : ∀ d ∈ insert (⟨p, 0⟩ : Dyad) U, d.order = 0 := (forall_mem_insert ..).mpr ⟨rfl, h0⟩
    have hcard := card_insert_of_notMem hnew
    have hpages : c.pages = s.buddy.pages := by rw [hinv.pages, hrun, h.pages]
    obtain ⟨r, heq⟩ : ∃ r, s.buddy.allocOrder checked 0 = .ret (c, r) := by
      rcases hret with ⟨r, heq, -⟩ | ⟨heq, -⟩ <;> exact ⟨_, heq⟩
    obtain ⟨ops, s', L'', U'', hrun', hinv', hrun'', h0', hnil⟩ :=
      ih (s := ⟨c, Owner.keep s.held r⟩) hinv hone (by rw [hcard]; simp only [hpages]; omega)
    refine ⟨.allocOrder 0 :: ops, s', L'', U'', ?_, hinv', hrun''.trans hrun, h0', hnil⟩
    simp only [Owner.run, Owner.step, heq, Call.bind, hrun']

/-- If the last page of the run can be held, every frame of the run has an address. -/
theorem Handed.inAddressSpace (hh : Handed b held) (h : Inv b L U)
    (h0 : ∀ d ∈ U, d.order = 0) (hnil : ∀ o < orders, L o = []) : b.run.InAddressSpace := by
  have hpos := b.run.count_pos
  obtain ⟨d, hd, hlo, hhi⟩ := h.settled.tiling.cover (b.pages - 1) (by rw [h.pages]; omega)
  have hU : d ∈ U := by
    refine (mem_union.mp hd).resolve_left fun hF => ?_
    obtain ⟨ho, hp⟩ := mem_freeSet.mp hF
    rw [hnil _ ho] at hp
    cases hp
  obtain ⟨r, hr, hnum, -⟩ := hh.used_held d (h.usedHeads_eq ▸ hU)
  rw [h0 d hU, pow_zero] at hhi
  have hlast : d.start = b.run.count - 1 := by rw [← h.pages]; omega
  have := r.start.start_lt
  rw [r.start.start_eq, hnum, hlast, h.base] at this
  unfold FrameRange.InAddressSpace
  rwa [Nat.add_sub_assoc hpos]

/--
**Every history is sound, and faithful exactly inside the address space.**

`new` either refuses its arguments or returns an allocator from which no history
stops the machine or leaves a state `check` would refuse. What callers hold agrees
with the tags after every history if and only if every frame of the run has a
64-bit address.
-/
theorem history_faithful_iff (checked : Bool) (run : FrameRange A) (store : List UInt8) :
    (∃ e, new checked run store = .ret (.error e)) ∨
      ∃ b, new checked run store = .ret (.ok b) ∧
        (∀ ops, ∃ s, Owner.run checked ops ⟨b, []⟩ = .ret s ∧ Sound s.buddy) ∧
        ((∀ ops, ∃ s, Owner.run checked ops ⟨b, []⟩ = .ret s ∧ Sound s.buddy ∧
            Handed s.buddy s.held) ↔ run.InAddressSpace) := by
  rcases new_spec checked run store with he | ⟨b, L, hnew, hinv, rfl⟩
  · exact .inl he
  refine .inr ⟨b, hnew, fun ops => ?_, fun hall => ?_, fun hspace ops => ?_⟩
  · obtain ⟨s, L', U', heq, h', -, -⟩ := Owner.run_inv checked ops (s := ⟨b, []⟩) hinv
    exact ⟨s, heq, h'.sound⟩
  · obtain ⟨ops, s, L', U', heq, h', hrun, h0, hnil⟩ :=
      hinv.exhaust checked (s := ⟨b, []⟩) (n := b.pages) (by simp) (by simp)
    obtain ⟨s', heq', -, hh⟩ := hall ops
    cases heq.symm.trans heq'
    exact hrun ▸ hh.inAddressSpace h' h0 hnil
  · obtain ⟨s, L', U', heq, h', -, hm⟩ := Owner.run_inv checked ops (s := ⟨b, []⟩) hinv
    exact ⟨s, heq, h'.sound, (hm (Owner.run_refuses hinv hspace) (Matches.nil b)).handed h'⟩

/-- Two pages, the second past the top of 64-bit physical memory. -/
def topRun : FrameRange Arch.full where
  start := ⟨(2 ^ 52 - 1) * 4096, by decide, by decide⟩
  count := 2
  count_pos := by decide
  count_le := by decide
  fits := by decide

/-- Both pages of `topRun` end up used and counted, and one of them was never handed out. -/
theorem topRun_loses_a_block : ∃ b s, new true topRun (List.replicate 18 0) = .ret (.ok b) ∧
    Owner.run true [.allocOrder 0, .allocOrder 0] ⟨b, []⟩ = .ret s ∧ s.buddy.liveBlocks = 2 ∧
    (usedHeads s.buddy).card = 2 ∧ s.held.length = 1 ∧ ¬ Handed s.buddy s.held := by
  refine ⟨_, _, rfl, rfl, rfl, by decide, rfl, fun hh => ?_⟩
  obtain ⟨r, -, hnum, -⟩ := hh.used_held ⟨1, 0⟩ (by decide)
  have := r.start.start_lt
  rw [r.start.start_eq, hnum] at this
  exact absurd this (by decide)

/-! ## History independence -/

/-- Two allocators over one run describe the same blocks. -/
structure SameBlocks (b c : Buddy A) : Prop where
  tag : ∀ p < b.run.count, b.tag p = c.tag p
  freePages : b.freePages = c.freePages
  freeBlocks : b.freeBlocks = c.freeBlocks

/-- The blocks in use determine everything else. -/
theorem Inv.sameBlocks (h : Inv b L U) (h' : Inv c L' U) (hrun : c.run = b.run) : SameBlocks b c := by
  have hpages : c.pages = b.pages := by rw [h'.pages, hrun, h.pages]
  have hset := h'.settled
  rw [hpages] at hset
  -- one coalesced tiling of what is not in use
  have hF : freeSet L = freeSet L' :=
    h.coalesced.unique h'.coalesced h.settled.tiling hset.tiling h.settled.free_used hset.free_used
  refine ⟨fun p hp => ?_, by rw [h.settled.total, hset.total, hF], ?_⟩
  · rw [← h.pages] at hp
    by_cases hs : ∃ d ∈ freeSet L ∪ U, d.start = p
    · obtain ⟨d, hd, rfl⟩ := hs
      rcases mem_union.mp hd with hd | hd
      · rw [h.settled.tag_free d hd, hset.tag_free d (hF ▸ hd)]
      · rw [h.settled.tag_used d hd, hset.tag_used d hd]
    · have hno : ∀ d ∈ freeSet L ∪ U, d.start ≠ p := fun d hd he => hs ⟨d, hd, he⟩
      rw [h.settled.tag_zero p hp hno, hset.tag_zero p (hpages ▸ hp) (hF ▸ hno)]
  · refine Vector.ext fun o ho => ?_
    have hperm : (L o).Perm (L' o) := by
      rw [List.perm_ext_iff_of_nodup (h.settled.nodup o ho) (hset.nodup o ho)]
      intro p
      have := congrArg ((⟨p, o⟩ : Dyad) ∈ ·) hF
      simpa [mem_freeSet, ho] using this
    have h1 := h.settled.count o ho
    have h2 := hset.count o ho
    rw [Vector.getElem?_eq_getElem ho, Option.getD_some] at h1 h2
    rw [h1, h2, hperm.length_eq]

/-- Inside the address space, callers that hold the same ranges hold the same blocks. -/
theorem Matches.used_eq {held' : List (FrameRange A)} (h : Matches b held U)
    (h' : Matches c held' U') (hb : c.base = b.base) (hheld : ∀ r, r ∈ held ↔ r ∈ held') :
    U = U' := by
  ext d
  constructor
  · intro hd
    obtain ⟨r, hr, hcov⟩ := h.used d hd
    obtain ⟨e, he, hcov'⟩ := h'.held r ((hheld r).mp hr)
    exact (hcov.of_run hb).block_unique hcov' ▸ he
  · intro hd
    obtain ⟨r, hr, hcov⟩ := h'.used d hd
    obtain ⟨e, he, hcov'⟩ := h.held r ((hheld r).mpr hr)
    exact hcov.block_unique (hcov'.of_run hb) ▸ he

/--
**History independence.** Two histories over one run that end with the same live
blocks end with the same tags and the same counts of free pages and blocks, however
the records were stored and whatever happened on the way. When nothing is live any
more, those are the tags and counts `new` made. A live block is one tagged used;
inside the address space it is the same to ask which ranges callers hold.
-/
theorem history_independent {checked' : Bool} {run : FrameRange A}
    {store store' : List UInt8} {b b' : Buddy A} (hb : new checked run store = .ret (.ok b))
    (hb' : new checked' run store' = .ret (.ok b')) (ops ops' : List (Op A)) :
    ∃ s s', Owner.run checked ops ⟨b, []⟩ = .ret s ∧ Owner.run checked' ops' ⟨b', []⟩ = .ret s' ∧
      (usedHeads s.buddy = usedHeads s'.buddy ∨
          run.InAddressSpace ∧ (∀ r, r ∈ s.held ↔ r ∈ s'.held) →
        SameBlocks s.buddy s'.buddy) ∧
      (usedHeads s.buddy = ∅ ∨ run.InAddressSpace ∧ s.held = [] → SameBlocks s.buddy b') := by
  obtain ⟨L, h, rfl⟩ := inv_of_new hb
  obtain ⟨L', h', hrun⟩ := inv_of_new hb'
  obtain ⟨s, L1, U1, heq, h1, hrun1, hm1⟩ := Owner.run_inv checked ops (s := ⟨b, []⟩) h
  obtain ⟨s', L2, U2, heq', h2, hrun2, hm2⟩ := Owner.run_inv checked' ops' (s := ⟨b', []⟩) h'
  have hrun12 : s'.buddy.run = s.buddy.run := by rw [hrun1, hrun2, hrun]
  refine ⟨s, s', heq, heq', fun hsame => ?_, fun hnone => ?_⟩
  · have hU : U1 = U2 := by
      rcases hsame with hsame | ⟨hspace, hsame⟩
      · rwa [h1.usedHeads_eq, h2.usedHeads_eq] at hsame
      · exact (hm1 (Owner.run_refuses h hspace) (.nil b)).used_eq
          (hm2 (Owner.run_refuses h' (hrun ▸ hspace)) (.nil b')) (h1.base_eq h2 hrun12) hsame
    exact h1.sameBlocks (hU ▸ h2) hrun12
  · have hU : U1 = ∅ := by
      rcases hnone with hnone | ⟨hspace, hnone⟩
      · rwa [h1.usedHeads_eq] at hnone
      · refine (hm1 (Owner.run_refuses h hspace) (.nil b)).used_eq (.nil b') (h1.base_eq h' (by rw [hrun, hrun1])) ?_
        rw [hnone]; exact fun _ => Iff.rfl
    exact h1.sameBlocks (hU ▸ h') (by rw [hrun, hrun1])

def smallRun : FrameRange Arch.full where
  start := ⟨16 * 4096, by decide, by decide⟩
  count := 3
  count_pos := by decide
  count_le := by decide
  fits := by decide

def smallRunLast : FrameRange Arch.full where
  start := ⟨18 * 4096, by decide, by decide⟩
  count := 1
  count_pos := by decide
  count_le := by decide
  fits := by decide

theorem history_independent_smallRun :
    ∃ b s, new true smallRun (List.replicate 27 0) = .ret (.ok b) ∧
      Owner.run true [.allocOrder 0, .free smallRunLast] ⟨b, []⟩ = .ret s ∧
      usedHeads s.buddy = ∅ ∧ SameBlocks s.buddy b := by
  refine ⟨_, _, rfl, rfl, by decide, ?_⟩
  have hnew : new true smallRun (List.replicate 27 0) = .ret (.ok _) := rfl
  obtain ⟨s, s', hs, -, -, hfresh⟩ :=
    history_independent hnew hnew [.allocOrder 0, .free smallRunLast] []
  obtain rfl : _ = s := Call.ret.inj hs
  exact hfresh (.inl (by decide))

end Kintane.Buddy
