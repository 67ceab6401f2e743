import Kintane.Kalloc.BuddyRuns

/-!
# What an allocation can find

The lists are all an allocation looks at. That they are enough is a consequence of merging: an
aligned range that no block in use touches is one free block, or lies in one, since halves that
are free never stay apart. So an order can be served exactly when the run has such a range of that
order, and otherwise the error tells whether there were enough pages.

The exception is the one of `BuddyRuns`: a block past the top of 64-bit memory is found, marked
and then refused.
-/

namespace Kintane.Buddy

variable {A : Arch} {b c : Buddy A} {L : Nat → List Nat} {U : Finset Dyad} {checked : Bool}

/-- An aligned range of `2^order` pages of the run that no block in use touches. -/
def Room (b : Buddy A) (order : Nat) : Prop :=
  ∃ p, 2 ^ order ∣ p ∧ p + 2 ^ order ≤ b.pages ∧
    ∀ q, p ≤ q → q < p + 2 ^ order → ∀ d ∈ usedHeads b, q ∉ d

/-- Every order is served if there is room for it. Otherwise the error says whether there were
enough pages, and nothing changes. -/
def Serves (checked : Bool) (b : Buddy A) : Prop :=
  ∀ order ≤ maxOrder, ∃ c r, b.allocOrder checked order = .ret (c, r) ∧
    ((∃ f, r = .ok f) ↔ b.Room order) ∧
    ∀ e, r = .error e → c = b ∧ e = if blockPages order ≤ b.freePages then .fragmented else .exhausted

/-- Where there is room, some list of that order or a higher one has a block. -/
theorem Inv.exists_of_room (h : Inv b L U) {order : Nat} (ho : order ≤ maxOrder) (hr : b.Room order) :
    ∃ o, order ≤ o ∧ o < orders ∧ L o ≠ [] := by
  obtain ⟨p, hal, hin, hclear⟩ := hr
  rw [h.usedHeads_eq] at hclear
  obtain ⟨d, hd, hpd⟩ := h.settled.tiling.cover p (by omega)
  have hF : d ∈ freeSet L :=
    (Finset.mem_union.mp hd).resolve_right fun hU => hclear p (le_refl p) (by omega) d hU hpd
  obtain ⟨hlt, hmem⟩ := mem_freeSet.mp hF
  refine ⟨d.order, not_lt.mp fun hsmall => ?_, hlt, List.ne_nil_of_mem hmem⟩
  -- a smaller block at `p` starts there, and the range is cut up: its halves were not merged
  have hrange : (Dyad.mk p order).Aligned := hal
  have hstart := Dyad.subset_of_meet (h.settled.tiling.aligned d hd) hrange hpd (Dyad.start_mem _) hsmall.le
    d.start_mem
  exact h.coalesced.not_refine h.settled.tiling hrange hin ho
    (fun u hu q hq hqr => hclear q hqr.1 hqr.2 u hu hq) d.order d hF rfl hstart hsmall

/-- A block that goes into use had room. -/
theorem Inv.room_of_taken (h : Inv b L U) {L' : Nat → List Nat} {p order : Nat} (hnew : ⟨p, order⟩ ∉ U)
    (hc : Inv c L' (insert ⟨p, order⟩ U)) (hrun : c.run = b.run) : b.Room order := by
  have hmem := hc.settled.used_sub (Finset.mem_insert_self ⟨p, order⟩ U)
  have hin := hc.settled.tiling.inside _ hmem
  rw [hc.pages, hrun, ← h.pages] at hin
  refine ⟨p, hc.settled.tiling.aligned _ hmem, hin, fun q hlo hhi d hd hq => hnew ?_⟩
  rw [h.usedHeads_eq] at hd
  have hd' := hc.settled.used_sub (Finset.mem_insert_of_mem hd)
  exact hc.settled.tiling.disjoint _ hmem d hd' q ⟨hlo, hhi⟩ hq ▸ hd

/-- Where failures change nothing, the lists serve every order there is room for. -/
theorem Inv.serves (h : Inv b L U) (hrefuse : b.Refuses checked) : b.Serves checked := by
  intro order ho
  rcases allocOrder_spec h checked order with
    ⟨e, heq, hwhy⟩ | ⟨p, c, L', hnew, hinv, hrun, ⟨r, heq, -⟩ | ⟨heq, -⟩⟩
  · obtain ⟨he, hnil⟩ := hwhy ho
    refine ⟨b, _, heq, ⟨by simp, fun hroom => ?_⟩, fun e' he' => ⟨rfl, ?_⟩⟩
    · obtain ⟨o, hle, hlt, hne⟩ := h.exists_of_room ho hroom
      exact absurd (hnil o hle hlt) hne
    · cases he'
      exact he
  · exact ⟨c, _, heq, iff_of_true ⟨r, rfl⟩ (h.room_of_taken hnew hinv hrun), by simp⟩
  · have hlive := hinv.live
    rw [hrefuse order c _ heq, h.live, Finset.card_insert_of_notMem hnew] at hlive
    omega

theorem Serves.refuses (h : b.Serves checked) : b.Refuses checked := by
  intro order c e he
  by_cases ho : order ≤ maxOrder
  · obtain ⟨c', r, heq, -, herr⟩ := h order ho
    cases heq.symm.trans he
    exact (herr e rfl).1
  · rw [allocOrder, dif_pos (Nat.lt_of_not_le ho)] at he
    cases he
    rfl

/--
**An allocation finds what there is, exactly inside the address space.** From every allocator that
`new` returns, every state of every history serves what it has room for if and only if every frame
of the run has a 64-bit address.
-/
theorem allocOrder_complete_iff (checked : Bool) (run : FrameRange A) (store : List UInt8) :
    (∃ e, new checked run store = .ret (.error e)) ∨
      ∃ b, new checked run store = .ret (.ok b) ∧
        ((∀ ops, ∃ s, Owner.run checked ops ⟨b, []⟩ = .ret s ∧ s.buddy.Serves checked) ↔
          run.InAddressSpace) := by
  rcases new_spec checked run store with he | ⟨b, L, hnew, hinv, rfl⟩
  · exact .inl he
  refine .inr ⟨b, hnew, fun hall => ?_, fun hspace ops => ?_⟩
  · obtain ⟨ops, s, L', U', heq, h', hrun, h0, hnil⟩ :=
      hinv.exhaust checked (s := ⟨b, []⟩) (n := b.pages) (by simp) (by simp)
    obtain ⟨s', L1, U1, heq', h1, -, hm⟩ := Owner.run_inv checked ops (s := ⟨b, []⟩) hinv
    cases heq.symm.trans heq'
    have hrefuse : ∀ pre t, Owner.run checked pre ⟨b, []⟩ = .ret t → t.buddy.Refuses checked := by
      intro pre t ht
      obtain ⟨t', ht', hserves⟩ := hall pre
      cases ht'.symm.trans ht
      exact hserves.refuses
    exact hrun ▸ ((hm hrefuse (Matches.nil b)).handed h1).inAddressSpace h' h0 hnil
  · obtain ⟨s, L', U', heq, h', hrun, -⟩ := Owner.run_inv checked ops (s := ⟨b, []⟩) hinv
    exact ⟨s, heq, h'.serves (h'.refuses checked (hrun ▸ hspace))⟩

/-- With its first page in use, `topRun` has room for the second, refuses it and marks it. -/
theorem topRun_refuses_room : ∃ b s, new true topRun (List.replicate 18 0) = .ret (.ok b) ∧
    Owner.run true [.allocOrder 0] ⟨b, []⟩ = .ret s ∧ s.buddy.Room 0 ∧
    ∃ c, s.buddy.allocOrder true 0 = .ret (c, .error .overflow) ∧ c ≠ s.buddy := by
  refine ⟨_, _, rfl, rfl, ⟨1, by decide, by decide, fun q hlo hhi => ?_⟩, _, rfl, by decide +kernel⟩
  obtain rfl : q = 1 := by omega
  show ∀ d ∈ usedHeads _, ¬(d.start ≤ 1 ∧ 1 < d.start + 2 ^ d.order)
  decide +kernel

end Kintane.Buddy
