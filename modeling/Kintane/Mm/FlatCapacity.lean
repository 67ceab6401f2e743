import Kintane.Mm.FlatProof

/-!
# How many entries the list of free ranges needs

The list is to be sized for the ranges in the map plus the most allocations alive at once.
A caller allocates and gives back what it holds, in any order:

* what is free is the free memory of the start less what the caller holds;
* each allocation held adds at most one range to the description of what is left;
* so a range that comes back always finds its entry, and an allocation lacks one only when
  as many are alive as the list was sized for.

With nothing held the free memory is that of the start, and so is the list.
-/

open Finset

namespace Kintane.Flat

open Spans

variable {N align len : Nat} {r r' : Regions N}

namespace Regions

/-! ## When an operation is refused -/

theorem allocLoop_full {rest : List (Nat × Nat)} : ∀ {done l : List (Nat × Nat)} {full : Bool},
      allocLoop N len align done rest full = some (l, .error .full) → full = true ∨ (done ++ rest).length = N := by
  induction rest with
  | nil =>
    intro done l full h
    cases full
    · simp [allocLoop] at h
    · exact .inl rfl
  | cons x rest ih =>
    intro done l full h
    have hlen : (done ++ [x] ++ rest).length = (done ++ x :: rest).length := by simp
    unfold allocLoop at h
    split at h
    · exact hlen ▸ ih h
    split at h
    · exact hlen ▸ ih h
    split at h
    · exact hlen ▸ ih h
    split at h
    · next hfull => exact .inr hfull.2.2
    split at h
    · obtain ⟨_, -, hout⟩ := Option.map_eq_some_iff.mp h
      cases hout
    all_goals cases h

theorem alloc_full (h : r.alloc len align = some (r', .error .full)) : r.ranges.length = N := by
  unfold Regions.alloc at h
  split at h
  · simp at h
  split at h
  · simp at h
  obtain ⟨⟨l, out⟩, heq, hout⟩ := Option.map_eq_some_iff.mp h
  cases hout
  exact (allocLoop_full heq).resolve_left (by simp)

end Regions

/-! ## A caller and what it holds -/

/-- The list, with the ranges that have been handed out and not given back. -/
structure Held (N : Nat) where
  regions : Regions N
  live : List (Nat × Nat)
  deriving DecidableEq, Repr

inductive Call where
  | alloc (len align : Nat)
  | free (x : Nat × Nat)
  deriving DecidableEq, Repr

namespace Held

open Regions

variable {s : Held N} {x : Nat × Nat}

def step (s : Held N) : Call → Option (Held N × Option FlatError)
  | .alloc len align => (s.regions.alloc len align).map fun
    | (r, .ok at_) => (⟨r, (at_, at_ + len) :: s.live⟩, none)
    | (r, .error e) => (⟨r, s.live⟩, some e)
  | .free x => (s.regions.free x.1 (x.2 - x.1)).map fun
    | (r, .ok ()) => (⟨r, s.live.erase x⟩, none)
    | (r, .error e) => (⟨r, s.live⟩, some e)

/-- Only what is held is given back. -/
def Allowed (s : Held N) : Call → Prop
  | .alloc _ _ => True
  | .free x => x ∈ s.live

/-- The states a caller reaches from `r` with at most `k` allocations alive at once. -/
inductive Runs (k : Nat) (r : Regions N) : Held N → Prop where
  | start : Runs k r ⟨r, []⟩
  | step {s s' : Held N} {c : Call} {e : Option FlatError} :
      Runs k r s → s.Allowed c → s.step c = some (s', e) → s'.live.length ≤ k → Runs k r s'

/-- What is free and what is held make up the memory that was free at the start. -/
structure Tiles (r : Regions N) (s : Held N) : Prop where
  inv : Inv s.regions
  addrs : s.regions.addrs = r.addrs \ Spans.addrs s.live
  nonempty : ∀ x ∈ s.live, x.1 < x.2
  inside : ∀ x ∈ s.live, Ico x.1 x.2 ⊆ r.addrs
  apart : s.live.Pairwise fun x y => Disjoint (Ico x.1 x.2) (Ico y.1 y.2)

theorem Tiles.start (h : Inv r) : Tiles r ⟨r, []⟩ :=
  ⟨h, by simp [Spans.addrs], by simp, by simp, .nil⟩

theorem disjoint_addrs {I : Finset Nat} {l : List (Nat × Nat)}
    (h : ∀ y ∈ l, Disjoint I (Ico y.1 y.2)) : Disjoint I (Spans.addrs l) := by
  refine disjoint_left.mpr fun a ha hal => ?_
  obtain ⟨y, hy, hin⟩ := mem_addrs.mp hal
  exact disjoint_left.mp (h y hy) ha (mem_Ico.mpr hin)

theorem Tiles.alloc (h : Tiles r s) {at_ : Nat}
    (heq : s.regions.alloc len align = some (r', .ok at_)) : Tiles r ⟨r', (at_, at_ + len) :: s.live⟩ := by
  rcases h.inv.alloc len align with ⟨e, herr, -⟩ | ⟨r1, x, at1, hok, hinv, hfit, haddrs⟩
  · cases herr.symm.trans heq
  cases hok.symm.trans heq
  have hlen : 0 < len := by
    rcases Nat.eq_zero_or_pos len with rfl | hpos
    · simp [Regions.alloc] at heq
    · exact hpos
  have hsub : Ico at_ (at_ + len) ⊆ s.regions.addrs := by
    intro a ha
    have := hfit.holds.start_le
    have := hfit.holds.fits
    rw [mem_Ico] at ha
    exact mem_addrs.mpr ⟨x, hfit.mem, by omega, by omega⟩
  rw [h.addrs] at hsub
  refine ⟨hinv, ?_, List.forall_mem_cons.mpr ⟨by simp only; omega, h.nonempty⟩,
    List.forall_mem_cons.mpr ⟨hsub.trans sdiff_subset, h.inside⟩, List.pairwise_cons.mpr ⟨fun y hy => ?_, h.apart⟩⟩
  · rw [haddrs, h.addrs, Spans.addrs, union_comm, sdiff_sdiff_left]
    rfl
  · refine disjoint_left.mpr fun a ha hay => ?_
    exact (mem_sdiff.mp (hsub ha)).2 (mem_addrs.mpr ⟨y, hy, mem_Ico.mp hay⟩)

/-- What is held, as the range that comes back and the rest. -/
theorem Tiles.split (h : Tiles r s) (hx : x ∈ s.live) : Disjoint s.regions.addrs (Ico x.1 x.2) ∧
      s.regions.addrs ∪ Ico x.1 x.2 = r.addrs \ Spans.addrs (s.live.erase x) ∧
      (s.live.erase x).Pairwise fun x y => Disjoint (Ico x.1 x.2) (Ico y.1 y.2) := by
  have hperm := List.perm_cons_erase hx
  have haddrs : Spans.addrs s.live = Ico x.1 x.2 ∪ Spans.addrs (s.live.erase x) := by
    ext a
    rw [← Spans.addrs, mem_addrs, mem_addrs]
    simp only [hperm.mem_iff]
  have hsymm : ∀ {u v : Nat × Nat}, Disjoint (Ico u.1 u.2) (Ico v.1 v.2) →
      Disjoint (Ico v.1 v.2) (Ico u.1 u.2) := fun h => h.symm
  obtain ⟨hfirst, hrest⟩ := List.pairwise_cons.mp (hperm.pairwise_iff hsymm |>.mp h.apart)
  have hdis := disjoint_addrs hfirst
  refine ⟨?_, ?_, hrest⟩
  · rw [h.addrs, haddrs]
    exact sdiff_disjoint.mono_right subset_union_left
  · rw [h.addrs, haddrs]
    ext a
    have hin := @h.inside x hx a
    have hout := @disjoint_left.mp hdis a
    simp only [mem_union, mem_sdiff]
    tauto

theorem Tiles.length_le (hr : Inv r) (h : Tiles r s) : s.regions.ranges.length ≤ r.ranges.length + s.live.length :=
  hr.separated.length_le_add h.inv.separated h.addrs

/-- A list with an entry for each range of the start and each allocation takes every range back. -/
theorem Tiles.free (hr : Inv r) (h : Tiles r s) (hcap : r.ranges.length + s.live.length ≤ N) (hx : x ∈ s.live) :
    ∃ r', s.regions.free x.1 (x.2 - x.1) = some (r', .ok ()) ∧ Tiles r ⟨r', s.live.erase x⟩ := by
  have hne := h.nonempty x hx
  obtain ⟨hdis, hunion, hapart⟩ := h.split hx
  have hmax : x.2 ≤ u64Max := by
    obtain ⟨y, hy, -, hlt⟩ := mem_addrs.mp (h.inside x hx (mem_Ico.mpr ⟨Nat.le_sub_one_of_lt hne, by omega⟩))
    have := hr.bounded y hy
    omega
  have hend : rangeEnd x.1 (x.2 - x.1) = .ok x.2 := by
    rw [rangeEnd, if_neg (by omega), checkedAdd_of_le (by omega), Nat.add_sub_cancel' hne.le]
  unfold Regions.free Regions.add
  rw [hend]
  rcases h.inv.insert hne hmax with ⟨e, -, he⟩ | ⟨r', hok, hinv, -, haddrs⟩
  · cases e with
    | empty => exact absurd he hne.ne
    | overflow => exact absurd he.2 hmax.not_gt
    | overlap => exact absurd hdis he
    | full =>
      -- the list would need one more entry than it has, with one allocation fewer
      obtain ⟨l, hl, hlen, haddrs⟩ := he
      have hle := hr.separated.length_le_add hl (haddrs.trans hunion)
      rw [List.length_erase_of_mem hx] at hle
      omega
    | _ => exact he.elim
  · refine ⟨r', hok, hinv, haddrs.trans hunion, fun y hy => ?_, fun y hy => ?_, hapart⟩
    · exact h.nonempty y (List.mem_of_mem_erase hy)
    · exact h.inside y (List.mem_of_mem_erase hy)

/-- What is held stays within the allowance and stays a part of the free memory of the start. -/
theorem Runs.tiles {k : Nat} (hr : Inv r) (hcap : r.ranges.length + k ≤ N) (h : Runs k r s) :
    Tiles r s ∧ s.live.length ≤ k := by
  induction h with
  | start => exact ⟨Tiles.start hr, Nat.zero_le _⟩
  | @step s s' c e _ hallowed hstep hk ih =>
    refine ⟨?_, hk⟩
    obtain ⟨htiles, hle⟩ := ih
    cases c with
    | alloc len align =>
      obtain ⟨⟨r', out⟩, heq, hout⟩ := Option.map_eq_some_iff.mp hstep
      cases out with
      | ok at_ =>
        cases hout
        exact htiles.alloc heq
      | error e =>
        rcases htiles.inv.alloc len align with ⟨_, herr, -⟩ | ⟨_, _, _, hok, -⟩
        · cases herr.symm.trans heq
          cases hout
          exact htiles
        · cases hok.symm.trans heq
    | free x =>
      obtain ⟨r', heq, htiles'⟩ := htiles.free hr (by omega) hallowed
      rw [Held.step, heq] at hstep
      cases hstep
      exact htiles'

/--
**A list with room for `k` more ranges is large enough for `k` allocations.**

From every list reached by any calls, with `k` entries to spare, a caller that never holds more
than `k` allocations can always give one back, is refused an allocation for want of an entry only
when it already holds `k`, and finds the list as it was once it holds nothing.
-/
theorem capacity_suffices {N k : Nat} (ops : List Op) {r : Regions N} (hr : Regions.run ops new = some r)
    (hcap : r.ranges.length + k ≤ N) {s : Held N} (h : Runs k r s) :
    (∀ x ∈ s.live, ∃ r', s.step (.free x) = some (⟨r', s.live.erase x⟩, none)) ∧
      (∀ len align, ∃ s' e, s.step (.alloc len align) = some (s', e) ∧
        (e = some .full → s' = s ∧ s.live.length = k)) ∧
      (s.live = [] → s.regions = r) := by
  obtain ⟨r1, heq, hinv⟩ := inv_new.run (N := N) ops
  cases heq.symm.trans hr
  obtain ⟨htiles, hle⟩ := h.tiles hinv hcap
  refine ⟨fun x hx => ?_, fun len align => ?_, fun hnone => ?_⟩
  · obtain ⟨r', hfree, -⟩ := htiles.free hinv (by omega) hx
    exact ⟨r', by rw [step, hfree]; rfl⟩
  · rcases htiles.inv.alloc len align with ⟨e, herr, -⟩ | ⟨r', _, at_, hok, -⟩
    · refine ⟨s, some e, by rw [step, herr]; rfl, ?_⟩
      rintro ⟨⟩
      have := alloc_full herr
      have := htiles.length_le hinv
      exact ⟨rfl, by omega⟩
    · exact ⟨_, none, by rw [step, hok]; rfl, by simp⟩
  · refine htiles.inv.ext hinv ?_
    rw [htiles.addrs, hnone, Spans.addrs, sdiff_empty]

/-- One range and room for one more: after an allocation from its middle. -/
theorem capacity_suffices_middle :
    (∃ r' : Regions 2, step ⟨⟨[(1, 16), (24, 100)]⟩, [(16, 24)]⟩ (.free (16, 24)) = some (⟨r', []⟩, none)) := by
  have hrun : Runs 1 (⟨[(1, 100)]⟩ : Regions 2) ⟨⟨[(1, 16), (24, 100)]⟩, [(16, 24)]⟩ :=
    .step (c := .alloc 8 16) (e := none) .start trivial (by decide) (by decide)
  exact (capacity_suffices [.add 1 99] (by decide) (by decide) hrun).1 (16, 24) (by decide)

/-- A caller that holds as many as the list was sized for may ask for one more, and is then told
that the list is full. -/
theorem capacity_one_more :
    ¬∀ (N k : Nat) (ops : List Op) (r : Regions N), Regions.run ops new = some r → r.ranges.length + k ≤ N →
      ∀ s, Runs k r s → ∀ c, s.Allowed c → ∀ s' e, s.step c = some (s', e) → s'.live.length ≤ k →
        e ≠ some .full := by
  intro h
  have hrun : Runs 1 (⟨[(1, 100)]⟩ : Regions 2) ⟨⟨[(1, 16), (24, 100)]⟩, [(16, 24)]⟩ :=
    .step (c := .alloc 8 16) (e := none) .start trivial (by decide) (by decide)
  exact h 2 1 [.add 1 99] ⟨[(1, 100)]⟩ (by decide) (by decide) _ hrun (.alloc 4 64) trivial
    ⟨⟨[(1, 16), (24, 100)]⟩, [(16, 24)]⟩ (some .full) (by decide) (by decide) rfl

end Held

end Kintane.Flat
