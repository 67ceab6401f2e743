import Mathlib.Data.List.TakeWhile
import Kintane.Mm.Flat

/-!
# The range list is the set of free addresses

`Inv` says the list is separated, fits its array and stays below the top of the
address space. Each operation keeps it and does to `addrs` what it says: `add` is a
disjoint union, `reserve` a difference, `alloc` the difference of one placement. As
the list is a canonical form, nothing else about it can depend on the past.
-/

open List

namespace Kintane.Flat.Regions

open Spans Separated

variable {N start end_ e n align : Nat} {r : Regions N} {pre t l rest done : List (Nat × Nat)} {v : Nat × Nat}

/-! ## List surgery at a known place -/

variable {x : Nat × Nat} {len : Nat}

theorem modify_at (f : Nat × Nat → Nat × Nat) :
    (pre ++ x :: t).modify pre.length f = pre ++ f x :: t := by
  simp [modify_eq_take_drop]

theorem insertIdx_at : (pre ++ t).insertIdx pre.length v = pre ++ v :: t := by
  induction pre with
  | nil => rfl
  | cons y pre ih => rw [cons_append, length_cons, insertIdx_succ_cons, ih]; rfl

theorem removeAt_at : removeAt (pre ++ x :: t) pre.length = pre ++ t := by
  rw [removeAt, eraseIdx_append_of_length_le le_rfl, Nat.sub_self]
  rfl

theorem insertAt_at {p : List (Nat × Nat)} (h : (p ++ t).length < N) :
    insertAt N (p ++ t) p.length v = some (p ++ v :: t) := by
  rw [insertAt, if_pos h, insertIdx_at]

/-! ## The invariant -/

/-- Separated ranges, within the capacity and the address space. -/
structure Inv (r : Regions N) : Prop where
  separated : Separated r.ranges
  fits : r.ranges.length ≤ N
  bounded : ∀ x ∈ r.ranges, x.2 ≤ u64Max

theorem inv_new : Inv (new : Regions N) := ⟨nil, Nat.zero_le _, by simp [new]⟩

/-- `check` tests exactly that the ranges are separated. -/
theorem check_iff : (⟨l⟩ : Regions N).check = true ↔ Separated l := by
  unfold check
  rw [Bool.and_eq_true, all_eq_true, all_eq_true]
  simp only [decide_eq_true_eq]
  induction l with
  | nil => simp [Separated.nil]
  | cons x l ih =>
    cases l with
    | nil =>
      rw [Separated.cons_iff]
      simp [Separated.nil]
    | cons y l =>
      rw [Separated.cons_iff, ← ih]
      simp only [tail_cons, zip_cons_cons, forall_mem_cons]
      constructor
      · rintro ⟨⟨h1, h2, h3⟩, h4, h5⟩
        refine ⟨h1, ⟨h4, fun z hz => ?_⟩, ⟨h2, h3⟩, h5⟩
        -- later ranges start past `y`, which ends after it starts
        have hy := Separated.cons_iff.mp (ih.mp ⟨forall_mem_cons.mpr ⟨h2, h3⟩, h5⟩)
        exact (lt_trans h4 h2).trans (hy.2.1 z hz)
      · rintro ⟨h1, ⟨h4, -⟩, ⟨h2, h3⟩, h5⟩
        exact ⟨⟨h1, h2, h3⟩, h4, h5⟩

/-- Two well-formed lists over the same addresses are the same list. -/
theorem Inv.ext {r' : Regions N} (h : Inv r) (h' : Inv r') (he : r.addrs = r'.addrs) : r = r' := by
  cases r; cases r'
  exact congrArg _ (h.separated.eq_of_addrs_eq h'.separated he)

theorem rangeEnd_ok (h : rangeEnd start len = .ok e) : 0 < len ∧ e = start + len ∧ e ≤ u64Max := by
  unfold rangeEnd at h
  split at h
  · cases h
  split at h <;> cases h
  obtain ⟨hle, rfl⟩ := checkedAdd_eq_some.mp ‹_›
  exact ⟨pos_of_ne_zero ‹_›, rfl, hle⟩

theorem rangeEnd_error {err : FlatError} (h : rangeEnd start len = .error err) :
    err = .empty ∧ len = 0 ∨ err = .overflow ∧ 0 < len ∧ u64Max < start + len := by
  unfold rangeEnd at h
  split at h
  · cases h
    exact .inl ⟨rfl, ‹_›⟩
  split at h <;> cases h
  refine .inr ⟨rfl, pos_of_ne_zero ‹_›, not_le.mp fun hle => ?_⟩
  rw [checkedAdd_of_le hle] at *
  contradiction

/-! ## Adding -/

/-- Where `insert` looks: everything before ends below `start`, the next range does not. -/
theorem partitionPoint_split (l : List (Nat × Nat)) (start : Nat) :
    ∃ pre rest, l = pre ++ rest ∧ partitionPoint (fun x => x.2 < start) l = pre.length ∧
      (∀ x ∈ pre, x.2 < start) ∧ (∀ x, rest.head? = some x → start ≤ x.2) := by
  refine ⟨l.takeWhile fun x => x.2 < start, l.dropWhile fun x => x.2 < start,
    takeWhile_append_dropWhile.symm, rfl, fun x hx => ?_, fun x hx => ?_⟩
  · simpa using mem_takeWhile_imp hx
  · have := head?_dropWhile_not (fun x : Nat × Nat => decide (x.2 < start)) l
    rw [hx] at this
    simpa using this

/-- Why `[start, end)` is not added: it is empty or runs past the top of the address space, part of
it is free already, or what is free would then take one entry more than there are. -/
def AddRefused (r : Regions N) (start end_ : Nat) : FlatError → Prop
  | .empty => start = end_
  | .overflow => start < end_ ∧ u64Max < end_
  | .overlap => ¬Disjoint r.addrs (Finset.Ico start end_)
  | .full => ∃ l, Separated l ∧ l.length = N + 1 ∧ Spans.addrs l = r.addrs ∪ Finset.Ico start end_
  | _ => False

/-- The outcome of adding `[start, end)`: refused for a reason and unchanged, or joined. -/
def Added (r : Regions N) (start end_ : Nat) (out : Option (Regions N × Except FlatError Unit)) : Prop :=
  (∃ e, out = some (r, .error e) ∧ AddRefused r start end_ e) ∨
    ∃ r', out = some (r', .ok ()) ∧ Inv r' ∧ (∀ e, ¬AddRefused r start end_ e) ∧
      r'.addrs = r.addrs ∪ Finset.Ico start end_

/-- A list that holds the union with its `N` entries shows that there was room for it. -/
theorem Added.joined {r' : Regions N} (h' : Inv r') (hse : start < end_) (hmax : end_ ≤ u64Max)
    (hdis : Disjoint r.addrs (Finset.Ico start end_)) (haddrs : r'.addrs = r.addrs ∪ Finset.Ico start end_) :
    Added r start end_ (some (r', .ok ())) := by
  refine .inr ⟨r', rfl, h', fun e he => ?_, haddrs⟩
  cases e with
  | empty => exact hse.ne he
  | overflow => exact hmax.not_gt he.2
  | overlap => exact he hdis
  | full =>
    obtain ⟨l, hl, hlen, hl'⟩ := he
    cases hl.eq_of_addrs_eq h'.separated (hl'.trans haddrs.symm)
    exact absurd h'.fits (by omega)
  | _ => exact he

/-- The neighbours `old` of the new range give way to one range `[a, b)`. -/
theorem Inv.added {a b : Nat} (h : Inv r)
    (old : List (Nat × Nat)) (hr : r.ranges = pre ++ (old ++ t)) (ha : a ≤ start) (hse : start < end_) (hb : end_ ≤ b)
    (hpre : ∀ x ∈ pre, x.2 < a) (ht : ∀ y ∈ t, b < y.1) (hmax : b ≤ u64Max)
    (hlen : old ≠ [] ∨ r.ranges.length < N) (hdis : ∀ x ∈ old, x.2 ≤ start ∨ end_ ≤ x.1)
    (hset : ∀ p, a ≤ p ∧ p < b ↔ p ∈ Spans.addrs old ∨ start ≤ p ∧ p < end_) :
    Added r start end_ (some (⟨pre ++ (a, b) :: t⟩, .ok ())) := by
  have hsep := h.separated
  have hbound := h.bounded
  have hfits := h.fits
  rw [hr] at hsep hbound hfits hlen
  obtain ⟨hsp, hsot, -⟩ := append_iff.mp hsep
  obtain ⟨-, hst, -⟩ := append_iff.mp hsot
  refine .joined ⟨hsp.middle hst (by omega) hpre ht, ?_, ?_⟩ hse (hb.trans hmax) ?_ ?_
  · simp only [length_append, length_cons] at hfits hlen ⊢
    rcases hlen with hne | hlt
    · have := length_pos_iff.mpr hne
      omega
    · omega
  · obtain ⟨hbp, hbot⟩ := forall_mem_append.mp hbound
    exact forall_mem_append.mpr ⟨hbp, forall_mem_cons.mpr ⟨hmax, (forall_mem_append.mp hbot).2⟩⟩
  · rw [Finset.disjoint_left]
    intro p hp hI
    rw [Finset.mem_Ico] at hI
    obtain ⟨x, hx, h1, h2⟩ := mem_addrs.mp hp
    rw [hr] at hx
    rcases mem_append.mp hx with hx | hx
    · have := hpre x hx; omega
    · rcases mem_append.mp hx with hx | hx
      · have := hdis x hx; omega
      · have := ht x hx; omega
  · ext p
    simp only [addrs, hr, addrs_append, Spans.addrs, Finset.mem_union, Finset.mem_Ico, hset p]
    tauto

/-- A range that touches nothing needs an entry of its own. -/
theorem Inv.added_alone (h : Inv r) (hr : r.ranges = pre ++ rest) (hse : start < end_) (hmax : end_ ≤ u64Max)
    (hpre : ∀ x ∈ pre, x.2 < start) (hrest : ∀ y ∈ rest, end_ < y.1) :
    Added r start end_ (if r.ranges.length = N then some (r, .error .full)
      else (insertAt N r.ranges pre.length (start, end_)).map fun l => (⟨l⟩, .ok ())) := by
  split
  · rename_i hN
    obtain ⟨hsp, hsr, -⟩ := append_iff.mp (hr ▸ h.separated)
    refine .inl ⟨_, rfl, pre ++ (start, end_) :: rest, hsp.middle hsr hse hpre hrest, ?_, ?_⟩
    · rw [← hN, hr, length_append, length_append, length_cons, add_assoc]
    · rw [addrs_append, Spans.addrs, addrs, hr, addrs_append, Finset.union_left_comm, Finset.union_comm]
  · rename_i hN
    have hlt : r.ranges.length < N := lt_of_le_of_ne h.fits hN
    have hins := insertAt_at (v := (start, end_)) (hr ▸ hlt)
    rw [hr, hins]
    exact h.added [] hr le_rfl hse le_rfl hpre hrest hmax (.inr hlt) (by simp) (by simp [Spans.addrs])

theorem Inv.insert (h : Inv r) (hse : start < end_) (hmax : end_ ≤ u64Max) :
    Added r start end_ (r.insert start end_) := by
  obtain ⟨pre, rest, hr, hi, hpre, hhead⟩ := partitionPoint_split r.ranges start
  have hsep := h.separated
  have hbound := h.bounded
  rw [hr] at hsep hbound
  obtain ⟨-, hsr, hpr⟩ := append_iff.mp hsep
  have hmeets (x : Nat × Nat) (hx : x ∈ rest) (hlo : x.1 < end_) (hhi : start < x.2) :
      Added r start end_ (some (r, .error .overlap)) := by
    refine .inl ⟨_, rfl, fun hdis => ?_⟩
    have hne := hsr.nonempty x hx
    have hfree : max x.1 start ∈ r.addrs :=
      mem_addrs.mpr ⟨x, by rw [hr]; exact mem_append_right _ hx, by omega, by omega⟩
    exact Finset.disjoint_left.mp hdis hfree (Finset.mem_Ico.mpr ⟨by omega, by omega⟩)
  unfold Regions.insert
  rw [hi]
  cases rest with
  | nil =>
    -- nothing at or after `start`
    have hnone : r.ranges[pre.length]? = none := by rw [hr]; simp
    simp only [hnone, Option.any_none, Bool.false_eq_true, if_false]
    exact h.added_alone hr hse hmax hpre (by simp)
  | cons x t =>
    obtain ⟨s, e⟩ := x
    obtain ⟨hxne, hxt, hst⟩ := cons_iff.mp hsr
    have hge : start ≤ e := hhead (s, e) rfl
    have hget : r.ranges[pre.length]? = some (s, e) := by rw [hr]; simp
    have hpres : ∀ x ∈ pre, x.2 < s := fun x hx => hpr x hx (s, e) mem_cons_self
    by_cases hbelow : e = start
    · -- the range just below touches: the one after it may touch from above
      subst hbelow
      have hget' : r.ranges[pre.length + 1]? = t.head? := by
        rw [hr, getElem?_append_right (Nat.le_succ _)]
        simp [head?_eq_getElem?]
      simp only [hget, Option.any_some, decide_true, if_true, hget']
      cases t with
      | nil =>
        simp only [head?_nil, Option.any_none, Bool.false_eq_true, if_false]
        rw [hr, modify_at]
        exact h.added [(s, e)] hr (by omega) hse le_rfl hpres (by simp) hmax
          (.inl (by simp)) (by simp) (fun p => by simp [Spans.addrs]; omega)
      | cons y t =>
        obtain ⟨s', e'⟩ := y
        obtain ⟨hyne, hyt, hst'⟩ := cons_iff.mp hst
        have hgap : e < s' := hxt (s', e') mem_cons_self
        simp only [head?_cons, Option.any_some, decide_eq_true_eq, Option.map_some, Option.getD_some]
        by_cases hover : s' < end_
        · rw [if_pos hover]
          exact hmeets (s', e') (by simp) hover (by simp only; omega)
        rw [if_neg hover]
        by_cases habove : s' = end_
        · subst habove
          have hbe : e' ≤ u64Max := hbound (s', e') (by simp)
          simp only [decide_true]
          rw [hr, modify_at, show pre.length + 1 = (pre ++ [(s, e')]).length by simp,
            show pre ++ (s, e') :: (s', e') :: t = (pre ++ [(s, e')]) ++ (s', e') :: t by simp,
            removeAt_at, append_assoc]
          exact h.added [(s, e), (s', e')] hr (by omega) hse (by omega) hpres hyt hbe
            (.inl (by simp)) (by simp) (fun p => by simp [Spans.addrs]; omega)
        · simp only [habove, decide_false]
          rw [hr, modify_at]
          refine h.added [(s, e)] hr (by omega) hse le_rfl hpres ?_ hmax
            (.inl (by simp)) (by simp) (fun p => by simp [Spans.addrs]; omega)
          have hend : end_ < s' := by omega
          exact forall_mem_cons.mpr ⟨hend, fun y hy => hend.trans (hyne.trans (hyt y hy))⟩
    · have hlt : start < e := by omega
      simp only [hget, Option.any_some, hbelow, decide_false, Bool.false_eq_true, if_false, decide_eq_true_eq]
      by_cases hover : s < end_
      · rw [if_pos hover]
        exact hmeets (s, e) (by simp) hover hlt
      rw [if_neg hover]
      by_cases habove : s = end_
      · subst habove
        have hbe : e ≤ u64Max := hbound (s, e) (by simp)
        simp only [decide_true]
        rw [hr, modify_at]
        exact h.added [(s, e)] hr le_rfl hse (by omega) hpre hxt hbe
          (.inl (by simp)) (by simp) (fun p => by simp [Spans.addrs]; omega)
      · simp only [habove, decide_false]
        have hend : end_ < s := by omega
        exact h.added_alone hr hse hmax hpre
          (forall_mem_cons.mpr ⟨hend, fun y hy => hend.trans (hxne.trans (hxt y hy))⟩)

/-- **`add` is a disjoint union**, or is refused and changes nothing. -/
theorem Inv.add (h : Inv r) (start len : Nat) : Added r start (start + len) (r.add start len) := by
  unfold Regions.add
  cases he : rangeEnd start len with
  | error e =>
    refine .inl ⟨e, rfl, ?_⟩
    obtain ⟨rfl, rfl⟩ | ⟨rfl, hpos, hmax⟩ := rangeEnd_error he
    · exact rfl
    · exact ⟨by omega, hmax⟩
  | ok end_ =>
    obtain ⟨hpos, rfl, hmax⟩ := rangeEnd_ok he
    exact h.insert (by omega) hmax

/-! ## Reserving -/

/-- A range strictly around the reservation, which would split in two. -/
def Splits (start end_ : Nat) (x : Nat × Nat) : Prop := x.1 < start ∧ end_ < x.2

/-- What is left of the range `x` when `[at_, at_ + len)` is taken from it. -/
def remains (x : Nat × Nat) (at_ len : Nat) : List (Nat × Nat) :=
  (if x.1 < at_ then [(x.1, at_)] else []) ++ (if at_ + len < x.2 then [(at_ + len, x.2)] else [])

section Remains

variable {x : Nat × Nat} {at_ len : Nat}

theorem remains_separated (hlen : 0 < len) : Separated (remains x at_ len) := by
  unfold remains
  split <;> split <;> simp [Separated.cons_iff, Separated.nil] <;> omega

variable (h1 : at_ ≤ x.2) (h2 : x.1 ≤ at_ + len)

include h1 h2

theorem mem_remains : ∀ y ∈ remains x at_ len, x.1 ≤ y.1 ∧ y.2 ≤ x.2 := by
  unfold remains
  split <;> split <;> simp <;> omega

theorem addrs_remains : Spans.addrs (remains x at_ len) = Finset.Ico x.1 x.2 \ Finset.Ico at_ (at_ + len) := by
  unfold remains
  ext p
  rw [addrs_append]
  split <;> split <;>
    simp only [Spans.addrs, Finset.mem_union, Finset.mem_sdiff, Finset.mem_Ico,
      Finset.notMem_empty, or_false, false_or, false_iff] <;> omega

end Remains

/-- What takes the place of a range ends no later. -/
theorem bounded_replace {mid : List (Nat × Nat)} (h : ∀ y ∈ pre ++ x :: t, y.2 ≤ u64Max)
    (hmid : ∀ y ∈ mid, x.1 ≤ y.1 ∧ y.2 ≤ x.2) : ∀ y ∈ pre ++ (mid ++ t), y.2 ≤ u64Max := by
  simp only [forall_mem_append, forall_mem_cons] at h ⊢
  exact ⟨h.1, fun y hy => (hmid y hy).2.trans h.2.1, h.2.2⟩

/-- What is left of the current list once the loop has run. -/
structure Reserved (N start end_ : Nat) (done rest : List (Nat × Nat)) (removed : Nat)
    (l : List (Nat × Nat)) (n : Nat) : Prop where
  separated : Separated l
  fits : l.length ≤ N
  bounded : ∀ x ∈ l, x.2 ≤ u64Max
  addrs : Spans.addrs l = Spans.addrs done ∪ (Spans.addrs rest \ Finset.Ico start end_)
  count : n = removed + (Spans.addrs rest ∩ Finset.Ico start end_).card

/-- Stepping over `(s, e)`: its remains `kept` join `done`, its overlap is counted. -/
theorem Reserved.step {s removed : Nat} {kept : List (Nat × Nat)} (hsep : Separated (done ++ (s, e) :: rest))
    (hkept : Spans.addrs kept = Finset.Ico s e \ Finset.Ico start end_)
    (h : Reserved N start end_ (done ++ kept) rest (removed + (min e end_ - max s start)) l n) :
    Reserved N start end_ done ((s, e) :: rest) removed l n where
  separated := h.separated
  fits := h.fits
  bounded := h.bounded
  addrs := by rw [h.addrs, addrs_append, hkept, Spans.addrs, Finset.union_assoc, Finset.union_sdiff_distrib]
  count := by
    have htail := (append_iff.mp hsep).2.1
    rw [h.count, Spans.addrs, Finset.union_inter_distrib_right, Finset.card_union_of_disjoint,
      Finset.Ico_inter_Ico, Nat.card_Ico, add_assoc]
    rw [Finset.disjoint_left]
    intro p hp hq
    have h1 := Finset.mem_Ico.mp (Finset.mem_inter.mp hp).1
    have h2 := htail.lt_of_mem_addrs (Finset.mem_inter.mp hq).1
    omega

theorem reserveLoop_spec (hpos : 0 < len) (rest : List (Nat × Nat)) :
    ∀ (done : List (Nat × Nat)) (removed : Nat), Separated (done ++ rest) →
      (done ++ rest).length ≤ N → (∀ x ∈ done ++ rest, x.2 ≤ u64Max) →
      (∀ x ∈ rest, removed ≤ x.1) →
      ((∃ x ∈ rest, Splits start (start + len) x) → (done ++ rest).length < N) →
      ∃ l n, reserveLoop N start (start + len) done rest removed = some (l, n) ∧
        Reserved N start (start + len) done rest removed l n := by
  induction rest with
  | nil =>
    intro done removed hsep hlen hbound _ _
    rw [append_nil] at hsep hlen hbound
    exact ⟨done, removed, rfl, hsep, hlen, hbound, by simp [Spans.addrs], by simp [Spans.addrs]⟩
  | cons x rest ih =>
    intro done removed hsep hlen hbound hrem hcap
    obtain ⟨s, e⟩ := x
    obtain ⟨hse, hgap, -⟩ := cons_iff.mp (append_iff.mp hsep).2.1
    have hemax : e ≤ u64Max := hbound (s, e) (by simp)
    have hrs : removed ≤ s := hrem (s, e) mem_cons_self
    -- one step: `kept` replaces `(s, e)`
    have key : ∀ kept : List (Nat × Nat), Separated kept → (∀ x ∈ kept, s ≤ x.1 ∧ x.2 ≤ e) →
        Spans.addrs kept = Finset.Ico s e \ Finset.Ico start (start + len) →
        (kept.length ≤ 1 ∨ kept.length ≤ 2 ∧ Splits start (start + len) (s, e)) →
        ∃ l n, reserveLoop N start (start + len) (done ++ kept) rest
            (removed + (min e (start + len) - max s start)) = some (l, n) ∧
          Reserved N start (start + len) done ((s, e) :: rest) removed l n := by
      intro kept hk hin hset hcount
      have hsep' : Separated ((done ++ kept) ++ rest) := by
        rw [append_assoc]; exact hsep.replace hk hin
      have hlen' : ((done ++ kept) ++ rest).length ≤ N ∧
          ((∃ x ∈ rest, Splits start (start + len) x) → ((done ++ kept) ++ rest).length < N) := by
        simp only [length_append, length_cons] at hlen hcap ⊢
        rcases hcount with h1 | ⟨h2, hsplit⟩
        · refine ⟨by omega, ?_⟩
          rintro ⟨x, hx, hxs⟩
          have := hcap ⟨x, mem_cons_of_mem _ hx, hxs⟩
          omega
        -- the reservation lies inside this range, so it meets no later one
        have := hcap ⟨(s, e), mem_cons_self .., hsplit⟩
        refine ⟨by omega, ?_⟩
        rintro ⟨x, hx, hxs⟩
        refine absurd hxs.1 ?_
        have h3 := hgap x hx
        have h4 : start + len < e := hsplit.2
        omega
      obtain ⟨l, n, heq, hres⟩ := ih (done ++ kept) (removed + (min e (start + len) - max s start)) hsep'
        hlen'.1 (by rw [append_assoc]; exact bounded_replace hbound hin)
        (by intro x hx; have := hgap x hx; omega) hlen'.2
      exact ⟨l, n, heq, hres.step hsep hset⟩
    unfold reserveLoop
    by_cases hout : e ≤ start ∨ start + len ≤ s
    · have hall := key [(s, e)] (cons_iff.mpr ⟨hse, by simp, nil⟩) (by simp)
        (by ext p; simp [Spans.addrs]; omega) (.inl (by simp))
      rw [if_pos hout]
      rwa [show min e (start + len) - max s start = 0 by omega, add_zero] at hall
    have hleft := key (remains (s, e) start len) (remains_separated hpos)
      (mem_remains (by simp only; omega) (by simp only; omega))
      (addrs_remains (by simp only; omega) (by simp only; omega))
    rw [if_neg hout, checkedAdd_of_le (by omega), Option.bind_some]
    by_cases h1 : s < start <;> by_cases h2 : start + len < e <;>
      simp only [remains, h1, h2, if_true, if_false, decide_true, decide_false, append_nil, nil_append] at hleft ⊢
    · rw [if_pos (hcap ⟨(s, e), mem_cons_self .., h1, h2⟩)]
      exact hleft (.inr ⟨le_rfl, h1, h2⟩)
    all_goals exact hleft (.inl (by simp))

/-- Why `[start, end)` is not reserved: it is empty or runs past the top of the address space, or it
splits a range and every entry is in use. -/
def ReserveRefused (r : Regions N) (start end_ : Nat) : FlatError → Prop
  | .empty => start = end_
  | .overflow => start < end_ ∧ u64Max < end_
  | .full => r.ranges.length = N ∧ ∃ x ∈ r.ranges, Splits start end_ x
  | _ => False

/-- **`reserve` is a set difference** and returns the size of what it removed, or it is refused for a
reason and changes nothing. -/
theorem Inv.reserve (h : Inv r) (start len : Nat) :
    (∃ e, r.reserve start len = some (r, .error e) ∧ ReserveRefused r start (start + len) e) ∨
      ∃ r', r.reserve start len =
          some (r', .ok (r.addrs ∩ Finset.Ico start (start + len)).card) ∧ Inv r' ∧
        (∀ e, ¬ReserveRefused r start (start + len) e) ∧ r'.addrs = r.addrs \ Finset.Ico start (start + len) := by
  unfold Regions.reserve
  cases he : rangeEnd start len with
  | error e =>
    refine .inl ⟨e, rfl, ?_⟩
    obtain ⟨rfl, rfl⟩ | ⟨rfl, hpos, hmax⟩ := rangeEnd_error he
    · exact rfl
    · exact ⟨by omega, hmax⟩
  | ok end_ =>
    obtain ⟨hpos, rfl, hmax⟩ := rangeEnd_ok he
    have hsplits : (r.ranges.any fun x => x.1 < start ∧ start + len < x.2) = true ↔
        ∃ x ∈ r.ranges, Splits start (start + len) x := by
      simp [Splits]
    simp only
    split
    · next hfull => exact .inl ⟨_, rfl, hfull.2, hsplits.mp hfull.1⟩
    rename_i hfull
    rw [hsplits] at hfull
    obtain ⟨l, n, heq, hres⟩ := reserveLoop_spec (N := N) hpos r.ranges [] 0
      h.separated h.fits h.bounded (by simp) fun hxs => lt_of_le_of_ne h.fits fun hN => hfull ⟨hxs, hN⟩
    refine .inr ⟨⟨l⟩, ?_, { hres with }, fun e he => ?_, ?_⟩
    · rw [heq, hres.count, zero_add]; rfl
    · cases e with
      | empty => exact absurd he (Nat.lt_add_of_pos_right hpos).ne
      | overflow => exact hmax.not_gt he.2
      | full => exact hfull he.symm
      | _ => exact he
    · have := hres.addrs
      rwa [Spans.addrs, Finset.empty_union] at this

/-! ## Allocating -/

/-- The range `x` can take the request at `at_`, its lowest aligned address, and the list of
`n` entries it is taken from then still has at most `N`. -/
structure Holds (N n len align : Nat) (x : Nat × Nat) (at_ : Nat) : Prop where
  start_le : x.1 ≤ at_
  aligned : align ∣ at_
  lowest : ∀ a, x.1 ≤ a → align ∣ a → at_ ≤ a
  fits : at_ + len ≤ x.2
  entries : n - 1 + (remains x at_ len).length ≤ N

/-- How the loop of `alloc` ends, on a list of `n` entries. -/
def Searched (N n len align : Nat) (done rest : List (Nat × Nat))
    (out : Option (List (Nat × Nat) × Except FlatError Nat)) : Prop :=
  (∃ e, out = some (done ++ rest, .error e) ∧ ∀ x ∈ rest, ∀ a, ¬ Holds N n len align x a) ∨
    ∃ pre x post at_, rest = pre ++ x :: post ∧ Holds N n len align x at_ ∧
      (∀ y ∈ pre, ∀ a, ¬ Holds N n len align y a) ∧
      out = some (done ++ (pre ++ (remains x at_ len ++ post)), .ok at_)

/-- Passing over a range that cannot hold the request. -/
theorem Searched.skip {out : Option (List (Nat × Nat) × Except FlatError Nat)}
    (hx : ∀ a, ¬ Holds N n len align x a)
    (h : Searched N n len align (done ++ [x]) rest out) :
    Searched N n len align done (x :: rest) out := by
  rcases h with ⟨e, heq, hno⟩ | ⟨pre, y, post, at_, hr, hy, hpre, heq⟩
  · exact .inl ⟨e, by rw [heq, append_assoc]; rfl, forall_mem_cons.mpr ⟨hx, hno⟩⟩
  · refine .inr ⟨x :: pre, y, post, at_, by rw [hr]; rfl, hy, forall_mem_cons.mpr ⟨hx, hpre⟩, ?_⟩
    rw [heq, append_assoc]
    rfl

theorem allocLoop_spec (hlen : 0 < len) (halign : 0 < align) (rest : List (Nat × Nat)) :
    ∀ (done : List (Nat × Nat)) (full : Bool), (done ++ rest).length = n → n ≤ N →
      (∀ x ∈ rest, x.1 < x.2 ∧ x.2 ≤ u64Max) →
      Searched N n len align done rest (allocLoop N len align done rest full) := by
  induction rest with
  | nil =>
    intro done full _ _ _
    exact .inl ⟨_, by rw [append_nil]; rfl, by simp⟩
  | cons x rest ih =>
    intro done full hn hN hx
    obtain ⟨s, e⟩ := x
    obtain ⟨hse, hmax⟩ := hx (s, e) mem_cons_self
    have hnext : ∀ full', Searched N n len align (done ++ [(s, e)]) rest
        (allocLoop N len align (done ++ [(s, e)]) rest full') := fun full' =>
      ih _ full' (by simpa using hn) hN (forall_mem_cons.mp hx).2
    have hmult := checkedNextMultipleOf_spec halign (show s ≤ u64Max by omega)
    unfold allocLoop
    cases hat : checkedNextMultipleOf u64Max s align with
    | none =>
      rw [hat] at hmult
      refine (hnext full).skip fun a ha => ?_
      have h1 := hmult a ha.start_le ha.aligned
      have h2 := ha.fits
      omega
    | some at_ =>
      rw [hat] at hmult
      obtain ⟨hsa, hdvd, -, hlow⟩ := hmult
      -- any placement is at least `at_`, and the lowest one is `at_`
      have huniq : ∀ a, Holds N n len align (s, e) a → a = at_ := fun a ha =>
        (ha.lowest at_ hsa hdvd).antisymm (hlow a ha.start_le ha.aligned)
      simp only
      cases hend : checkedAdd u64Max at_ len with
      | none =>
        refine (hnext full).skip fun a ha => ?_
        obtain rfl := huniq a ha
        rw [checkedAdd_of_le (ha.fits.trans hmax)] at hend
        cases hend
      | some end_ =>
        obtain ⟨-, rfl⟩ := checkedAdd_eq_some.mp hend
        simp only
        by_cases hfit : e < at_ + len
        · rw [if_pos hfit]
          refine (hnext full).skip fun a ha => ?_
          obtain rfl := huniq a ha
          exact absurd ha.fits (not_le.mpr hfit)
        rw [if_neg hfit]
        have hpos : 0 < n := by rw [← hn]; simp
        by_cases hfull : s < at_ ∧ at_ + len < e ∧ (done ++ (s, e) :: rest).length = N
        · rw [if_pos hfull]
          refine (hnext true).skip fun a ha => ?_
          obtain rfl := huniq a ha
          have := ha.entries
          simp only [remains, if_pos hfull.1, if_pos hfull.2.1, length_append, length_singleton] at this
          omega
        rw [if_neg hfull]
        have hholds : Holds N n len align (s, e) at_ := by
          refine ⟨hsa, hdvd, hlow, not_lt.mp hfit, ?_⟩
          simp only [remains, length_append]
          split <;> split <;> simp only [length_singleton, length_nil] <;> omega
        refine .inr ⟨[], (s, e), rest, at_, rfl, hholds, by simp, ?_⟩
        by_cases h1 : s < at_
        · by_cases h2 : at_ + len < e
          · have hlt : n < N := by omega
            have hins : insertAt N (done ++ (s, at_) :: rest) (done.length + 1) (at_ + len, e) =
                some (done ++ (s, at_) :: (at_ + len, e) :: rest) := by
              have := insertAt_at (N := N) (p := done ++ [(s, at_)]) (t := rest)
                (v := (at_ + len, e)) (by simp at hn ⊢; omega)
              simpa using this
            simp [h1, h2, remains, hins]
          · simp [h1, h2, remains]
        · by_cases h2 : at_ + len < e <;> simp [h1, h2, remains]

/-- The lowest range that can take a request, and the address it takes it at. -/
structure FirstFit (r : Regions N) (len align : Nat) (x : Nat × Nat) (at_ : Nat) : Prop where
  mem : x ∈ r.ranges
  holds : Holds N r.ranges.length len align x at_
  first : ∀ y ∈ r.ranges, y.1 < x.1 → ∀ a, ¬ Holds N r.ranges.length len align y a

/-- **`alloc` removes the first fit**, or nothing can hold the request and nothing changes. -/
theorem Inv.alloc (h : Inv r) (len align : Nat) : (∃ e, r.alloc len align = some (r, .error e) ∧
      (len = 0 ∨ ¬ isPowerOfTwo align ∨
        ∀ x ∈ r.ranges, ∀ a, ¬ Holds N r.ranges.length len align x a)) ∨
    ∃ r' x at_, r.alloc len align = some (r', .ok at_) ∧ Inv r' ∧ FirstFit r len align x at_ ∧
      r'.addrs = r.addrs \ Finset.Ico at_ (at_ + len) := by
  unfold Regions.alloc
  by_cases h0 : len = 0
  · exact .inl ⟨_, if_pos h0, .inl h0⟩
  rw [if_neg h0]
  by_cases hp : isPowerOfTwo align
  swap
  · exact .inl ⟨_, if_pos hp, .inr (.inl hp)⟩
  rw [if_neg (not_not.mpr hp)]
  have hlen : 0 < len := pos_of_ne_zero h0
  have halign : 0 < align := by
    obtain ⟨k, rfl⟩ := isPowerOfTwo_iff.mp hp
    exact Nat.two_pow_pos k
  rcases allocLoop_spec hlen halign r.ranges [] false rfl h.fits
      (fun x hx => ⟨h.separated.nonempty x hx, h.bounded x hx⟩) with
    ⟨e, heq, hno⟩ | ⟨pre, x, post, at_, hr, hx, hpre, heq⟩
  · exact .inl ⟨e, by rw [heq]; rfl, .inr (.inr hno)⟩
  have hsep := h.separated
  rw [hr] at hsep
  have hlo : at_ ≤ x.2 := (Nat.le_add_right ..).trans hx.fits
  have hhi : x.1 ≤ at_ + len := hx.start_le.trans (Nat.le_add_right ..)
  have hin := mem_remains hlo hhi
  refine .inr ⟨_, x, at_, by rw [heq]; rfl, ⟨?_, ?_, ?_⟩, ⟨by rw [hr]; simp, hx, ?_⟩, ?_⟩
  · exact hsep.replace (remains_separated hlen) hin
  · have := hx.entries
    rw [hr] at this
    simp only [nil_append, length_append, length_cons] at this ⊢
    omega
  · exact @bounded_replace pre _ _ _ (hr ▸ h.bounded) hin
  · -- a range that starts lower comes earlier in the list
    intro y hy hlt
    rw [hr] at hy
    rcases mem_append.mp hy with hy | hy
    · exact hpre y hy
    obtain ⟨hxne, hgap, -⟩ := cons_iff.mp (append_iff.mp hsep).2.1
    rcases mem_cons.mp hy with rfl | hy
    · exact absurd hlt (lt_irrefl _)
    · have := hgap y hy
      omega
  · -- only `x` meets the placement
    obtain ⟨-, hxp, hpx⟩ := append_iff.mp hsep
    have hfits := hx.fits
    have hstart := hx.start_le
    have hbefore : Disjoint (Spans.addrs pre) (Finset.Ico at_ (at_ + len)) := by
      refine Finset.disjoint_left.mpr fun p hp hI => ?_
      obtain ⟨y, hy, -, h2⟩ := mem_addrs.mp hp
      have := hpx y hy x mem_cons_self
      have := Finset.mem_Ico.mp hI
      omega
    have hafter : Disjoint (Spans.addrs post) (Finset.Ico at_ (at_ + len)) := by
      refine Finset.disjoint_left.mpr fun p hp hI => ?_
      have := hxp.lt_of_mem_addrs hp
      have := Finset.mem_Ico.mp hI
      omega
    simp only [addrs, hr, addrs_append, Spans.addrs, nil_append, addrs_remains hlo hhi, Finset.union_sdiff_distrib,
      Finset.sdiff_eq_self_of_disjoint hbefore, Finset.sdiff_eq_self_of_disjoint hafter]

/-! ## Whole histories -/

inductive Op where
  | add (start len : Nat)
  | free (start len : Nat)
  | reserve (start len : Nat)
  | alloc (len align : Nat)

/-- The list after one call, whatever it returned. -/
def step (r : Regions N) : Op → Option (Regions N)
  | .add start len => (r.add start len).map (·.1)
  | .free start len => (r.free start len).map (·.1)
  | .reserve start len => (r.reserve start len).map (·.1)
  | .alloc len align => (r.alloc len align).map (·.1)

def run : List Op → Regions N → Option (Regions N)
  | [], r => some r
  | op :: ops, r => (r.step op).bind (run ops)

theorem Added.inv {out : Option (Regions N × Except FlatError Unit)}
    (h : Inv r) (ha : Added r start end_ out) : ∃ r', out.map (·.1) = some r' ∧ Inv r' := by
  rcases ha with ⟨e, rfl, -⟩ | ⟨r', rfl, h', -⟩
  · exact ⟨r, rfl, h⟩
  · exact ⟨r', rfl, h'⟩

theorem Inv.step (h : Inv r) (op : Op) : ∃ r', r.step op = some r' ∧ Inv r' := by
  cases op with
  | add start len => exact (h.add start len).inv h
  | free start len => exact (h.add start len).inv h
  | reserve start len =>
    rcases h.reserve start len with ⟨e, heq, -⟩ | ⟨r', heq, h', -⟩
    · exact ⟨r, by rw [Regions.step, heq]; rfl, h⟩
    · exact ⟨r', by rw [Regions.step, heq]; rfl, h'⟩
  | alloc len align =>
    rcases h.alloc len align with ⟨e, heq, -⟩ | ⟨r', x, at_, heq, h', -⟩
    · exact ⟨r, by rw [Regions.step, heq]; rfl, h⟩
    · exact ⟨r', by rw [Regions.step, heq]; rfl, h'⟩

theorem Inv.run (ops : List Op) :
    ∀ {r : Regions N}, Inv r → ∃ r', Regions.run ops r = some r' ∧ Inv r' := by
  induction ops with
  | nil => exact fun {r} h => ⟨r, rfl, h⟩
  | cons op ops ih =>
    intro r h
    obtain ⟨r1, heq1, h1⟩ := h.step op
    obtain ⟨r2, heq2, h2⟩ := ih h1
    exact ⟨r2, by rw [Regions.run, heq1, Option.bind_some, heq2], h2⟩

/--
**The list is the canonical form of a set of free addresses.**

After every history, whatever the arguments, the list passes `check` and fits its
array, and it is the only reachable list over its addresses. From there `add` and
`free` join a range disjoint from the set, `reserve` removes its intersection with a
range and returns its size, `alloc` removes the first fit. Each call does so unless
there is a reason against it, and then returns that reason and changes nothing.
-/
theorem history_canonical (N : Nat) (ops : List Op) :
    ∃ r : Regions N, run ops new = some r ∧ r.check = true ∧ r.ranges.length ≤ N ∧
      (∀ ops' r', run ops' new = some r' → r'.addrs = r.addrs → r' = r) ∧
      (∀ start len, r.free start len = r.add start len ∧
        ((∃ e, r.add start len = some (r, .error e) ∧ AddRefused r start (start + len) e) ∨
          ∃ r', r.add start len = some (r', .ok ()) ∧ r'.check = true ∧
            (∀ e, ¬AddRefused r start (start + len) e) ∧ Disjoint r.addrs (Finset.Ico start (start + len)) ∧
            r'.addrs = r.addrs ∪ Finset.Ico start (start + len))) ∧
      (∀ start len, (∃ e, r.reserve start len = some (r, .error e) ∧ ReserveRefused r start (start + len) e) ∨
        ∃ r', r.reserve start len =
            some (r', .ok (r.addrs ∩ Finset.Ico start (start + len)).card) ∧ r'.check = true ∧
          (∀ e, ¬ReserveRefused r start (start + len) e) ∧
          r'.addrs = r.addrs \ Finset.Ico start (start + len)) ∧
      (∀ len align, (∃ e, r.alloc len align = some (r, .error e) ∧
          (len = 0 ∨ ¬ isPowerOfTwo align ∨
            ∀ x ∈ r.ranges, ∀ a, ¬ Holds N r.ranges.length len align x a)) ∨
        ∃ r' x at_, r.alloc len align = some (r', .ok at_) ∧ r'.check = true ∧
          FirstFit r len align x at_ ∧ r'.addrs = r.addrs \ Finset.Ico at_ (at_ + len)) := by
  obtain ⟨r, heq, h⟩ := inv_new.run (N := N) ops
  refine ⟨r, heq, check_iff.mpr h.separated, h.fits, ?_, fun start len => ⟨rfl, ?_⟩, ?_, ?_⟩
  · intro ops' r' heq' haddrs
    obtain ⟨r'', heq'', h''⟩ := inv_new.run (N := N) ops'
    rw [heq'] at heq''
    cases heq''
    exact h''.ext h haddrs
  · rcases h.add start len with he | ⟨r', heq', h', hd, ha⟩
    · exact .inl he
    · exact .inr ⟨r', heq', check_iff.mpr h'.separated, hd, not_not.mp (hd .overlap), ha⟩
  · intro start len
    rcases h.reserve start len with he | ⟨r', heq', h', hd, ha⟩
    · exact .inl he
    · exact .inr ⟨r', heq', check_iff.mpr h'.separated, hd, ha⟩
  · intro len align
    rcases h.alloc len align with he | ⟨r', x, at_, heq', h', hf, ha⟩
    · exact .inl he
    · exact .inr ⟨r', x, at_, heq', check_iff.mpr h'.separated, hf, ha⟩

end Kintane.Flat.Regions
