import Kintane.Net.Tcb

/-!
# Runs held ahead of the stream

Runs stand for intervals of positions counted from a base. `hold` and `coalesce` keep any
property of intervals that passes from two intervals with no gap between them to the interval
they cover together, as long as all of them lie in one half of sequence space.
-/

open List

namespace Kintane

open Kintane.Seq Tcb

/-- The run of the positions `a` to `b`. -/
def Run.Covers (base : Seq) (run : Run) (a b : Nat) : Prop :=
  run.seq = pos base a ∧ run.len = BitVec.ofNat 32 (b - a)

variable {run : Run}

theorem Run.Covers.stop {base : Seq} {a b : Nat} (h : run.Covers base a b)
    (hab : a ≤ b) : run.seq + run.len = pos base b := by
  rw [h.1, h.2, pos_add_sub base hab]

/-- A property of intervals at or after `lo`. -/
structure Joining (lo : Nat) (P : Nat → Nat → Prop) : Prop where
  lt : ∀ {a b}, P a b → a < b
  low : ∀ {a b}, P a b → lo ≤ a
  high : ∀ {a b}, P a b → b < lo + 2 ^ 31
  join : ∀ {a b c d}, P a b → P c d → a ≤ d → c ≤ b → P (min a c) (max b d)

/-- Every slot is empty or a run of an interval with the property. -/
def AllRuns (base : Seq) (P : Nat → Nat → Prop) (slots : List (Option Run)) : Prop :=
  ∀ run, some run ∈ slots → ∃ a b, P a b ∧ run.Covers base a b

section

variable {base : Seq} {lo i a b r : Nat} {P : Nat → Nat → Prop} {slots : List (Option Run)}

theorem AllRuns.mono {slots' : List (Option Run)} (h : AllRuns base P slots)
    (hs : ∀ run, some run ∈ slots' → some run ∈ slots) : AllRuns base P slots' :=
  fun run hr => h run (hs run hr)

theorem AllRuns.set (h : AllRuns base P slots) (hp : P a b) (hc : run.Covers base a b) (i : Nat) :
    AllRuns base P (slots.set i (some run)) := by
  intro r hr
  rcases mem_or_eq_of_mem_set hr with hr | hr
  · exact h r hr
  · cases hr
    exact ⟨a, b, hp, hc⟩

theorem mem_set_none (h : some run ∈ slots.set i none) : some run ∈ slots := by
  rcases mem_or_eq_of_mem_set h with h | h
  · exact h
  · cases h

/-- What is left in the slots was there before. -/
theorem mem_mergeRuns (slots : List (Option Run)) (start stop : Seq)
    (h : some run ∈ (mergeRuns slots start stop).1) : some run ∈ slots := by
  induction slots generalizing start stop with
  | nil => exact h
  | cons slot slots ih =>
    cases slot with
    | none =>
      simp only [mergeRuns, mem_cons, reduceCtorEq, false_or] at h
      exact mem_cons_of_mem _ (ih _ _ h)
    | some r =>
      simp only [mergeRuns] at h
      split at h
      · simp only [mem_cons, reduceCtorEq, false_or] at h
        exact mem_cons_of_mem _ (ih _ _ h)
      · rcases mem_cons.mp h with h | h
        · exact h ▸ mem_cons_self
        · exact mem_cons_of_mem _ (ih _ _ h)

/-- The interval is stretched over runs that touch it. -/
theorem mergeRuns_spec (hP : Joining lo P) (hs : AllRuns base P slots) (h : P a b) : ∃ a' b', P a' b' ∧
      (mergeRuns slots (pos base a) (pos base b)).2 = (pos base a', pos base b') := by
  induction slots generalizing a b with
  | nil => exact ⟨a, b, h, rfl⟩
  | cons slot slots ih =>
    have hs' : AllRuns base P slots := hs.mono fun _ => mem_cons_of_mem _
    cases slot with
    | none => exact ih hs' h
    | some run =>
      obtain ⟨c, d, hcd, hc⟩ := hs run mem_cons_self
      have h1 := hP.low h
      have h2 := hP.high h
      have h3 := hP.low hcd
      have h4 := hP.high hcd
      have h5 := hP.lt h
      have h6 := hP.lt hcd
      simp only [mergeRuns]
      rw [hc.stop h6.le, hc.1, le_pos base (by omega) (by omega), le_pos base (by omega) (by omega)]
      split
      · rename_i ht
        simp only [Bool.and_eq_true, decide_eq_true_eq] at ht
        rw [lt_pos base (by omega) (by omega), lt_pos base (by omega) (by omega)]
        have hj := hP.join hcd h (by omega) (by omega)
        have e1 : (if decide ((c : Int) < a) then pos base c else pos base a) =
            pos base (min c a : Nat) := by
          rcases lt_or_ge c a with hca | hca
          · rw [if_pos (by simpa using hca), min_eq_left hca.le]
          · rw [if_neg (by simpa using hca), min_eq_right hca]
        have e2 : (if decide ((b : Int) < d) then pos base d else pos base b) =
            pos base (max d b : Nat) := by
          rcases lt_or_ge b d with hbd | hbd
          · rw [if_pos (by simpa using hbd), max_eq_left hbd.le]
          · rw [if_neg (by simpa using hbd), max_eq_right hbd]
        rw [e1, e2]
        exact ih hs' hj
      · exact ih hs' h

/-! ## Holding -/

variable {t : Tcb}

/-- A run that was not kept leaves only what was there. -/
theorem Tcb.mem_of_hold_false {seq len : Seq} (h : (t.hold seq len).2 = false)
    (hr : some run ∈ (t.hold seq len).1.ooo) : some run ∈ t.ooo := by
  revert h hr
  unfold hold
  dsimp only
  split
  · intro h
    cases h
  split
  · split
    · intro h
      cases h
    · exact fun _ => mem_mergeRuns _ _ _
  · exact fun _ => mem_mergeRuns _ _ _

theorem Tcb.hold_spec (hP : Joining lo P) (hs : AllRuns base P t.ooo) (h : P a b) :
    AllRuns base P (t.hold (pos base a) (BitVec.ofNat 32 (b - a))).1.ooo := by
  obtain ⟨a', b', hp, he⟩ := mergeRuns_spec hP hs h
  have hrest : AllRuns base P (mergeRuns t.ooo (pos base a) (pos base b)).1 :=
    hs.mono fun _ => mem_mergeRuns _ _ _
  have hc : Run.Covers base ⟨pos base a', pos base b' - pos base a'⟩ a' b' :=
    ⟨rfl, pos_sub_pos base (hP.lt hp).le⟩
  unfold hold
  rw [pos_add_sub base (hP.lt h).le]
  generalize mergeRuns t.ooo (pos base a) (pos base b) = m at he hrest
  obtain ⟨slots, start, stop⟩ := m
  cases he
  dsimp only
  split
  · exact hrest.set hp hc _
  split
  · split
    · exact hrest.set hp hc _
    · exact hrest
  · exact hrest

/-! ## Coalescing -/

def heldRuns (slots : List (Option Run)) : Nat := (slots.filter Option.isSome).length

theorem heldRuns_set_none
    (h : slots[i]? = some (some run)) : heldRuns (slots.set i none) + 1 = heldRuns slots := by
  induction slots generalizing i with
  | nil => cases h
  | cons slot slots ih =>
    cases i with
    | zero =>
      cases h
      rfl
    | succ i =>
      cases slot <;> simp only [heldRuns, set_cons_succ, filter_cons, Option.isSome_none,
        Option.isSome_some, if_true, length_cons] at * <;> simp_all

section

variable (hP : Joining lo P) (hlo : lo ≤ r) (hr : r < lo + 2 ^ 31)

include hP hlo hr

theorem joined_iff (h : P a b) (hc : run.Covers base a b) :
    joined (pos base r) (some run) = true ↔ a ≤ r ∧ r < b := by
  have h1 := hP.low h
  have h2 := hP.high h
  have h3 := hP.lt h
  simp only [joined, Option.any_some]
  rw [hc.stop h3.le, hc.1, le_pos base (by omega) (by omega), lt_pos base (by omega) (by omega)]
  simp

theorem behind_iff (h : P a b) (hc : run.Covers base a b) : behind (pos base r) (some run) = true ↔ b ≤ r := by
  have h1 := hP.low h
  have h2 := hP.high h
  have h3 := hP.lt h
  simp only [behind, Option.any_some]
  rw [hc.stop h3.le, le_pos base (by omega) (by omega)]
  simp

end

theorem getElem?_of_findIdx? {p : Option Run → Bool} (hnone : p none = false) (h : slots.findIdx? p = some i) :
    ∃ run, slots[i]? = some (some run) ∧ p (some run) = true := by
  obtain ⟨hi, hp, -⟩ := findIdx?_eq_some_iff_getElem.mp h
  cases hs : slots[i] with
  | none => rw [hs, hnone] at hp; cases hp
  | some run => exact ⟨run, by rw [getElem?_eq_getElem hi, hs], hs ▸ hp⟩

/-- What turns of the loop of `coalesce` do: the stream goes on from `r` to `r'`, over runs. -/
structure Tcb.Coalesced (base : Seq) (t : Tcb) (r : Nat) (t' : Tcb) (r' : Nat) : Prop where
  le : r ≤ r'
  next : t'.rcvNxt = pos base r'
  rx : t'.rx = { t.rx with len := t.rx.len + (r' - r) }
  rest : t' = { t with ooo := t'.ooo, rx := t'.rx, rcvNxt := t'.rcvNxt }
  runs : ∀ run, some run ∈ t'.ooo → some run ∈ t.ooo

theorem Tcb.Coalesced.refl (h : t.rcvNxt = pos base r) : t.Coalesced base r t r :=
  ⟨le_rfl, h, by rw [Nat.sub_self, Nat.add_zero], rfl, fun _ => id⟩

theorem Tcb.Coalesced.trans {t1 t2 t3 : Tcb} {r1 r2 r3 : Nat} (h : t1.Coalesced base r1 t2 r2)
    (h' : t2.Coalesced base r2 t3 r3) : t1.Coalesced base r1 t3 r3 where
  le := h.le.trans h'.le
  next := h'.next
  rx := by
    have hlen : t1.rx.len + (r2 - r1) + (r3 - r2) = t1.rx.len + (r3 - r1) := by
      have := h.le
      have := h'.le
      omega
    rw [h'.rx, h.rx]
    simp only [hlen]
  rest := by
    rw [h'.rest, h.rest]
  runs := fun run hr => h.runs run (h'.runs run hr)

section

variable (hP : Joining lo P) (hlo : lo ≤ r) (hr : r < lo + 2 ^ 31) (hs : AllRuns base P t.ooo)
  (hn : t.rcvNxt = pos base r)

include hP hlo hr hs hn

/-- One turn of the loop takes a run the stream has reached, or drops one it has passed. -/
theorem Tcb.coalesceOnce_some {t' : Tcb} (h : t.coalesceOnce = some t') :
    ∃ r', t.Coalesced base r t' r' ∧ heldRuns t'.ooo + 1 = heldRuns t.ooo ∧
      (r' = r ∨ ∃ a, P a r' ∧ a ≤ r ∧ r < r') := by
  unfold coalesceOnce at h
  split at h
  · rename_i i hi
    obtain ⟨run, hrun, hj⟩ := getElem?_of_findIdx? rfl hi
    simp only [hrun, Option.some.injEq] at h
    obtain ⟨a, b, hp, hc⟩ := hs run (mem_of_getElem? hrun)
    rw [hn, joined_iff hP hlo hr hp hc] at hj
    have hb := hP.high hp
    have hfresh : run.len - (t.rcvNxt - run.seq) = BitVec.ofNat 32 (b - r) := by
      rw [hn, hc.1, hc.2, ← pos_sub_pos base (hj.1.trans hj.2.le), ← pos_sub_pos base hj.2.le]
      bv_omega
    have hlen : (BitVec.ofNat 32 (b - r)).toNat = b - r := by
      rw [BitVec.toNat_ofNat, Nat.mod_eq_of_lt (by omega)]
    rw [hfresh, hlen] at h
    refine ⟨b, ?_, ?_, .inr ⟨a, hp, hj.1, hj.2⟩⟩
    · subst h
      refine ⟨hj.2.le, ?_, rfl, rfl, fun _ => mem_set_none⟩
      rw [hn, pos_add_sub base hj.2.le]
    · subst h
      exact heldRuns_set_none hrun
  · split at h
    · rename_i i hi
      obtain ⟨run, hrun, -⟩ := getElem?_of_findIdx? rfl hi
      cases h
      exact ⟨r, ⟨le_rfl, hn, by rw [Nat.sub_self, Nat.add_zero], rfl, fun _ => mem_set_none⟩,
        heldRuns_set_none hrun, .inl rfl⟩
    · cases h

/-- The loop ends when the stream has reached no run. -/
theorem Tcb.coalesceOnce_none (h : t.coalesceOnce = none) : AllRuns base (fun a b => P a b ∧ r < a) t.ooo := by
  intro run hrun
  obtain ⟨a, b, hp, hc⟩ := hs run hrun
  refine ⟨a, b, ⟨hp, ?_⟩, hc⟩
  unfold coalesceOnce at h
  split at h
  · rename_i i hi
    obtain ⟨run', hrun', -⟩ := getElem?_of_findIdx? rfl hi
    rw [hrun'] at h
    cases h
  rename_i hj
  split at h
  · cases h
  rename_i hb
  have hj' := findIdx?_eq_none_iff.mp hj _ hrun
  have hb' := findIdx?_eq_none_iff.mp hb _ hrun
  rw [hn, ← Bool.not_eq_true, joined_iff hP hlo hr hp hc] at hj'
  rw [hn, ← Bool.not_eq_true, behind_iff hP hlo hr hp hc] at hb'
  omega

end

/-- What the loop keeps: any property of how far the stream has come, that passes over a run. -/
theorem Tcb.coalesceLoop_spec (hP : Joining lo P) {Q : Nat → Prop}
    (hQ : ∀ {r a b}, Q r → P a b → a ≤ r → r < b → Q b) (hlo : lo ≤ r)
    (hr : r < lo + 2 ^ 31) (hq : Q r) (hs : AllRuns base P t.ooo) (hn : t.rcvNxt = pos base r)
    {n : Nat} (hfuel : heldRuns t.ooo < n) :
    ∃ r', t.Coalesced base r (coalesceLoop n t) r' ∧ Q r' ∧
      AllRuns base (fun a b => P a b ∧ r' < a) (coalesceLoop n t).ooo := by
  induction n generalizing t r with
  | zero => exact absurd hfuel (Nat.not_lt_zero _)
  | succ n ih =>
    cases hc : t.coalesceOnce with
    | none =>
      simp only [coalesceLoop, hc]
      exact ⟨r, .refl hn, hq, coalesceOnce_none hP hlo hr hs hn hc⟩
    | some t' =>
      simp only [coalesceLoop, hc]
      obtain ⟨r1, h1, hheld, hr1⟩ := coalesceOnce_some hP hlo hr hs hn hc
      have hq1 : Q r1 ∧ r1 < lo + 2 ^ 31 := by
        rcases hr1 with rfl | ⟨a, hp, ha, hlt⟩
        · exact ⟨hq, hr⟩
        · exact ⟨hQ hq hp ha hlt, hP.high hp⟩
      obtain ⟨r2, h2, hq2, hs2⟩ :=
        ih (hlo.trans h1.le) hq1.2 hq1.1 (hs.mono h1.runs) h1.next (by omega)
      exact ⟨r2, h1.trans h2, hq2, hs2⟩

/-- The stream goes on by `n`, and over the runs it then reaches. -/
theorem Tcb.coalesce_spec (hP : Joining lo P) {Q : Nat → Prop}
    (hQ : ∀ {r a b}, Q r → P a b → a ≤ r → r < b → Q b) {n : Nat} (hlo : lo ≤ r + n) (hr : r + n < lo + 2 ^ 31)
    (hq : Q (r + n)) (hs : AllRuns base P t.ooo) (hn : t.rcvNxt = pos base r) {t' : Tcb} (ht' : t' = { t with
      rx := { t.rx with len := t.rx.len + n }, rcvNxt := t.rcvNxt + BitVec.ofNat 32 n }) :
    ∃ r', r + n ≤ r' ∧ Q r' ∧ AllRuns base (fun a b => P a b ∧ r' < a) t'.coalesce.ooo ∧
      t'.coalesce = { t with
        ooo := t'.coalesce.ooo, rx := { t.rx with len := t.rx.len + (r' - r) }, rcvNxt := pos base r' } := by
  have hnext : t'.rcvNxt = pos base (r + n : Nat) := by
    rw [ht', hn, pos_add_ofNat]
    rfl
  obtain ⟨r', hc, hq', hruns⟩ := coalesceLoop_spec hP hQ hlo hr hq (by rwa [ht']) hnext
    (Nat.lt_succ_of_le (length_filter_le ..))
  change t'.Coalesced _ _ t'.coalesce r' at hc
  have hle := hc.le
  have hlen : t.rx.len + n + (r' - (r + n)) = t.rx.len + (r' - r) := by omega
  refine ⟨r', hle, hq', hruns, hc.rest.trans ?_⟩
  rw [hc.rx, hc.next, ← hlen]
  subst ht'
  rfl

end

end Kintane
