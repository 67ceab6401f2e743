import Mathlib.Algebra.BigOperators.Fin
import Mathlib.Data.List.Sort
import Mathlib.Data.Prod.Lex
import Mathlib.Order.OrderIsoNat
import Mathlib.Tactic.Ring
import Kintane.Lib.Pick
import Kintane.Sched.Balance

/-!
# Balancing converges

CPUs pull threads from one another in any order. Every move lowers the sum of the squares of the
loads, or leaves it and takes a thread from a queue to a CPU that ran nothing; so there are only
finitely many. Where no CPU finds one to pull from, the loads are even.
-/

namespace Kintane.Balance

open Finset

variable {k : Nat} {cpus : Fin k → CpuLoad} {this source c : Fin k}

/-! ## What is pulled from -/

/-- Another CPU with a thread waiting. -/
def Waiting (cpus : Fin k → CpuLoad) (this c : Fin k) : Prop :=
  c ≠ this ∧ (cpus c).online = true ∧ 0 < (cpus c).queued

instance : Decidable (Waiting cpus this c) := inferInstanceAs (Decidable (_ ∧ _ ∧ _))

/-- The one with the most to do, and of equals the first. -/
def Busiest (cpus : Fin k → CpuLoad) (this s : Fin k) : Prop :=
  Waiting cpus this s ∧ ∀ c, Waiting cpus this c →
    (cpus c).load < (cpus s).load ∨ (cpus c).load = (cpus s).load ∧ s ≤ c

theorem Busiest.eq (hs : Busiest cpus this source) (hc : Busiest cpus this c) : source = c := by
  have hle := hs.2 c hc.1
  have hge := hc.2 source hs.1
  exact Fin.ext (by omega)

/-- The search ends with the busiest CPU, or with none if no thread waits. -/
theorem foldl_busier (cpus : Fin k → CpuLoad) (this : Fin k) :
    match (List.finRange k).foldl (busier cpus this) none with
    | some s => Busiest cpus this s
    | none => ∀ c, ¬Waiting cpus this c := by
  have hround : busier cpus this = pickRound (fun c => decide (Waiting cpus this c))
      fun a b => (cpus b).load < (cpus a).load := by
    funext b c
    by_cases hc : Waiting cpus this c
    · have := hc.2.2.ne'
      simp [busier, pickRound, hc, hc.1, hc.2.1, this]
    · rw [pickRound, decide_eq_false hc]
      simp only [Waiting, not_and_or, not_not, Bool.not_eq_true, not_lt, Nat.le_zero] at hc
      simp [busier, hc]
  rw [hround]
  split
  · next s hs =>
    refine ⟨of_decide_eq_true (of_pick hs).2, fun c hc => ?_⟩
    have := pick_le (fun c => toLex (OrderDual.toDual (cpus c).load, c)) ?_ ?_
      (List.sortedLT_finRange k).pairwise hs (List.mem_finRange c) (decide_eq_true hc)
    · simpa [Prod.Lex.le_iff, eq_comm] using this
    · intro a b h
      exact Prod.Lex.le_iff.mpr (.inl (of_decide_eq_true h))
    · intro a b hba h
      rcases (not_lt.mp (of_decide_eq_false h)).lt_or_eq with h | h
      · exact Prod.Lex.le_iff.mpr (.inl h)
      · exact Prod.Lex.le_iff.mpr (.inr ⟨congrArg OrderDual.toDual h.symm, hba.le⟩)
  · next hnone => exact fun c => of_decide_eq_false (of_pick_none hnone c (List.mem_finRange c))

theorem pullSource_eq_some (h : pullSource cpus this = some source) :
    Busiest cpus this source ∧
      ((cpus this).idle = true ∨ (cpus this).load + 2 ≤ (cpus source).load) := by
  unfold pullSource at h
  split at h
  · obtain ⟨hs, hdue⟩ := Option.filter_eq_some_iff.mp h
    have := foldl_busier cpus this
    rw [hs] at this
    exact ⟨this, by simpa using hdue⟩
  · cases h

theorem pullSource_eq_none (h : pullSource cpus this = none) (hon : (cpus this).online = true)
    (hc : Waiting cpus this c) : (cpus this).idle = false ∧ (cpus c).load ≤ (cpus this).load + 1 := by
  have hbusy := foldl_busier cpus this
  rw [pullSource, if_pos hon] at h
  split at hbusy
  · next s hs =>
    have := hbusy.2 c hc
    rw [hs] at h
    simp at h
    exact ⟨h.1, by omega⟩
  · exact absurd hc (hbusy c)

/-! ## A move -/

/-- A CPU that pulls: it runs the thread if it ran nothing, or else queues it. -/
def pull (cpus : Fin k → CpuLoad) (this : Fin k) (priority : Priority) : Fin k → CpuLoad :=
  match pullSource cpus this with
  | none => cpus
  | some source =>
    let here := cpus this
    Function.update
      (Function.update cpus source { cpus source with queued := (cpus source).queued - 1 }) this
      (if here.running.isNone then { here with running := some priority }
      else { here with queued := here.queued + 1 })

def total (cpus : Fin k → CpuLoad) : Nat := ∑ c, (cpus c).load

/-- What every move lowers. -/
def unrest (cpus : Fin k → CpuLoad) : Nat := ∑ c, ((cpus c).load ^ 2 + (cpus c).queued)

/-- A sum of which two terms change. -/
theorem sum_two {f g : Fin k → Nat} {a b : Fin k} (hab : a ≠ b)
    (h : ∀ c, c ≠ a → c ≠ b → f c = g c) : ∑ c, f c + (g a + g b) = ∑ c, g c + (f a + f b) := by
  have hsplit (f : Fin k → Nat) : ∑ c, f c = f a + (f b + ∑ c ∈ (univ.erase a).erase b, f c) := by
    rw [add_sum_erase _ _ (by simp [hab.symm]), add_sum_erase _ _ (mem_univ a)]
  have hrest : ∑ c ∈ (univ.erase a).erase b, f c = ∑ c ∈ (univ.erase a).erase b, g c := by
    refine sum_congr rfl fun c hc => ?_
    simp only [mem_erase] at hc
    exact h c hc.2.1 hc.1
  rw [hsplit f, hsplit g, hrest]
  omega

/-- A move keeps the loads together and lowers the measure. -/
theorem pull_lowers (h : pullSource cpus this = some source) (priority : Priority) :
    total (pull cpus this priority) = total cpus ∧ unrest (pull cpus this priority) < unrest cpus := by
  obtain ⟨⟨⟨hne, -, hqueued⟩, -⟩, hdue⟩ := pullSource_eq_some h
  have hother : ∀ c, c ≠ source → c ≠ this → pull cpus this priority c = cpus c := by
    intro c hs ht
    simp [pull, h, hs, ht]
  have hsource : pull cpus this priority source =
      { cpus source with queued := (cpus source).queued - 1 } := by
    simp [pull, h, hne]
  have hload : (cpus source).load = (pull cpus this priority source).load + 1 := by
    rw [hsource]
    simp only [CpuLoad.load]
    omega
  have hthis : (pull cpus this priority this).load = (cpus this).load + 1 ∧
      (pull cpus this priority this).queued ≤ (cpus this).queued + 1 ∧
      ((cpus this).idle = true → (cpus this).load = 0 ∧
        (pull cpus this priority this).queued = (cpus this).queued) := by
    simp only [pull, h, Function.update_self, CpuLoad.load, CpuLoad.idle]
    cases (cpus this).running with
    | none => simp
    | some _ => simp
  have htotal := sum_two (f := fun c => (pull cpus this priority c).load) (g := fun c => (cpus c).load)
    hne fun c hs ht => by rw [hother c hs ht]
  have hunrest := sum_two
    (f := fun c => (pull cpus this priority c).load ^ 2 + (pull cpus this priority c).queued)
    (g := fun c => (cpus c).load ^ 2 + (cpus c).queued) hne fun c hs ht => by rw [hother c hs ht]
  have hq : (pull cpus this priority source).queued + 1 = (cpus source).queued := by
    rw [hsource]
    exact Nat.succ_pred hqueued.ne'
  have hsq (a : Nat) : (a + 1) ^ 2 = a ^ 2 + 2 * a + 1 := by ring
  simp only [hload, hthis.1, hsq] at htotal hunrest hdue
  refine ⟨?_, ?_⟩
  · unfold total
    omega
  · unfold unrest
    have := hthis.2
    rcases hdue with hidle | hmargin
    · have := this.2 hidle
      omega
    · omega

/-! ## Any order of moves -/

/-- The loads after `i` turns of a schedule, which says whose turn it is and the priority of the
thread that comes over, if one does. -/
def turns (cpus : Fin k → CpuLoad) (schedule : Nat → Fin k × Priority) : Nat → Fin k → CpuLoad
  | 0 => cpus
  | i + 1 => pull (turns cpus schedule i) (schedule i).1 (schedule i).2

/-- No CPU idles while a thread waits on another, and one on which a thread waits has at most one
more than any. -/
def Even (cpus : Fin k → CpuLoad) : Prop :=
  ∀ c d, (cpus c).online = true → (cpus d).online = true → 0 < (cpus d).queued →
    (cpus c).idle = false ∧ (cpus d).load ≤ (cpus c).load + 1

theorem even_of_pullSource (h : ∀ c, pullSource cpus c = none) : Even cpus := by
  intro c d hc hd hqueued
  by_cases hdc : d = c
  · subst hdc
    refine ⟨?_, Nat.le_succ _⟩
    simp [CpuLoad.idle, hqueued.ne']
  · exact pullSource_eq_none (h c) hc ⟨hdc, hd, hqueued⟩

theorem pull_of_none (h : pullSource cpus this = none) (priority : Priority) :
    pull cpus this priority = cpus := by
  rw [pull, h]

theorem pull_le (cpus : Fin k → CpuLoad) (this : Fin k) (priority : Priority) :
    total (pull cpus this priority) = total cpus ∧ unrest (pull cpus this priority) ≤ unrest cpus := by
  cases h : pullSource cpus this with
  | none => rw [pull_of_none h]; exact ⟨rfl, le_rfl⟩
  | some source => exact (pull_lowers h priority).imp_right le_of_lt

variable (cpus) (schedule : Nat → Fin k × Priority)

theorem turns_total (i : Nat) : total (turns cpus schedule i) = total cpus := by
  induction i with
  | zero => rfl
  | succ i ih => exact (pull_le ..).1.trans ih

/-- After finitely many turns no CPU moves a thread on its turn. -/
theorem exists_settled : ∃ N, ∀ i ≥ N, pullSource (turns cpus schedule i) (schedule i).1 = none := by
  have hanti : Antitone fun i => unrest (turns cpus schedule i) :=
    antitone_nat_of_succ_le fun i => (pull_le ..).2
  obtain ⟨N, hN⟩ := WellFoundedLT.antitone_chain_condition hanti
  refine ⟨N, fun i hi => ?_⟩
  -- a move would lower the measure once more
  by_contra hmove
  obtain ⟨source, hsource⟩ := Option.ne_none_iff_exists'.mp hmove
  have hlow : unrest (turns cpus schedule (i + 1)) < unrest (turns cpus schedule i) :=
    (pull_lowers hsource _).2
  exact hlow.ne ((hN (i + 1) (Nat.le_succ_of_le hi)).symm.trans (hN i hi))

/-- Whatever the loads and the order of the turns, the total stays, only finitely many turns move
a thread, and if every CPU keeps getting turns the loads they end with are even. -/
theorem turns_converge : (∀ i, total (turns cpus schedule i) = total cpus) ∧
    ∃ N, (∀ i ≥ N, pullSource (turns cpus schedule i) (schedule i).1 = none ∧
        turns cpus schedule i = turns cpus schedule N) ∧
      ((∀ c m, ∃ i ≥ m, (schedule i).1 = c) → Even (turns cpus schedule N)) := by
  obtain ⟨N, hN⟩ := exists_settled cpus schedule
  have hsame : ∀ i ≥ N, turns cpus schedule i = turns cpus schedule N := by
    intro i hi
    induction i, hi using Nat.le_induction with
    | base => rfl
    | succ i hi ih => rw [turns, pull_of_none (hN i hi), ih]
  refine ⟨turns_total cpus schedule, N, fun i hi => ⟨hN i hi, hsame i hi⟩, fun hturns => ?_⟩
  refine even_of_pullSource fun c => ?_
  obtain ⟨i, hi, rfl⟩ := hturns c N
  rw [← hsame i hi]
  exact hN i hi

end Kintane.Balance
