import Kintane.Sched.RunQueue

/-!
# Which CPU a thread runs on

Placing a woken thread and pulling waiting ones across, as functions of a snapshot of every CPU.
Neither overrules an affinity or names a CPU that is not running threads.
-/

namespace Kintane

open List

/-- `CpuSet`: bit `n` is CPU `n`. -/
abbrev CpuSet := BitVec 64

namespace CpuSet

def all (cpus : Nat) : CpuSet := if 64 ≤ cpus then BitVec.allOnes 64 else Bits.one 64 cpus - 1

def single (cpu : Nat) : CpuSet := if cpu < 64 then Bits.one 64 cpu else 0

def contains (s : CpuSet) (cpu : Nat) : Bool := cpu < 64 && s &&& Bits.one 64 cpu ≠ 0

def isEmpty (s : CpuSet) : Bool := s = 0

def intersect (s t : CpuSet) : CpuSet := s &&& t

end CpuSet

/-- What balancing needs to know about one CPU. -/
structure CpuLoad where
  online : Bool
  /-- The running thread's priority, unless it is the idle thread. -/
  running : Option Priority
  /-- The threads queued, idle threads not counted. -/
  queued : Nat

namespace CpuLoad

def load (c : CpuLoad) : Nat := c.queued + if c.running.isSome then 1 else 0

def idle (c : CpuLoad) : Bool := c.running.isNone && c.queued = 0

end CpuLoad

namespace Balance

variable {k : Nat} (cpus : Fin k → CpuLoad)

def usable (allowed : CpuSet) (cpu : Fin k) : Bool := allowed.contains cpu && (cpus cpu).online

/-- The CPUs a thread may be placed on. -/
def candidates (allowed : CpuSet) : List (Fin k) := (finRange k).filter (usable cpus allowed)

/-- One step of the search for the least loaded CPU, `last` first among equals. -/
def better (last : Nat) (best cpu : Fin k) : Fin k :=
  if (cpus cpu).load < (cpus best).load ∨ ((cpus cpu).load = (cpus best).load ∧ cpu.val = last) then cpu
  else best

/-- The CPU for a thread that has become ready: the last one it ran on if that is idle, any idle
one, the last one if the thread outranks what runs there, or the least loaded. -/
def placeWake (allowed : CpuSet) (last : Nat) (priority : Priority) : Option (Fin k) :=
  match candidates cpus allowed with
  | [] => none
  | first :: rest =>
    let home := (candidates cpus allowed).find? (·.val = last)
    (home.filter fun cpu => (cpus cpu).idle).or <|
      ((candidates cpus allowed).find? fun cpu => (cpus cpu).idle).or <|
      (home.filter fun cpu => (cpus cpu).running.all (· < priority)).or <|
      some ((first :: rest).foldl (better cpus last) first)

def needsReschedule (target : CpuLoad) (priority : Priority) : Bool :=
  target.running.all (· ≤ priority)

/-- One step of the search for the busiest other CPU. -/
def busier (this : Fin k) (busiest : Option (Fin k)) (cpu : Fin k) : Option (Fin k) :=
  if cpu = this ∨ (cpus cpu).online = false ∨ (cpus cpu).queued = 0 then busiest
  else if busiest.all fun b => (cpus b).load < (cpus cpu).load then some cpu
  else busiest

def pullSource (this : Fin k) : Option (Fin k) :=
  if (cpus this).online then
    ((finRange k).foldl (busier cpus this) none).filter fun source =>
      (cpus this).idle || (cpus this).load + 2 ≤ (cpus source).load
  else none

/-! ## Placement respects the affinity -/

variable {cpus} {allowed : CpuSet} {last : Nat} {priority : Priority}

theorem better_eq (last : Nat) (best cpu : Fin k) :
    better cpus last best cpu = cpu ∨ better cpus last best cpu = best := by
  unfold better
  split
  · exact .inl rfl
  · exact .inr rfl

theorem foldl_better_mem (cpus : Fin k → CpuLoad) (last : Nat) (l : List (Fin k)) (best : Fin k) :
    l.foldl (better cpus last) best ∈ best :: l := by
  refine foldlRecOn (motive := (· ∈ best :: l)) l _ mem_cons_self fun b hb cpu hc => ?_
  rcases better_eq last b cpu with h | h
  · rw [h]
    exact mem_cons_of_mem _ hc
  · rw [h]
    exact hb

/-- A thread is placed on a usable CPU. -/
theorem placeWake_usable {cpu : Fin k} (h : placeWake cpus allowed last priority = some cpu) :
    usable cpus allowed cpu = true := by
  suffices hmem : cpu ∈ candidates cpus allowed from (mem_filter.mp hmem).2
  unfold placeWake at h
  split at h
  · cases h
  rename_i first rest hc
  have hhome : ∀ p : Fin k → Bool, ((candidates cpus allowed).find? (·.val = last)).filter p = some cpu →
      cpu ∈ candidates cpus allowed := fun p hp =>
    mem_of_find?_eq_some (Option.filter_eq_some_iff.mp hp).1
  simp only [Option.or_eq_some_iff] at h
  rcases h with h | ⟨-, h | ⟨-, h | ⟨-, h⟩⟩⟩
  · exact hhome _ h
  · exact mem_of_find?_eq_some h
  · exact hhome _ h
  cases h
  have := foldl_better_mem cpus last (first :: rest) first
  rw [hc]
  simpa using this

/-- It is placed whenever there is one. -/
theorem placeWake_isSome :
    (placeWake cpus allowed last priority).isSome = true ↔ ∃ cpu, usable cpus allowed cpu = true := by
  constructor
  · intro h
    obtain ⟨cpu, hcpu⟩ := Option.isSome_iff_exists.mp h
    exact ⟨cpu, placeWake_usable hcpu⟩
  · rintro ⟨cpu, hcpu⟩
    have hmem : cpu ∈ candidates cpus allowed :=
      mem_filter.mpr ⟨mem_finRange cpu, hcpu⟩
    unfold placeWake
    split
    · next hc =>
      rw [hc] at hmem
      cases hmem
    · simp

end Balance

end Kintane
