import Mathlib.Tactic.FinCases
import Kintane.Thread.ThreadsRuns

/-!
# Thread numbers

Threads are numbered by a 32-bit counter that wraps. Until it does, no number is given twice and a
number names the thread it was given to. A table that lives long enough to create more threads than
there are numbers gives some number again.
-/

namespace Kintane.Threads

open List

variable {n cpus : Nat} {t : Threads n cpus} {k : Nat} {rules : StackRules}
variable {given : List ThreadId} {i : Fin n} {m : ThreadMeta cpus}

def newId (rules : StackRules) (t : Threads n cpus) : Op → Option ThreadId
  | .spawnOn priority stackTop stackSize affinity cpu idle =>
    (t.spawnOn rules priority stackTop stackSize affinity cpu idle).2.toOption
  | .adopt cpu priority affinity idle => (t.adopt cpu priority affinity idle).2.toOption
  | _ => none

/-- The tables of all runs, with the numbers given in them, the latest first. The boot thread has
number 0. -/
inductive Names (rules : StackRules) : List ThreadId → Threads n cpus → Prop where
  | new (hn : 0 < n) (hcpus : 0 < cpus) (priority : Priority) : Names rules [0] (.new hn hcpus priority)
  | step {given : List ThreadId} {t : Threads n cpus} (op : Op) : Names rules given t →
    Names rules ((newId rules t op).toList ++ given) (t.step rules op).1

theorem toOption_cases (r : Except ThreadError ThreadId) (h : ∀ id, r = .ok id → id = k) :
    r.toOption = none ∧ made r = 0 ∨ r.toOption = some k ∧ made r = 1 := by
  cases r with
  | error e => exact .inl ⟨rfl, rfl⟩
  | ok id => exact .inr ⟨congrArg some (h id rfl), rfl⟩

/-- A new thread is given the next number. -/
theorem newId_cases (rules : StackRules) (t : Threads n cpus) (op : Op) :
    newId rules t op = none ∧ (t.step rules op).2.created = 0 ∨
      newId rules t op = some t.nextId ∧ (t.step rules op).2.created = 1 := by
  cases op with
  | spawnOn priority top size affinity cpu idle =>
    refine toOption_cases _ fun id hid => ?_
    unfold Threads.spawnOn at hid
    grind
  | adopt cpu priority affinity idle =>
    refine toOption_cases _ fun id hid => ?_
    unfold Threads.adopt at hid
    grind
  | _ => exact .inl ⟨rfl, rfl⟩

theorem Names.reaches (h : Names rules given t) (hlen : given.length ≤ 2 ^ 32) :
    ∃ k, given = (range (k + 1)).reverse ∧ Reaches rules (fun _ _ => True) k t := by
  induction h with
  | new hn hcpus priority => exact ⟨0, rfl, .new hn hcpus priority⟩
  | @step given t op _ ih =>
    rw [length_append] at hlen
    obtain ⟨k, rfl, hr⟩ := ih (by omega)
    have hstep := hr.step op trivial
    rcases newId_cases rules t op with ⟨hid, hmade⟩ | ⟨hid, hmade⟩
    · rw [hmade] at hstep
      have hk : k + 0 < 2 ^ 32 := by simp at hlen; omega
      exact ⟨k, by rw [hid]; rfl, hstep hk⟩
    · rw [hmade] at hstep
      have hk : k + 1 < 2 ^ 32 := by simp [hid] at hlen; omega
      obtain ⟨ls, hinv⟩ := hr.sound
      refine ⟨k + 1, ?_, hstep hk⟩
      rw [hid, hinv.nextId_eq hk, range_succ (n := k + 1), reverse_append]
      rfl

/-- Until as many threads have been created as there are numbers, no number has been given twice,
every thread has one that was given, looking it up finds that thread, and what a queue holds is the
number of a thread that is ready there. -/
theorem ids_unique (h : Names rules given t) (hlen : given.length ≤ 2 ^ 32) :
    given.Nodup ∧
      (∀ i m, t.metas i = some m → m.id ∈ given ∧ t.lookup m.id = some (i, m)) ∧
      ∀ c, ∀ x ∈ (t.runq c).iter, ∃ i m, t.lookup x.1 = some (i, m) ∧ m.entry = x ∧ m.readyOn = some c := by
  obtain ⟨k, rfl, hr⟩ := h.reaches hlen
  obtain ⟨ls, hinv⟩ := hr.sound
  refine ⟨nodup_reverse.mpr nodup_range, fun i m hm => ⟨?_, hinv.lookup_of_meta hm⟩, fun c x hx => ?_⟩
  · rw [mem_reverse, mem_range]
    exact Nat.lt_succ_of_le (hinv.bound i m hm)
  · obtain ⟨i, m, hlook, -, hentry, hready⟩ := hinv.exists_meta ((hinv.holds c).mem_iter.mp hx)
    exact ⟨i, m, hlook, hentry, hready⟩

theorem ids_unique_spawn : [1, 0].Nodup ∧ (pair.step pairRules pairSpawn).1.lookup 1 =
    some (1, ⟨1, ⟨5, five_lt⟩, .ready, 0, 3#64, false⟩) := by
  have hn : Names pairRules [1, 0] (pair.step pairRules pairSpawn).1 :=
    .step pairSpawn (.new Nat.two_pos Nat.two_pos ⟨5, five_lt⟩)
  obtain ⟨hnodup, hlook, -⟩ := ids_unique hn (by decide)
  have hmeta : (pair.step pairRules pairSpawn).1.metas 1 =
      some ⟨1, ⟨5, five_lt⟩, .ready, 0, 3#64, false⟩ := by decide +kernel
  exact ⟨hnodup, (hlook 1 _ hmeta).2⟩

/-! ## Running out of numbers -/

/-- A thread of the only CPU. -/
def lone (x : ThreadId) (state : ThreadState) : ThreadMeta 1 := ⟨x, ⟨5, five_lt⟩, state, 0, 1#64, false⟩

/-- Only one thread, which runs and has the latest number. -/
structure Solo (t : Threads 2 1) (s : Fin 2) (x : ThreadId) : Prop where
  metas : t.metas = Function.update (fun _ => none) s (some (lone x .running))
  queue : (t.runq 0).Holds []
  current : t.current 0 = some s
  nextId : t.nextId = (x + 1) % 2 ^ 32

variable {t : Threads 2 1} {s : Fin 2} {x : ThreadId}

/-- It creates another, -/
theorem Solo.spawn (h : Solo t s x) : ∃ q, q.Holds [(t.nextId, ⟨5, five_lt⟩)] ∧
    t.spawnOn pairRules ⟨5, five_lt⟩ 4096 1024 1#64 0 false =
      (((t.setQueue 0 q).setMeta (s + 1) (some (lone t.nextId .ready))).bumpId, .ok t.nextId) := by
  have hfree : t.freeSlot = some (s + 1) := by
    rw [freeSlot, h.metas]
    fin_cases s <;> rfl
  have hnew : ∀ p, (t.nextId, p) ∉ ([] : List Queued) := by simp
  obtain ⟨hres, hholds⟩ := h.queue.enqueue (p := ⟨5, five_lt⟩) hnew (by simp)
  generalize hq : (t.runq 0).enqueue t.nextId ⟨5, five_lt⟩ = r at hres hholds
  obtain ⟨q, r⟩ := r
  obtain rfl : r = .ok () := hres
  refine ⟨q, hholds, ?_⟩
  have hfits : affinityFits 1#64 (0 : Fin 1) false = true := by decide
  have hcpu : cpuOf 1 0 = some 0 := rfl
  have hstack : ¬(1024 < 4096 % pairRules.align ∨ 1024 - 4096 % pairRules.align < pairRules.minStack) := by decide
  simp only [Threads.spawnOn, hcpu, hfits, hfree, hq, if_neg hstack, Bool.not_true]
  rfl

theorem lookup_two {a b : ThreadMeta 1} (ha : t.metas s = some a) (hb : t.metas (s + 1) = some b)
    (hne : b.id ≠ a.id) : t.lookup a.id = some (s, a) := by
  have hindex : t.indexOf a.id = some s := by
    match s with
    | 0 => simp [indexOf, finRange_succ, ha]
    | 1 => simp [indexOf, finRange_succ, ha, show t.metas 0 = some b from hb, hne]
  simp [lookup, hindex, ha]

theorem ne_add_one (s : Fin 2) : s ≠ s + 1 := by fin_cases s <;> decide

/-- exits in its favour, -/
theorem exit_two {y : ThreadId} (hq : (t.runq 0).Holds [(y, ⟨5, five_lt⟩)]) (hcur : t.current 0 = some s)
    (hold : t.metas s = some (lone x .running)) (hnew : t.metas (s + 1) = some (lone y .ready))
    (hne : x ≠ y) : ∃ q, q.Holds [] ∧ (t.planLeave 0 .exited).1 =
      ((((t.setMeta s (some (lone x .exited))).setQueue 0 q).setMeta (s + 1) (some (lone y .running))).setCurrent
        0 (s + 1)) := by
  obtain ⟨hpick, hempty⟩ := hq.pickNext (x := (y, ⟨5, five_lt⟩)) ⟨by simp, by simp⟩
  have hnonempty : (t.runq 0).isEmpty = false := by
    rw [Bool.eq_false_iff, Ne, hq.isEmpty_iff]
    nofun
  generalize hq' : (t.runq 0).pickNext = r at hpick hempty
  obtain ⟨q', r⟩ := r
  obtain rfl : r = some _ := hpick
  have hs := ne_add_one s
  have hcurOn : t.currentOn 0 = some (0, s) := by simp [currentOn, cpuOf, hcur]
  have hlook : ((t.setMeta s (some (lone x .exited))).setQueue 0 q').lookup y = some (s + 1, lone y .ready) := by
    refine lookup_two (a := lone y .ready) (b := lone x .exited) ?_ ?_ hne
    · simp [setQueue, setMeta, hs.symm, hnew]
    · rw [show s + 1 + 1 = s by fin_cases s <;> rfl]
      simp [setQueue, setMeta]
  refine ⟨q', by simpa using hempty, ?_⟩
  have hset : (t.setMeta s (some (lone x .exited))).runq = t.runq := rfl
  have hset' : (t.setMeta s (some (lone x .exited))).current = t.current := rfl
  simp only [planLeave, hcurOn, hnonempty, hold]
  show (planNext (t.setMeta s (some (lone x .exited))) 0).1 = _
  simp only [planNext, hset, hset', hcur, hq', hlook, if_neg hs]
  rfl

/-- and is reaped: all is as before, but for the number and the slot. -/
theorem Solo.relay (h : Solo t s x) : ∃ t', Solo t' (s + 1) t.nextId ∧
    ∀ given, Names pairRules given t → Names pairRules (t.nextId :: given) t' := by
  have hs := ne_add_one s
  have hx : x ≠ t.nextId := h.nextId ▸ (show ∀ x : Nat, x ≠ (x + 1) % 2 ^ 32 by omega) x
  obtain ⟨q, hq, hspawn⟩ := h.spawn
  generalize hu : ((t.setQueue 0 q).setMeta (s + 1) (some (lone t.nextId .ready))).bumpId = u at hspawn
  have hmetas : u.metas = Function.update (Function.update (fun _ => none) s (some (lone x .running))) (s + 1)
      (some (lone t.nextId .ready)) := by
    rw [← hu, ← h.metas]
    rfl
  have hqueue : (u.runq 0).Holds [(t.nextId, ⟨5, five_lt⟩)] := by
    simpa [← hu, setMeta, setQueue, bumpId] using hq
  obtain ⟨q', hq', hexit⟩ := exit_two hqueue (by rw [← hu]; exact h.current) (by simp [hmetas, hs])
    (by simp [hmetas]) hx
  generalize hv : (u.planLeave 0 .exited).1 = v at hexit
  have hlook : v.lookup x = some (s, lone x .exited) := by
    refine lookup_two (a := lone x .exited) (b := lone t.nextId .running) ?_ ?_ hx.symm
    · simp [hexit, setCurrent, setMeta, setQueue, hs]
    · simp [hexit, setCurrent, setMeta, setQueue]
  refine ⟨v.setMeta s none, ⟨?_, ?_, ?_, ?_⟩, fun given hn => ?_⟩
  · funext j
    simp only [hexit, setCurrent, setMeta, setQueue, hmetas, Function.update_apply]
    by_cases hj : j = s
    · simp [hj, hs]
    · by_cases hj' : j = s + 1
      · simp [hj', hs.symm]
      · simp [hj, hj']
  · simpa [hexit, setCurrent, setMeta, setQueue] using hq'
  · simp [hexit, setCurrent, setMeta, setQueue]
  · simp [hexit, setCurrent, setMeta, setQueue, ← hu, bumpId]
  · have hn' := ((hn.step (.spawnOn ⟨5, five_lt⟩ 4096 1024 1#64 0 false)).step (.exitOn 0)).step (.reap x)
    simp only [newId, step, hspawn, hv, reap, hlook] at hn'
    exact hn'

/-- So it goes on, with as many numbers given as one likes. -/
theorem exists_solo (k : Nat) : ∃ given s x, ∃ t : Threads 2 1, Names pairRules given t ∧ Solo t s x ∧
    given.length = k + 1 ∧ ∀ id ∈ given, id < 2 ^ 32 := by
  induction k with
  | zero =>
    refine ⟨[0], 0, 0, _, .new Nat.two_pos Nat.one_pos ⟨5, five_lt⟩, ⟨?_, RunQueue.holds_new, rfl, rfl⟩, rfl, by simp⟩
    rfl
  | succ k ih =>
    obtain ⟨given, s, x, t, hn, h, hlen, hlt⟩ := ih
    obtain ⟨t', h', hn'⟩ := h.relay
    refine ⟨t.nextId :: given, _, _, t', hn' given hn, h', by simp [hlen], ?_⟩
    rw [forall_mem_cons, h.nextId]
    exact ⟨Nat.mod_lt _ (Nat.two_pow_pos 32), hlt⟩

/-- With more threads created than there are numbers, one has been given twice. -/
theorem ids_repeat : ¬∀ (given : List ThreadId) (t : Threads 2 1), Names pairRules given t → given.Nodup := by
  intro hall
  obtain ⟨given, s, x, t, hn, -, hlen, hlt⟩ := exists_solo (2 ^ 32)
  have hsub : given ⊆ range (2 ^ 32) := fun id hid => mem_range.mpr (hlt id hid)
  have := ((hall given t hn).subperm hsub).length_le
  rw [hlen, length_range] at this
  exact Nat.not_succ_le_self _ this

end Kintane.Threads
