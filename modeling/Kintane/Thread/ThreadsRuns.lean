import Kintane.Thread.ThreadsOps

/-!
# The check holds in every run

The invariant gives all that `check` looks at. One operation can break it: `set_affinity` stores
the new affinity before it looks for a CPU to move a ready thread to, and fails when none of those
allowed has joined, with the thread left on a queue it may no longer use. In runs where such a CPU
always exists the check holds throughout, and nothing else ever breaks it.
-/

open List

namespace Kintane.Threads

open List

variable {n cpus : Nat} {t : Threads n cpus} {k : Nat} {ls : Fin cpus → List Queued} {i : Fin n} {m : ThreadMeta cpus}
  {c : Fin cpus} {rules : StackRules}

/-! ## The check -/

theorem countP_finRange {a : Nat} (p : Fin a → Bool) :
    (finRange a).countP p = (Finset.univ.filter fun x => p x = true).card := by
  rw [countP_eq_length_filter]
  simp [Finset.card, Finset.univ, Fintype.elems]

namespace Inv

variable {A : Prop} (h : t.Inv A k ls none)
include h

/-- As many threads run as CPUs have joined. -/
theorem count_running : (finRange n).countP (fun i => (t.metas i).any (·.state = .running)) =
      (finRange cpus).countP fun c => (t.current c).isSome := by
  rw [countP_finRange, countP_finRange]
  symm
  refine Finset.card_bij (fun c hc => (t.current c).get (Finset.mem_filter.mp hc).2) ?_ ?_ ?_
  · intro c hc
    obtain ⟨m, hm, hrun⟩ := (h.runs c nofun _).mp (Option.eq_some_of_isSome (Finset.mem_filter.mp hc).2)
    simp [hm, (ThreadMeta.runsOn_eq_some.mp hrun).1]
  · intro c hc c' hc' heq
    obtain ⟨m, hm, hrun⟩ := (h.runs c nofun _).mp (Option.eq_some_of_isSome (Finset.mem_filter.mp hc).2)
    obtain ⟨m', hm', hrun'⟩ :=
      (h.runs c' nofun _).mp (Option.eq_some_of_isSome (Finset.mem_filter.mp hc').2)
    rw [heq, hm'] at hm
    rw [← Option.some.inj hm, hrun'] at hrun
    exact (Option.some.inj hrun).symm
  · intro i hi
    cases hm : t.metas i with
    | none => simp [hm] at hi
    | some m =>
      have hstate : m.state = .running := by simpa [hm] using hi
      have hcur := (h.runs m.cpu nofun i).mpr ⟨m, hm, ThreadMeta.runsOn_eq_some.mpr ⟨hstate, rfl⟩⟩
      exact ⟨m.cpu, by simp [hcur], by simp [hcur]⟩

theorem contains_iff (hm : t.metas i = some m) : (t.runq c).contains m.id = true ↔ m.readyOn = some c := by
  rw [(h.holds c).contains_iff]
  constructor
  · rintro ⟨p, hp⟩
    exact (h.eq_entry hm hp rfl).2
  · intro hready
    exact ⟨m.priority, (h.queued c _).mpr ⟨i, m, hm, rfl, hready⟩⟩

theorem checkCurrent_eq_none (c : Fin cpus) : t.checkCurrent c = none := by
  unfold checkCurrent
  split
  · rfl
  rename_i slot hcur
  obtain ⟨m, hm, hrun⟩ := (h.runs c nofun slot).mp hcur
  obtain ⟨hstate, hcpu⟩ := ThreadMeta.runsOn_eq_some.mp hrun
  have hother : ¬(finRange cpus).any (fun c' => c < c' && t.current c' = some slot) = true := by
    simp only [any_eq_true, mem_finRange, true_and, Bool.and_eq_true, decide_eq_true_eq, not_exists, not_and]
    intro c' hlt hcur'
    obtain ⟨m', hm', hrun'⟩ := (h.runs c' nofun slot).mp hcur'
    cases hm.symm.trans hm'
    rw [hrun] at hrun'
    exact lt_irrefl _ (Option.some.inj hrun' ▸ hlt)
  rw [if_neg (by simp [hm, hstate, hcpu]), if_neg hother]

theorem checkMeta_eq_none (hA : A) (hm : t.metas i = some m) : t.checkMeta m = none := by
  have hcount : (finRange cpus).countP (fun c => (t.runq c).contains m.id) =
      (finRange cpus).countP fun c => m.readyOn = some c := by
    refine countP_congr fun c _ => ?_
    rw [h.contains_iff hm, decide_eq_true_eq]
  unfold checkMeta
  rw [hcount]
  cases hstate : m.state with
  | ready =>
    have hready : m.readyOn = some m.cpu := by simp [ThreadMeta.readyOn, hstate]
    have hone : (finRange cpus).countP (fun c => m.readyOn = some c) = 1 := by
      rw [hready]
      have := count_eq_one_of_mem (nodup_finRange cpus) (mem_finRange m.cpu)
      rw [← this, count]
      refine countP_congr fun c _ => ?_
      rw [decide_eq_true_eq, Option.some_inj, beq_iff_eq, eq_comm]
    simp [hone, (h.contains_iff hm).mpr hready, h.allowed hA i m hm (.inl hstate)]
  | running => simp [ThreadMeta.readyOn, hstate]
  | blocked => simp [ThreadMeta.readyOn, hstate]
  | exited => simp [ThreadMeta.readyOn, hstate]

theorem check (hA : A) : t.check = .ok () := by
  unfold Threads.check
  rw [if_neg (not_not.mpr h.count_running)]
  have hcurrent : (finRange cpus).findSome? t.checkCurrent = none :=
    findSome?_eq_none_iff.mpr fun c _ => h.checkCurrent_eq_none c
  have hmeta : (finRange n).findSome? (fun i => (t.metas i).bind t.checkMeta) = none := by
    refine findSome?_eq_none_iff.mpr fun i _ => ?_
    cases hm : t.metas i with
    | none => rfl
    | some m => exact h.checkMeta_eq_none hA hm
  rw [hcurrent, hmeta]
  rfl

end Inv

/-- The check looks at every ready thread's affinity. -/
theorem contains_of_check (h : t.check = .ok ()) (hm : t.metas i = some m) (hs : m.state = .ready) :
    m.affinity.contains m.cpu = true := by
  unfold Threads.check at h
  simp only at h
  split at h
  · cases h
  split at h
  · cases h
  rename_i hnone
  rw [Option.or_eq_none_iff] at hnone
  have hmeta := findSome?_eq_none_iff.mp hnone.2 i (mem_finRange i)
  rw [hm, Option.bind_some] at hmeta
  simp only [checkMeta, hs] at hmeta
  split at hmeta
  · cases hmeta
  · split at hmeta
    · cases hmeta
    · next hcontains => simpa using hcontains

/-! ## `set_affinity` -/

/-- The check tells exactly the changes of affinity that leave a thread where it may not be. -/
theorem check_setAffinity (h : t.Ok True k) (id : ThreadId) (affinity : CpuSet) :
    (t.setAffinity id affinity).1.check = .ok () ↔ t.Placeable id affinity := by
  constructor
  · intro hcheck i m hlook hstate hidle husable hcpu
    obtain ⟨ls, h⟩ := h
    by_contra hnone
    have hplace : (t.setMeta i (some { m with affinity := usable affinity cpus })).place
        (usable affinity cpus) m.cpu m.priority = none := by
      rw [← Option.not_isSome_iff_eq_none, h.place_setMeta]
      exact hnone
    -- the affinity is stored, the thread not moved
    have hres : (t.setAffinity id affinity).1 =
        t.setMeta i (some { m with affinity := usable affinity cpus }) := by
      unfold usable at husable hcpu hplace ⊢
      simp only [Threads.setAffinity, hlook]
      rw [if_neg (by simp [husable, hidle]), if_pos ⟨hstate, hcpu⟩, hplace]
    rw [hres] at hcheck
    have := contains_of_check (i := i) (m := { m with affinity := usable affinity cpus }) hcheck
      (Function.update_self ..) hstate
    cases hcpu.symm.trans this
  · intro hp
    obtain ⟨⟨ls, h'⟩, -⟩ := h.setAffinity fun _ => hp
    exact h'.check trivial

/-! ## Runs -/

inductive Op where
  | spawnOn (priority : Priority) (stackTop stackSize : Nat) (affinity : CpuSet) (cpu : Nat)
      (idle : Bool)
  | adopt (cpu : Nat) (priority : Priority) (affinity : CpuSet) (idle : Bool)
  | setAffinity (id : ThreadId) (affinity : CpuSet)
  | yieldOn (cpu : Nat)
  | blockOn (cpu : Nat)
  | exitOn (cpu : Nat)
  | wakeOn (id : ThreadId)
  | balance (cpu : Nat)
  | reap (id : ThreadId)

/-- What a caller sees of an operation: its error, the switch performed, and how many threads it
has created. -/
structure Outcome (n : Nat) where
  error : Option ThreadError
  switch : Option (Switch n)
  created : Nat

def errorOf {α : Type} : Except ThreadError α → Option ThreadError
  | .error e => some e
  | .ok _ => none

def step (rules : StackRules) (t : Threads n cpus) : Op → Threads n cpus × Outcome n
  | .spawnOn priority stackTop stackSize affinity cpu idle =>
    let r := t.spawnOn rules priority stackTop stackSize affinity cpu idle
    (r.1, ⟨errorOf r.2, none, made r.2⟩)
  | .adopt cpu priority affinity idle =>
    let r := t.adopt cpu priority affinity idle
    (r.1, ⟨errorOf r.2, none, made r.2⟩)
  | .setAffinity id affinity =>
    let r := t.setAffinity id affinity
    (r.1, ⟨errorOf r.2, none, 0⟩)
  | .yieldOn cpu =>
    let r := t.planYield cpu
    (r.1, ⟨errorOf r.2, r.2.toOption.join.map Prod.fst, 0⟩)
  | .blockOn cpu =>
    let r := t.planLeave cpu .blocked
    (r.1, ⟨errorOf r.2, r.2.toOption, 0⟩)
  | .exitOn cpu =>
    let r := t.planLeave cpu .exited
    (r.1, ⟨errorOf r.2, r.2.toOption, 0⟩)
  | .wakeOn id =>
    let r := t.wakeOn id
    (r.1, ⟨errorOf r.2, none, 0⟩)
  | .balance cpu => ((t.balance cpu).1, ⟨none, none, 0⟩)
  | .reap id =>
    let r := t.reap id
    (r.1, ⟨errorOf r.2, none, 0⟩)

/-- Whether a change of affinity meets the condition under which it keeps the table sound. -/
def Op.Placeable (t : Threads n cpus) : Op → Prop
  | .setAffinity id affinity => t.Placeable id affinity
  | _ => True

/-- The tables of the runs whose every step meets `P`, with how many threads they have created. -/
inductive Reaches (rules : StackRules) (P : Threads n cpus → Op → Prop) : Nat → Threads n cpus → Prop where
  | new (hn : 0 < n) (hcpus : 0 < cpus) (priority : Priority) :
    Reaches rules P 0 (.new hn hcpus priority)
  | step {k : Nat} {t : Threads n cpus} (op : Op) : Reaches rules P k t → P t op →
    k + (t.step rules op).2.created < 2 ^ 32 →
    Reaches rules P (k + (t.step rules op).2.created) (t.step rules op).1

variable {α : Type} {P : Threads n cpus → Op → Prop} {A : Prop}

theorem errorOf_ne {r : Except ThreadError α} (h : r ≠ .error .invariantBroken) :
    errorOf r ≠ some .invariantBroken := by
  cases r with
  | ok _ => nofun
  | error e => exact fun he => h (congrArg Except.error (Option.some.inj he))

/-- No thread switches to itself, and the error that says so does not come up. -/
def Outcome.Sound (o : Outcome n) : Prop :=
  o.error ≠ some .invariantBroken ∧ ∀ sw, o.switch = some sw → sw.prev ≠ sw.next

theorem Kept.outcome {r : Threads n cpus × Except ThreadError α} (h : Kept A k r) (created : Nat) :
    r.1.Ok A k ∧ Outcome.Sound (⟨errorOf r.2, none, created⟩ : Outcome n) :=
  ⟨h.1, errorOf_ne h.2, nofun⟩

theorem outcome_sound {r : Except ThreadError (Switch n)} (h : Threads.Sound r) :
    Outcome.Sound ⟨errorOf r, r.toOption, 0⟩ := by
  refine ⟨errorOf_ne h.1, fun sw hsw => h.2 sw ?_⟩
  cases r with
  | error e => cases hsw
  | ok _ => exact congrArg Except.ok (Option.some.inj hsw)

/-- One step keeps the invariant. -/
theorem Ok.step (h : t.Ok A k) (op : Op) (hp : A → op.Placeable t)
    (hk : k + (t.step rules op).2.created < 2 ^ 32) :
    (t.step rules op).1.Ok A (k + (t.step rules op).2.created) ∧ (t.step rules op).2.Sound := by
  cases op with
  | spawnOn priority top size affinity cpu idle => exact (h.spawnOn rules priority top size affinity cpu idle hk).outcome _
  | adopt cpu priority affinity idle => exact (h.adopt cpu priority affinity idle hk).outcome _
  | setAffinity id affinity => exact (h.setAffinity hp).outcome _
  | yieldOn cpu =>
    obtain ⟨hok, hy⟩ := h.planYield cpu
    refine ⟨hok, errorOf_ne hy.sound, fun sw hsw => ?_⟩
    obtain ⟨⟨sw', kick⟩, hjoin, rfl⟩ := Option.map_eq_some_iff.mp hsw
    refine hy.ne sw' kick ?_
    cases hr : (t.planYield cpu).2 with
    | error e =>
      rw [hr] at hjoin
      cases hjoin
    | ok r =>
      rw [hr] at hjoin
      exact congrArg Except.ok hjoin
  | blockOn cpu =>
    obtain ⟨hok, hres⟩ := h.planLeave cpu (.inl rfl)
    exact ⟨hok, outcome_sound hres⟩
  | exitOn cpu =>
    obtain ⟨hok, hres⟩ := h.planLeave cpu (.inr rfl)
    exact ⟨hok, outcome_sound hres⟩
  | wakeOn id => exact (h.wakeOn id).outcome _
  | balance cpu => exact ⟨h.balance cpu, nofun, nofun⟩
  | reap id => exact (h.reap id).outcome _

theorem Reaches.ok (h : Reaches rules P k t) (hP : ∀ t op, P t op → A → op.Placeable t) : t.Ok A k := by
  induction h with
  | new hn hcpus priority => exact ⟨_, inv_new⟩
  | step op _ hp hk ih => exact (ih.step op (hP _ op hp) hk).1

/-- What holds in every run, whatever becomes of affinities. -/
theorem Reaches.sound (h : Reaches rules P k t) : t.Ok False k :=
  h.ok fun _ _ _ => nofun

/-- In every run whose changes of affinity find a CPU for a thread they displace, the check holds,
no thread switches to itself and no broken invariant is reported; a change of affinity that does
not find one is the only operation after which the check fails. -/
theorem check_holds (h : Reaches rules (fun t op => op.Placeable t) k t) :
    t.check = .ok () ∧ ∀ op : Op, k + (t.step rules op).2.created < 2 ^ 32 →
      (((t.step rules op).1.check = .ok () ∧ (t.step rules op).2.Sound) ↔ op.Placeable t) := by
  have hok : t.Ok True k := h.ok fun _ _ hp _ => hp
  obtain ⟨ls, hinv⟩ := hok
  refine ⟨hinv.check trivial, fun op hk => ⟨?_, fun hp => ?_⟩⟩
  · rintro ⟨hcheck, -⟩
    cases op with
    | setAffinity id affinity => exact (check_setAffinity ⟨ls, hinv⟩ id affinity).mp hcheck
    | _ => trivial
  · obtain ⟨⟨ls', h'⟩, hsound⟩ := Ok.step ⟨ls, hinv⟩ op (fun _ => hp) hk
    exact ⟨h'.check trivial, hsound⟩

theorem five_lt : 5 < 32 := by decide

/-- Two CPUs, of which only the first has joined, and room for two threads. -/
def pair : Threads 2 2 := .new Nat.two_pos Nat.two_pos ⟨5, five_lt⟩

/-- Stacks of 256 bytes, aligned to 16. -/
def pairRules : StackRules := ⟨16, 256⟩

/-- A thread that may use both. -/
def pairSpawn : Op := .spawnOn ⟨5, five_lt⟩ 4096 1024 3#64 0 false

theorem check_holds_spawn : (pair.step pairRules pairSpawn).1.check = .ok () ∧
      ((pair.step pairRules pairSpawn).1.step pairRules (.yieldOn 0)).1.check = .ok () := by
  have h : Reaches pairRules (fun t op => op.Placeable t) 1 (pair.step pairRules pairSpawn).1 :=
    .step pairSpawn (.new (by decide) (by decide) 5) trivial (by decide +kernel)
  obtain ⟨hcheck, hstep⟩ := check_holds h
  exact ⟨hcheck, ((hstep (.yieldOn 0) (by decide +kernel)).mpr trivial).1⟩

/-- The thread, ready on the first CPU, is told to use only the second. -/
theorem check_fails :
    ¬∀ (k : Nat) (t : Threads 2 2), Reaches pairRules (fun _ _ => True) k t → t.check = .ok () := by
  intro hall
  have h : Reaches pairRules (fun _ _ => True) 1 (pair.step pairRules pairSpawn).1 :=
    .step pairSpawn (.new (by decide) (by decide) 5) trivial (by decide +kernel)
  have hfail := hall 1 _ (.step (.setAffinity 1 2#64) h trivial (by decide +kernel))
  revert hfail
  decide +kernel

end Kintane.Threads
