import Kintane.Sched.BalanceRuns
import Kintane.Thread.ThreadsRuns

/-!
# What a tickless scheduler is told, and what an idle CPU finds

`contended_on` compares priorities only, while a yield also gives up a CPU that its thread may no
longer use. Balancing looks for a thread on the busiest CPU alone. Both are right up to that, and
the theorems say exactly where.
-/

open Option

namespace Kintane.Threads

open Balance

variable {A : Prop} {n cpus : Nat} {t : Threads n cpus} {k : Nat} {rules : StackRules}
variable {ls : Fin cpus → List Queued} {c d : Fin cpus}

/-! ## Contention -/

theorem Inv.contendedOn_iff (h : t.Inv A k ls none) (cpu : Nat) :
    t.contendedOn cpu = true ↔ ∃ c i m x, t.Faces cpu c i m x ∧ m.priority ≤ x.2 := by
  constructor
  · intro hc
    unfold contendedOn at hc
    split at hc
    · cases hc
    rename_i c i hon
    split at hc
    · cases hc
    rename_i m hm
    obtain ⟨y, hy, hle⟩ := (any_eq_true _ _).mp hc
    obtain ⟨x, hpeek, hlook⟩ := bind_eq_some_iff.mp hy
    obtain ⟨j, w, hlook', -, rfl, -⟩ := h.exists_meta ((h.holds c).peek_eq_some hpeek).mem
    cases hlook.symm.trans hlook'
    exact ⟨c, i, m, w.entry, ⟨hon, hm, hpeek⟩, of_decide_eq_true hle⟩
  · rintro ⟨c, i, m, x, ⟨hon, hm, hpeek⟩, hle⟩
    obtain ⟨j, w, hlook, -, rfl, -⟩ := h.exists_meta ((h.holds c).peek_eq_some hpeek).mem
    simp only [contendedOn, hon, hm, hpeek, bind_some, hlook]
    exact decide_eq_true hle

/-- `contended_on` says whether a yield would switch, unless the running thread may no longer use
its CPU: then only where the next thread is of no lower priority exactly if there is a CPU for the
running one. -/
theorem contendedOn_exact (h : Reaches rules (fun _ _ => True) k t) (cpu : Nat) :
    t.contendedOn cpu = (t.step rules (.yieldOn cpu)).2.switch.isSome ↔
      ∀ c i m x, t.Faces cpu c i m x → m.affinity.contains c = false →
        (m.priority ≤ x.2 ↔ ∃ d : Fin cpus, m.affinity.contains d = true ∧ (t.current d).isSome = true) := by
  obtain ⟨ls, hinv⟩ := h.sound
  have hswitch : (t.step rules (.yieldOn cpu)).2.switch.isSome = (t.planYield cpu).2.toOption.join.isSome :=
    isSome_map
  rw [Bool.eq_iff_iff, hinv.contendedOn_iff, hswitch, (Ok.planYield ⟨ls, hinv⟩ cpu).2.iff, Switches]
  constructor
  · intro hiff c i m x hf haway
    rw [hf.exists_iff fun _ m x => m.priority ≤ x.2, hf.exists_iff t.Yields, Yields, haway] at hiff
    exact hiff
  · intro hall
    refine exists_congr fun c => exists_congr fun i => exists_congr fun m => exists_congr fun x => ?_
    refine and_congr_right fun hf => ?_
    unfold Yields
    split
    · rfl
    · next haway => exact hall c i m x hf (by simpa using haway)

theorem three_lt : 3 < 32 := by decide

/-- Two CPUs and room for three threads. -/
def trio : Threads 3 2 := .new (Nat.succ_pos 2) two_pos ⟨5, five_lt⟩

/-- The second CPU joins, a thread of lower priority waits on the first, and the thread that runs
there is told to use only the second. -/
def trioMoves : List Op :=
  [.adopt 1 ⟨5, five_lt⟩ 3#64 false, .spawnOn ⟨3, three_lt⟩ 4096 1024 3#64 0 false, .setAffinity 0 2#64]

def trioAway : Threads 3 2 := trioMoves.foldl (fun t op => (t.step pairRules op).1) trio

theorem trioAway_reaches : ∃ k, Reaches pairRules (fun _ _ => True) k trioAway := by
  have hnew : Reaches pairRules (fun _ _ => True) 0 trio := .new ..
  exact ⟨_, ((hnew.step _ trivial (by decide +kernel)).step _ trivial (by decide +kernel)).step _ trivial
    (by decide +kernel)⟩

/-- The thread would give up its CPU, to one of lower priority. -/
theorem trioAway_misses :
    trioAway.contendedOn 0 ≠ (trioAway.step pairRules (.yieldOn 0)).2.switch.isSome := by
  decide +kernel

theorem contendedOn_exact_trio : ∃ c i m x, trioAway.Faces 0 c i m x ∧ m.affinity.contains c = false ∧
    ¬(m.priority ≤ x.2 ↔ ∃ d : Fin 2, m.affinity.contains d = true ∧ (trioAway.current d).isSome = true) := by
  obtain ⟨k, h⟩ := trioAway_reaches
  have := (contendedOn_exact h 0).not.mp trioAway_misses
  simpa only [not_forall, exists_prop] using this

/-- So `contendedOn` does not say whether a yield would switch. -/
theorem contendedOn_misses : ¬∀ (k : Nat) (t : Threads 3 2) (cpu : Nat), Reaches pairRules (fun _ _ => True) k t →
    t.contendedOn cpu = (t.step pairRules (.yieldOn cpu)).2.switch.isSome := by
  intro hall
  obtain ⟨k, h⟩ := trioAway_reaches
  exact trioAway_misses (hall k trioAway 0 h)

/-! ## Idle CPUs -/

/-- The CPU runs its idle thread, and nothing else is queued. -/
def Idles (t : Threads n cpus) (c : Fin cpus) : Prop :=
  (t.runningMeta c).any (·.idle) = true ∧ (t.runq c).isEmpty = true

/-- Another CPU that has joined queues a thread that `c` might run. -/
def Spares (t : Threads n cpus) (c d : Fin cpus) : Prop :=
  d ≠ c ∧ (t.current d).isSome = true ∧ ∃ i m, t.metas i = some m ∧ (t.runq d).contains m.id = true ∧
    m.state = .ready ∧ m.idle = false ∧ m.affinity.contains c = true

namespace Inv

variable (h : t.Inv A k ls none)
include h

theorem online_iff (c : Fin cpus) : (t.loads c).online = true ↔ (t.current c).isSome = true := by
  show (t.runningMeta c).isSome = true ↔ _
  unfold runningMeta
  cases hcur : t.current c with
  | none => rfl
  | some i => simpa using h.current_isSome hcur

/-- The thread `c` might run is found where it is queued. -/
theorem spares_iff (hne : d ≠ c) (hon : (t.current d).isSome = true) :
    t.Spares c d ↔ (t.runq d).iter.findSome? (t.movable c) ≠ none := by
  constructor
  · rintro ⟨-, -, i, m, hm, hcontains, -, hidle, hmay⟩ hnone
    rw [h.contains_iff hm] at hcontains
    rw [h.movable_eq_none hnone hm hcontains hidle] at hmay
    cases hmay
  · intro hsome
    obtain ⟨⟨id, i⟩, hmov⟩ := ne_none_iff_exists'.mp hsome
    obtain ⟨m, hm, hready, hidle, hmay⟩ := h.movable_eq_some hmov
    exact ⟨hne, hon, i, m, hm, (h.contains_iff hm).mpr hready,
      (ThreadMeta.readyOn_eq_some.mp hready).1, hidle, hmay⟩

/-- A CPU that queues such a thread makes an idle one pull. -/
theorem pullSource_ne_none (hc : t.Idles c) (hd : t.Spares c d) :
    pullSource t.loads c ≠ none := by
  intro hnone
  obtain ⟨hne, hon, i, m, hm, hcontains, -, hidle, -⟩ := hd
  have hqueue : (t.runq c).iter = [] := by
    refine List.eq_nil_iff_forall_not_mem.mpr fun x hx => ?_
    rw [(h.holds c).mem_iter, (h.holds c).isEmpty_iff.mp hc.2] at hx
    cases hx
  obtain ⟨w, hw, hwidle⟩ := (any_eq_true _ _).mp hc.1
  have hwait : Balance.Waiting t.loads c d := by
    refine ⟨hne, (h.online_iff d).mpr hon, ?_⟩
    refine List.length_pos_of_mem (a := m.entry) (List.mem_filter.mpr ⟨?_, ?_⟩)
    · rw [h.contains_iff hm] at hcontains
      exact (h.holds d).mem_iter.mpr ((h.queued d _).mpr ⟨i, m, hm, rfl, hcontains⟩)
    · simp [ThreadMeta.entry, h.lookup_of_meta hm, hidle]
  have := (pullSource_eq_none hnone (by simp [loads, hw]) hwait).1
  simp [CpuLoad.idle, loads, hw, hwidle, hqueue] at this

end Inv

/-- A CPU that idles gets a thread from balancing whenever another has one for it, exactly if the
busiest then has one. -/
theorem balance_exact (h : Reaches rules (fun _ _ => True) k t) (hc : t.Idles c) :
    ((t.balance c).2 = none → ∀ d, ¬t.Spares c d) ↔
      ∀ d, t.Spares c d → ∃ s, Busiest t.loads c s ∧ t.Spares c s := by
  obtain ⟨ls, h⟩ := h.sound
  obtain ⟨w, hw, -⟩ := (any_eq_true _ _).mp hc.1
  obtain ⟨j, hcur, -⟩ := bind_eq_some_iff.mp hw
  have hon : t.currentOn c = some (c, j) := by
    simp [currentOn, cpuOf, hcur]
  have hpull {d : Fin cpus} (hd : t.Spares c d) :
      ∃ s, Busiest t.loads c s ∧ ((t.balance c).2 = none ↔ ¬t.Spares c s) := by
    obtain ⟨s, hs⟩ := ne_none_iff_exists'.mp (h.pullSource_ne_none hc hd)
    have hbusy := (pullSource_eq_some hs).1
    obtain ⟨hne, hjoined, -⟩ := hbusy.1
    exact ⟨s, hbusy, by rw [(h.balance hon hs).2, h.spares_iff hne ((h.online_iff s).mp hjoined), not_not]⟩
  constructor
  · intro hfinds d hd
    obtain ⟨s, hs, hnone⟩ := hpull hd
    refine ⟨s, hs, ?_⟩
    by_contra hnot
    exact hfinds (hnone.mpr hnot) d hd
  · intro hall hnone d hd
    obtain ⟨s, hs, hspares⟩ := hall d hd
    obtain ⟨s', hs', hiff⟩ := hpull hd
    exact hiff.mp hnone (hs.eq hs' ▸ hspares)

/-- Three CPUs and room for six threads. -/
def six : Threads 6 3 := .new (Nat.succ_pos 5) (Nat.succ_pos 2) ⟨5, five_lt⟩

/-- The third CPU idles. On the first two threads wait that are pinned to it, and on the second one
that may run anywhere. -/
def sixMoves : List Op :=
  [.adopt 1 ⟨5, five_lt⟩ 7#64 false, .adopt 2 ⟨3, three_lt⟩ 4#64 true,
    .spawnOn ⟨5, five_lt⟩ 4096 1024 1#64 0 false, .spawnOn ⟨5, five_lt⟩ 4096 1024 1#64 0 false,
    .spawnOn ⟨5, five_lt⟩ 4096 1024 7#64 1 false]

def sixPinned : Threads 6 3 := sixMoves.foldl (fun t op => (t.step pairRules op).1) six

theorem sixPinned_reaches : ∃ k, Reaches pairRules (fun _ _ => True) k sixPinned := by
  have hnew : Reaches pairRules (fun _ _ => True) 0 six := .new ..
  exact ⟨_, ((((hnew.step _ trivial (by decide +kernel)).step _ trivial (by decide +kernel)).step _ trivial
    (by decide +kernel)).step _ trivial (by decide +kernel)).step _ trivial (by decide +kernel)⟩

/-- The third CPU idles and pulls nothing, with a thread for it on the second. -/
theorem sixPinned_misses : sixPinned.Idles 2 ∧ (sixPinned.balance 2).2 = none ∧ sixPinned.Spares 2 1 := by
  unfold Idles Spares
  decide +kernel

theorem balance_exact_six : ¬∀ d, sixPinned.Spares 2 d →
    ∃ s, Busiest sixPinned.loads 2 s ∧ sixPinned.Spares 2 s := by
  obtain ⟨k, h⟩ := sixPinned_reaches
  obtain ⟨hidles, hnone, hspares⟩ := sixPinned_misses
  intro hall
  exact (balance_exact h hidles).mpr hall hnone 1 hspares

/-- So a balance that moves nothing does not mean that there was nothing to move. -/
theorem balance_misses : ¬∀ (k : Nat) (t : Threads 6 3) (c : Fin 3), Reaches pairRules (fun _ _ => True) k t →
    t.Idles c → (t.balance c).2 = none → ∀ d, ¬t.Spares c d := by
  intro hall
  obtain ⟨k, h⟩ := sixPinned_reaches
  obtain ⟨hidles, hnone, hspares⟩ := sixPinned_misses
  exact hall k sixPinned 2 h hidles hnone 1 hspares

end Kintane.Threads
