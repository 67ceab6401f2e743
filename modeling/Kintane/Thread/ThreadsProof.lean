import Kintane.Sched.RunQueueRuns
import Kintane.Thread.Threads

/-!
# What holds of a thread table

`Inv` ties the slot table, the queues and the current threads together. While a CPU switches, its
current thread has left and the next has not come: `out` is that CPU. Every operation changes one
thread, so each is an instance of one replacement lemma.
-/

open List Function

namespace Kintane

open ThreadMeta Option

namespace ThreadMeta

variable {cpus : Nat} (m : ThreadMeta cpus)

def readyOn : Option (Fin cpus) := if m.state = .ready then some m.cpu else none

def runsOn : Option (Fin cpus) := if m.state = .running then some m.cpu else none

def entry : Queued := (m.id, m.priority)

variable {m} {c : Fin cpus}

theorem readyOn_eq_some : m.readyOn = some c ↔ m.state = .ready ∧ m.cpu = c := by
  unfold readyOn
  split <;> next h => simp [h]

theorem runsOn_eq_some : m.runsOn = some c ↔ m.state = .running ∧ m.cpu = c := by
  unfold runsOn
  split <;> next h => simp [h]

theorem runsOn_eq_none : m.runsOn = none ↔ m.state ≠ .running := by
  unfold runsOn
  split <;> next h => simp [h]

end ThreadMeta

namespace Threads

variable {A : Prop} {n cpus : Nat} {t u : Threads n cpus} {k : Nat} {out out' : Option (Fin cpus)}
variable {ls ls' : Fin cpus → List Queued}
variable {i j : Fin n} {m w : ThreadMeta cpus} {c : Fin cpus} {x : Queued}

/-- `k` threads have been created, and `ls c` is what is queued on `c`. Of affinities it speaks only
if `A`: one operation can leave a thread where it may not be, and nothing else depends on it. -/
structure Inv (A : Prop) (t : Threads n cpus) (k : Nat) (ls : Fin cpus → List Queued)
    (out : Option (Fin cpus)) : Prop where
  holds : ∀ c, (t.runq c).Holds (ls c)
  queued : ∀ c x, x ∈ ls c ↔ ∃ i m, t.metas i = some m ∧ m.entry = x ∧ m.readyOn = some c
  unique : ∀ {i j m w}, t.metas i = some m → t.metas j = some w → m.id = w.id → i = j
  runs : ∀ c, out ≠ some c → ∀ i, t.current c = some i ↔ ∃ m, t.metas i = some m ∧ m.runsOn = some c
  gone : ∀ c, out = some c → ∀ i m, t.metas i = some m → m.runsOn ≠ some c
  allowed : A → ∀ i m, t.metas i = some m → m.state = .ready ∨ m.idle = true →
    m.affinity.contains m.cpu = true
  bound : ∀ i m, t.metas i = some m → m.id ≤ k
  nextId : t.nextId = (k + 1) % 2 ^ 32

theorem inv_new {hn : 0 < n} {hcpus : 0 < cpus} {priority : Priority} :
    (new hn hcpus priority).Inv A 0 (fun _ => []) none := by
  have hmetas : ∀ i m, (new hn hcpus priority).metas i = some m →
      i = ⟨0, hn⟩ ∧ m = ⟨0, priority, .running, ⟨0, hcpus⟩, CpuSet.all cpus, false⟩ := by
    intro i m hm
    by_cases hi : i = ⟨0, hn⟩
    · subst hi
      exact ⟨rfl, by simpa [new, eq_comm] using hm⟩
    · simp [new, hi] at hm
  have hself : (new hn hcpus priority).metas ⟨0, hn⟩ =
      some ⟨0, priority, .running, ⟨0, hcpus⟩, CpuSet.all cpus, false⟩ := by
    simp [new]
  constructor
  case holds => exact fun _ => RunQueue.holds_new
  case queued =>
    refine fun c x => iff_of_false not_mem_nil ?_
    rintro ⟨i, m, hm, -, hready⟩
    obtain ⟨-, rfl⟩ := hmetas i m hm
    simp [readyOn] at hready
  case unique =>
    intro i j m w hi hj _
    rw [(hmetas i m hi).1, (hmetas j w hj).1]
  case runs =>
    intro c _ i
    constructor
    · intro hcur
      by_cases hc : c = ⟨0, hcpus⟩
      · subst hc
        obtain rfl : (⟨0, hn⟩ : Fin n) = i := by simpa [new] using hcur
        exact ⟨_, hself, by simp [runsOn]⟩
      · simp [new, hc] at hcur
    · rintro ⟨m, hm, hrun⟩
      obtain ⟨rfl, rfl⟩ := hmetas i m hm
      obtain rfl : (⟨0, hcpus⟩ : Fin cpus) = c := by simpa [runsOn] using hrun
      simp [new]
  case gone => exact fun c hc => by cases hc
  case allowed =>
    intro _ i m hm h
    obtain ⟨-, rfl⟩ := hmetas i m hm
    simp at h
  case bound =>
    intro i m hm
    obtain ⟨-, rfl⟩ := hmetas i m hm
    exact le_refl 0
  case nextId => rfl

/-! ## Finding threads -/

theorem lookup_eq_some (h : t.lookup x.1 = some (i, m)) : t.metas i = some m ∧ m.id = x.1 := by
  obtain ⟨j, hj, h⟩ := bind_eq_some_iff.mp h
  obtain ⟨w, hm', heq⟩ := map_eq_some_iff.mp h
  cases heq
  refine ⟨hm', ?_⟩
  have := find?_some hj
  simpa [hm'] using this

namespace Inv

variable (h : t.Inv A k ls out)
include h

theorem lookup_of_meta (hm : t.metas i = some m) : t.lookup m.id = some (i, m) := by
  unfold lookup
  cases hj : t.indexOf m.id with
  | none =>
    have := find?_eq_none.mp hj i (mem_finRange i)
    simp [hm] at this
  | some j =>
    have hid := find?_some hj
    obtain ⟨w, hm', hid⟩ : ∃ w, t.metas j = some w ∧ w.id = m.id := by
      cases hm' : t.metas j with
      | none => simp [hm'] at hid
      | some w => exact ⟨w, rfl, by simpa [hm'] using hid⟩
    obtain rfl := h.unique hm' hm hid
    rw [bind_some, hm]
    rfl

/-- A queued thread's slot. -/
theorem exists_meta (hx : x ∈ ls c) :
    ∃ i m, t.lookup x.1 = some (i, m) ∧ t.metas i = some m ∧ m.entry = x ∧ m.readyOn = some c := by
  obtain ⟨i, m, hm, rfl, hready⟩ := (h.queued c x).mp hx
  exact ⟨i, m, h.lookup_of_meta hm, hm, rfl, hready⟩

theorem eq_entry (hm : t.metas i = some m) (hx : x ∈ ls c) (hid : x.1 = m.id) :
    x = m.entry ∧ m.readyOn = some c := by
  obtain ⟨j, w, hm', rfl, hready⟩ := (h.queued c x).mp hx
  obtain rfl := h.unique hm' hm hid
  cases hm'.symm.trans hm
  exact ⟨rfl, hready⟩

/-- With a slot whose thread is not on a queue, the queue has room. -/
theorem room (hi : ∀ m, t.metas i = some m → m.readyOn ≠ some c) : (ls c).length < n := by
  have hsub : (ls c).map Prod.fst ⊆
      ((List.finRange n).erase i).filterMap fun j => (t.metas j).map (·.id) := by
    intro id hid
    obtain ⟨x, hx, rfl⟩ := mem_map.mp hid
    obtain ⟨j, m, hm, rfl, hready⟩ := (h.queued c x).mp hx
    refine mem_filterMap.mpr ⟨j, ?_, by rw [hm]; rfl⟩
    rw [(nodup_finRange n).mem_erase_iff]
    refine ⟨?_, mem_finRange j⟩
    rintro rfl
    exact hi m hm hready
  have hlen := ((h.holds c).ids.subperm hsub).length_le
  have hlen' := length_filterMap_le (fun j => (t.metas j).map (·.id)) ((List.finRange n).erase i)
  rw [length_erase_of_mem (mem_finRange i), length_finRange] at hlen'
  rw [length_map] at hlen
  have hpos := i.pos
  omega

end Inv

/-! ## One slot changes -/

/-- `u` is `t` with slot `i` holding `b`, and what is queued changed accordingly. -/
structure Changes (A : Prop) (t u : Threads n cpus) (ls ls' : Fin cpus → List Queued) (i : Fin n)
    (b : Option (ThreadMeta cpus)) : Prop where
  metas : u.metas = update t.metas i b
  holds : ∀ c, (u.runq c).Holds (ls' c)
  queued : ∀ c x, x ∈ ls' c ↔ (x ∈ ls c ∧ ∀ m, t.metas i = some m → x.1 ≠ m.id) ∨
    ∃ w, b = some w ∧ x = w.entry ∧ w.readyOn = some c
  fresh : ∀ w, b = some w → ∀ j m, j ≠ i → t.metas j = some m → m.id ≠ w.id
  allowed : A → ∀ w, b = some w → w.state = .ready ∨ w.idle = true → w.affinity.contains w.cpu = true

namespace Changes

variable {b : Option (ThreadMeta cpus)} {k' : Nat} (hr : t.Changes A u ls ls' i b) (h : t.Inv A k ls out)

include hr in
theorem metas_iff : u.metas j = some w ↔ (j = i ∧ b = some w) ∨ (j ≠ i ∧ t.metas j = some w) := by
  rw [hr.metas]
  by_cases hj : j = i <;> simp [hj]

include hr h

/-- Everything but which threads run where. -/
theorem inv (hk : k ≤ k') (hbound : ∀ w, b = some w → w.id ≤ k') (hnext : u.nextId = (k' + 1) % 2 ^ 32)
    (hruns : ∀ c, out' ≠ some c → ∀ j, u.current c = some j ↔ ∃ m, u.metas j = some m ∧ m.runsOn = some c)
    (hgone : ∀ c, out' = some c → ∀ j m, u.metas j = some m → m.runsOn ≠ some c) :
    u.Inv A k' ls' out' where
  holds := hr.holds
  queued c x := by
    rw [hr.queued]
    constructor
    · rintro (⟨hx, hid⟩ | ⟨w, hw, rfl, hready⟩)
      · obtain ⟨j, mj, hj, rfl, hready⟩ := (h.queued c x).mp hx
        exact ⟨j, mj, hr.metas_iff.mpr (.inr ⟨fun heq => hid mj (heq ▸ hj) rfl, hj⟩), rfl, hready⟩
      · exact ⟨i, w, hr.metas_iff.mpr (.inl ⟨rfl, hw⟩), rfl, hready⟩
    · rintro ⟨j, mj, hj, rfl, hready⟩
      rcases hr.metas_iff.mp hj with ⟨-, hw⟩ | ⟨hne, hj⟩
      · exact .inr ⟨mj, hw, rfl, hready⟩
      · exact .inl ⟨(h.queued c _).mpr ⟨j, mj, hj, rfl, hready⟩, fun m hm hid => hne (h.unique hj hm hid)⟩
  unique := by
    intro j j' mj mj' hj hj' hid
    rcases hr.metas_iff.mp hj with ⟨rfl, hw⟩ | ⟨hne, hj⟩ <;> rcases hr.metas_iff.mp hj' with ⟨rfl, hw'⟩ | ⟨hne', hj'⟩
    · rfl
    · exact absurd hid.symm (hr.fresh mj hw j' mj' hne' hj')
    · exact absurd hid (hr.fresh mj' hw' j mj hne hj)
    · exact h.unique hj hj' hid
  runs := hruns
  gone := hgone
  allowed hA j mj hj := by
    rcases hr.metas_iff.mp hj with ⟨-, hw⟩ | ⟨-, hj⟩
    · exact hr.allowed hA mj hw
    · exact h.allowed hA j mj hj
  bound j mj hj := by
    rcases hr.metas_iff.mp hj with ⟨-, hw⟩ | ⟨-, hj⟩
    · exact hbound mj hw
    · exact (h.bound j mj hj).trans hk
  nextId := hnext

end Changes

/-- The thread in slot `i` is changed from `m` to `w`. -/
structure Replaces (A : Prop) (t u : Threads n cpus) (ls ls' : Fin cpus → List Queued)
    (i : Fin n) (m w : ThreadMeta cpus) : Prop extends t.Changes A u ls ls' i (some w) where
  old : t.metas i = some m
  id : w.id = m.id
  nextId : u.nextId = t.nextId

namespace Replaces

variable (hr : t.Replaces A u ls ls' i m w) (h : t.Inv A k ls out)

include hr in
theorem exists_runs_iff (hrun : j = i → (w.runsOn = some c ↔ m.runsOn = some c)) :
    (∃ m, u.metas j = some m ∧ m.runsOn = some c) ↔ ∃ m, t.metas j = some m ∧ m.runsOn = some c := by
  by_cases hj : j = i
  · subst hj
    simp only [hr.metas_iff, hr.old]
    simpa using hrun rfl
  · simp [hr.metas_iff, hj]

include hr h

theorem inv (hruns : ∀ c, out' ≠ some c → ∀ j,
      u.current c = some j ↔ ∃ m, u.metas j = some m ∧ m.runsOn = some c)
    (hgone : ∀ c, out' = some c → ∀ j m, u.metas j = some m → m.runsOn ≠ some c) :
    u.Inv A k ls' out' := by
  refine hr.toChanges.inv h le_rfl (fun w' hw => ?_) (hr.nextId.trans h.nextId) hruns hgone
  rw [← some.inj hw, hr.id]
  exact h.bound i m hr.old

/-- A thread that runs where it ran, or as little as before. -/
theorem stays (hcur : u.current = t.current) (hrun : w.runsOn = m.runsOn) : u.Inv A k ls' out := by
  refine hr.inv h (fun c hc j => ?_) (fun c hc j mj hj => ?_)
  · rw [hcur, h.runs c hc, hr.exists_runs_iff fun _ => by rw [hrun]]
  · rcases hr.metas_iff.mp hj with ⟨-, hw⟩ | ⟨-, hj⟩
    · rw [← some.inj hw, hrun]
      exact h.gone c hc i m hr.old
    · exact h.gone c hc j mj hj

end Replaces

namespace Inv

end Inv

namespace Replaces

/-- The thread of a CPU leaves it. -/
theorem leaves (hr : t.Replaces A u ls ls' i m w) (h : t.Inv A k ls none)
    (hcur : u.current = t.current) (hm : m.runsOn = some c) (hm' : w.runsOn = none) :
    u.Inv A k ls' (some c) := by
  refine hr.inv h (fun c' hc j => ?_) (fun c' hc j mj hj hrun => ?_)
  · have hne : c ≠ c' := fun heq => hc (congrArg some heq)
    rw [hcur, h.runs c' nofun, hr.exists_runs_iff]
    rintro -
    rw [hm, hm']
    simp [hne]
  · cases hc
    rcases hr.metas_iff.mp hj with ⟨-, hw⟩ | ⟨hne, hj⟩
    · rw [← some.inj hw, hm'] at hrun
      cases hrun
    · have hruns := (h.runs c nofun _).mpr ⟨_, hj, hrun⟩
      rw [(h.runs c nofun _).mpr ⟨_, hr.old, hm⟩] at hruns
      exact hne (some.inj hruns).symm

/-- A thread comes to run on the CPU that has been left. -/
theorem enters (hr : t.Replaces A u ls ls' i m w) (h : t.Inv A k ls (some c))
    (hcur : u.current = update t.current c (some i)) (hm : m.runsOn = none)
    (hm' : w.runsOn = some c) : u.Inv A k ls' none := by
  refine hr.inv h (fun c' _ j => ?_) nofun
  rw [hcur]
  by_cases hc : c' = c
  · subst hc
    rw [update_self]
    constructor
    · intro hj
      cases hj
      exact ⟨w, hr.metas_iff.mpr (.inl ⟨rfl, rfl⟩), hm'⟩
    · rintro ⟨mj, hj, hrun⟩
      rcases hr.metas_iff.mp hj with ⟨rfl, -⟩ | ⟨-, hj⟩
      · rfl
      · exact absurd hrun (h.gone c' rfl j mj hj)
  · rw [update_of_ne hc, h.runs c' (fun heq => hc (some.inj heq).symm), hr.exists_runs_iff]
    rintro -
    rw [hm, hm']
    simp [Ne.symm hc]

end Replaces

/-! ### What the change does to the queues -/

/-- What is queued once a thread has been taken off its queue and put on its next. -/
def requeued (ls : Fin cpus → List Queued) (m w : ThreadMeta cpus) (c : Fin cpus) :
    List Queued :=
  (ls c).filter (·.1 ≠ m.id) ++ if w.readyOn = some c then [m.entry] else []

namespace Inv

variable (h : t.Inv A k ls out) (hi : t.metas i = some m)
include h hi

section

variable (hm : m.readyOn ≠ some c)

include hm

theorem filter_of_ne : (ls c).filter (·.1 ≠ m.id) = ls c :=
  filter_eq_self.mpr fun _ hx => decide_eq_true fun hid => hm (h.eq_entry hi hx hid).2

theorem requeued_of_ne (hw : w.readyOn ≠ some c) : requeued ls m w c = ls c := by
  rw [requeued, if_neg hw, append_nil, h.filter_of_ne hi hm]

theorem requeued_concat (hw : w.readyOn = some c) : requeued ls m w c = ls c ++ [m.entry] := by
  rw [requeued, if_pos hw, h.filter_of_ne hi hm]

end

variable (hid : w.entry = m.entry)
  (hmetas : u.metas = update t.metas i (some w)) (hnext : u.nextId = t.nextId)
  (hallowed : A → w.state = .ready ∨ w.idle = true → w.affinity.contains w.cpu = true)
include hid hmetas hnext hallowed

theorem replaces (hholds : ∀ c, (u.runq c).Holds (ls' c))
    (hqueued : ∀ c x, x ∈ ls' c ↔ (x ∈ ls c ∧ x.1 ≠ m.id) ∨ (x = m.entry ∧ w.readyOn = some c)) :
    t.Replaces A u ls ls' i m w where
  metas := hmetas
  holds := hholds
  queued c x := by
    rw [hqueued, ← hid]
    simp [hi]
  fresh w' hw j mj hne hj heq := by
    rw [← some.inj hw, show w.id = m.id from congrArg Prod.fst hid] at heq
    exact hne (h.unique hj hi heq)
  allowed hA w' hw := some.inj hw ▸ hallowed hA
  old := hi
  id := congrArg Prod.fst hid
  nextId := hnext

/-- Queued as before. -/
theorem replaces_same (hq : u.runq = t.runq) (hm' : w.readyOn = m.readyOn) : t.Replaces A u ls ls i m w := by
  refine h.replaces hi hid hmetas hnext hallowed (hq ▸ h.holds) fun c x => ⟨fun hx => ?_, ?_⟩
  · rw [hm']
    by_cases hid : x.1 = m.id
    · exact .inr (h.eq_entry hi hx hid)
    · exact .inl ⟨hx, hid⟩
  · rintro (⟨hx, -⟩ | ⟨rfl, hready⟩)
    · exact hx
    · exact (h.queued c _).mpr ⟨i, m, hi, rfl, hm' ▸ hready⟩

theorem replaces_requeued (hholds : ∀ c, (u.runq c).Holds (requeued ls m w c)) :
    t.Replaces A u ls (requeued ls m w) i m w := by
  refine h.replaces hi hid hmetas hnext hallowed hholds fun c x => ?_
  rw [requeued, mem_append, mem_filter, decide_eq_true_eq]
  split <;> next hw => simp [hw]

/-- Taken off a queue, or put on one. -/
theorem replaces_update {q : RunQueue n} (hm : ∀ c' ≠ c, m.readyOn ≠ some c') (hm' : ∀ c' ≠ c, w.readyOn ≠ some c')
    (hq : u.runq = update t.runq c q) (hholds : q.Holds (requeued ls m w c)) :
    t.Replaces A u ls (requeued ls m w) i m w := by
  refine h.replaces_requeued hi hid hmetas hnext hallowed fun c' => ?_
  rw [hq]
  by_cases hc : c' = c
  · subst hc
    simpa using hholds
  · rw [update_of_ne hc, h.requeued_of_ne hi (hm c' hc) (hm' c' hc)]
    exact h.holds c'

end Inv

/-! ## Threads come and go -/

namespace Inv

variable (h : t.Inv A k ls none)
include h

/-- A new thread, in a free slot and under the next number. -/
theorem insert (hi : t.metas i = none) (hid : m.id = k + 1)
    (hmetas : u.metas = update t.metas i (some m)) (hnext : u.nextId = (k + 2) % 2 ^ 32)
    (hholds : ∀ c, (u.runq c).Holds (ls' c))
    (hqueued : ∀ c x, x ∈ ls' c ↔ x ∈ ls c ∨ (x = m.entry ∧ m.readyOn = some c))
    (hruns : ∀ c j, u.current c = some j ↔ t.current c = some j ∨ (j = i ∧ m.runsOn = some c))
    (hallowed : m.affinity.contains m.cpu = true) : u.Inv A (k + 1) ls' none := by
  have hr : t.Changes A u ls ls' i (some m) := by
    refine ⟨hmetas, hholds, fun c x => ?_, fun w hw j mj _ hj heq => ?_, fun _ w hw _ => some.inj hw ▸ hallowed⟩
    · rw [hqueued]
      simp [hi]
    · have := h.bound j mj hj
      rw [heq, ← some.inj hw, hid] at this
      exact Nat.not_succ_le_self k this
  refine hr.inv h (Nat.le_succ k) (fun w hw => some.inj hw ▸ hid.le) hnext (fun c _ j => ?_) nofun
  rw [hruns, h.runs c nofun]
  by_cases hj : j = i
  · subst hj
    simp [hr.metas_iff, hi]
  · simp [hr.metas_iff, hj]

/-- A thread that has exited is forgotten. -/
theorem setMeta_none (hi : t.metas i = some m) (hm : m.state = .exited) :
    (t.setMeta i none).Inv A k ls none := by
  -- it is neither queued nor running
  have hr : t.Changes A (t.setMeta i none) ls ls i none := by
    refine ⟨rfl, h.holds, fun c _ => ?_, nofun, fun _ => nofun⟩
    refine ⟨fun hx => .inl ⟨hx, fun m' hm' hid => ?_⟩, fun hx => (hx.resolve_right nofun).1⟩
    cases hi.symm.trans hm'
    have := (readyOn_eq_some.mp (h.eq_entry hi hx hid).2).1
    cases hm.symm.trans this
  refine hr.inv h le_rfl nofun h.nextId (fun c _ j => ?_) nofun
  show t.current c = some j ↔ _
  rw [h.runs c nofun]
  by_cases hj : j = i
  · subst hj
    simp [hr.metas_iff, hi, runsOn, hm]
  · simp [hr.metas_iff, hj]

end Inv

end Threads

end Kintane
