import Kintane.Thread.ThreadsProof

/-!
# The operations keep the invariant

One lemma for each operation, whatever its arguments and whether it succeeds. A plan that reaches
`plan_next` always gets a switch between two different threads.
-/

open Function

namespace Kintane.Threads

open ThreadMeta Balance

variable {A P : Prop} {n cpus cpu : Nat} {t u : Threads n cpus} {k : Nat} {ls : Fin cpus → List Queued} {i j : Fin n}
  {m w : ThreadMeta cpus} {c last target source : Fin cpus} {x : Queued} {affinity : CpuSet} {priority : Priority}
  {e : ThreadError} {id : ThreadId}

/-- The invariant holds, whatever is queued. -/
def Ok (A : Prop) (t : Threads n cpus) (k : Nat) : Prop := ∃ ls, t.Inv A k ls none

/-- An operation that keeps the table well and reports no broken invariant. -/
abbrev Kept (A : Prop) (k : Nat) {α : Type} (r : Threads n cpus × Except ThreadError α) : Prop :=
  r.1.Ok A k ∧ r.2 ≠ .error .invariantBroken

/-- A plan to switch from the thread in slot `i` to another one. -/
abbrev SwitchesFrom (A : Prop) (k : Nat) (i : Fin n) (r : Threads n cpus × Except ThreadError (Switch n)) : Prop :=
  ∃ next, r.2 = .ok ⟨i, next⟩ ∧ i ≠ next ∧ r.1.Ok A k

/-! ## Placement -/

theorem place_contains {cpu : Fin cpus}
    (hp : t.place affinity last priority = some cpu) : affinity.contains cpu = true := by
  have husable := placeWake_usable hp
  rw [usable, Bool.and_eq_true] at husable
  exact husable.1

/-- A thread is placed exactly when a CPU it may use has joined. -/
theorem place_isSome (hjoined : ∀ c i, t.current c = some i → (t.metas i).isSome) :
    (t.place affinity last priority).isSome = true ↔
      ∃ c : Fin cpus, affinity.contains c = true ∧ (t.current c).isSome = true := by
  rw [place, placeWake_isSome]
  refine exists_congr fun c => ?_
  rw [usable, Bool.and_eq_true]
  refine and_congr_right fun _ => ?_
  show (t.runningMeta c).isSome = true ↔ _
  unfold runningMeta
  cases hcur : t.current c with
  | none => simp
  | some i => simpa using hjoined c i hcur

theorem Inv.current_isSome (h : t.Inv A k ls none) (hcur : t.current c = some i) :
    (t.metas i).isSome = true := by
  obtain ⟨m, hm, -⟩ := (h.runs c nofun i).mp hcur
  rw [hm]
  rfl

/-! ## Enqueueing a thread -/

/-- A thread that is not on a CPU's queue is put there. -/
theorem Inv.enqueue {out : Option (Fin cpus)} (h : t.Inv A k ls out) (hi : t.metas i = some m)
    (hm : m.readyOn ≠ some c) (hw : w.readyOn = some c) :
    ∃ q, (t.runq c).enqueue m.id m.priority = (q, .ok ()) ∧ q.Holds (requeued ls m w c) := by
  have hroom := h.room (i := i) (c := c) fun m' hm' => by
    rw [hi] at hm'
    exact Option.some.inj hm' ▸ hm
  obtain ⟨hok, hholds⟩ := (h.holds c).enqueue (p := m.priority) (fun _ hx => hm (h.eq_entry hi hx rfl).2) hroom
  rw [h.requeued_concat hi hm hw]
  exact ⟨_, Prod.ext rfl hok, hholds⟩

/-! ## Switching -/

theorem Inv.planNext {prev : Fin n} (h : t.Inv A k ls (some c)) (hcur : t.current c = some prev)
    (hx : RunQueue.IsNext (ls c) x) (hprev : ∀ m, t.metas prev = some m → m.id ≠ x.1) :
    SwitchesFrom A k prev (t.planNext c) := by
  obtain ⟨hpick, hholds⟩ := (h.holds c).pickNext hx
  obtain ⟨next, m, hlook, hm, hentry, hready⟩ := h.exists_meta hx.mem
  have hid : m.id = x.1 := congrArg Prod.fst hentry
  have hne : prev ≠ next := by
    rintro rfl
    exact hprev m hm hid
  have hlook' : ∀ q, (t.setQueue c q).lookup x.1 = some (next, m) := fun _ => hlook
  generalize hq : (t.runq c).pickNext = r at hpick hholds
  obtain ⟨q, y⟩ := r
  obtain rfl : y = some x := hpick
  have hrun : m.runsOn = none := by
    rw [runsOn_eq_none, (readyOn_eq_some.mp hready).1]
    nofun
  have hrep := h.replaces_update (w := { m with state := .running, cpu := c })
    (u := ((t.setQueue c q).setMeta next (some { m with state := .running, cpu := c })).setCurrent
      c next) hm rfl rfl rfl ?allowed (fun c' hc => by simpa [hready] using hc.symm) (by simp [readyOn]) rfl
    (by simpa [requeued, readyOn, hid] using hholds)
  case allowed =>
    intro hA _
    have := h.allowed hA next m hm (.inl (readyOn_eq_some.mp hready).1)
    rwa [(readyOn_eq_some.mp hready).2] at this
  refine ⟨next, ?_, hne, ?_⟩
  · simp only [Threads.planNext, hcur, hq, hlook', if_neg hne]
  · simp only [Threads.planNext, hcur, hq, hlook', if_neg hne]
    exact ⟨_, hrep.enters h rfl hrun (by simp [runsOn])⟩

theorem currentOn_eq_some (hc : t.currentOn cpu = some (c, i)) : t.current c = some i := by
  obtain ⟨c', -, hc⟩ := Option.bind_eq_some_iff.mp hc
  obtain ⟨i', hi, heq⟩ := Option.map_eq_some_iff.mp hc
  cases heq
  exact hi

/-- A plan that is not a switch of a thread to itself, nor the error that says it would be. -/
def Sound (r : Except ThreadError (Switch n)) : Prop :=
  r ≠ .error .invariantBroken ∧ ∀ sw, r = .ok sw → sw.prev ≠ sw.next

theorem sound_error (he : e ≠ .invariantBroken) : Sound (.error e : Except ThreadError (Switch n)) :=
  ⟨fun h => he (Except.error.inj h), nofun⟩

/-- The queue of a CPU whose queue is not empty has a next thread. -/
theorem Inv.exists_next (h : t.Inv A k ls none) (hc : ls c ≠ []) :
    ∃ x, (t.runq c).peek = some x ∧ RunQueue.IsNext (ls c) x := by
  cases hp : (t.runq c).peek with
  | none => exact absurd ((h.holds c).peek_eq_none hp) hc
  | some x => exact ⟨x, rfl, (h.holds c).peek_eq_some hp⟩

theorem Ok.planLeave (h : t.Ok A k) (cpu : Nat) {state : ThreadState}
    (hs : state = .blocked ∨ state = .exited) :
    (t.planLeave cpu state).1.Ok A k ∧ Sound (t.planLeave cpu state).2 := by
  unfold Threads.planLeave
  split
  · exact ⟨h, sound_error nofun⟩
  rename_i c slot hcur
  obtain ⟨ls, h⟩ := h
  have hcur := currentOn_eq_some hcur
  obtain ⟨m, hm, hrun⟩ := (h.runs c nofun slot).mp hcur
  obtain ⟨hstate, hcpu⟩ := runsOn_eq_some.mp hrun
  split
  · exact ⟨⟨ls, h⟩, sound_error nofun⟩
  rename_i hne
  rw [(h.holds c).isEmpty_iff] at hne
  obtain ⟨x, -, hx⟩ := h.exists_next hne
  rw [hm, Option.map_some]
  have hnot : ∀ {s : ThreadState}, s ≠ .ready → ({ m with state := s }).readyOn = none := by
    simp [readyOn]
  have hstates : state ≠ .ready ∧ state ≠ .running := by
    rcases hs with rfl | rfl <;> decide
  have hrep := h.replaces_same (w := { m with state })
    (u := t.setMeta slot (some { m with state })) hm rfl rfl rfl ?allowed rfl ?ready
  case allowed =>
    intro hA hor
    exact h.allowed hA slot m hm (.inr (hor.resolve_left hstates.1))
  case ready =>
    rw [hnot hstates.1]
    simp [readyOn, hstate]
  have h' := hrep.leaves h rfl hrun (by simp [runsOn, hstates.2])
  have hprev : ∀ m', (t.setMeta slot (some { m with state })).metas slot = some m' →
      m'.id ≠ x.1 := by
    intro m' hm' hid
    rw [show (t.setMeta slot _).metas slot = _ from update_self ..] at hm'
    cases hm'
    -- the thread that leaves was running, so it is on no queue
    have := (h.eq_entry hm hx.mem hid.symm).2
    simp [readyOn, hstate] at this
  obtain ⟨next, hres, hne, hok⟩ := h'.planNext hcur hx hprev
  rw [hres]
  refine ⟨hok, by simp, ?_⟩
  rintro sw ⟨⟩
  exact hne

theorem Ok.wakeOn (h : t.Ok A k) (id : ThreadId) : Kept A k (t.wakeOn id) := by
  unfold Threads.wakeOn
  split
  · exact ⟨h, by simp⟩
  rename_i slot m hlook
  split
  · exact ⟨h, by simp⟩
  rename_i hstate
  rw [not_not] at hstate
  split
  · exact ⟨h, by simp⟩
  rename_i cpu hcpu
  obtain ⟨ls, h⟩ := h
  obtain ⟨hm, hid⟩ := lookup_eq_some (x := (id, 0)) hlook
  change m.id = id at hid
  have hready : m.readyOn = none := by simp [readyOn, hstate]
  obtain ⟨q, hq, hholds⟩ := h.enqueue (w := { m with state := .ready, cpu }) hm (by rw [hready]; simp)
    (if_pos rfl)
  rw [← hid, hq]
  -- an idle thread goes back to its CPU, another to one it may use
  have hallowed (hA : A) : m.affinity.contains cpu = true := by
    split at hcpu
    · next hidle =>
      cases hcpu
      exact h.allowed hA slot m hm (.inr hidle)
    · exact place_contains hcpu
  have hrep := h.replaces_update (w := { m with state := .ready, cpu })
    (u := { (t.setQueue cpu q).setMeta slot (some { m with state := .ready, cpu }) with
      migrations := t.migrations + if cpu = m.cpu then 0 else 1 })
    hm rfl rfl rfl (fun hA _ => hallowed hA) (by simp [hready]) (by simp [readyOn, eq_comm]) rfl hholds
  refine ⟨⟨_, hrep.stays h rfl ?_⟩, by simp⟩
  simp [runsOn, hstate]

theorem setMeta_self (hm : t.metas i = some m) : t.setMeta i (some m) = t := by
  rw [setMeta, ← hm, update_eq_self]

/-- A queued thread, its affinity changed before or not, is moved to a CPU it may use. -/
theorem Inv.moveQueued (h : t.Inv A k ls none) (hm : t.metas i = some m) (hready : m.readyOn = some c)
    (hallowed : affinity.contains target = true) :
    ((t.setMeta i (some { m with affinity })).moveQueued i c target).1.Ok A k ∧
      ((t.setMeta i (some { m with affinity })).moveQueued i c target).2 = .ok () := by
  obtain ⟨hstate, hcpu⟩ := readyOn_eq_some.mp hready
  have hself : (t.setMeta i (some { m with affinity })).metas i = some { m with affinity } :=
    update_self ..
  have hrunq : (t.setMeta i (some { m with affinity })).runq = t.runq := rfl
  simp only [Threads.moveQueued, hself, hrunq]
  split
  · next heq =>
    have hrep := h.replaces_same (w := { m with affinity })
      (u := t.setMeta i (some { m with affinity })) hm rfl rfl rfl
      (fun _ _ => by rw [hcpu, heq]; exact hallowed) rfl rfl
    exact ⟨⟨_, hrep.stays h rfl rfl⟩, rfl⟩
  · next hne =>
    have hready' : ({ m with affinity, cpu := target } : ThreadMeta cpus).readyOn = some target := if_pos hstate
    obtain ⟨q, hq, hholds⟩ := h.enqueue hm (by rw [hready]; simpa using hne) hready'
    have hmem : (m.id, m.priority) ∈ ls c := (h.queued c _).mpr ⟨i, m, hm, rfl, hready⟩
    obtain ⟨hrem, hholds'⟩ := (h.holds c).remove hmem
    have hsource : update t.runq target q c = t.runq c := update_of_ne hne ..
    generalize hq' : (t.runq c).remove m.id = r at hrem hholds'
    obtain ⟨q', r⟩ := r
    obtain rfl : r = .ok m.priority := hrem
    simp only [hq, setQueue, hrunq, hsource, hq']
    have hrep := h.replaces_requeued (w := { m with affinity, cpu := target })
      (u := { ((t.setQueue target q).setQueue c q').setMeta i
        (some { m with affinity, cpu := target }) with migrations := t.migrations + 1 })
      hm rfl rfl rfl (fun _ _ => hallowed) fun d => ?holds
    case holds =>
      show (update (update t.runq target q) c q' d).Holds _
      by_cases hd : d = c
      · subst hd
        simpa [requeued, hready', Ne.symm hne] using hholds'
      rw [update_of_ne hd]
      by_cases hd' : d = target
      · subst hd'
        simpa using hholds
      · rw [update_of_ne hd', h.requeued_of_ne hm (by simpa [hready] using Ne.symm hd)
          (by simpa [hready'] using Ne.symm hd')]
        exact h.holds d
    have hok : Ok A _ k := ⟨_, hrep.stays h rfl (by simp [runsOn, hstate])⟩
    refine ⟨?_, trivial⟩
    simpa only [setMeta, setQueue, update_idem] using hok

theorem Ok.reap (h : t.Ok A k) (id : ThreadId) : Kept A k (t.reap id) := by
  unfold Threads.reap
  split
  · exact ⟨h, nofun⟩
  rename_i slot m hlook
  obtain ⟨ls, h⟩ := h
  obtain ⟨hm, -⟩ := lookup_eq_some (x := (id, 0)) hlook
  split
  · next hstate => exact ⟨⟨ls, h.setMeta_none hm hstate⟩, nofun⟩
  · exact ⟨⟨ls, h⟩, nofun⟩

/-! ## New threads -/

theorem Inv.nextId_eq (h : t.Inv A k ls none) (hk : k + 1 < 2 ^ 32) : t.nextId = k + 1 := by
  rw [h.nextId, Nat.mod_eq_of_lt hk]

theorem Inv.bumpId_nextId (h : t.Inv A k ls none) : t.bumpId.nextId = (k + 2) % 2 ^ 32 := by
  show (t.nextId + 1) % 2 ^ 32 = _
  rw [h.nextId, Nat.mod_add_mod]

theorem freeSlot_eq_some (hi : t.freeSlot = some i) : t.metas i = none := by
  have := List.find?_some hi
  simpa using this

/-- How many threads an operation with that result has created. -/
def made (r : Except ThreadError ThreadId) : Nat :=
  match r with
  | .ok _ => 1
  | .error _ => 0

theorem contains_of_fits {idle : Bool} (h : ¬(!affinityFits affinity c idle) = true) :
    affinity.contains c = true := by
  simp only [affinityFits] at h
  simp at h
  exact h.1

theorem Ok.adopt (h : t.Ok A k) (cpu : Nat) (priority : Priority) (affinity : CpuSet) (idle : Bool)
    (hk : k + made (t.adopt cpu priority affinity idle).2 < 2 ^ 32) :
    Kept A (k + made (t.adopt cpu priority affinity idle).2) (t.adopt cpu priority affinity idle) := by
  unfold Threads.adopt at hk ⊢
  split
  · exact ⟨h, nofun⟩
  rename_i c hc
  split
  · exact ⟨h, nofun⟩
  rename_i hcur
  split
  · exact ⟨h, nofun⟩
  rename_i hfits
  split
  · exact ⟨h, nofun⟩
  rename_i slot hfree
  obtain ⟨ls, h⟩ := h
  simp only [hc, hcur, hfits, hfree, made] at hk
  have hcur : t.current c = none := by simpa using hcur
  refine ⟨⟨ls, h.insert (freeSlot_eq_some hfree) (h.nextId_eq hk) rfl h.bumpId_nextId
    h.holds (fun c' x => ?_) (fun c' j => ?_) (contains_of_fits hfits)⟩, nofun⟩
  · simp [readyOn]
  · show update t.current c (some slot) c' = some j ↔ _
    by_cases hc' : c' = c
    · subst hc'
      simp [hcur, runsOn, eq_comm]
    · simp [hc', runsOn, Ne.symm hc']

/-- The next number is on no queue, and with a free slot there is room. -/
theorem Inv.enqueue_next (h : t.Inv A k ls none) (hk : k + 1 < 2 ^ 32) (hi : t.metas i = none)
    (priority : Priority) :
    ∃ q, (t.runq c).enqueue t.nextId priority = (q, .ok ()) ∧
      q.Holds (ls c ++ [(t.nextId, priority)]) := by
  have hroom := h.room (i := i) (c := c) fun m hm => by
    cases hi.symm.trans hm
  have hnot : ∀ p, (t.nextId, p) ∉ ls c := by
    intro p hp
    obtain ⟨j, m, hm, heq, -⟩ := (h.queued c _).mp hp
    have hid : m.id = t.nextId := congrArg Prod.fst heq
    have hle := h.bound j m hm
    rw [hid, h.nextId_eq hk] at hle
    exact Nat.not_succ_le_self k hle
  obtain ⟨hok, hholds⟩ := (h.holds c).enqueue (p := priority) hnot hroom
  exact ⟨_, Prod.ext rfl hok, hholds⟩

theorem Ok.spawnOn (h : t.Ok A k) (rules : StackRules) (priority : Priority) (top size : Nat)
    (affinity : CpuSet) (cpu : Nat) (idle : Bool)
    (hk : k + made (t.spawnOn rules priority top size affinity cpu idle).2 < 2 ^ 32) :
    Kept A (k + made (t.spawnOn rules priority top size affinity cpu idle).2)
      (t.spawnOn rules priority top size affinity cpu idle) := by
  unfold Threads.spawnOn at hk ⊢
  split
  · exact ⟨h, nofun⟩
  rename_i c hc
  split
  · exact ⟨h, nofun⟩
  rename_i hfits
  simp only
  split
  · exact ⟨h, nofun⟩
  rename_i hstack
  split
  · exact ⟨h, nofun⟩
  rename_i slot hfree
  obtain ⟨ls, h⟩ := h
  simp only [hc, hfits, hstack, hfree] at hk
  generalize hq : (t.runq c).enqueue t.nextId priority = r at hk
  obtain ⟨q, r⟩ := r
  cases r with
  | error e =>
    have hq' : q = t.runq c := by
      have := RunQueue.Holds.enqueue_error (congrArg Prod.snd hq)
      rwa [hq] at this
    subst hq'
    refine ⟨⟨ls, ?_⟩, nofun⟩
    rw [setQueue, update_eq_self]
    exact h
  | ok _ =>
    have hi := freeSlot_eq_some hfree
    obtain ⟨q', hq', hholds⟩ := h.enqueue_next (c := c) hk hi priority
    obtain rfl : q = q' := by
      rw [hq] at hq'
      exact congrArg Prod.fst hq'
    refine ⟨⟨update ls c (ls c ++ [(t.nextId, priority)]), h.insert hi
      (h.nextId_eq hk) rfl h.bumpId_nextId (fun c' => ?_) (fun c' x => ?_) (fun c' j => ?_)
      (contains_of_fits hfits)⟩, nofun⟩
    · show (update t.runq c q c').Holds _
      by_cases hc' : c' = c
      · subst hc'
        simpa using hholds
      · simpa [hc'] using h.holds c'
    · by_cases hc' : c' = c
      · subst hc'
        simp [readyOn, entry]
      · simp [hc', readyOn, Ne.symm hc']
    · show t.current c' = some j ↔ _
      simp [runsOn]

/-! ## Affinities -/

/-- The affinity a thread is given: what of it the table has. -/
def usable (affinity : CpuSet) (cpus : Nat) : CpuSet := affinity.intersect (CpuSet.all cpus)

/-- Where a change of affinity needs a ready thread moved, a CPU it may use has joined. -/
def Placeable (t : Threads n cpus) (id : ThreadId) (affinity : CpuSet) : Prop :=
  ∀ i m, t.lookup id = some (i, m) → m.state = .ready → m.idle = false →
    (usable affinity cpus).isEmpty = false → (usable affinity cpus).contains m.cpu = false →
    ∃ c : Fin cpus, (usable affinity cpus).contains c = true ∧ (t.current c).isSome = true

theorem Inv.place_setMeta (h : t.Inv A k ls none) (a : CpuSet) (affinity : CpuSet) (last : Fin cpus) (priority : Priority) :
    ((t.setMeta i (some { m with affinity := a })).place affinity last priority).isSome = true ↔
      ∃ c : Fin cpus, affinity.contains c = true ∧ (t.current c).isSome = true := by
  refine place_isSome fun c j hcur => ?_
  by_cases hj : j = i
  · subst hj
    simp [setMeta]
  · have := h.current_isSome hcur
    simpa [setMeta, hj] using this

theorem Ok.setAffinity (h : t.Ok A k) (hp : A → t.Placeable id affinity) : Kept A k (t.setAffinity id affinity) := by
  unfold Threads.setAffinity
  split
  · exact ⟨h, by simp⟩
  rename_i i m hlook
  simp only
  split
  · exact ⟨h, by simp⟩
  rename_i hrefuse
  obtain ⟨ls, h⟩ := h
  obtain ⟨hm, -⟩ := lookup_eq_some (x := (id, 0)) hlook
  simp only [Bool.or_eq_true, not_or, Bool.not_eq_true] at hrefuse
  obtain ⟨husable, hidle⟩ := hrefuse
  have hstored (hin : A → m.state = .ready → (usable affinity cpus).contains m.cpu = true) :
      (t.setMeta i (some { m with affinity := usable affinity cpus })).Ok A k := by
    have hrep := h.replaces_same (w := { m with affinity := usable affinity cpus })
      (u := t.setMeta i (some { m with affinity := usable affinity cpus })) hm rfl rfl rfl ?_ rfl rfl
    · exact ⟨_, hrep.stays h rfl rfl⟩
    · rintro hA (hstate | hidle')
      · exact hin hA hstate
      · rw [show m.idle = true from hidle'] at hidle
        cases hidle
  split
  · next hout =>
    obtain ⟨hstate, hcpu⟩ := hout
    have hready : m.readyOn = some m.cpu := by simp [readyOn, hstate]
    split
    · next hnone =>
      refine ⟨hstored fun hA => ?_, by simp⟩
      have hsome := (h.place_setMeta (i := i) (m := m) (usable affinity cpus) _ m.cpu m.priority).mpr
        (hp hA i m hlook hstate hidle husable hcpu)
      rw [usable, hnone] at hsome
      cases hsome
    · next target htarget =>
      obtain ⟨hok, hres⟩ := h.moveQueued hm hready (place_contains htarget)
      exact ⟨hok, hres.trans_ne (by simp)⟩
  · next hin =>
    refine ⟨hstored fun _ hstate => ?_, by simp⟩
    simpa [usable] using fun hcpu => hin ⟨hstate, hcpu⟩

/-! ## Balancing and yielding -/

/-- The thread of a queue entry, if CPU `c` may have it. -/
def movable (t : Threads n cpus) (c : Fin cpus) (x : Queued) : Option (ThreadId × Fin n) :=
  (t.lookup x.1).bind fun (slot, m) => if !m.idle && m.affinity.contains c then some (x.1, slot) else none

/-- The search of a queue for such a thread finds one of its threads, -/
theorem Inv.movable_eq_some (h : t.Inv A k ls none)
    (hmov : (t.runq source).iter.findSome? (t.movable c) = some (id, i)) :
    ∃ m, t.metas i = some m ∧ m.readyOn = some source ∧ m.idle = false ∧ m.affinity.contains c = true := by
  obtain ⟨x, hx, hmov⟩ := List.exists_of_findSome?_eq_some hmov
  obtain ⟨j, m, hlook, hm, -, hready⟩ := h.exists_meta ((h.holds source).mem_iter.mp hx)
  rw [movable, hlook, Option.bind_some] at hmov
  simp only at hmov
  split at hmov
  · next hmay =>
    rw [Bool.and_eq_true, Bool.not_eq_true'] at hmay
    cases hmov
    exact ⟨m, hm, hready, hmay⟩
  · cases hmov

/-- and fails only if there is none. -/
theorem Inv.movable_eq_none (h : t.Inv A k ls none)
    (hnone : (t.runq source).iter.findSome? (t.movable c) = none) (hm : t.metas i = some m)
    (hready : m.readyOn = some source) (hidle : m.idle = false) : m.affinity.contains c = false := by
  have hx : m.entry ∈ (t.runq source).iter :=
    (h.holds source).mem_iter.mpr ((h.queued source _).mpr ⟨i, m, hm, rfl, hready⟩)
  have := List.findSome?_eq_none_iff.mp hnone _ hx
  simpa [movable, entry, h.lookup_of_meta hm, hidle] using this

/-- A pull from a CPU that has a thread to give moves one. -/
theorem Inv.balance (h : t.Inv A k ls none)
    (hon : t.currentOn cpu = some (c, j)) (hsource : pullSource t.loads c = some source) :
    (t.balance cpu).1.Ok A k ∧
      ((t.balance cpu).2 = none ↔ (t.runq source).iter.findSome? (t.movable c) = none) := by
  cases hmov : (t.runq source).iter.findSome? (t.movable c) with
  | none =>
    unfold movable at hmov
    simp only [Threads.balance, hon, hsource, hmov]
    exact ⟨⟨ls, h⟩, trivial⟩
  | some x =>
    obtain ⟨id, slot⟩ := x
    obtain ⟨m, hm, hready, -, hmay⟩ := h.movable_eq_some hmov
    obtain ⟨hok, hres⟩ := h.moveQueued hm hready hmay
    rw [setMeta_self (show t.metas slot = some { m with affinity := m.affinity } from hm)] at hok hres
    unfold movable at hmov
    simp only [Threads.balance, hon, hsource, hmov, hres]
    exact ⟨hok, iff_of_false nofun nofun⟩

theorem Ok.balance (h : t.Ok A k) (cpu : Nat) : (t.balance cpu).1.Ok A k := by
  cases hon : t.currentOn cpu with
  | none => simpa [Threads.balance, hon] using h
  | some x =>
    cases hsource : pullSource t.loads x.1 with
    | none => simpa [Threads.balance, hon, hsource] using h
    | some source => exact (h.elim fun _ h => h.balance hon hsource).1

/-- A running thread goes to a queue, and the next of its CPU's queue takes its place: on the same
queue it waits behind that one. -/
theorem Inv.requeue {q : RunQueue n} (h : t.Inv A k ls none) (migrations : Nat)
    (hcur : t.current c = some i) (hm : t.metas i = some m) (hx : RunQueue.IsNext (ls c) x)
    (hallowed : m.affinity.contains target = true) (horder : target = c → m.priority ≤ x.2)
    (hholds : q.Holds (requeued ls m { m with state := .ready, cpu := target } target)) :
    SwitchesFrom A k i (Threads.planNext (setMeta { t.setQueue target q with migrations } i
      (some { m with state := .ready, cpu := target })) c) := by
  obtain ⟨m', hm', hrun⟩ := (h.runs c nofun i).mp hcur
  obtain rfl : m' = m := Option.some.inj (hm'.symm.trans hm)
  obtain ⟨hstate, -⟩ := runsOn_eq_some.mp hrun
  have hready : m'.readyOn = none := by simp [readyOn, hstate]
  have hrep := h.replaces_update (w := { m' with state := .ready, cpu := target })
    (u := setMeta { t.setQueue target q with migrations } i
      (some { m' with state := .ready, cpu := target }))
    hm rfl rfl rfl (fun _ _ => hallowed) (by simp [hready]) (by simp [readyOn, eq_comm]) rfl hholds
  have h' := hrep.leaves h rfl hrun (by simp [runsOn])
  have hx' : RunQueue.IsNext (requeued ls m' { m' with state := .ready, cpu := target } c) x := by
    by_cases htarget : c = target
    · rw [h.requeued_concat hm (by simp [hready]) (by simp [readyOn, htarget])]
      exact hx.concat (horder htarget.symm)
    · rw [h.requeued_of_ne hm (by simp [hready]) (by simpa [readyOn] using Ne.symm htarget)]
      exact hx
  refine h'.planNext hcur hx' fun w hw hid => ?_
  rw [show (setMeta _ i _).metas i = _ from update_self ..] at hw
  cases hw
  -- the thread that leaves was running, so it was on no queue
  have := (h.eq_entry hm hx.mem hid.symm).2
  cases hready.symm.trans this

/-- On CPU number `cpu`, which is `c`, `m` runs in slot `i` and `x` is the next of the queue. -/
def Faces (t : Threads n cpus) (cpu : Nat) (c : Fin cpus) (i : Fin n) (m : ThreadMeta cpus)
    (x : Queued) : Prop :=
  t.currentOn cpu = some (c, i) ∧ t.metas i = some m ∧ (t.runq c).peek = some x

theorem Faces.exists_iff (h : t.Faces cpu c i m x) (Q : Fin cpus → ThreadMeta cpus → Queued → Prop) :
    (∃ c i m x, t.Faces cpu c i m x ∧ Q c m x) ↔ Q c m x := by
  obtain ⟨hon, hm, hpeek⟩ := h
  constructor
  · rintro ⟨c', i', m', x', ⟨hon', hm', hpeek'⟩, hQ⟩
    cases hon.symm.trans hon'
    cases hm.symm.trans hm'
    cases hpeek.symm.trans hpeek'
    exact hQ
  · exact fun hQ => ⟨c, i, m, x, ⟨hon, hm, hpeek⟩, hQ⟩

/-- What a thread needs to give up its CPU to `x`: `x` is of no lower priority or, where the thread
may no longer be, there is a CPU for it. -/
def Yields (t : Threads n cpus) (c : Fin cpus) (m : ThreadMeta cpus) (x : Queued) : Prop :=
  if m.affinity.contains c = true then m.priority ≤ x.2
  else ∃ d : Fin cpus, m.affinity.contains d = true ∧ (t.current d).isSome = true

/-- Whether a yield switches. -/
def Switches (t : Threads n cpus) (cpu : Nat) : Prop := ∃ c i m x, t.Faces cpu c i m x ∧ t.Yields c m x

/-- The plan of a yield that switches if `P`, and then to another thread. -/
structure Yield (P : Prop) (r : Except ThreadError (Option (Switch n × Option (Fin cpus)))) : Prop where
  sound : r ≠ .error .invariantBroken
  ne : ∀ sw kick, r = .ok (some (sw, kick)) → sw.prev ≠ sw.next
  iff : r.toOption.join.isSome = true ↔ P

theorem yield_none (hP : ¬P) : Yield P (.ok none : Except ThreadError (Option (Switch n × Option (Fin cpus)))) :=
  ⟨nofun, nofun, iff_of_false nofun hP⟩

theorem yield_error (hP : ¬P) (he : e ≠ .invariantBroken) :
    Yield P (.error e : Except ThreadError (Option (Switch n × Option (Fin cpus)))) :=
  ⟨fun h => he (Except.error.inj h), nofun, iff_of_false nofun hP⟩

/-- A yield that switches passes the switch on. -/
theorem yield_switch {r : Except ThreadError (Switch n)} {kick : Option (Fin cpus)}
    (hP : P) (hres : r = .ok ⟨i, j⟩) (hne : i ≠ j) : Yield P (r.map fun sw => some (sw, kick)) := by
  rw [hres]
  refine ⟨nofun, ?_, iff_of_true rfl hP⟩
  rintro sw kick' ⟨⟩
  exact hne

theorem Ok.planYield (h : t.Ok A k) (cpu : Nat) :
    (t.planYield cpu).1.Ok A k ∧ Yield (t.Switches cpu) (t.planYield cpu).2 := by
  unfold Threads.planYield
  split
  · next hon =>
    refine ⟨h, yield_error ?_ (by simp)⟩
    rintro ⟨c, i, m, x, ⟨hon', -⟩, -⟩
    cases hon.symm.trans hon'
  rename_i c slot hon
  have hcur := currentOn_eq_some hon
  obtain ⟨ls, h⟩ := h
  obtain ⟨m, hm, hrun⟩ := (h.runs c (by simp) slot).mp hcur
  have hready : ∀ d, m.readyOn ≠ some d := by
    simp [readyOn, (runsOn_eq_some.mp hrun).1]
  simp only [hm]
  split
  · next hpeek =>
    refine ⟨⟨ls, h⟩, yield_none ?_⟩
    rintro ⟨c', i, m', x, ⟨hon', -, hpeek'⟩, -⟩
    cases hon.symm.trans hon'
    cases hpeek.symm.trans hpeek'
  · next nextId p hpeek =>
    have hx := (h.holds c).peek_eq_some hpeek
    -- the table knows the next thread at the priority it is queued with
    obtain ⟨j, next, hlook, -, hentry, -⟩ := h.exists_meta hx.mem
    obtain rfl : next.priority = p := congrArg Prod.snd hentry
    have hiff : t.Switches cpu ↔ t.Yields c m (nextId, next.priority) :=
      Faces.exists_iff ⟨hon, hm, hpeek⟩ t.Yields
    simp only [hlook]
    split
    · next hstay =>
      refine ⟨⟨ls, h⟩, yield_none ?_⟩
      rw [hiff, Yields, if_pos hstay.2]
      exact not_le_of_gt hstay.1
    rename_i hgo
    split
    · next hnone =>
      refine ⟨⟨ls, h⟩, yield_error ?_ (by simp)⟩
      split at hnone
      · cases hnone
      · next hthere =>
        rw [hiff, Yields, if_neg hthere, ← place_isSome fun _ _ => h.current_isSome, hnone]
        simp
    · next target htarget =>
      obtain ⟨q, hq, hholds⟩ := h.enqueue (w := { m with state := .ready, cpu := target }) hm (hready target)
        (if_pos rfl)
      have hplace : m.affinity.contains target = true ∧ (target = c → m.priority ≤ next.priority) ∧
          t.Switches cpu := by
        rw [hiff, Yields]
        split at htarget
        · next hhere =>
          cases htarget
          have hle : m.priority ≤ next.priority := le_of_not_gt fun hlt => hgo ⟨hlt, hhere⟩
          rw [if_pos hhere]
          exact ⟨hhere, fun _ => hle, hle⟩
        · next hthere =>
          rw [if_neg hthere, ← place_isSome fun _ _ => h.current_isSome, htarget]
          refine ⟨place_contains htarget, ?_, rfl⟩
          rintro rfl
          exact absurd (place_contains htarget) hthere
      obtain ⟨nxt, hres, hne, hok⟩ := h.requeue
        (t.migrations + if target = c then 0 else 1) hcur hm hx hplace.1 hplace.2.1 hholds
      simp only [hq]
      exact ⟨hok, yield_switch hplace.2.2 hres hne⟩

end Kintane.Threads
