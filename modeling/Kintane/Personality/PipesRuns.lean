import Mathlib.Algebra.Group.Prod
import Kintane.Lib.Ring
import Kintane.Lib.Tally
import Kintane.Personality.Pipes

/-!
# Pipe ends are counted exactly

A pipe's count of an end is the number of descriptors that name it, and of ends that calls in progress hold:
a pipe made and not yet placed, ends still to be dropped, copies that `inherit` has counted. Every step keeps
the two sums equal. What is not kept is that a pipe with a count is in use: `inherit` works from a copy of its
parent's descriptors, and counts an end though another thread may have closed the last descriptor of the pipe
meanwhile.
-/

open List

namespace Kintane.Personality

open Tally World End Option

def Pipe.count (p : Pipe) : End → Nat
  | .read => p.readers
  | .write => p.writers

/-- How often a process's descriptors name an end. -/
def Proc.named (e : End) (pipe : Nat) (p : Proc) : Nat := (p.fds.getD []).count (e.of pipe)

/-- How often a call in progress holds an end. -/
def Call.held (e : End) (pipe : Nat) : Call → Nat
  | .placing _ p => if p = pipe then 1 else 0
  | .dropping ends _ => ends.count (pipe, e)
  | .inheriting _ done _ _ => done.count (e.of pipe)
  | _ => 0

namespace World

def named (w : World) (e : End) (pipe : Nat) : Nat := total (Proc.named e pipe) w.procs

def held (w : World) (e : End) (pipe : Nat) : Nat := total (Call.held e pipe) w.calls

/-- No call is in progress. -/
def Quiet (w : World) : Prop := ∀ c ∈ w.calls, c = .finished

/-- Every count is the number of descriptors, and a pipe is in use as long as there are any. -/
def Exact (w : World) : Prop :=
  ∀ p pipe, w.pipes[p]? = some pipe →
    (pipe.used = true → (∀ e, pipe.count e = w.named e p) ∧ ∃ e, 0 < w.named e p) ∧
    (pipe.used = false → ∀ e, w.named e p = 0)

/-- What `inherit` counts in this step is an end of a pipe in use. -/
def countsUsed (w : World) : Action → Bool
  | .advance i =>
    match w.calls[i]? with
    | some (.inheriting _ _ (d :: _) _) => d.names.all fun named => (w.pipes[named.1]?).all (·.used)
    | _ => true
  | _ => true

/-- A run, as long as each of its actions can be taken. -/
def run (w : World) (as : List Action) : Option World := as.foldlM step w

end World

/-- Worlds that steps lead to, in each of which `inherit` counts only ends of pipes in use. -/
inductive Reached : World → Prop where
  | init : Reached .init
  | step {w w' : World} (a : Action) : Reached w → w.countsUsed a = true → w.step a = some w' → Reached w'

/-! ## Tables of descriptors -/

@[simp] theorem End.names_of (e : End) (p : Nat) : (e.of p).names = some (p, e) := by cases e <;> rfl

variable {d d' : Descriptor} {fds fds' : List Descriptor} {n child handles handles' i slot : Nat} {w' w : World}
  {c c' : Call} {f : Proc → Proc}

theorem count_endsOf (fds : List Descriptor) (p : Nat) (e : End) :
    (endsOf fds).count (p, e) = fds.count (e.of p) := by
  induction fds with
  | nil => rfl
  | cons d fds ih =>
    unfold endsOf at ih ⊢
    rw [filterMap_cons, count_cons, ← ih]
    cases d <;> cases e <;> simp [Descriptor.names, of, count_cons]

theorem count_set (h : fds[i]? = some d) (d' a : Descriptor) :
    (fds.set i d').count a + (if d = a then 1 else 0) = fds.count a + if d' = a then 1 else 0 := by
  induction fds generalizing i with
  | nil => cases h
  | cons c fds ih =>
    cases i with
    | zero =>
      cases h
      simp only [set_cons_zero, count_cons, beq_iff_eq]
      omega
    | succ i =>
      have := ih h
      simp only [set_cons_succ, count_cons]
      omega

/-- A descriptor is placed where there was none. -/
theorem place_spec (h : place fds d = some fds') : fds'.length = fds.length ∧
      ∀ (p : Nat) (e : End), fds'.count (e.of p) = fds.count (e.of p) + if d = e.of p then 1 else 0 := by
  obtain ⟨i, hi, rfl⟩ := map_eq_some_iff.mp h
  obtain ⟨hlt, hclosed, -⟩ := findIdx?_eq_some_iff_getElem.mp hi
  have hget : fds[i]? = some .closed := by
    rw [getElem?_eq_getElem hlt, eq_of_beq hclosed]
  refine ⟨length_set, fun p e => ?_⟩
  have hcount := count_set hget d (e.of p)
  have hne : Descriptor.closed ≠ e.of p := by cases e <;> nofun
  rwa [if_neg hne] at hcount

theorem placeBoth_spec {pipe : Nat} (h : placeBoth fds pipe = some fds') : fds'.length = fds.length ∧
      ∀ (p : Nat) (e : End), fds'.count (e.of p) = fds.count (e.of p) + if pipe = p then 1 else 0 := by
  obtain ⟨mid, hmid, hfds'⟩ := bind_eq_some_iff.mp h
  obtain ⟨hlen, hcount⟩ := place_spec hmid
  obtain ⟨hlen', hcount'⟩ := place_spec hfds'
  refine ⟨hlen'.trans hlen, fun p e => ?_⟩
  rw [hcount', hcount]
  cases e <;> simp [of]

/-! ## Who owns a slot -/

/-- How often a call has a slot to itself that has no descriptors, and how often one that has some. -/
def Call.owns (s : Nat) : Call → Nat × Nat
  | .forking _ child => if child = s then (1, 0) else 0
  | .inheriting child _ _ _ => if child = s then (1, 0) else 0
  | .dropping _ (some slot) => if slot = s then (1, 0) else 0
  | .starting child => if child = s then (0, 1) else 0
  | _ => 0

/-- Tables are of full size, nothing is in a free slot, and a slot is claimed by the one call that owns it. -/
structure Proc.Ok (own : Nat × Nat) (p : Proc) : Prop where
  full : ∀ fds, p.fds = some fds → fds.length = maxFds
  free : p.phase = .free → p.fds = none
  alone : own.1 + own.2 ≤ 1
  claimed : 0 < own.1 + own.2 → p.phase = .claimed
  bare : 0 < own.1 → p.fds = none

namespace Proc.Ok

variable {own rest : Nat × Nat} {p : Proc}

/-- Nobody owns a slot that is not claimed. -/
theorem unowned (h : p.Ok own) (hp : p.phase ≠ .claimed) : own = 0 := by
  have := mt h.claimed hp
  exact Prod.ext (by simp; omega) (by simp; omega)

/-- Nobody else owns a slot that a call owns. -/
theorem others (h : p.Ok (rest + own)) (ho : own.1 + own.2 = 1) : rest = 0 := by
  have : rest.1 + own.1 + (rest.2 + own.2) ≤ 1 := h.alone
  exact Prod.ext (by simp; omega) (by simp; omega)

theorem of_unowned (hfull : ∀ fds, p.fds = some fds → fds.length = maxFds) (hfree : p.phase = .free → p.fds = none) :
    p.Ok 0 := ⟨hfull, hfree, Nat.zero_le _, nofun, nofun⟩

theorem of_bare (hphase : p.phase = .claimed) (hfds : p.fds = none) : p.Ok (1, 0) :=
  ⟨fun _ h => (nomatch hfds.symm.trans h), fun _ => hfds, Nat.le_refl _, fun _ => hphase, fun _ => hfds⟩

/-- Descriptors are exchanged. -/
theorem setFds {old : List Descriptor} (h : p.Ok own) (hold : p.fds = some old)
    (hlen : fds.length = old.length) : ({ p with fds := some fds } : Proc).Ok own := by
  have hsome : p.fds ≠ none := by rw [hold]; nofun
  refine ⟨fun fds' hfds' => ?_, fun hfree => absurd (h.free hfree) hsome, h.alone, h.claimed,
    fun hb => absurd (h.bare hb) hsome⟩
  cases hfds'
  rw [hlen, h.full old hold]

end Proc.Ok

/-- What is owned is a slot. -/
def SlotOk (own : Nat × Nat) : Option Proc → Prop
  | none => own = 0
  | some p => p.Ok own

section

variable {p : Proc} {M : Type} [AddCancelCommMonoid M]

theorem procs_onProc (h : w.procs[slot]? = some p) (f : Proc → Proc) (s : Nat) :
    (w.onProc slot f).procs[s]? = if s = slot then some (f p) else w.procs[s]? := by
  show (w.procs.modify slot f)[s]? = _
  rw [getElem?_modify]
  split
  · next hs => subst hs; rw [h]; simp
  · next hs => rw [if_neg (Ne.symm hs)]; simp

/-- A call that has finished before it began; each call begins as one. -/
theorem newCall_eq (w : World) (c : Call) : w.newCall c = (w.newCall .finished).setCall w.calls.length c := by
  unfold newCall setCall
  simp

theorem calls_finished (w : World) : (w.newCall .finished).calls[w.calls.length]? = some .finished := by
  show (w.calls ++ [_])[w.calls.length]? = _
  simp

/-- What one call counts for is part of the sum, and the rest stays when the call moves on. -/
theorem total_call (g : Call → M) (hg : g .finished = 0) (hi : w.calls[i]? = some c) (c' : Call) :
    ∃ rest, total g w.calls = rest + g c ∧ total g (w.calls.set i c') = rest + g c' := by
  have hnone := total_set g hi .finished
  have hnext := total_set g hi c'
  rw [hg, add_zero] at hnone
  rw [← hnone, add_right_comm] at hnext
  exact ⟨_, hnone.symm, add_right_cancel hnext⟩

theorem total_finished (g : Call → M) (hg : g .finished = 0) : total g (w.newCall .finished).calls = total g w.calls := by
  show total g (w.calls ++ [_]) = _
  rw [total_append, total_cons, total_nil, hg, add_zero, add_zero]

theorem onProc_onProc (w : World) (slot : Nat) (f g : Proc → Proc) :
    (w.onProc slot f).onProc slot g = w.onProc slot (g ∘ f) := by
  unfold onProc
  rw [modify_modify_eq]

theorem procs_of_fdsOf (h : w.fdsOf slot = some fds) :
    ∃ p, w.procs[slot]? = some p ∧ p.fds = some fds := bind_eq_some_iff.mp h

theorem procs_of_phaseOf {phase : Phase} (h : w.phaseOf slot = some phase) :
    ∃ p, w.procs[slot]? = some p ∧ p.phase = phase := map_eq_some_iff.mp h

end

/-! ## The invariant -/

/-- `inherit` has at most one handle for each descriptor it has copied. -/
def Call.Ok : Call → Prop
  | .inheriting _ done todo handles => done.length + todo.length = maxFds ∧ handles ≤ done.length
  | _ => True

theorem Call.Ok.copied {done todo : List Descriptor}
    (h : (Call.inheriting child done (d :: todo) handles).Ok) (hh : handles' ≤ handles + 1) :
    (Call.inheriting child (done ++ [d']) todo handles').Ok := by
  simp only [Call.Ok, length_append, length_cons, length_nil] at h ⊢
  omega

/-- What every step preserves: an end counts the descriptors and calls that have it. -/
structure Inv (w : World) : Prop where
  balanced : ∀ (q : Nat) (pipe : Pipe) (e : End), w.pipes[q]? = some pipe → pipe.count e = w.named e q + w.held e q
  used : ∀ (q : Nat) (pipe : Pipe), w.pipes[q]? = some pipe → (pipe.used = true ↔ ∃ e, 0 < pipe.count e)
  slots : ∀ s : Nat, SlotOk (total (Call.owns s) w.calls) w.procs[s]?
  copies : ∀ c ∈ w.calls, c.Ok

namespace Inv

variable {p : Proc}

theorem proc (h : Inv w) (hp : w.procs[slot]? = some p) : p.Ok (total (Call.owns slot) w.calls) := by
  have := h.slots slot
  rwa [hp] at this

/-- The process in a slot that a call owns. -/
theorem owner (h : Inv w) (slot : Nat) (hi : w.calls[i]? = some c) (ho : (c.owns slot).1 + (c.owns slot).2 = 1) :
    ∃ p, w.procs[slot]? = some p ∧ p.phase = .claimed ∧ (0 < (c.owns slot).1 → p.fds = none) := by
  obtain ⟨rest, hrest, -⟩ := total_call (Call.owns slot) rfl hi .finished
  have hok := h.slots slot
  rw [hrest] at hok
  cases hp : w.procs[slot]? with
  | none =>
    rw [hp] at hok
    obtain ⟨h1, h2⟩ := Prod.ext_iff.mp hok
    simp only [Prod.fst_add, Prod.snd_add, Prod.fst_zero, Prod.snd_zero] at h1 h2
    omega
  | some p =>
    rw [hp] at hok
    exact ⟨p, rfl, hok.claimed (by simp; omega), fun hc => hok.bare (Nat.lt_add_left _ hc)⟩

/-- A step of a call that changes a process, and moves ends from the one to the other. -/
theorem move (h : Inv w) (hi : w.calls[i]? = some c) (hp : w.procs[slot]? = some p)
    (hf : ∀ rest, p.Ok (rest + c.owns slot) → (f p).Ok (rest + c'.owns slot))
    (hother : ∀ s, slot ≠ s → c'.owns s = c.owns s) (hc : c'.Ok)
    (hsum : ∀ (e : End) (q : Nat), (f p).named e q + c'.held e q = p.named e q + c.held e q) :
    Inv ((w.onProc slot f).setCall i c') := by
  refine ⟨fun q pipe e hq => ?_, h.used, fun s => ?_, Ring.forall_mem_set h.copies hc i⟩
  · have hnamed : ((w.onProc slot f).setCall i c').named e q + p.named e q = w.named e q + (f p).named e q := by
      show total _ (w.procs.modify slot f) + _ = _
      rw [modify_eq_set_getElem?, hp]
      exact total_set _ hp _
    have hheld : ((w.onProc slot f).setCall i c').held e q + c.held e q = w.held e q + c'.held e q :=
      total_set _ hi c'
    have := h.balanced q pipe e hq
    have := hsum e q
    omega
  · show SlotOk (total _ (w.calls.set i c')) (w.onProc slot f).procs[s]?
    obtain ⟨rest, hold, hnew⟩ := total_call (Call.owns s) rfl hi c'
    rw [procs_onProc hp, hnew]
    split
    · next hs =>
      subst hs
      exact hf rest (hold ▸ h.proc hp)
    · next hs =>
      rw [hother s (Ne.symm hs), ← hold]
      exact h.slots s

theorem finished_iff : Inv (w.newCall .finished) ↔ Inv w := by
  have hheld (e : End) (q : Nat) : (w.newCall .finished).held e q = w.held e q := total_finished _ rfl
  have howns (s : Nat) := total_finished (w := w) (Call.owns s) rfl
  constructor
  · intro h
    exact ⟨fun q pipe e hq => hheld e q ▸ h.balanced q pipe e hq, h.used, fun s => howns s ▸ h.slots s,
      fun c hc => h.copies c (mem_append_left _ hc)⟩
  · intro h
    exact ⟨fun q pipe e hq => (hheld e q).symm ▸ h.balanced q pipe e hq, h.used,
      fun s => (howns s).symm ▸ h.slots s, forall_mem_append.mpr ⟨h.copies, forall_mem_singleton.mpr trivial⟩⟩

/-- A step that changes a process and begins a call, and moves ends from the one to the other. -/
theorem begin (h : Inv w) (hp : w.procs[slot]? = some p) (hf : ∀ own, p.Ok own → (f p).Ok (own + c.owns slot))
    (hother : ∀ s, slot ≠ s → c.owns s = 0) (hc : c.Ok)
    (hsum : ∀ (e : End) (q : Nat), (f p).named e q + c.held e q = p.named e q) : Inv ((w.onProc slot f).newCall c) := by
  rw [newCall_eq]
  exact (finished_iff.mpr h).move (calls_finished w) hp hf hother hc hsum

/-- A step of a call that changes a pipe: the count of each end as what the call holds. -/
theorem onPipe {g : Pipe → Pipe} (h : Inv w) (hi : w.calls[i]? = some c) (hc : c'.Ok)
    (hother : ∀ (e : End) (q : Nat), q ≠ n → c'.held e q = c.held e q)
    (hsum : ∀ (e : End) (pipe : Pipe), w.pipes[n]? = some pipe → c.held e n ≤ pipe.count e →
      (g pipe).count e + c.held e n = pipe.count e + c'.held e n)
    (hused : ∀ pipe : Pipe, w.pipes[n]? = some pipe → ((g pipe).used = true ↔ ∃ e, 0 < (g pipe).count e))
    (hown : ∀ s, c'.owns s = c.owns s) : Inv ((w.onPipe n g).setCall i c') := by
  have hpipes (q : Nat) (pipe : Pipe) (hq : ((w.onPipe n g).setCall i c').pipes[q]? = some pipe) :
      (q = n ∧ ∃ old, w.pipes[n]? = some old ∧ pipe = g old) ∨ (q ≠ n ∧ w.pipes[q]? = some pipe) := by
    change (w.pipes.modify n g)[q]? = some pipe at hq
    rw [getElem?_modify] at hq
    obtain ⟨old, hold, hg⟩ := map_eq_some_iff.mp hq
    by_cases hqn : n = q
    · subst hqn
      exact .inl ⟨rfl, old, hold, by simpa using hg.symm⟩
    · refine .inr ⟨Ne.symm hqn, ?_⟩
      rw [if_neg hqn] at hg
      exact hg ▸ hold
  refine ⟨fun q pipe e hq => ?_, fun q pipe hq => ?_, fun s => ?_, Ring.forall_mem_set h.copies hc i⟩
  · -- what one call holds is part of the sum
    obtain ⟨rest, hold, hnew⟩ := total_call (Call.held e q) rfl hi c'
    show pipe.count e = w.named e q + total (Call.held e q) (w.calls.set i c')
    rcases hpipes q pipe hq with ⟨rfl, old, hat, rfl⟩ | ⟨hne, hat⟩
    · have hbal : _ = _ + total _ _ := h.balanced q old e hat
      have := hsum e old hat (by omega)
      omega
    · have hbal : _ = _ + total _ _ := h.balanced q pipe e hat
      have := hother e q hne
      omega
  · rcases hpipes q pipe hq with ⟨rfl, old, hold, rfl⟩ | ⟨-, hold⟩
    · exact hused old hold
    · exact h.used q pipe hold
  · show SlotOk (total _ (w.calls.set i c')) w.procs[s]?
    obtain ⟨rest, hold, hnew⟩ := total_call (Call.owns s) rfl hi c'
    rw [hnew, hown, ← hold]
    exact h.slots s

/-- A step of a call alone. -/
theorem setCall (h : Inv w) (hi : w.calls[i]? = some c) (hc : c'.Ok)
    (hsum : ∀ (e : End) (q : Nat), c'.held e q = c.held e q)
    (hown : ∀ s, c'.owns s = c.owns s) : Inv (w.setCall i c') := by
  have hsame : w.onPipe w.pipes.length id = w := by
    unfold World.onPipe
    rw [modify_id]
  have hnone (pipe : Pipe) : w.pipes[w.pipes.length]? ≠ some pipe := by simp
  have := h.onPipe (n := w.pipes.length) (g := id) hi hc (fun e q _ => hsum e q)
    (fun e pipe hp => absurd hp (hnone pipe)) (fun pipe hp => absurd hp (hnone pipe)) hown
  rwa [hsame] at this

/-! ## The steps -/

theorem named_some (h : p.fds = some fds) (e : End) (q : Nat) : p.named e q = fds.count (e.of q) := by
  unfold Proc.named
  rw [h]
  rfl

theorem count_noFds (e : End) (q : Nat) : noFds.count (e.of q) = 0 := by
  refine count_eq_zero.mpr fun hmem => ?_
  have := (mem_replicate.mp hmem).2
  cases e <;> cases this

theorem init : Inv World.init where
  balanced q pipe e hq := by
    obtain rfl : pipe = .empty := (mem_replicate.mp (mem_of_getElem? hq)).2
    cases e <;> rfl
  used q pipe hq := by
    obtain rfl : pipe = .empty := (mem_replicate.mp (mem_of_getElem? hq)).2
    refine iff_of_false (by decide) ?_
    rintro ⟨e, he⟩
    cases e <;> cases he
  slots s := by
    cases hp : World.init.procs[s]? with
    | none => rfl
    | some p =>
      obtain rfl := (mem_replicate.mp (mem_of_getElem? hp)).2
      exact .of_unowned nofun fun _ => rfl
  copies c hc := (nomatch hc)

theorem start (h : Inv w) (hs : w.start slot = some w') : Inv w' := by
  unfold World.start at hs
  split at hs
  · next hphase =>
    cases hs
    obtain ⟨p, hp, hfree⟩ := procs_of_phaseOf hphase
    rw [World.setFds, World.setPhase, onProc_onProc]
    have hnone : p.fds = none := (h.proc hp).free hfree
    refine finished_iff.mp (h.begin hp (fun own hok => ?_) (fun s _ => rfl) trivial fun e q => ?_)
    · obtain rfl := hok.unowned (by rw [hfree]; nofun)
      exact .of_unowned (fun fds hfds => some.inj hfds ▸ rfl) nofun
    · have hold : p.named e q = 0 := by unfold Proc.named; rw [hnone]; rfl
      rw [hold]
      show startFds.count (e.of q) = 0
      cases e <;> simp [startFds, of, count_replicate]
  · cases hs

theorem pipe (h : Inv w) (hs : w.pipe slot = some w') : Inv w' := by
  unfold World.pipe at hs
  split at hs
  · obtain ⟨n, hn, hs⟩ := bind_eq_some_iff.mp hs
    cases hs
    obtain ⟨hlt, hunused, -⟩ := findIdx?_eq_some_iff_getElem.mp hn
    -- A pipe that is not in use has no ends.
    have hzero (e : End) (pipe : Pipe) (hpipe : w.pipes[n]? = some pipe) : pipe.count e = 0 := by
      cases (getElem?_eq_getElem hlt).symm.trans hpipe
      by_contra hne
      have := (h.used n _ hpipe).mpr ⟨e, Nat.pos_of_ne_zero hne⟩
      rw [this] at hunused
      cases hunused
    rw [newCall_eq]
    refine (finished_iff.mpr h).onPipe (calls_finished w) trivial ?_ ?_ ?_ fun s => rfl
    · intro e q hq
      exact if_neg (Ne.symm hq)
    · intro e pipe hpipe _
      rw [hzero e pipe hpipe]
      show Pipe.fresh.count e + 0 = 0 + if n = n then 1 else 0
      rw [if_pos rfl]
      cases e <;> rfl
    · exact fun pipe _ => iff_of_true rfl ⟨.read, Nat.one_pos⟩
  · cases hs

theorem close {fd : Nat} (h : Inv w) (hs : w.close slot fd = some w') : Inv w' := by
  unfold World.close at hs
  split at hs
  · obtain ⟨fds, hfds, hs⟩ := bind_eq_some_iff.mp hs
    obtain ⟨d, hd, hs⟩ := bind_eq_some_iff.mp hs
    cases hs
    obtain ⟨p, hp, hpfds⟩ := procs_of_fdsOf hfds
    have hget : fds[fd]? = some d ∧ d ≠ .closed := by
      unfold descriptor at hd
      split at hd
      · cases hd
      · cases hd
      · next hne hget => 
        cases hd
        exact ⟨hget, hne⟩
    refine h.begin hp (fun own hok => hok.setFds hpfds length_set) (fun s _ => rfl) trivial fun e q => ?_
    have hcount := count_set hget.1 .closed (e.of q)
    have hne : Descriptor.closed ≠ e.of q := by cases e <;> nofun
    rw [if_neg hne] at hcount
    show (fds.set fd .closed).count (e.of q) + (endsOf [d]).count (q, e) = p.named e q
    rw [count_endsOf, named_some hpfds, count_singleton]
    simp only [beq_iff_eq]
    omega
  · cases hs

theorem fork (h : Inv w) (hs : w.fork slot = some w') : Inv w' := by
  unfold World.fork at hs
  split at hs
  · obtain ⟨child, hchild, hs⟩ := bind_eq_some_iff.mp hs
    cases hs
    obtain ⟨hlt, hfree, -⟩ := findIdx?_eq_some_iff_getElem.mp hchild
    have hp := getElem?_eq_getElem hlt
    have hfree := eq_of_beq hfree
    refine h.begin hp (fun own hok => ?_) (fun s hs => if_neg hs) trivial fun e q => rfl
    obtain rfl := hok.unowned (by rw [hfree]; nofun)
    simpa [Call.owns] using Proc.Ok.of_bare (p := { phase := .claimed, fds := _ }) rfl (hok.free hfree)
  · cases hs

theorem processEnded (h : Inv w) (hs : w.processEnded slot = some w') : Inv w' := by
  unfold World.processEnded at hs
  split at hs
  · next hphase =>
    obtain ⟨fds, hfds, hs⟩ := bind_eq_some_iff.mp hs
    cases hs
    obtain ⟨p, hp, hpfds⟩ := procs_of_fdsOf hfds
    obtain ⟨p', hp', hrun⟩ := procs_of_phaseOf hphase
    cases hp.symm.trans hp'
    rw [World.setFds, World.setPhase, onProc_onProc]
    refine h.begin hp (fun own hok => ?_) (fun s _ => rfl) trivial fun e q => ?_
    · obtain rfl := hok.unowned (by rw [hrun]; nofun)
      exact .of_unowned (fun fds' hfds' => some.inj hfds' ▸ rfl) nofun
    · show noFds.count (e.of q) + (endsOf fds).count (q, e) = p.named e q
      rw [count_noFds, count_endsOf, named_some hpfds, zero_add]
  · cases hs

/-- What taking a process's state moves from its table to the call that drops the ends. -/
theorem held_release (hp : w.procs[slot]? = some p) (e : End) (q : Nat) :
    (w.release slot).2.held e q = p.named e q := by
  show (endsOf _).count (q, e) = _
  rw [count_endsOf]
  unfold fdsOf Proc.named
  rw [hp]
  rfl

theorem teardown (h : Inv w) (hs : w.teardown slot = some w') : Inv w' := by
  unfold World.teardown at hs
  split at hs
  · next hphase =>
    cases hs
    obtain ⟨p, hp, hended⟩ := procs_of_phaseOf hphase
    simp only [World.setFds, World.setPhase, onProc_onProc]
    refine h.begin hp (fun own hok => ?_) (fun s hs => if_neg hs) trivial fun e q => ?_
    · obtain rfl := hok.unowned (by rw [hended]; nofun)
      simpa [Call.owns] using Proc.Ok.of_bare (p := { phase := .claimed, fds := none }) rfl rfl
    · have := held_release hp e q
      show 0 + (w.release slot).2.held e q = _
      omega
  · cases hs

theorem abandon (h : Inv w) (hi : w.calls[i]? = some c) (ho : (c.owns slot).1 + (c.owns slot).2 = 1)
    (hother : ∀ s, slot ≠ s → c.owns s = 0) (hheld : ∀ e q, c.held e q = 0) :
    Inv (w.abandon i slot) := by
  obtain ⟨p, hp, hclaimed, -⟩ := h.owner _ hi ho
  dsimp only [World.abandon, World.release]
  rw [World.setFds, World.setPhase, onProc_onProc]
  refine h.move hi hp (fun own hok => ?_) (fun s hs => (if_neg hs).trans (hother s hs).symm) trivial fun e q => ?_
  · obtain rfl := hok.others ho
    simpa [Call.owns] using Proc.Ok.of_bare (p := { phase := .claimed, fds := none }) rfl rfl
  · have := held_release hp e q
    rw [hheld]
    show 0 + (w.release slot).2.held e q = _
    omega

end Inv

/-! ## A pipe's counts -/

namespace Pipe

variable (p : Pipe) (e e' : End)

theorem count_addEnd : (p.addEnd e).count e' = p.count e' + if e = e' then 1 else 0 := by
  cases e <;> cases e' <;> rfl

theorem count_subEnd : (p.subEnd e).count e' = p.count e' - if e = e' then 1 else 0 := by
  cases e <;> cases e' <;> rfl

theorem used_addEnd : (p.addEnd e).used = p.used := by cases e <;> rfl

theorem used_subEnd : (p.subEnd e).used = p.used := by cases e <;> rfl

/-- The last end frees the pipe. -/
theorem dropEnd_cases : (p.dropEnd e = empty ∧ ∀ e', (p.subEnd e).count e' = 0) ∨
    (p.dropEnd e = p.subEnd e ∧ ∃ e', 0 < (p.subEnd e).count e') := by
  unfold dropEnd
  dsimp only
  split
  · next h =>
    refine .inl ⟨rfl, fun e' => ?_⟩
    cases e' with
    | read => exact h.1
    | write => exact h.2
  · next h =>
    refine .inr ⟨rfl, ?_⟩
    by_cases hr : (p.subEnd e).readers = 0
    · exact ⟨.write, Nat.pos_of_ne_zero fun hw => h ⟨hr, hw⟩⟩
    · exact ⟨.read, Nat.pos_of_ne_zero hr⟩

theorem count_dropEnd : (p.dropEnd e).count e' = (p.subEnd e).count e' := by
  rcases p.dropEnd_cases e with ⟨heq, hzero⟩ | ⟨heq, -⟩
  · rw [heq, hzero]
    cases e' <;> rfl
  · rw [heq]

theorem used_dropEnd (h : p.used = true) : (p.dropEnd e).used = true ↔ ∃ e', 0 < (p.dropEnd e).count e' := by
  rcases p.dropEnd_cases e with ⟨heq, hzero⟩ | ⟨heq, hpos⟩
  · refine iff_of_false (by rw [heq]; nofun) ?_
    rintro ⟨e', he'⟩
    rw [count_dropEnd, hzero] at he'
    cases he'
  · rw [heq, used_subEnd]
    exact iff_of_true h hpos

end Pipe

namespace Inv

variable {p : Proc} {done todo : List Descriptor} {e : End}

theorem dropOne {ends : List (Nat × End)} {s : Option Nat} (h : Inv w)
    (hi : w.calls[i]? = some (.dropping ((n, e) :: ends) s)) :
    Inv ((w.onPipe n (·.dropEnd e)).setCall i (.dropping ends s)) := by
  have hheld (e' : End) (q : Nat) : (Call.dropping ((n, e) :: ends) s).held e' q =
      (Call.dropping ends s).held e' q + if (n, e) = (q, e') then 1 else 0 := by
    show List.count _ (_ :: _) = _
    rw [count_cons]
    simp only [beq_iff_eq]
    rfl
  -- The call holds the end it drops, so the count is not yet zero.
  have hpos (pipe : Pipe) (hpipe : w.pipes[n]? = some pipe) : 0 < pipe.count e := by
    have hbal : _ = _ + total _ _ := h.balanced n pipe e hpipe
    obtain ⟨rest, hrest, -⟩ := total_call (Call.held e n) rfl hi .finished
    have := hheld e n
    rw [if_pos rfl] at this
    omega
  refine h.onPipe hi trivial ?_ ?_ ?_ fun s' => ?_
  · intro e' q hq
    rw [hheld, if_neg fun heq => hq (Prod.mk.inj heq).1.symm]
    rfl
  · intro e' pipe hpipe hle
    rw [Pipe.count_dropEnd, Pipe.count_subEnd]
    have := hheld e' n
    by_cases he : e = e'
    · subst he
      rw [if_pos rfl] at this ⊢
      omega
    · rw [if_neg fun heq => he (Prod.mk.inj heq).2] at this
      rw [if_neg he]
      omega
  · intro pipe hpipe
    exact pipe.used_dropEnd e ((h.used n pipe hpipe).mpr ⟨e, hpos pipe hpipe⟩)
  · cases s <;> rfl

variable (h : Inv w)

include h

/-- `inherit` counts one end more, of a pipe in use. -/
theorem inheritEnd (hi : w.calls[i]? = some (.inheriting child done (e.of n :: todo) handles))
    (hused : ∀ pipe : Pipe, w.pipes[n]? = some pipe → pipe.used = true) :
    Inv ((w.onPipe n (·.addEnd e)).setCall i (.inheriting child (done ++ [e.of n]) todo handles)) := by
  have hheld (e' : End) (q : Nat) : (Call.inheriting child (done ++ [e.of n]) todo handles).held e' q =
      done.count (e'.of q) + if e.of n = e'.of q then 1 else 0 := by
    show List.count _ (_ ++ _) = _
    rw [count_append, count_singleton]
    simp only [beq_iff_eq]
  have hof (e' : End) (q : Nat) : e.of n = e'.of q ↔ n = q ∧ e = e' := by
    cases e <;> cases e' <;> simp [of]
  refine h.onPipe hi ((h.copies _ (mem_of_getElem? hi)).copied (Nat.le_succ _)) ?_ ?_ ?_ fun s => rfl
  · intro e' q hq
    rw [hheld, if_neg fun heq => hq ((hof e' q).mp heq).1.symm]
    rfl
  · intro e' pipe _ _
    rw [Pipe.count_addEnd, hheld]
    simp only [hof, true_and]
    show _ + done.count _ = _
    omega
  · intro pipe hpipe
    rw [Pipe.used_addEnd]
    refine iff_of_true (hused pipe hpipe) ⟨e, ?_⟩
    rw [Pipe.count_addEnd, if_pos rfl]
    omega

/-- `inherit` copies a descriptor that names no pipe. -/
theorem inheritOther (hi : w.calls[i]? = some (.inheriting child done (d :: todo) handles)) (hd : d'.names = none)
    (hh : handles' ≤ handles + 1) : Inv (w.setCall i (.inheriting child (done ++ [d']) todo handles')) := by
  refine h.setCall hi ((h.copies _ (mem_of_getElem? hi)).copied hh) (fun e q => ?_) fun s => rfl
  have hne : d' ≠ e.of q := by
    rintro rfl
    rw [names_of] at hd
    cases hd
  show List.count _ (_ ++ _) = _
  rw [count_append, count_singleton, if_neg (by simpa using hne)]
  rfl

theorem inheritOne
    (hi : w.calls[i]? = some (.inheriting child done (d :: todo) handles)) (hused : w.countsUsed (.advance i) = true) :
    Inv (w.inheritOne i child done d todo handles) := by
  have hend {n : Nat} {e : End} (hd : d = e.of n) (pipe : Pipe) (hpipe : w.pipes[n]? = some pipe) :
      pipe.used = true := by
    unfold countsUsed at hused
    simp only [hi, hd, names_of, all_some, hpipe] at hused
    exact hused
  cases d with
  | console handle =>
    -- There is a handle for every descriptor that a table can hold.
    obtain ⟨hlen, hle⟩ := h.copies _ (mem_of_getElem? hi)
    have hroom : handles < maxHandles := by
      unfold maxHandles
      unfold maxFds at hlen
      rw [length_cons] at hlen
      omega
    rw [inheritOne, if_pos hroom]
    exact h.inheritOther hi rfl (Nat.le_refl _)
  | pipeRead n => exact h.inheritEnd (e := .read) hi (hend (e := .read) rfl)
  | pipeWrite n => exact h.inheritEnd (e := .write) hi (hend (e := .write) rfl)
  | closed => exact h.inheritOther hi rfl (Nat.le_succ _)
  | stdin => exact h.inheritOther hi rfl (Nat.le_succ _)
  | file fd => exact h.inheritOther hi rfl (Nat.le_succ _)
  | socket n => exact h.inheritOther hi rfl (Nat.le_succ _)
  | epoll n => exact h.inheritOther hi rfl (Nat.le_succ _)

theorem placed (hi : w.calls[i]? = some (.placing slot n))
    (hfds : ((w.fdsOf slot).bind fun fds => placeBoth fds n) = some fds) :
    Inv ((w.setFds slot (some fds)).setCall i .finished) := by
  obtain ⟨old, hold, hplace⟩ := bind_eq_some_iff.mp hfds
  obtain ⟨p, hp, hpfds⟩ := procs_of_fdsOf hold
  obtain ⟨hlen, hcount⟩ := placeBoth_spec hplace
  refine h.move hi hp (fun own hok => hok.setFds hpfds hlen) (fun s _ => rfl) trivial fun e q => ?_
  show fds.count (e.of q) + 0 = p.named e q + if n = q then 1 else 0
  rw [hcount, named_some hpfds]
  rfl

theorem notPlaced (hi : w.calls[i]? = some (.placing slot n)) :
    Inv (w.setCall i (.dropping [(n, .read), (n, .write)] none)) := by
  refine h.setCall hi trivial (fun e q => ?_) fun s => rfl
  show List.count (q, e) [(n, .read), (n, .write)] = if n = q then 1 else 0
  rw [count_cons, count_singleton]
  cases e <;> simp

theorem advance (hs : w.advance i = some w') (hused : w.countsUsed (.advance i) = true) : Inv w' := by
  unfold World.advance at hs
  split at hs
  · next slot n hi =>
    split at hs
    · next fds hfds => exact some.inj hs ▸ h.placed hi hfds
    · exact some.inj hs ▸ h.notPlaced hi
  · next n e ends s hi => exact some.inj hs ▸ h.dropOne hi
  · next hi => exact some.inj hs ▸ h.setCall hi trivial (fun e q => rfl) fun s => rfl
  · next slot hi =>
    cases hs
    obtain ⟨p, hp, -, hnone⟩ := h.owner slot hi (by simp [Call.owns])
    refine h.move hi hp (fun own hok => ?_) (fun s hs => (if_neg hs).symm) trivial fun e q => rfl
    obtain rfl := hok.others (by simp [Call.owns])
    exact .of_unowned hok.full fun _ => hnone (by simp [Call.owns])
  · next parent child hi =>
    split at hs
    · exact some.inj hs ▸ h.abandon hi (by simp [Call.owns]) (fun s hs => if_neg hs) fun e q => rfl
    rename_i fds hfds
    cases hs
    obtain ⟨p, hp, hpfds⟩ := procs_of_fdsOf hfds
    have hlen := (h.proc hp).full fds hpfds
    exact h.setCall hi ⟨by simpa using hlen, Nat.le_refl _⟩ (fun e q => rfl) fun s => rfl
  · next hi => exact some.inj hs ▸ h.inheritOne hi hused
  · next child done handles hi =>
    cases hs
    obtain ⟨p, hp, hclaimed, hnone⟩ := h.owner child hi (by simp [Call.owns])
    obtain ⟨hlen, -⟩ := h.copies _ (mem_of_getElem? hi)
    refine h.move hi hp (fun own hok => ?_) (fun s hs => (if_neg hs).trans (if_neg hs).symm) trivial
      fun e q => ?_
    · obtain rfl := hok.others (by simp [Call.owns])
      refine ⟨fun fds hfds => ?_, fun hfree => ?_, by simp [Call.owns], fun _ => hclaimed,
        by simp [Call.owns]⟩
      · cases hfds
        simpa using hlen
      · cases hclaimed.symm.trans hfree
    · have hzero : p.named e q = 0 := by
        unfold Proc.named
        rw [hnone (by simp [Call.owns])]
        rfl
      show done.count (e.of q) + 0 = p.named e q + done.count (e.of q)
      omega
  · next child hi =>
    cases hs
    obtain ⟨p, hp, -, -⟩ := h.owner child hi (by simp [Call.owns])
    refine h.move hi hp (fun own hok => ?_) (fun s hs => (if_neg hs).symm) trivial fun e q => rfl
    obtain rfl := hok.others (by simp [Call.owns])
    exact .of_unowned hok.full nofun
  · cases hs
  · cases hs

theorem startFails (hs : w.startFails i = some w') : Inv w' := by
  unfold World.startFails at hs
  split at hs
  · next child hi =>
    exact some.inj hs ▸ h.abandon hi (by simp [Call.owns]) (fun s hs => if_neg hs) fun e q => rfl
  · cases hs

theorem step {a : Action} (hused : w.countsUsed a = true) (hs : w.step a = some w') : Inv w' := by
  cases a with
  | start slot => exact h.start hs
  | pipe slot => exact h.pipe hs
  | close slot fd => exact h.close hs
  | fork parent => exact h.fork hs
  | processEnded slot => exact h.processEnded hs
  | teardown slot => exact h.teardown hs
  | advance i => exact h.advance hs hused
  | startFails i => exact h.startFails hs

/-- Between calls nothing is held, and the counts are the descriptors'. -/
theorem exact (hq : w.Quiet) : w.Exact := by
  have hheld (e : End) (q : Nat) : w.held e q = 0 := by
    refine sum_eq_zero fun n hn => ?_
    obtain ⟨c, hc, rfl⟩ := mem_map.mp hn
    rw [hq c hc]
    rfl
  intro q pipe hpipe
  have hcount (e : End) : pipe.count e = w.named e q := by rw [h.balanced q pipe e hpipe, hheld, Nat.add_zero]
  have hused := h.used q pipe hpipe
  simp only [hcount] at hused
  refine ⟨fun hu => ⟨hcount, hused.mp hu⟩, fun hu e => ?_⟩
  by_contra hne
  have := hused.mpr ⟨e, Nat.pos_of_ne_zero hne⟩
  cases hu.symm.trans this

end Inv

theorem Reached.inv (h : Reached w) : Inv w := by
  induction h with
  | init => exact Inv.init
  | step a _ hused hs ih => exact ih.step hused hs

/-- In every run in which `inherit` counts only ends of pipes in use, the counts are exact whenever no call is
in progress. -/
theorem counts_exact {w : World} (h : Reached w) (hq : w.Quiet) : w.Exact := h.inv.exact hq

namespace World

instance (w : World) : Decidable w.Quiet := inferInstanceAs (Decidable (∀ c ∈ w.calls, c = .finished))

/-- A run all of whose steps count only ends of pipes in use. -/
def runUsed (w : World) (as : List Action) : Option World :=
  as.foldlM (fun w a => if w.countsUsed a then w.step a else none) w

theorem reached_runUsed {as : List Action} (h : Reached w) (hr : w.runUsed as = some w') : Reached w' := by
  induction as generalizing w with
  | nil => exact some.inj hr ▸ h
  | cons a as ih =>
    obtain ⟨next, hnext, hr⟩ := bind_eq_some_iff.mp hr
    dsimp only at hnext
    split at hnext
    · next hused => exact ih (.step a h hused hnext) hr
    · cases hnext

/-- A process makes a pipe and forks: the copy of its descriptors has been taken. -/
def forked : List Action := [.start 0, .pipe 0, .advance 0, .fork 0, .advance 1]

/-- The rest of the fork: sixteen descriptors, the child's state, its thread. -/
def inherited : List Action := List.replicate 18 (.advance 1)

/-- Another thread of the process closes both ends. -/
def closed : List Action := [.close 0 3, .advance 2, .advance 2, .close 0 4, .advance 3, .advance 3]

def forkedWorld : World := (init.runUsed (forked ++ inherited)).get (by decide +kernel)

theorem reached_forkedWorld : Reached forkedWorld :=
  reached_runUsed .init (some_get _).symm

def closedWorld : World := (init.run (forked ++ closed ++ inherited)).get (by decide +kernel)

end World

theorem counts_exact_forked : forkedWorld.Quiet ∧ forkedWorld.Exact :=
  ⟨by decide +kernel, counts_exact reached_forkedWorld (by decide +kernel)⟩

/-- The child's descriptors name a pipe that is not in use. -/
theorem counts_not_exact : init.run (forked ++ closed ++ inherited) = some closedWorld ∧
    closedWorld.Quiet ∧ ¬closedWorld.Exact := by
  refine ⟨(some_get _).symm, by decide +kernel, fun h => ?_⟩
  have hpipe : closedWorld.pipes[0]? = some { used := false, readers := 1, writers := 1 } := by decide +kernel
  have hnamed : closedWorld.named .read 0 = 1 := by decide +kernel
  rw [(h 0 _ hpipe).2 rfl .read] at hnamed
  cases hnamed

end Kintane.Personality
