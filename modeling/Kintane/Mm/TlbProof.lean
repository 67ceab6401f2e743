import Kintane.Mm.Tlb
import Kintane.Lib.Bits

/-!
# Shootdowns are answered

Nothing but `pending` decides. A target of the last request either has flushed for it since
it was posted, or its bit stands and its innermost call is going to flush for it (`Waits`):
every step keeps that, since a call that is on top and not stale reads the request's address,
and a call that begins finds the bit. Once `pending` is empty, every target has flushed.

A request is posted when `pending` is empty. Calls that do not nest are under way only while
their bit stands (`Single`), so then none is, and none is stale.
-/

namespace Kintane

open List

namespace Shootdown

variable {w cpu c : Nat} {b t : BitVec w} {a : Option (BitVec w)} {log : List (Event w)} {s s' : State w}
  {calls : List (Service w)} {e : Event w}

/-! ## Masks and logs -/

theorem bit_eq (h : bit w cpu = some b) : cpu < w ∧ b = BitVec.twoPow w cpu := by
  unfold bit at h
  split at h
  · rename_i hlt
    exact ⟨hlt, (Option.some.inj h).symm⟩
  · cases h

/-- Testing a mask for a CPU's bit. -/
theorem and_bit_eq_zero (h : bit w cpu = some b) (m : BitVec w) : m &&& b = 0 ↔ m.getLsbD cpu = false := by
  obtain ⟨hlt, rfl⟩ := bit_eq h
  exact Bits.and_one_eq_zero m hlt

/-- Clearing a CPU's bit leaves the others'. -/
theorem clear_bit (h : bit w cpu = some b) (m : BitVec w) (hc : c ≠ cpu) : (m &&& ~~~b).getLsbD c = m.getLsbD c := by
  obtain ⟨hlt, rfl⟩ := bit_eq h
  exact (Bits.getLsbD_erase m c hlt).trans (by simp [hc])

theorem request_eq (h : request log = some (a, t)) :
    ∃ since before, log = since ++ .posted a t :: before ∧ ∀ a' t', .posted a' t' ∉ since := by
  induction log with
  | nil => cases h
  | cons e log ih =>
    cases e with
    | posted a' t' =>
      cases h
      exact ⟨[], log, rfl, by simp⟩
    | flushed | finished =>
      obtain ⟨since, before, rfl, hno⟩ := ih h
      exact ⟨_ :: since, before, rfl, by simpa using hno⟩

theorem Served.cons (h : Served log cpu) (he : ∀ a t, e ≠ .posted a t) : Served (e :: log) cpu := by
  obtain ⟨since, a, t, before, rfl, hno, hmem⟩ := h
  refine ⟨e :: since, a, t, before, rfl, fun a' t' hin => ?_, mem_cons_of_mem _ hmem⟩
  rcases mem_cons.mp hin with heq | hin
  · exact he a' t' heq.symm
  · exact hno a' t' hin

/-- A flush for the last request serves its CPU. -/
theorem served_flushed
    (h : request log = some (a, t)) : Served (.flushed cpu (shown (place a)) :: log) cpu := by
  obtain ⟨since, before, rfl, hno⟩ := request_eq h
  exact ⟨_ :: since, a, t, before, rfl, by simpa using hno, mem_cons_self ..⟩

theorem Confirmed.cons (h : Confirmed log) (he : e = .finished → ∃ a t, request log = some (a, t) ∧
      ∀ cpu, t.getLsbD cpu = true → Served log cpu) : Confirmed (e :: log) := by
  intro later earlier heq
  cases later with
  | nil =>
    obtain ⟨h1, rfl⟩ := cons.inj heq
    exact he h1
  | cons e' later => exact h later earlier (cons.inj heq).2

/-! ## The invariant -/

/-- What the initiator relies on where it stands: `pending` is empty from the check to the post, and
otherwise the word has the address of the last request. -/
def Knows (word : Shootdown w) (req : Option (Option (BitVec w) × BitVec w)) : Initiator w → Prop
  | .clear .. | .ask .. | .place .. => word.pending = 0
  | .count a _ | .post a _ => word.pending = 0 ∧ word.addr = place a
  | .idle | .check .. => ∀ a t, req = some (a, t) → word.addr = place a
  | .published | .readAsked | .readAnswered .. | .readPending .. => ∃ a t, req = some (a, t) ∧ word.addr = place a

/-- A target has flushed for the request, or its bit stands and its innermost call will. -/
def Waits (s : State w) (a : Option (BitVec w)) (cpu : Nat) : Prop :=
  Served s.log cpu ∨ (s.word.pending.getLsbD cpu = true ∧
    ∀ f ∈ (s.stack cpu).head?, f.stale (place a) = false)

/-- What every choice preserves. -/
structure Inv (s : State w) : Prop where
  confirmed : Confirmed s.log
  knows : Knows s.word (request s.log) s.initiator
  waits : ∀ {a t}, request s.log = some (a, t) → ∀ cpu, t.getLsbD cpu = true → Waits s a cpu

theorem Inv.init : Inv (State.init w) where
  confirmed := by
    intro later earlier h
    cases later with
    | nil => cases h
    | cons => cases h
  knows := nofun
  waits := nofun

/-- Once nothing is pending every target has flushed. -/
theorem Inv.served (h : Inv s) (h0 : s.word.pending = 0)
    (hr : request s.log = some (a, t)) (cpu : Nat) (ht : t.getLsbD cpu = true) :
    Served s.log cpu := by
  rcases h.waits hr cpu ht with hs | ⟨hp, -⟩
  · exact hs
  · rw [h0] at hp
    simp at hp

/-- While something is pending its address is there. -/
theorem Inv.addr (h : Inv s) (hr : request s.log = some (a, t))
    (hp : s.word.pending ≠ 0) : s.word.addr = place a := by
  have hk := h.knows
  rw [hr] at hk
  cases hi : s.initiator <;> rw [hi] at hk
  case clear | ask | place => exact absurd hk hp
  case count | post => exact absurd hk.1 hp
  case idle | check => exact hk a t rfl
  all_goals
    obtain ⟨_, _, he, ha⟩ := hk
    cases he
    exact ha

/-- The initiator moves on without touching what else the invariant is about. -/
theorem Inv.move (h : Inv s) (hlog : s'.log = s.log) (hstack : s'.stack = s.stack)
    (hpend : s'.word.pending = s.word.pending) (hknows : Knows s'.word (request s.log) s'.initiator) : Inv s' where
  confirmed := hlog ▸ h.confirmed
  knows := hlog ▸ hknows
  waits := by
    intro a t hr cpu ht
    rw [hlog] at hr
    have := h.waits hr cpu ht
    unfold Waits at this ⊢
    rwa [hlog, hstack, hpend]

/-- A service call moves on: the request and its address stay. -/
theorem Inv.work (h : Inv s) (hinit : s'.initiator = s.initiator)
    (haddr : s'.word.addr = s.word.addr) (hreq : request s'.log = request s.log)
    (hconf : Confirmed s'.log) (hpend : s.word.pending = 0 → s'.word.pending = 0)
    (hwaits : ∀ {a t}, request s.log = some (a, t) → ∀ cpu, t.getLsbD cpu = true →
      Waits s a cpu → Waits s' a cpu) : Inv s' where
  confirmed := hconf
  knows := by
    have hk := h.knows
    rw [hinit, hreq]
    generalize s.initiator = i at hk ⊢
    cases i <;> simp only [Knows, haddr] at hk ⊢ <;> first | exact hk | exact hpend hk | exact ⟨hpend hk.1, hk.2⟩
  waits := fun hr cpu ht => hwaits (hreq ▸ hr) cpu ht (h.waits (hreq ▸ hr) cpu ht)

theorem Inv.stepInitiator (h : Inv s) (hf : Fresh s .initiator) (he : stepInitiator s = some s') : Inv s' := by
  have hk := h.knows
  unfold Shootdown.stepInitiator at he
  cases hi : s.initiator <;> rw [hi] at he hk
  case idle | published => cases he
  case check =>
    simp only at he
    split at he <;> rename_i h0 <;> cases he
    · exact h.move rfl rfl rfl hk
    · exact h.move rfl rfl rfl (not_not.mp h0)
  case place =>
    cases he
    -- the old request's targets have all answered, so its address may go
    exact h.move rfl rfl rfl ⟨hk, rfl⟩
  case post a t =>
    cases he
    simp only [Fresh, hi] at hf
    refine ⟨h.confirmed.cons nofun, ⟨a, t, rfl, hk.2⟩, fun hr cpu ht => ?_⟩
    cases hr
    exact .inr ⟨ht, hf cpu ht⟩
  case readPending =>
    simp only at he
    split at he <;> cases he
    · rename_i hok
      obtain ⟨a, t, hr, ha⟩ := hk
      refine ⟨h.confirmed.cons fun _ => ⟨a, t, hr, h.served hok.1 hr⟩, ⟨a, t, hr, ha⟩, fun hr' cpu ht => ?_⟩
      exact .inl ((h.served hok.1 hr' cpu ht).cons nofun)
    · exact h.move rfl rfl rfl hk
  all_goals
    cases he
    exact h.move rfl rfl rfl hk

/-- What does not concern a CPU leaves it waiting. -/
theorem Waits.other (h : Waits s a cpu) (hstack : s'.stack cpu = s.stack cpu)
    (hpend : s'.word.pending.getLsbD cpu = s.word.pending.getLsbD cpu)
    (hlog : Served s.log cpu → Served s'.log cpu) : Waits s' a cpu := by
  rcases h with hs | ⟨hp, hf⟩
  · exact .inl (hlog hs)
  · exact .inr ⟨hpend.trans hp, hstack ▸ hf⟩

theorem setStack_other (h : c ≠ cpu) : (s.setStack cpu calls).stack c = s.stack c := Function.update_of_ne h _ _

theorem setStack_self : (s.setStack cpu calls).stack cpu = calls := Function.update_self ..

/-- A CPU's stack is replaced; `word` differs in what is not in the invariant. -/
theorem Inv.restack (h : Inv s) (word : Shootdown w)
    (haddr : word.addr = s.word.addr) (hpend : word.pending = s.word.pending)
    (hself : ∀ {a t}, request s.log = some (a, t) → Waits s a cpu → Served s.log cpu ∨
      s.word.pending.getLsbD cpu = true ∧ ∀ f ∈ calls.head?, f.stale (place a) = false) :
    Inv { s.setStack cpu calls with word } := by
  refine h.work rfl haddr rfl h.confirmed hpend.trans fun hr c _ hw => ?_
  by_cases hc : c = cpu
  · subst hc
    unfold Waits
    simp only [hpend, State.setStack, Function.update_self]
    exact hself hr hw
  · exact hw.other (setStack_other hc) (by rw [hpend]) id

theorem Inv.enter (h : Inv s) (cpu : Nat) : Inv (s.setStack cpu (.entered :: s.stack cpu)) :=
  h.restack s.word rfl rfl fun _ hw => hw.imp id fun hp => ⟨hp.1, fun f hf => by cases hf; rfl⟩

theorem stepService_some (he : stepService s cpu = some s') :
    ∃ b f calls, bit w cpu = some b ∧ s.stack cpu = f :: calls := by
  unfold stepService at he
  cases hb : bit w cpu with
  | none => rw [hb] at he; cases he
  | some b =>
    cases hs : s.stack cpu with
    | nil => rw [hb, hs] at he; cases he
    | cons f calls => exact ⟨b, f, calls, rfl, rfl⟩

theorem Inv.stepService (h : Inv s) (he : stepService s cpu = some s') : Inv s' := by
  obtain ⟨b, f, calls, hb, hs⟩ := stepService_some he
  rw [Shootdown.stepService, hb, hs] at he
  -- a stale call on top means the CPU has flushed for the request
  have hstale : ∀ {a}, Waits s a cpu → f.stale (place a) = true → Served s.log cpu := by
    intro a hw hf
    rcases hw with hw | ⟨-, hw⟩
    · exact hw
    · rw [hw f (by rw [hs]; rfl)] at hf
      cases hf
  cases f with
  | entered =>
    simp only at he
    split at he <;> rename_i h0 <;> cases he
    · refine h.restack s.word rfl rfl fun _ hw => .inl (hw.resolve_right fun hp => ?_)
      rw [and_bit_eq_zero hb] at h0
      rw [h0] at hp
      exact Bool.false_ne_true hp.1
    · exact h.restack s.word rfl rfl fun _ hw => hw.imp id fun hp => ⟨hp.1, fun f hf => by cases hf; rfl⟩
  | seen =>
    cases he
    refine h.restack s.word rfl rfl fun hr hw => hw.imp id fun hp => ⟨hp.1, fun f hf => ?_⟩
    cases hf
    have hne : s.word.pending ≠ 0 := fun h0 => by simp [h0] at hp
    simp [Service.stale, h.addr hr hne]
  | loaded x =>
    cases he
    refine h.work rfl rfl rfl (h.confirmed.cons nofun) id fun {a t} hr c _ hw => ?_
    by_cases hc : c = cpu
    · subst hc
      by_cases hx : x = place a
      · subst hx
        exact .inl (served_flushed hr)
      · exact .inl ((hstale hw (by simp [Service.stale, hx])).cons nofun)
    · exact hw.other (setStack_other hc) rfl fun hsv => hsv.cons nofun
  | flushed | answered =>
    cases he
    exact h.restack _ rfl rfl fun _ hw => .inl (hstale hw rfl)
  | counted =>
    cases he
    refine h.work rfl rfl rfl h.confirmed (fun h0 => by simp only [h0]; simp) fun _ c _ hw => ?_
    by_cases hc : c = cpu
    · subst hc
      exact .inl (hstale hw rfl)
    · exact hw.other (setStack_other hc) (clear_bit hb _ hc) id

theorem Inv.step {c : Choice w} (h : Inv s) (hf : Fresh s c) (he : step s c = some s') : Inv s' := by
  have hk := h.knows
  unfold Shootdown.step at he
  cases c with
  | publish | finish =>
    simp only at he
    split at he <;> cases he
    rename_i hi
    rw [hi] at hk
    exact h.move rfl rfl rfl hk
  | release =>
    simp only at he
    split at he <;> cases he
    rename_i hi
    rw [hi] at hk
    obtain ⟨a, t, hr, ha⟩ := hk
    exact h.move rfl rfl rfl fun a' t' hr' => by cases hr.symm.trans hr'; exact ha
  | initiator => exact h.stepInitiator hf he
  | enter cpu =>
    simp only at he
    split at he
    · cases he
      exact h
    · cases he
      exact h.enter cpu
  | service cpu => exact h.stepService he

theorem Inv.reach (h : Reach Fresh s) : Inv s := by
  induction h with
  | init => exact .init
  | next _ hf he ih => exact ih.step hf he

/-! ## Calls that do not nest -/

/-- A call under way has its CPU's bit set, and no other is under way beneath it. -/
def Calm (bit : Bool) : List (Service w) → Prop
  | [] => True
  | f :: calls => (f ≠ .entered → bit = true ∧ ∀ g ∈ calls, g = .entered) ∧ Calm bit calls

/-- So it is on every CPU. -/
def Single (s : State w) : Prop := ∀ cpu, Calm (s.word.pending.getLsbD cpu) (s.stack cpu)

/-- Without the bit none is under way. -/
theorem Calm.entered (h : Calm false calls) : ∀ g ∈ calls, g = .entered := by
  induction calls with
  | nil => simp
  | cons f calls ih =>
    exact forall_mem_cons.mpr ⟨by_contra fun hf => Bool.false_ne_true (h.1 hf).1, ih h.2⟩

theorem calm_of_entered {bit : Bool} (h : ∀ g ∈ calls, g = .entered) : Calm bit calls := by
  induction calls with
  | nil => trivial
  | cons f calls ih => exact ⟨fun hf => absurd (h f mem_cons_self) hf, ih (forall_mem_cons.mp h).2⟩

section

variable (h : Single s)

include h

theorem Single.congr (hstack : s'.stack = s.stack) (hpend : s'.word.pending = s.word.pending) : Single s' := by
  intro cpu
  rw [hstack, hpend]
  exact h cpu

/-- Only the initiator's own words change when the initiator moves, but for a post, which
finds no call under way. -/
theorem Single.stepInitiator (hi : Inv s) (he : stepInitiator s = some s') : Single s' := by
  have key : s'.stack = s.stack ∧
      (s'.word.pending = s.word.pending ∨ s.word.pending = 0) := by
    have hk := hi.knows
    unfold Shootdown.stepInitiator at he
    cases hs : s.initiator <;> rw [hs] at he hk
    case post =>
      cases he
      exact ⟨rfl, .inr hk.1⟩
    all_goals
      simp only at he
      try split at he
      all_goals cases he
      all_goals exact ⟨rfl, .inl rfl⟩
  obtain ⟨hstack, hpend | h0⟩ := key
  · exact h.congr hstack hpend
  · intro cpu
    have := h cpu
    rw [h0, BitVec.ofNat_eq_ofNat, BitVec.getLsbD_zero] at this
    rw [hstack]
    exact calm_of_entered this.entered

/-- A CPU's stack changes. -/
theorem Single.restack (hs : s'.stack cpu = calls)
    (hother : ∀ c, c ≠ cpu → s'.stack c = s.stack c ∧ s'.word.pending.getLsbD c = s.word.pending.getLsbD c)
    (hcalls : Calm (s'.word.pending.getLsbD cpu) calls) : Single s' := by
  intro c
  by_cases hc : c = cpu
  · subst hc
    rwa [hs]
  · obtain ⟨h1, h2⟩ := hother c hc
    rw [h1, h2]
    exact h c

theorem Single.stepService (hu : Unnested s (.service cpu)) (he : stepService s cpu = some s') : Single s' := by
  obtain ⟨b, f, calls, hb, hs⟩ := stepService_some he
  rw [Shootdown.stepService, hb, hs] at he
  have hcalm := h cpu
  rw [hs] at hcalm
  cases f with
  | entered =>
    simp only at he
    split at he
    · cases he
      exact h.restack setStack_self (fun c hc => ⟨setStack_other hc, rfl⟩) hcalm.2
    rename_i hbit
    cases he
    simp only [Unnested, hs, head?_cons, tail_cons, forall_const] at hu
    rw [and_bit_eq_zero hb, Bool.not_eq_false] at hbit
    exact h.restack setStack_self (fun c hc => ⟨setStack_other hc, rfl⟩) ⟨fun _ => ⟨hbit, hu hbit⟩, hcalm.2⟩
  | counted =>
    cases he
    have hall := (hcalm.1 nofun).2
    exact h.restack setStack_self (fun c hc => ⟨setStack_other hc, clear_bit hb _ hc⟩) (calm_of_entered hall)
  | _ =>
    cases he
    -- a call under way on top stands on calls that have only begun
    exact h.restack setStack_self (fun c hc => ⟨setStack_other hc, rfl⟩) ⟨fun _ => hcalm.1 nofun, hcalm.2⟩

theorem Single.enter (cpu : Nat) : Single (s.setStack cpu (.entered :: s.stack cpu)) :=
  h.restack setStack_self (fun _ hc => ⟨setStack_other hc, rfl⟩) ⟨fun hf => absurd rfl hf, h cpu⟩

theorem Single.step {c : Choice w} (hi : Inv s) (hu : Unnested s c) (he : step s c = some s') : Single s' := by
  unfold Shootdown.step at he
  cases c with
  | initiator => exact h.stepInitiator hi he
  | service cpu => exact h.stepService hu he
  | enter cpu =>
    simp only at he
    split at he
    · cases he
      exact h
    · cases he
      exact h.enter cpu
  | _ =>
    simp only at he
    split at he
    · cases he
      exact h.congr rfl rfl
    · cases he

/-- Where calls do not nest, a post finds none under way. -/
theorem Single.fresh (hi : Inv s) (c : Choice w) : Fresh s c := by
  unfold Fresh
  cases c with
  | initiator =>
    cases hs : s.initiator with
    | post a t =>
      intro cpu _ f hf
      have hk := hi.knows
      rw [hs] at hk
      have hcalm := h cpu
      rw [hk.1, BitVec.ofNat_eq_ofNat, BitVec.getLsbD_zero] at hcalm
      rw [hcalm.entered f (mem_of_mem_head? hf)]
      rfl
    | _ => trivial
  | _ => trivial

end

theorem Reach.fresh (h : Reach Unnested s) : Reach Fresh s ∧ Single s := by
  induction h with
  | init => exact ⟨.init, fun _ => trivial⟩
  | next _ hu he ih =>
    obtain ⟨hr, hs⟩ := ih
    exact ⟨.next hr (hs.fresh (.reach hr) _) he, hs.step (.reach hr) hu he⟩

/-! ## Runs -/

/-- Take the choices in order, as far as they are allowed. -/
def run (allowed : State w → Choice w → Prop) [∀ s c, Decidable (allowed s c)] (s : State w) :
    List (Choice w) → Option (State w)
  | [] => some s
  | c :: cs => if allowed s c then (step s c).bind (run allowed · cs) else none

theorem Reach.run {allowed : State w → Choice w → Prop} [∀ s c, Decidable (allowed s c)]
    (h : Reach allowed s) (cs : List (Choice w))
    (he : run allowed s cs = some s') : Reach allowed s' := by
  induction cs generalizing s with
  | nil =>
    cases he
    exact h
  | cons c cs ih =>
    unfold Shootdown.run at he
    split at he
    · rename_i ha
      obtain ⟨s1, h1, h2⟩ := Option.bind_eq_some_iff.mp he
      exact ih (.next h ha h1) h2
    · cases he

/-- The whole of `publish` to CPU 1, and the whole of `finish`. -/
def publishRun (addr : BitVec 64) : List (Choice 64) :=
  .publish (some addr) 2 :: replicate 6 .initiator

def finishRun : List (Choice 64) := .finish :: replicate 3 .initiator

/-- **Safety.** In every run in which no request is posted over a stale call, and so in every
run in which calls do not nest, whenever `finish` returned `Ok` every target of the last
request had flushed for it since it was posted. -/
theorem finish_confirmed : (∀ s : State w, Reach Fresh s → Confirmed s.log) ∧
      ∀ s : State w, Reach Unnested s → Reach Fresh s :=
  ⟨fun _ h => (Inv.reach h).confirmed, fun _ h => h.fresh.1⟩

/-- One request, answered by a call that nothing interrupts. -/
theorem finish_confirmed_once : ∃ s : State 64, Reach Unnested s ∧
    s.log = [.finished, .flushed 1 (some 0x1000), .posted (some 0x1000) 2] ∧
    Confirmed s.log := by
  have hlog : (run Unnested (State.init 64) (flatten [publishRun 0x1000,
      .enter 1 :: replicate 6 (.service 1), finishRun])).map (·.log) =
      some [.finished, .flushed 1 (some 0x1000), .posted (some 0x1000) 2] := by decide +kernel
  obtain ⟨s, hs, hl⟩ := Option.map_eq_some_iff.mp hlog
  have hr := Reach.init.run _ hs
  exact ⟨s, hr, hl, finish_confirmed.1 s (finish_confirmed.2 s hr)⟩

/-! ## A call that answers for the next request -/

/-- CPU 1 is asked twice. Its first call reads the first address and is interrupted; the
nested call answers; the second request is posted; the first call answers that. -/
def nestedRun : List (Choice 64) :=
  flatten [publishRun 0x1000, [.enter 1, .service 1, .service 1],
    .enter 1 :: replicate 6 (.service 1), finishRun, [.release],
    publishRun 0x2000, replicate 4 (.service 1), finishRun]

/-- Both requests are finished with `Ok`, and the second address is never flushed. -/
theorem nestedRun_misses : ∃ s : State 64, Reach (fun _ _ => True) s ∧
    s.log = [.finished, .flushed 1 (some 0x1000), .posted (some 0x2000) 2, .finished,
      .flushed 1 (some 0x1000), .posted (some 0x1000) 2] ∧ ¬ Confirmed s.log := by
  have hlog : (run (fun _ _ => True) (State.init 64) nestedRun).map (·.log) =
      some [.finished, .flushed 1 (some 0x1000), .posted (some 0x2000) 2, .finished,
        .flushed 1 (some 0x1000), .posted (some 0x1000) 2] := by decide +kernel
  obtain ⟨s, hs, hl⟩ := Option.map_eq_some_iff.mp hlog
  refine ⟨s, Reach.init.run _ hs, hl, fun hc => ?_⟩
  rw [hl] at hc
  obtain ⟨a, t, hr, hall⟩ := hc [] _ rfl
  cases hr
  obtain ⟨since, a, t, before, he, hno, hmem⟩ := hall 1 rfl
  cases since with
  | nil => cases he
  | cons e since =>
    obtain ⟨rfl, htail⟩ := cons.inj he
    cases since with
    | nil =>
      cases htail
      rw [mem_singleton] at hmem
      cases hmem
    | cons e' since =>
      obtain ⟨rfl, -⟩ := cons.inj htail
      exact hno (some 0x2000) 2 (mem_cons_of_mem _ mem_cons_self)

end Shootdown

end Kintane
