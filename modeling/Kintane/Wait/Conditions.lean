import Kintane.Wait.QueueInv

/-!
# No wake-up is lost

Each thread waits for a condition. A waker makes conditions true and then wakes the queue, or skips the wake
if it sees no waiters; conditions also become false again, at any time. A thread that is blocked while its
condition is true is about to be woken: the waker that made it true has its wake still to do.
-/

namespace Kintane.Wait

variable {ι : Type}

namespace Conditions

/-- The truth of every condition. -/
abbrev State (ι : Type) := ι → Bool

def holds (s : State ι) (c : ι) : Bool := s c

/-- Makes some conditions true, and then wakes the queue. -/
def raise (which : ι → Bool) (skip : Bool) : Prog (State ι) :=
  .act (fun s c => s c || which c) fun _ => .wake skip .done

/-- Makes some conditions false. -/
def lower (which : ι → Bool) : Prog (State ι) := .act (fun s c => s c && !which c) fun _ => .done

/-- Threads wait for one condition each; operations raise conditions or lower them. -/
def Allowed (_ : World (State ι) ι) : Action (State ι) ι → Prop
  | .wait _ set _ _ => ∃ c, set = [c]
  | .start p => (∃ which skip, p = raise which skip) ∨ ∃ which, p = lower which
  | _ => True

theorem sound_lower (which : ι → Bool) : (lower which).Sound holds := by
  intro s
  refine ⟨?_, trivial⟩
  rintro ⟨c, hbefore, hafter⟩
  unfold holds at hbefore hafter
  dsimp only at hafter
  rw [hbefore] at hafter
  cases hafter

theorem inv {w : World (State ι) ι} (h : Reached holds Allowed w) : Inv holds (Prog.Sound holds) w := by
  refine h.inv fun w p hp => ?_
  rcases hp with ⟨which, skip, rfl⟩ | ⟨which, rfl⟩
  · exact fun _ => ⟨fun _ => trivial, trivial⟩
  · exact sound_lower which

end Conditions

open Conditions in
/-- A thread blocked while its condition is true has the waker that made it true still to come to its slot. -/
theorem no_lost_wake {w : World (State ι) ι} (h : Reached holds Allowed w) {t s : Nat} {x : Waiter ι} {c : ι}
    (ht : w.threads[t]? = some x) (hb : x.place = .blocked s) (hc : c ∈ x.set) (htrue : w.state c = true) :
    ∃ op, w.ops[w.cause c]? = some op ∧ op.Pending s ∧ ¬op.Finished := by
  obtain ⟨op, hop, hpend⟩ := (inv h).pending_of_blocked ht hb hc htrue
  exact ⟨op, hop, hpend, hpend.not_finished⟩

namespace Conditions

/-- A thread looks, registers, looks again and blocks. -/
def blocks : List (Action (State Unit) Unit) := .wait 0 [()] false true :: List.replicate 6 (.thread 0 false)

/-- A waker then makes its condition true. -/
def raised : List (Action (State Unit) Unit) := blocks ++ [.start (raise (fun _ => true) true), .op 0]

def raisedWorld : World (State Unit) Unit := ((World.init (fun _ => false) 1).run holds raised).get (by decide)

theorem reached_raisedWorld : Reached holds Allowed raisedWorld := by
  refine Reached.run (.init _ 1) (fun a ha w => ?_) (Option.some_get (by decide)).symm
  rcases List.mem_append.mp ha with ha | ha
  · rcases List.mem_cons.mp ha with rfl | ha
    · exact ⟨(), rfl⟩
    · rw [(List.mem_replicate.mp ha).2]
      trivial
  · rcases List.mem_cons.mp ha with rfl | ha
    · exact .inl ⟨_, _, rfl⟩
    · rw [List.mem_singleton.mp ha]
      trivial

end Conditions

open Conditions in
theorem no_lost_wake_raised : ∃ op, raisedWorld.ops[raisedWorld.cause ()]? = some op ∧ op.Pending 0 ∧ ¬op.Finished :=
  no_lost_wake (x := { set := [()], deadline := false, again := true, place := .blocked 0 }) (t := 0)
    reached_raisedWorld rfl rfl List.mem_cons_self rfl

open Conditions in
/-- In any interleaving of waits, timeouts and wakes, each registered thread has a slot of its own, `registered`
counts those in use, and a wake under way is of a thread still in the slot it was found in. -/
theorem slots_in_step {w : World (State ι) ι} (h : Reached holds Allowed w) :
    (∀ t s, w.seat t = some s ↔ w.tenant s = some t) ∧ w.registered = w.slots.countP (·.thread.isSome) ∧
      ∀ (j pos t : Nat) rest, w.ops[j]? = some (.waking pos t rest) → w.seat t = some pos := by
  have hinv := inv h
  refine ⟨hinv.seats, hinv.counted.trans ?_, fun j pos t rest hj => ?_⟩
  · induction w.slots with
    | nil => rfl
    | cons k l ih => rw [Tally.total_cons, List.countP_cons, ih, add_comm, Slot.used]
  · exact (hinv.seats t pos).mpr (Option.bind_eq_some_iff.mpr ⟨_, hinv.waking j pos t rest hj, rfl⟩)

open Conditions in
theorem slots_in_step_raised : raisedWorld.seat 0 = some 0 :=
  ((slots_in_step reached_raisedWorld).1 0 0).mpr rfl

end Kintane.Wait
