import Mathlib.Data.List.Basic

/-!
# Wait queues

Threads that wait on one queue for a set of members of which any may be ready, and operations that change
the state the readiness is of and wake the queue. A thread looks at its members one at a time, registers,
looks at them again, and only then blocks. The sections under the queue's lock and under the scheduler's lock
are steps; a wake holds the queue's lock from its first slot to its last, and takes the scheduler's lock for
each thread it finds.
-/

namespace Kintane.Wait

def maxWaiters : Nat := 8

/-- `none` is the source's `FREE`, `u32::MAX`; no thread that waits is taken to have that identity. -/
structure Slot where
  thread : Option Nat
  /-- Set before the thread is woken, read under the scheduler's lock before it blocks. -/
  woken : Bool
  deriving DecidableEq

/-- What an operation does with the state `σ`, and when it wakes the queue. -/
inductive Prog (σ : Type) where
  | done
  | act (f : σ → σ) (rest : σ → Prog σ)
  /-- `wake_all`; with `skip`, only if `has_waiters`. -/
  | wake (skip : Bool) (rest : Prog σ)

inductive Op (σ : Type) where
  | run (p : Prog σ)
  /-- At the queue's lock. -/
  | locking (rest : Prog σ)
  /-- In the loop of `wake_all`, with the queue's lock, before a slot. -/
  | scanning (pos : Nat) (rest : Prog σ)
  /-- The slot's flag is set, and `wake_blocked` is next. -/
  | waking (pos thread : Nat) (rest : Prog σ)

inductive Place where
  | idle
  /-- The first check, with some members looked at. -/
  | first (looked : Nat)
  | registering
  /-- The check after registering. -/
  | second (slot looked : Nat)
  /-- At `block_until`. -/
  | blocking (slot : Nat)
  | blocked (slot : Nat)
  /-- At `release`. -/
  | leaving (slot : Nat) (found : Bool)
  /-- The check after the wait. -/
  | last (looked : Nat)
  /-- The queue was full. -/
  | polling
  deriving DecidableEq

structure Waiter (μ : Type) where
  set : List μ
  deadline : Bool
  /-- `wait_until`, which waits again after a wake that finds nothing. -/
  again : Bool
  place : Place

structure World (σ μ : Type) where
  state : σ
  slots : List Slot
  registered : Nat
  /-- The operation that holds the queue's lock. -/
  holder : Option Nat
  threads : List (Waiter μ)
  ops : List (Op σ)
  /-- The operation that last made a member ready. -/
  cause : μ → Nat

variable {σ μ : Type}

namespace World

/-- A queue nobody waits in, and any number of threads. -/
def init (state : σ) (threads : Nat) : World σ μ where
  state
  slots := List.replicate maxWaiters { thread := none, woken := false }
  registered := 0
  holder := none
  threads := List.replicate threads { set := [], deadline := false, again := false, place := .idle }
  ops := []
  cause _ := 0

def move (w : World σ μ) (t : Nat) (x : Waiter μ) (place : Place) : World σ μ :=
  { w with threads := w.threads.set t { x with place } }

def setOp (w : World σ μ) (j : Nat) (op : Op σ) : World σ μ := { w with ops := w.ops.set j op }

def register (w : World σ μ) (t : Nat) (x : Waiter μ) : World σ μ :=
  match w.slots.findIdx? fun k => k.thread == none with
  | none => w.move t x .polling
  | some s =>
    { w with slots := w.slots.set s { thread := some t, woken := false }, registered := w.registered + 1 }.move t x
      (.second s 0)

def release (w : World σ μ) (t : Nat) (x : Waiter μ) (s : Nat) (found : Bool) : World σ μ :=
  { w with slots := w.slots.modify s ({ · with thread := none }), registered := w.registered - 1 }.move t x
    (if found then .idle else .last 0)

def woken (w : World σ μ) (s : Nat) : Bool := (w.slots[s]?).any (·.woken)

variable (ready : σ → μ → Bool)

/-- The next step of a thread; `due` says whether its deadline, if it has one, has passed. -/
def advanceThread (w : World σ μ) (t : Nat) (due : Bool) : Option (World σ μ) :=
  match w.threads[t]? with
  | none => none
  | some x =>
    match x.place with
    | .idle => none
    | .first n =>
      match x.set[n]? with
      | some m => some (w.move t x (if ready w.state m then .idle else .first (n + 1)))
      | none => some (w.move t x .registering)
    | .registering => if w.holder = none then some (w.register t x) else none
    | .second s n =>
      match x.set[n]? with
      | some m => some (w.move t x (if ready w.state m then .leaving s true else .second s (n + 1)))
      | none => some (w.move t x (.blocking s))
    | .blocking s => some (w.move t x (if w.woken s ∨ (x.deadline ∧ due) then .leaving s false else .blocked s))
    | .blocked s => if x.deadline ∧ due then some (w.move t x (.leaving s false)) else none
    | .leaving s found => if w.holder = none then some (w.release t x s found) else none
    | .last n =>
      match x.set[n]? with
      | some m => some (w.move t x (if ready w.state m then .idle else .last (n + 1)))
      | none => some (w.move t x (if x.again ∧ ¬(x.deadline ∧ due) then .first 0 else .idle))
    | .polling => some (w.move t x (.last 0))

/-- `wake_blocked`, whose `wake_on` is taken to succeed: some CPU the thread may use has joined. -/
def wakeBlocked (w : World σ μ) (t : Nat) : World σ μ :=
  match w.threads[t]? with
  | none => w
  | some x =>
    match x.place with
    | .blocked s => w.move t x (.leaving s false)
    | _ => w

/-- A change of the state; what was not ready before and is now has this operation for its cause. -/
def change (w : World σ μ) (j : Nat) (f : σ → σ) : World σ μ :=
  { w with
    state := f w.state
    cause := fun m => if ready w.state m = false ∧ ready (f w.state) m = true then j else w.cause m }

def advanceOp (w : World σ μ) (j : Nat) : Option (World σ μ) :=
  match w.ops[j]? with
  | none => none
  | some (.run .done) => none
  | some (.run (.act f rest)) => some ((w.change ready j f).setOp j (.run (rest w.state)))
  | some (.run (.wake skip rest)) =>
    some (w.setOp j (if skip ∧ w.registered = 0 then .run rest else .locking rest))
  | some (.locking rest) =>
    if w.holder = none then some ({ w with holder := some j }.setOp j (.scanning 0 rest)) else none
  | some (.scanning pos rest) =>
    match w.slots[pos]? with
    | none => some ({ w with holder := none }.setOp j (.run rest))
    | some k =>
      match k.thread with
      | none => some (w.setOp j (.scanning (pos + 1) rest))
      | some t => some ({ w with slots := w.slots.set pos { k with woken := true } }.setOp j (.waking pos t rest))
  | some (.waking pos t rest) => some ((w.wakeBlocked t).setOp j (.scanning (pos + 1) rest))

end World

inductive Action (σ μ : Type) where
  /-- A thread that does nothing begins to wait. -/
  | wait (t : Nat) (set : List μ) (deadline again : Bool)
  | thread (t : Nat) (due : Bool)
  | start (p : Prog σ)
  | op (j : Nat)

def World.step (ready : σ → μ → Bool) (w : World σ μ) : Action σ μ → Option (World σ μ)
  | .wait t set deadline again =>
    match w.threads[t]? with
    | none => none
    | some x => if x.place = .idle then some (w.move t { x with set, deadline, again } (.first 0)) else none
  | .thread t due => w.advanceThread ready t due
  | .start p => some { w with ops := w.ops ++ [.run p] }
  | .op j => w.advanceOp ready j

def World.run (ready : σ → μ → Bool) (w : World σ μ) (as : List (Action σ μ)) : Option (World σ μ) :=
  as.foldlM (World.step ready) w

end Kintane.Wait
