import Mathlib.Data.BitVec

/-!
# TLB shootdown

The bookkeeping with which one CPU asks others to forget a translation and learns that they
did. A `Shootdown` is six words, and everything done with it is a sequence of loads, stores
and read-modify-writes of one word. The model takes them one at a time: an *initiator*, which
holds the lock that serialises requests, is somewhere in `publish` or `finish`, and each CPU
has a stack of `service` calls, since an interrupt can begin one inside another. A `Choice`
says who takes the next step.

`log` records what the protocol is about: requests posted, flushes made, and each `finish`
that returned `Ok`. `Confirmed` is what `finish` promises.

A `service` call clears its CPU's bit for whatever request is current when it gets there. If
a call is interrupted after it has read the address, a nested call can answer the request,
the next request can be posted, and the outer call then answers that one without flushing
for it. `Fresh` excludes this: when a request is posted, the innermost call on a
target has not yet flushed and does not hold another address. Calls that do not nest are
always fresh (`Unnested`).
-/

namespace Kintane

/-- `Shootdown`: one outstanding request at a time, and what answered it. -/
structure Shootdown (w : Nat) where
  /-- The page to invalidate, or `ALL`. -/
  addr : BitVec w
  /-- CPUs that have not flushed for the current request yet. -/
  pending : BitVec w
  answered : BitVec w
  asked : BitVec w
  requests : BitVec w
  flushes : BitVec w

namespace Shootdown

variable {w : Nat}

/-- `ALL`: the address value that means every translation. -/
def all (w : Nat) : BitVec w := BitVec.allOnes w

def new (w : Nat) : Shootdown w := ⟨0, 0, 0, 0, 0, 0⟩

/-- The mask bit for `cpu`, or `none` past the word. -/
def bit (w cpu : Nat) : Option (BitVec w) := if cpu < w then some (BitVec.twoPow w cpu) else none

/-- `addr.unwrap_or(ALL)`. -/
def place (addr : Option (BitVec w)) : BitVec w := addr.getD (all w)

/-- `(addr != ALL).then_some(addr)`. -/
def shown (addr : BitVec w) : Option (BitVec w) := if addr ≠ all w then some addr else none

/-! ## Programs -/

/-- Where the holder of the lock is: which of its words it touches next. -/
inductive Initiator (w : Nat) where
  | idle
  /-- `publish`: load `pending`. -/
  | check (addr : Option (BitVec w)) (targets : BitVec w)
  /-- Store `answered`. -/
  | clear (addr : Option (BitVec w)) (targets : BitVec w)
  /-- Store `asked`. -/
  | ask (addr : Option (BitVec w)) (targets : BitVec w)
  /-- Store `addr`. -/
  | place (addr : Option (BitVec w)) (targets : BitVec w)
  /-- Add to `requests`. -/
  | count (addr : Option (BitVec w)) (targets : BitVec w)
  /-- Store `pending`. -/
  | post (addr : Option (BitVec w)) (targets : BitVec w)
  /-- `publish` returned `true`. -/
  | published
  /-- `finish`: load `asked`. -/
  | readAsked
  /-- Load `answered`. -/
  | readAnswered (asked : BitVec w)
  /-- Load `pending`. -/
  | readPending (asked answered : BitVec w)

/-- Where a `service` call is. -/
inductive Service (w : Nat) where
  /-- Load `pending`. -/
  | entered
  /-- It has this CPU's bit; load `addr`. -/
  | seen
  /-- Flush. -/
  | loaded (addr : BitVec w)
  /-- Or into `answered`. -/
  | flushed
  /-- Add to `flushes`. -/
  | answered
  /-- And out of `pending`. -/
  | counted
  deriving DecidableEq

inductive Event (w : Nat) where
  | posted (addr : Option (BitVec w)) (targets : BitVec w)
  | flushed (cpu : Nat) (addr : Option (BitVec w))
  | finished
  deriving DecidableEq

structure State (w : Nat) where
  word : Shootdown w
  initiator : Initiator w
  /-- Each CPU's service calls, the innermost first. -/
  stack : Nat → List (Service w)
  /-- What happened, the latest first. -/
  log : List (Event w)

def State.init (w : Nat) : State w := ⟨.new w, .idle, fun _ => [], []⟩

inductive Choice (w : Nat) where
  /-- Take the lock and call `publish`. -/
  | publish (addr : Option (BitVec w)) (targets : BitVec w)
  /-- Call `finish` for the request just published. -/
  | finish
  | release
  /-- The initiator's next access. -/
  | initiator
  /-- A call of `service` begins on a CPU, inside whatever runs there. -/
  | enter (cpu : Nat)
  /-- The next access of the innermost `service` call on a CPU. -/
  | service (cpu : Nat)

def stepInitiator (s : State w) : Option (State w) :=
  match s.initiator with
  | .idle | .published => none
  | .check a t =>
    if s.word.pending ≠ 0 then some { s with initiator := .idle }
    else some { s with initiator := .clear a t }
  | .clear a t => some { s with word := { s.word with answered := 0 }, initiator := .ask a t }
  | .ask a t => some { s with word := { s.word with asked := t }, initiator := .place a t }
  | .place a t =>
    some { s with word := { s.word with addr := Shootdown.place a }, initiator := .count a t }
  | .count a t =>
    some { s with
      word := { s.word with requests := s.word.requests + 1 }, initiator := .post a t }
  | .post a t =>
    some { s with
      word := { s.word with pending := t }, initiator := .published, log := .posted a t :: s.log }
  | .readAsked => some { s with initiator := .readAnswered s.word.asked }
  | .readAnswered asked => some { s with initiator := .readPending asked s.word.answered }
  | .readPending asked answered =>
    if s.word.pending = 0 ∧ asked = answered then
      some { s with initiator := .published, log := .finished :: s.log }
    else some { s with initiator := .published }

def State.setStack (s : State w) (cpu : Nat) (calls : List (Service w)) : State w :=
  { s with stack := Function.update s.stack cpu calls }

def stepService (s : State w) (cpu : Nat) : Option (State w) :=
  match bit w cpu, s.stack cpu with
  | none, _ | _, [] => none
  | some b, .entered :: calls =>
    if s.word.pending &&& b = 0 then some (s.setStack cpu calls)
    else some (s.setStack cpu (.seen :: calls))
  | some _, .seen :: calls => some (s.setStack cpu (.loaded s.word.addr :: calls))
  | some _, .loaded a :: calls =>
    some { s.setStack cpu (.flushed :: calls) with log := .flushed cpu (shown a) :: s.log }
  | some b, .flushed :: calls =>
    some { s.setStack cpu (.answered :: calls) with
      word := { s.word with answered := s.word.answered ||| b } }
  | some _, .answered :: calls =>
    some { s.setStack cpu (.counted :: calls) with
      word := { s.word with flushes := s.word.flushes + 1 } }
  | some b, .counted :: calls =>
    some { s.setStack cpu calls with
      word := { s.word with pending := s.word.pending &&& ~~~b } }

/-- One step of the whole system; `none` where the choice makes no sense. -/
def step (s : State w) : Choice w → Option (State w)
  | .publish a t =>
    match s.initiator with
    | .idle => some { s with initiator := .check a t }
    | _ => none
  | .finish =>
    match s.initiator with
    | .published => some { s with initiator := .readAsked }
    | _ => none
  | .release =>
    match s.initiator with
    | .published => some { s with initiator := .idle }
    | _ => none
  | .initiator => stepInitiator s
  | .enter cpu =>
    match bit w cpu with
    | none => some s
    | some _ => some (s.setStack cpu (.entered :: s.stack cpu))
  | .service cpu => stepService s cpu

/-- The states of runs whose every step is allowed. -/
inductive Reach (allowed : State w → Choice w → Prop) : State w → Prop
  | init : Reach allowed (State.init w)
  | next {s s' : State w} {c : Choice w} :
      Reach allowed s → allowed s c → step s c = some s' → Reach allowed s'

/-! ## What is promised, and on what condition -/

/-- Since the last request was posted, the CPU flushed for it. -/
def Served (log : List (Event w)) (cpu : Nat) : Prop :=
  ∃ since a t before, log = since ++ .posted a t :: before ∧
    (∀ a' t', .posted a' t' ∉ since) ∧ .flushed cpu (shown (place a)) ∈ since

/-- The last request posted. -/
def request : List (Event w) → Option (Option (BitVec w) × BitVec w)
  | [] => none
  | .posted a t :: _ => some (a, t)
  | _ :: log => request log

/-- Whenever `finish` returned `Ok`, every target of the last request had flushed for it
after it was posted. -/
def Confirmed (log : List (Event w)) : Prop :=
  ∀ later earlier, log = later ++ .finished :: earlier →
    ∃ a t, request earlier = some (a, t) ∧ ∀ cpu, t.getLsbD cpu = true → Served earlier cpu

/-- A call that will answer without flushing for `addr`. -/
def Service.stale (addr : BitVec w) : Service w → Bool
  | .entered | .seen => false
  | .loaded a => a ≠ addr
  | .flushed | .answered | .counted => true

/-- A request is posted only when no target's innermost call is stale for it. -/
def Fresh (s : State w) : Choice w → Prop
  | .initiator =>
    match s.initiator with
    | .post a t =>
      ∀ cpu, t.getLsbD cpu = true → ∀ f ∈ (s.stack cpu).head?, f.stale (place a) = false
    | _ => True
  | _ => True

/-- No call finds its bit while another on its CPU is under way. -/
def Unnested (s : State w) : Choice w → Prop
  | .service cpu =>
    (s.stack cpu).head? = some .entered → s.word.pending.getLsbD cpu = true →
      ∀ f ∈ (s.stack cpu).tail, f = .entered
  | _ => True

instance (s : State w) : ∀ c, Decidable (Unnested s c)
  | .service _ => inferInstanceAs (Decidable (_ → _ → _))
  | .publish .. | .finish | .release | .initiator | .enter _ => .isTrue trivial

end Shootdown

end Kintane
