import Mathlib.Data.List.Basic

/-!
# Pipe ends

Pipes of the Linux personality, and the descriptors that name their ends. The pipes' counts stand under the
pipe table's lock, the descriptors under the lock of their process. A call takes the two one at a time, so a
call is a number of steps, each of them under one lock, and calls of any processes and threads interleave.
-/

namespace Kintane.Personality

def maxFds : Nat := 16

def maxPipes : Nat := 4

def maxProcs : Nat := 4

def maxHandles : Nat := 16

inductive Descriptor where
  | closed
  | stdin
  | console (handle : Nat)
  | file (fd : Nat)
  | pipeRead (pipe : Nat)
  | pipeWrite (pipe : Nat)
  | socket (i : Nat)
  | epoll (i : Nat)
  deriving DecidableEq, Repr

inductive End where
  | read
  | write
  deriving DecidableEq, Repr

/-- The descriptor that names an end. -/
def End.of (pipe : Nat) : End → Descriptor
  | .read => .pipeRead pipe
  | .write => .pipeWrite pipe

/-- The end a descriptor names. -/
def Descriptor.names : Descriptor → Option (Nat × End)
  | .pipeRead pipe => some (pipe, .read)
  | .pipeWrite pipe => some (pipe, .write)
  | _ => none

/-- The pipe ends that a table of descriptors names. -/
def endsOf (fds : List Descriptor) : List (Nat × End) := fds.filterMap Descriptor.names

structure Pipe where
  used : Bool
  readers : Nat
  writers : Nat
  deriving DecidableEq, Repr

namespace Pipe

def empty : Pipe := { used := false, readers := 0, writers := 0 }

def fresh : Pipe := { used := true, readers := 1, writers := 1 }

def addEnd (p : Pipe) : End → Pipe
  | .read => { p with readers := p.readers + 1 }
  | .write => { p with writers := p.writers + 1 }

def subEnd (p : Pipe) : End → Pipe
  | .read => { p with readers := p.readers - 1 }
  | .write => { p with writers := p.writers - 1 }

def dropEnd (p : Pipe) (e : End) : Pipe :=
  let p := p.subEnd e
  if p.readers = 0 ∧ p.writers = 0 then empty else p

end Pipe

/-! ## Tables of descriptors -/

def lowestFree (fds : List Descriptor) : Option Nat := fds.findIdx? (· == .closed)

def place (fds : List Descriptor) (d : Descriptor) : Option (List Descriptor) :=
  (lowestFree fds).map fun i => fds.set i d

/-- Both ends of a pipe, or neither. -/
def placeBoth (fds : List Descriptor) (pipe : Nat) : Option (List Descriptor) := do
  let fds ← place fds (.pipeRead pipe)
  place fds (.pipeWrite pipe)

/-- An open descriptor. -/
def descriptor (fds : List Descriptor) (fd : Nat) : Option Descriptor :=
  match fds[fd]? with
  | none => none
  | some .closed => none
  | some d => some d

def noFds : List Descriptor := List.replicate maxFds .closed

/-- What a program starts with. -/
def startFds : List Descriptor := [.stdin, .console 0, .console 1] ++ List.replicate (maxFds - 3) .closed

/-! ## Processes and calls -/

inductive Phase where
  /-- Nothing is in the slot. -/
  | free
  /-- A process is being made in the slot, or taken out of it. -/
  | claimed
  | running
  /-- The last thread has gone. -/
  | ended
  deriving DecidableEq, Repr

structure Proc where
  phase : Phase
  /-- The Linux state's descriptors, while there is one. -/
  fds : Option (List Descriptor)
  deriving DecidableEq, Repr

inductive Call where
  /-- `pipe`, with its pipe made and its descriptors not yet placed. -/
  | placing (slot pipe : Nat)
  /-- Ends to be dropped, and then a slot to be given up. -/
  | dropping (ends : List (Nat × End)) (slot : Option Nat)
  /-- `fork`, with the child's slot claimed. -/
  | forking (parent child : Nat)
  /-- `inherit`, some way through its copy of the parent's descriptors. -/
  | inheriting (child : Nat) (done todo : List Descriptor) (handles : Nat)
  /-- `fork`, with everything but the child's thread. -/
  | starting (child : Nat)
  | finished
  deriving DecidableEq, Repr

structure World where
  pipes : List Pipe
  procs : List Proc
  calls : List Call
  deriving DecidableEq, Repr

namespace World

def init : World where
  pipes := List.replicate maxPipes .empty
  procs := List.replicate maxProcs { phase := .free, fds := none }
  calls := []

def setCall (w : World) (i : Nat) (c : Call) : World := { w with calls := w.calls.set i c }

def newCall (w : World) (c : Call) : World := { w with calls := w.calls ++ [c] }

def onProc (w : World) (slot : Nat) (f : Proc → Proc) : World := { w with procs := w.procs.modify slot f }

def setFds (w : World) (slot : Nat) (fds : Option (List Descriptor)) : World := w.onProc slot ({ · with fds })

def setPhase (w : World) (slot : Nat) (phase : Phase) : World := w.onProc slot ({ · with phase })

def onPipe (w : World) (pipe : Nat) (f : Pipe → Pipe) : World := { w with pipes := w.pipes.modify pipe f }

def fdsOf (w : World) (slot : Nat) : Option (List Descriptor) := (w.procs[slot]?).bind (·.fds)

def phaseOf (w : World) (slot : Nat) : Option Phase := (w.procs[slot]?).map (·.phase)

/-! ## The calls' steps -/

/-- The part of `pipe` under the pipe table's lock. -/
def pipe (w : World) (slot : Nat) : Option World :=
  if w.phaseOf slot = some .running then do
    let i ← w.pipes.findIdx? fun p => !p.used
    return (w.onPipe i fun _ => .fresh).newCall (.placing slot i)
  else none

/-- The part of `close` under the process's lock. -/
def close (w : World) (slot fd : Nat) : Option World :=
  if w.phaseOf slot = some .running then do
    let fds ← w.fdsOf slot
    let d ← descriptor fds fd
    return (w.setFds slot (some (fds.set fd .closed))).newCall (.dropping (endsOf [d]) none)
  else none

def fork (w : World) (parent : Nat) : Option World :=
  if w.phaseOf parent = some .running then do
    let child ← w.procs.findIdx? fun p => p.phase == .free
    return (w.setPhase child .claimed).newCall (.forking parent child)
  else none

def processEnded (w : World) (slot : Nat) : Option World :=
  if w.phaseOf slot = some .running then do
    let fds ← w.fdsOf slot
    return ((w.setFds slot (some noFds)).setPhase slot .ended).newCall (.dropping (endsOf fds) none)
  else none

/-- `teardown` of the process in a slot: its state is taken, its ends dropped, the slot given up. -/
def release (w : World) (slot : Nat) : World × Call :=
  ((w.setFds slot none).setPhase slot .claimed, .dropping (endsOf ((w.fdsOf slot).getD [])) (some slot))

def teardown (w : World) (slot : Nat) : Option World :=
  if w.phaseOf slot = some .ended then
    let (w, c) := w.release slot
    some (w.newCall c)
  else none

/-- A program is started in a free slot. -/
def start (w : World) (slot : Nat) : Option World :=
  if w.phaseOf slot = some .free then some ((w.setFds slot (some startFds)).setPhase slot .running) else none

/-- `fork` that has to give up its child. -/
def abandon (w : World) (i child : Nat) : World :=
  let (w, c) := w.release child
  w.setCall i c

/-- One descriptor of `inherit`. -/
def inheritOne (w : World) (i child : Nat) (done : List Descriptor) (d : Descriptor) (todo : List Descriptor)
    (handles : Nat) : World :=
  match d with
  | .console _ =>
    if handles < maxHandles then
      w.setCall i (.inheriting child (done ++ [.console handles]) todo (handles + 1))
    else w.abandon i child
  | .file _ => w.setCall i (.inheriting child (done ++ [.closed]) todo handles)
  | .pipeRead pipe =>
    (w.onPipe pipe (·.addEnd .read)).setCall i (.inheriting child (done ++ [.pipeRead pipe]) todo handles)
  | .pipeWrite pipe =>
    (w.onPipe pipe (·.addEnd .write)).setCall i (.inheriting child (done ++ [.pipeWrite pipe]) todo handles)
  | d => w.setCall i (.inheriting child (done ++ [d]) todo handles)

def advance (w : World) (i : Nat) : Option World :=
  match w.calls[i]? with
  | some (.placing slot pipe) =>
    match (w.fdsOf slot).bind fun fds => placeBoth fds pipe with
    | some fds => some ((w.setFds slot (some fds)).setCall i .finished)
    | none => some (w.setCall i (.dropping [(pipe, .read), (pipe, .write)] none))
  | some (.dropping ((pipe, e) :: ends) slot) =>
    some ((w.onPipe pipe (·.dropEnd e)).setCall i (.dropping ends slot))
  | some (.dropping [] none) => some (w.setCall i .finished)
  | some (.dropping [] (some slot)) => some ((w.setPhase slot .free).setCall i .finished)
  | some (.forking parent child) =>
    match w.fdsOf parent with
    | none => some (w.abandon i child)
    | some fds => some (w.setCall i (.inheriting child [] fds 0))
  | some (.inheriting child done (d :: todo) handles) => some (w.inheritOne i child done d todo handles)
  | some (.inheriting child done [] _) =>
    some ((w.setFds child (some done)).setCall i (.starting child))
  | some (.starting child) => some ((w.setPhase child .running).setCall i .finished)
  | some .finished => none
  | none => none

/-- `start_resumed` fails, and `fork` takes its child down. -/
def startFails (w : World) (i : Nat) : Option World :=
  match w.calls[i]? with
  | some (.starting child) => some (w.abandon i child)
  | _ => none

end World

inductive Action where
  | start (slot : Nat)
  | pipe (slot : Nat)
  | close (slot fd : Nat)
  | fork (parent : Nat)
  | processEnded (slot : Nat)
  | teardown (slot : Nat)
  | advance (i : Nat)
  | startFails (i : Nat)
  deriving DecidableEq, Repr

def World.step (w : World) : Action → Option World
  | .start slot => w.start slot
  | .pipe slot => w.pipe slot
  | .close slot fd => w.close slot fd
  | .fork parent => w.fork parent
  | .processEnded slot => w.processEnded slot
  | .teardown slot => w.teardown slot
  | .advance i => w.advance i
  | .startFails i => w.startFails i

end Kintane.Personality
