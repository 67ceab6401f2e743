import Kintane.Sched.Balance

/-!
# The thread table

Threads with their states, one run queue for each CPU, and which thread is current on each. The
operations that switch are split as in the source: a plan changes the table and says which slots
to switch between, and the switch itself changes no table.

An operation that fails part way leaves what it has changed, so each returns the table with its
result. The contexts and the time accounting are left out.
-/

namespace Kintane

open Function List

inductive ThreadState where
  | ready
  | running
  | blocked
  | exited
  deriving DecidableEq

inductive ThreadError where
  | tableFull
  | queueFull
  | noSuchThread
  | wrongState (state : ThreadState)
  | nothingRunnable
  | badStack
  | invariantBroken
  | badCpu
  | badAffinity
  deriving DecidableEq

/-- `Meta`: a thread without its context. -/
structure ThreadMeta (cpus : Nat) where
  id : ThreadId
  priority : Priority
  state : ThreadState
  /-- The CPU it runs on or is queued on, or last was. -/
  cpu : Fin cpus
  affinity : CpuSet
  idle : Bool
  deriving DecidableEq

structure Switch (n : Nat) where
  prev : Fin n
  next : Fin n
  deriving DecidableEq

/-- What an architecture asks of a stack. -/
structure StackRules where
  align : Nat
  minStack : Nat

structure Threads (n cpus : Nat) where
  metas : Fin n → Option (ThreadMeta cpus)
  runq : Fin cpus → RunQueue n
  current : Fin cpus → Option (Fin n)
  nextId : ThreadId
  migrations : Nat

namespace Threads

variable {n cpus : Nat}

def new (hn : 0 < n) (hcpus : 0 < cpus) (bootPriority : Priority) : Threads n cpus where
  metas := update (fun _ => none) ⟨0, hn⟩
    (some ⟨0, bootPriority, .running, ⟨0, hcpus⟩, CpuSet.all cpus, false⟩)
  runq _ := RunQueue.new n
  current := update (fun _ => none) ⟨0, hcpus⟩ (some ⟨0, hn⟩)
  nextId := 1
  migrations := 0

variable (t : Threads n cpus)

def cpuOf (cpus cpu : Nat) : Option (Fin cpus) := if h : cpu < cpus then some ⟨cpu, h⟩ else none

/-- The slot of the thread running on a CPU of that number: `current.get(cpu)`. -/
def currentOn (cpu : Nat) : Option (Fin cpus × Fin n) :=
  (cpuOf cpus cpu).bind fun c => (t.current c).map fun slot => (c, slot)

def runningMeta (cpu : Fin cpus) : Option (ThreadMeta cpus) := (t.current cpu).bind t.metas

def indexOf (id : ThreadId) : Option (Fin n) :=
  (finRange n).find? fun i => (t.metas i).any (·.id = id)

def lookup (id : ThreadId) : Option (Fin n × ThreadMeta cpus) :=
  (t.indexOf id).bind fun i => (t.metas i).map fun m => (i, m)

def loads (cpu : Fin cpus) : CpuLoad :=
  let running := t.runningMeta cpu
  { online := running.isSome
    running := (running.filter (!·.idle)).map (·.priority)
    queued := ((t.runq cpu).iter.filter fun x => (t.lookup x.1).any (!·.2.idle)).length }

def place (affinity : CpuSet) (last : Fin cpus) (priority : Priority) : Option (Fin cpus) :=
  Balance.placeWake t.loads affinity last priority

def freeSlot : Option (Fin n) := (finRange n).find? fun i => (t.metas i).isNone

def setMeta (slot : Fin n) (m : Option (ThreadMeta cpus)) : Threads n cpus :=
  { t with metas := update t.metas slot m }

def setQueue (cpu : Fin cpus) (q : RunQueue n) : Threads n cpus :=
  { t with runq := update t.runq cpu q }

def setCurrent (cpu : Fin cpus) (slot : Fin n) : Threads n cpus :=
  { t with current := update t.current cpu (some slot) }

/-- `next_id.wrapping_add(1)`. -/
def bumpId : Threads n cpus := { t with nextId := (t.nextId + 1) % 2 ^ 32 }

/-- Whether a new thread's affinity fits its CPU. -/
def affinityFits (affinity : CpuSet) (cpu : Fin cpus) (idle : Bool) : Bool :=
  affinity.contains cpu && (!idle || affinity = CpuSet.single cpu)

def adopt (cpu : Nat) (priority : Priority) (affinity : CpuSet) (idle : Bool) :
    Threads n cpus × Except ThreadError ThreadId :=
  match cpuOf cpus cpu with
  | none => (t, .error .badCpu)
  | some c =>
    if (t.current c).isSome then (t, .error .badCpu)
    else if !affinityFits affinity c idle then (t, .error .badAffinity)
    else
      match t.freeSlot with
      | none => (t, .error .tableFull)
      | some slot =>
        ((t.bumpId.setMeta slot (some ⟨t.nextId, priority, .running, c, affinity, idle⟩)).setCurrent
          c slot, .ok t.nextId)

def spawnOn (rules : StackRules) (priority : Priority) (stackTop stackSize : Nat) (affinity : CpuSet)
    (cpu : Nat) (idle : Bool) : Threads n cpus × Except ThreadError ThreadId :=
  match cpuOf cpus cpu with
  | none => (t, .error .badCpu)
  | some c =>
    if !affinityFits affinity c idle then (t, .error .badAffinity)
    else
      -- what aligning the top of the stack down loses
      let lost := stackTop % rules.align
      if stackSize < lost ∨ stackSize - lost < rules.minStack then (t, .error .badStack)
      else
        match t.freeSlot with
        | none => (t, .error .tableFull)
        | some slot =>
          let (q, r) := (t.runq c).enqueue t.nextId priority
          match r with
          | .error _ => (t.setQueue c q, .error .queueFull)
          | .ok () =>
            (((t.setQueue c q).setMeta slot
              (some ⟨t.nextId, priority, .ready, c, affinity, idle⟩)).bumpId, .ok t.nextId)

/-- Move a queued thread to another CPU's queue, the new one first. -/
def moveQueued (slot : Fin n) (source target : Fin cpus) : Threads n cpus × Except ThreadError Unit :=
  match t.metas slot with
  | none => (t, .error .noSuchThread)
  | some m =>
    if source = target then (t, .ok ())
    else
      let (q, r) := (t.runq target).enqueue m.id m.priority
      let t := t.setQueue target q
      match r with
      | .error _ => (t, .error .queueFull)
      | .ok () =>
        let (q, r) := (t.runq source).remove m.id
        let t := t.setQueue source q
        match r with
        | .error _ => (t.setQueue target ((t.runq target).remove m.id).1, .error .invariantBroken)
        | .ok _ =>
          let t := t.setMeta slot (some { m with cpu := target })
          ({ t with migrations := t.migrations + 1 }, .ok ())

def setAffinity (id : ThreadId) (affinity : CpuSet) : Threads n cpus × Except ThreadError Unit :=
  match t.lookup id with
  | none => (t, .error .noSuchThread)
  | some (slot, m) =>
    let usable := affinity.intersect (CpuSet.all cpus)
    if usable.isEmpty || m.idle then (t, .error .badAffinity)
    else
      let t := t.setMeta slot (some { m with affinity := usable })
      if m.state = .ready ∧ usable.contains m.cpu = false then
        match t.place usable m.cpu m.priority with
        | none => (t, .error .badAffinity)
        | some target => t.moveQueued slot m.cpu target
      else (t, .ok ())

def planNext (cpu : Fin cpus) : Threads n cpus × Except ThreadError (Switch n) :=
  match t.current cpu with
  | none => (t, .error .badCpu)
  | some prev =>
    let (q, x) := (t.runq cpu).pickNext
    let t := t.setQueue cpu q
    match x with
    | none => (t, .error .nothingRunnable)
    | some (nextId, _) =>
      match t.lookup nextId with
      | none => (t, .error .noSuchThread)
      | some (next, m) =>
        let t := (t.setMeta next (some { m with state := .running, cpu })).setCurrent cpu next
        if prev = next then (t, .error .invariantBroken) else (t, .ok ⟨prev, next⟩)

def planYield (cpu : Nat) :
    Threads n cpus × Except ThreadError (Option (Switch n × Option (Fin cpus))) :=
  match t.currentOn cpu with
  | none => (t, .error .badCpu)
  | some (c, slot) =>
    match t.metas slot with
    | none => (t, .error .noSuchThread)
    | some cur =>
      let allowedHere := cur.affinity.contains c
      match (t.runq c).peek with
      | none => (t, .ok none)
      | some (nextId, _) =>
        match t.lookup nextId with
        | none => (t, .error .noSuchThread)
        | some (_, next) =>
          if next.priority < cur.priority ∧ allowedHere then (t, .ok none)
          else
            match if allowedHere then some c else t.place cur.affinity c cur.priority with
            | none => (t, .error .badAffinity)
            | some target =>
              let (q, r) := (t.runq target).enqueue cur.id cur.priority
              let t := t.setQueue target q
              match r with
              | .error _ => (t, .error .queueFull)
              | .ok () =>
                let t := { t with migrations := t.migrations + if target = c then 0 else 1 }
                let t := t.setMeta slot (some { cur with state := .ready, cpu := target })
                let (t, r) := t.planNext c
                (t, r.map fun sw => some (sw, if target = c then none else some target))

/-- Whether a yield on a CPU would switch, as a tickless scheduler asks. -/
def contendedOn (cpu : Nat) : Bool :=
  match t.currentOn cpu with
  | none => false
  | some (c, slot) =>
    match t.metas slot with
    | none => false
    | some cur =>
      ((t.runq c).peek.bind fun x => t.lookup x.1).any fun next => cur.priority ≤ next.2.priority

def planLeave (cpu : Nat) (state : ThreadState) : Threads n cpus × Except ThreadError (Switch n) :=
  match t.currentOn cpu with
  | none => (t, .error .badCpu)
  | some (c, slot) =>
    if (t.runq c).isEmpty then (t, .error .nothingRunnable)
    else (t.setMeta slot ((t.metas slot).map fun m => { m with state })).planNext c

/-- Make a blocked thread ready; the CPU it went to, and whether that should reschedule. -/
def wakeOn (id : ThreadId) : Threads n cpus × Except ThreadError (Fin cpus × Bool) :=
  match t.lookup id with
  | none => (t, .error .noSuchThread)
  | some (slot, m) =>
    if m.state ≠ .blocked then (t, .error (.wrongState m.state))
    else
      match if m.idle then some m.cpu else t.place m.affinity m.cpu m.priority with
      | none => (t, .error .badAffinity)
      | some cpu =>
        let reschedule := Balance.needsReschedule (t.loads cpu) m.priority
        let (q, r) := (t.runq cpu).enqueue id m.priority
        let t := t.setQueue cpu q
        match r with
        | .error _ => (t, .error .queueFull)
        | .ok () =>
          let t := { t with migrations := t.migrations + if cpu = m.cpu then 0 else 1 }
          (t.setMeta slot (some { m with state := .ready, cpu }), .ok (cpu, reschedule))

def balance (cpu : Nat) : Threads n cpus × Option (ThreadId × Fin cpus) :=
  match t.currentOn cpu with
  | none => (t, none)
  | some (c, _) =>
    match Balance.pullSource t.loads c with
    | none => (t, none)
    | some source =>
      let movable := (t.runq source).iter.findSome? fun x =>
        (t.lookup x.1).bind fun (slot, m) =>
          if !m.idle && m.affinity.contains c then some (x.1, slot) else none
      match movable with
      | none => (t, none)
      | some (id, slot) =>
        let (t, r) := t.moveQueued slot source c
        match r with
        | .error _ => (t, none)
        | .ok () => (t, some (id, source))

def reap (id : ThreadId) : Threads n cpus × Except ThreadError Unit :=
  match t.lookup id with
  | none => (t, .error .noSuchThread)
  | some (slot, m) =>
    if m.state = .exited then (t.setMeta slot none, .ok ()) else (t, .error (.wrongState m.state))

/-! ## The check -/

def checkCurrent (cpu : Fin cpus) : Option String :=
  match t.current cpu with
  | none => none
  | some slot =>
    if !(t.metas slot).any fun m => m.state = .running && m.cpu = cpu then
      some "invariant 1: a CPU's current thread is not running there"
    else if (finRange cpus).any fun c => cpu < c && t.current c = some slot then
      some "invariant 1: one thread is current on two CPUs"
    else none

def checkMeta (m : ThreadMeta cpus) : Option String :=
  let queues := (finRange cpus).countP fun c => (t.runq c).contains m.id
  match m.state with
  | .running => if queues ≠ 0 then some "invariant 2: running thread is queued" else none
  | .blocked | .exited =>
    if queues ≠ 0 then some "invariant 3: blocked or exited thread is queued" else none
  | .ready =>
    if queues ≠ 1 || !(t.runq m.cpu).contains m.id then
      some "invariant 4: ready thread is not in exactly its CPU's queue"
    else if !m.affinity.contains m.cpu then
      some "invariant 4: ready thread is queued on a CPU it may not use"
    else none

def check : Except String Unit :=
  let joined := (finRange cpus).countP fun c => (t.current c).isSome
  let running := (finRange n).countP fun i => (t.metas i).any (·.state = .running)
  if running ≠ joined then
    .error "invariant 1: running threads do not match the CPUs that joined"
  else
    match ((finRange cpus).findSome? t.checkCurrent).or
      ((finRange n).findSome? fun i => (t.metas i).bind t.checkMeta) with
    | some e => .error e
    | none => .ok ()

end Threads

end Kintane
