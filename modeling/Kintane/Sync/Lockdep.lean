import Kintane.Lib.Word

/-!
# Lock-order checking

The checker of `lockdep.rs`: one order of lock classes that all contexts share, kept closed under
transitivity as edges are added, and a stack of held locks for each context.

A class is a reference that is compared by address, so classes are the values of a type with
decidable equality, and `name` gives the text of each. The array of classes with its length
`known` is a list.
-/

namespace Kintane

namespace Lockdep

def maxClasses : Nat := 64

def maxHeld : Nat := 16

end Lockdep

/-- `Violation`, with the names of the classes it is about. -/
inductive LockViolation where
  | inversion (held acquiring : String)
  | recursive (name : String)
  | sameClass (name : String)
  | tooDeep (name : String)
  | tooManyClasses (name : String)
  | unbalanced (name : String)
  deriving DecidableEq

/-- `Order`: the classes, the order seen between them, and what has been reported. -/
structure LockOrder (κ : Type) where
  classes : List κ
  /-- Bit `y` of `after[x]` is set when class `y` was taken while `x` was held, directly or
  through other classes. -/
  after : List (BitVec 64)
  count : Nat
  first : Option LockViolation

structure HeldLock where
  cls : Nat
  inst : Nat
  deriving DecidableEq

/-- `Stack`: what one context holds. Its depth is the length of `held`. -/
structure LockStack where
  held : List HeldLock
  /-- Acquisitions that were not pushed, and not released yet. -/
  untracked : Nat

/-- `Result::and`: the first error. -/
def Except.andThen {ε : Type} : Except ε Unit → Except ε Unit → Except ε Unit
  | .ok _, next => next
  | .error e, _ => .error e

/-- The last position at which `p` holds. -/
def rposition {α : Type} (p : α → Bool) : List α → Option Nat
  | [] => none
  | a :: l =>
    match rposition p l with
    | some i => some (i + 1)
    | none => if p a then some 0 else none

namespace LockOrder

variable {κ : Type} [DecidableEq κ] (name : κ → String)

def new : LockOrder κ := ⟨[], List.replicate Lockdep.maxClasses 0, 0, none⟩

variable (order : LockOrder κ)

def afterOf (x : Nat) : BitVec 64 := order.after[x]?.getD 0

def hasBit (w : BitVec 64) (i : Nat) : Bool := w &&& (1#64 <<< i) ≠ 0

def addEdge (src dst : Nat) : LockOrder κ :=
  let gained := order.afterOf dst ||| (1#64 <<< dst)
  { order with
    after := order.after.mapIdx fun x w =>
      if x < order.classes.length ∧ (x = src ∨ hasBit w src) then w ||| gained else w }

def indexOf (cls : κ) : Option Nat := order.classes.findIdx? (· = cls)

def register (cls : κ) : Option Nat × LockOrder κ :=
  match order.indexOf cls with
  | some i => (some i, order)
  | none =>
    if order.classes.length < Lockdep.maxClasses then
      (some order.classes.length, { order with classes := order.classes ++ [cls] })
    else (none, order)

def found (v : LockViolation) : LockOrder κ :=
  { order with count := satAdd u64Max order.count 1, first := order.first.orElse fun _ => some v }

def nameOf (i : Nat) : String := (order.classes[i]?).elim "?" name

/-- The loop over the held locks: each is checked against the class that is taken. -/
def scan (cls : κ) (index : Nat) :
    LockOrder κ → Except LockViolation Unit → List HeldLock → LockOrder κ × Except LockViolation Unit
  | order, verdict, [] => (order, verdict)
  | order, verdict, h :: hs =>
    if h.cls = index then
      scan cls index order (Except.andThen verdict (.error (.sameClass (name cls)))) hs
    else if hasBit (order.afterOf index) h.cls then
      scan cls index order
        (Except.andThen verdict (.error (.inversion (order.nameOf name h.cls) (name cls)))) hs
    else if hasBit (order.afterOf h.cls) index then scan cls index order verdict hs
    else scan cls index (order.addEdge h.cls index) verdict hs

end LockOrder

namespace Lockdep

variable {κ : Type} [DecidableEq κ] (name : κ → String)

def emptyStack : LockStack := ⟨[], 0⟩

/-- Record an acquisition of `inst`, of class `cls`; one that may block is checked. -/
def take (order : LockOrder κ) (stack : LockStack) (cls : κ) (inst : Nat) (check : Bool) :
    LockOrder κ × LockStack × Except LockViolation Unit :=
  match order.register cls with
  | (none, order) =>
    let v := .tooManyClasses (name cls)
    (order.found v, { stack with untracked := stack.untracked + 1 }, .error v)
  | (some index, order) =>
    -- Recursion first, before anything is recorded.
    if stack.held.any fun h => h.cls = index && h.inst = inst then
      let v := .recursive (name cls)
      (order.found v, stack, .error v)
    else
      let (order, verdict) := order.scan name cls index (.ok ()) (if check then stack.held else [])
      if stack.held.length < maxHeld then
        let stack := { stack with held := stack.held ++ [⟨index, inst⟩] }
        match verdict with
        | .ok _ => (order, stack, .ok ())
        | .error v => (order.found v, stack, .error v)
      else
        let v := .tooDeep (name cls)
        (order.found v, { stack with untracked := stack.untracked + 1 }, .error v)

def releaseIn (order : LockOrder κ) (stack : LockStack) (cls : κ) (inst : Nat) :
    LockOrder κ × LockStack × Except LockViolation Unit :=
  let place := (order.indexOf cls).bind fun index =>
    rposition (fun h => h.cls = index && h.inst = inst) stack.held
  match place with
  | some i => (order, { stack with held := stack.held.eraseIdx i }, .ok ())
  | none =>
    if stack.untracked = 0 then
      let v := .unbalanced (name cls)
      (order.found v, stack, .error v)
    else (order, { stack with untracked := stack.untracked - 1 }, .ok ())

end Lockdep

end Kintane
