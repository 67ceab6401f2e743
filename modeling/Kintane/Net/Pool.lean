import Kintane.Net.Tcb

/-!
# The frame buffer pool

A fixed number of buffers, taken and given back by index, with books of how many were taken and
given back. The books are natural numbers; the source's are 64-bit words.
-/

namespace Kintane

namespace Net

def buffers : Nat := 4 + 2 * connections

end Net

structure Pool where
  buffers : List (List UInt8)
  held : List Bool
  taken : Nat
  returned : Nat

namespace Pool

def new : Pool :=
  ⟨List.replicate Net.buffers (List.replicate Net.ring 0), List.replicate Net.buffers false, 0, 0⟩

variable (p : Pool)

def take : Option Nat × Pool :=
  match p.held.findIdx? (!·) with
  | none => (none, p)
  | some i => (some i, { p with held := p.held.set i true, taken := p.taken + 1 })

def give (i : Nat) : Bool × Pool :=
  match p.held[i]? with
  | some true => (true, { p with held := p.held.set i false, returned := p.returned + 1 })
  | _ => (false, p)

def buffer (i : Nat) : Option (List UInt8) := if p.held[i]? = some true then p.buffers[i]? else none

def write (i : Nat) (bytes : List UInt8) : Pool := { p with buffers := p.buffers.set i bytes }

def takeTwo : Option (Nat × Nat) × Pool :=
  match p.take with
  | (none, p) => (none, p)
  | (some a, p) =>
    match p.take with
    | (some b, p) => (some (a, b), p)
    | (none, p) => (none, (p.give a).2)

end Pool

end Kintane
