import Mathlib.Data.Nat.Bitwise
import Kintane.Lib.Fallible

/-!
# The IOMMU's second-level page table

A translation domain is a four-level table of 64-bit entries. `map` writes 2 MiB leaves at level 2 where
the range allows and 4 KiB leaves at level 1 elsewhere, `unmap` clears leaves, and `translate` looks an
address up as the hardware would. Levels are counted from the leaves up, starting at 1.

The tables live in physical memory, words by address, in frames that come from a frame source. What the
source will answer is part of the state, and so is a record of every address written: the writes are the
effect of a call on the rest of the machine. Sums of addresses wrap at 64 bits, as they do in a release
build.
-/

namespace Kintane.Vtd

open Fallible

def pageSize : Nat := 4096
def pageShift : Nat := 12
def superpageSize : Nat := 2 * 1024 * 1024

/-- The bits of an entry that hold a physical address. -/
def addrMask : Nat := 0x000ffffffffff000

namespace Pte

def read : Nat := 1 <<< 0
def write : Nat := 1 <<< 1
def superpage : Nat := 1 <<< 7

end Pte

inductive Error where
  | noFrames
  | misaligned
  | addressWidth
  deriving DecidableEq, Repr

inductive Perm where
  | read
  | readWrite
  deriving DecidableEq, Repr

def Perm.bits : Perm → Nat
  | .read => Pte.read
  | .readWrite => Pte.read ||| Pte.write

structure Machine where
  mem : Nat → Nat
  /-- The addresses written, the latest first. -/
  writes : List Nat
  /-- The frames the source has given, the latest first. -/
  given : List Nat
  /-- What the source will answer. -/
  supply : List (Option Nat)

abbrev M := EStateM Error Machine

namespace Machine

def write64 (m : Machine) (phys value : Nat) : Machine :=
  { m with mem := fun a => if a = phys then value else m.mem a, writes := phys :: m.writes }

def zeroFrame (m : Machine) (phys : Nat) : Machine :=
  (List.range (pageSize / 8)).foldl (fun m i => m.write64 (phys + i * 8) 0) m

end Machine

def alloc : M Nat := do
  let m ← get
  match m.supply with
  | [] => throw .noFrames
  | none :: supply => do
    set { m with supply }
    throw .noFrames
  | some frame :: supply => do
    set { m with supply, given := frame :: m.given }
    return frame

structure Domain where
  id : Nat
  root : Nat
  levels : Nat

def index (iova level : Nat) : Nat := (iova >>> (pageShift + 9 * (level - 1))) &&& 0x1ff

namespace Domain

def new (id levels : Nat) : M Domain := do
  let root ← alloc
  modify (·.zeroFrame root)
  return { id, root, levels }

/-- The table an entry points at; a missing one is made. -/
def descend (slot : Nat) : M Nat := do
  let m ← get
  let entry := m.mem slot
  if entry &&& (Pte.read ||| Pte.write) ≠ 0 then return entry &&& addrMask
  else do
    let frame ← alloc
    modify (·.zeroFrame frame)
    modify (·.write64 slot ((frame &&& addrMask) ||| Pte.read ||| Pte.write))
    return frame

def walkFrom (iova target : Nat) : Nat → Nat → M Nat
  | 0, table => return table + index iova target * 8
  | level + 1, table =>
    if target < level + 1 then do
      let table ← descend (table + index iova (level + 1) * 8)
      walkFrom iova target level table
    else return table + index iova target * 8

def walk (d : Domain) (iova target : Nat) : M Nat := walkFrom iova target d.levels d.root

def leafFrom (m : Machine) (iova : Nat) : Nat → Nat → Option (Nat × Nat)
  | 0, _ => none
  | level + 1, table =>
    let slot := table + index iova (level + 1) * 8
    let entry := m.mem slot
    if entry &&& (Pte.read ||| Pte.write) = 0 then none
    else if level = 0 then some (slot, pageSize)
    else if entry &&& Pte.superpage ≠ 0 then some (slot, 1 <<< (pageShift + 9 * level))
    else leafFrom m iova level (entry &&& addrMask)

def leafOf (d : Domain) (m : Machine) (iova : Nat) : Option (Nat × Nat) := leafFrom m iova d.levels d.root

def translate (d : Domain) (m : Machine) (iova : Nat) : Option (Nat × Bool) :=
  match d.leafOf m iova with
  | none => none
  | some (slot, size) =>
    let entry := m.mem slot
    if entry &&& Pte.read = 0 then none
    else some ((entry &&& addrMask) + (iova &&& (size - 1)), entry &&& Pte.write ≠ 0)

/-- Whether the next leaf of a mapping is a superpage. -/
def takesSuperpage (iova phys stop : Nat) : Bool :=
  iova % superpageSize = 0 ∧ phys % superpageSize = 0 ∧ superpageSize ≤ stop - iova

/-- The loop of `map`. A round takes a page at least. -/
def mapFrom (d : Domain) (stop : Nat) (perm : Perm) : Nat → Nat → Nat → M Unit
  | 0, _, _ => return
  | rounds + 1, iova, phys =>
    if iova < stop then
      if takesSuperpage iova phys stop then do
        let slot ← d.walk iova 2
        modify (·.write64 slot ((phys &&& addrMask) ||| perm.bits ||| Pte.superpage))
        mapFrom d stop perm rounds (iova + superpageSize) ((phys + superpageSize) % 2 ^ 64)
      else do
        let slot ← d.walk iova 1
        modify (·.write64 slot ((phys &&& addrMask) ||| perm.bits))
        mapFrom d stop perm rounds (iova + pageSize) ((phys + pageSize) % 2 ^ 64)
    else return

def map (d : Domain) (iova phys len : Nat) (perm : Perm) : M Unit :=
  if iova % pageSize ≠ 0 ∨ phys % pageSize ≠ 0 ∨ len % pageSize ≠ 0 then throw .misaligned
  else if 2 ^ 64 ≤ iova + len then throw .addressWidth
  else d.mapFrom (iova + len) perm (len / pageSize) iova phys

/-- The loop of `unmap`. A superpage can carry it past the end. -/
def unmapFrom (d : Domain) (stop : Nat) : Nat → Nat → M Unit
  | 0, _ => return
  | rounds + 1, iova =>
    if iova < stop then do
      let m ← get
      match d.leafOf m iova with
      | none => unmapFrom d stop rounds ((iova + pageSize) % 2 ^ 64)
      | some (slot, size) => do
        modify (·.write64 slot 0)
        if size = superpageSize ∧ iova % superpageSize = 0 then
          unmapFrom d stop rounds ((iova + superpageSize) % 2 ^ 64)
        else unmapFrom d stop rounds ((iova + pageSize) % 2 ^ 64)
    else return

/-- Twice the pages there are is more rounds than the loop takes. -/
def unmapRounds : Nat := 2 ^ 53

def unmap (d : Domain) (iova len : Nat) : M Unit :=
  if iova % pageSize ≠ 0 ∨ len % pageSize ≠ 0 then throw .misaligned
  else if 2 ^ 64 ≤ iova + len then throw .addressWidth
  else d.unmapFrom (iova + len) unmapRounds iova

end Domain

def levels48 : Nat := 4

def newDomain (id : Nat) : M Domain := Domain.new id levels48

end Kintane.Vtd
