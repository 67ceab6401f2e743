import Mathlib.Algebra.Ring.Int.Defs
import Kintane.Module.Elf

/-!
# Applying relocations

`S` is the symbol's address, `A` the addend, `P` the address of the place. A value that does not fit its
field is refused. The arithmetic wraps, as the source asks it to.
-/

namespace Kintane.Module

inductive RelocError where
  | unsupported (machine kind : Nat)
  | overflow (kind offset : Nat)
  | outOfSection (offset : Nat)
  | misaligned (kind offset : Nat)
  deriving DecidableEq, Repr

namespace X86_64

def rNone : Nat := 0
def r64 : Nat := 1
def rPc32 : Nat := 2
def rPlt32 : Nat := 4
def r32 : Nat := 10
def r32S : Nat := 11
def rPc64 : Nat := 24

end X86_64

namespace Aarch64

def rNone : Nat := 0
def rAbs64 : Nat := 257
def rAbs32 : Nat := 258
def rPrel64 : Nat := 260
def rPrel32 : Nat := 261
def rAdrPrelPgHi21 : Nat := 275
def rAddAbsLo12Nc : Nat := 277
def rLdst8AbsLo12Nc : Nat := 278
def rJump26 : Nat := 282
def rCall26 : Nat := 283
def rLdst16AbsLo12Nc : Nat := 284
def rLdst32AbsLo12Nc : Nat := 285
def rLdst64AbsLo12Nc : Nat := 286
def rLdst128AbsLo12Nc : Nat := 299

end Aarch64

/-- `*place::<N>(section, offset)? = value.to_le_bytes()`. -/
def store (n : Nat) (s : List UInt8) (offset value : Nat) : Except RelocError (List UInt8) :=
  match checkedAdd u64Max offset n with
  | none => .error (.outOfSection offset)
  | some stop =>
    if stop ≤ s.length then .ok (setSlice s offset (toLeBytes n value)) else .error (.outOfSection offset)

def signed (v : UInt64) : Int := v.toInt64.toInt

/-- `i32::try_from(v as i64)`, as the four bytes that are stored. -/
def asI32 (v : UInt64) : Option Nat :=
  if -2 ^ 31 ≤ signed v ∧ signed v < 2 ^ 31 then some (v.toNat % 2 ^ 32) else none

/-- A signed or unsigned 32-bit value. -/
def asWord (v : UInt64) : Option Nat :=
  if -2 ^ 31 ≤ signed v ∧ signed v < 2 ^ 32 then some (v.toNat % 2 ^ 32) else none

def storeIf (n : Nat) (s : List UInt8) (kind offset : Nat) (value : Option Nat) : Except RelocError (List UInt8) :=
  match value with
  | none => .error (.overflow kind offset)
  | some value => store n s offset value

def applyX86_64 (kind : Nat) (s : List UInt8) (offset : Nat) (sa p : UInt64) : Except RelocError (List UInt8) :=
  if kind = X86_64.rNone then .ok s
  else if kind = X86_64.r64 then store 8 s offset sa.toNat
  else if kind = X86_64.rPc64 then store 8 s offset (sa - p).toNat
  else if kind = X86_64.rPc32 ∨ kind = X86_64.rPlt32 then storeIf 4 s kind offset (asI32 (sa - p))
  else if kind = X86_64.r32 then
    storeIf 4 s kind offset (if sa.toNat < 2 ^ 32 then some sa.toNat else none)
  else if kind = X86_64.r32S then storeIf 4 s kind offset (asI32 sa)
  else .error (.unsupported emX86_64 kind)

def patch (s : List UInt8) (offset mask bits : Nat) : Except RelocError (List UInt8) :=
  match leAt 4 s offset with
  | none => .error (.outOfSection offset)
  | some old => store 4 s offset ((old &&& (mask ^^^ (2 ^ 32 - 1))) ||| (bits &&& mask))

def low32 (v : Int) : Nat := (v % 2 ^ 32).toNat

def applyAarch64 (kind : Nat) (s : List UInt8) (offset : Nat) (sa p : UInt64) : Except RelocError (List UInt8) :=
  if kind = Aarch64.rNone then .ok s
  else if kind = Aarch64.rAbs64 then store 8 s offset sa.toNat
  else if kind = Aarch64.rPrel64 then store 8 s offset (sa - p).toNat
  else if kind = Aarch64.rAbs32 then storeIf 4 s kind offset (asWord sa)
  else if kind = Aarch64.rPrel32 then storeIf 4 s kind offset (asWord (sa - p))
  else if kind = Aarch64.rCall26 ∨ kind = Aarch64.rJump26 then
    let v := sa - p
    if v &&& 3 ≠ 0 then .error (.misaligned kind offset)
    else if ¬(-2 ^ 27 ≤ signed v ∧ signed v < 2 ^ 27) then .error (.overflow kind offset)
    else patch s offset 0x03ffffff (low32 (signed v >>> (2 : Nat)))
  else if kind = Aarch64.rAdrPrelPgHi21 then
    let v := signed ((sa &&& ~~~0xfff) - (p &&& ~~~0xfff)) >>> (12 : Nat)
    if ¬(-2 ^ 20 ≤ v ∧ v < 2 ^ 20) then .error (.overflow kind offset)
    else
      let v := low32 v
      patch s offset (0x60000000 ||| 0x00ffffe0)
        (((v &&& 3) <<< 29) % 2 ^ 32 ||| (((v >>> 2) &&& 0x7ffff) <<< 5) % 2 ^ 32)
  else if kind = Aarch64.rAddAbsLo12Nc ∨ kind = Aarch64.rLdst8AbsLo12Nc then
    patch s offset (0xfff <<< 10) ((sa.toNat &&& 0xfff) <<< 10)
  else if kind = Aarch64.rLdst16AbsLo12Nc ∨ kind = Aarch64.rLdst32AbsLo12Nc ∨
      kind = Aarch64.rLdst64AbsLo12Nc ∨ kind = Aarch64.rLdst128AbsLo12Nc then
    let shift := if kind = Aarch64.rLdst16AbsLo12Nc then 1 else if kind = Aarch64.rLdst32AbsLo12Nc then 2
      else if kind = Aarch64.rLdst64AbsLo12Nc then 3 else 4
    let lo := sa.toNat &&& 0xfff
    if lo &&& (1 <<< shift - 1) ≠ 0 then .error (.misaligned kind offset)
    else patch s offset (0xfff <<< 10) ((lo >>> shift) <<< 10)
  else .error (.unsupported emAarch64 kind)

/-- Apply relocation `kind` for `machine` at `offset` within a section that will run at `sectionAddr`. -/
def apply (machine kind : Nat) (s : List UInt8) (sectionAddr offset symbol : Nat) (a : Int64) :
    Except RelocError (List UInt8) :=
  let p := UInt64.ofNat sectionAddr + UInt64.ofNat offset
  let sa := UInt64.ofNat symbol + a.toUInt64
  if machine = emX86_64 then applyX86_64 kind s offset sa p
  else if machine = emAarch64 then applyAarch64 kind s offset sa p
  else .error (.unsupported machine kind)

end Kintane.Module
