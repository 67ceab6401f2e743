import Kintane.Lib.Bytes
import Kintane.Lib.Slices
import Kintane.Lib.Word

/-!
# Reading a relocatable object

A module file is bytes that nobody vouches for. The reader checks each offset and size against the file
before it reads through it. An index out of bounds, or a sum or product that leaves 64 bits where the
source does not check it, stops the program; the theorems say that this never happens.
-/

namespace Kintane.Module

open Slices

def emX86_64 : Nat := 62
def emAarch64 : Nat := 183

def shtSymtab : Nat := 2
def shtRela : Nat := 4
def shtNobits : Nat := 8
def shtRel : Nat := 9

def shfWrite : Nat := 0x1
def shfAlloc : Nat := 0x2
def shfExecinstr : Nat := 0x4
def shfTls : Nat := 0x400

def shnUndef : Nat := 0
def shnAbs : Nat := 0xfff1
def shnCommon : Nat := 0xfff2

def stbLocal : Nat := 0

def ehdrLen : Nat := 64
def shdrLen : Nat := 64
def symLen : Nat := 24
def relaLen : Nat := 24
def etRel : Nat := 1

inductive ElfError where
  | tooShort
  | notElf64Le
  | notRelocatable (eType : Nat)
  | badHeader
  | sectionOutOfFile (index : Nat)
  | badString (offset : Nat)
  | noSuchSection (index : Nat)
  | badEntrySize (index : Nat)
  deriving DecidableEq, Repr

abbrev ER (α : Type) := Except (Stop ElfError) α

def refuse {α : Type} (e : ElfError) : ER α := .error (.err e)

structure Object where
  bytes : List UInt8
  machine : Nat
  shoff : Nat
  shnum : Nat
  shstrndx : Nat
  deriving DecidableEq

structure Section where
  index : Nat
  name : Nat
  kind : Nat
  flags : Nat
  offset : Nat
  size : Nat
  link : Nat
  info : Nat
  align : Nat
  entsize : Nat
  deriving DecidableEq

def Section.isAlloc (s : Section) : Bool := s.flags &&& shfAlloc ≠ 0

structure Symbol where
  name : Nat
  info : Nat
  shndx : Nat
  value : Nat
  size : Nat
  deriving DecidableEq

def Symbol.binding (s : Symbol) : Nat := s.info >>> 4

structure Rela where
  offset : Nat
  symbol : Nat
  kind : Nat
  addend : Int64
  deriving DecidableEq

/-- A word of `n` bytes, if it is there. -/
def leAt (n : Nat) (b : List UInt8) (pos : Nat) : Option Nat :=
  match checkedAdd u64Max pos n with
  | none => none
  | some _ => (getSlice b pos n).map fromLeBytes

def u16At : List UInt8 → Nat → Option Nat := leAt 2
def u32At : List UInt8 → Nat → Option Nat := leAt 4
def u64At : List UInt8 → Nat → Option Nat := leAt 8

namespace Object

def parse (bytes : List UInt8) : ER Object :=
  if bytes.length < ehdrLen then refuse .tooShort
  else do
    let magic ← range bytes 0 4
    let elfClass ← index bytes 4
    let data ← index bytes 5
    let version ← index bytes 6
    if magic ≠ [0x7f, 0x45, 0x4c, 0x46] ∨ elfClass ≠ 2 ∨ data ≠ 1 ∨ version ≠ 1 then refuse .notElf64Le
    else do
      let eType ← okOr (u16At bytes 16) .tooShort
      if eType ≠ etRel then refuse (.notRelocatable eType)
      else do
        let machine ← okOr (u16At bytes 18) .tooShort
        let shoff ← okOr (u64At bytes 40) .tooShort
        let shentsize ← okOr (u16At bytes 58) .tooShort
        let shnum ← okOr (u16At bytes 60) .tooShort
        let shstrndx ← okOr (u16At bytes 62) .tooShort
        if shentsize ≠ shdrLen ∨ shnum = 0 ∨ shnum ≤ shstrndx then refuse .badHeader
        else do
          let stop ← okOr ((checkedMul u64Max shnum shdrLen).bind fun n => checkedAdd u64Max n shoff) .badHeader
          if bytes.length < stop then refuse (.sectionOutOfFile 0)
          else return { bytes, machine, shoff, shnum, shstrndx }

def field (o : Object) (read : List UInt8 → Nat → Option Nat) (index pos k : Nat) : ER Nat := do
  let here ← fit64 (pos + k)
  okOr (read o.bytes here) (.sectionOutOfFile index)

def sectionAt (o : Object) (index : Nat) : ER Section :=
  if o.shnum ≤ index then refuse (.noSuchSection index)
  else do
    let skip ← fit64 (index * shdrLen)
    let pos ← fit64 (o.shoff + skip)
    let name ← o.field u32At index pos 0
    let kind ← o.field u32At index pos 4
    let flags ← o.field u64At index pos 8
    let offset ← o.field u64At index pos 24
    let size ← o.field u64At index pos 32
    let link ← o.field u32At index pos 40
    let info ← o.field u32At index pos 44
    let align ← o.field u64At index pos 48
    let entsize ← o.field u64At index pos 56
    return { index, name, kind, flags, offset, size, link, info, align, entsize }

def data (o : Object) (s : Section) : ER (List UInt8) :=
  if s.kind = shtNobits then .ok []
  else do
    let _ ← okOr (checkedAdd u64Max s.offset s.size) (.sectionOutOfFile s.index)
    okOr (getSlice o.bytes s.offset s.size) (.sectionOutOfFile s.index)

/-- A NUL-terminated string at `offset` in string table section `table`. -/
def string (o : Object) (table offset : Nat) : ER (List UInt8) := do
  let s ← o.sectionAt table
  let data ← o.data s
  let rest ← okOr (if offset ≤ data.length then some (data.drop offset) else none) (.badString offset)
  let stop ← okOr (rest.findIdx? (· == 0)) (.badString offset)
  range rest 0 stop

def sectionName (o : Object) (s : Section) : ER (List UInt8) := o.string o.shstrndx s.name

/-- The first section with a name, among those from here on. -/
def findSection (o : Object) (name : List UInt8) : List Nat → ER (Option Section)
  | [] => .ok none
  | i :: is => do
    let s ← o.sectionAt i
    let n ← o.sectionName s
    if n = name then return some s else findSection o name is

def sectionByName (o : Object) (name : List UInt8) : ER (Option Section) := o.findSection name (List.range o.shnum)

/-- The first symbol table, among the sections from here on. -/
def findSymtab (o : Object) : List Nat → ER (Option Section)
  | [] => .ok none
  | i :: is => do
    let s ← o.sectionAt i
    if s.kind = shtSymtab then
      if s.entsize ≠ symLen ∨ s.size % symLen ≠ 0 then refuse (.badEntrySize s.index)
      else do
        let _ ← o.data s
        let _ ← o.sectionAt s.link
        return some s
    else findSymtab o is

def symtab (o : Object) : ER (Option Section) := o.findSymtab (List.range o.shnum)

def symbol (o : Object) (symtab : Section) (i : Nat) : ER (Option Symbol) := do
  let data ← o.data symtab
  match checkedMul u64Max i symLen with
  | none => return none
  | some pos =>
    let stop := satAdd u64Max pos symLen
    if pos ≤ stop ∧ stop ≤ data.length then do
      let e := (data.drop pos).take (stop - pos)
      if e.length ≠ symLen then return none
      else do
        let info ← index e 4
        return some { name := (u32At e 0).getD 0, info := info.toNat, shndx := (u16At e 6).getD 0,
                      value := (u64At e 8).getD 0, size := (u64At e 16).getD 0 }
    else return none

def symbolCount (symtab : Section) : Nat := symtab.size / symLen

def symbolName (o : Object) (symtab : Section) (sym : Symbol) : ER (List UInt8) := o.string symtab.link sym.name

def relaOf (e : List UInt8) : Rela :=
  let info := (u64At e 8).getD 0
  { offset := (u64At e 0).getD 0, symbol := info >>> 32, kind := info % 2 ^ 32,
    addend := (UInt64.ofNat ((u64At e 16).getD 0)).toInt64 }

/-- `chunks_exact`. -/
def chunks (n : Nat) (data : List UInt8) : List (List UInt8) :=
  (List.range (data.length / n)).map fun i => (data.drop (i * n)).take n

def relas (o : Object) (rela : Section) : ER (List Rela) :=
  if rela.entsize ≠ relaLen ∨ rela.size % relaLen ≠ 0 then refuse (.badEntrySize rela.index)
  else do
    let data ← o.data rela
    return (chunks relaLen data).map relaOf

end Object

end Kintane.Module
