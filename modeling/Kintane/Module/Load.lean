import Kintane.Module.Reloc

/-!
# Loading a module

From bytes to relocated regions and entry points, in the source's order: the machine, the build identity,
the imports, the layout, the copy, the relocations, the entry points. The caller supplies memory for the
three regions and a table for the sections' places, which is as the last load left it.
-/

namespace Kintane.Module

open Slices

inductive Region where
  | text
  | rodata
  | data
  deriving DecidableEq, Repr

def Region.of (flags : Nat) : Region :=
  if flags &&& shfExecinstr ≠ 0 then .text else if flags &&& shfWrite ≠ 0 then .data else .rodata

/-- A section's region and its offset within it; nothing for a section that is not loaded. -/
abbrev Placement := Option (Region × Nat)

structure Export where
  name : List UInt8
  hash : Nat
  addr : Nat
  deriving DecidableEq

/-! ## Build identity -/

inductive Mismatch where
  | malformed
  | config (symbol module kernel : String)
  | toolchain (module kernel : String)
  | target
  | corrupt
  deriving DecidableEq, Repr

/-- What the kernel offers a module. -/
structure Kernel where
  machine : Nat
  identityHash : List UInt8
  identityText : String
  exports : List Export

structure Identity where
  hash : List UInt8
  text : String

namespace Identity

/-- `KTIDENT1`. -/
def magic : List UInt8 := [0x4b, 0x54, 0x49, 0x44, 0x45, 0x4e, 0x54, 0x31]

def parse (s : List UInt8) : Option Identity := do
  let hash ← getSlice s 8 32
  let head ← getSlice s 0 8
  if head ≠ magic then none
  else do
    let len ← (getSlice s 40 4).map fromLeBytes
    let _ ← checkedAdd u64Max 44 len
    let bytes ← getSlice s 44 len
    let text ← String.fromUTF8? ⟨bytes.toArray⟩
    return { hash, text }

/-- `str::lines`: without what ends each of them. -/
def lines (text : List Char) : List (List Char) :=
  let parts := text.splitOn '\n'
  parts.dropLast.map (fun l => if l.getLast? = some '\r' then l.dropLast else l) ++
    parts.getLast?.toList.filter (· ≠ [])

/-- `str::split_once`. -/
def splitOnce (sep : List Char) (text : List Char) : Option (List Char × List Char) :=
  match text.dropPrefix? sep, text with
  | some rest, _ => some ([], rest)
  | none, [] => none
  | none, c :: text => (splitOnce sep text).map fun (head, rest) => (c :: head, rest)

def line (text : List Char) (key : String) : List Char :=
  ((lines text).findSome? fun l => (l.dropPrefix? key.toList).bind (·.dropPrefix? [' '])).getD []

def config (text : List Char) : List (List Char × List Char) :=
  (lines (((splitOnce "\nconfig\n".toList text).map (·.2)).getD [])).filterMap (splitOnce ['='])

def value (text symbol : List Char) : List Char := (((config text).find? (·.1 = symbol)).map (·.2)).getD []

/-- Names the first thing that differs between two identity texts. -/
def explain (module kernel : List Char) : Mismatch :=
  if line module "toolchain" ≠ line kernel "toolchain" then
    .toolchain (.ofList (line module "toolchain")) (.ofList (line kernel "toolchain"))
  else if line module "target" ≠ line kernel "target" then .target
  else
    match (config module).find? fun (symbol, m) => m ≠ value kernel symbol with
    | some (symbol, m) => .config (.ofList symbol) (.ofList m) (.ofList (value kernel symbol))
    | none =>
      -- A symbol the kernel has and the module does not.
      match (config kernel).find? fun (symbol, k) => value module symbol = [] ∧ k ≠ [] with
      | some (symbol, k) => .config (.ofList symbol) "" (.ofList k)
      | none => .corrupt

def check (module : Option Identity) (k : Kernel) : Except Mismatch Unit :=
  match module with
  | none => .error .malformed
  | some i =>
    if i.hash = k.identityHash then .ok ()
    else .error (explain i.text.toList k.identityText.toList)

end Identity

/-! ## Import records -/

structure ImportRecord where
  name : List UInt8
  hash : Nat
  deriving DecidableEq

namespace ImportRecord

def size : Nat := 64
def nameMax : Nat := 55

/-- A record, with its name cut to its length. -/
def read (b : List UInt8) : Option ImportRecord := do
  let b ← getSlice b 0 size
  let len ← b[nameMax]?
  let hash ← (getSlice b 56 8).map fromLeBytes
  return { name := b.take (min len.toNat nameMax), hash }

end ImportRecord

/-! ## Errors -/

inductive LoadError where
  | elf (e : ElfError)
  | wrongMachine (module kernel : Nat)
  | identity (m : Mismatch)
  | incomplete (what : String)
  | unexported (name : List UInt8)
  | undeclared (name : List UInt8)
  | interfaceMismatch (name : List UInt8) (module kernel : Nat)
  | unsupported (what : String)
  | reloc (e : RelocError)
  | badReference
  | tooLarge
  | noInit
  | outOfMemory
  deriving DecidableEq, Repr

abbrev LR (α : Type) := Except (Stop LoadError) α

def give {α : Type} (e : LoadError) : LR α := .error (.err e)

/-- `?` on what reading the object gives. -/
def lift {α : Type} : ER α → LR α
  | .ok a => .ok a
  | .error (.err e) => .error (.err (.elf e))
  | .error .outOfRange => .error .outOfRange
  | .error .overflow => .error .overflow
  | .error .noFuel => .error .noFuel

/-! ## Memory -/

abbrev Image := Region → List UInt8

/-- Memory for a module's regions: for each, its address and how many bytes there are. -/
structure Memory where
  allocate : (Region → Nat) → Option (Region → Nat × Nat)

structure Loaded where
  regions : Region → Nat × Nat
  init : Nat
  exit : Option Nat
  relocations : Nat

def maxBytes : Nat := 64 * 1024 * 1024

def initSymbol : List UInt8 := "kt_module_init".toUTF8.toList
def exitSymbol : List UInt8 := "kt_module_exit".toUTF8.toList
def identitySection : List UInt8 := ".kintane.identity".toUTF8.toList
def importsSection : List UInt8 := ".kintane.imports".toUTF8.toList

/-! ## Imports -/

def findExport (k : Kernel) (name : List UInt8) : Option Export := k.exports.find? fun e => e.name == name

def recordsOf (data : List UInt8) : List ImportRecord :=
  (Object.chunks ImportRecord.size data).filterMap ImportRecord.read

/-- Whether the check passes a symbol over. -/
def passedOver (sym : Symbol) : Bool := sym.shndx ≠ shnUndef ∨ sym.binding = stbLocal

/-- One symbol that is left undefined. -/
def checkImport (k : Kernel) (records : List ImportRecord) (name : List UInt8) : LR Unit := do
  let e ← okOr (findExport k name) (.unexported name)
  let r ← okOr (records.find? fun r => r.name == name) (.undeclared name)
  if r.hash ≠ e.hash then give (.interfaceMismatch name r.hash e.hash) else return

/-- The loop of `check_imports`. -/
def checkSymbols (o : Object) (symtab : Section) (k : Kernel) (records : List ImportRecord) : List Nat → LR Unit
  | [] => return
  | i :: is => do
    match ← lift (o.symbol symtab i) with
    | none => return
    | some sym =>
      if sym.shndx = shnCommon then give (.unsupported "common symbols")
      else if passedOver sym then checkSymbols o symtab k records is
      else do
        let name ← lift (o.symbolName symtab sym)
        if name.isEmpty then checkSymbols o symtab k records is
        else do
          checkImport k records name
          checkSymbols o symtab k records is

def importRecords (o : Object) : LR (List ImportRecord) := do
  match ← lift (o.sectionByName importsSection) with
  | none => return []
  | some s => do
    let data ← lift (o.data s)
    return recordsOf data

/-- The symbols of a table, but the first. -/
def symbolIndices (symtab : Section) : List Nat := List.range' 1 (Object.symbolCount symtab - 1)

def checkImports (o : Object) (symtab : Section) (k : Kernel) : LR Unit := do
  let records ← importRecords o
  checkSymbols o symtab k records (symbolIndices symtab)

/-! ## Layout -/

def placeSection (s : Section) (placements : List Placement) (sizes : Region → Nat) :
    LR (List Placement × (Region → Nat)) := do
  let placements ← setAt placements s.index none
  if ¬s.isAlloc ∨ s.size = 0 then return (placements, sizes)
  else if s.flags &&& shfTls ≠ 0 then give (.unsupported "thread-local storage")
  else do
    let r := Region.of s.flags
    let align := max s.align 1
    if ¬isPowerOfTwo align ∨ 1 <<< 21 < align then give (.elf .badHeader)
    else do
      let pos ← okOr (checkedNextMultipleOf u64Max (sizes r) align) .tooLarge
      let stop ← okOr (checkedAdd u64Max pos s.size) .tooLarge
      if maxBytes < stop then give .tooLarge
      else do
        let placements ← setAt placements s.index (some (r, pos))
        return (placements, fun q => if q = r then stop else sizes q)

def placeSections (o : Object) : List Nat → List Placement → (Region → Nat) → LR (List Placement × (Region → Nat))
  | [], placements, sizes => return (placements, sizes)
  | i :: is, placements, sizes => do
    let s ← lift (o.sectionAt i)
    let next ← placeSection s placements sizes
    placeSections o is next.1 next.2

def layout (o : Object) (placements : List Placement) : LR (List Placement × (Region → Nat)) :=
  if placements.length < o.shnum then give .tooLarge
  else do
    let (placements, sizes) ← placeSections o (List.range o.shnum) placements fun _ => 0
    let sum ← fit64 (sizes .text + sizes .rodata)
    let sum ← fit64 (sum + sizes .data)
    if maxBytes < sum then give .tooLarge else return (placements, sizes)

/-! ## Copying -/

def copySections (o : Object) (placements : List Placement) : List Nat → Image → LR Image
  | [], image => return image
  | i :: is, image => do
    let s ← lift (o.sectionAt i)
    match ← index placements s.index with
    | none => copySections o placements is image
    | some (r, pos) =>
      if s.kind = shtNobits then copySections o placements is image
      else do
        let data ← lift (o.data s)
        let stop ← fit64 (pos + data.length)
        if (image r).length < stop then give .tooLarge
        else copySections o placements is (fun q => if q = r then setSlice (image r) pos data else image q)

def copy (o : Object) (placements : List Placement) (image : Image) : LR Image :=
  copySections o placements (List.range o.shnum) image

/-! ## Relocation -/

/-- What relocating needs to know. -/
structure Link where
  object : Object
  symtab : Section
  placements : List Placement
  bases : Region → Nat
  kernel : Kernel

/-- The section a `RELA` section is for: its region, its place and its header. -/
structure Target where
  region : Region
  pos : Nat
  header : Section
  addr : Nat
  deriving DecidableEq

namespace Link

/-- The address a relocation is against. -/
def valueOf (k : Link) (sym : Symbol) : LR Nat :=
  if sym.shndx = shnUndef then do
    let name ← lift (k.object.symbolName k.symtab sym)
    let e ← okOr (findExport k.kernel name) (.unexported name)
    return e.addr
  else if sym.shndx = shnAbs then return sym.value
  else
    match k.placements[sym.shndx]? with
    | some (some (r, pos)) => do
      let a ← fit64 (k.bases r + pos)
      fit64 (a + sym.value)
    | _ => give .badReference

def relocateOne (k : Link) (t : Target) (image : Image) (rela : Rela) : LR Image := do
  let sym ← okOr (← lift (k.object.symbol k.symtab rela.symbol)) .badReference
  let value ← k.valueOf sym
  let stop ← fit64 (t.pos + t.header.size)
  let bytes ← okOr (if t.pos ≤ stop ∧ stop ≤ (image t.region).length then
      some (((image t.region).drop t.pos).take (stop - t.pos)) else none) .tooLarge
  match apply k.object.machine rela.kind bytes t.addr rela.offset value rela.addend with
  | .error e => give (.reloc e)
  | .ok bytes => return fun r => if r = t.region then setSlice (image t.region) t.pos bytes else image r

def relocateAll (k : Link) (t : Target) : List Rela → Nat → Image → LR (Nat × Image)
  | [], count, image => return (count, image)
  | rela :: relas, count, image => do
    let image ← k.relocateOne t image rela
    let count ← fit64 (count + 1)
    relocateAll k t relas count image

/-- What a section's relocations are for; nothing where they are not needed. -/
def targetOf (k : Link) (s : Section) : LR (Option Target) :=
  if s.kind = shtRel then give (.unsupported "REL relocations without addends")
  else if s.kind ≠ shtRela then return none
  else
    match k.placements[s.info]? with
    | some (some (region, pos)) =>
      if s.link ≠ k.symtab.index then give .badReference
      else do
        let header ← lift (k.object.sectionAt s.info)
        let addr ← fit64 (k.bases region + pos)
        return some { region, pos, header, addr }
    | _ => return none

def relocateSections (k : Link) : List Nat → Nat → Image → LR (Nat × Image)
  | [], count, image => return (count, image)
  | i :: is, count, image => do
    let s ← lift (k.object.sectionAt i)
    match ← k.targetOf s with
    | none => relocateSections k is count image
    | some t => do
      let relas ← lift (k.object.relas s)
      let next ← k.relocateAll t relas count image
      relocateSections k is next.1 next.2

def relocate (k : Link) (image : Image) : LR (Nat × Image) :=
  k.relocateSections (List.range k.object.shnum) 0 image

/-! ## Entry points -/

/-- The first symbol defined under a name, among those from here on. -/
def findEntry (k : Link) (name : List UInt8) : List Nat → LR (Option Symbol)
  | [] => return none
  | i :: is => do
    match ← lift (k.object.symbol k.symtab i) with
    | none => return none
    | some sym =>
      if sym.shndx = shnUndef then findEntry k name is
      else do
        let n ← lift (k.object.symbolName k.symtab sym)
        if n ≠ name then findEntry k name is else return some sym

def entry (k : Link) (name : List UInt8) : LR (Option Nat) := do
  match ← k.findEntry name (symbolIndices k.symtab) with
  | none => return none
  | some sym =>
    match k.placements[sym.shndx]? with
    | some (some (.text, pos)) => do
      let a ← fit64 (k.bases .text + pos)
      let a ← fit64 (a + sym.value)
      return some a
    | _ => give .badReference

end Link

/-! ## Loading -/

/-- The checks before anything is laid out. -/
def accept (bytes : List UInt8) (kernel : Kernel) : LR (Object × Section) := do
  let object ← lift (Object.parse bytes)
  if object.machine ≠ kernel.machine then give (.wrongMachine object.machine kernel.machine)
  else do
    let identity ← okOr (← lift (object.sectionByName identitySection)) (.incomplete "no identity section")
    let data ← lift (object.data identity)
    match Identity.check (Identity.parse data) kernel with
    | .error m => give (.identity m)
    | .ok () => do
      let symtab ← okOr (← lift object.symtab) (.incomplete "no symbol table")
      checkImports object symtab kernel
      return (object, symtab)

/-- The entry points, once everything is in place. -/
def finish (k : Link) (sizes : Region → Nat) (count : Nat) (image : Image) : LR (Loaded × Image) := do
  let init ← okOr (← k.entry initSymbol) .noInit
  let exit ← k.entry exitSymbol
  return ({ regions := fun r => (k.bases r, sizes r), init, exit, relocations := count }, image)

/-- The steps up to the relocations: what they need to know, the regions' sizes, and the bytes copied in. -/
def prepare (bytes : List UInt8) (kernel : Kernel) (placements : List Placement) (mem : Memory) :
    LR (Link × (Region → Nat) × Image) := do
  let (object, symtab) ← accept bytes kernel
  let (placements, sizes) ← layout object placements
  let regions ← okOr (mem.allocate sizes) .outOfMemory
  let image ← copy object placements fun r => List.replicate (regions r).2 0
  return ({ object, symtab, placements, bases := fun r => (regions r).1, kernel }, sizes, image)

def load (bytes : List UInt8) (kernel : Kernel) (placements : List Placement) (mem : Memory) : LR (Loaded × Image) := do
  let (k, sizes, image) ← prepare bytes kernel placements mem
  let (count, image) ← k.relocate image
  finish k sizes count image

end Kintane.Module
