import Kintane.Module.LoadSafe

/-!
# Which exports are bound unchecked

The imports are checked by a walk over the symbol table, and bound by a walk over the relocations. The first
passes over symbol 0, over local symbols and over symbols with no name; the second binds an undefined symbol
whatever it is. So an export is bound without its interface having been checked exactly through a symbol of
those three kinds.
-/

open List

namespace Kintane.Module

open Slices Sample Except

namespace Link

/-- The relocations are those of every `RELA` section that is for a loaded section. -/
def Applies (k : Link) (rela : Rela) : Prop :=
  ∃ i s t relas, i < k.object.shnum ∧ k.object.sectionAt i = .ok s ∧ k.targetOf s = .ok (some t) ∧
    k.object.relas s = .ok relas ∧ rela ∈ relas

/-- A relocation against a symbol that the module leaves undefined. -/
structure Binds (k : Link) (rela : Rela) (sym : Symbol) : Prop where
  applies : k.Applies rela
  symbol : k.object.symbol k.symtab rela.symbol = .ok (some sym)
  undefined : sym.shndx = shnUndef

/-- The imports section has a record of the symbol's name, with the hash of the export. -/
def Declares (k : Link) (sym : Symbol) : Prop :=
  ∀ name e, k.object.symbolName k.symtab sym = .ok name → findExport k.kernel name = some e →
    ∃ records, importRecords k.object = .ok records ∧ ∃ r ∈ records, r.name = name ∧ r.hash = e.hash

/-- A symbol that the check does not look at: the first, a local one, or one with no name. -/
def Unchecked (k : Link) (i : Nat) (sym : Symbol) : Prop :=
  i = 0 ∨ sym.binding = stbLocal ∨ k.object.symbolName k.symtab sym = .ok []

end Link

/-! ## What the check has seen -/

theorem checkImport_ok {k : Kernel} {records : List ImportRecord} {name : List UInt8} {e : Export}
    (h : checkImport k records name = .ok ()) (he : findExport k name = some e) :
    ∃ r ∈ records, r.name = name ∧ r.hash = e.hash := by
  obtain ⟨r, hr, h⟩ := bind_eq_ok.mp ((bind_okOr he).symm.trans h)
  have hfind := okOr_eq_ok.mp hr
  split at h
  · cases h
  · next hhash =>
    exact ⟨r, mem_of_find?_eq_some hfind, by simpa using find?_some hfind, Decidable.not_not.mp hhash⟩

variable {i : Nat} {is : List Nat} {bytes : List UInt8} {image : Image}

/-- Every symbol the loop gets to that is undefined, not local and has a name has been checked. -/
theorem checkSymbols_ok {o : Object} {symtab : Section} {k : Kernel} {records : List ImportRecord}
    (h : checkSymbols o symtab k records is = .ok ()) (hall : ∀ i ∈ is, ∃ sym, o.symbol symtab i = .ok (some sym))
    (hi : i ∈ is) {sym : Symbol} (hsym : o.symbol symtab i = .ok (some sym))
    (hundef : sym.shndx = shnUndef) (hglobal : sym.binding ≠ stbLocal) {name : List UInt8}
    (hname : o.symbolName symtab sym = .ok name) (hne : name ≠ []) : checkImport k records name = .ok () := by
  induction is with
  | nil => cases hi
  | cons j is ih =>
    obtain ⟨sym', hsym'⟩ := hall j mem_cons_self
    have hrest (h : checkSymbols o symtab k records is = .ok ()) (hi : i ∈ is) :
        checkImport k records name = .ok () := ih h (fun i hi => hall i (mem_cons_of_mem j hi)) hi
    have hloop := (bind_ok (lift_eq_ok.mpr hsym')).symm.trans h
    dsimp only at hloop
    split at hloop
    · cases hloop
    rcases mem_cons.mp hi with rfl | hi
    · -- The symbol itself: none of the ways to pass it over applies.
      obtain rfl := Option.some.inj (ok.inj (hsym'.symm.trans hsym))
      rw [if_neg (by simp [passedOver, hundef, hglobal])] at hloop
      rw [bind_ok (lift_eq_ok.mpr hname), if_neg (by simpa using hne)] at hloop
      exact (bind_eq_ok.mp hloop).choose_spec.1
    · split at hloop
      · exact hrest hloop hi
      obtain ⟨name', -, hloop⟩ := bind_eq_ok.mp hloop
      split at hloop
      · exact hrest hloop hi
      · obtain ⟨-, -, hloop⟩ := bind_eq_ok.mp hloop
        exact hrest hloop hi

/-! ## The symbol table -/

/-- A symbol table has entries of the right size, and lies in the file. -/
theorem findSymtab_ok {o : Object} {s : Section} (h : o.findSymtab is = .ok (some s)) :
    s.kind = shtSymtab ∧ s.size % symLen = 0 ∧ ∃ data, o.data s = .ok data := by
  induction is with
  | nil => cases h
  | cons i is ih =>
    obtain ⟨s', -, h⟩ := bind_eq_ok.mp h
    split at h
    · next hkind =>
      split at h
      · cases h
      obtain ⟨data, hdata, h⟩ := bind_eq_ok.mp h
      obtain ⟨-, -, h⟩ := bind_eq_ok.mp h
      obtain rfl := Option.some.inj (ok.inj h)
      exact ⟨hkind, by omega, data, hdata⟩
    · exact ih h

theorem length_data {o : Object} {s : Section} {data : List UInt8} (hkind : s.kind ≠ shtNobits)
    (h : o.data s = .ok data) : data.length = s.size := by
  unfold Object.data at h
  rw [if_neg hkind] at h
  obtain ⟨-, -, h⟩ := bind_eq_ok.mp h
  exact length_of_getSlice (okOr_eq_ok.mp h)

section

variable {o : Object} {s : Section} (h : o.symtab = .ok (some s))
include h

theorem symtab_data : ∃ data, o.data s = .ok data ∧ data.length = s.size ∧ s.size ≤ u64Max := by
  obtain ⟨hkind, -, data, hdata⟩ := findSymtab_ok h
  have hne : s.kind ≠ shtNobits := by rw [hkind]; decide
  refine ⟨data, hdata, length_data hne hdata, ?_⟩
  unfold Object.data at hdata
  rw [if_neg hne] at hdata
  obtain ⟨stop, hstop, -⟩ := bind_eq_ok.mp hdata
  have := (checkedAdd_eq_some.mp (okOr_eq_ok.mp hstop)).1
  omega

/-- The entries of a symbol table are those below its count. -/
theorem symbol_iff : (∃ sym, o.symbol s i = .ok (some sym)) ↔ i < Object.symbolCount s := by
  obtain ⟨data, hdata, hlen, hmax⟩ := symtab_data h
  unfold Object.symbol Object.symbolCount
  rw [bind_ok hdata]
  unfold symLen
  constructor
  · rintro ⟨sym, hsym⟩
    split at hsym
    · cases hsym
    rename_i pos hpos
    dsimp only at hsym
    split at hsym
    · next hin =>
      split at hsym
      · cases hsym
      rename_i he
      have hpos' : pos = i * 24 := by
        unfold checkedMul at hpos
        split at hpos
        · exact (Option.some.inj hpos).symm
        · cases hpos
      rw [length_take, length_drop] at he
      omega
    · cases hsym
  · intro hi
    have hend : i * 24 + 24 ≤ data.length := by omega
    rw [checkedMul_of_le (by omega)]
    dsimp only
    rw [satAdd_of_le (by omega), if_pos ⟨by omega, hend⟩, if_neg (by simp; omega)]
    exact ⟨_, bind_index (getElem?_eq_getElem (by simp; omega))⟩

end

/-! ## What a load that succeeded has done -/

theorem accept_ok {kernel : Kernel} {o : Object} {s : Section}
    (h : accept bytes kernel = .ok (o, s)) : o.symtab = .ok (some s) ∧ checkImports o s kernel = .ok () := by
  obtain ⟨o', -, h1⟩ := bind_eq_ok.mp h
  split at h1
  · cases h1
  obtain ⟨found, -, h2⟩ := bind_eq_ok.mp h1
  obtain ⟨identity, -, h3⟩ := bind_eq_ok.mp h2
  obtain ⟨data, -, h4⟩ := bind_eq_ok.mp h3
  split at h4
  · cases h4
  obtain ⟨table, htable, h5⟩ := bind_eq_ok.mp h4
  obtain ⟨symtab, hsymtab, h6⟩ := bind_eq_ok.mp h5
  obtain ⟨done, hcheck, h7⟩ := bind_eq_ok.mp h6
  cases h7
  rw [lift_eq_ok, okOr_eq_ok.mp hsymtab] at htable
  exact ⟨htable, hcheck⟩

theorem prepare_ok {kernel : Kernel} {placements : List Placement} {mem : Memory} {k : Link}
    {sizes : Region → Nat} (h : prepare bytes kernel placements mem = .ok (k, sizes, image)) :
    accept bytes kernel = .ok (k.object, k.symtab) ∧ k.kernel = kernel := by
  obtain ⟨⟨object, symtab⟩, haccept, h1⟩ := bind_eq_ok.mp h
  obtain ⟨laidOut, -, h2⟩ := bind_eq_ok.mp h1
  obtain ⟨regions, -, h3⟩ := bind_eq_ok.mp h2
  obtain ⟨copied, -, h4⟩ := bind_eq_ok.mp h3
  obtain ⟨rfl, -⟩ := Prod.mk.inj (ok.inj h4)
  exact ⟨haccept, rfl⟩

namespace Link

variable {k : Link}

variable {r : Nat × Image} {rela : Rela}

theorem relocateAll_ok {t : Target} {relas : List Rela} {count : Nat}
    (h : k.relocateAll t relas count image = .ok r) (hrela : rela ∈ relas) :
    ∃ before after, k.relocateOne t before rela = .ok after := by
  induction relas generalizing count image with
  | nil => cases hrela
  | cons first relas ih =>
    obtain ⟨next, hone, h1⟩ := bind_eq_ok.mp h
    obtain ⟨count', -, h2⟩ := bind_eq_ok.mp h1
    rcases mem_cons.mp hrela with rfl | hrela
    · exact ⟨image, next, hone⟩
    · exact ih h2 hrela

theorem relocateSections_ok {count : Nat}
    (h : k.relocateSections is count image = .ok r) (hi : i ∈ is) {s : Section} {t : Target}
    {relas : List Rela} (hs : k.object.sectionAt i = .ok s) (ht : k.targetOf s = .ok (some t))
    (hr : k.object.relas s = .ok relas) (hrela : rela ∈ relas) :
    ∃ before after, k.relocateOne t before rela = .ok after := by
  induction is generalizing count image with
  | nil => cases hi
  | cons j is ih =>
    obtain ⟨s', hs', h1⟩ := bind_eq_ok.mp h
    obtain ⟨target, htarget, h2⟩ := bind_eq_ok.mp h1
    rcases mem_cons.mp hi with rfl | hi
    · cases (lift_eq_ok.mp hs').symm.trans hs
      cases htarget.symm.trans ht
      obtain ⟨next, hall, -⟩ := bind_eq_ok.mp ((bind_ok (lift_eq_ok.mpr hr)).symm.trans h2)
      exact relocateAll_ok hall hrela
    · cases target with
      | none => exact ih h2 hi
      | some t' =>
        obtain ⟨relas', -, h3⟩ := bind_eq_ok.mp h2
        obtain ⟨next, -, h4⟩ := bind_eq_ok.mp h3
        exact ih h4 hi

/-- An undefined symbol that was relocated against has been given the address of an export. -/
theorem Binds.bound {sym : Symbol} (h : k.Binds rela sym)
    (hr : k.relocate image = .ok r) : ∃ name e, k.object.symbolName k.symtab sym = .ok name ∧
      findExport k.kernel name = some e ∧ k.valueOf sym = .ok e.addr := by
  obtain ⟨i, s, t, relas, hi, hs, ht, hrelas, hmem⟩ := h.applies
  obtain ⟨before, after, hone⟩ := relocateSections_ok hr (mem_range.mpr hi) hs ht hrelas hmem
  have h1 := (bind_ok (lift_eq_ok.mpr h.symbol)).symm.trans hone
  obtain ⟨sym', hsym', h2⟩ := bind_eq_ok.mp h1
  obtain rfl := Option.some.inj (okOr_eq_ok.mp hsym')
  obtain ⟨value, hvalue, -⟩ := bind_eq_ok.mp h2
  have hval := hvalue
  unfold Link.valueOf at hval
  rw [if_pos h.undefined] at hval
  obtain ⟨name, hname, h3⟩ := bind_eq_ok.mp hval
  obtain ⟨e, he, h4⟩ := bind_eq_ok.mp h3
  cases h4
  exact ⟨name, e, lift_eq_ok.mp hname, okOr_eq_ok.mp he, hvalue⟩

/-- A symbol that the check looks at has its record. -/
theorem declares_of_checked (haccept : accept bytes k.kernel = .ok (k.object, k.symtab)) {sym : Symbol}
    (h : k.Binds rela sym) (hchecked : ¬k.Unchecked rela.symbol sym) :
    k.Declares sym := by
  intro name e hname he
  obtain ⟨hsymtab, hcheck⟩ := accept_ok haccept
  obtain ⟨records, hrecords, hloop⟩ := bind_eq_ok.mp hcheck
  have hlt := (symbol_iff hsymtab).mp ⟨sym, h.symbol⟩
  have hin (i : Nat) : i ∈ symbolIndices k.symtab ↔ i ≠ 0 ∧ i < Object.symbolCount k.symtab := by
    unfold symbolIndices
    rw [mem_range'_1]
    omega
  have hzero : rela.symbol ≠ 0 := fun h0 => hchecked (.inl h0)
  have hglobal : sym.binding ≠ stbLocal := fun hl => hchecked (.inr (.inl hl))
  have hnamed : name ≠ [] := fun hn => hchecked (.inr (.inr (hn ▸ hname)))
  have hseen := checkSymbols_ok hloop (fun i hi => (symbol_iff hsymtab).mpr ((hin i).mp hi).2)
    ((hin _).mpr ⟨hzero, hlt⟩) h.symbol h.undefined hglobal hname hnamed
  exact ⟨records, hrecords, checkImport_ok hseen he⟩

end Link

/-- **Imports.** In a module that was loaded, every undefined symbol that a relocation is against has
the address of the export of its name. All of them are declared with the export's hash exactly if
those are that the check does not look at. -/
theorem imports_checked {bytes : List UInt8} {kernel : Kernel} {placements : List Placement} {mem : Memory}
    {loaded : Loaded × Image} (h : load bytes kernel placements mem = .ok loaded) :
    ∃ k sizes image, prepare bytes kernel placements mem = .ok (k, sizes, image) ∧
      (∀ rela sym, k.Binds rela sym → ∃ name e, k.object.symbolName k.symtab sym = .ok name ∧
        findExport kernel name = some e ∧ k.valueOf sym = .ok e.addr) ∧
      ((∀ rela sym, k.Binds rela sym → k.Declares sym) ↔
        ∀ rela sym, k.Binds rela sym → k.Unchecked rela.symbol sym → k.Declares sym) := by
  obtain ⟨⟨k, sizes, image⟩, hprepare, h1⟩ := bind_eq_ok.mp h
  obtain ⟨relocated, hrelocate, -⟩ := bind_eq_ok.mp h1
  obtain ⟨haccept, rfl⟩ := prepare_ok hprepare
  refine ⟨k, sizes, image, hprepare, fun rela sym hb => hb.bound hrelocate, ?_⟩
  constructor
  · exact fun hall rela sym hb _ => hall rela sym hb
  · intro hpassed rela sym hb
    by_cases hu : k.Unchecked rela.symbol sym
    · exact hpassed rela sym hb hu
    · exact Link.declares_of_checked haccept hb hu

namespace Sample

/-- A relocation against symbol 1, a local one named `kt_log` that is not defined; there are no imports. -/
def unchecked : List UInt8 :=
  moduleFile (symbolEntry 0 0 0 0 ++ symbolEntry 34 0 0 0 ++ symbolEntry 19 0x10 3 0) (relaEntry 0 1 X86_64.r64)

def prepared : Link × (Region → Nat) × Image :=
  (prepare unchecked kernel (List.replicate 8 none) memory).toOption.get (by decide +kernel)

theorem prepare_unchecked : prepare unchecked kernel (List.replicate 8 none) memory = .ok prepared :=
  ok_of_toOption (Option.eq_some_of_isSome _)

def loaded : Loaded × Image :=
  (load unchecked kernel (List.replicate 8 none) memory).toOption.get (by decide +kernel)

theorem load_unchecked : load unchecked kernel (List.replicate 8 none) memory = .ok loaded :=
  ok_of_toOption (Option.eq_some_of_isSome _)

def rela : Rela := { offset := 0, symbol := 1, kind := X86_64.r64, addend := 0 }

def sym : Symbol := { name := 34, info := 0, shndx := shnUndef, value := 0, size := 0 }

def text : Target where
  region := .text
  pos := 0
  header := { index := 3, name := 0, kind := 1, flags := 6, offset := 149, size := 8, link := 0, info := 0, align := 1,
              entsize := 0 }
  addr := 0x200000

def relas : Section :=
  { index := 5, name := 0, kind := shtRela, flags := 0, offset := 229, size := 24, link := 4, info := 3, align := 1,
    entsize := relaLen }

def object : Object := { bytes := unchecked, machine := emX86_64, shoff := 253, shnum := 6, shstrndx := 1 }

def symtab : Section :=
  { index := 4, name := 0, kind := shtSymtab, flags := 0, offset := 157, size := 72, link := 1, info := 0, align := 1,
    entsize := symLen }

theorem prepared_eq : prepared.1.object = object ∧ prepared.1.symtab = symtab := by decide +kernel

theorem binds_sym : prepared.1.Binds rela sym where
  applies := by
    refine ⟨5, relas, text, [rela], ?_, ?_, ok_of_toOption (by decide +kernel), ?_, mem_singleton_self _⟩
    · rw [prepared_eq.1]; decide
    · rw [prepared_eq.1]; exact ok_of_toOption (by decide +kernel)
    · rw [prepared_eq.1]; exact ok_of_toOption (by decide +kernel)
  symbol := by
    exact ok_of_toOption (by decide +kernel)
  undefined := rfl

theorem not_declares_sym : ¬prepared.1.Declares sym := by
  intro h
  have hexport : findExport prepared.1.kernel ktLog = some { name := ktLog, hash := 7, addr := 0x1000 } := by
    decide +kernel
  have hnone : importRecords prepared.1.object = .ok [] := by
    exact ok_of_toOption (by decide +kernel)
  obtain ⟨records, hrecords, r, hr, -⟩ := h ktLog _ (ok_of_toOption (by decide +kernel)) hexport
  cases hnone.symm.trans hrecords
  cases hr

end Sample

theorem imports_checked_file : ∃ k sizes image,
    prepare unchecked kernel (List.replicate 8 none) memory = .ok (k, sizes, image) ∧
      ((∀ rela sym, k.Binds rela sym → k.Declares sym) ↔
        ∀ rela sym, k.Binds rela sym → k.Unchecked rela.symbol sym → k.Declares sym) := by
  obtain ⟨k, sizes, image, hprepare, -, hiff⟩ := imports_checked load_unchecked
  exact ⟨k, sizes, image, hprepare, hiff⟩

/-- The file is loaded, with `kt_log` bound through a relocation, though it declares no imports. -/
theorem export_bound_unchecked :
    load unchecked kernel (List.replicate 8 none) memory = .ok loaded ∧
    prepare unchecked kernel (List.replicate 8 none) memory = .ok prepared ∧
    prepared.1.Binds rela sym ∧ ¬prepared.1.Declares sym :=
  ⟨load_unchecked, prepare_unchecked, binds_sym, not_declares_sym⟩

end Kintane.Module
