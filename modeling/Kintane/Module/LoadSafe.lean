import Kintane.Module.ElfSafe

/-!
# What stops the loader

The loader reads offsets, sizes and counts that the file chooses. The reader, the layout and the copy check
theirs. Two sums are not checked: the address of a symbol that a relocation is against, and the address of
an entry point. The loader is never stopped and its entry points are in the module's text exactly where
those sums fit.
-/

namespace Kintane.Module

open Slices List Option

/-- Memory at addresses that leave room for the largest module. -/
structure Memory.Supplies (mem : Memory) : Prop where
  aligned : ∀ sizes regions, mem.allocate sizes = some regions → ∀ r, (regions r).1 % 0x200000 = 0
  room : ∀ sizes regions, mem.allocate sizes = some regions → ∀ r, (regions r).1 + maxBytes < 2 ^ 64

/-! ## The checks -/

theorem sound_checkImport (k : Kernel) (records : List ImportRecord) (name : List UInt8) :
    Sound (checkImport k records name) fun _ => True := by
  exact sound_okOr_bind.mpr fun e _ => sound_okOr_bind.mpr fun r _ => sound_unless fun _ => sound_pure.mpr trivial

variable {o : Object} {sizes : Region → Nat} {k : Link}

section

variable (h : o.Valid)
include h

theorem sound_checkSymbols (symtab : Section) (k : Kernel) (records : List ImportRecord) (is : List Nat) :
    Sound (checkSymbols o symtab k records is) fun _ => True := by
  induction is with
  | nil => trivial
  | cons i is ih =>
    refine (sound_lift.mpr (sound_symbol o symtab i)).bind fun sym _ => ?_
    cases sym with
    | none => exact sound_pure.mpr trivial
    | some sym =>
      refine sound_unless fun _ => ?_
      split
      · exact ih
      refine (sound_lift.mpr (h.string _ _)).bind fun name _ => ?_
      split
      · exact ih
      · exact (sound_checkImport k records name).bind fun _ _ => ih

theorem sound_checkImports (symtab : Section) (k : Kernel) : Sound (checkImports o symtab k) fun _ => True := by
  have hrecords : Sound (importRecords o) fun _ => True := by
    refine (sound_lift.mpr (h.findSection _ _)).bind fun s _ => ?_
    cases s with
    | none => exact sound_pure.mpr trivial
    | some s => exact (sound_lift.mpr (sound_data o s)).bind fun _ _ => sound_pure.mpr trivial
  exact hrecords.bind fun records _ => sound_checkSymbols h symtab k records _

end

theorem sound_accept (bytes : List UInt8) (k : Kernel) : Sound (accept bytes k) fun r => r.1.Valid := by
  refine (sound_lift.mpr (sound_parse bytes)).bind fun o h => sound_unless fun _ => ?_
  refine (sound_lift.mpr (h.findSection _ _)).bind fun s _ => sound_okOr_bind.mpr fun identity _ => ?_
  refine (sound_lift.mpr (sound_data o identity)).bind fun data _ => ?_
  split
  · trivial
  · refine (sound_lift.mpr (h.findSymtab _)).bind fun t _ => sound_okOr_bind.mpr fun symtab _ => ?_
    exact (sound_checkImports h symtab k).bind fun _ _ => sound_pure.mpr h

/-! ## The layout -/

/-- Every section that has been placed ends within its region, and every region is within the limit. -/
structure Placed (o : Object) (done : Nat → Prop) (n : Nat) (l : List Placement × (Region → Nat)) : Prop where
  length : l.1.length = n
  within : ∀ i r pos, done i → l.1[i]? = some (some (r, pos)) →
    ∃ s, o.sectionAt i = .ok s ∧ pos + s.size ≤ l.2 r
  limit : ∀ r, l.2 r ≤ maxBytes

section

variable {done : Nat → Prop} {n i : Nat} {placements : List Placement} {s : Section}

theorem Placed.mono {done' : Nat → Prop} {l : List Placement × (Region → Nat)} (h : Placed o done n l)
    (hd : ∀ i, done' i → done i) : Placed o done' n l where
  length := h.length
  within i r pos hi := h.within i r pos (hd i hi)
  limit := h.limit

section

variable (h : Placed o done n (placements, sizes))

include h

/-- A section that is not loaded. -/
theorem Placed.skip : Placed o (fun j => done j ∨ j = i) n (placements.set i none, sizes) where
  length := (length_set ..).trans h.length
  within j r pos hj hget := by
    rw [getElem?_set] at hget
    split at hget
    · split at hget
      · cases hget
      · cases hget
    · next hne => exact h.within j r pos (hj.resolve_right fun hji => hne hji.symm) hget
  limit := h.limit

/-- A section placed past the end of its region. -/
theorem Placed.place {pos : Nat} {r : Region}
    (hs : o.sectionAt i = .ok s) (hpos : sizes r ≤ pos) (hstop : pos + s.size ≤ maxBytes) :
    Placed o (fun j => done j ∨ j = i) n
      ((placements.set i none).set i (some (r, pos)), fun q => if q = r then pos + s.size else sizes q) where
  length := by
    rw [length_set, length_set]
    exact h.length
  within j q pos' hj hget := by
    -- A section placed earlier is still within its region, which only grows.
    have hgrow : ∀ q, sizes q ≤ if q = r then pos + s.size else sizes q := by
      intro q
      split
      · next hq => subst hq; omega
      · exact le_rfl
    rw [set_set, getElem?_set] at hget
    split at hget
    · next hij =>
      split at hget
      · obtain ⟨rfl, rfl⟩ := Prod.mk.inj (some.inj (some.inj hget))
        exact ⟨s, hij ▸ hs, by simp⟩
      · cases hget
    · next hne =>
      obtain ⟨s', hs', hle⟩ := h.within j q pos' (hj.resolve_right fun hji => hne hji.symm) hget
      exact ⟨s', hs', hle.trans (hgrow q)⟩
  limit q := by
    dsimp only
    split
    · exact hstop
    · exact h.limit q

theorem sound_placeSection (hs : o.sectionAt i = .ok s) (hi : s.index = i) (hn : i < n) :
    Sound (placeSection s placements sizes) (Placed o (fun j => done j ∨ j = i) n) := by
  subst hi
  refine (sound_setAt (by rw [h.length]; exact hn)).bind fun l hl => ?_
  subst hl
  split
  · exact sound_pure.mpr h.skip
  refine sound_unless fun _ => sound_unless fun _ => ?_
  refine sound_okOr_bind.mpr fun pos hpos => sound_okOr_bind.mpr fun stop hstop => sound_unless fun hle => ?_
  obtain ⟨-, rfl⟩ := checkedAdd_eq_some.mp hstop
  have hfrom : sizes (Region.of s.flags) ≤ pos := by
    have hlimit : sizes (Region.of s.flags) ≤ u64Max := (h.limit _).trans (by decide)
    have hspec := checkedNextMultipleOf_spec (n := max s.align 1) (by omega) hlimit
    rw [hpos] at hspec
    exact hspec.1
  refine (sound_setAt (by rw [length_set, h.length]; exact hn)).bind fun l hl => ?_
  subst hl
  exact sound_pure.mpr (h.place hs hfrom (Nat.le_of_not_lt hle))

end

theorem sound_placeSections (ho : o.Valid) {is : List Nat} (hn : o.shnum ≤ n)
    (h : Placed o done n (placements, sizes)) :
    Sound (placeSections o is placements sizes) (Placed o (fun j => done j ∨ j ∈ is) n) := by
  induction is generalizing placements sizes done with
  | nil => exact sound_pure.mpr (h.mono fun i hi => hi.resolve_right not_mem_nil)
  | cons i is ih =>
    refine ho.read fun s hs hi hlt => ?_
    refine (sound_placeSection h hs hi (by omega)).bind fun next hnext => ?_
    refine (ih hnext).mono fun l hl => hl.mono fun j hj => ?_
    rcases hj with hj | hj
    · exact .inl (.inl hj)
    · rcases mem_cons.mp hj with rfl | hj
      · exact .inl (.inr rfl)
      · exact .inr hj

end

/-- The layout of an object: every one of its sections is placed, or is not loaded. -/
theorem sound_layout (h : o.Valid) (placements : List Placement) :
    Sound (layout o placements) fun l => o.shnum ≤ placements.length ∧
      Placed o (· < o.shnum) placements.length l := by
  refine sound_unless fun hlen => ?_
  have hlen : o.shnum ≤ placements.length := Nat.le_of_not_lt hlen
  have hnone : Placed o (fun _ => False) placements.length (placements, fun _ => 0) :=
    { length := rfl, within := fun _ _ _ hi => hi.elim, limit := fun _ => Nat.zero_le _ }
  refine (sound_placeSections h hlen hnone).bind fun l hl => ?_
  have htext := hl.limit .text
  have hrodata := hl.limit .rodata
  have hdata := hl.limit .data
  unfold maxBytes at htext hrodata hdata
  refine (sound_fit64 (by omega)).bind fun sum hsum => ?_
  refine (sound_fit64 (by omega)).bind fun sum hsum => sound_unless fun _ => ?_
  exact sound_pure.mpr ⟨hlen, hl.mono fun i hi => .inr (mem_range.mpr hi)⟩

/-! ## The copy -/

theorem sound_copySections {n : Nat} {placements : List Placement}
    (h : o.Valid) (hn : o.shnum ≤ n) (hp : Placed o (· < o.shnum) n (placements, sizes)) (is : List Nat)
    (image : Image) : Sound (copySections o placements is image) fun _ => True := by
  induction is generalizing image with
  | nil => trivial
  | cons i is ih =>
    refine h.read fun s hs hi hlt => ?_
    subst hi
    refine (sound_index (by rw [hp.length]; omega)).bind fun place hplace => ?_
    cases place with
    | none => exact ih image
    | some place =>
      obtain ⟨r, pos⟩ := place
      obtain ⟨s', hs', hle⟩ := hp.within _ r pos hlt hplace
      cases hs.symm.trans hs'
      have hlimit : pos + s.size ≤ maxBytes := hle.trans (hp.limit r)
      dsimp only
      split
      · exact ih image
      · refine (sound_lift.mpr (sound_data o s)).bind fun data hdata => ?_
        exact (sound_fit64 (by unfold maxBytes at hlimit; omega)).bind fun stop _ => sound_unless fun _ => ih _

/-! ## The relocations -/

namespace Link

/-- What the layout and the memory promise to what comes after. -/
structure Ok (k : Link) (sizes : Region → Nat) : Prop where
  valid : k.object.Valid
  placed : Placed k.object (· < k.object.shnum) k.placements.length (k.placements, sizes)
  room : ∀ r, k.bases r + maxBytes < 2 ^ 64

/-- The address of a symbol of the module is a word. -/
def Addressable (k : Link) (sym : Symbol) : Prop :=
  sym.shndx ≠ shnUndef → sym.shndx ≠ shnAbs → ∀ r pos, k.placements[sym.shndx]? = some (some (r, pos)) →
    k.bases r + pos + sym.value < 2 ^ 64

/-- Every symbol these relocations are against has an address, as far as the loader gets. -/
def RelasFit (k : Link) (t : Target) : List Rela → Nat → Image → Prop
  | [], _, _ => True
  | rela :: relas, count, image =>
    (∀ sym, k.object.symbol k.symtab rela.symbol = .ok (some sym) → k.Addressable sym) ∧
      ∀ next, k.relocateOne t image rela = .ok next → count + 1 < 2 ^ 64 ∧ k.RelasFit t relas (count + 1) next

def SectionsFit (k : Link) : List Nat → Nat → Image → Prop
  | [], _, _ => True
  | i :: is, count, image => ∀ s, k.object.sectionAt i = .ok s →
    (k.targetOf s = .ok none → k.SectionsFit is count image) ∧
    ∀ t relas, k.targetOf s = .ok (some t) → k.object.relas s = .ok relas →
      k.RelasFit t relas count image ∧
        ∀ next, k.relocateAll t relas count image = .ok next → k.SectionsFit is next.1 next.2

theorem Ok.targetOf (h : k.Ok sizes) (s : Section) :
    Sound (k.targetOf s) fun t => ∀ t' ∈ t, t'.pos + t'.header.size < 2 ^ 64 := by
  refine sound_unless fun _ => ?_
  split
  · exact sound_pure.mpr (by simp)
  split
  · next r pos hplace =>
    -- The header was read, so the place is one that this layout made.
    refine sound_unless fun _ => h.valid.read fun header hheader _ hlt => ?_
    obtain ⟨s', hs', hle⟩ := h.placed.within _ r pos hlt hplace
    cases hheader.symm.trans hs'
    have hlimit : pos + header.size ≤ maxBytes := hle.trans (h.placed.limit r)
    have hroom := h.room r
    refine (sound_fit64 (by omega)).bind fun addr _ => sound_pure.mpr fun t ht => ?_
    cases ht
    show pos + header.size < 2 ^ 64
    omega
  · exact sound_pure.mpr (by simp)

theorem Ok.sound_valueOf (h : k.Ok sizes) (sym : Symbol) :
    (Sound (k.valueOf sym) fun _ => True) ↔ k.Addressable sym := by
  unfold Link.valueOf Addressable
  split
  · next hundef =>
    refine iff_of_true ?_ fun hne => absurd hundef hne
    refine (sound_lift.mpr (h.valid.string _ _)).bind fun name _ => sound_okOr_bind.mpr fun e _ => ?_
    exact sound_pure.mpr trivial
  rename_i hundef
  split
  · next habs => exact iff_of_true (sound_pure.mpr trivial) fun _ hne => absurd habs hne
  rename_i habs
  split
  · next r pos hplace =>
    rw [sound_bind, sound_fit64_iff, sound_fit64_iff]
    constructor
    · rintro ⟨-, hsum, -⟩ - - r' pos' hplace'
      obtain ⟨rfl, rfl⟩ := Prod.mk.inj (some.inj (some.inj (hplace.symm.trans hplace')))
      exact hsum
    · intro hfit
      have hsum := hfit hundef habs r pos hplace
      exact ⟨by omega, hsum, trivial⟩
  · next hplace =>
    exact iff_of_true (sound_err _ _) fun _ _ r pos hget => absurd hget (hplace r pos)

variable {t : Target}

theorem Ok.sound_relocateOne (h : k.Ok sizes) (ht : t.pos + t.header.size < 2 ^ 64) (image : Image)
    (rela : Rela) : (Sound (k.relocateOne t image rela) fun _ => True) ↔
      ∀ sym, k.object.symbol k.symtab rela.symbol = .ok (some sym) → k.Addressable sym := by
  unfold Link.relocateOne
  rw [(sound_lift.mpr (sound_symbol k.object k.symtab rela.symbol)).bind_iff]
  constructor
  · intro hs sym hsym
    have hthis := sound_okOr_bind.mp (hs (some sym) (lift_eq_ok.mpr hsym)) sym rfl
    exact (h.sound_valueOf sym).mp (sound_bind_iff.mp hthis).1
  · intro hfit sym? hsym
    refine sound_okOr_bind.mpr fun sym hsome => ?_
    subst hsome
    -- Past the symbol's address nothing stops the loader.
    refine ((h.sound_valueOf sym).mpr (hfit sym (lift_eq_ok.mp hsym))).bind fun value _ =>
      (sound_fit64 ht).bind fun stop _ => sound_okOr_bind.mpr fun bytes _ => ?_
    split
    · trivial
    · exact sound_pure.mpr trivial

theorem Ok.sound_relocateAll (h : k.Ok sizes) (ht : t.pos + t.header.size < 2 ^ 64)
    (relas : List Rela) (count : Nat) (image : Image) :
    (Sound (k.relocateAll t relas count image) fun _ => True) ↔ k.RelasFit t relas count image := by
  induction relas generalizing count image with
  | nil => exact iff_of_true (sound_pure.mpr trivial) trivial
  | cons rela relas ih =>
    unfold Link.relocateAll RelasFit
    rw [sound_bind_iff, h.sound_relocateOne ht]
    simp only [sound_bind, sound_fit64_iff, ih]

theorem Ok.sound_relocateSections (h : k.Ok sizes) (is : List Nat) (count : Nat) (image : Image) :
    (Sound (k.relocateSections is count image) fun _ => True) ↔ k.SectionsFit is count image := by
  induction is generalizing count image with
  | nil => exact iff_of_true (sound_pure.mpr trivial) trivial
  | cons i is ih =>
    unfold Link.relocateSections SectionsFit
    rw [(sound_lift.mpr (h.valid.sectionAt i)).bind_iff]
    simp only [lift_eq_ok]
    refine forall_congr' fun s => forall_congr' fun hs => ?_
    rw [(h.targetOf s).bind_iff]
    constructor
    · intro hs
      refine ⟨fun hnone => (ih count image).mp (hs none hnone), fun t relas hsome hrelas => ?_⟩
      have ht : t.pos + t.header.size < 2 ^ 64 := (h.targetOf s).of_ok hsome t rfl
      have hthis := (sound_lift.mpr (sound_relas k.object s)).bind_iff.mp (hs (some t) hsome) relas (lift_eq_ok.mpr hrelas)
      obtain ⟨hfit, hnext⟩ := sound_bind_iff.mp hthis
      exact ⟨(h.sound_relocateAll ht relas count image).mp hfit, fun next hn => (ih _ _).mp (hnext next hn)⟩
    · intro hfit target htarget
      cases target with
      | none => exact (ih count image).mpr (hfit.1 htarget)
      | some t =>
        have ht : t.pos + t.header.size < 2 ^ 64 := (h.targetOf s).of_ok htarget t rfl
        refine (sound_lift.mpr (sound_relas k.object s)).bind_iff.mpr fun relas hrelas => ?_
        obtain ⟨hr, hnext⟩ := hfit.2 t relas htarget (lift_eq_ok.mp hrelas)
        refine sound_bind_iff.mpr ⟨(h.sound_relocateAll ht relas count image).mpr hr, fun next hn => ?_⟩
        exact (ih _ _).mpr (hnext next hn)

/-! ## The entry points -/

/-- Whether the address of a symbol of the text is below a bound. -/
def EntryBelow (k : Link) (name : List UInt8) (bound : Nat) : Prop :=
  ∀ sym pos, k.findEntry name (symbolIndices k.symtab) = .ok (some sym) →
    k.placements[sym.shndx]? = some (some (.text, pos)) → k.bases .text + pos + sym.value < bound

theorem Ok.sound_findEntry (h : k.Ok sizes) (name : List UInt8) (is : List Nat) :
    Sound (k.findEntry name is) fun _ => True := by
  induction is with
  | nil => trivial
  | cons i is ih =>
    refine (sound_lift.mpr (sound_symbol k.object k.symtab i)).bind fun sym _ => ?_
    cases sym with
    | none => exact sound_pure.mpr trivial
    | some sym =>
      dsimp only
      split
      · exact ih
      refine (sound_lift.mpr (h.valid.string _ _)).bind fun n _ => ?_
      split
      · exact ih
      · exact sound_pure.mpr trivial

theorem Ok.sound_entry (h : k.Ok sizes) (name : List UInt8) :
    (Sound (k.entry name) fun _ => True) ↔ k.EntryBelow name (2 ^ 64) := by
  unfold Link.entry EntryBelow
  rw [(h.sound_findEntry name _).bind_iff]
  constructor
  · intro hs sym pos hsym hplace
    have hthis := hs (some sym) hsym
    simp only [hplace, sound_bind, sound_fit64_iff] at hthis
    exact hthis.2.1
  · intro hfit sym? hsym
    cases sym? with
    | none => exact sound_pure.mpr trivial
    | some sym =>
      dsimp only
      split
      · next pos hplace =>
        have hsum := hfit sym pos hsym hplace
        simp only [sound_bind, sound_fit64_iff]
        exact ⟨by omega, hsum, sound_pure.mpr trivial⟩
      · exact sound_err _ _

/-- An entry point that was found is below a bound where its symbol is. -/
theorem entryBelow_iff {name : List UInt8} {e : Option Nat} (he : k.entry name = .ok e) (bound : Nat) :
    k.EntryBelow name bound ↔ ∀ a ∈ e, k.bases .text ≤ a ∧ a < bound := by
  unfold EntryBelow
  obtain ⟨found, hfound, he⟩ := bind_eq_ok.mp he
  rw [hfound]
  cases found with
  | none =>
    cases he
    exact iff_of_true (fun sym pos hsym => nomatch hsym) nofun
  | some sym =>
    dsimp only at he
    split at he
    · next pos hplace =>
      obtain ⟨a, ha, he⟩ := bind_eq_ok.mp he
      obtain ⟨b, hb, he⟩ := bind_eq_ok.mp he
      obtain ⟨-, rfl⟩ := fit64_eq_ok.mp ha
      obtain ⟨-, rfl⟩ := fit64_eq_ok.mp hb
      cases he
      constructor
      · intro hbelow a ha
        cases ha
        exact ⟨by omega, hbelow sym pos rfl hplace⟩
      · intro hin sym' pos' hsym hplace'
        obtain rfl := some.inj (Except.ok.inj hsym)
        obtain ⟨-, rfl⟩ := Prod.mk.inj (some.inj (some.inj (hplace.symm.trans hplace')))
        exact (hin _ rfl).2
    · cases he

/-- The condition on one object, laid out and copied. -/
structure Fits (k : Link) (sizes : Region → Nat) (image : Image) : Prop where
  /-- Every symbol that a relocation is against has an address. -/
  relocations : k.SectionsFit (range k.object.shnum) 0 image
  init : ∀ r, k.relocate image = .ok r → k.EntryBelow initSymbol (2 ^ 64)
  exit : ∀ r a, k.relocate image = .ok r → k.entry initSymbol = .ok (some a) → k.EntryBelow exitSymbol (2 ^ 64)
  /-- Where both are found, the entry points' symbols are in the text. -/
  text : ∀ r a e, k.relocate image = .ok r → k.entry initSymbol = .ok (some a) → k.entry exitSymbol = .ok e →
    k.EntryBelow initSymbol (k.bases .text + sizes .text) ∧ k.EntryBelow exitSymbol (k.bases .text + sizes .text)

end Link

/-- An address in the bytes of the loaded text. -/
def Loaded.InText (l : Loaded) (a : Nat) : Prop :=
  (l.regions .text).1 ≤ a ∧ a < (l.regions .text).1 + (l.regions .text).2

instance (l : Loaded) (a : Nat) : Decidable (l.InText a) := inferInstanceAs (Decidable (_ ∧ _))

/-- The entry points are in the module's code. -/
def Loaded.EntriesInText (l : Loaded) : Prop := l.InText l.init ∧ ∀ a ∈ l.exit, l.InText a

instance (l : Loaded) : Decidable l.EntriesInText := inferInstanceAs (Decidable (_ ∧ _))

namespace Link

theorem Ok.sound_finish (h : k.Ok sizes) (count : Nat) (image : Image) :
    (Sound (finish k sizes count image) fun r => r.1.EntriesInText) ↔
      k.EntryBelow initSymbol (2 ^ 64) ∧ ∀ a, k.entry initSymbol = .ok (some a) →
        k.EntryBelow exitSymbol (2 ^ 64) ∧ ∀ e, k.entry exitSymbol = .ok e →
          k.EntryBelow initSymbol (k.bases .text + sizes .text) ∧
            k.EntryBelow exitSymbol (k.bases .text + sizes .text) := by
  unfold finish
  rw [sound_bind_iff, h.sound_entry]
  refine and_congr_right fun _ => ?_
  -- Once both are found, what the loader returns is what the symbols say.
  have hfound (a : Nat) (ha : k.entry initSymbol = .ok (some a)) :
      (Sound (do
        let exit ← k.entry exitSymbol
        return ({ regions := fun r => (k.bases r, sizes r), init := a, exit, relocations := count }, image))
        fun r : Loaded × Image => r.1.EntriesInText) ↔
      k.EntryBelow exitSymbol (2 ^ 64) ∧ ∀ e, k.entry exitSymbol = .ok e →
        k.EntryBelow initSymbol (k.bases .text + sizes .text) ∧
          k.EntryBelow exitSymbol (k.bases .text + sizes .text) := by
    rw [sound_bind_iff, h.sound_entry]
    refine and_congr_right fun _ => forall_congr' fun e => forall_congr' fun he => ?_
    rw [sound_pure, entryBelow_iff ha, entryBelow_iff he]
    simp only [mem_some_iff, forall_eq']
    rfl
  constructor
  · intro hs a ha
    exact (hfound a ha).mp (sound_okOr_bind.mp (hs (some a) ha) a rfl)
  · intro hs found hinit
    refine sound_okOr_bind.mpr fun a hsome => ?_
    subst hsome
    exact (hfound a hinit).mpr (hs a hinit)

theorem Ok.sound_relocated (h : k.Ok sizes) (image : Image) :
    Sound (do
      let (count, image) ← k.relocate image
      finish k sizes count image) (fun r => r.1.EntriesInText) ↔ k.Fits sizes image := by
  rw [sound_bind_iff]
  unfold Link.relocate
  rw [h.sound_relocateSections]
  simp only [h.sound_finish]
  constructor
  · rintro ⟨hs, hfinish⟩
    exact {
      relocations := hs
      init := fun r hr => (hfinish r hr).1
      exit := fun r a hr ha => ((hfinish r hr).2 a ha).1
      text := fun r a e hr ha he => ((hfinish r hr).2 a ha).2 e he }
  · intro hfits
    exact ⟨hfits.relocations, fun r hr => ⟨hfits.init r hr, fun a ha =>
      ⟨hfits.exit r a hr ha, fun e he => hfits.text r a e hr ha he⟩⟩⟩

end Link

theorem sound_prepare {mem : Memory} (hmem : mem.Supplies) (bytes : List UInt8) (kernel : Kernel)
    (placements : List Placement) : Sound (prepare bytes kernel placements mem) fun p => p.1.Ok p.2.1 := by
  refine (sound_accept bytes kernel).bind fun accepted hvalid => ?_
  refine (sound_layout hvalid placements).bind fun laidOut hlayout => ?_
  obtain ⟨placed, sizes⟩ := laidOut
  obtain ⟨hn, hplaced⟩ := hlayout
  refine sound_okOr_bind.mpr fun regions hregions => ?_
  refine (sound_copySections hvalid hn hplaced _ _).bind fun image _ => sound_pure.mpr ?_
  exact {
    valid := hvalid
    placed := by rw [hplaced.length]; exact hplaced
    room := hmem.room sizes regions hregions }

/-- The condition under which a file is loaded, or refused, as it should be. -/
def Fits (bytes : List UInt8) (kernel : Kernel) (placements : List Placement) (mem : Memory) : Prop :=
  ∀ k sizes image, prepare bytes kernel placements mem = .ok (k, sizes, image) → k.Fits sizes image

/-- **Loading.** Whatever the bytes, the loader ends in an error or in a module with its entry points
in its text, and never in a panic, exactly if the file fits: the symbols that its relocations are
against and its entry points have addresses, and those of the entry points are in the text. -/
theorem load_sound {bytes : List UInt8} {kernel : Kernel} {placements : List Placement} {mem : Memory}
    (hmem : mem.Supplies) :
    Sound (load bytes kernel placements mem) (fun r => r.1.EntriesInText) ↔ Fits bytes kernel placements mem := by
  have hprepare := sound_prepare hmem bytes kernel placements
  unfold load Fits
  rw [hprepare.bind_iff, Prod.forall]
  refine forall_congr' fun k => ?_
  rw [Prod.forall]
  refine forall_congr' fun sizes => forall_congr' fun image => forall_congr' fun hp => ?_
  exact Link.Ok.sound_relocated (hprepare.of_ok hp) image

/-! ## A file -/

namespace Sample

def fileHeader (shoff shnum shstrndx : Nat) : List UInt8 :=
  [0x7f, 0x45, 0x4c, 0x46, 2, 1, 1] ++ replicate 9 0 ++ toLeBytes 2 etRel ++ toLeBytes 2 emX86_64 ++
    replicate 20 0 ++ toLeBytes 8 shoff ++ replicate 10 0 ++ toLeBytes 2 shdrLen ++
    toLeBytes 2 shnum ++ toLeBytes 2 shstrndx

def sectionHeader (name kind flags offset size link info entsize : Nat) : List UInt8 :=
  toLeBytes 4 name ++ toLeBytes 4 kind ++ toLeBytes 8 flags ++ toLeBytes 8 0 ++ toLeBytes 8 offset ++
    toLeBytes 8 size ++ toLeBytes 4 link ++ toLeBytes 4 info ++ toLeBytes 8 1 ++ toLeBytes 8 entsize

def symbolEntry (name info shndx value : Nat) : List UInt8 :=
  toLeBytes 4 name ++ toLeBytes 2 info ++ toLeBytes 2 shndx ++ toLeBytes 8 value ++ toLeBytes 8 0

def relaEntry (offset symbol kind : Nat) : List UInt8 :=
  toLeBytes 8 offset ++ toLeBytes 4 kind ++ toLeBytes 4 symbol ++ toLeBytes 8 0

def ktLog : List UInt8 := "kt_log".toUTF8.toList

/-- Names at 1, 19 and 34. -/
def strings : List UInt8 := [0] ++ identitySection ++ [0] ++ initSymbol ++ [0] ++ ktLog ++ [0]

def identity : List UInt8 := Identity.magic ++ replicate 32 0 ++ toLeBytes 4 0

/-- Eight bytes of text as section 3, with these symbols and these relocations. -/
def moduleFile (symbols relas : List UInt8) : List UInt8 :=
  let text := replicate 8 0
  let offset := ehdrLen + strings.length
  let contents := strings ++ identity ++ text ++ symbols ++ relas
  let headers :=
    sectionHeader 0 0 0 0 0 0 0 0 ++
    sectionHeader 0 3 0 ehdrLen strings.length 0 0 0 ++
    sectionHeader 1 1 0 offset identity.length 0 0 0 ++
    sectionHeader 0 1 (shfAlloc + shfExecinstr) (offset + identity.length) text.length 0 0 0 ++
    sectionHeader 0 shtSymtab 0 (offset + identity.length + text.length) symbols.length 1 0 symLen ++
    sectionHeader 0 shtRela 0 (offset + identity.length + text.length + symbols.length) relas.length 4 3 relaLen
  fileHeader (ehdrLen + contents.length) 6 1 ++ contents ++ headers

def kernel : Kernel where
  machine := emX86_64
  identityHash := replicate 32 0
  identityText := ""
  exports := [{ name := ktLog, hash := 7, addr := 0x1000 }]

/-- Each region at a block of its own. -/
def base : Region → Nat
  | .text => 0x200000
  | .rodata => 0x400000
  | .data => 0x600000

def memory : Memory where
  allocate sizes := some fun r => (base r, sizes r)

theorem memory_supplies : memory.Supplies where
  aligned sizes regions h r := by
    cases h
    show base r % 0x200000 = 0
    cases r <;> decide
  room sizes regions h r := by
    cases h
    have hbase : base r ≤ 0x600000 := by cases r <;> decide
    show base r + maxBytes < 2 ^ 64
    unfold maxBytes
    omega

/-- Loading a file whose one global symbol is `kt_module_init`, at `value` in the text. -/
def loadAt (value : Nat) : LR (Loaded × Image) :=
  load (moduleFile (symbolEntry 0 0 0 0 ++ symbolEntry 19 0x10 3 value) []) kernel (replicate 8 none) memory

end Sample

theorem load_sound_file : Sample.memory.Supplies ∧
    Fits (Sample.moduleFile (Sample.symbolEntry 0 0 0 0 ++ Sample.symbolEntry 19 0x10 3 7) []) Sample.kernel
      (replicate 8 none) Sample.memory :=
  ⟨Sample.memory_supplies, (load_sound Sample.memory_supplies).mp (by decide +kernel)⟩

/-- A symbol past the text is returned as an entry point, and one far past it overflows the sum. -/
theorem load_unsound : Sample.memory.Supplies ∧
    (Sample.loadAt 8).toOption.map (fun r => (r.1.init, r.1.regions .text)) = some (0x200008, 0x200000, 8) ∧
    ¬Sound (Sample.loadAt (2 ^ 64 - 1)) fun _ => True :=
  ⟨Sample.memory_supplies, by decide +kernel, by decide +kernel⟩

end Kintane.Module
