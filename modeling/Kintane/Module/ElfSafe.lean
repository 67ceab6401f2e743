import Kintane.Module.Load

/-!
# No bytes make the reader panic

Once the header table is known to lie in the file, each reader returns an error or a value; none indexes
out of bounds and no sum in one overflows.
-/

namespace Kintane.Module

open Slices

/-- The section header table lies in the file, and its end is a word. -/
structure Object.Valid (o : Object) : Prop where
  inFile : o.shnum * shdrLen + o.shoff ≤ o.bytes.length
  word : o.shnum * shdrLen + o.shoff < 2 ^ 64

theorem sound_parse (bytes : List UInt8) : Sound (Object.parse bytes) Object.Valid := by
  refine sound_unless fun hlen => ?_
  unfold ehdrLen at hlen
  refine (sound_range (Nat.zero_le _) (by omega)).bind fun magic _ => ?_
  refine (sound_index (by omega)).bind fun elfClass _ => (sound_index (by omega)).bind fun data _ =>
    (sound_index (by omega)).bind fun version _ => sound_unless fun _ => ?_
  refine sound_okOr_bind.mpr fun eType _ => sound_unless fun _ => ?_
  refine sound_okOr_bind.mpr fun machine _ => sound_okOr_bind.mpr fun shoff _ =>
    sound_okOr_bind.mpr fun shentsize _ => sound_okOr_bind.mpr fun shnum _ =>
    sound_okOr_bind.mpr fun shstrndx _ => sound_unless fun _ => ?_
  refine sound_okOr_bind.mpr fun stop hstop => sound_unless fun hin => ?_
  obtain ⟨n, hn, hstop⟩ := Option.bind_eq_some_iff.mp hstop
  obtain ⟨hle, rfl⟩ := checkedAdd_eq_some.mp hstop
  unfold checkedMul at hn
  split at hn
  · cases hn
    exact sound_pure.mpr { inFile := Nat.le_of_not_lt hin, word := Nat.lt_succ_of_le hle }
  · cases hn

section

variable {o : Object} {s : Section} {i : Nat} {α : Type} {m : ER α}

theorem sound_data (o : Object) (s : Section) : Sound (o.data s) fun d => d.length ≤ s.size := by
  unfold Object.data
  split
  · exact Nat.zero_le _
  · refine sound_okOr_bind.mpr fun _ _ => (sound_okOr _ _).mono fun d hd => ?_
    exact (length_of_getSlice hd).le

namespace Object.Valid

variable (h : o.Valid)
include h

theorem sectionAt (i : Nat) : Sound (o.sectionAt i) fun s => s.index = i ∧ i < o.shnum := by
  have hword := h.word
  refine sound_unless fun hi => ?_
  -- Every field of the header ends before the table does.
  have hlt : i * shdrLen + o.shoff + shdrLen < 2 ^ 64 := by
    unfold shdrLen at hword ⊢
    omega
  refine (sound_fit64 (by omega)).bind fun skip hskip => ?_
  refine (sound_fit64 (by omega)).bind fun pos hpos => ?_
  subst hskip hpos
  have field (read : List UInt8 → Nat → Option Nat) {k : Nat} (hk : k < shdrLen) :
      Sound (o.field read i (o.shoff + i * shdrLen) k) fun _ => True :=
    (sound_fit64 (by omega)).bind fun _ _ => (sound_okOr _ _).mono fun _ _ => trivial
  refine (field _ (by decide)).bind fun _ _ => (field _ (by decide)).bind fun _ _ =>
    (field _ (by decide)).bind fun _ _ => (field _ (by decide)).bind fun _ _ =>
    (field _ (by decide)).bind fun _ _ => (field _ (by decide)).bind fun _ _ =>
    (field _ (by decide)).bind fun _ _ => (field _ (by decide)).bind fun _ _ =>
    (field _ (by decide)).bind fun _ _ => ?_
  exact sound_pure.mpr ⟨rfl, Nat.lt_of_not_le hi⟩

theorem string (table offset : Nat) : Sound (o.string table offset) fun _ => True := by
  refine (h.sectionAt table).bind fun s _ => (sound_data o s).bind fun data _ => ?_
  refine sound_okOr_bind.mpr fun rest _ => sound_okOr_bind.mpr fun stop hstop => ?_
  have hlt : stop < rest.length := (List.findIdx?_eq_some_iff_findIdx_eq.mp hstop).1
  exact (sound_range (Nat.zero_le _) hlt.le).mono fun _ _ => trivial

theorem findSection (name : List UInt8) (is : List Nat) : Sound (o.findSection name is) fun _ => True := by
  induction is with
  | nil => trivial
  | cons i is ih =>
    refine (h.sectionAt i).bind fun s _ => (h.string _ _).bind fun n _ => ?_
    split
    · exact sound_pure.mpr trivial
    · exact ih

theorem findSymtab (is : List Nat) : Sound (o.findSymtab is) fun _ => True := by
  induction is with
  | nil => trivial
  | cons i is ih =>
    refine (h.sectionAt i).bind fun s _ => ?_
    split
    · refine sound_unless fun _ => (sound_data o s).bind fun _ _ => (h.sectionAt _).bind fun _ _ => ?_
      exact sound_pure.mpr trivial
    · exact ih

end Object.Valid

theorem sound_symbol (o : Object) (symtab : Section) (i : Nat) : Sound (o.symbol symtab i) fun _ => True := by
  refine (sound_data o symtab).bind fun data _ => ?_
  split
  · exact sound_pure.mpr trivial
  simp only
  split
  · split
    · exact sound_pure.mpr trivial
    · next he =>
      rw [ne_eq, Decidable.not_not] at he
      refine (sound_index (by rw [he]; decide)).bind fun info _ => sound_pure.mpr trivial
  · exact sound_pure.mpr trivial

theorem sound_relas (o : Object) (s : Section) : Sound (o.relas s) fun _ => True := by
  exact sound_unless fun _ => (sound_data o s).bind fun data _ => sound_pure.mpr trivial

/-- Reading inside the loader. -/
theorem sound_lift {P : α → Prop} : Sound (lift m) P ↔ Sound m P := by
  cases m with
  | ok a => rfl
  | error e => cases e <;> rfl

theorem lift_eq_ok {a : α} : lift m = .ok a ↔ m = .ok a := by
  cases m with
  | ok b => simp [lift]
  | error e => cases e <;> simp [lift]

/-- What follows the reading of a section header. -/
theorem Object.Valid.read {β : Type} {f : Section → LR β} {Q : β → Prop} (h : o.Valid)
    (hf : ∀ s, o.sectionAt i = .ok s → s.index = i → i < o.shnum → Sound (f s) Q) :
    Sound (lift (o.sectionAt i) >>= f) Q := by
  refine (sound_lift.mpr (h.sectionAt i)).bind_iff.mpr fun s hs => ?_
  rw [lift_eq_ok] at hs
  obtain ⟨hi, hlt⟩ := (h.sectionAt i).of_ok hs
  exact hf s hs hi hlt

end

end Kintane.Module
