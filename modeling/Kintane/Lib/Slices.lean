import Mathlib.Algebra.Group.Nat.Defs
import Mathlib.Data.List.Basic

/-!
# Slices with checked bounds

Code over slices in which an index or a range that is out of bounds stops the program, apart from
the errors it returns. `Sound m P` says that `m` is never stopped: it returns a value with `P`, or
an error.

Writes go to a slice piece by piece. Where the pieces follow one another, the slice ends up as what
they spell, and each of them reads back.
-/

open List

namespace Kintane.Slices

open Except

/-- Why a computation has no value. -/
inductive Stop (ε : Type) where
  /-- It returns an error. -/
  | err (e : ε)
  | outOfRange
  /-- A sum or product left the machine's word. -/
  | overflow
  /-- A loop was cut off. -/
  | noFuel

variable {ε α β : Type} {P : α → Prop} {Q : β → Prop} {f : α → Except (Stop ε) β} {m : Except (Stop ε) α} {a : α}
  {o : Option α} {p : List α} {e : ε} {n b : Nat}

/-- `p[i]`. -/
def index (p : List α) (i : Nat) : Except (Stop ε) α :=
  match p[i]? with
  | some a => .ok a
  | none => .error .outOfRange

/-- `&p[a..b]`. -/
def range (p : List α) (a b : Nat) : Except (Stop ε) (List α) :=
  if a ≤ b ∧ b ≤ p.length then .ok ((p.drop a).take (b - a)) else .error .outOfRange

/-- `o.ok_or(e)?`. -/
def okOr (o : Option α) (e : ε) : Except (Stop ε) α :=
  match o with
  | some a => .ok a
  | none => .error (.err e)

/-- `p[i] = a`. -/
def setAt (p : List α) (i : Nat) (a : α) : Except (Stop ε) (List α) :=
  if i < p.length then .ok (p.set i a) else .error .outOfRange

/-- A sum or product that has to fit in 64 bits. -/
def fit64 (n : Nat) : Except (Stop ε) Nat := if n < 2 ^ 64 then .ok n else .error .overflow

/-- `s[i..i + v.len()].copy_from_slice(v)`. -/
def copyTo (s : List α) (i : Nat) (v : List α) : Except (Stop ε) (List α) :=
  if i + v.length ≤ s.length then .ok (s.take i ++ (v ++ s.drop (i + v.length))) else .error .outOfRange

/-- Several copies, one after the other. -/
def copyAll (pieces : List (Nat × List α)) (s : List α) : Except (Stop ε) (List α) :=
  pieces.foldlM (fun s piece => copyTo s piece.1 piece.2) s

/-! ## Soundness -/

/-- Never stopped but by an error. -/
def Sound (m : Except (Stop ε) α) (P : α → Prop) : Prop :=
  match m with
  | .ok a => P a
  | .error (.err _) => True
  | .error _ => False

instance {m : Except (Stop ε) α} {P : α → Prop} [DecidablePred P] : Decidable (Sound m P) :=
  match m with
  | .ok a => inferInstanceAs (Decidable (P a))
  | .error (.err _) => .isTrue trivial
  | .error .outOfRange => .isFalse id
  | .error .overflow => .isFalse id
  | .error .noFuel => .isFalse id

theorem Sound.bind (h : Sound m P) (hf : ∀ a, P a → Sound (f a) Q) : Sound (m >>= f) Q := by
  cases m with
  | ok a => exact hf a h
  | error e => cases e <;> exact h

theorem Sound.mono {Q : α → Prop} (h : Sound m P) (hPQ : ∀ a, P a → Q a) : Sound m Q := by
  cases m with
  | ok a => exact hPQ a h
  | error e => cases e <;> exact h

/-- One computation, and then another. -/
theorem sound_bind : Sound (m >>= f) Q ↔ Sound m fun a => Sound (f a) Q := by
  cases m with
  | ok a => rfl
  | error e => cases e <;> rfl

/-- What follows a computation that is never stopped. -/
theorem Sound.bind_iff (h : Sound m P) : Sound (m >>= f) Q ↔ ∀ a, m = .ok a → Sound (f a) Q := by
  cases m with
  | ok a => exact ⟨fun hs b hb => ok.inj hb ▸ hs, fun hs => hs a rfl⟩
  | error e =>
    cases e with
    | err e => exact ⟨fun _ a ha => (nomatch ha), fun _ => trivial⟩
    | outOfRange => exact h.elim
    | overflow => exact h.elim
    | noFuel => exact h.elim

/-- Apart: that a computation is never stopped, and what its value is. -/
theorem sound_iff_ok : Sound m P ↔ (Sound m fun _ => True) ∧ ∀ a, m = .ok a → P a := by
  cases m with
  | ok a => exact ⟨fun h => ⟨trivial, fun b hb => ok.inj hb ▸ h⟩, fun h => h.2 a rfl⟩
  | error e => cases e <;> simp [Sound]

theorem sound_bind_iff : Sound (m >>= f) Q ↔ (Sound m fun _ => True) ∧ ∀ a, m = .ok a → Sound (f a) Q :=
  sound_bind.trans sound_iff_ok

theorem Sound.of_ok (h : Sound m P) (hm : m = .ok a) : P a := by
  rwa [hm] at h

theorem sound_pure : Sound (pure a : Except (Stop ε) α) P ↔ P a := Iff.rfl

theorem sound_err (e : ε) (P : α → Prop) : Sound (.error (.err e)) P := trivial

/-- What follows a check. -/
theorem sound_unless {c : Prop} [Decidable c] (h : ¬c → Sound m P) : Sound (if c then .error (.err e) else m) P := by
  split
  · trivial
  · next hc => exact h hc

/-- What follows a value that has to be there. -/
theorem sound_okOr_bind : Sound (okOr o e >>= f) Q ↔ ∀ a, o = some a → Sound (f a) Q := by
  cases o with
  | none => exact ⟨fun _ a ha => (nomatch ha), fun _ => trivial⟩
  | some a => exact ⟨fun hs b hb => Option.some.inj hb ▸ hs, fun hs => hs a rfl⟩

theorem sound_fit64_iff {P : Nat → Prop} : Sound (fit64 n : Except (Stop ε) Nat) P ↔ n < 2 ^ 64 ∧ P n := by
  unfold fit64
  split
  · next h => exact ⟨fun hp => ⟨h, hp⟩, fun hp => hp.2⟩
  · next h => exact ⟨fun hp => hp.elim, fun hp => absurd hp.1 h⟩

theorem sound_fit64 (h : n < 2 ^ 64) : Sound (fit64 n : Except (Stop ε) Nat) fun m => m = n := by
  unfold fit64
  rw [if_pos h]
  rfl

variable {i : Nat}

theorem sound_setAt (h : i < p.length) :
    Sound (setAt p i a : Except (Stop ε) (List α)) fun q => q = p.set i a := by
  unfold setAt
  rw [if_pos h]
  rfl

theorem sound_okOr (o : Option α) (e : ε) : Sound (okOr o e) fun a => o = some a := by
  cases o with
  | none => trivial
  | some a => rfl

theorem sound_index (h : i < p.length) :
    Sound (index p i : Except (Stop ε) α) fun a => p[i]? = some a := by
  unfold index
  rw [getElem?_eq_getElem h]
  rfl

theorem sound_range {a : Nat} (hab : a ≤ b) (hb : b ≤ p.length) :
    Sound (range p a b : Except (Stop ε) (List α)) fun l => l = (p.drop a).take (b - a) := by
  unfold range
  rw [if_pos ⟨hab, hb⟩]
  rfl

/-- A part of a slice. -/
theorem take_drop_isInfix (p : List α) (a n : Nat) : (p.drop a).take n <:+: p :=
  ( take_prefix n _).isInfix.trans (drop_suffix a p).isInfix

/-! ## Steps that succeed -/

theorem bind_eq_ok {b : β} : (m >>= f) = .ok b ↔ ∃ a, m = .ok a ∧ f a = .ok b := by
  cases m with
  | ok a => exact ⟨fun h => ⟨a, rfl, h⟩, fun ⟨_, ha, h⟩ => ok.inj ha ▸ h⟩
  | error e => exact ⟨fun h => (nomatch h), fun ⟨_, ha, _⟩ => (nomatch ha)⟩

theorem ok_of_toOption (h : m.toOption = some a) : m = .ok a := by
  cases m with
  | ok b => exact congrArg ok (Option.some.inj h)
  | error e => cases h

theorem fit64_eq_ok {m : Nat} : (fit64 n : Except (Stop ε) Nat) = .ok m ↔ n < 2 ^ 64 ∧ m = n := by
  unfold fit64
  split
  · next h => exact ⟨fun hm => ⟨h, (ok.inj hm).symm⟩, fun hm => hm.2 ▸ rfl⟩
  · next h => exact ⟨fun hm => (nomatch hm), fun hm => absurd hm.1 h⟩

theorem okOr_eq_ok : okOr o e = .ok a ↔ o = some a := by
  cases o with
  | none => exact ⟨fun h => (nomatch h), fun h => (nomatch h)⟩
  | some b => exact ⟨fun h => congrArg some (ok.inj h), fun h => congrArg ok (Option.some.inj h)⟩

theorem bind_okOr (h : o = some a) : (okOr o e >>= f) = f a := by
  subst h
  rfl

theorem bind_index (h : p[i]? = some a) : (index p i >>= f) = f a := by
  rw [index, h]
  rfl

theorem bind_range {a : Nat} {f : List α → Except (Stop ε) β} (hab : a ≤ b) (hb : b ≤ p.length) :
    (range p a b >>= f) = f ((p.drop a).take (b - a)) := by
  rw [range, if_pos ⟨hab, hb⟩]
  rfl

theorem bind_ok (h : m = .ok a) : (m >>= f) = f a := by
  subst h
  rfl

/-! ## Pieces -/

/-- What the pieces spell. -/
def spell (pieces : List (Nat × List α)) : List α := pieces.flatMap (·.2)

@[simp] theorem spell_nil : spell ([] : List (Nat × List α)) = [] := rfl

@[simp] theorem spell_cons (i : Nat) (v : List α) (pieces : List (Nat × List α)) :
    spell ((i, v) :: pieces) = v ++ spell pieces := rfl

@[simp] theorem spell_append (l r : List (Nat × List α)) : spell (l ++ r) = spell l ++ spell r := by
  simp [spell]

/-- Each piece starts where the one before it ends. -/
def Contiguous : Nat → List (Nat × List α) → Prop
  | _, [] => True
  | i, (j, v) :: pieces => j = i ∧ Contiguous (i + v.length) pieces

theorem contiguous_append {l r : List (Nat × List α)} :
    Contiguous i (l ++ r) ↔ Contiguous i l ∧ Contiguous (i + (spell l).length) r := by
  induction l generalizing i with
  | nil => simp [Contiguous]
  | cons piece l ih =>
    obtain ⟨j, v⟩ := piece
    simp [Contiguous, ih, and_assoc, add_assoc]

theorem copyTo_append {a b v : List α} (h : v.length ≤ b.length) :
    (copyTo (a ++ b) a.length v : Except (Stop ε) _) = .ok ((a ++ v) ++ b.drop v.length) := by
  rw [copyTo, if_pos (by simpa using h)]
  simp [drop_append]

variable {pieces : List (Nat × List α)}

/-- The pieces take the place of as much of the slice. -/
theorem copyAll_append {a b : List α} (hc : Contiguous a.length pieces)
    (h : (spell pieces).length ≤ b.length) :
    (copyAll pieces (a ++ b) : Except (Stop ε) _) =
      .ok ((a ++ spell pieces) ++ b.drop (spell pieces).length) := by
  induction pieces generalizing a b with
  | nil => simp [copyAll, pure, Except.pure]
  | cons piece pieces ih =>
    obtain ⟨i, v⟩ := piece
    obtain ⟨rfl, hc⟩ := hc
    rw [spell_cons, length_append] at h
    have hrest := ih (a := a ++ v) (b := b.drop v.length) (by simpa using hc) (by simp; omega)
    show (copyTo (a ++ b) a.length v >>= fun s => copyAll pieces s) = _
    rw [copyTo_append (by omega)]
    refine hrest.trans ?_
    simp [drop_drop]

section

variable {pieces : List (Nat × List α)} {i k : Nat} {v v' : List α}

/-- What stands before and after a piece. -/
theorem spell_eq (hk : pieces[k]? = some (i, v)) :
    spell pieces = spell (pieces.take k) ++ (v ++ spell (pieces.drop (k + 1))) := by
  obtain ⟨hlt, hget⟩ := List.getElem?_eq_some_iff.mp hk
  rw [← spell_cons i, ← hget, getElem_cons_drop, ← spell_append, take_append_drop]

theorem spell_set (hk : pieces[k]? = some (i, v)) :
    spell (pieces.set k (i, v')) = spell (pieces.take k) ++ (v' ++ spell (pieces.drop (k + 1))) := by
  obtain ⟨hlt, -⟩ := List.getElem?_eq_some_iff.mp hk
  rw [spell_eq (getElem?_set_self hlt), take_set_of_le (Nat.le_refl k), drop_set_of_lt (Nat.lt_succ_self k)]

theorem length_spell_take (hc : Contiguous 0 pieces) (hk : pieces[k]? = some (i, v)) :
    (spell (pieces.take k)).length = i := by
  obtain ⟨hlt, hget⟩ := List.getElem?_eq_some_iff.mp hk
  have hsplit : Contiguous 0 (pieces.take k ++ (i, v) :: pieces.drop (k + 1)) := by
    rwa [← hget, getElem_cons_drop, take_append_drop]
  obtain ⟨-, hi, -⟩ := contiguous_append.mp hsplit
  rw [hi, zero_add]

/-- A piece is replaced by another of its length. -/
theorem copyTo_spell (tail : List α) (hc : Contiguous 0 pieces) (hk : pieces[k]? = some (i, v))
    (hlen : v'.length = v.length) :
    (copyTo (spell pieces ++ tail) i v' : Except (Stop ε) _) = .ok (spell (pieces.set k (i, v')) ++ tail) := by
  rw [spell_eq hk, spell_set hk, ← length_spell_take hc hk, append_assoc, copyTo_append (by simp; omega)]
  simp [hlen]

theorem copyTo_spell_self (hc : Contiguous 0 pieces) (hk : pieces[k]? = some (i, v)) (hlen : v'.length = v.length) :
    (copyTo (spell pieces) i v' : Except (Stop ε) _) = .ok (spell (pieces.set k (i, v'))) := by
  simpa using copyTo_spell (ε := ε) [] hc hk hlen

end

/-- Pieces that fill the first `n` places. -/
structure Fills (pieces : List (Nat × List α)) (n : Nat) : Prop where
  contiguous : Contiguous 0 pieces
  length : (spell pieces).length = n

namespace Fills

variable {tail : List α} (h : Fills pieces n)
include h

theorem drop : (spell pieces ++ tail).drop n = tail := drop_left' h.length

theorem take : (spell pieces ++ tail).take n = spell pieces := take_left' h.length

/-- Every piece reads back. -/
theorem slice {m : Nat} {v : List α} (hm : (i, v) ∈ pieces) (hv : v.length = m) :
    ((spell pieces ++ tail).drop i).take m = v := by
  subst hv
  obtain ⟨l, r, rfl⟩ := append_of_mem hm
  obtain ⟨-, rfl, -⟩ := contiguous_append.mp h.contiguous
  simp

end Fills

end Kintane.Slices
