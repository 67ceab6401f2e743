import Mathlib.Algebra.BigOperators.Group.Finset.Basic
import Mathlib.Algebra.Order.BigOperators.Group.Finset
import Mathlib.Order.Interval.Finset.Nat

/-!
# Disjoint families of extents

An extent `(a, n)` is the `n` addresses from `a` on. Two extents are *apart* when
neither reaches into the other, and a finite set of extents is *packed* when none is
empty and any two are apart. That is what an allocator owes its callers, and what it
may assume about the memory it was given. A packed set inside a window is no larger
than the window, so counting its bytes never overflows a counter as wide as the
window's addresses.
-/

open Finset

namespace Kintane

/-- A start and a length. -/
abbrev Extent := Nat × Nat

namespace Extent

/-- Neither extent reaches into the other. -/
def Apart (x y : Extent) : Prop := x.1 + x.2 ≤ y.1 ∨ y.1 + y.2 ≤ x.1

/-- Every address of `x` is one of `y`. -/
def Within (x y : Extent) : Prop := y.1 ≤ x.1 ∧ x.1 + x.2 ≤ y.1 + y.2

variable {x y x' y' z : Extent} {P Q : Finset Extent}

theorem Apart.symm (h : Apart x y) : Apart y x := Or.symm h

theorem Within.refl (x : Extent) : Within x x := ⟨le_rfl, le_rfl⟩

theorem Within.trans (h : Within x y) (h' : Within y z) : Within x z :=
  ⟨h'.1.trans h.1, h.2.trans h'.2⟩

/-- Parts of extents that are apart are apart. -/
theorem Apart.mono (h : Apart x y) (hx : Within x' x) (hy : Within y' y) : Apart x' y' := by
  obtain ⟨hx1, hx2⟩ := hx
  obtain ⟨hy1, hy2⟩ := hy
  rcases h with h | h
  · exact .inl (by omega)
  · exact .inr (by omega)

/-- An address in both rules out apartness. -/
theorem Apart.not_both (h : Apart x y) {a : Nat} (hx : Within (a, 1) x) : ¬ Within (a, 1) y := by
  intro hy
  obtain ⟨hx1, hx2⟩ := hx
  obtain ⟨hy1, hy2⟩ := hy
  rcases h with h | h <;> omega

/-- How many addresses a family covers, overlaps counted twice. -/
def size (P : Finset Extent) : Nat := ∑ x ∈ P, x.2

@[simp] theorem size_empty : size ∅ = 0 := rfl

theorem size_insert (h : x ∉ P) : size (insert x P) = x.2 + size P := sum_insert h

theorem size_erase (h : x ∈ P) : size (P.erase x) + x.2 = size P :=
  sum_erase_add P (fun x => x.2) h

theorem size_union (h : Disjoint P Q) : size (P ∪ Q) = size P + size Q := sum_union h

/-- None empty, any two apart. -/
structure Packed (P : Finset Extent) : Prop where
  pos : ∀ x ∈ P, 0 < x.2
  apart : ∀ x ∈ P, ∀ y ∈ P, x ≠ y → Apart x y

namespace Packed

theorem empty : Packed ∅ := ⟨by simp, by simp⟩

theorem subset (h : Packed P) (hs : Q ⊆ P) : Packed Q :=
  ⟨fun x hx => h.pos x (hs hx), fun x hx y hy => h.apart x (hs hx) y (hs hy)⟩

theorem erase (h : Packed P) (x : Extent) : Packed (P.erase x) := h.subset (erase_subset _ _)

theorem union (h : Packed P) (h' : Packed Q) (hpq : ∀ x ∈ P, ∀ y ∈ Q, Apart x y) :
    Packed (P ∪ Q) where
  pos := forall_mem_union.mpr ⟨h.pos, h'.pos⟩
  apart := by
    intro x hx y hy hne
    rcases mem_union.mp hx with hx | hx
    · rcases mem_union.mp hy with hy | hy
      · exact h.apart x hx y hy hne
      · exact hpq x hx y hy
    · rcases mem_union.mp hy with hy | hy
      · exact (hpq y hy x hx).symm
      · exact h'.apart x hx y hy hne

theorem insert (h : Packed P) (hx : 0 < x.2) (hxP : ∀ y ∈ P, Apart x y) : Packed (insert x P) := by
  rw [insert_eq]
  refine union ⟨fun y hy => ?_, fun y hy z hz hne => ?_⟩ h fun y hy => ?_
  · rw [mem_singleton.mp hy]; exact hx
  · exact absurd ((mem_singleton.mp hy).trans (mem_singleton.mp hz).symm) hne
  · rw [mem_singleton.mp hy]; exact hxP

/-- What is apart from everything in a family of real extents is not in it. -/
theorem not_mem (hx : 0 < x.2) (hxP : ∀ y ∈ P, Apart x y) : x ∉ P := by
  intro hmem
  rcases hxP x hmem with h | h <;> omega

/-- Families that are apart share no member. -/
theorem disjoint (h : Packed P) (hpq : ∀ x ∈ P, ∀ y ∈ Q, Apart x y) : Disjoint P Q :=
  disjoint_left.mpr fun x hx hx' => not_mem (h.pos x hx) (fun y hy => hpq x hx y hy) hx'

/-- A packed family inside `[lo, hi)` covers at most `hi - lo` addresses. -/
theorem size_le (h : Packed P) (lo hi : Nat) (hin : ∀ x ∈ P, lo ≤ x.1 ∧ x.1 + x.2 ≤ hi) : size P ≤ hi - lo := by
  have hcard : (P.biUnion fun x => Ico x.1 (x.1 + x.2)).card = size P := by
    rw [card_biUnion]
    · exact sum_congr rfl fun x _ => by simp
    · intro x hx y hy hne
      refine disjoint_left.mpr fun a ha hb => ?_
      rw [mem_Ico] at ha hb
      rcases h.apart x hx y hy hne with hxy | hxy <;> omega
  rw [← hcard, ← Nat.card_Ico]
  refine card_le_card fun a ha => ?_
  obtain ⟨x, hx, hax⟩ := mem_biUnion.mp ha
  have := hin x hx
  rw [mem_Ico] at hax ⊢
  omega

end Packed

end Extent

end Kintane
