import Mathlib.Data.Finset.Lattice.Basic
import Mathlib.Order.Interval.Finset.Nat
import Mathlib.Data.List.Pairwise

/-!
# Sorted spans as a canonical form of a finite set

A span `(s, e)` stands for the addresses `s, …, e - 1`. A list of spans is
*separated* when no span is empty and each ends strictly before the next begins:
neither overlapping nor touching. Such a list is the shortest description of the
addresses it covers, and the only separated one: `Separated.eq_of_addrs_eq`. It has as many
spans as the set has *heads*, addresses whose predecessor is missing, so cutting `k` spans
out of a set adds at most `k` spans to its description: `Separated.length_le_add`.
-/

open Finset

namespace Kintane.Spans

open List

/-- The addresses a list of spans covers. -/
def addrs : List (Nat × Nat) → Finset Nat
  | [] => ∅
  | x :: l => Ico x.1 x.2 ∪ addrs l

variable {a : Nat} {l m : List (Nat × Nat)}

theorem mem_addrs : a ∈ addrs l ↔ ∃ x ∈ l, x.1 ≤ a ∧ a < x.2 := by
  induction l with
  | nil => simp [addrs]
  | cons x l ih => simp [addrs, ih]

theorem addrs_append (l r : List (Nat × Nat)) : addrs (l ++ r) = addrs l ∪ addrs r := by
  induction l with
  | nil => simp [addrs]
  | cons x l ih => rw [cons_append, addrs, ih, addrs, union_assoc]

/-- Sorted, not empty, not touching. -/
structure Separated (l : List (Nat × Nat)) : Prop where
  nonempty : ∀ x ∈ l, x.1 < x.2
  gaps : l.Pairwise fun x y => x.2 < y.1

namespace Separated

theorem nil : Separated [] := ⟨by simp, List.Pairwise.nil⟩

variable {x : Nat × Nat} {r : List (Nat × Nat)}

theorem cons_iff : Separated (x :: l) ↔ x.1 < x.2 ∧ (∀ y ∈ l, x.2 < y.1) ∧ Separated l := by
  constructor
  · rintro ⟨h1, h2⟩
    obtain ⟨h3, h4⟩ := pairwise_cons.mp h2
    exact ⟨h1 x mem_cons_self, h3, (forall_mem_cons.mp h1).2, h4⟩
  · rintro ⟨h1, h2, h3, h4⟩
    exact ⟨forall_mem_cons.mpr ⟨h1, h3⟩, pairwise_cons.mpr ⟨h2, h4⟩⟩

theorem append_iff : Separated (l ++ r) ↔ Separated l ∧ Separated r ∧ ∀ x ∈ l, ∀ y ∈ r, x.2 < y.1 := by
  constructor
  · rintro ⟨h1, h2⟩
    obtain ⟨h3, h4, h5⟩ := pairwise_append.mp h2
    exact ⟨⟨fun x hx => h1 x (mem_append_left _ hx), h3⟩, ⟨fun x hx => h1 x (mem_append_right _ hx), h4⟩, h5⟩
  · rintro ⟨⟨h1, h3⟩, ⟨h2, h4⟩, h5⟩
    exact ⟨forall_mem_append.mpr ⟨h1, h2⟩, pairwise_append.mpr ⟨h3, h4, h5⟩⟩

theorem middle {b : Nat} (hl : Separated l) (hr : Separated r)
    (hab : a < b) (hla : ∀ x ∈ l, x.2 < a) (hbr : ∀ y ∈ r, b < y.1) :
    Separated (l ++ (a, b) :: r) := by
  refine append_iff.mpr ⟨hl, cons_iff.mpr ⟨hab, hbr, hr⟩, fun x hx => ?_⟩
  exact forall_mem_cons.mpr ⟨hla x hx, fun y hy => (hla x hx).trans (hab.trans (hbr y hy))⟩

/-- A list separated around one span stays so around anything that fits in the span's place. -/
theorem replace {s e : Nat} (h : Separated (l ++ (s, e) :: r))
    (hm : Separated m) (hin : ∀ x ∈ m, s ≤ x.1 ∧ x.2 ≤ e) : Separated (l ++ (m ++ r)) := by
  obtain ⟨hl, hr, hlr⟩ := append_iff.mp h
  obtain ⟨-, her, hr⟩ := cons_iff.mp hr
  have hmr : Separated (m ++ r) :=
    append_iff.mpr ⟨hm, hr, fun x hx y hy => lt_of_le_of_lt (hin x hx).2 (her y hy)⟩
  refine append_iff.mpr ⟨hl, hmr, fun x hx y hy => ?_⟩
  rcases mem_append.mp hy with hy | hy
  · exact (hlr x hx (s, e) mem_cons_self).trans_le (hin y hy).1
  · exact hlr x hx y (mem_cons_of_mem _ hy)

/-- Everything after a span lies past its end. -/
theorem lt_of_mem_addrs (h : Separated (x :: l)) (ha : a ∈ addrs l) : x.2 < a := by
  obtain ⟨y, hy, h1, -⟩ := mem_addrs.mp ha
  exact ((cons_iff.mp h).2.1 y hy).trans_le h1

section

variable (h : Separated l)

include h

theorem apart {y : Nat × Nat} (hx : x ∈ l) (hy : y ∈ l) (hxy : x ≠ y) : x.2 < y.1 ∨ y.2 < x.1 := by
  have hsymm : Std.Symm fun x y : Nat × Nat => x.2 < y.1 ∨ y.2 < x.1 := ⟨fun _ _ => Or.symm⟩
  exact (h.gaps.imp (S := fun x y => x.2 < y.1 ∨ y.2 < x.1) .inl).forall hx hy hxy

/-- The addresses on either side of a span are not covered. -/
theorem not_mem_addrs (hx : x ∈ l) (ha : a = x.2 ∨ a + 1 = x.1) : a ∉ addrs l := by
  intro hmem
  obtain ⟨y, hy, hlo, hhi⟩ := mem_addrs.mp hmem
  by_cases hxy : x = y
  · subst hxy
    omega
  · have := h.nonempty x hx
    rcases h.apart hx hy hxy with hlt | hlt <;> omega

/-- The spans are the runs of the addresses covered. -/
theorem mem_iff : x ∈ l ↔ x.1 < x.2 ∧ (∀ a, x.1 ≤ a → a < x.2 → a ∈ addrs l) ∧
    ∀ a, a = x.2 ∨ a + 1 = x.1 → a ∉ addrs l := by
  constructor
  · intro hx
    exact ⟨h.nonempty x hx, fun a hlo hhi => mem_addrs.mpr ⟨x, hx, hlo, hhi⟩, fun a => h.not_mem_addrs hx⟩
  · rintro ⟨hlt, hin, hout⟩
    obtain ⟨y, hy, hlo, hhi⟩ := mem_addrs.mp (hin x.1 le_rfl hlt)
    have hcover (a : Nat) (h1 : y.1 ≤ a) (h2 : a < y.2) : a ∈ addrs l := mem_addrs.mpr ⟨y, hy, h1, h2⟩
    have hs : y.1 = x.1 := by
      by_contra hne
      exact hout (x.1 - 1) (.inr (by omega)) (hcover _ (by omega) (by omega))
    have he : y.2 = x.2 := by
      rcases lt_trichotomy y.2 x.2 with hgt | heq | hgt
      · exact absurd (hin y.2 hhi.le hgt) (h.not_mem_addrs hy (.inl rfl))
      · exact heq
      · exact absurd (hcover x.2 (by omega) hgt) (hout x.2 (.inl rfl))
    rwa [← Prod.ext hs he]

theorem sorted : l.Pairwise fun x y => x.1 < y.1 :=
  h.gaps.imp_of_mem fun hx _ hgap => (h.nonempty _ hx).trans hgap

theorem nodup_starts : (l.map Prod.fst).Nodup := List.Pairwise.map _ (fun _ _ hxy => Nat.ne_of_lt hxy) h.sorted

end

/-- **Canonical form.** Two separated lists that cover the same addresses are equal. -/
theorem eq_of_addrs_eq (h : Separated l) (h' : Separated r) (he : addrs l = addrs r) : l = r := by
  have hperm : l ~ r := by
    rw [perm_ext_iff_of_nodup h.nodup_starts.of_map h'.nodup_starts.of_map]
    intro x
    rw [h.mem_iff, h'.mem_iff, he]
  exact hperm.eq_of_pairwise (fun _ _ _ _ hxy hyx => absurd hyx hxy.asymm) h.sorted h'.sorted

end Separated

/-! ## Counting spans -/

/-- The addresses of `F` at which a run begins. -/
def heads (F : Finset Nat) : Finset Nat := F.filter fun a => ∀ b ∈ F, b + 1 ≠ a

theorem mem_heads {F : Finset Nat} : a ∈ heads F ↔ a ∈ F ∧ ∀ b ∈ F, b + 1 ≠ a := mem_filter

/-- What is cut out of a set can only make its own ends into heads. -/
theorem heads_sdiff_subset (F : Finset Nat) (cut : List (Nat × Nat)) :
    heads (F \ addrs cut) ⊆ heads F ∪ (cut.map Prod.snd).toFinset := by
  intro a ha
  obtain ⟨hmem, hfirst⟩ := mem_heads.mp ha
  obtain ⟨hF, hcut⟩ := mem_sdiff.mp hmem
  rw [mem_union]
  by_cases hhead : ∀ b ∈ F, b + 1 ≠ a
  · exact .inl (mem_heads.mpr ⟨hF, hhead⟩)
  -- the address before `a` was in the set, so it is in a span that ends at `a`
  right
  push Not at hhead
  obtain ⟨b, hb, rfl⟩ := hhead
  have hbcut : b ∈ addrs cut := by
    by_contra hno
    exact hfirst b (mem_sdiff.mpr ⟨hb, hno⟩) rfl
  obtain ⟨x, hx, hlo, hhi⟩ := mem_addrs.mp hbcut
  have hend : ¬b + 1 < x.2 := fun hlt => hcut (mem_addrs.mpr ⟨x, hx, by omega, hlt⟩)
  rw [List.mem_toFinset, List.mem_map]
  exact ⟨x, hx, by omega⟩

namespace Separated

theorem heads_eq (h : Separated l) : heads (addrs l) = (l.map Prod.fst).toFinset := by
  ext a
  rw [mem_heads, List.mem_toFinset, List.mem_map]
  constructor
  · rintro ⟨hmem, hfirst⟩
    obtain ⟨x, hx, hlo, hhi⟩ := mem_addrs.mp hmem
    refine ⟨x, hx, by_contra fun hne => ?_⟩
    exact hfirst (a - 1) (mem_addrs.mpr ⟨x, hx, by omega, by omega⟩) (by omega)
  · rintro ⟨x, hx, rfl⟩
    exact ⟨mem_addrs.mpr ⟨x, hx, le_rfl, h.nonempty x hx⟩, fun b hb heq => h.not_mem_addrs hx (.inr heq) hb⟩

theorem length_eq_card_heads (h : Separated l) : l.length = (heads (addrs l)).card := by
  rw [h.heads_eq, toFinset_card_of_nodup h.nodup_starts, length_map]

/-- Each span cut out of a set adds at most one to the spans that describe it. -/
theorem length_le_add {cut : List (Nat × Nat)} (hl : Separated l) (hm : Separated m)
    (heq : addrs m = addrs l \ addrs cut) : m.length ≤ l.length + cut.length := by
  rw [hm.length_eq_card_heads, hl.length_eq_card_heads, heq]
  calc (heads (addrs l \ addrs cut)).card
      ≤ (heads (addrs l) ∪ (cut.map Prod.snd).toFinset).card := card_le_card (heads_sdiff_subset _ _)
    _ ≤ (heads (addrs l)).card + (cut.map Prod.snd).toFinset.card := card_union_le _ _
    _ ≤ (heads (addrs l)).card + cut.length := by
      refine Nat.add_le_add_left ?_ _
      exact (toFinset_card_le _).trans_eq (length_map _)

end Separated

end Kintane.Spans
