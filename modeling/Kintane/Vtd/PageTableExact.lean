import Kintane.Vtd.PageTableWalk

/-!
# Mapping is exact

Over ranges below 2^48, a call of `map` or `unmap` that leaves every 2 MiB leaf it meets whole changes
where its range leads and nothing else. A run of such calls is the function the calls describe, applied
one after the other. Two things break this, and both are in `Fits`: the tables have 48 bits of address and
neither call looks at the others, and a 2 MiB leaf can neither be mapped over nor unmapped in part.
-/

namespace Kintane.Vtd

open Radix Fallible Domain

variable {d : Domain} {m : Machine} {T T' : Tree Nat Nat} {iova phys stop rounds l r : Nat} {perm : Perm}

theorem size_zero : radix.size 0 = 4096 := rfl

theorem size_one : radix.size 1 = 2097152 := rfl

theorem superpageSize_eq : superpageSize = 2097152 := rfl

theorem takesSuperpage_iff : takesSuperpage iova phys stop = true ↔
    iova % 2097152 = 0 ∧ phys % 2097152 = 0 ∧ 2097152 ≤ stop - iova := by
  exact decide_eq_true_iff

/-- The level of the next leaf of a mapping. -/
def leafLevel (iova phys stop : Nat) : Nat := if takesSuperpage iova phys stop then 1 else 0

theorem leafLevel_le (iova phys stop : Nat) : leafLevel iova phys stop ≤ 1 := by
  unfold leafLevel
  split <;> omega

/-- The leaf's block starts at both addresses and ends in the range. -/
theorem leafLevel_spec (hlt : iova < stop) (hpage : iova % 4096 = 0) (hstop : stop % 4096 = 0) (hphys : phys % 4096 = 0) :
    iova % radix.size (leafLevel iova phys stop) = 0 ∧ phys % radix.size (leafLevel iova phys stop) = 0 ∧
      iova + radix.size (leafLevel iova phys stop) ≤ stop := by
  unfold leafLevel
  split
  · next h =>
    obtain ⟨hi, hp, hroom⟩ := takesSuperpage_iff.mp h
    exact ⟨hi, hp, by rw [size_one]; omega⟩
  · exact ⟨hpage, hphys, by rw [size_zero]; omega⟩

/-- A round of `map` writes one leaf. -/
theorem mapFrom_succ (hlt : iova < stop) :
    d.mapFrom stop perm (rounds + 1) iova phys = (do
    let slot ← d.walk iova (leafLevel iova phys stop + 1)
    modify (·.write64 slot (leafEntry phys (leafLevel iova phys stop) perm))
    d.mapFrom stop perm rounds (iova + radix.size (leafLevel iova phys stop))
      ((phys + radix.size (leafLevel iova phys stop)) % 2 ^ 64)) := by
  rw [mapFrom, if_pos hlt]
  unfold leafLevel
  split <;> rfl

/-- Each 2 MiB leaf that meets the range is in it, and the new targets are 2 MiB-aligned where it is. -/
def WholeLeaves (T : Tree Nat Nat) (iova phys stop : Nat) : Prop :=
  iova < stop → ∀ b e, T 1 b = .leaf e → b * superpageSize < stop → iova < (b + 1) * superpageSize →
    iova ≤ b * superpageSize ∧ (b + 1) * superpageSize ≤ stop ∧ phys % superpageSize = iova % superpageSize

theorem target_mapped (hphys : Frame phys) (hlook : radix.lookup T' r =
      if r / radix.size l = iova / radix.size l then some (l, leafEntry phys l perm) else radix.lookup T r) :
    target T' r = if r / radix.size l = iova / radix.size l then
      some (phys + r % radix.size l, decide (perm = .readWrite)) else target T r := by
  obtain ⟨-, -, haddr, hwrite⟩ := leafEntry_spec phys l perm
  unfold target
  rw [hlook]
  split
  · simp only [Option.map_some, haddr, hphys.and_addrMask, hwrite]
  · rfl

/-- What the first block and the rest of a range make of a key together. -/
theorem first_then_rest {s : Nat} {v w y x : Option (Nat × Bool)} (hs : 0 < s) (hin : iova + s ≤ stop) (hi : iova % s = 0)
    (hv : iova + s ≤ r → v = y) (hw : r % s = r - iova → w = y) :
    (if iova + s ≤ r ∧ r < stop then v else if r / s = iova / s then w else x) =
    if iova ≤ r ∧ r < stop then y else x := by
  have hblock : r / s = iova / s ↔ iova ≤ r ∧ r < iova + s := by
    rw [Nat.div_eq_iff hs, Nat.div_mul_cancel (Nat.dvd_of_mod_eq_zero hi)]
    omega
  by_cases hrest : iova + s ≤ r ∧ r < stop
  · rw [if_pos hrest, if_pos (by omega), hv hrest.1]
  · rw [if_neg hrest]
    by_cases hfirst : r / s = iova / s
    · have := Nat.div_add_mod r s
      rw [hfirst, Nat.mul_div_cancel' (Nat.dvd_of_mod_eq_zero hi)] at this
      rw [if_pos hfirst, if_pos (by have := hblock.mp hfirst; omega), hw (by omega)]
    · rw [if_neg hfirst, if_neg (fun hr => hfirst (hblock.mpr (by omega)))]

/-- **`map`'s loop** leads its range to the targets, and the rest where it did. -/
theorem wp_mapFrom (h : Holds d m T) (hpage : iova % 4096 = 0) (hstop : stop % 4096 = 0) (hle : iova ≤ stop)
    (hbound : stop ≤ 2 ^ 48) (hphys : phys % 4096 = 0) (hend : phys + (stop - iova) ≤ 2 ^ 52)
    (hrounds : stop - iova ≤ rounds * 4096) (hwhole : WholeLeaves T iova phys stop) :
    wp (d.mapFrom stop perm rounds iova phys)
      (fun _ m' => ∃ T', Holds d m' T' ∧ ∀ r < 2 ^ 48, target T' r =
        if iova ≤ r ∧ r < stop then some (phys + (r - iova), decide (perm = .readWrite)) else target T r)
      (fun _ _ => True) m := by
  induction rounds generalizing m T iova phys with
  | zero =>
    exact ⟨T, h, fun r _ => (if_neg (by omega)).symm⟩
  | succ rounds ih =>
    by_cases hlt : iova < stop
    · have hkey : key iova = iova := key_of_lt (by omega)
      obtain ⟨hi, hp, hin⟩ := leafLevel_spec hlt hpage hstop hphys
      -- were the block of a 4 KiB leaf a 2 MiB leaf, that leaf would start here and be replaced whole
      have hno : leafLevel iova phys stop = 0 → ∀ e, T 1 (iova / 2097152) ≠ .leaf e := by
        intro h0 e he
        have hsuper : ¬takesSuperpage iova phys stop = true := fun hs => by simp [leafLevel, hs] at h0
        rw [takesSuperpage_iff] at hsuper
        have := hwhole hlt _ e he
        rw [superpageSize_eq] at this
        omega
      have h01 : radix.size (leafLevel iova phys stop) = 4096 ∧ leafLevel iova phys stop = 0 ∨
          radix.size (leafLevel iova phys stop) = 2097152 ∧ leafLevel iova phys stop = 1 := by
        unfold leafLevel
        split
        · exact .inr ⟨rfl, rfl⟩
        · exact .inl ⟨rfl, rfl⟩
      rw [mapFrom_succ hlt]
      have hleaf := wp_mapLeaf iova perm (leafLevel_le iova phys stop) h hp (hkey.symm ▸ hno)
      rw [Nat.mod_eq_of_lt (by omega)]
      generalize leafLevel iova phys stop = l at *
      refine wp_seq_assoc (wp_mono hleaf (fun _ _ => id) fun _ _ _ => trivial) fun _ m' hmid => ?_
      obtain ⟨T', h', hone, hlook⟩ := hmid
      rw [hkey] at hone hlook
      have hwhole' : WholeLeaves T' (iova + radix.size l) (phys + radix.size l) stop := by
        intro _ b e he hlow hhigh
        have hfull := hwhole hlt b e
        rw [superpageSize_eq] at *
        rcases hone b e he with he | ⟨rfl, hb, -⟩
        · have hne : l = 0 → b ≠ iova / 2097152 := fun h0 hb => hno h0 e (hb ▸ he)
          have := hfull he hlow (by omega)
          rcases h01 with ⟨hsize, h0⟩ | ⟨hsize, -⟩ <;> rw [hsize] at hi hp hhigh ⊢
          · omega
          · omega
        · rw [size_one] at *
          omega
      refine wp_mono (ih h' (by omega) (by omega) (by omega) (by omega) (by omega) hwhole') ?_ fun _ _ => id
      rintro - m'' ⟨T'', h'', hrest⟩
      refine ⟨T'', h'', fun r hr => ?_⟩
      rw [hrest r hr, target_mapped ⟨hphys, by omega⟩ (hlook r hr)]
      refine first_then_rest (radix.size_pos l) hin hi (fun hr => ?_) fun hr => by rw [hr]
      rw [show phys + radix.size l + (r - (iova + radix.size l)) = phys + (r - iova) by omega]
    · rw [mapFrom, if_neg hlt, wp_pure]
      exact ⟨T, h, fun r _ => (if_neg (by omega)).symm⟩

/-! ## Unmapping -/

/-- Each 2 MiB leaf that meets the range is in it. -/
def WholeUnmapped (T : Tree Nat Nat) (iova stop : Nat) : Prop :=
  iova < stop → ∀ b e, T 1 b = .leaf e → b * superpageSize < stop → iova < (b + 1) * superpageSize →
    iova ≤ b * superpageSize ∧ (b + 1) * superpageSize ≤ stop

/-- A page without a leaf leads nowhere. -/
theorem target_none (h : Holds d m T) (hi : iova < 2 ^ 48) (hr : r < 2 ^ 48)
    (hnone : radix.lookup T iova = none) (hpage : r / radix.size 0 = iova / radix.size 0) : target T r = none := by
  have hlook : radix.lookup T r = none := by
    refine lookup_eq_none h.wf hr fun l e he => ?_
    rw [radix.div_eq_of_le (Nat.zero_le l) hpage] at he
    rw [(lookup_eq_some h.wf hi).mpr he] at hnone
    cases hnone
  rw [target, hlook]
  rfl

theorem target_unmapped
    (hlook : radix.lookup T' r = if r / radix.size l = iova / radix.size l then none else radix.lookup T r) :
    target T' r = if r / radix.size l = iova / radix.size l then none else target T r := by
  unfold target
  rw [hlook]
  split <;> rfl

/-- **`unmap`'s loop** leads its range nowhere, and the rest where it did. -/
theorem wp_unmapFrom (h : Holds d m T) (hpage : iova % 4096 = 0) (hstop : stop % 4096 = 0) (hle : iova ≤ stop)
    (hbound : stop ≤ 2 ^ 48) (hrounds : stop - iova ≤ rounds * 4096) (hwhole : WholeUnmapped T iova stop) :
    wp (d.unmapFrom stop rounds iova)
      (fun _ m' => ∃ T', Holds d m' T' ∧ ∀ r < 2 ^ 48, target T' r =
        if iova ≤ r ∧ r < stop then none else target T r)
      (fun _ _ => True) m := by
  induction rounds generalizing m T iova with
  | zero =>
    exact ⟨T, h, fun r _ => (if_neg (by omega)).symm⟩
  | succ rounds ih =>
    rw [unmapFrom]
    by_cases hlt : iova < stop
    · rw [if_pos hlt, wp_bind, wp_get]
      have hi : iova < 2 ^ 48 := by omega
      have hkey : key iova = iova := key_of_lt hi
      rw [show pageSize = 4096 from rfl, superpageSize_eq, Nat.mod_eq_of_lt (show iova + 4096 < 2 ^ 64 by omega),
        Nat.mod_eq_of_lt (show iova + 2097152 < 2 ^ 64 by omega)]
      have hno : ∀ e, T 1 (iova / 2097152) = .leaf e → iova % 2097152 = 0 ∧ iova + 2097152 ≤ stop := by
        intro e he
        have := hwhole hlt _ e he
        rw [superpageSize_eq] at this
        omega
      -- the rest of the range, after a round that took `s` bytes
      have hnext : ∀ {s : Nat} {m1 : Machine} {T1 : Tree Nat Nat}, s = 4096 ∨ s = 2097152 → iova % s = 0 →
          iova + s ≤ stop → Holds d m1 T1 → (∀ b e, T1 1 b = .leaf e → T 1 b = .leaf e ∧ b ≠ iova / 2097152) →
          (∀ r < 2 ^ 48, target T1 r = if r / s = iova / s then none else target T r) →
          wp (d.unmapFrom stop rounds (iova + s)) (fun _ m' => ∃ T', Holds d m' T' ∧ ∀ r < 2 ^ 48, target T' r =
            if iova ≤ r ∧ r < stop then none else target T r) (fun _ _ => True) m1 := by
        intro s m1 T1 hs hmod hin h1 hone htarget
        have hwhole' : WholeUnmapped T1 (iova + s) stop := by
          intro _ b e he hlow hhigh
          obtain ⟨he, hne⟩ := hone b e he
          have := hwhole hlt b e he hlow
          rw [superpageSize_eq] at *
          rcases hs with rfl | rfl <;> omega
        refine wp_mono (ih h1 (by omega) hin (by omega) hwhole') ?_ fun _ _ => id
        rintro - m'' ⟨T'', h'', hrest⟩
        refine ⟨T'', h'', fun r hr => ?_⟩
        rw [hrest r hr, htarget r hr]
        exact first_then_rest (by omega) hin hmod (fun _ => rfl) fun _ => rfl
      cases hl : radix.lookup T iova with
      | none =>
        rw [leafOf_none h (hkey.symm ▸ hl)]
        refine hnext (.inl rfl) hpage (by omega) h (fun b e he => ⟨he, fun hb => ?_⟩) fun r hr => ?_
        · have := (lookup_eq_some h.wf (l := 1) (a := e) hi).mpr (by rw [size_one, ← hb]; exact he)
          cases hl.symm.trans this
        · split
          · next hr' => exact target_none h hi hr hl hr'
          · rfl
      | some x =>
        obtain ⟨l, e⟩ := x
        have hT := (lookup_eq_some h.wf hi).mp hl
        obtain ⟨u, hu, hleaf, -⟩ := leafOf_some h (hkey.symm ▸ hl)
        obtain ⟨T1, h1, hone, hlook⟩ := h.unmapLeaf hu
        rw [hkey] at hone hlook hleaf h1
        rw [hleaf]
        rw [wp_bind, wp_modify]
        have h01 : l = 0 ∨ l = 1 := by have := (h.leaf hT).1; omega
        rcases h01 with rfl | rfl
        · -- a 4 KiB leaf: there is no 2 MiB leaf above it
          refine hnext (.inl rfl) hpage (by omega) h1 (fun b e' he' => ⟨(hone b e' he').1, fun hb => ?_⟩)
            fun r hr => target_unmapped (hlook r hr)
          have := (lookup_eq_some h.wf (l := 1) (a := e') hi).mpr (by rw [size_one, ← hb]; exact (hone b e' he').1)
          cases hl.symm.trans this
        · obtain ⟨hmod, hin⟩ := hno e hT
          rw [size_one, if_pos ⟨rfl, hmod⟩]
          refine hnext (.inr rfl) hmod hin h1 (fun b e' he' => ⟨(hone b e' he').1, fun hb => ?_⟩)
            fun r hr => target_unmapped (hlook r hr)
          exact (hone b e' he').2 ⟨rfl, hb⟩
    · rw [if_neg hlt, wp_pure]
      exact ⟨T, h, fun r _ => (if_neg (by omega)).symm⟩

end Kintane.Vtd
