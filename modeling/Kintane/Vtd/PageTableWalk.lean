import Kintane.Vtd.PageTableRep

/-!
# Walking the table

`walk` ends at the entry its address has at the level asked for, with the tables on the way made and no
leaf changed; `leaf_of` ends at the one leaf on the address's path; `translate` reads it. One round of
`map` replaces what stands at one block by a leaf, one round of `unmap` replaces one leaf by a hole.
-/

namespace Kintane.Vtd

open Radix Fallible Domain Pte

variable {d : Domain} {m : Machine} {T : Tree Nat Nat} {l t iova k phys : Nat}

/-! ## Down to an entry -/

/-- What making tables leaves as it was. -/
def Grown (d : Domain) (T : Tree Nat Nat) (m' : Machine) (T' : Tree Nat Nat) : Prop :=
  Holds d m' T' ∧ SameLeaves T T'

theorem wp_alloc {Q : Nat → Machine → Prop} {E : Error → Machine → Prop}
    (hnone : ∀ supply, (∀ f, some f ∈ supply → some f ∈ m.supply) →
      (supply.filterMap id).Sublist (m.supply.filterMap id) → E .noFrames { m with supply })
    (hsome : ∀ f supply, m.supply = some f :: supply → Q f { m with supply, given := f :: m.given }) :
    wp alloc Q E m := by
  unfold alloc
  rw [wp_bind, wp_get]
  cases hs : m.supply with
  | nil =>
    have := hnone [] nofun (List.nil_sublist _)
    rw [← hs] at this
    exact this
  | cons o supply =>
    cases o with
    | none =>
      refine hnone supply (fun f hf => hs ▸ List.mem_cons_of_mem _ hf) ?_
      rw [hs]
      exact List.Sublist.refl _
    | some f => exact hsome f supply hs

theorem Holds.supply (h : Holds d m T) {supply : List (Option Nat)} (hmem : ∀ f, some f ∈ supply → some f ∈ m.supply)
    (hsub : (supply.filterMap id).Sublist (m.supply.filterMap id)) : Holds d { m with supply } T where
  levels := h.levels
  wf := h.wf
  entry := h.entry
  given := h.given
  frame := h.frame
  leaf := h.leaf
  honest := ⟨fun hf => h.honest.frame (hmem _ hf), h.honest.once.sublist hsub, fun hf => h.honest.fresh (hmem _ hf)⟩
  inside := h.inside

/-- From a block that is no leaf to the table below it. -/
theorem wp_descend {b : Nat} (h : Holds d m T) (ht : radix.home d.root T (l + 1) b = some t)
    (hleaf : ∀ e, T (l + 1) b ≠ .leaf e) :
    wp (descend (slotOf t b))
      (fun u m' => ∃ T', Grown d T m' T' ∧ T' (l + 1) b = .table u)
      (fun _ m' => ∃ T', Grown d T m' T') m := by
  have hentry := h.entry ht
  unfold descend
  rw [wp_bind, wp_get]
  cases hT : T (l + 1) b with
  | leaf e => exact absurd hT (hleaf e)
  | table u =>
    rw [hT] at hentry
    obtain ⟨hu, hp, -, -⟩ := decode_eq_table hentry
    rw [if_pos hp]
    exact ⟨T, ⟨h, SameLeaves.refl T⟩, hu ▸ hT⟩
  | hole =>
    rw [hT] at hentry
    rw [if_neg (not_not_intro (decode_eq_hole hentry)), wp_bind]
    refine wp_alloc (fun supply hmem hsub => ⟨T, h.supply hmem hsub, SameLeaves.refl T⟩) fun f supply hs => ?_
    have hf : Frame f := h.honest.frame (hs ▸ List.mem_cons_self)
    have hclear := Machine.cleared_zeroFrame { m with supply, given := f :: m.given } hf
    exact ⟨grow T l b f, ⟨h.grow ht hT hs hclear, sameLeaves_grow h.wf ht hT f⟩, link_self⟩

/-- `walk` from a table on the address's path, down to level `l`. -/
theorem wp_walkFrom (hlk : l ≤ k) (h : Holds d m T) (ht : radix.home d.root T k (key iova / radix.size k) = some t)
    (hclear : ∀ j, l < j → j ≤ k → ∀ e, T j (key iova / radix.size j) ≠ .leaf e) :
    wp (walkFrom iova (l + 1) (k + 1) t)
      (fun slot m' => ∃ T' u, Grown d T m' T' ∧ radix.home d.root T' l (key iova / radix.size l) = some u ∧
        slot = slotOf u (key iova / radix.size l))
      (fun _ m' => ∃ T', Grown d T m' T') m := by
  induction k, hlk using Nat.le_induction generalizing m T t with
  | base =>
    rw [walkFrom, if_neg (lt_irrefl _), wp_pure, slot_eq (home_lt ht)]
    exact ⟨T, t, ⟨h, SameLeaves.refl T⟩, ht, rfl⟩
  | succ k hlk ih =>
    rw [walkFrom, if_pos (by omega), slot_eq (home_lt ht)]
    refine wp_seq (wp_descend h ht (hclear (k + 1) (by omega) le_rfl)) fun u m' hmid => ?_
    · obtain ⟨T', ⟨h', hsame⟩, hu⟩ := hmid
      have ht' : radix.home d.root T' k (key iova / radix.size k) = some u :=
        home_below (home_lt ht) (by rw [radix.div_div]; exact hu)
      refine wp_mono (ih h' ht' fun j hj hjk e he => ?_) ?_ ?_
      · exact hclear j hj (by omega) e ((hsame j _ e).mp he)
      · rintro slot m'' ⟨T'', v, ⟨h'', hsame'⟩, hv, hslot⟩
        exact ⟨T'', v, ⟨h'', hsame.trans hsame'⟩, hv, hslot⟩
      · rintro - m'' ⟨T'', h'', hsame'⟩
        exact ⟨T'', h'', hsame.trans hsame'⟩

theorem home_of_key (d : Domain) (T : Tree Nat Nat) (iova : Nat) :
    radix.home d.root T 3 (key iova / radix.size 3) = some d.root := home_root (key_lt iova)

/-- **`walk`** ends at the address's entry, unless it meets a superpage on its way to a 4 KiB leaf. -/
theorem wp_walk (hl : l ≤ 1) (h : Holds d m T) (hclear : l = 0 → ∀ e, T 1 (key iova / radix.size 1) ≠ .leaf e) :
    wp (d.walk iova (l + 1))
      (fun slot m' => ∃ T' u, Grown d T m' T' ∧ radix.home d.root T' l (key iova / radix.size l) = some u ∧
        slot = slotOf u (key iova / radix.size l))
      (fun _ m' => ∃ T', Grown d T m' T') m := by
  rw [walk, h.levels]
  refine wp_walkFrom (by omega) h (home_of_key d T iova) fun j hj _ e he => ?_
  have hj1 := (h.leaf he).1
  have : l = 0 ∧ j = 1 := by omega
  obtain ⟨rfl, rfl⟩ := this
  exact hclear rfl e he

/-! ## To the leaf -/

/-- `leaf_of` from a table on the address's path. -/
theorem leafFrom_eq (h : Holds d m T) (ht : radix.home d.root T k (key iova / radix.size k) = some t) :
    match radix.find T k (key iova) with
    | (l, .leaf e) => ∃ u, radix.home d.root T l (key iova / radix.size l) = some u ∧
        leafFrom m iova (k + 1) t = some (slotOf u (key iova / radix.size l), radix.size l) ∧
        m.mem (slotOf u (key iova / radix.size l)) = e
    | _ => leafFrom m iova (k + 1) t = none := by
  induction k generalizing t with
  | zero =>
    have hentry := h.entry ht
    rw [find, leafFrom]
    simp only [slot_eq (home_lt ht)]
    cases hT : T 0 (key iova / radix.size 0) with
    | table u => exact absurd hT h.wf.flat
    | hole =>
      rw [hT] at hentry
      exact if_pos (decode_eq_hole hentry)
    | leaf e =>
      rw [hT] at hentry
      obtain ⟨he, hp, -⟩ := decode_eq_leaf hentry
      refine ⟨t, ht, ?_, he⟩
      rw [if_neg hp]
      rfl
  | succ k ih =>
    have hentry := h.entry ht
    rw [find, leafFrom]
    simp only [slot_eq (home_lt ht)]
    cases hT : T (k + 1) (key iova / radix.size (k + 1)) with
    | hole =>
      rw [hT] at hentry
      exact if_pos (decode_eq_hole hentry)
    | leaf e =>
      rw [hT] at hentry
      obtain ⟨he, hp, hs⟩ := decode_eq_leaf hentry
      refine ⟨t, ht, ?_, he⟩
      rw [if_neg hp, if_neg (Nat.succ_ne_zero k), if_pos (hs.resolve_left (Nat.succ_ne_zero k)),
        Nat.one_shiftLeft]
      rfl
    | table u =>
      rw [hT] at hentry
      obtain ⟨hu, hp, -, hs⟩ := decode_eq_table hentry
      have ht' : radix.home d.root T k (key iova / radix.size k) = some u :=
        home_below (home_lt ht) (by rw [radix.div_div]; exact hT)
      rw [if_neg hp, if_neg (Nat.succ_ne_zero k), if_neg (not_not_intro hs), ← hu]
      exact ih ht'

theorem leafOf_some {e : Nat} (h : Holds d m T) (hl : radix.lookup T (key iova) = some (l, e)) :
    ∃ u, radix.home d.root T l (key iova / radix.size l) = some u ∧
      d.leafOf m iova = some (slotOf u (key iova / radix.size l), radix.size l) ∧
      m.mem (slotOf u (key iova / radix.size l)) = e := by
  have hspec := leafFrom_eq h (home_of_key d T iova)
  have htop : radix.find T 3 (key iova) = (l, .leaf e) := by
    unfold lookup at hl
    split at hl
    · next hf =>
      cases hl
      exact hf
    · cases hl
  rw [htop] at hspec
  rw [leafOf, h.levels]
  exact hspec

theorem leafOf_none (h : Holds d m T) (hl : radix.lookup T (key iova) = none) : d.leafOf m iova = none := by
  have hspec := leafFrom_eq h (home_of_key d T iova)
  rw [leafOf, h.levels]
  rw [lookup, show radix.top = 3 from rfl] at hl
  split at hspec
  · next hf =>
    rw [hf] at hl
    cases hl
  · exact hspec

/-- Where a key leads, and whether it is writable. -/
def target (T : Tree Nat Nat) (r : Nat) : Option (Nat × Bool) :=
  (radix.lookup T r).map fun x => ((x.2 &&& addrMask) + r % radix.size x.1, decide (x.2 &&& write ≠ 0))

/-- **`translate`** reads the tree. -/
theorem translate_eq (h : Holds d m T) (ha : iova < 2 ^ 48) : d.translate m iova = target T iova := by
  have hkey := key_of_lt ha
  unfold Domain.translate target
  cases hl : radix.lookup T iova with
  | none =>
    rw [leafOf_none h (hkey.symm ▸ hl)]
    rfl
  | some x =>
    obtain ⟨l, e⟩ := x
    obtain ⟨u, -, hleaf, hmem⟩ := leafOf_some h (hkey.symm ▸ hl)
    have hread := (h.leaf ((lookup_eq_some h.wf (hkey ▸ key_lt iova)).mp hl)).2.1
    rw [hleaf]
    simp only
    rw [hmem, if_neg hread]
    have hoff : iova &&& (radix.size l - 1) = iova % radix.size l := Nat.and_two_pow_sub_one_eq_mod _ _
    rw [hoff]
    rfl

/-! ## Leaves -/

def leafEntry (phys l : Nat) (perm : Perm) : Nat :=
  if l = 0 then (phys &&& addrMask) ||| perm.bits else (phys &&& addrMask) ||| perm.bits ||| superpage

theorem leafEntry_spec (phys l : Nat) (perm : Perm) :
    decode (leafEntry phys l perm) l = .leaf (leafEntry phys l perm) ∧
      leafEntry phys l perm &&& read ≠ 0 ∧ leafEntry phys l perm &&& addrMask = phys &&& addrMask ∧
      (leafEntry phys l perm &&& write ≠ 0 ↔ perm = .readWrite) := by
  have hf := frame_and_addrMask phys
  have hsplit : ∃ low < pageSize, leafEntry phys l perm = (phys &&& addrMask) ||| low ∧
      low &&& (read ||| write) ≠ 0 ∧ low &&& read ≠ 0 ∧
      (l ≠ 0 → low &&& superpage ≠ 0) ∧ (low &&& write ≠ 0 ↔ perm = .readWrite) := by
    unfold leafEntry
    split
    · next h0 =>
      refine ⟨perm.bits, ?_, rfl, ?_, ?_, fun h => absurd h0 h, ?_⟩ <;> cases perm <;> decide
    · refine ⟨perm.bits ||| superpage, ?_, Nat.or_assoc .., ?_, ?_, fun _ => ?_, ?_⟩ <;> cases perm <;> decide
  obtain ⟨low, hlow, he, hp, hr, hs, hw⟩ := hsplit
  rw [he]
  refine ⟨?_, ?_, or_and_addrMask hf hlow, ?_⟩
  · unfold decode
    rw [or_and_low hf (by decide), if_neg hp]
    by_cases h0 : l = 0
    · rw [if_pos h0]
    · rw [if_neg h0, or_and_low hf (by decide), if_pos (hs h0)]
  · rw [or_and_low hf (by decide)]
    exact hr
  · rw [or_and_low hf (by decide)]
    exact hw

/-- An aligned address keeps its alignment under the mask. -/
theorem and_addrMask_aligned (hl : l ≤ 1) (h : phys % radix.size l = 0) : (phys &&& addrMask) % radix.size l = 0 := by
  rw [and_addrMask]
  have h01 : l = 0 ∨ l = 1 := by omega
  rcases h01 with rfl | rfl
  · show _ % 2 ^ 12 = 0
    omega
  · have : phys % 2 ^ 21 = 0 := h
    show _ % 2 ^ 21 = 0
    omega

/-- **A leaf is mapped**: the address's block leads to the new target, every other key where it did. -/
theorem wp_mapLeaf (iova : Nat) (perm : Perm) (hl : l ≤ 1) (h : Holds d m T)
    (hphys : phys % radix.size l = 0) (hclear : l = 0 → ∀ e, T 1 (key iova / radix.size 1) ≠ .leaf e) :
    wp (do let slot ← d.walk iova (l + 1); modify (·.write64 slot (leafEntry phys l perm)))
      (fun _ m' => ∃ T', Holds d m' T' ∧
        (∀ b e, T' 1 b = .leaf e →
          T 1 b = .leaf e ∨ (l = 1 ∧ b = key iova / radix.size 1 ∧ e = leafEntry phys l perm)) ∧
        ∀ r < radix.span, radix.lookup T' r =
          if r / radix.size l = key iova / radix.size l then some (l, leafEntry phys l perm) else radix.lookup T r)
      (fun _ m' => ∃ T', Grown d T m' T') m := by
  refine wp_seq (wp_walk hl h hclear) fun slot m' hmid => ?_
  obtain ⟨T', u, ⟨h', hsame⟩, hu, rfl⟩ := hmid
  obtain ⟨hdec, hread, haddr, -⟩ := leafEntry_spec phys l perm
  have hnew : ∀ u, (.leaf (leafEntry phys l perm) : Node Nat Nat) ≠ .table u := fun _ => nofun
  refine ⟨_, h'.put hu hdec hnew ?_, ?_, fun r hr => ?_⟩
  · rintro e ⟨⟩
    exact ⟨hl, hread, haddr ▸ and_addrMask_aligned hl hphys⟩
  · intro b e he
    rcases put_eq_leaf he with ⟨⟨rfl, rfl⟩, hn⟩ | ⟨-, he⟩
    · cases hn
      exact .inr ⟨rfl, rfl, rfl⟩
    · exact .inl ((hsame 1 b e).mp he)
  · rw [lookup_put h'.wf hr hu hnew]
    split
    · rfl
    · exact lookup_congr h.wf h'.wf hr fun k a => hsame k _ a

/-- **A leaf is unmapped**: its block leads nowhere. -/
theorem Holds.unmapLeaf {u : Nat} (h : Holds d m T) (hu : radix.home d.root T l (key iova / radix.size l) = some u) :
    ∃ T', Holds d (m.write64 (slotOf u (key iova / radix.size l)) 0) T' ∧
      (∀ b e, T' 1 b = .leaf e → T 1 b = .leaf e ∧ ¬(l = 1 ∧ b = key iova / radix.size 1)) ∧
      ∀ r < radix.span, radix.lookup T' r =
        if r / radix.size l = key iova / radix.size l then none else radix.lookup T r := by
  have hnew : ∀ u, (.hole : Node Nat Nat) ≠ .table u := fun _ => nofun
  refine ⟨_, h.put hu (decode_hole (Nat.zero_and _)) hnew nofun, fun b e' he => ?_, fun r hr => ?_⟩
  · rcases put_eq_leaf he with ⟨-, he⟩ | ⟨hself, he⟩
    · cases he
    · refine ⟨he, ?_⟩
      rintro ⟨rfl, rfl⟩
      exact hself ⟨rfl, rfl⟩
  · rw [lookup_put h.wf hr hu hnew]

end Kintane.Vtd
