import Kintane.Lib.Radix
import Kintane.Vtd.PageTable

/-!
# The table as a tree

`Holds d m T` says that the machine's memory, read from the domain's root, is the radix tree `T`: every
entry of every table decodes to what the tree has there, and the tables are frames the source has given.
An entry of level 2 may be a leaf or a table, and `leaf_of` and the hardware tell them apart by one bit;
`walk` does not look at that bit, so what is said of it here asks that it meets no leaf on its way.
-/

open List

namespace Kintane.Vtd

open Radix Fallible Pte

/-! ## Bits -/

theorem and_addrMask (x : Nat) : x &&& addrMask = x % 2 ^ 52 / 2 ^ 12 * 2 ^ 12 := by
  apply Nat.eq_of_testBit_eq
  intro i
  have hmask : addrMask = (2 ^ 40 - 1) * 2 ^ 12 := by decide
  rw [Nat.testBit_and, hmask, Nat.testBit_mul_two_pow, Nat.testBit_mul_two_pow, Nat.testBit_two_pow_sub_one,
    Nat.testBit_div_two_pow, Nat.testBit_mod_two_pow]
  by_cases h12 : 12 ≤ i
  · by_cases h52 : i < 52
    · simp [h12, h52, show i - 12 < 40 by omega]
    · simp [h12, h52, show ¬ i - 12 < 40 by omega]
  · simp [h12]

/-- A physical address an entry can hold. -/
structure Frame (f : Nat) : Prop where
  aligned : f % pageSize = 0
  lt : f < 2 ^ 52

variable {f low p k iova entry t b l : Nat}

theorem Frame.and_addrMask (h : Frame f) : f &&& addrMask = f := by
  rw [Vtd.and_addrMask, Nat.mod_eq_of_lt h.lt]
  have := h.aligned
  unfold pageSize at this
  omega

theorem frame_and_addrMask (x : Nat) : Frame (x &&& addrMask) := by
  rw [and_addrMask]
  refine ⟨?_, ?_⟩
  · unfold pageSize
    omega
  · omega

/-- The low bits of an entry do not reach its address. -/
theorem or_and_addrMask (h : Frame p) (hlow : low < pageSize) : (p ||| low) &&& addrMask = p := by
  have hp : p = 2 ^ 12 * (p / 2 ^ 12) := by
    have := h.aligned
    unfold pageSize at this
    omega
  rw [hp, ← Nat.two_pow_add_eq_or_of_lt hlow, Vtd.and_addrMask]
  have := h.lt
  have : low < 2 ^ 12 := hlow
  omega

/-- And the address does not reach the low bits. -/
theorem or_and_low (h : Frame p) (hk : k < pageSize) : (p ||| low) &&& k = low &&& k := by
  rw [Nat.and_or_distrib_right]
  have hzero : p &&& k = 0 := by
    apply Nat.eq_of_testBit_eq
    intro i
    rw [Nat.testBit_and, Nat.zero_testBit]
    by_cases hi : i < 12
    · have hp : p = p / 2 ^ 12 * 2 ^ 12 := by
        have := h.aligned
        unfold pageSize at this
        omega
      rw [hp, Nat.testBit_mul_two_pow]
      simp [show ¬ 12 ≤ i by omega]
    · have hlt : k < 2 ^ i :=
        hk.trans_le (Nat.pow_le_pow_right (by decide : 0 < 2) (by omega : 12 ≤ i))
      rw [Nat.testBit_lt_two_pow hlt, Bool.and_false]
  rw [hzero, Nat.zero_or]

/-! ## The tree's geometry -/

/-- Four levels of 512 entries over 4 KiB pages. Level `0` is the source's level 1. -/
def radix : Radix where
  levels := levels48
  size l := 2 ^ (pageShift + 9 * l)
  entries _ := 512
  levels_pos := by decide
  size_pos _ := Nat.two_pow_pos _
  entries_pos _ := by decide
  size_succ l := by
    rw [Nat.mul_succ, ← Nat.add_assoc, Nat.pow_add]

/-- The address as the tables see it. -/
def key (iova : Nat) : Nat := iova % radix.span

theorem key_lt (iova : Nat) : key iova < radix.span := Nat.mod_lt _ (radix.size_pos _)

theorem key_of_lt (h : iova < 2 ^ 48) : key iova = iova := Nat.mod_eq_of_lt h

/-- The index of an address is its block's place in the table. -/
theorem index_eq (hl : l < levels48) : index iova (l + 1) = key iova / radix.size l % 512 := by
  unfold index
  rw [Nat.shiftRight_eq_div_pow, Nat.add_sub_cancel, show (0x1ff : Nat) = 2 ^ 9 - 1 from rfl,
    Nat.and_two_pow_sub_one_eq_mod]
  unfold key
  have hsplit : radix.span = radix.size l * 2 ^ (9 * (4 - l)) := by
    show 2 ^ 48 = 2 ^ (12 + 9 * l) * _
    rw [← pow_add]
    congr 1
    have : l < 4 := hl
    omega
  have hdvd : 2 ^ 9 ∣ 2 ^ (9 * (4 - l)) := by
    refine Nat.pow_dvd_pow 2 ?_
    have : l < 4 := hl
    omega
  rw [hsplit, Nat.mod_mul_right_div_self, show (512 : Nat) = 2 ^ 9 from rfl, Nat.mod_mod_of_dvd _ hdvd]
  rfl

/-! ## The invariant -/

/-- What an entry at a level says. -/
def decode (entry l : Nat) : Node Nat Nat :=
  if entry &&& (read ||| write) = 0 then .hole
  else if l = 0 then .leaf entry
  else if entry &&& superpage ≠ 0 then .leaf entry
  else .table (entry &&& addrMask)

/-- Where a block's entry is. -/
def slotOf (t b : Nat) : Nat := t + b % 512 * 8

def pageOf (a : Nat) : Nat := a / pageSize * pageSize

/-- What the frame source promises: frames of the machine, each given once. -/
structure Machine.Honest (m : Machine) : Prop where
  frame : ∀ {f}, some f ∈ m.supply → Frame f
  once : (m.supply.filterMap id).Nodup
  fresh : ∀ {f}, some f ∈ m.supply → f ∉ m.given

/-- Memory, read from the root, is the tree. -/
structure Holds (d : Domain) (m : Machine) (T : Tree Nat Nat) : Prop where
  levels : d.levels = levels48
  wf : radix.Wf d.root T
  entry : ∀ {l b t}, radix.home d.root T l b = some t → decode (m.mem (slotOf t b)) l = T l b
  given : ∀ {l b t}, radix.home d.root T l b = some t → t ∈ m.given
  frame : ∀ {f}, f ∈ m.given → Frame f
  /-- Leaves stand at the two lower levels, are readable, and are aligned. -/
  leaf : ∀ {l b e}, T l b = .leaf e →
    l ≤ 1 ∧ e &&& read ≠ 0 ∧ (e &&& addrMask) % radix.size l = 0
  honest : m.Honest
  /-- Whatever was written is in a table. -/
  inside : ∀ {a}, a ∈ m.writes → pageOf a ∈ m.given

theorem decode_hole (h : entry &&& (read ||| write) = 0) : decode entry l = .hole :=
  if_pos h

theorem decode_eq_hole (h : decode entry l = .hole) : entry &&& (read ||| write) = 0 := by
  unfold decode at h
  by_contra hne
  rw [if_neg hne] at h
  split at h
  · cases h
  · split at h <;> cases h

theorem decode_eq_leaf {e : Nat} (h : decode entry l = .leaf e) :
    entry = e ∧ entry &&& (read ||| write) ≠ 0 ∧ (l = 0 ∨ entry &&& superpage ≠ 0) := by
  unfold decode at h
  split at h
  · cases h
  rename_i hp
  split at h
  · next hl =>
    cases h
    exact ⟨rfl, hp, .inl hl⟩
  · split at h
    · next hs =>
      cases h
      exact ⟨rfl, hp, .inr hs⟩
    · cases h

theorem decode_eq_table {t : Nat} (h : decode entry l = .table t) :
    t = entry &&& addrMask ∧ entry &&& (read ||| write) ≠ 0 ∧ l ≠ 0 ∧ entry &&& superpage = 0 := by
  unfold decode at h
  split at h
  · cases h
  rename_i hp
  split at h
  · cases h
  rename_i hl
  split at h
  · cases h
  · next hs =>
    cases h
    exact ⟨rfl, hp, hl, not_not.mp hs⟩

/-! ## Slots -/

section Slots

variable {u c : Nat}

theorem pageOf_slot (h : Frame t) (hk : k < pageSize) : pageOf (t + k) = t := by
  have := h.aligned
  unfold pageOf pageSize at *
  omega

theorem pageOf_slotOf (h : Frame t) (b : Nat) : pageOf (slotOf t b) = t := by
  refine pageOf_slot h ?_
  unfold pageSize
  omega

theorem slotOf_inj (ht : Frame t) (hu : Frame u) (h : slotOf t b = slotOf u c) : t = u ∧ b % 512 = c % 512 := by
  have htu : t = u := by rw [← pageOf_slotOf ht b, h, pageOf_slotOf hu c]
  unfold slotOf at h
  omega

/-- Where the entry of an address is. -/
theorem slot_eq (hl : l < levels48) : t + index iova (l + 1) * 8 = slotOf t (key iova / radix.size l) := by
  rw [index_eq hl]
  rfl

theorem slotOf_mod (t b : Nat) : slotOf t (b % 512) = slotOf t b := by
  unfold slotOf
  rw [Nat.mod_mod]

end Slots

/-! ## Memory -/

namespace Machine

variable (m : Machine)

@[simp] theorem given_write64 (a v : Nat) : (m.write64 a v).given = m.given := rfl

structure Cleared (m m' : Machine) (f : Nat) : Prop where
  given : m'.given = m.given
  supply : m'.supply = m.supply
  zero : ∀ {b}, b < 512 → m'.mem (slotOf f b) = 0
  other : ∀ {a}, pageOf a ≠ f → m'.mem a = m.mem a
  writes : ∀ {a}, a ∈ m'.writes → a ∈ m.writes ∨ pageOf a = f

theorem cleared_zeroFrame (hf : Frame f) : Cleared m (m.zeroFrame f) f := by
  have hrun : ∀ n ≤ 512, ∀ m' : Machine, m' = (List.range n).foldl (fun m i => m.write64 (f + i * 8) 0) m →
      m'.given = m.given ∧ m'.supply = m.supply ∧ (∀ i < n, m'.mem (f + i * 8) = 0) ∧
        (∀ a, pageOf a ≠ f → m'.mem a = m.mem a) ∧ ∀ a ∈ m'.writes, a ∈ m.writes ∨ pageOf a = f := by
    intro n
    induction n with
    | zero =>
      intro _ m' hm'
      subst hm'
      exact ⟨rfl, rfl, fun i hi => absurd hi (Nat.not_lt_zero i), fun _ _ => rfl, fun _ => .inl⟩
    | succ n ih =>
      intro hn m' hm'
      rw [range_succ, foldl_append, foldl_cons, foldl_nil] at hm'
      obtain ⟨hg, hs, hz, ho, hw⟩ := ih (by omega) _ rfl
      have hpage : pageOf (f + n * 8) = f := pageOf_slot hf (by unfold pageSize; omega)
      subst hm'
      refine ⟨hg, hs, fun i hi => ?_, fun a ha => ?_, fun a ha => ?_⟩
      · show (if f + i * 8 = f + n * 8 then 0 else _) = 0
        by_cases hin : i = n
        · rw [if_pos (by rw [hin])]
        · rw [if_neg (by omega)]
          exact hz i (by omega)
      · show (if a = f + n * 8 then 0 else _) = _
        rw [if_neg (fun he => ha (by rw [he, hpage]))]
        exact ho a ha
      · rcases mem_cons.mp ha with rfl | ha
        · exact .inr hpage
        · exact hw a ha
  have hn : pageSize / 8 = 512 := by unfold pageSize; omega
  obtain ⟨hg, hs, hz, ho, hw⟩ := hrun (pageSize / 8) hn.le (m.zeroFrame f) (by rw [zeroFrame])
  refine ⟨hg, hs, fun {b} hb => ?_, fun {a} => ho a, fun {a} => hw a⟩
  rw [slotOf, Nat.mod_eq_of_lt hb]
  exact hz b (by omega)

end Machine

/-! ## Edits -/

section Edits

variable {d : Domain} {m : Machine} {T : Tree Nat Nat} {l v : Nat} {supply : List (Option Nat)}

section

variable (h : Holds d m T)

include h

theorem Holds.tableFrame (ht : radix.home d.root T l b = some t) : Frame t := h.frame (h.given ht)

/-- Writing a block's entry leaves every other block's alone. -/
theorem Holds.write64_entry {l' b' t' : Nat} (ht : radix.home d.root T l b = some t)
    (ht' : radix.home d.root T l' b' = some t') :
    (m.write64 (slotOf t b) v).mem (slotOf t' b') = if l' = l ∧ b' = b then v else m.mem (slotOf t' b') := by
  show (if slotOf t' b' = slotOf t b then v else _) = _
  by_cases he : l' = l ∧ b' = b
  · obtain ⟨rfl, rfl⟩ := he
    cases ht'.symm.trans ht
    rw [if_pos rfl, if_pos ⟨rfl, rfl⟩]
  · rw [if_neg he]
    refine if_neg fun hslot => he ?_
    obtain ⟨rfl, hmod⟩ := slotOf_inj (h.tableFrame ht') (h.tableFrame ht) hslot
    obtain ⟨rfl, hdiv⟩ := h.wf.inj ht' ht
    refine ⟨rfl, ?_⟩
    have hdiv : b' / 512 = b / 512 := hdiv
    omega

theorem Holds.inside_write64 (ht : radix.home d.root T l b = some t) {a : Nat}
    (ha : a ∈ (m.write64 (slotOf t b) v).writes) : pageOf a ∈ m.given := by
  rcases mem_cons.mp ha with rfl | ha
  · rw [pageOf_slotOf (h.tableFrame ht)]
    exact h.given ht
  · exact h.inside ha

/-- **A leaf or a hole is written**, over whatever was there. -/
theorem Holds.put (ht : radix.home d.root T l b = some t) {n : Node Nat Nat}
    (hv : decode v l = n) (hnew : ∀ u, n ≠ .table u)
    (hleaf : ∀ e, n = .leaf e → l ≤ 1 ∧ e &&& read ≠ 0 ∧ (e &&& addrMask) % radix.size l = 0) :
    Holds d (m.write64 (slotOf t b) v) (radix.put T l b n) := by
  have hhome : ∀ {l' b' t'}, radix.home d.root (radix.put T l b n) l' b' = some t' →
      ¬ radix.Within l b l' b' ∧ radix.home d.root T l' b' = some t' := by
    intro l' b' t' ht'
    rw [home_put _ (home_lt ht) hnew] at ht'
    by_cases hw : radix.Within l b l' b'
    · rw [if_pos hw] at ht'
      cases ht'
    · rw [if_neg hw] at ht'
      exact ⟨hw, ht'⟩
  constructor
  case levels => exact h.levels
  case wf => exact h.wf.put ht hnew
  case entry =>
    intro l' b' t' ht'
    obtain ⟨hw, ht'⟩ := hhome ht'
    rw [h.write64_entry ht ht']
    by_cases he : l' = l ∧ b' = b
    · obtain ⟨rfl, rfl⟩ := he
      rw [if_pos ⟨rfl, rfl⟩, put_self, hv]
    · rw [if_neg he, put_of_ne he hw]
      exact h.entry ht'
  case given => exact fun ht' => h.given (hhome ht').2
  case frame => exact h.frame
  case leaf =>
    intro l' b' e hl
    rcases put_eq_leaf hl with ⟨⟨rfl, rfl⟩, hn⟩ | ⟨-, hl⟩
    · exact hleaf e hn
    · exact h.leaf hl
  case honest => exact { h.honest with }
  case inside => exact h.inside_write64 ht

end

/-- A tree with the same leaves. -/
def SameLeaves (T T' : Tree Nat Nat) : Prop := ∀ l b e, T' l b = .leaf e ↔ T l b = .leaf e

theorem SameLeaves.refl (T : Tree Nat Nat) : SameLeaves T T := fun _ _ _ => Iff.rfl

theorem SameLeaves.trans {T1 T2 T3 : Tree Nat Nat} (h : SameLeaves T1 T2) (h' : SameLeaves T2 T3) :
    SameLeaves T1 T3 := fun l b e => (h' l b e).trans (h l b e)

/-- The empty table at a hole. -/
def grow (T : Tree Nat Nat) (l b f : Nat) : Tree Nat Nat := radix.link T l b f fun _ => .hole

theorem sameLeaves_grow (h : radix.Wf d.root T) (ht : radix.home d.root T (l + 1) b = some t)
    (hhole : T (l + 1) b = .hole) (f : Nat) : SameLeaves T (grow T l b f) := by
  intro l' b' e
  rw [grow, h.link_eq ht hhole]
  split
  · next hself =>
    rw [hself.1, hself.2, hhole]
    exact ⟨nofun, nofun⟩
  · rfl

/-- The entry that points at a table. -/
theorem decode_tableEntry (hf : Frame f) (l : Nat) :
    decode ((f &&& addrMask) ||| read ||| write) (l + 1) = .table f := by
  have hlow : (read ||| write) < pageSize := by decide
  rw [Nat.or_assoc, hf.and_addrMask]
  unfold decode
  rw [or_and_low hf hlow, if_neg (by decide), if_neg (Nat.succ_ne_zero l), or_and_low hf (by decide),
    if_neg (by decide), or_and_addrMask hf hlow]

/-- The source keeps its promise after it has given a frame. -/
theorem Machine.Honest.given (h : m.Honest)
    (hsupply : m.supply = some f :: supply) {m' : Machine} (hs : m'.supply = supply) (hg : m'.given = f :: m.given) :
    m'.Honest := by
  have honce := h.once
  rw [hsupply, filterMap_cons_some (b := f) (by rfl), nodup_cons] at honce
  have hin : ∀ {g}, some g ∈ m'.supply → some g ∈ m.supply := by
    intro g hmem
    rw [hs] at hmem
    exact hsupply ▸ mem_cons_of_mem _ hmem
  refine ⟨fun hmem => h.frame (hin hmem), hs ▸ honce.2, fun {g} hmem hgiven => ?_⟩
  rw [hg] at hgiven
  rcases mem_cons.mp hgiven with rfl | hold
  · exact honce.1 (mem_filterMap.mpr ⟨_, hs ▸ hmem, rfl⟩)
  · exact h.fresh (hin hmem) hold

/-- **An empty table is linked in**: a frame is taken, cleared, and pointed at. -/
theorem Holds.grow {m1 : Machine} (h : Holds d m T)
    (ht : radix.home d.root T (l + 1) b = some t) (hhole : T (l + 1) b = .hole)
    (hsupply : m.supply = some f :: supply)
    (hclear : Machine.Cleared { m with supply, given := f :: m.given } m1 f) :
    Holds d (m1.write64 (slotOf t b) ((f &&& addrMask) ||| read ||| write)) (Vtd.grow T l b f) := by
  have hf : Frame f := h.honest.frame (hsupply ▸ mem_cons_self)
  have hg : m1.given = f :: m.given := hclear.given
  have hnotable : ∀ l' b', radix.home d.root T l' b' ≠ some f := fun _ _ he =>
    h.honest.fresh (hsupply ▸ mem_cons_self) (h.given he)
  have hhome := h.wf.home_link (t := f) ht hhole
  -- the new table is empty, and no entry moved but the one that points at it
  have hzero : ∀ b' v, (m1.write64 (slotOf t b) v).mem (slotOf f b') = 0 := by
    intro b' v
    show (if slotOf f b' = slotOf t b then _ else m1.mem (slotOf f b')) = 0
    rw [if_neg fun he => hnotable _ _ ((slotOf_inj hf (h.tableFrame ht) he).1 ▸ ht), ← slotOf_mod]
    exact hclear.zero (Nat.mod_lt _ (by decide))
  have hentry : ∀ {l' b' t'}, radix.home d.root T l' b' = some t' → ∀ v,
      (m1.write64 (slotOf t b) v).mem (slotOf t' b') =
        if l' = l + 1 ∧ b' = b then v else m.mem (slotOf t' b') := by
    intro l' b' t' ht' v
    have hmem : m1.mem (slotOf t' b') = m.mem (slotOf t' b') := hclear.other fun he => by
      rw [pageOf_slotOf (h.tableFrame ht')] at he
      exact hnotable _ _ (he ▸ ht')
    rw [← h.write64_entry ht ht']
    show (if _ then v else m1.mem _) = if _ then v else m.mem _
    rw [hmem]
  constructor
  case levels => exact h.levels
  case wf => exact h.wf.link ht hhole hnotable
  case entry =>
    intro l' b' t' ht'
    rw [Vtd.grow, h.wf.link_eq ht hhole]
    rw [Vtd.grow, hhome] at ht'
    split at ht'
    · next hin =>
      cases ht'
      rw [if_neg (by omega), hzero, hin.1, h.wf.hole_below (by rw [hhole]; exact nofun) (home_lt ht) hin.2]
      exact decode_hole (Nat.zero_and _)
    · rw [hentry ht']
      split
      · next hself => rw [hself.1, decode_tableEntry hf]
      · exact h.entry ht'
  case given =>
    intro l' b' t' ht'
    rw [Vtd.grow, hhome] at ht'
    show t' ∈ m1.given
    rw [hg]
    split at ht'
    · cases ht'
      exact mem_cons_self
    · exact mem_cons_of_mem _ (h.given ht')
  case frame =>
    intro g hg'
    rw [Machine.given_write64, hg] at hg'
    rcases mem_cons.mp hg' with rfl | hmem
    · exact hf
    · exact h.frame hmem
  case leaf =>
    intro l' b' e hl
    exact h.leaf ((sameLeaves_grow h.wf ht hhole f l' b' e).mp hl)
  case honest => exact h.honest.given hsupply hclear.supply hg
  case inside =>
    intro a ha
    show pageOf a ∈ m1.given
    rw [hg]
    rcases mem_cons.mp ha with rfl | ha
    · rw [pageOf_slotOf (h.tableFrame ht)]
      exact mem_cons_of_mem _ (h.given ht)
    · rcases hclear.writes ha with ha | ha
      · exact mem_cons_of_mem _ (h.inside ha)
      · exact ha ▸ mem_cons_self

end Edits

end Kintane.Vtd
