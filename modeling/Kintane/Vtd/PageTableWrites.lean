import Kintane.Vtd.PageTableRuns

/-!
# Where the calls write

A call writes in the domain's own tables, as long as it maps no 4 KiB leaf under a 2 MiB leaf: `walk`
takes such a leaf for a table, and the entry then goes into the memory that was granted to the device.
`Clear` is that condition, at the state in which each round of the loop finds the tables, and it is exact:
a call that is not clear writes outside.
-/

namespace Kintane.Vtd

open Radix Fallible Domain Call List

variable {d : Domain} {m m' : Machine} {T T' : Tree Nat Nat} {dma : Nat → Prop} {α : Type}
  {iova len phys rounds stop : Nat} {perm : Perm}

/-! ## What any call can do -/

/-- Frames come from the source, and writes are not undone. -/
structure Flows (m m' : Machine) : Prop where
  given : ∀ {f}, f ∈ m'.given → f ∈ m.given ∨ some f ∈ m.supply
  supply : ∀ {f}, some f ∈ m'.supply → some f ∈ m.supply
  writes : ∀ {a}, a ∈ m.writes → a ∈ m'.writes

theorem Flows.refl (m : Machine) : Flows m m := ⟨.inl, id, id⟩

theorem Flows.trans {m1 m2 m3 : Machine} (h : Flows m1 m2) (h' : Flows m2 m3) : Flows m1 m3 where
  given hf := by
    rcases h'.given hf with hf | hf
    · exact h.given hf
    · exact .inr (h.supply hf)
  supply hf := h.supply (h'.supply hf)
  writes ha := h'.writes (h.writes ha)

theorem Flows.write64 (m : Machine) (a v : Nat) : Flows m (m.write64 a v) :=
  ⟨.inl, id, fun ha => mem_cons_of_mem _ ha⟩

theorem Flows.zeroFrame (m : Machine) (f : Nat) : Flows m (m.zeroFrame f) := by
  unfold Machine.zeroFrame
  generalize range (pageSize / 8) = is
  induction is generalizing m with
  | nil => exact Flows.refl m
  | cons i is ih => exact (Flows.write64 m _ _).trans (ih _)

/-- A program whose every outcome flows from its start. -/
def Flowing {α : Type} (p : M α) : Prop := ∀ m, wp p (fun _ => Flows m) (fun _ => Flows m) m

variable {c : Call}

theorem Flowing.pure (a : α) : Flowing (pure a : M α) := fun m => Flows.refl m

theorem Flowing.bind {β : Type} {p : M α} {f : α → M β} (h : Flowing p) (hf : ∀ a, Flowing (f a)) :
    Flowing (p >>= f) := by
  intro m
  rw [wp_bind]
  refine wp_mono (h m) (fun a m1 h1 => ?_) fun _ _ => id
  exact wp_mono (hf a m1) (fun _ _ => h1.trans) fun _ _ => h1.trans

theorem Flowing.modify {f : Machine → Machine} (h : ∀ m, Flows m (f m)) : Flowing (modify f) := fun m => h m

theorem flowing_alloc : Flowing alloc := by
  intro m
  refine wp_alloc (fun supply hmem _ => ⟨.inl, hmem _, id⟩) fun f supply hs => ⟨fun hf => ?_, fun hf => ?_, id⟩
  · rcases mem_cons.mp hf with rfl | hf
    · exact .inr (hs ▸ mem_cons_self)
    · exact .inl hf
  · exact hs ▸ mem_cons_of_mem _ hf

theorem flowing_descend (slot : Nat) : Flowing (descend slot) := by
  intro m
  unfold descend
  rw [wp_bind, wp_get]
  simp only
  split
  · exact Flows.refl m
  · refine (flowing_alloc.bind fun frame => ?_) m
    refine (Flowing.modify fun m => Flows.zeroFrame m frame).bind fun _ => ?_
    exact (Flowing.modify fun m => Flows.write64 m _ _).bind fun _ => .pure _

theorem flowing_walk (d : Domain) (iova target : Nat) : Flowing (d.walk iova target) := by
  have hfrom : ∀ level table, Flowing (walkFrom iova target level table) := by
    intro level
    induction level with
    | zero => exact fun table => .pure _
    | succ level ih =>
      intro table
      rw [walkFrom]
      split
      · exact (flowing_descend _).bind ih
      · exact .pure _
  exact hfrom _ _

theorem flowing_mapFrom (d : Domain) (stop : Nat) (perm : Perm) (rounds iova phys : Nat) :
    Flowing (d.mapFrom stop perm rounds iova phys) := by
  induction rounds generalizing iova phys with
  | zero => exact .pure _
  | succ rounds ih =>
    rw [mapFrom]
    split
    · split
      · exact (flowing_walk d iova 2).bind fun slot =>
          (Flowing.modify fun m => Flows.write64 m _ _).bind fun _ => ih _ _
      · exact (flowing_walk d iova 1).bind fun slot =>
          (Flowing.modify fun m => Flows.write64 m _ _).bind fun _ => ih _ _
    · exact .pure _

theorem flowing_unmapFrom (d : Domain) (stop rounds iova : Nat) : Flowing (d.unmapFrom stop rounds iova) := by
  induction rounds generalizing iova with
  | zero => exact .pure _
  | succ rounds ih =>
    rw [unmapFrom]
    split
    · intro m
      rw [wp_bind, wp_get]
      split
      · exact ih _ m
      refine ((Flowing.modify fun m => Flows.write64 m _ _).bind fun _ => ?_) m
      split
      · exact ih _
      · exact ih _
    · exact .pure _

theorem Call.flowing (d : Domain) (c : Call) : Flowing (c.run d) := by
  cases c with
  | map iova phys len perm =>
    show Flowing (d.map iova phys len perm)
    unfold Domain.map
    split
    · exact fun m => Flows.refl m
    · split
      · exact fun m => Flows.refl m
      · exact flowing_mapFrom d _ _ _ _ _
  | unmap iova len =>
    show Flowing (d.unmap iova len)
    unfold Domain.unmap
    split
    · exact fun m => Flows.refl m
    · split
      · exact fun m => Flows.refl m
      · exact flowing_unmapFrom d _ _ _

/-! ## Clear calls -/

/-- No round of the loop maps a 4 KiB leaf where a 2 MiB leaf stands. -/
def MapClear (d : Domain) (stop : Nat) (perm : Perm) : Nat → Nat → Nat → Machine → Prop
  | 0, _, _, _ => True
  | rounds + 1, iova, phys, m =>
    iova < stop →
      if takesSuperpage iova phys stop then
        wp (do let slot ← d.walk iova 2; modify (·.write64 slot (leafEntry phys 1 perm)))
          (fun _ => MapClear d stop perm rounds (iova + superpageSize) ((phys + superpageSize) % 2 ^ 64))
          (fun _ _ => True) m
      else
        (∀ slot, d.leafOf m iova ≠ some (slot, superpageSize)) ∧
          wp (do let slot ← d.walk iova 1; modify (·.write64 slot (leafEntry phys 0 perm)))
            (fun _ => MapClear d stop perm rounds (iova + pageSize) ((phys + pageSize) % 2 ^ 64))
            (fun _ _ => True) m

def Call.Clear (d : Domain) (m : Machine) : Call → Prop
  | .map iova phys len perm =>
    iova % pageSize = 0 → phys % pageSize = 0 → len % pageSize = 0 → iova + len < 2 ^ 64 →
      MapClear d (iova + len) perm (len / pageSize) iova phys m
  | .unmap _ _ => True

/-- The physical pages a mapping leads to are memory for the device. -/
def Ahead (dma : Nat → Prop) (phys len : Nat) : Prop :=
  ∀ k, k * pageSize < len → dma ((phys + k * pageSize) % 2 ^ 64 &&& addrMask)

def Call.Into (dma : Nat → Prop) : Call → Prop
  | .map _ phys len _ => Ahead dma phys len
  | .unmap _ _ => True

/-- The 2 MiB leaves lead to memory for the device. -/
def Leads (dma : Nat → Prop) (T : Tree Nat Nat) : Prop := ∀ b e, T 1 b = .leaf e → dma (e &&& addrMask)

theorem Leads.grown (h : Leads dma T) (hsame : SameLeaves T T') : Leads dma T' :=
  fun b e he => h b e ((hsame 1 b e).mp he)

theorem superpage_iff (h : Holds d m T) (iova : Nat) :
    (∃ slot, d.leafOf m iova = some (slot, superpageSize)) ↔ ∃ e, T 1 (key iova / radix.size 1) = .leaf e := by
  constructor
  · rintro ⟨slot, hleaf⟩
    cases hl : radix.lookup T (key iova) with
    | none =>
      rw [leafOf_none h hl] at hleaf
      cases hleaf
    | some x =>
      obtain ⟨l, e⟩ := x
      obtain ⟨u, -, hu, -⟩ := leafOf_some h hl
      rw [hu] at hleaf
      have hT := (lookup_eq_some h.wf (key_lt iova)).mp hl
      have hsize : radix.size l = superpageSize := congrArg Prod.snd (Option.some.inj hleaf)
      have h01 : l = 0 ∨ l = 1 := by have := (h.leaf hT).1; omega
      rcases h01 with rfl | rfl
      · rw [size_zero, superpageSize_eq] at hsize
        omega
      · exact ⟨e, hT⟩
  · rintro ⟨e, he⟩
    obtain ⟨u, -, hu, -⟩ := leafOf_some h ((lookup_eq_some h.wf (key_lt iova)).mpr he)
    exact ⟨_, hu⟩

theorem descend_present {slot : Nat} (h : m.mem slot &&& (Pte.read ||| Pte.write) ≠ 0) :
    descend slot m = .ok (m.mem slot &&& addrMask) m := by
  show (if m.mem slot &&& (Pte.read ||| Pte.write) ≠ 0 then (pure (m.mem slot &&& addrMask) : M Nat) else _) m = _
  rw [if_pos h]
  rfl

/-- Under a 2 MiB leaf `walk` ends in the leaf's own memory. -/
theorem walk_under_superpage (h : Holds d m T) {e : Nat} (he : T 1 (key iova / radix.size 1) = .leaf e) :
    d.walk iova 1 m = .ok ((e &&& addrMask) + index iova 1 * 8) m := by
  have hfrom : ∀ k, 1 ≤ k → ∀ t, radix.home d.root T k (key iova / radix.size k) = some t →
      walkFrom iova 1 (k + 1) t m = .ok ((e &&& addrMask) + index iova 1 * 8) m := by
    intro k hk
    induction k, hk using Nat.le_induction with
    | base =>
      intro t ht
      have hentry := h.entry ht
      rw [he] at hentry
      obtain ⟨hmem, hp, -⟩ := decode_eq_leaf hentry
      rw [walkFrom, if_pos (by decide), slot_eq (home_lt ht)]
      show EStateM.bind (descend _) _ m = _
      rw [EStateM.bind, descend_present hp, hmem]
      rfl
    | succ k hk ih =>
      intro t ht
      obtain ⟨u, hu⟩ := h.wf.home_some (Node.ne_hole_of_leaf he)
      obtain ⟨v, hv⟩ := h.wf.table_above (r := key iova) (show 1 < k + 1 by omega) (home_lt ht) hu
      have hentry := h.entry ht
      rw [hv] at hentry
      obtain ⟨hmem, hp, -⟩ := decode_eq_table hentry
      rw [walkFrom, if_pos (by omega), slot_eq (home_lt ht)]
      show EStateM.bind (descend _) _ m = _
      rw [EStateM.bind, descend_present hp, ← hmem]
      exact ih v (home_below (home_lt ht) (by rw [radix.div_div]; exact hv))
  rw [walk, h.levels]
  exact hfrom 3 (by decide) _ (home_of_key d T iova)

/-- A write into memory for the device. -/
def Escapes (dma : Nat → Prop) (m : Machine) : Prop := ∃ a ∈ m.writes, dma (pageOf a)

/-- What a call leaves: tables that hold a tree, or an entry in the device's memory. -/
def Outcome (d : Domain) (dma : Nat → Prop) (clear : Prop) (m : Machine) : Prop :=
  (clear ∧ ∃ T, Holds d m T ∧ Leads dma T) ∨ (¬clear ∧ Escapes dma m)

theorem Escapes.flows (h : Escapes dma m) (hf : Flows m m') : Escapes dma m' := by
  obtain ⟨a, ha, hd⟩ := h
  exact ⟨a, hf.writes ha, hd⟩

theorem Ahead.first (h : Ahead dma phys len) (hlen : 0 < len) : dma (phys &&& addrMask) := by
  have := h 0 (by omega)
  rw [zero_mul, add_zero, and_addrMask, Nat.mod_mod_of_dvd _ (Nat.pow_dvd_pow 2 (by decide))] at this
  rwa [and_addrMask]

theorem Ahead.rest {s : Nat} (h : Ahead dma phys len) (hs : s % pageSize = 0) :
    Ahead dma ((phys + s) % 2 ^ 64) (len - s) := by
  intro k hk
  have hsplit : s = s / pageSize * pageSize := by
    unfold pageSize at *
    omega
  have := h (k + s / pageSize) (by rw [add_mul, ← hsplit]; omega)
  rw [add_mul, ← hsplit] at this
  have hsum : ((phys + s) % 2 ^ 64 + k * pageSize) % 2 ^ 64 = (phys + (k * pageSize + s)) % 2 ^ 64 := by omega
  rwa [hsum]

theorem Outcome.congr {p q : Prop} (hpq : p ↔ q) (h : Outcome d dma q m) : Outcome d dma p m := by
  rwa [Outcome, hpq]

/-- A leaf that is mapped leads to memory for the device. -/
theorem leads_mapLeaf {l : Nat} (hl : Leads dma T) (hone : ∀ b e, T' 1 b = .leaf e →
      T 1 b = .leaf e ∨ (l = 1 ∧ b = key iova / radix.size 1 ∧ e = leafEntry phys l perm))
    (hdma : dma (phys &&& addrMask)) : Leads dma T' := by
  intro b e he
  rcases hone b e he with he | ⟨-, -, rfl⟩
  · exact hl b e he
  · rw [(leafEntry_spec phys l perm).2.2.1]
    exact hdma

/-- A round is clear if the leaf it maps is, and the rounds after it are. -/
theorem mapClear_succ (hlt : iova < stop) : MapClear d stop perm (rounds + 1) iova phys m ↔
      (leafLevel iova phys stop = 0 → ∀ slot, d.leafOf m iova ≠ some (slot, superpageSize)) ∧
        wp (do let slot ← d.walk iova (leafLevel iova phys stop + 1)
               modify (·.write64 slot (leafEntry phys (leafLevel iova phys stop) perm)))
          (fun _ => MapClear d stop perm rounds (iova + radix.size (leafLevel iova phys stop))
            ((phys + radix.size (leafLevel iova phys stop)) % 2 ^ 64)) (fun _ _ => True) m := by
  rw [MapClear]
  unfold leafLevel
  split
  · exact (forall_prop_of_true hlt).trans (and_iff_right (nofun : 1 = 0 → _)).symm
  · exact (forall_prop_of_true hlt).trans (and_congr_left' ⟨fun h _ => h, fun h => h rfl⟩)

/-- **`map`'s loop** keeps to the tables exactly when it is clear. -/
theorem outcome_mapFrom (h : Holds d m T) (hl : Leads dma T)
    (hpage : iova % 4096 = 0) (hstop : stop % 4096 = 0) (hphys : phys % 4096 = 0)
    (hahead : Ahead dma phys (stop - iova)) :
    wp (d.mapFrom stop perm rounds iova phys)
      (fun _ => Outcome d dma (MapClear d stop perm rounds iova phys m))
      (fun _ => Outcome d dma (MapClear d stop perm rounds iova phys m)) m := by
  induction rounds generalizing m T iova phys with
  | zero => exact .inl ⟨trivial, T, h, hl⟩
  | succ rounds ih =>
    by_cases hlt : iova < stop
    · have hdma := hahead.first (by omega)
      obtain ⟨-, hp, -⟩ := leafLevel_spec hlt hpage hstop hphys
      have hmod : radix.size (leafLevel iova phys stop) % 4096 = 0 := by
        unfold leafLevel
        split <;> rfl
      have hclear : MapClear d stop perm (rounds + 1) iova phys m ↔ _ := mapClear_succ hlt
      rw [mapFrom_succ hlt]
      by_cases hunder : leafLevel iova phys stop = 0 ∧ ∃ e, T 1 (key iova / radix.size 1) = .leaf e
      · -- the entry goes into the leaf's memory, and stays written
        obtain ⟨h0, e, he⟩ := hunder
        have hnot : ¬MapClear d stop perm (rounds + 1) iova phys m := by
          obtain ⟨slot, hslot⟩ := (superpage_iff h iova).mpr ⟨e, he⟩
          exact fun hc => (hclear.mp hc).1 h0 slot hslot
        have hpageOf : pageOf ((e &&& addrMask) + index iova 1 * 8) = e &&& addrMask := by
          refine pageOf_slot (frame_and_addrMask e) ?_
          rw [index_eq (by decide)]
          unfold pageSize
          omega
        have hw : wp (d.walk iova 1) (fun slot _ => dma (pageOf slot))
            (fun _ => Outcome d dma (MapClear d stop perm (rounds + 1) iova phys m)) m := by
          rw [wp_iff_of_ok (walk_under_superpage h he), hpageOf]
          exact hl _ e he
        rw [h0]
        refine wp_seq hw fun slot m1 hs => ?_
        have hesc : Escapes dma (m1.write64 slot (leafEntry phys 0 perm)) := ⟨slot, mem_cons_self, hs⟩
        exact wp_mono (flowing_mapFrom d stop perm rounds _ _ _) (fun _ _ hf => .inr ⟨hnot, hesc.flows hf⟩)
          fun _ _ hf => .inr ⟨hnot, hesc.flows hf⟩
      · have hno : leafLevel iova phys stop = 0 → ∀ slot, d.leafOf m iova ≠ some (slot, superpageSize) :=
          fun h0 slot hs => hunder ⟨h0, (superpage_iff h iova).mp ⟨slot, hs⟩⟩
        rw [and_iff_right hno] at hclear
        have hleaf := wp_mapLeaf iova perm (leafLevel_le iova phys stop) h hp fun h0 e he => hunder ⟨h0, e, he⟩
        refine wp_outcome (fun _ m1 hm => ?_) fun _ m1 hm => ?_
        · obtain ⟨T', h', hone, -⟩ := wp_ok hleaf hm
          rw [wp_iff_of_ok hm] at hclear
          refine wp_mono (ih h' (leads_mapLeaf hl hone hdma) (by omega) (by omega) ?_) (fun _ _ => Outcome.congr hclear)
            fun _ _ => Outcome.congr hclear
          rw [Nat.sub_add_eq]
          exact hahead.rest hmod
        · obtain ⟨T', h', hsame⟩ := wp_error hleaf hm
          exact .inl ⟨hclear.mpr (by rw [wp, hm]; trivial), T', h', hl.grown hsame⟩
    · rw [mapFrom, if_neg hlt]
      exact .inl ⟨fun h => absurd h hlt, T, h, hl⟩

/-- **`unmap`'s loop** keeps to the tables. -/
theorem wp_unmapFrom_inside (h : Holds d m T) (hl : Leads dma T) :
    wp (d.unmapFrom stop rounds iova) (fun _ m' => ∃ T', Holds d m' T' ∧ Leads dma T')
      (fun _ m' => ∃ T', Holds d m' T' ∧ Leads dma T') m := by
  induction rounds generalizing m T iova with
  | zero => exact ⟨T, h, hl⟩
  | succ rounds ih =>
    rw [unmapFrom]
    split
    · rw [wp_bind, wp_get]
      cases hlook : radix.lookup T (key iova) with
      | none =>
        rw [leafOf_none h hlook]
        exact ih h hl
      | some x =>
        obtain ⟨u, hu, hleaf, -⟩ := leafOf_some h hlook
        obtain ⟨T', h', hone, -⟩ := h.unmapLeaf hu
        have hl' : Leads dma T' := fun b e he => hl b e (hone b e he).1
        rw [hleaf]
        rw [wp_bind, wp_modify]
        split
        · exact ih h' hl'
        · exact ih h' hl'
    · exact ⟨T, h, hl⟩

theorem Call.after_of_wp {P : Machine → Prop} (h : wp (c.run d) (fun _ => P) (fun _ => P) m) : P (c.after d m) := by
  unfold wp at h
  unfold after
  cases hr : c.run d m with
  | ok _ m' =>
    rw [hr] at h
    exact h
  | error _ m' =>
    rw [hr] at h
    exact h

theorem Call.outcome (h : Holds d m T) (hl : Leads dma T) (hinto : c.Into dma) :
    Outcome d dma (c.Clear d m) (c.after d m) := by
  have hspec : wp (c.run d) (fun _ => Outcome d dma (c.Clear d m)) (fun _ => Outcome d dma (c.Clear d m)) m := by
    cases c with
    | map iova phys len perm =>
      show wp (d.map iova phys len perm) _ _ m
      unfold Domain.map
      split
      · next hbad =>
        refine .inl ⟨fun hi hp hl' _ => ?_, T, h, hl⟩
        omega
      rename_i hgood
      split
      · next hwide =>
        refine .inl ⟨fun _ _ _ hw => ?_, T, h, hl⟩
        omega
      have hclear : (map iova phys len perm).Clear d m ↔
          MapClear d (iova + len) perm (len / pageSize) iova phys m :=
        ⟨fun hc => hc (by omega) (by omega) (by omega) (by omega), fun hc _ _ _ _ => hc⟩
      unfold pageSize at hgood
      refine wp_mono (outcome_mapFrom h hl (by omega) (by omega) (by omega) ?_)
        (fun _ _ => Outcome.congr hclear) fun _ _ => Outcome.congr hclear
      rwa [Nat.add_sub_cancel_left]
    | unmap iova len =>
      show wp (d.unmap iova len) _ _ m
      unfold Domain.unmap
      split
      · exact .inl ⟨trivial, T, h, hl⟩
      split
      · exact .inl ⟨trivial, T, h, hl⟩
      · exact wp_mono (wp_unmapFrom_inside h hl) (fun _ _ hex => .inl ⟨trivial, hex⟩)
          fun _ _ hex => .inl ⟨trivial, hex⟩
  exact after_of_wp hspec

theorem Call.flows_after (d : Domain) (m : Machine) (c : Call) : Flows m (c.after d m) :=
  after_of_wp (c.flowing d m)

/-! ## Runs -/

/-- Clear calls into the device's memory, successful or not. -/
inductive Reached (d : Domain) (dma : Nat → Prop) : Machine → Machine → Prop where
  | refl (m : Machine) : Reached d dma m m
  | call {m m' : Machine} {c : Call} (before : Reached d dma m m') (into : c.Into dma) (clear : c.Clear d m') :
      Reached d dma m (c.after d m')

theorem Reached.holds (hrun : Reached d dma m m') (h : Holds d m bare) : ∃ T, Holds d m' T ∧ Leads dma T := by
  induction hrun with
  | refl => exact ⟨bare, h, fun _ _ => nofun⟩
  | call _ into clear ih =>
    obtain ⟨T, h', hl⟩ := ih
    rcases outcome h' hl into with ⟨-, hex⟩ | ⟨hnot, -⟩
    · exact hex
    · exact absurd clear hnot

theorem Reached.flows (hrun : Reached d dma m m') : Flows m m' := by
  induction hrun with
  | refl => exact Flows.refl _
  | call _ _ _ ih => exact ih.trans (flows_after _ _ _)

theorem flowing_newDomain (id : Nat) : Flowing (newDomain id) :=
  flowing_alloc.bind fun root => (Flowing.modify fun m => Flows.zeroFrame m root).bind fun _ => .pure _

/-- **Writes stay in the tables** along every run of clear calls, and a next call's stay there exactly
when it is clear too. -/
theorem writes_in_tables {id : Nat} {m0 : Machine} (hstart : m0.Start) (hdma : ∀ f, some f ∈ m0.supply → ¬dma f)
    (hnew : newDomain id m0 = .ok d m) (hrun : Reached d dma m m') :
    (∀ a ∈ m'.writes, pageOf a ∈ m'.given ∧ ¬dma (pageOf a)) ∧
      ∀ c : Call, c.Into dma →
        ((∀ a ∈ (c.after d m').writes, pageOf a ∈ (c.after d m').given ∧ ¬dma (pageOf a)) ↔ c.Clear d m') := by
  obtain ⟨T, h, hl⟩ := hrun.holds (holds_newDomain hstart hnew)
  have hflow : Flows m0 m' := (wp_ok (flowing_newDomain id m0) hnew).trans hrun.flows
  have happart : ∀ {m1}, Flows m0 m1 → ∀ f ∈ m1.given, ¬dma f := by
    intro m1 hf f hmem
    rcases hf.given hmem with hmem | hmem
    · rw [hstart.given] at hmem
      cases hmem
    · exact hdma f hmem
  refine ⟨fun a ha => ⟨h.inside ha, happart hflow _ (h.inside ha)⟩, fun c hinto => ⟨fun hin => ?_, fun hclear => ?_⟩⟩
  · rcases outcome h hl hinto with ⟨hclear, -⟩ | ⟨-, a, ha, hd⟩
    · exact hclear
    · exact absurd hd (hin a ha).2
  · intro a ha
    rcases outcome h hl hinto with ⟨-, T', h', -⟩ | ⟨hnot, -⟩
    · exact ⟨h'.inside ha, happart (hflow.trans (c.flows_after d m')) _ (h'.inside ha)⟩
    · exact absurd hclear hnot

/-- On a new domain, with one mapping made. -/
theorem writes_in_tables_page :
    ((map 0x5000 0x7000 0x1000 .read).after .first .afterFirst).writes ≠ [] ∧
    ∀ a ∈ ((map 0x5000 0x7000 0x1000 .read).after .first .afterFirst).writes,
      pageOf a ∈ ((map 0x5000 0x7000 0x1000 .read).after .first .afterFirst).given ∧ pageOf a ≠ 0x7000 := by
  have hsupply : ∀ f, some f ∈ Machine.four.supply → ¬(f = 0x7000) := by
    intro f hf
    simp only [Machine.four, mem_cons, Option.some.injEq, not_mem_nil, or_false] at hf
    omega
  have hinto : (map 0x5000 0x7000 0x1000 .read).Into (· = 0x7000) := by
    intro k hk
    obtain rfl : k = 0 := by
      unfold pageSize at hk
      omega
    decide
  have hclear : (map 0x5000 0x7000 0x1000 .read).Clear .first .afterFirst := by
    intro _ _ _ _
    refine fun _ => ⟨fun slot hslot => ?_, ?_⟩
    · rw [leafOf_bare (holds_newDomain start_four newDomain_four)] at hslot
      cases hslot
    · unfold wp
      split <;> exact trivial
  exact ⟨by decide +kernel, ((writes_in_tables start_four hsupply newDomain_four (.refl _)).2 _ hinto).mpr hclear⟩

/-- A page mapped under a 2 MiB leaf: the entry goes into the leaf's first page. -/
theorem write_escapes :
    let big := map 0 0x200000 0x200000 .readWrite
    let small := map 0 0x7000 0x1000 .read
    (Machine.four.Start ∧ newDomain 1 .four = .ok .first .afterFirst) ∧
      0x200000 ∈ (small.after .first (big.after .first .afterFirst)).writes ∧
      pageOf 0x200000 ∉ (small.after .first (big.after .first .afterFirst)).given := by
  exact ⟨⟨start_four, newDomain_four⟩, by decide +kernel⟩

end Kintane.Vtd
