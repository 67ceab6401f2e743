import Kintane.Vtd.PageTableExact

/-!
# Runs of calls on one domain

A domain starts empty, in a frame of its own. Where the calls that follow keep 2 MiB leaves whole, what
they leave behind is the function they describe.
-/

namespace Kintane.Vtd

open Radix Fallible Machine List

variable {d : Domain} {m m' : Machine} {T : Tree Nat Nat}

inductive Call where
  | map (iova phys len : Nat) (perm : Perm)
  | unmap (iova len : Nat)
  deriving DecidableEq, Repr

def Call.run (d : Domain) : Call → M Unit
  | .map iova phys len perm => d.map iova phys len perm
  | .unmap iova len => d.unmap iova len

/-- The machine after a call, whether it succeeded or not. -/
def Call.after (d : Domain) (m : Machine) (c : Call) : Machine :=
  match c.run d m with
  | .ok _ m' => m'
  | .error _ m' => m'

def Call.succeeds (d : Domain) (m : Machine) (c : Call) : Bool :=
  match c.run d m with
  | .ok _ _ => true
  | .error _ _ => false

theorem Call.run_of_succeeds {c : Call} (h : c.succeeds d m = true) : c.run d m = .ok () (c.after d m) := by
  unfold Call.succeeds at h
  unfold Call.after
  split at h
  · next hr => rw [hr]
  · cases h

/-! ## A new domain -/

def bare : Tree Nat Nat := fun _ _ => .hole

theorem home_bare {root l b t : Nat} (h : radix.home root bare l b = some t) :
    l + 1 = radix.levels ∧ b < 512 ∧ t = root := by
  rcases home_cases h with h | ⟨-, h⟩
  · exact h
  · cases h

theorem wf_bare (root : Nat) : radix.Wf root bare where
  orphan _ := rfl
  flat := nofun
  inj := by
    intro l b l' b' t h h'
    obtain ⟨hl, hb, -⟩ := home_bare h
    obtain ⟨hl', hb', -⟩ := home_bare h'
    refine ⟨by omega, ?_⟩
    show b / 512 = b' / 512
    omega

/-- A machine whose frame source has given nothing yet. -/
structure Machine.Start (m : Machine) : Prop extends m.Honest where
  given : m.given = []
  writes : m.writes = []

theorem holds_newDomain {id : Nat} (hstart : m.Start) (hnew : newDomain id m = .ok d m') : Holds d m' bare := by
  have hspec : wp (newDomain id) (fun d m' => Holds d m' bare) (fun _ _ => True) m := by
    unfold newDomain Domain.new
    rw [wp_bind]
    refine wp_alloc (fun _ _ _ => trivial) fun f supply hs => ?_
    have hf : Frame f := hstart.frame (hs ▸ mem_cons_self)
    have hclear := cleared_zeroFrame { m with supply, given := f :: m.given } hf
    rw [wp_bind, wp_modify, wp_pure]
    generalize ({ m with supply, given := f :: m.given } : Machine).zeroFrame f = m1 at hclear
    have hg : m1.given = [f] := by
      rw [hclear.given]
      rw [hstart.given]
    constructor
    case levels => rfl
    case wf => exact wf_bare f
    case entry =>
      intro l b t ht
      obtain ⟨-, -, rfl⟩ := home_bare ht
      rw [← slotOf_mod, hclear.zero (Nat.mod_lt _ (by decide))]
      exact decode_hole (Nat.zero_and _)
    case given =>
      intro l b t ht
      obtain ⟨-, -, rfl⟩ := home_bare ht
      rw [hg]
      exact mem_singleton_self _
    case frame =>
      intro g hg'
      rw [hg, mem_singleton] at hg'
      exact hg' ▸ hf
    case leaf => exact nofun
    case honest => exact hstart.toHonest.given hs hclear.supply hclear.given
    case inside =>
      intro a ha
      rw [hg, mem_singleton]
      refine (hclear.writes ha).resolve_left fun hold => ?_
      rw [show ({ m with supply, given := f :: m.given } : Machine).writes = [] from hstart.writes] at hold
      cases hold
  exact wp_ok (Q := fun d m' => Holds d m' bare) hspec hnew

/-! ## Exact runs -/

/-- The whole of the superpage at an address is in a range. -/
def WholeIn (iova stop a : Nat) : Prop :=
  iova ≤ a / superpageSize * superpageSize ∧ (a / superpageSize + 1) * superpageSize ≤ stop

/-- A call within the tables' 48 bits that meets 2 MiB leaves as a whole, and maps over them only with
2 MiB leaves again. -/
def Call.Fits (d : Domain) (m : Machine) : Call → Prop
  | .map iova phys len _ =>
    iova % pageSize = 0 ∧ phys % pageSize = 0 ∧ len % pageSize = 0 ∧ phys + len ≤ 2 ^ 52 ∧ iova + len ≤ 2 ^ 48 ∧
      ∀ a slot, iova ≤ a → a < iova + len → d.leafOf m a = some (slot, superpageSize) →
        WholeIn iova (iova + len) a ∧ phys % superpageSize = iova % superpageSize
  | .unmap iova len =>
    iova % pageSize = 0 ∧ len % pageSize = 0 ∧ iova + len ≤ 2 ^ 48 ∧
      ∀ a slot, iova ≤ a → a < iova + len → d.leafOf m a = some (slot, superpageSize) → WholeIn iova (iova + len) a

/-- The device addresses' targets: what a call makes of them. -/
def Call.update (f : Nat → Option (Nat × Bool)) : Call → Nat → Option (Nat × Bool)
  | .map iova phys len perm => fun a =>
    if iova ≤ a ∧ a < iova + len then some (phys + (a - iova), decide (perm = .readWrite)) else f a
  | .unmap iova len => fun a => if iova ≤ a ∧ a < iova + len then none else f a

def granted (calls : List Call) : Nat → Option (Nat × Bool) := calls.foldl Call.update fun _ => none

/-- Calls that fit and succeed, the first one first. -/
inductive Served (d : Domain) : Machine → List Call → Machine → Prop where
  | nil (m : Machine) : Served d m [] m
  | call {m m' m'' : Machine} {calls : List Call} {c : Call} (before : Served d m calls m') (fits : c.Fits d m')
      (ok : c.run d m' = .ok () m'') : Served d m (calls ++ [c]) m''

/-- A 2 MiB leaf that meets a range is the leaf of some address in it. -/
theorem leafOf_superpage (h : Holds d m T) {b e iova stop : Nat} (hT : T 1 b = .leaf e) (hstop : stop ≤ 2 ^ 48)
    (hlow : b * superpageSize < stop) (hhigh : iova < (b + 1) * superpageSize) (hlt : iova < stop) :
    ∃ a slot, iova ≤ a ∧ a < stop ∧ a / superpageSize = b ∧ d.leafOf m a = some (slot, superpageSize) := by
  rw [superpageSize_eq] at *
  have hb : max iova (b * 2097152) / 2097152 = b := by omega
  have ha : max iova (b * 2097152) < 2 ^ 48 := by omega
  have hl : radix.lookup T (key (max iova (b * 2097152))) = some (1, e) := by
    rw [key_of_lt ha]
    exact (lookup_eq_some h.wf ha).mpr (by rw [size_one, hb]; exact hT)
  obtain ⟨u, -, hleaf, -⟩ := leafOf_some h hl
  exact ⟨_, _, by omega, by omega, hb, hleaf⟩

theorem Call.Fits.exact {c : Call} (h : Holds d m T) (hfits : c.Fits d m) (hok : c.run d m = .ok () m') :
    ∃ T', Holds d m' T' ∧ ∀ a < 2 ^ 48, target T' a = c.update (target T) a := by
  cases c with
  | map iova phys len perm =>
    obtain ⟨hi, hp, hl, hphys, hbound, hwhole⟩ := hfits
    change d.map iova phys len perm m = _ at hok
    unfold pageSize at hi hp hl
    rw [Domain.map, if_neg (by unfold pageSize; omega), if_neg (by omega)] at hok
    refine wp_ok (wp_mapFrom h hi (by omega) (by omega) hbound hp (by omega) ?_ ?_) hok
    · show _ ≤ len / 4096 * 4096
      omega
    · intro hlt b e hT hlow hhigh
      obtain ⟨a, slot, hia, has, hab, hleaf⟩ := leafOf_superpage h hT hbound hlow hhigh hlt
      obtain ⟨⟨h1, h2⟩, h3⟩ := hwhole a slot hia has hleaf
      rw [hab] at h1 h2
      exact ⟨h1, h2, h3⟩
  | unmap iova len =>
    obtain ⟨hi, hl, hbound, hwhole⟩ := hfits
    change d.unmap iova len m = _ at hok
    unfold pageSize at hi hl
    rw [Domain.unmap, if_neg (by unfold pageSize; omega), if_neg (by omega)] at hok
    refine wp_ok (wp_unmapFrom h hi (by omega) (by omega) hbound ?_ ?_) hok
    · show _ ≤ 2 ^ 53 * 4096
      omega
    · intro hlt b e hT hlow hhigh
      obtain ⟨a, slot, hia, has, hab, hleaf⟩ := leafOf_superpage h hT hbound hlow hhigh hlt
      obtain ⟨h1, h2⟩ := hwhole a slot hia has hleaf
      rw [hab] at h1 h2
      exact ⟨h1, h2⟩

theorem update_congr {f g : Nat → Option (Nat × Bool)} (h : ∀ a < 2 ^ 48, f a = g a) (c : Call) {a : Nat}
    (ha : a < 2 ^ 48) : c.update f a = c.update g a := by
  cases c with
  | map iova phys len perm => simp only [Call.update, h a ha]
  | unmap iova len => simp only [Call.update, h a ha]

theorem Served.exact {calls : List Call} (hrun : Served d m calls m') (h : Holds d m bare) :
    ∃ T', Holds d m' T' ∧ ∀ a < 2 ^ 48, target T' a = granted calls a := by
  induction hrun with
  | nil => exact ⟨bare, h, fun a _ => rfl⟩
  | @call m' m'' calls c _ fits ok ih =>
    obtain ⟨T', h', htarget⟩ := ih
    obtain ⟨T'', h'', hupdate⟩ := fits.exact h' ok
    refine ⟨T'', h'', fun a ha => ?_⟩
    rw [hupdate a ha, update_congr htarget c ha]
    show _ = (calls ++ [c]).foldl Call.update _ a
    rw [foldl_append]
    rfl

/-- **Mapping is exact** where the calls fit: a device address leads where the calls so far say. -/
theorem translate_granted {id : Nat} {calls : List Call} {m0 : Machine} (hstart : m0.Start)
    (hnew : newDomain id m0 = .ok d m) (hrun : Served d m calls m') {a : Nat} (ha : a < 2 ^ 48) :
    d.translate m' a = granted calls a := by
  obtain ⟨T, h, htarget⟩ := hrun.exact (holds_newDomain hstart hnew)
  rw [translate_eq h ha, htarget a ha]

/-- A machine with four frames to give, and the domain that takes the first of them. -/
def Machine.four : Machine :=
  { mem := fun _ => 0, writes := [], given := [], supply := [some 0x1000, some 0x2000, some 0x3000, some 0x4000] }

def Domain.first : Domain := ⟨1, 0x1000, levels48⟩

def Machine.afterFirst : Machine :=
  { four with supply := [some 0x2000, some 0x3000, some 0x4000], given := [0x1000] }.zeroFrame 0x1000

theorem newDomain_four : newDomain 1 .four = .ok .first .afterFirst := rfl

theorem start_four : four.Start where
  frame := by
    intro f hf
    simp only [four, mem_cons, Option.some.injEq, not_mem_nil, or_false] at hf
    rcases hf with rfl | rfl | rfl | rfl <;> exact ⟨by decide, by decide⟩
  once := by decide
  fresh _ := not_mem_nil
  given := rfl
  writes := rfl

theorem leafOf_bare (h : Holds d m bare) (a : Nat) : d.leafOf m a = none :=
  leafOf_none h (lookup_eq_none h.wf (key_lt a) fun _ _ => nofun)

/-- One page, mapped for reading. -/
theorem translate_granted_page :
    Domain.first.translate ((Call.map 0x5000 0x7000 0x1000 .read).after .first .afterFirst) 0x5010 =
      some (0x7010, false) := by
  have hfits : (Call.map 0x5000 0x7000 0x1000 .read).Fits .first .afterFirst := by
    refine ⟨by decide, by decide, by decide, by decide, by decide, fun a slot _ _ hleaf => ?_⟩
    rw [leafOf_bare (holds_newDomain start_four newDomain_four)] at hleaf
    cases hleaf
  have hok := Call.run_of_succeeds (d := .first) (m := .afterFirst) (c := .map 0x5000 0x7000 0x1000 .read)
    (by decide +kernel)
  exact translate_granted start_four newDomain_four (.call (.nil _) hfits hok) (a := 0x5010) (by decide)

/-- Where they do not fit it is not: a page past the tables' 48 bits is mapped at another address, and
unmapping one page of a 2 MiB leaf unmaps the others too. -/
theorem grants_not_exact : (four.Start ∧ newDomain 1 .four = .ok .first .afterFirst) ∧
    ((Call.map (2 ^ 48) 0x7000 0x1000 .read).succeeds .first .afterFirst = true ∧
      Domain.first.translate ((Call.map (2 ^ 48) 0x7000 0x1000 .read).after .first .afterFirst) 0 =
        some (0x7000, false) ∧
      granted [.map (2 ^ 48) 0x7000 0x1000 .read] 0 = none) ∧
    (let big := Call.map 0 0x200000 0x200000 .readWrite
     let one := Call.unmap 0 0x1000
     big.succeeds .first .afterFirst = true ∧ one.succeeds .first (big.after .first .afterFirst) = true ∧
      Domain.first.translate (one.after .first (big.after .first .afterFirst)) 0x1000 = none ∧
      granted [big, one] 0x1000 = some (0x201000, true)) :=
  ⟨⟨start_four, newDomain_four⟩, by decide +kernel⟩

end Kintane.Vtd
