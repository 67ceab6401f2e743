import Mathlib.Data.Nat.Basic
import Mathlib.Tactic.SplitIfs

/-!
# Radix trees with leaves at every level

Keys are numbers below a span. Level `0` cuts the span into blocks of `size 0` keys, level
`l + 1` joins `entries l` blocks of level `l` into one. A tree says of each block of each
level whether it is a hole, a leaf that serves the whole block, or a table of the blocks
one level down. Tables carry a name, so that a tree can be laid out in memory.

A tree is a function of level and block number rather than a nested type: an edit changes
it at one place, and the place an address leads to is plain division. What makes such a
function a tree is `Wf`: nothing hangs below a hole or a leaf, and no two tables share a
name.

The results used elsewhere are that a key has at most one leaf (`lookup_eq_some`), and what
each edit does to every key's leaf.
-/

namespace Kintane

/-- How many keys a block of each level has, and how many blocks a table. -/
structure Radix where
  levels : Nat
  size : Nat → Nat
  entries : Nat → Nat
  levels_pos : 0 < levels
  size_pos : ∀ l, 0 < size l
  entries_pos : ∀ l, 0 < entries l
  size_succ : ∀ l, size (l + 1) = size l * entries l

namespace Radix

inductive Node (τ α : Type) where
  | hole
  | leaf (a : α)
  | table (t : τ)
  deriving DecidableEq

theorem Node.ne_hole_of_leaf {τ α : Type} {n : Node τ α} {a : α} (h : n = .leaf a) :
    n ≠ .hole := by rw [h]; exact nofun

/-- What stands for each block of each level. -/
abbrev Tree (τ α : Type) := Nat → Nat → Node τ α

variable {τ α : Type} (g : Radix) {r l b k : Nat} {root t : τ} {T T' : Tree τ α} {a : α}

/-- The number of keys. -/
def span : Nat := g.size g.levels

def top : Nat := g.levels - 1

theorem succ_top : g.top + 1 = g.levels := Nat.sub_add_cancel g.levels_pos

/-- A block one level up is the block divided by the number of entries. -/
theorem div_div (r l : Nat) : r / g.size l / g.entries l = r / g.size (l + 1) := by
  rw [Nat.div_div_eq_div_mul, g.size_succ]

theorem size_dvd (h : l ≤ k) : g.size l ∣ g.size k := by
  induction k, h using Nat.le_induction with
  | base => exact Nat.dvd_refl _
  | succ k _ ih => exact Nat.dvd_trans ih ⟨g.entries k, g.size_succ k⟩

/-- Blocks agree from the level where they agree on. -/
theorem div_eq_of_le {s : Nat} (h : l ≤ k) (he : r / g.size l = s / g.size l) : r / g.size k = s / g.size k := by
  obtain ⟨c, hc⟩ := g.size_dvd h
  rw [hc, ← Nat.div_div_eq_div_mul, ← Nat.div_div_eq_div_mul, he]

/-- The first key of a block. -/
theorem block_start (l b : Nat) : b * g.size l / g.size l = b := Nat.mul_div_cancel _ (g.size_pos l)

/-- The table a block stands in; the root's blocks are numbered from zero. -/
def home (root : τ) (T : Tree τ α) (l b : Nat) : Option τ :=
  if l + 1 = g.levels then
    if b < g.entries l then some root else none
  else if l + 1 < g.levels then
    match T (l + 1) (b / g.entries l) with
    | .table t => some t
    | _ => none
  else none

variable {g}

theorem home_below (hl : l + 1 < g.levels)
    (ht : T (l + 1) (b / g.entries l) = .table t) : g.home root T l b = some t := by
  unfold home
  rw [if_neg (ne_of_lt hl), if_pos hl, ht]

/-- A block's table is the root, or is named one level up. -/
theorem home_cases (h : g.home root T l b = some t) : (l + 1 = g.levels ∧ b < g.entries l ∧ t = root) ∨
      (l + 1 < g.levels ∧ T (l + 1) (b / g.entries l) = .table t) := by
  unfold home at h
  split_ifs at h with h1 h2 h3
  · cases h
    exact .inl ⟨h1, h2, rfl⟩
  · split at h
    · next hn =>
      cases h
      exact .inr ⟨h3, hn⟩
    · cases h

theorem home_lt (h : g.home root T l b = some t) : l < g.levels := by
  rcases home_cases h with ⟨h1, -, -⟩ | ⟨h1, -⟩ <;> omega

theorem table_of_home (hl : l + 1 < g.levels) (h : g.home root T l b = some t) :
    T (l + 1) (b / g.entries l) = .table t := by
  rcases home_cases h with ⟨h1, -, -⟩ | ⟨-, h1⟩
  · omega
  · exact h1

/-- `home` reads the tree one level up only. -/
theorem home_congr (h : T' (l + 1) (b / g.entries l) = T (l + 1) (b / g.entries l)) :
    g.home root T' l b = g.home root T l b := by
  unfold home
  rw [h]

/-- The shape of a tree. -/
structure Wf (g : Radix) (root : τ) (T : Tree τ α) : Prop where
  /-- Nothing stands outside the tables. -/
  orphan : ∀ {l b}, g.home root T l b = none → T l b = .hole
  /-- There is no level below the first. -/
  flat : ∀ {b t}, T 0 b ≠ .table t
  /-- A table is in one place. -/
  inj : ∀ {l b l' b' t}, g.home root T l b = some t → g.home root T l' b' = some t →
    l = l' ∧ b / g.entries l = b' / g.entries l'

namespace Wf

theorem home_some (h : g.Wf root T) (hn : T l b ≠ .hole) : ∃ t, g.home root T l b = some t :=
  Option.ne_none_iff_exists'.mp fun hnone => hn (h.orphan hnone)

/-- Above what stands in a table are tables. -/
theorem table_above (h : g.Wf root T) (hlk : l < k) (hk : k < g.levels)
    (ht : g.home root T l (r / g.size l) = some t) : ∃ t', T k (r / g.size k) = .table t' := by
  induction k, hlk using Nat.le_induction with
  | base => exact ⟨t, g.div_div r l ▸ table_of_home hk ht⟩
  | succ k hlk ih =>
    obtain ⟨t', ht'⟩ := ih (by omega)
    obtain ⟨t2, ht2⟩ := h.home_some (by rw [ht']; nofun)
    exact ⟨t2, g.div_div r k ▸ table_of_home hk ht2⟩

end Wf

/-! ## Looking a key up -/

/-- The first thing that is not a table on a key's path from level `l` down, and its level. -/
def find (g : Radix) (T : Tree τ α) : Nat → Nat → Nat × Node τ α
  | 0, r => (0, T 0 (r / g.size 0))
  | l + 1, r =>
    match T (l + 1) (r / g.size (l + 1)) with
    | .table _ => find g T l r
    | n => (l + 1, n)

/-- The leaf that serves a key, and its level. -/
def lookup (g : Radix) (T : Tree τ α) (r : Nat) : Option (Nat × α) :=
  match g.find T g.top r with
  | (l, .leaf a) => some (l, a)
  | _ => none

/-- `find` stops at the first thing that is not a table. -/
theorem find_eq (h : g.Wf root T) (hlk : l ≤ k) (hk : k < g.levels)
    (ht : g.home root T l (r / g.size l) = some t) (hn : ∀ t, T l (r / g.size l) ≠ .table t) :
    g.find T k r = (l, T l (r / g.size l)) := by
  induction k, hlk using Nat.le_induction with
  | base =>
    cases l with
    | zero => rfl
    | succ l =>
      unfold find
      cases hT : T (l + 1) (r / g.size (l + 1)) with
      | hole => rfl
      | leaf a => rfl
      | table t' => exact absurd hT (hn t')
  | succ k hlk ih =>
    obtain ⟨t', ht'⟩ := h.table_above (Nat.lt_succ_of_le hlk) hk ht
    rw [find, ht']
    exact ih (Nat.lt_of_succ_lt hk)

/-- `find` ends in a table's entry that is not a table. -/
theorem find_spec (h : g.Wf root T) (ht : g.home root T k (r / g.size k) = some t) :
    ∃ l u, l ≤ k ∧ g.home root T l (r / g.size l) = some u ∧
      (∀ t, T l (r / g.size l) ≠ .table t) ∧ g.find T k r = (l, T l (r / g.size l)) := by
  induction k generalizing t with
  | zero => exact ⟨0, t, le_rfl, ht, fun _ => h.flat, rfl⟩
  | succ k ih =>
    by_cases hT : ∃ t', T (k + 1) (r / g.size (k + 1)) = .table t'
    · obtain ⟨t', hT⟩ := hT
      have hlt := home_lt ht
      obtain ⟨l, u, hle, hu, hn, he⟩ := ih (home_below hlt (by rw [g.div_div]; exact hT))
      exact ⟨l, u, Nat.le_succ_of_le hle, hu, hn, by rw [find, hT]; exact he⟩
    · have hn : ∀ t, T (k + 1) (r / g.size (k + 1)) ≠ .table t := fun t h => hT ⟨t, h⟩
      exact ⟨k + 1, t, le_rfl, ht, hn, find_eq h le_rfl (home_lt ht) ht hn⟩

theorem home_root (hr : r < g.span) : g.home root T g.top (r / g.size g.top) = some root := by
  rw [home, if_pos g.succ_top, if_pos]
  rw [Nat.div_lt_iff_lt_mul (g.size_pos _), Nat.mul_comm, ← g.size_succ, g.succ_top]
  exact hr

/-- **A key's leaf** is the one leaf whose block the key is in. -/
theorem lookup_eq_some (h : g.Wf root T) (hr : r < g.span) :
    g.lookup T r = some (l, a) ↔ T l (r / g.size l) = .leaf a := by
  constructor
  · intro he
    obtain ⟨l', u, -, -, -, hf⟩ := find_spec h (home_root hr)
    unfold lookup at he
    rw [hf] at he
    split at he
    · next hT =>
      cases he
      cases (Prod.mk.inj hT).1
      exact (Prod.mk.inj hT).2
    · cases he
  · intro he
    obtain ⟨t, ht⟩ := h.home_some (Node.ne_hole_of_leaf he)
    have hle : l ≤ g.top := Nat.le_sub_one_of_lt (home_lt ht)
    have hf := find_eq h hle (Nat.sub_lt g.levels_pos Nat.one_pos) ht fun t => by rw [he]; nofun
    unfold lookup
    rw [hf, he]

theorem lookup_eq_none (h : g.Wf root T) (hr : r < g.span)
    (hno : ∀ l a, T l (r / g.size l) ≠ .leaf a) : g.lookup T r = none := by
  refine Option.eq_none_iff_forall_ne_some.mpr fun (l, a) he => ?_
  exact hno l a ((lookup_eq_some h hr).mp he)

/-- Trees with the same leaves on a key's path serve it alike. -/
theorem lookup_congr (h : g.Wf root T) (h' : g.Wf root T') (hr : r < g.span)
    (hsame : ∀ l a, T' l (r / g.size l) = .leaf a ↔ T l (r / g.size l) = .leaf a) :
    g.lookup T' r = g.lookup T r := by
  refine Option.ext fun (l, a) => ?_
  rw [lookup_eq_some h' hr, lookup_eq_some h hr, hsame]

/-! ## Edits -/

/-- The tree with a table `t` at a block, whose entries are `N`. -/
def link (g : Radix) (T : Tree τ α) (l b : Nat) (t : τ) (N : Nat → Node τ α) : Tree τ α :=
  fun l' b' =>
    if l' = l + 1 ∧ b' = b then .table t
    else if l' = l ∧ b' / g.entries l = b then N (b' % g.entries l)
    else T l' b'

section Link

variable {u : τ}

theorem link_self {N : Nat → Node τ α} : g.link T l b t N (l + 1) b = .table t := if_pos ⟨rfl, rfl⟩

/-- Nothing hangs below what is not a table. -/
theorem Wf.hole_below (h : g.Wf root T) (hold : ∀ u, T (l + 1) b ≠ .table u)
    (hlt : l + 1 < g.levels) {b' : Nat} (hb : b' / g.entries l = b) : T l b' = .hole := by
  refine h.orphan ?_
  exact Option.eq_none_iff_forall_ne_some.mpr fun t ht => hold t (hb ▸ table_of_home hlt ht)

section Empty

variable (h : g.Wf root T) (hu : g.home root T (l + 1) b = some u) (hhole : T (l + 1) b = .hole)
include h hu hhole

/-- An empty table at a hole changes the tree at one place. -/
theorem Wf.link_eq (l' b' : Nat) : g.link T l b t (fun _ => .hole) l' b' =
    if l' = l + 1 ∧ b' = b then .table t else T l' b' := by
  unfold Radix.link
  split
  · rfl
  · split
    · next hin => rw [hin.1, h.hole_below (by rw [hhole]; exact nofun) (home_lt hu) hin.2]
    · rfl

/-- It holds its own entries; what else there was stays. -/
theorem Wf.home_link (l' b' : Nat) : g.home root (g.link T l b t fun _ => .hole) l' b' =
    if l' = l ∧ b' / g.entries l = b then some t else g.home root T l' b' := by
  split
  · next hin =>
    obtain ⟨rfl, rfl⟩ := hin
    exact home_below (home_lt hu) link_self
  · next hin =>
    refine home_congr ((h.link_eq hu hhole ..).trans (if_neg fun he => hin ?_))
    obtain rfl := Nat.succ.inj he.1
    exact ⟨rfl, he.2⟩

/-- **Linking an empty table in** under a new name keeps the shape. -/
theorem Wf.link (hfresh : ∀ l b, g.home root T l b ≠ some t) : g.Wf root (g.link T l b t fun _ => .hole) := by
  have hhome := h.home_link (t := t) hu hhole
  refine ⟨fun {l' b'} hno => ?_, fun {b' v} => ?_, fun {l1 b1 l2 b2 v} h1 h2 => ?_⟩
  · rw [hhome] at hno
    split at hno
    · cases hno
    rw [h.link_eq hu hhole, if_neg, h.orphan hno]
    rintro ⟨rfl, rfl⟩
    cases hu.symm.trans hno
  · rw [h.link_eq hu hhole, if_neg (by omega)]
    exact h.flat
  · rw [hhome] at h1 h2
    split at h1 <;> split at h2
    · next hin1 hin2 =>
      obtain ⟨rfl, hb1⟩ := hin1
      obtain ⟨rfl, hb2⟩ := hin2
      exact ⟨rfl, hb1.trans hb2.symm⟩
    · cases h1
      exact absurd h2 (hfresh _ _)
    · cases h2
      exact absurd h1 (hfresh _ _)
    · exact h.inj h1 h2

end Empty

end Link

/-! ### Replacing a subtree -/

/-- Block `b'` of level `l'` lies in block `b` of the level `l` above it. -/
def Within (g : Radix) (l b l' b' : Nat) : Prop := l' < l ∧ b' * g.size l' / g.size l = b

instance (l b l' b' : Nat) : Decidable (g.Within l b l' b') := inferInstanceAs (Decidable (_ ∧ _))

theorem within_key (l' : Nat) : g.Within l b l' (r / g.size l') ↔ l' < l ∧ r / g.size l = b := by
  refine and_congr_right fun hlt => ?_
  rw [g.div_eq_of_le (le_of_lt hlt) (g.block_start l' (r / g.size l'))]

/-- A block is in another exactly when the table it stands in is, or is the other's own. -/
theorem within_succ {l' b' : Nat} : g.Within l b l' b' ↔
    (l' + 1 = l ∧ b' / g.entries l' = b) ∨ g.Within l b (l' + 1) (b' / g.entries l') := by
  have hkey := within_key (g := g) (l := l) (b := b) l' (r := b' * g.size l')
  have hup := within_key (g := g) (l := l) (b := b) (l' + 1) (r := b' * g.size l')
  rw [← g.div_div, g.block_start] at hup
  rw [g.block_start] at hkey
  rw [hkey, hup]
  constructor
  · intro ⟨hlt, hb⟩
    rcases Nat.lt_or_eq_of_le (Nat.succ_le_of_lt hlt) with h | rfl
    · exact .inr ⟨h, hb⟩
    · refine .inl ⟨rfl, ?_⟩
      rw [← hb, ← g.div_div, g.block_start]
  · rintro (⟨rfl, hb⟩ | ⟨hlt, hb⟩)
    · refine ⟨Nat.lt_succ_self _, ?_⟩
      rw [← g.div_div, g.block_start, hb]
    · exact ⟨Nat.lt_of_succ_lt hlt, hb⟩

/-- The tree with `n` at one place and nothing below it. -/
def put (g : Radix) (T : Tree τ α) (l b : Nat) (n : Node τ α) : Tree τ α := fun l' b' =>
  if l' = l ∧ b' = b then n else if g.Within l b l' b' then .hole else T l' b'

section Put

variable {n : Node τ α} {l' b' : Nat}

theorem put_self : g.put T l b n l b = n := if_pos ⟨rfl, rfl⟩

theorem put_within (h : g.Within l b l' b') : g.put T l b n l' b' = .hole := by
  unfold put
  rw [if_neg (fun he => ne_of_lt h.1 he.1), if_pos h]

theorem put_of_ne (h1 : ¬ (l' = l ∧ b' = b)) (h2 : ¬ g.Within l b l' b') : g.put T l b n l' b' = T l' b' := by
  unfold put
  rw [if_neg h1, if_neg h2]

/-- A leaf of the new tree was put there, or was there before. -/
theorem put_eq_leaf (h : g.put T l b n l' b' = .leaf a) :
    (l' = l ∧ b' = b) ∧ n = .leaf a ∨ ¬ (l' = l ∧ b' = b) ∧ T l' b' = .leaf a := by
  unfold put at h
  split at h
  · exact .inl ⟨‹_›, h⟩
  · split at h
    · cases h
    · exact .inr ⟨‹_›, h⟩

theorem home_put (root : τ) (hl : l < g.levels) (hnew : ∀ u, n ≠ .table u) (l' b' : Nat) :
    g.home root (g.put T l b n) l' b' = if g.Within l b l' b' then none else g.home root T l' b' := by
  by_cases hw : g.Within l b l' b'
  · rw [if_pos hw]
    unfold home
    have hlt := hw.1
    rw [if_neg (by omega), if_pos (by omega)]
    rcases within_succ.mp hw with ⟨rfl, rfl⟩ | hup
    · rw [put_self]
      cases hn : n with
      | hole => rfl
      | leaf a => rfl
      | table u => exact absurd hn (hnew u)
    · rw [put_within hup]
  · rw [if_neg hw]
    refine home_congr (put_of_ne (fun he => hw (within_succ.mpr (.inl he))) fun hup => ?_)
    exact hw (within_succ.mpr (.inr hup))

/-- **Replacing what stands at a block** by a leaf or a hole keeps the shape. -/
theorem Wf.put (h : g.Wf root T) (ht : g.home root T l b = some t) (hnew : ∀ u, n ≠ .table u) :
    g.Wf root (g.put T l b n) := by
  have hhome := home_put root (T := T) (b := b) (home_lt ht) hnew
  have hkeep : ∀ {l' b' u}, g.home root (g.put T l b n) l' b' = some u → g.home root T l' b' = some u := by
    intro l' b' u hu
    rw [hhome] at hu
    by_cases hw : g.Within l b l' b'
    · rw [if_pos hw] at hu
      cases hu
    · rwa [if_neg hw] at hu
  refine ⟨fun {l' b'} hno => ?_, fun {b' u} => ?_, fun h1 h2 => h.inj (hkeep h1) (hkeep h2)⟩
  · rw [hhome] at hno
    by_cases hw : g.Within l b l' b'
    · exact put_within hw
    rw [if_neg hw] at hno
    have hne : ¬ (l' = l ∧ b' = b) := by
      rintro ⟨rfl, rfl⟩
      cases ht.symm.trans hno
    rw [put_of_ne hne hw]
    exact h.orphan hno
  · unfold Radix.put
    split
    · exact hnew u
    · split
      · exact nofun
      · exact h.flat

/-- The block's keys get what was put there, the others keep theirs. -/
theorem lookup_put (h : g.Wf root T) (hr : r < g.span) (ht : g.home root T l b = some t)
    (hnew : ∀ u, n ≠ .table u) :
    g.lookup (g.put T l b n) r =
      if r / g.size l = b then
        match n with
        | .leaf a => some (l, a)
        | _ => none
      else g.lookup T r := by
  have h' := h.put ht hnew
  by_cases hb : r / g.size l = b
  · rw [if_pos hb]
    cases n with
    | table u => exact absurd rfl (hnew u)
    | leaf a => exact (lookup_eq_some h' hr).mpr (by rw [hb, put_self])
    | hole =>
      refine lookup_eq_none h' hr fun k a hk => ?_
      obtain ⟨u, hu⟩ := h'.home_some (Node.ne_hole_of_leaf hk)
      rcases lt_trichotomy k l with hlt | rfl | hlt
      · rw [put_within ((within_key _).mpr ⟨hlt, hb⟩)] at hk
        cases hk
      · rw [hb, put_self] at hk
        cases hk
      · obtain ⟨v, hv⟩ := h.table_above (r := r) hlt (home_lt hu) (hb ▸ ht)
        rw [put_of_ne (fun he => by omega) (fun hw => Nat.lt_asymm hlt hw.1), hv] at hk
        cases hk
  · rw [if_neg hb]
    refine lookup_congr h h' hr fun k a => ?_
    have hne : ¬ (k = l ∧ r / g.size k = b) := fun he => hb (he.1 ▸ he.2)
    rw [put_of_ne hne (fun hw => hb ((within_key _).mp hw).2)]

end Put

end Radix

end Kintane
