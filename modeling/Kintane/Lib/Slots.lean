import Mathlib.Data.List.Basic

/-!
# Tables of slots with stale handles

A table has a fixed number of slots, each free or holding an entry. Entries are made by owners, and each
entry made is announced by a handle: the slot it was put in and its owner. Slots are reused and handles
survive, so a handle may name a slot that holds a later entry.

`Book` is a table with its history: every handle so far, and for each slot the number of the handle that
announced the latest entry there. What makes handles safe is that owners come one after the other and
each makes all its entries in one go (`During`): then an entry found in a handle's slot under a handle's
owner is the one it announced (`Ok.current`).
-/

open List

namespace Kintane.Slots

variable {α : Type} {l : List α} {i j slot : Nat} {a b : α} {p : α → Bool}

/-- What is in a slot after one was set. -/
theorem of_set {v u : α} (h : (l.set i v)[j]? = some u) :
    (i = j ∧ u = v ∧ i < l.length) ∨ (i ≠ j ∧ l[j]? = some u) := by
  rw [getElem?_set] at h
  split at h
  · rename_i he
    split at h
    · cases h
      exact .inl ⟨he, rfl, ‹_›⟩
    · cases h
  · exact .inr ⟨‹_›, h⟩

/-- Some slot has what the one at its place had, if that is so at the slot that was set and at the others. -/
theorem at_set {v s : α} {P Q : α → Prop} (hs : l[i]? = some s)
    (h : ∃ u, l[j]? = some u ∧ P u) (here : i = j → P s → Q v) (other : i ≠ j → ∀ u, P u → Q u) :
    ∃ u, (l.set i v)[j]? = some u ∧ Q u := by
  obtain ⟨u, hu, hp⟩ := h
  by_cases hj : i = j
  · subst hj
    cases hs.symm.trans hu
    exact ⟨v, getElem?_set_self (List.getElem?_eq_some_iff.mp hs).1, here rfl hp⟩
  · exact ⟨u, by rw [getElem?_set_ne hj, hu], other hj u hp⟩

abbrev Table (α : Type) := List (Option α)

/-- The first free slot. -/
def position (t : Table α) : Option Nat := t.findIdx? Option.isNone

/-- The entries, by slot. -/
def granted (t : Table α) : List α := t.filterMap id

/-- A slot is freed if `p` holds of its entry. -/
def vacate (t : Table α) (slot : Nat) (p : α → Bool) : Table α :=
  match t[slot]? with
  | some (some a) => if p a then t.set slot none else t
  | _ => t

/-- So is every slot of which it does. -/
def evict (t : Table α) (p : α → Bool) : Table α := t.map fun s => if s.any p then none else s

/-- Slot `i` holds `a`. -/
def Holds (t : Table α) (i : Nat) (a : α) : Prop := t[i]? = some (some a)

variable {t : Table α} {o : Option α}

theorem Holds.unique (h : Holds t i a) (h' : Holds t i b) : a = b :=
  Option.some.inj (Option.some.inj (h.symm.trans h'))

theorem free_of_position (h : position t = some i) : t[i]? = some none := by
  obtain ⟨hlt, hnone, -⟩ := findIdx?_eq_some_iff_getElem.mp h
  rw [getElem?_eq_getElem hlt, Option.isNone_iff_eq_none.mp hnone]

theorem mem_granted : a ∈ granted t ↔ ∃ i, Holds t i a := by
  unfold granted Holds
  rw [mem_filterMap]
  constructor
  · rintro ⟨o, ho, rfl⟩
    exact mem_iff_getElem?.mp ho
  · rintro ⟨i, hi⟩
    exact ⟨some a, mem_of_getElem? hi, rfl⟩

theorem holds_set_some (hfree : t[slot]? = some none) :
    Holds (t.set slot (some a)) i b ↔ (i = slot ∧ b = a) ∨ Holds t i b := by
  have hlt : slot < t.length := (List.getElem?_eq_some_iff.mp hfree).1
  unfold Holds
  rw [getElem?_set]
  by_cases hi : slot = i
  · subst hi
    rw [if_pos rfl, if_pos hlt, hfree]
    simp [eq_comm]
  · rw [if_neg hi]
    simp [Ne.symm hi]

theorem holds_set_none : Holds (t.set slot none) i b ↔ i ≠ slot ∧ Holds t i b := by
  unfold Holds
  rw [getElem?_set]
  by_cases hi : slot = i
  · subst hi
    rw [if_pos rfl]
    split <;> simp
  · rw [if_neg hi]
    simp [Ne.symm hi]

theorem vacate_eq (t : Table α) (slot : Nat) (p : α → Bool) :
    (vacate t slot p = t ∧ ∀ a, Holds t slot a → ¬p a = true) ∨
      ∃ a, Holds t slot a ∧ p a = true ∧ vacate t slot p = t.set slot none := by
  unfold vacate
  split
  · next a ha =>
    by_cases hp : p a = true
    · exact .inr ⟨a, ha, hp, if_pos hp⟩
    · exact .inl ⟨if_neg hp, fun b hb => Holds.unique ha hb ▸ hp⟩
  · next hno => exact .inl ⟨rfl, fun a ha => absurd ha (hno a)⟩

theorem holds_vacate : Holds (vacate t slot p) i b ↔ Holds t i b ∧ ¬(i = slot ∧ p b = true) := by
  rcases vacate_eq t slot p with ⟨he, hno⟩ | ⟨a, ha, hp, he⟩ <;> rw [he]
  · refine ⟨fun h => ⟨h, ?_⟩, And.left⟩
    rintro ⟨rfl, hb⟩
    exact hno b h hb
  · rw [holds_set_none, and_comm]
    refine and_congr_right fun h => ⟨fun hne he => hne he.1, fun hne he => hne ⟨he, ?_⟩⟩
    subst he
    rwa [Holds.unique h ha]

theorem holds_evict : Holds (evict t p) i b ↔ Holds t i b ∧ p b = false := by
  unfold Holds evict
  rw [getElem?_map]
  cases t[i]? with
  | none => simp
  | some s =>
    cases s with
    | none => simp
    | some a =>
      by_cases hp : p a = true
      · simp [hp]
        rintro rfl
        exact hp
      · simp [hp]
        rintro rfl
        simpa using hp

@[simp] theorem length_evict : (evict t p).length = t.length := length_map _

/-- A table is its length and its entries. -/
theorem ext {t' : Table α} (hlen : t.length = t'.length) (h : ∀ i a, Holds t i a ↔ Holds t' i a) : t = t' := by
  refine ext_getElem hlen fun i h1 h2 => Option.ext fun a => ?_
  have hi := h i a
  rwa [Holds, Holds, getElem?_eq_getElem h1, getElem?_eq_getElem h2, Option.some_inj, Option.some_inj] at hi

/-! ## The order of the entries -/

/-- The first entry that is meant, with its slot. -/
def find (t : Table α) (p : α → Bool) : Option (Nat × α) :=
  (t.findIdx? (Option.any p)).bind fun i => t[i]?.join.map (i, ·)

theorem granted_set (h : i < t.length) :
    granted (t.set i o) = granted (t.take i) ++ (o.toList ++ granted (t.drop (i + 1))) := by
  rw [set_eq_take_append_cons_drop, if_pos h]
  cases o <;> simp [granted]

theorem granted_at (h : t[i]? = some o) :
    granted t = granted (t.take i) ++ (o.toList ++ granted (t.drop (i + 1))) := by
  obtain ⟨hlt, rfl⟩ := List.getElem?_eq_some_iff.mp h
  rw [← granted_set hlt, set_getElem_self]

/-- An entry in a free slot, if no later one is like it, comes last. -/
theorem filter_put (hfree : t[i]? = some none) (q : α → Bool)
    (hlater : q a = true → ∀ b ∈ granted (t.drop (i + 1)), ¬q b = true) :
    (granted (t.set i (some a))).filter q = (granted t).filter q ++ [a].filter q := by
  rw [granted_set (List.getElem?_eq_some_iff.mp hfree).1, granted_at hfree]
  simp only [filter_append, Option.toList_some, Option.toList_none, nil_append, append_assoc]
  cases hq : q a with
  | false => simp [hq]
  | true => rw [filter_eq_nil_iff.mpr (hlater hq), append_nil, nil_append]

theorem of_find (h : find t p = some (i, a)) : Holds t i a ∧ p a = true ∧ ∀ b ∈ granted (t.take i), ¬p b = true := by
  obtain ⟨j, hj, hm⟩ := Option.bind_eq_some_iff.mp h
  obtain ⟨b, hb, hp⟩ := Option.map_eq_some_iff.mp hm
  cases hp
  obtain ⟨hlt, hany, hbefore⟩ := findIdx?_eq_some_iff_getElem.mp hj
  have hat : t[i]? = some (some a) := Option.join_eq_some_iff.mp hb
  refine ⟨hat, ?_, fun b hb hpb => ?_⟩
  · rw [getElem?_eq_getElem hlt] at hat
    rwa [Option.some.inj hat] at hany
  · obtain ⟨o, ho, rfl⟩ := mem_filterMap.mp hb
    obtain ⟨k, hk, hkb⟩ := mem_take_iff_getElem.mp ho
    refine hbefore k (by omega) ?_
    rw [hkb]
    exact hpb

/-- What is left when the first entry that is meant is taken, of those meant and of others. -/
theorem filter_take (h : find t p = some (i, a)) {q : α → Bool} (hq : q a = true → q = p) :
    [a].filter q ++ (granted (t.set i none)).filter q = (granted t).filter q := by
  obtain ⟨hat, -, hbefore⟩ := of_find h
  rw [granted_set (List.getElem?_eq_some_iff.mp hat).1, granted_at hat]
  simp only [filter_append, Option.toList_some, Option.toList_none, nil_append]
  cases hqa : q a with
  | false => simp [hqa]
  | true =>
    obtain rfl := hq hqa
    rw [filter_eq_nil_iff.mpr hbefore, nil_append, nil_append]

/-- The first entry that is meant, looked for among the entries. -/
theorem find_granted (t : Table α) (p : α → Bool) : (granted t).find? p = (find t p).map Prod.snd := by
  rw [← head?_filter]
  cases h : find t p with
  | some found =>
    rw [← filter_take h fun _ => rfl, filter_cons_of_pos (of_find h).2.1]
    rfl
  | none =>
    refine head?_eq_none_iff.mpr (filter_eq_nil_iff.mpr fun a ha hp => ?_)
    obtain ⟨i, hi⟩ := mem_granted.mp ha
    obtain ⟨hlt, hi⟩ := List.getElem?_eq_some_iff.mp hi
    obtain ⟨j, hj⟩ : ∃ j, t.findIdx? (Option.any p) = some j := by
      rw [← Option.isSome_iff_exists, findIdx?_isSome, any_eq_true]
      exact ⟨_, getElem_mem hlt, hi ▸ hp⟩
    obtain ⟨hjt, hany, -⟩ := findIdx?_eq_some_iff_getElem.mp hj
    cases hb : t[j] with
    | none =>
      rw [hb] at hany
      cases hany
    | some b => simp [find, hj, getElem?_eq_getElem hjt, hb] at h

/-! ## Books -/

/-- A table with the handles to it. -/
structure Book (α : Type) where
  table : Table α
  /-- Of each slot, the number of the handle that announced its latest entry. -/
  filled : Nat → Nat
  /-- Of each handle so far, the slot and the owner. -/
  handles : List (Nat × Nat)

namespace Book

variable {owner : α → Nat} {apart : α → α → Prop} {next o n s : Nat} {book : Book α} {base : Table α}

/-- An entry made in a free slot. -/
def grant (book : Book α) (slot : Nat) (a : α) (o : Nat) : Book α where
  table := book.table.set slot (some a)
  filled := fun i => if i = slot then book.handles.length else book.filled i
  handles := book.handles ++ [(slot, o)]

/-- What holds of a book all the time; `next` is the next owner. -/
structure Ok (owner : α → Nat) (apart : α → α → Prop) (next : Nat) (book : Book α) : Prop where
  apart : ∀ {i j a b}, i ≠ j → Holds book.table i a → Holds book.table j b → apart a b
  older : ∀ {i a}, Holds book.table i a → owner a < next
  returned : ∀ {n s o : Nat}, book.handles[n]? = some (s, o) → o < next
  /-- What is found in a handle's slot under its owner is what it announced. -/
  current : ∀ {n s o : Nat} {a : α}, book.handles[n]? = some (s, o) → Holds book.table s a → owner a = o → book.filled s = n

/-- While owner `o` makes its entries, in a table that was `base`. -/
structure During (owner : α → Nat) (o : Nat) (base : Table α) (book : Book α) : Prop where
  length : book.table.length = base.length
  kept : ∀ {i a}, Holds base i a → Holds book.table i a
  new : ∀ {i a}, Holds book.table i a → owner a ≠ o → Holds base i a
  fresh : ∀ {i a}, Holds base i a → owner a ≠ o
  /-- None of its entries is gone. -/
  held : ∀ {n s : Nat}, book.handles[n]? = some (s, o) → ∃ a, Holds book.table s a

theorem Ok.begin (h : book.Ok owner apart next) :
    book.Ok owner apart (next + 1) ∧ book.During owner next book.table := by
  refine ⟨⟨h.apart, fun hi => Nat.lt_succ_of_lt (h.older hi), fun hn => Nat.lt_succ_of_lt (h.returned hn),
    h.current⟩, rfl, id, fun hi _ => hi, fun hi => Nat.ne_of_lt (h.older hi), fun hn => ?_⟩
  exact absurd (h.returned hn) (Nat.lt_irrefl _)

theorem grant_handle {o' : Nat} (h : (book.grant slot a o).handles[n]? = some (s, o')) :
    book.handles[n]? = some (s, o') ∨ (n = book.handles.length ∧ s = slot ∧ o' = o) := by
  change (book.handles ++ [(slot, o)])[n]? = _ at h
  rw [getElem?_append, getElem?_singleton] at h
  split_ifs at h with hlt heq
  · exact .inl h
  · cases h
    exact .inr ⟨by omega, rfl, rfl⟩

/-- **An entry is made** by the owner whose turn it is, apart from the others. -/
theorem Ok.grant (h : book.Ok owner apart (o + 1)) (hd : book.During owner o base)
    (hfree : book.table[slot]? = some none) (howner : owner a = o)
    (hsymm : ∀ {x y}, apart x y → apart y x) (hapart : ∀ b ∈ granted book.table, apart a b) :
    (book.grant slot a o).Ok owner apart (o + 1) ∧ (book.grant slot a o).During owner o base := by
  have hset : ∀ {i b}, Holds (book.grant slot a o).table i b ↔ (i = slot ∧ b = a) ∨ Holds book.table i b :=
    holds_set_some hfree
  have hempty : ∀ {b}, ¬Holds book.table slot b := by
    intro b hb
    rw [Holds, hfree] at hb
    cases hb
  refine ⟨⟨fun {i j x y} hne hx hy => ?_, fun hx => ?_, fun hn => ?_, fun {n s o' b} hn hb ho => ?_⟩, ?_,
    fun hi => hset.mpr (.inr (hd.kept hi)), fun {i b} hi hb => ?_, hd.fresh, fun {n s} hn => ?_⟩
  · rcases hset.mp hx with ⟨rfl, rfl⟩ | hx'
    · rcases hset.mp hy with ⟨rfl, rfl⟩ | hy'
      · exact absurd rfl hne
      · exact hapart _ (mem_granted.mpr ⟨_, hy'⟩)
    · rcases hset.mp hy with ⟨rfl, rfl⟩ | hy'
      · exact hsymm (hapart _ (mem_granted.mpr ⟨_, hx'⟩))
      · exact h.apart hne hx' hy'
  · rcases hset.mp hx with ⟨-, rfl⟩ | hx
    · omega
    · exact h.older hx
  · rcases grant_handle hn with hn | ⟨-, -, rfl⟩
    · exact h.returned hn
    · omega
  · -- an older handle's entry is where it was, or the slot was reused by another owner
    show (if s = slot then _ else _) = n
    rcases grant_handle hn with hold | ⟨rfl, rfl, -⟩
    · by_cases hs : s = slot
      · subst hs
        exfalso
        rcases hset.mp hb with ⟨-, rfl⟩ | hb'
        · obtain ⟨c, hc⟩ := hd.held (n := n) (by rw [hold, ← ho, howner])
          exact hempty hc
        · exact hempty hb'
      · rw [if_neg hs]
        rcases hset.mp hb with ⟨he, -⟩ | hb'
        · exact absurd he hs
        · exact h.current hold hb' ho
    · exact if_pos rfl
  · show (book.table.set slot (some a)).length = _
    rw [length_set]
    exact hd.length
  · rcases hset.mp hi with ⟨-, rfl⟩ | hi
    · exact absurd howner hb
    · exact hd.new hi hb
  · rcases grant_handle hn with hn | ⟨-, rfl, -⟩
    · obtain ⟨c, hc⟩ := hd.held hn
      exact ⟨c, hset.mpr (.inr hc)⟩
    · exact ⟨a, hset.mpr (.inl ⟨rfl, rfl⟩)⟩

/-- Entries may go. -/
theorem Ok.shrink (h : book.Ok owner apart next) (hsub : ∀ {i a}, Holds t i a → Holds book.table i a) :
    ({ book with table := t } : Book α).Ok owner apart next :=
  ⟨fun hne hx hy => h.apart hne (hsub hx) (hsub hy), fun hx => h.older (hsub hx), h.returned,
    fun hn hx ho => h.current hn (hsub hx) ho⟩

/-- **Taking back** all an owner made leaves what was there before it began. -/
theorem During.evict (hd : book.During owner o base)
    (hp : ∀ a, p a = true ↔ owner a = o) : evict book.table p = base := by
  refine ext (by rw [length_evict, hd.length]) fun i a => ?_
  rw [holds_evict, ← Bool.not_eq_true, hp]
  exact ⟨fun h => hd.new h.1 h.2, fun h => ⟨hd.kept h, hd.fresh h⟩⟩

/-- **Freeing a handle's slot** frees its own entry or nothing. -/
theorem Ok.vacate (h : book.Ok owner apart next) (hn : book.handles[n]? = some (s, o))
    (hp : ∀ a, p a = true → owner a = o) :
    vacate book.table s p = book.table ∨
      (book.filled s = n ∧ vacate book.table s p = book.table.set s none) := by
  rcases vacate_eq book.table s p with ⟨he, -⟩ | ⟨a, ha, hpa, he⟩
  · exact .inl he
  · exact .inr ⟨h.current hn ha (hp a hpa), he⟩

end Book

end Kintane.Slots
