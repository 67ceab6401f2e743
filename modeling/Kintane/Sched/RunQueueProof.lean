import Mathlib.Data.Fintype.Card
import Kintane.Sched.RunQueue

/-!
# The run queue is a queue

What a run queue stands for is the list of its threads with their priorities, in the order in
which they came: `Holds`. `Rep` has the slots they are in, and each level's list is the part of them at
that priority. A thread put in goes to the end, one taken out leaves the rest in order, and the next to
run is the earliest of the highest priority.
-/

open List Function

namespace Kintane.RunQueue

open RunQueue Bits List.Nodup Prod

variable {n : Nat} {q q' : RunQueue n} {l : List Queued} {j : Fin n} {id : ThreadId}
  {x y : Queued} {p' : Priority} {is l1 l2 : List (Fin n)}
variable {i s : Fin n} {p : Priority}

/-! ## The fields after the changes -/

section

variable (q i s p) (prev : Option (Fin n))

/-- The slot goes behind the tail of its level, and is the head of one that was empty. -/
theorem linkTail_eq : q.linkTail i p =
    { q with
    slots := fun j => { q.slots j with next := if (q.levels p).tail = some j then some i else q.next j }
    levels := fun p' =>
      if p' = p then ⟨if (q.levels p).tail = none then some i else (q.levels p).head, some i⟩ else q.levels p' } := by
  unfold linkTail setNext setSlot setLevel next
  split <;> simp only [*, Option.some.injEq, reduceCtorEq, if_false, if_true]
  · congr <;> funext j <;> rw [update_apply]
    split <;> simp_all [eq_comm]
  · congr
    funext p'
    exact update_apply ..

/-- What led to the slot leads past it. -/
theorem relink_eq : q.relink s p prev =
    { q with
    slots := fun j => { q.slots j with next := if prev = some j then q.next s else q.next j }
    levels := fun p' =>
      if p' = p then ⟨if prev = none then q.next s else (q.levels p).head, (q.levels p).tail⟩ else q.levels p' } := by
  unfold relink setNext setSlot setLevel next
  split <;> simp only [Option.some.injEq, reduceCtorEq, if_false, if_true] <;> congr <;> funext j
  · split <;> simp_all [eq_comm]
  · split <;> simp_all
  · rw [update_apply]

/-- A level that ended at the slot ends before it. -/
theorem retail_eq : q.retail s p prev =
    { q with levels := fun p' =>
      if p' = p then ⟨(q.levels p).head, if (q.levels p).tail = some s then prev else (q.levels p).tail⟩
      else q.levels p' } := by
  unfold retail setLevel
  split
  · congr
    funext p'
    exact update_apply ..
  · have hsame : (fun p' => if p' = p then ⟨(q.levels p).head, (q.levels p).tail⟩ else q.levels p') = q.levels := by
      funext p'
      split <;> simp_all
    rw [hsame]

/-- A level without a head loses its bit. -/
theorem settle_eq : q.settle p =
    { q with
    nonempty := if (q.levels p).head = none then q.nonempty &&& ~~~one 32 p else q.nonempty } := by
  unfold settle
  split <;> rfl

end

theorem getLsbD_settle (bits : BitVec 32) (c : Prop) [Decidable c] (p p' : Priority) :
    (if c then bits &&& ~~~one 32 p else bits).getLsbD p' = (bits.getLsbD p' && decide (p' = p → ¬c)) := by
  split <;> rename_i hc
  · rw [getLsbD_erase _ _ p.isLt]
    simp [hc, Fin.ext_iff]
  · simp [hc]

/-! ## The threads queued -/

/-- The slots of a list that are at one priority. -/
def level (q : RunQueue n) (is : List (Fin n)) (p : Priority) : List (Fin n) :=
  is.filter fun i => (q.slots i).priority = p

theorem mem_level : i ∈ q.level is p ↔ i ∈ is ∧ (q.slots i).priority = p := by
  rw [level, mem_filter, decide_eq_true_eq]

/-- The threads of a level are those at its priority. -/
theorem map_level (q : RunQueue n) (is : List (Fin n)) (p : Priority) :
    (q.level is p).map q.entry = (is.map q.entry).filter (·.2 = p) := by
  rw [filter_map]
  rfl

/-- The threads queued are those in the slots of `is`, in the order in which they came. -/
structure Rep (q : RunQueue n) (is : List (Fin n)) : Prop where
  chain : ∀ p, Links q.next (q.levels p).head (q.level is p) none
  tail : ∀ p, (q.levels p).tail = (q.level is p).getLast?
  used : ∀ i, (q.slots i).used = true ↔ i ∈ is
  bits : ∀ p : Priority, q.nonempty.getLsbD p = true ↔ q.level is p ≠ []
  len : q.len = is.length
  ids : (is.map fun i => (q.slots i).id).Nodup

theorem rep_new : (new n).Rep [] where
  chain _ := rfl
  tail _ := rfl
  used _ := by simp [new]
  bits _ := by simp [new, level]
  len := rfl
  ids := nodup_nil

namespace Rep

variable (h : q.Rep is)
include h

theorem nodup : is.Nodup := of_map _ h.ids

theorem slot_eq (hi : i ∈ is) (hj : j ∈ is) (hid : (q.slots i).id = (q.slots j).id) : i = j :=
  inj_on_of_nodup_map h.ids hi hj hid

/-- A thread is in the one used slot that has its id. -/
theorem find_eq_some : q.find id = some i ↔ i ∈ is ∧ (q.slots i).id = id := by
  constructor
  · intro hf
    have := find?_some hf
    rwa [Bool.and_eq_true, h.used, decide_eq_true_eq] at this
  · rintro ⟨hi, hid⟩
    cases hf : q.find id with
    | none =>
      have := find?_eq_none.mp hf i (mem_finRange i)
      simp [hid, (h.used i).mpr hi] at this
    | some j =>
      have hj := find?_some hf
      rw [Bool.and_eq_true, h.used, decide_eq_true_eq] at hj
      rw [h.slot_eq hi hj.1 (hid.trans hj.2.symm)]

theorem contains_iff : q.contains id = true ↔ ∃ i ∈ is, (q.slots i).id = id := by
  rw [contains, Option.isSome_iff_exists]
  exact exists_congr fun i => h.find_eq_some

theorem length_le : is.length ≤ n := by
  simpa using h.nodup.length_le_card

end Rep

/-! ## A thread taken out -/

/-- `q'` is `q` without slot `s`, which level `p` has between `l1` and `l2`. -/
structure Unlinked (q q' : RunQueue n) (p : Priority) (l1 : List (Fin n)) (s : Fin n)
    (l2 : List (Fin n)) : Prop where
  head : (q'.levels p).head = if l1 = [] then q.next s else (q.levels p).head
  tail : (q'.levels p).tail = if l2 = [] then l1.getLast? else (q.levels p).tail
  levels : ∀ p' ≠ p, q'.levels p' = q.levels p'
  slots : ∀ i ≠ s, q'.slots i =
    { q.slots i with next := if l1.getLast? = some i then q.next s else q.next i }
  unused : (q'.slots s).used = false
  bits : ∀ p' : Priority, q'.nonempty.getLsbD p' =
    (q.nonempty.getLsbD p' && decide (p' = p → l1 ++ l2 ≠ []))
  len : q'.len = q.len - 1

namespace Rep

variable (h : q.Rep is) (hix : q.level is p = l1 ++ s :: l2)
include h hix

omit h in
theorem mem_middle : s ∈ is ∧ (q.slots s).priority = p :=
  mem_level.mp (hix ▸ mem_append_right _ mem_cons_self)

theorem notMem_parts : s ∉ l1 ∧ s ∉ l2 := by
  have hn : (q.level is p).Nodup := h.nodup.filter _
  rw [hix, nodup_append, nodup_cons] at hn
  exact ⟨fun hs => hn.2.2 s hs s mem_cons_self rfl, hn.2.1.1⟩

variable (hu : q.Unlinked q' p l1 s l2)

include hu

/-- What is left of each level. -/
theorem level_unlinked (p' : Priority) :
    q'.level (is.erase s) p' = if p' = p then l1 ++ l2 else q.level is p' := by
  have hsame : q'.level (is.erase s) p' = (q.level is p').erase s := by
    rw [level, level, (h.nodup.filter _).erase_eq_filter, filter_comm, ← h.nodup.erase_eq_filter]
    exact filter_congr fun i hi => by rw [hu.slots i (h.nodup.mem_erase_iff.mp hi).1]
  rw [hsame]
  split
  · subst p'
    rw [hix, erase_append_right _ (h.notMem_parts hix).1, erase_cons_head]
  · next hp => exact erase_of_not_mem fun hs => hp ((mem_level.mp hs).2.symm.trans (mem_middle hix).2)

theorem chain_unlinked (p' : Priority) :
    Links q'.next (q'.levels p').head (q'.level (is.erase s) p') none := by
  rw [h.level_unlinked hix hu]
  split
  · subst p'
    rw [hu.head]
    refine Links.unlink (hix ▸ h.chain p) (hix ▸ h.nodup.filter _) fun i hi => ?_
    refine congrArg QueueSlot.next (hu.slots i ?_)
    rintro rfl
    exact (mem_append.mp hi).elim (h.notMem_parts hix).1 (h.notMem_parts hix).2
  next hp =>
  rw [hu.levels p' hp]
  -- no slot of another level is `s` or the one before it
  refine (h.chain p').frame fun i hi => ?_
  have hi := (mem_level.mp hi).2
  rw [next, hu.slots i]
  · refine if_neg fun hlast => hp (hi.symm.trans ?_)
    exact (mem_level.mp (hix ▸ mem_append_left _ (mem_of_getLast? hlast))).2
  · rintro rfl
    exact hp (hi.symm.trans (mem_middle hix).2)

theorem tail_unlinked (p' : Priority) :
    (q'.levels p').tail = (q'.level (is.erase s) p').getLast? := by
  rw [h.level_unlinked hix hu]
  split
  · subst p'
    rw [hu.tail, h.tail, hix]
    cases l2 with
    | nil => simp
    | cons x l2 => simp [getLast?_append, getLast?_cons]
  · next hp => rw [hu.levels p' hp, h.tail]

theorem bits_unlinked (p' : Priority) :
    q'.nonempty.getLsbD p' = true ↔ q'.level (is.erase s) p' ≠ [] := by
  rw [h.level_unlinked hix hu, hu.bits, Bool.and_eq_true, h.bits, decide_eq_true_eq]
  split
  · next hp =>
    refine ⟨fun hb => hb.2 hp, fun hne => ⟨?_, fun _ => hne⟩⟩
    rw [hp, hix]
    exact append_ne_nil_of_right_ne_nil _ (cons_ne_nil s l2)
  · next hp => exact and_iff_left fun heq => absurd heq hp

/-- **Taking a slot out** of its level leaves the others in their order. -/
theorem unlinked : q'.Rep (is.erase s) where
  chain := h.chain_unlinked hix hu
  tail := h.tail_unlinked hix hu
  used i := by
    rw [h.nodup.mem_erase_iff, ← h.used]
    by_cases hi : i = s
    · simp [hi, hu.unused]
    · simp [hu.slots i hi, hi]
  bits := h.bits_unlinked hix hu
  len := by rw [hu.len, h.len, length_erase_of_mem (mem_middle hix).1]
  ids := by
    rw [map_congr_left fun i hi => congrArg QueueSlot.id (hu.slots i (h.nodup.mem_erase_iff.mp hi).1)]
    exact h.ids.sublist ((erase_sublist ..).map _)

/-- Those left are the threads with another id. -/
theorem map_unlinked : (is.erase s).map q'.entry = (is.map q.entry).filter (·.1 ≠ (q.entry s).1) := by
  have hentry (i : Fin n) (hi : i ∈ is.erase s) : q'.entry i = q.entry i := by
    rw [entry, hu.slots i (h.nodup.mem_erase_iff.mp hi).1]
    rfl
  rw [map_congr_left hentry, h.nodup.erase_eq_filter, filter_map]
  refine congrArg _ (filter_congr fun i hi => ?_)
  rw [Bool.eq_iff_iff, bne_iff_ne, Function.comp, decide_eq_true_eq]
  exact not_congr ⟨fun he => he ▸ rfl, h.slot_eq hi (mem_middle hix).1⟩

end Rep

/-! ### The two ways of taking one out -/

namespace Rep

variable (h : q.Rep is) (hix : q.level is p = l1 ++ s :: l2)
include h hix

theorem tail_eq_iff : (q.levels p).tail = some s ↔ l2 = [] := by
  have hn := (h.notMem_parts hix).2
  rw [h.tail, hix]
  cases l2 with
  | nil => simp
  | cons x l2 =>
    rw [getLast?_append_of_ne_nil _ (cons_ne_nil _ _), getLast?_cons_cons]
    refine iff_of_false (fun hlast => ?_) (cons_ne_nil _ _)
    exact hn (mem_of_getLast? hlast)

/-- The link of a slot leads to the rest of its list. -/
theorem next_eq_head : q.next s = l2.head? := by
  obtain ⟨c, -, -, h2⟩ := Links.append_iff.mp (hix ▸ h.chain p)
  exact h2.head?

theorem head_eq_head : (q.levels p).head = (l1 ++ s :: l2).head? := by
  rw [← hix]
  exact (h.chain p).head?

theorem head_none_iff :
    (if l1 = [] then q.next s else (q.levels p).head) = none ↔ l1 ++ l2 = [] := by
  rw [h.next_eq_head hix, h.head_eq_head hix]
  cases l1 with
  | nil => simp
  | cons x l1 => simp

/-- `remove` takes a slot out from anywhere in its level. -/
theorem unlinked_relink : q.Unlinked
      { ((((q.relink s p l1.getLast?).retail s p l1.getLast?).settle p).setUnused s).setNext s none with
        len := q.len - 1 } p l1 s l2 := by
  rw [relink_eq, retail_eq, settle_eq]
  constructor
  case head => simp [setUnused, setNext, setSlot, getLast?_eq_none_iff]
  case tail => simp [setUnused, setNext, setSlot, h.tail_eq_iff hix]
  case levels =>
    intro p' hp
    simp [setUnused, setNext, setSlot, hp]
  case slots =>
    intro i hi
    simp [setUnused, setNext, setSlot, next, hi]
  case unused => simp [setUnused, setNext, setSlot]
  case bits =>
    intro p'
    refine (getLsbD_settle ..).trans ?_
    simp [getLast?_eq_none_iff, h.head_none_iff hix]
  case len => rfl

/-- The first of a level is taken out as any other. -/
theorem unlinked_unlinkHead (h1 : l1 = []) :
    q.Unlinked { (q.unlinkHead p).setUnused s with len := q.len - 1 } p l1 s l2 := by
  subst h1
  have hhead : (q.levels p).head = some s := h.head_eq_head hix
  have hnext := h.next_eq_head hix
  have htail : (if q.next s = none then none else (q.levels p).tail) =
      if l2 = [] then none else (q.levels p).tail := by
    rw [hnext]
    simp only [head?_eq_none_iff]
  simp only [unlinkHead, hhead, htail, settle_eq]
  constructor
  case head => simp [setUnused, setNext, setSlot, setLevel]
  case tail => simp [setUnused, setNext, setSlot, setLevel]
  case levels =>
    intro p' hp
    simp [setUnused, setNext, setSlot, setLevel, hp]
  case slots =>
    intro i hi
    simp [setUnused, setNext, setSlot, setLevel, next, hi]
  case unused => simp [setUnused, setSlot]
  case bits =>
    intro p'
    refine (getLsbD_settle ..).trans ?_
    simp [setLevel, hnext]
  case len => rfl

end Rep

/-! ## A thread put in -/

/-- The queue with a thread put into slot `i`, behind the last of its level. -/
def pushed (q : RunQueue n) (i : Fin n) (id : ThreadId) (p : Priority) : RunQueue n :=
  let q := (q.setSlot i ⟨id, p, none, true⟩).linkTail i p
  { q with nonempty := q.nonempty ||| one 32 p, len := q.len + 1 }

theorem pushed_eq (ht : (q.levels p).tail ≠ some i) : q.pushed i id p = {
    slots := fun j => if j = i then ⟨id, p, none, true⟩
      else { q.slots j with next := if (q.levels p).tail = some j then some i else q.next j }
    levels := fun p' =>
      if p' = p then ⟨if (q.levels p).tail = none then some i else (q.levels p).head, some i⟩ else q.levels p'
    nonempty := q.nonempty ||| one 32 p
    len := q.len + 1 } := by
  simp only [pushed, linkTail_eq, setSlot, next]
  congr
  funext j
  by_cases hj : j = i
  · simp [hj, ht]
  · simp [hj]

/-- **Putting a thread in** makes it the last to have come. -/
theorem Rep.pushed (h : q.Rep is) (hi : (q.slots i).used = false) (hid : ∀ j ∈ is, (q.slots j).id ≠ id) :
    (q.pushed i id p).Rep (is ++ [i]) ∧ (is ++ [i]).map (q.pushed i id p).entry = is.map q.entry ++ [(id, p)] := by
  have hfree : i ∉ is := by
    rw [← h.used, hi]
    exact Bool.false_ne_true
  have hne {j : Fin n} (hj : j ∈ is) : j ≠ i := fun heq => hfree (heq ▸ hj)
  have htail {p' : Priority} {j : Fin n} (hj : (q.levels p').tail = some j) : j ∈ is ∧ (q.slots j).priority = p' :=
    mem_level.mp (mem_of_getLast? ((h.tail p').symm.trans hj))
  rw [pushed_eq fun ht => hfree (htail ht).1]
  generalize hq : RunQueue.mk (n := n) _ _ _ _ = q'
  have hself : q'.slots i = ⟨id, p, none, true⟩ := by simp [← hq]
  have hslots : ∀ j ∈ is, q'.slots j = { q.slots j with
      next := if (q.levels p).tail = some j then some i else q.next j } := fun j hj => by simp [← hq, hne hj]
  have hlevels (p' : Priority) : q'.levels p' =
      if p' = p then ⟨if q.level is p = [] then some i else (q.levels p).head, some i⟩ else q.levels p' := by
    simp [← hq, h.tail, getLast?_eq_none_iff]
  have hlevel (p' : Priority) : q'.level (is ++ [i]) p' = if p' = p then q.level is p ++ [i] else q.level is p' := by
    rw [level, filter_append, filter_singleton, hself,
      filter_congr (q := fun j => decide ((q.slots j).priority = p')) fun j hj => by rw [hslots j hj]]
    split
    · next hp => simp [hp, level]
    · next hp => simp [Ne.symm hp, level]
  refine ⟨⟨fun p' => ?_, fun p' => ?_, fun j => ?_, fun p' => ?_, ?_, ?_⟩, ?_⟩
  · rw [hlevel, hlevels]
    split
    · refine Links.concat (h.chain p) (h.nodup.filter _) (congrArg QueueSlot.next hself) fun j hj => ?_
      rw [next, hslots j (mem_level.mp hj).1, h.tail]
    · next hp =>
      -- the last of level `p` is on no other level
      refine (h.chain p').frame fun j hj => ?_
      obtain ⟨hj, hpj⟩ := mem_level.mp hj
      rw [next, hslots j hj]
      exact if_neg fun ht => hp (hpj.symm.trans (htail ht).2)
  · rw [hlevel, hlevels]
    split
    · simp
    · exact h.tail p'
  · by_cases hj : j = i
    · simp [hj, hself]
    · simp [← hq, hj, h.used]
  · rw [hlevel, ← hq, BitVec.getLsbD_or, getLsbD_one _ p.isLt, Bool.or_eq_true, decide_eq_true_eq, h.bits]
    split
    · next hp => simp [hp]
    · next hp => exact or_iff_left fun heq => hp (Fin.ext heq)
  · simp [← hq, h.len]
  · rw [map_append, map_congr_left fun j hj => congrArg QueueSlot.id (hslots j hj), map_singleton, hself]
    refine append h.ids (nodup_singleton id) ?_
    rw [disjoint_singleton]
    intro hmem
    obtain ⟨j, hj, rfl⟩ := mem_map.mp hmem
    exact hid j hj rfl
  · have hentry (j : Fin n) (hj : j ∈ is) : q'.entry j = q.entry j := by
      rw [entry, hslots j hj]
      rfl
    rw [map_append, map_congr_left hentry, map_singleton, entry, hself]

/-! ## The next to run -/

/-- `x` is the earliest of the highest priority. -/
def IsNext (l : List Queued) (x : Queued) : Prop :=
  (l.filter (·.2 = x.2)).head? = some x ∧ ∀ y ∈ l, y.2 ≤ x.2

theorem IsNext.mem (hx : IsNext l x) : x ∈ l :=
  (mem_filter.mp (mem_of_head? hx.1)).1

/-- There is at most one next thread. -/
theorem IsNext.unique (hx : IsNext l x) (hy : IsNext l y) : x = y := by
  have hp : x.2 = y.2 := le_antisymm (hy.2 x hx.mem) (hx.2 y hy.mem)
  have hhead := hx.1
  rw [hp, hy.1] at hhead
  exact (Option.some.inj hhead).symm

/-- A thread that comes later, and is not of a higher priority, does not run before. -/
theorem IsNext.concat (hx : IsNext l x) (hy : y.2 ≤ x.2) : IsNext (l ++ [y]) x := by
  refine ⟨?_, ?_⟩
  · rw [filter_append, head?_append, hx.1]
    rfl
  · exact forall_mem_append.mpr ⟨hx.2, forall_mem_singleton.mpr hy⟩

namespace Rep

variable (h : q.Rep is)
include h

theorem level_ne_nil (hi : i ∈ is) : q.nonempty.getLsbD (q.slots i).priority = true :=
  (h.bits _).mpr (ne_nil_of_mem (mem_level.mpr ⟨hi, rfl⟩))

/-- Without a highest level nothing is queued. -/
theorem highest_eq_none (hq : q.highest = none) : is = [] := by
  unfold highest at hq
  split at hq
  · next h0 =>
    refine eq_nil_iff_forall_not_mem.mpr fun i hi => ?_
    have hbit := h.level_ne_nil hi
    rw [h0, BitVec.ofNat_eq_ofNat, BitVec.getLsbD_zero] at hbit
    cases hbit
  · cases hq

/-- The head of the highest level is the next to run. -/
theorem highest_eq_some (hq : q.highest = some p) :
    ∃ s l2, q.level is p = s :: l2 ∧ (q.levels p).head = some s ∧ IsNext (is.map q.entry) (q.entry s) := by
  unfold highest at hq
  split at hq
  · cases hq
  rename_i h0
  cases hq
  obtain ⟨s, l2, hix⟩ := exists_cons_of_ne_nil ((h.bits _).mp (getLsbD_top h0))
  have hs : (q.entry s).2 = top q.nonempty := (mem_level.mp (hix ▸ mem_cons_self)).2
  refine ⟨s, l2, hix, ?_, ?_, ?_⟩
  · rw [(h.chain _).head?, hix, head?_cons]
  · rw [hs, ← map_level, hix, map_cons, head?_cons]
  · intro y hy
    obtain ⟨i, hi, rfl⟩ := mem_map.mp hy
    rw [hs]
    exact le_top (h.level_ne_nil hi)

end Rep

/-- The threads queued, in the order in which they came. -/
def Holds (q : RunQueue n) (l : List Queued) : Prop := ∃ is, q.Rep is ∧ is.map q.entry = l

theorem holds_new : (new n).Holds [] := ⟨[], rep_new, rfl⟩

namespace Holds

variable (h : q.Holds l)
include h

/-- **Removing** a queued thread gives its priority, and keeps the rest in order. -/
theorem remove (hid : (id, p) ∈ l) : (q.remove id).2 = .ok p ∧ (q.remove id).1.Holds (l.filter (·.1 ≠ id)) := by
  obtain ⟨is, h, rfl⟩ := h
  obtain ⟨s, hs, he⟩ := mem_map.mp hid
  obtain ⟨hid, hp⟩ := Prod.mk.inj he
  have hfind : q.find id = some s := h.find_eq_some.mpr ⟨hs, hid⟩
  obtain ⟨l1, l2, hix⟩ := append_of_mem (mem_level.mpr ⟨hs, hp⟩)
  have hlen : l1.length < n + 1 := by
    have hle : (q.level is p).length ≤ is.length := length_filter_le ..
    have := h.length_le
    rw [hix, length_append] at hle
    omega
  have hprev : Links.findPrev q.next s (n + 1) none (q.levels p).head = l1.getLast? := by
    rw [Links.findPrev_eq (hix ▸ h.chain p) (h.notMem_parts hix).1 hlen, Option.or_none]
  have hu := h.unlinked_relink hix
  have hrep := And.intro (h.unlinked hix hu) (h.map_unlinked hix hu)
  rw [he] at hrep
  simp only [RunQueue.remove, hfind, hp, hprev]
  refine ⟨trivial, is.erase s, ?_⟩
  simpa only [relink_eq, retail_eq, settle_eq, setUnused, setNext, setSlot] using hrep

omit h in
/-- A refused thread leaves the queue as it was. -/
theorem enqueue_error {e : QueueError} (he : (q.enqueue id p).2 = .error e) :
    (q.enqueue id p).1 = q := by
  unfold enqueue at he ⊢
  split
  · rfl
  rename_i hnot
  split
  · rfl
  · next hfind =>
    rw [if_neg hnot, hfind] at he
    cases he

theorem contains_iff : q.contains id = true ↔ ∃ p, (id, p) ∈ l := by
  obtain ⟨is, h, rfl⟩ := h
  rw [h.contains_iff]
  constructor
  · rintro ⟨i, hi, rfl⟩
    exact ⟨_, mem_map_of_mem hi⟩
  · rintro ⟨p, hp⟩
    obtain ⟨i, hi, he⟩ := mem_map.mp hp
    exact ⟨i, hi, congrArg fst he⟩

theorem isEmpty_iff : q.isEmpty = true ↔ l = [] := by
  obtain ⟨is, h, rfl⟩ := h
  rw [isEmpty, decide_eq_true_eq, h.len, length_eq_zero_iff, map_eq_nil_iff]

theorem ids : (l.map fst).Nodup := by
  obtain ⟨is, h, rfl⟩ := h
  rw [List.map_map]
  exact h.ids

/-- A thread not queued yet is refused exactly when there is no room. -/
theorem enqueue_cases (hid : ∀ p, (id, p) ∉ l) :
    l.length = n ∧ q.enqueue id p = (q, .error .full) ∨
      l.length < n ∧ (q.enqueue id p).2 = .ok () ∧ (q.enqueue id p).1.Holds (l ++ [(id, p)]) := by
  have hnot : ¬q.contains id = true := fun hc => (h.contains_iff.mp hc).elim fun p hp => hid p hp
  obtain ⟨is, h, rfl⟩ := h
  unfold enqueue
  rw [if_neg hnot, length_map]
  split
  · next hfull =>
    -- every slot is used, so as many threads as slots are queued
    have hused : finRange n ⊆ is := fun i _ =>
      (h.used i).mp (by simpa using find?_eq_none.mp hfull i (mem_finRange i))
    have := ((nodup_finRange n).subperm hused).length_le
    rw [length_finRange] at this
    exact .inl ⟨h.length_le.antisymm this, rfl⟩
  · next i hfind =>
    have hi : (q.slots i).used = false := by
      have := find?_some hfind
      simpa using this
    have hrep := h.pushed (p := p) hi fun j hj he => hid (q.slots j).priority (mem_map.mpr ⟨j, hj, by rw [entry, he]⟩)
    have hlen := hrep.1.length_le
    rw [length_append] at hlen
    exact .inr ⟨hlen, rfl, _, hrep⟩

/-- **Queueing** a new thread succeeds while there is room. -/
theorem enqueue (hid : ∀ p, (id, p) ∉ l) (hroom : l.length < n) :
    (q.enqueue id p).2 = .ok () ∧ (q.enqueue id p).1.Holds (l ++ [(id, p)]) := by
  rcases h.enqueue_cases (p := p) hid with ⟨hfull, -⟩ | ⟨-, hok⟩
  · omega
  · exact hok

theorem peek_eq_none (hq : q.peek = none) : l = [] := by
  obtain ⟨is, h, rfl⟩ := h
  unfold peek at hq
  split at hq
  · next hhigh => rw [h.highest_eq_none hhigh, map_nil]
  rename_i hhigh
  obtain ⟨s, l2, -, hhead, -⟩ := h.highest_eq_some hhigh
  rw [hhead] at hq
  cases hq

/-- What is seen first is the next to run. -/
theorem peek_eq_some (hq : q.peek = some x) : IsNext l x := by
  obtain ⟨is, h, rfl⟩ := h
  unfold peek at hq
  split at hq
  · cases hq
  rename_i hhigh
  obtain ⟨s, l2, -, hhead, hnext⟩ := h.highest_eq_some hhigh
  rw [hhead] at hq
  cases hq
  exact hnext

/-- **Picking** gives the next to run, and keeps the rest in order. -/
theorem pickNext (hx : IsNext l x) :
    q.pickNext.2 = some x ∧ q.pickNext.1.Holds (l.filter (·.1 ≠ x.1)) := by
  obtain ⟨is, h, rfl⟩ := h
  cases hhigh : q.highest with
  | none =>
    have := hx.mem
    rw [h.highest_eq_none hhigh] at this
    cases this
  | some p =>
    obtain ⟨s, l2, hix, hhead, hnext⟩ := h.highest_eq_some hhigh
    obtain rfl := hnext.unique hx
    have hu := h.unlinked_unlinkHead hix rfl
    have hrep := And.intro (h.unlinked hix hu) (h.map_unlinked hix hu)
    simp only [pickNext, hhigh, hhead]
    refine ⟨trivial, is.erase s, ?_⟩
    simpa only [unlinkHead, hhead, settle_eq, setUnused, setNext, setSlot, setLevel] using hrep

end Holds

end Kintane.RunQueue
