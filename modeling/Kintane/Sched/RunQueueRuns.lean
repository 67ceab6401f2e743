import Kintane.Sched.RunQueueProof

/-!
# The run queue refines a list

The abstract queue is the list of what is queued, in the order in which it came. Whatever the
calls, a caller gets from the run queue what the list gives, and sees the same of it afterwards.
-/

open List

namespace Kintane.RunQueue

variable {n k fuel : Nat} {q : RunQueue n} {l : List Queued} {x : Queued}

/-! ## The abstract queue -/

/-- The first of those that nothing queued outranks. -/
def first (l : List Queued) : Option Queued :=
  l.find? fun x => l.all fun y => y.2 ≤ x.2

/-- What is left without a thread. -/
def without (l : List Queued) (id : ThreadId) : List Queued :=
  l.filter (·.1 ≠ id)

/-- What taking the first, `fuel` times, takes. -/
def firsts : Nat → List Queued → List Queued
  | 0, _ => []
  | fuel + 1, l =>
    match first l with
    | none => []
    | some x => x :: firsts fuel (without l x.1)

theorem IsNext.first_eq (hx : IsNext l x) : first l = some x := by
  rw [first, ← head?_filter, ← hx.1]
  congr 1
  refine filter_congr fun y hy => ?_
  rw [Bool.eq_iff_iff, all_eq_true, decide_eq_true_eq]
  constructor
  · intro hall
    exact le_antisymm (hx.2 y hy) (of_decide_eq_true (hall x hx.mem))
  · intro heq z hz
    exact decide_eq_true (heq ▸ hx.2 z hz)

/-! ## The levels, from the highest -/

/-- The threads of the lowest `k` levels, the highest level first. -/
def below (l : List Queued) : Nat → List Queued
  | 0 => []
  | k + 1 => l.filter (·.2.val = k) ++ below l k

theorem mem_below : x ∈ below l k ↔ x ∈ l ∧ x.2.val < k := by
  induction k with
  | zero => simp [below]
  | succ k ih =>
    rw [below, mem_append, mem_filter, ih, decide_eq_true_eq, ← and_or_left, Nat.lt_succ_iff_lt_or_eq, or_comm]

/-- Taking the first off takes the head off the levels. -/
theorem IsNext.below_eq (hx : IsNext l x) (hids : (l.map Prod.fst).Nodup) (k : Nat) :
    below l k = (if x.2.val < k then [x] else []) ++ below (without l x.1) k := by
  have hother (k : Nat) : (without l x.1).filter (·.2.val = k) = (l.filter (·.2.val = k)).filter (·.1 ≠ x.1) := by
    rw [without, filter_comm]
  induction k with
  | zero => rfl
  | succ k ih =>
    rw [below, below, ih, hother]
    rcases lt_trichotomy x.2.val k with hlt | rfl | hgt
    · -- above the first nothing is queued
      have hnil : l.filter (·.2.val = k) = [] := by
        refine filter_eq_nil_iff.mpr fun y hy hk => ?_
        have := hx.2 y hy
        rw [Fin.le_def, of_decide_eq_true hk] at this
        omega
      rw [hnil, if_pos hlt, if_pos (by omega)]
      rfl
    · have hhead := hx.1
      simp only [Fin.ext_iff] at hhead
      obtain ⟨t, ht⟩ := head?_eq_some_iff.mp hhead
      have hnodup := hids.sublist ((filter_sublist (p := fun y => y.2.val = x.2.val)).map _)
      rw [ht, map_cons, nodup_cons] at hnodup
      have hkeep : t.filter (·.1 ≠ x.1) = t :=
        filter_eq_self.mpr fun y hy => decide_eq_true fun heq => hnodup.1 (heq ▸ mem_map_of_mem hy)
      rw [ht, filter_cons_of_neg (by simp), hkeep, if_neg (lt_irrefl _), if_pos (Nat.lt_succ_self _)]
      rfl
    · have hkeep : (l.filter (·.2.val = k)).filter (·.1 ≠ x.1) = l.filter (·.2.val = k) := by
        refine filter_eq_self.mpr fun y hy => decide_eq_true fun heq => ?_
        obtain ⟨hy, hk⟩ := mem_filter.mp hy
        rw [inj_on_of_nodup_map hids hy hx.mem heq, decide_eq_true_eq] at hk
        omega
      rw [hkeep, if_neg (by omega), if_neg (by omega)]
      rfl

theorem length_without (hids : (l.map Prod.fst).Nodup) (hx : x ∈ l) : (without l x.1).length = l.length - 1 := by
  have hmap : (without l x.1).map Prod.fst = (l.map Prod.fst).erase x.1 := by
    rw [hids.erase_eq_filter, filter_map]
    congr 1
    refine filter_congr fun y _ => ?_
    by_cases hy : y.1 = x.1 <;> simp [hy]
  rw [← length_map Prod.fst, hmap, length_erase_of_mem (mem_map_of_mem hx), length_map]

namespace Rep

variable {is : List (Fin n)} {bits : BitVec 32}

/-- An iteration goes along the level it is in. -/
theorem iterFrom_level {a : Option (Fin n)} (ha : Links q.next a is none) :
    q.iterFrom (fuel + is.length) bits a = is.map q.entry ++ q.iterFrom fuel bits none := by
  induction is generalizing a with
  | nil =>
    obtain rfl := ha
    rfl
  | cons i is ih =>
    obtain ⟨rfl, ha⟩ := ha
    exact congrArg (q.entry i :: ·) (ih ha)

/-- Between two levels it has those below before it. -/
theorem iterFrom_eq (h : q.Rep is) (hl : is.map q.entry = l) (hk : k ≤ 32)
    (hbits : ∀ p : Priority, bits.getLsbD p = true ↔ p.val < k ∧ q.level is p ≠ [])
    (hfuel : (below l k).length + k < fuel) : q.iterFrom fuel bits none = below l k := by
  obtain ⟨fuel, rfl⟩ : ∃ f, fuel = f + 1 := ⟨fuel - 1, by omega⟩
  induction k generalizing fuel bits with
  | zero =>
    have hzero : bits = 0 := BitVec.eq_of_getLsbD_eq fun i hi => by
      have := hbits ⟨i, hi⟩
      simpa using this
    exact if_pos hzero
  | succ k ih =>
    obtain ⟨p, rfl⟩ : ∃ p : Priority, p.val = k := ⟨⟨k, hk⟩, rfl⟩
    have hentries : (q.level is p).map q.entry = l.filter (·.2.val = p.val) := by
      rw [map_level, hl]
      simp only [Fin.ext_iff]
    have hlen : (below l (p.val + 1)).length = (q.level is p).length + (below l p.val).length := by
      rw [below, length_append, ← hentries, length_map]
    by_cases hix : q.level is p = []
    · have hrest : q.iterFrom (fuel + 1) bits none = _ := ih (by omega) (fun p' => ?_) fuel (by omega)
      · rw [hrest, below, ← hentries, hix]
        rfl
      · rw [hbits]
        refine and_congr_left fun hne => ⟨fun hlt => ?_, fun hlt => by omega⟩
        refine lt_of_le_of_ne (Nat.le_of_lt_succ hlt) fun heq => hne ?_
        rwa [Fin.ext heq]
    · have hbit : bits.getLsbD p = true := (hbits p).mpr ⟨Nat.lt_succ_self _, hix⟩
      have hne : bits ≠ 0 := by
        rintro rfl
        simp at hbit
      have htop : Bits.top bits = p := by
        refine Fin.ext (le_antisymm ?_ (Bits.le_top hbit))
        exact Nat.le_of_lt_succ ((hbits _).mp (Bits.getLsbD_top hne)).1
      obtain ⟨f, rfl⟩ : ∃ f, fuel = f + 1 + (q.level is p).length := ⟨fuel - 1 - (q.level is p).length, by omega⟩
      rw [iterFrom, if_neg hne, htop, iterFrom_level (h.chain p), hentries, below]
      refine congrArg _ (ih (by omega) (fun p' => ?_) f (by omega))
      rw [Bits.getLsbD_erase _ _ p.isLt, Bool.and_eq_true, hbits, decide_eq_true_eq]
      constructor
      · intro hp
        exact ⟨by omega, hp.1.2⟩
      · intro hp
        exact ⟨⟨by omega, hp.2⟩, by omega⟩

end Rep

namespace Holds

variable (h : q.Holds l)
include h

theorem length_le : l.length ≤ n := by
  obtain ⟨is, h, rfl⟩ := h
  rw [length_map]
  exact h.length_le

theorem len_eq : q.len = l.length := by
  obtain ⟨is, h, rfl⟩ := h
  rw [length_map, h.len]

theorem peek_eq : q.peek = first l := by
  cases hp : q.peek with
  | none => rw [h.peek_eq_none hp]; rfl
  | some x => exact (h.peek_eq_some hp).first_eq.symm

/-- The levels hold what repeatedly taking the first takes. -/
theorem below_eq (hf : l.length ≤ fuel) : below l 32 = firsts fuel l ∧ (below l 32).length = l.length := by
  induction fuel generalizing q l with
  | zero =>
    rw [length_eq_zero_iff.mp (Nat.le_zero.mp hf)]
    exact ⟨rfl, rfl⟩
  | succ fuel ih =>
    cases hp : q.peek with
    | none =>
      rw [h.peek_eq_none hp]
      exact ⟨rfl, rfl⟩
    | some x =>
      have hx := h.peek_eq_some hp
      have hlen : (without l x.1).length = l.length - 1 := length_without h.ids hx.mem
      have hpos := length_pos_of_mem hx.mem
      have h' : q.pickNext.1.Holds (without l x.1) := (h.pickNext hx).2
      obtain ⟨hrest, hlen'⟩ := ih h' (by omega)
      rw [firsts, hx.first_eq, hx.below_eq h.ids, if_pos x.2.isLt]
      refine ⟨congrArg (x :: ·) hrest, ?_⟩
      rw [length_append, length_singleton]
      omega

theorem iter_eq_below : q.iter = below l 32 := by
  have hlen := (h.below_eq le_rfl).2
  have hle := h.length_le
  obtain ⟨is, h, hl⟩ := h
  refine h.iterFrom_eq hl le_rfl (fun p => ?_) (by omega)
  rw [h.bits]
  exact (and_iff_right p.isLt).symm

theorem mem_iter : x ∈ q.iter ↔ x ∈ l := by
  rw [h.iter_eq_below, mem_below]
  exact and_iff_left x.2.isLt

end Holds

/-! ## Calls -/

inductive Call where
  | enqueue (id : ThreadId) (priority : Priority)
  | pickNext
  | remove (id : ThreadId)

/-- What a call gives, and what the queue then shows. -/
structure Seen where
  result : Except QueueError (Option Queued)
  len : Nat
  peek : Option Queued
  iter : List Queued

def call (q : RunQueue n) : Call → RunQueue n × Except QueueError (Option Queued)
  | .enqueue id priority => ((q.enqueue id priority).1, (q.enqueue id priority).2.map fun _ => none)
  | .pickNext => (q.pickNext.1, .ok q.pickNext.2)
  | .remove id => ((q.remove id).1, (q.remove id).2.map fun priority => some (id, priority))

/-- The abstract queue's answer, of a queue with room for `n`. -/
def Call.spec (n : Nat) (l : List Queued) :
    Call → List Queued × Except QueueError (Option Queued)
  | .enqueue id priority =>
    if l.any (·.1 = id) then (l, .error .alreadyQueued)
    else if l.length = n then (l, .error .full)
    else (l ++ [(id, priority)], .ok none)
  | .pickNext =>
    match first l with
    | none => (l, .ok none)
    | some x => (without l x.1, .ok (some x))
  | .remove id =>
    match l.find? (·.1 = id) with
    | none => (l, .error .notQueued)
    | some x => (without l id, .ok (some x))

/-- What a caller sees of a run. -/
def calls (q : RunQueue n) : List Call → List Seen
  | [] => []
  | c :: cs =>
    let (q, result) := q.call c
    ⟨result, q.len, q.peek, q.iter⟩ :: q.calls cs

/-- What the abstract queue shows of it. -/
def callsSpec (n : Nat) (l : List Queued) : List Call → List Seen
  | [] => []
  | c :: cs =>
    let (l, result) := c.spec n l
    ⟨result, l.length, first l, firsts l.length l⟩ :: callsSpec n l cs

theorem pickNext_of_peek (hq : q.peek = none) : q.pickNext = (q, none) := by
  unfold peek at hq
  unfold pickNext
  split
  · rfl
  · next level hlevel =>
    rw [hlevel, Option.map_eq_none_iff] at hq
    rw [hq]

theorem Holds.call (h : q.Holds l) (c : Call) :
    (q.call c).1.Holds (c.spec n l).1 ∧ (q.call c).2 = (c.spec n l).2 := by
  cases c with
  | enqueue id priority =>
    simp only [RunQueue.call, Call.spec]
    have hmem : l.any (·.1 = id) = true ↔ ∃ p, (id, p) ∈ l := by simp
    split
    · next hany =>
      rw [RunQueue.enqueue, if_pos (h.contains_iff.mpr (hmem.mp hany))]
      exact ⟨h, rfl⟩
    · next hany =>
      rw [hmem, not_exists] at hany
      rcases h.enqueue_cases (p := priority) hany with ⟨hfull, hr⟩ | ⟨hroom, hr, h'⟩
      · rw [if_pos hfull, hr]
        exact ⟨h, rfl⟩
      · rw [if_neg hroom.ne, hr]
        exact ⟨h', rfl⟩
  | pickNext =>
    simp only [RunQueue.call, Call.spec]
    rw [← h.peek_eq]
    cases hp : q.peek with
    | none =>
      rw [pickNext_of_peek hp]
      exact ⟨h, rfl⟩
    | some x =>
      obtain ⟨hr, h'⟩ := h.pickNext (h.peek_eq_some hp)
      exact ⟨h', congrArg _ hr⟩
  | remove id =>
    simp only [RunQueue.call, Call.spec]
    split
    · next hnone =>
      have hfind : q.find id = none := by
        rw [← Option.not_isSome_iff_eq_none, ← contains, h.contains_iff]
        rintro ⟨p, hp⟩
        simpa using find?_eq_none.mp hnone _ hp
      simp only [RunQueue.remove, hfind]
      exact ⟨h, rfl⟩
    · next x hx =>
      obtain rfl : x.1 = id := by simpa using find?_some hx
      obtain ⟨hr, h'⟩ := h.remove (p := x.2) (mem_of_find?_eq_some hx)
      rw [hr]
      exact ⟨h', rfl⟩

theorem Holds.calls (h : q.Holds l) (cs : List Call) : q.calls cs = callsSpec n l cs := by
  induction cs generalizing q l with
  | nil => rfl
  | cons c cs ih =>
    obtain ⟨h', hr⟩ := h.call c
    simp only [RunQueue.calls, callsSpec]
    rw [hr, h'.len_eq, h'.peek_eq, h'.iter_eq_below, (h'.below_eq le_rfl).1, ih h']

/-- Whatever the calls, a run queue answers as the list of its threads does. -/
theorem calls_eq (n : Nat) (cs : List Call) : (new n).calls cs = callsSpec n [] cs :=
  holds_new.calls cs

end Kintane.RunQueue
