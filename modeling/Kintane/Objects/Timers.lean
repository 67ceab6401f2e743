import Mathlib.Data.Set.Card
import Kintane.Lib.Word

/-!
# Timer objects

A timer posts its expirations when its queue is looked at: all that have come due since the last
post that went through, as one value, and its deadline moves on by as many periods. Beside every
timer stands what was asked of it and what it has posted since. The posts add up to the expirations
there were, whatever the queue refused in between. Only the counter `fires` is not safe: no call
ever resets it, and two posts of `2 ^ 63` expirations take it past a word.
-/

namespace Kintane.Objects

def queueDepth : Nat := 8

def disarmed : Nat := u64Max

structure Completion where
  ring : List (Nat × Nat)
  head : Nat
  len : Nat

def Completion.new : Completion := ⟨.replicate queueDepth (0, 0), 0, 0⟩

def Completion.post (c : Completion) (key value : Nat) : Option Completion :=
  if queueDepth ≤ c.len then none
  else some { c with
    ring := c.ring.set ((c.head + c.len) % queueDepth) (key, value)
    len := c.len + 1 }

def Completion.take (c : Completion) : Option (Nat × Nat) × Completion :=
  if 0 < c.len then
    (c.ring[c.head]?, { c with head := (c.head + 1) % queueDepth, len := c.len - 1 })
  else (none, c)

structure Timer where
  queue : Nat
  key : Nat
  deadline : Nat
  period : Nat
  fires : Nat

/-- A deadline still to come, or the expirations to post. -/
def Timer.due (t : Timer) (queue now : Nat) : Option (Nat ⊕ Nat) :=
  if t.queue = queue ∧ t.deadline ≠ disarmed then
    if now < t.deadline then some (.inl t.deadline)
    else if t.period = 0 then some (.inr 1)
    else some (.inr ((now - t.deadline) / t.period + 1))
  else none

/-- The timer once `n` expirations are posted. -/
def Timer.fire (t : Timer) (n : Nat) : Timer :=
  { t with
    fires := (t.fires + n) % 2 ^ 64
    deadline :=
      if t.period = 0 then disarmed else satAdd u64Max t.deadline (n * t.period % 2 ^ 64) }

/-- Whether a sum or product of that overflows. -/
def Timer.overflows (t : Timer) (n : Nat) : Bool :=
  2 ^ 64 ≤ n || 2 ^ 64 ≤ t.fires + n || 2 ^ 64 ≤ n * t.period

/-- A timer, with the arguments of its last `set_timer`, the values it posted since then, the latest
first and each with the clock, and the sum of all it ever posted. -/
structure Cell where
  timer : Timer
  start : Nat
  every : Nat
  posts : List (Nat × Nat)
  total : Nat

def Cell.new (queue key : Nat) : Cell := ⟨⟨queue, key, disarmed, 0, 0⟩, disarmed, 0, [], 0⟩

def Cell.set (c : Cell) (deadline period : Nat) : Cell :=
  { c with timer := { c.timer with deadline, period }, start := deadline, every := period, posts := [] }

def Cell.posted (c : Cell) (n now : Nat) : Cell :=
  { c with timer := c.timer.fire n, posts := (n, now) :: c.posts, total := c.total + n }

def Cell.sum (c : Cell) : Nat := (c.posts.map Prod.fst).sum

/-- The deadline of a timer of the queue that is armed and not due. -/
def Cell.waits (queue now : Nat) (c : Cell) : Option Nat :=
  if c.timer.queue = queue ∧ c.timer.deadline ≠ disarmed ∧ now < c.timer.deadline then
    some c.timer.deadline
  else none

/-- What the loop of `deliver_due_timers` carries from cell to cell. -/
structure Pass where
  queue : Option Completion
  earliest : Option Nat
  overflowed : Bool

def note (earliest : Option Nat) (d : Nat) : Option Nat := some (earliest.elim d (min · d))

def visit (queue now : Nat) (c : Cell) (p : Pass) : Cell × Pass :=
  match c.timer.due queue now with
  | none => (c, p)
  | some (.inl d) => (c, { p with earliest := note p.earliest d })
  | some (.inr n) =>
    match p.queue.bind (·.post c.timer.key n) with
    | none => (c, p)
    | some q =>
      let next := (c.timer.fire n).deadline
      (c.posted n now, ⟨q, if next = disarmed then p.earliest else note p.earliest next,
        p.overflowed || c.timer.overflows n⟩)

def visits (queue now : Nat) : List Cell → Pass → List Cell × Pass
  | [], p => ([], p)
  | c :: cells, p =>
    let (c, p) := visit queue now c p
    let (cells, p) := visits queue now cells p
    (c :: cells, p)

structure World where
  cells : List Cell
  queues : Nat → Option Completion
  clock : Nat
  overflowed : Bool

inductive Op where
  | set (i : Nat) (deadline period : UInt64)
  | deliver (queue now : Nat)
  | take (queue : Nat)

namespace World

def pass (w : World) (queue now : Nat) : List Cell × Pass :=
  visits queue now w.cells ⟨w.queues queue, none, w.overflowed⟩

def step (w : World) : Op → World
  | .set i deadline period =>
    { w with cells := w.cells.modify i (·.set deadline.toNat period.toNat) }
  | .deliver queue now =>
    let (cells, p) := w.pass queue now
    ⟨cells, Function.update w.queues queue p.queue, now, p.overflowed⟩
  | .take queue =>
    { w with queues := Function.update w.queues queue ((w.queues queue).map (·.take.2)) }

/-- The clock does not go back and stays below `2 ^ 63`. -/
def InOrder (w : World) : Op → Prop
  | .deliver _ now => w.clock ≤ now ∧ now < 2 ^ 63
  | _ => True

/-- A timer that has posted `2 ^ 63` expirations is only set to a time after the last delivery. -/
def Counts (w : World) : Op → Prop
  | .set i deadline _ =>
    w.clock < deadline.toNat ∨ ∀ c, w.cells[i]? = some c → c.timer.fires < 2 ^ 63
  | op => w.InOrder op

/-- Runs from any queues, and timers as `timer_create` makes them. -/
inductive Reached (allowed : World → Op → Prop) : World → Prop where
  | init (timers : List (Nat × Nat)) (queues : Nat → Option Completion) :
    Reached allowed ⟨timers.map fun (queue, key) => .new queue key, queues, 0, false⟩
  | step {w : World} (op : Op) : Reached allowed w → allowed w op → Reached allowed (w.step op)

end World

/-! ## One timer -/

/-- How a timer stands to what was asked of it. -/
structure Cell.Ok (c : Cell) : Prop where
  bound : c.start ≤ u64Max ∧ c.every ≤ u64Max
  period : c.timer.period = c.every
  fires : c.timer.fires = c.total
  idle : c.posts = [] → c.timer.deadline = c.start
  off : c.start = disarmed → c.posts = []
  once : c.every = 0 → c.posts ≠ [] →
    c.timer.deadline = disarmed ∧ ∃ t, c.start ≤ t ∧ c.posts = [(1, t)]
  many : 0 < c.every → ∀ v t l, c.posts = (v, t) :: l →
    c.start ≤ t ∧ c.sum = (t - c.start) / c.every + 1 ∧
      c.timer.deadline = satAdd u64Max c.start (c.sum * c.every)
  /-- What it had posted when it was set. -/
  before : c.total < 2 ^ 63 + c.start + c.sum

variable {w : World} {c c' : Cell} {cells cells' : List Cell} {p p' : Pass} {queue now n : Nat}

theorem Timer.due_eq (t : Timer) (h : t.due queue now = some (.inr n)) :
    t.queue = queue ∧ t.deadline ≠ disarmed ∧ t.deadline ≤ now ∧
      n = if t.period = 0 then 1 else (now - t.deadline) / t.period + 1 := by
  unfold Timer.due at h
  grind

/-- The expirations of a timer that is due, counted from where it was set. -/
theorem Cell.Ok.due (h : c.Ok) (hd : c.timer.due queue now = some (.inr n)) (hnow : now < 2 ^ 63) :
    c.start ≤ now ∧ c.start ≠ disarmed ∧ n < 2 ^ 64 ∧ n * c.every < 2 ^ 64 ∧
      if c.every = 0 then n = 1 ∧ c.posts = []
      else c.sum + n = (now - c.start) / c.every + 1 ∧ c.timer.deadline = c.start + c.sum * c.every := by
  obtain ⟨-, harmed, hle, rfl⟩ := c.timer.due_eq hd
  rw [h.period]
  by_cases h0 : c.every = 0
  · have hp : c.posts = [] := by
      by_contra hne
      exact harmed (h.once h0 hne).1
    rw [if_pos h0, if_pos h0, ← h.idle hp, h0]
    exact ⟨hle, harmed, by omega, by omega, rfl, hp⟩
  · rw [if_neg h0, if_neg h0]
    -- the deadline is not saturated, or the timer would be disarmed
    have hs : c.start ≠ disarmed ∧ c.timer.deadline = c.start + c.sum * c.every := by
      rcases hposts : c.posts with _ | ⟨⟨v, t⟩, l⟩
      · have hi := h.idle hposts
        exact ⟨hi ▸ harmed, by simp [hi, Cell.sum, hposts]⟩
      · obtain ⟨-, -, he⟩ := h.many (by omega) v t l hposts
        unfold satAdd disarmed at *
        exact ⟨fun hoff => by simp [h.off hoff] at hposts, by omega⟩
    have hdiv := Nat.div_mul_le_self (now - c.timer.deadline) c.every
    have hself := Nat.div_le_self (now - c.timer.deadline) c.every
    refine ⟨by omega, hs.1, by omega, ?_, ?_, hs.2⟩
    · have hb := h.bound.2
      unfold u64Max at hb
      rw [Nat.add_one_mul]
      rcases Nat.lt_or_ge (now - c.timer.deadline) c.every with hlt | hge
      · rw [Nat.div_eq_of_lt hlt]
        omega
      · omega
    · have : now - c.start = now - c.timer.deadline + c.sum * c.every := by omega
      rw [this, Nat.add_mul_div_right _ _ (by omega)]
      omega

theorem sum_posted (c : Cell) : (c.posted n now).sum = c.sum + n := by
  simp [Cell.sum, Cell.posted, Nat.add_comm]

/-- The next deadline is past the clock, and where the posts so far say it is. -/
theorem Cell.Ok.fire (h : c.Ok) (hd : c.timer.due queue now = some (.inr n)) (hnow : now < 2 ^ 63) :
    now < (c.timer.fire n).deadline ∧ (c.timer.fire n).deadline =
      if c.every = 0 then disarmed else satAdd u64Max c.start ((c.posted n now).sum * c.every) := by
  obtain ⟨hle, -, -, hlt, hif⟩ := h.due hd hnow
  rw [Timer.fire, sum_posted, h.period]
  dsimp only
  split at hif
  · next h0 => simp [h0, disarmed, u64Max]; omega
  rename_i h0
  have hmod := Nat.lt_mul_div_succ (now - c.start) (Nat.pos_of_ne_zero h0)
  rw [← hif.1, Nat.mul_comm] at hmod
  rw [if_neg h0, if_neg h0, hif.2, Nat.mod_eq_of_lt hlt, Nat.add_mul]
  unfold satAdd u64Max
  rw [Nat.add_mul] at hmod
  omega

/-- At most one expiration for each nanosecond since the timer was set. -/
theorem Cell.Ok.total_le (h : c.Ok) (hd : c.timer.due queue now = some (.inr n)) (hnow : now < 2 ^ 63) :
    c.total + n ≤ 2 ^ 63 + now := by
  obtain ⟨hle, -, -, -, hif⟩ := h.due hd hnow
  have hbefore := h.before
  split at hif
  · have hsum : c.sum = 0 := by simp [Cell.sum, hif.2]
    omega
  · have := Nat.div_le_self (now - c.start) c.every
    omega

theorem Cell.Ok.posted (h : c.Ok) (hd : c.timer.due queue now = some (.inr n)) (hnow : now < 2 ^ 63) :
    (c.posted n now).Ok := by
  obtain ⟨hle, harmed, -, -, hif⟩ := h.due hd hnow
  have hfire := (h.fire hd hnow).2
  have htotal := h.total_le hd hnow
  refine ⟨h.bound, h.period, ?_, nofun, fun hoff => (harmed hoff).elim, ?_, ?_, ?_⟩
  · change (c.timer.fires + n) % 2 ^ 64 = c.total + n
    rw [h.fires, Nat.mod_eq_of_lt (by omega)]
  · intro (h0 : c.every = 0) _
    rw [if_pos h0] at hfire hif
    exact ⟨hfire, now, hle, by simp [Cell.posted, hif]⟩
  · intro (hpos : 0 < c.every) v t l hl
    cases hl
    rw [if_neg hpos.ne'] at hfire hif
    exact ⟨hle, (sum_posted c).trans hif.1, hfire⟩
  · have := h.before
    rw [sum_posted]
    show c.total + n < 2 ^ 63 + c.start + (c.sum + n)
    omega

/-- A timer in order, with no more posts than the clock allows. -/
def Cell.At (now : Nat) (c : Cell) : Prop := c.Ok ∧ c.total ≤ 2 ^ 63 + now

theorem Cell.At.mono {t : Nat} (h : c.At t) (hle : t ≤ now) : c.At now :=
  ⟨h.1, h.2.trans (Nat.add_le_add_left hle _)⟩

/-! ## One delivery -/

theorem Cell.waits_eq (c : Cell) (queue now : Nat) : c.waits queue now = (c.timer.due queue now).bind Sum.getLeft? := by
  unfold Cell.waits Timer.due
  grind

theorem visit_spec (h : c.At now) (hnow : now < 2 ^ 63) (hv : visit queue now c p = (c', p')) :
    (c.timer.deadline = disarmed → c' = c) ∧
    p'.earliest = (c'.waits queue now).elim p.earliest (note p.earliest) ∧
    c'.At now ∧ p'.overflowed = p.overflowed := by
  have hw := c.waits_eq queue now
  unfold visit at hv
  split at hv
  · next hd =>
    rw [hd] at hw
    cases hv
    exact ⟨fun _ => rfl, by rw [hw]; rfl, h, rfl⟩
  · next d hd =>
    rw [hd] at hw
    cases hv
    exact ⟨fun _ => rfl, by rw [hw]; rfl, h, rfl⟩
  rename_i n hd
  split at hv
  · rw [hd] at hw
    cases hv
    exact ⟨fun _ => rfl, by rw [hw]; rfl, h, rfl⟩
  cases hv
  obtain ⟨hq, harmed, -, -⟩ := c.timer.due_eq hd
  obtain ⟨-, -, hn, hmul, -⟩ := h.1.due hd hnow
  have htotal := h.1.total_le hd hnow
  have hlt := (h.1.fire hd hnow).1
  have hfq : (c.timer.fire n).queue = queue := hq
  refine ⟨fun hoff => (harmed hoff).elim, ?_, ⟨h.1.posted hd hnow, htotal⟩, ?_⟩
  · by_cases hoff : (c.timer.fire n).deadline = disarmed
    · simp [Cell.waits, Cell.posted, hoff]
    · simp [Cell.waits, Cell.posted, hoff, hfq, hlt]
  · simp [Timer.overflows, h.1.period, h.1.fires]
    omega

theorem visits_spec (h : ∀ c ∈ cells, c.At now) (hnow : now < 2 ^ 63)
    (hv : visits queue now cells p = (cells', p')) :
    (∀ (i : Nat) (c : Cell), cells[i]? = some c → c.timer.deadline = disarmed → cells'[i]? = some c) ∧
    p'.earliest = (cells'.filterMap (Cell.waits queue now)).foldl note p.earliest ∧
    (∀ c ∈ cells', c.At now) ∧ p'.overflowed = p.overflowed := by
  induction cells generalizing p cells' p' with
  | nil =>
    cases hv
    exact ⟨nofun, rfl, nofun, rfl⟩
  | cons c cells ih =>
    rw [List.forall_mem_cons] at h
    rcases hc : visit queue now c p with ⟨c1, p1⟩
    rcases hcs : visits queue now cells p1 with ⟨cells1, p2⟩
    obtain ⟨hoff, hwaits, hat, hover⟩ := visit_spec h.1 hnow hc
    obtain ⟨hoffs, hwaitss, hats, hovers⟩ := ih h.2 hcs
    simp only [visits, hc, hcs] at hv
    cases hv
    refine ⟨?_, ?_, List.forall_mem_cons.mpr ⟨hat, hats⟩, hovers.trans hover⟩
    · intro i d hi hd
      cases i with
      | zero =>
        cases hi
        exact congrArg some (hoff hd)
      | succ i => exact hoffs i d hi hd
    · rw [hwaitss, hwaits, List.filterMap_cons]
      cases c1.waits queue now <;> rfl

theorem foldl_note (l : List Nat) : l.foldl note none = l.min? := by
  cases l with
  | nil => rfl
  | cons a l =>
    induction l generalizing a with
    | nil => rfl
    | cons b l ih => exact ih (min a b)

/-! ## Runs -/

namespace World

theorem Reached.ok (h : Reached Counts w) : w.overflowed = false ∧ ∀ c ∈ w.cells, c.At w.clock := by
  induction h with
  | init timers queues =>
    refine ⟨rfl, fun c hc => ?_⟩
    obtain ⟨x, -, rfl⟩ := List.mem_map.mp hc
    exact ⟨⟨⟨le_rfl, Nat.zero_le _⟩, rfl, rfl, fun _ => rfl, fun _ => rfl, fun _ hne => (hne rfl).elim, nofun,
      by simp [Cell.new]⟩, Nat.zero_le _⟩
  | @step w op _ hop ih =>
    cases op with
    | take queue => exact ih
    | deliver queue now =>
      obtain ⟨hclock, hnow⟩ := hop
      obtain ⟨hcells, ho⟩ := (visits_spec (fun c hc => (ih.2 c hc).mono hclock) hnow rfl).2.2
      exact ⟨ho.trans ih.1, hcells⟩
    | set i deadline period =>
      refine ⟨ih.1, fun c hc => ?_⟩
      obtain ⟨j, hj⟩ := List.mem_iff_getElem?.mp hc
      simp only [World.step, List.getElem?_modify, Option.map_eq_map, Option.map_eq_some_iff] at hj
      obtain ⟨c, hcj, rfl⟩ := hj
      obtain ⟨h, htotal⟩ := ih.2 c (List.mem_of_getElem? hcj)
      split
      · next hij =>
        have := deadline.toNat_lt
        have := period.toNat_lt
        have hbefore : c.total < 2 ^ 63 + deadline.toNat := by
          rcases hop with hlater | hfew
          · omega
          · have := hfew c (hij ▸ hcj)
            rw [h.fires] at this
            omega
        exact ⟨⟨by simp only [Cell.set, u64Max]; omega, rfl, h.fires, fun _ => rfl, fun _ => rfl,
          fun _ hne => (hne rfl).elim, nofun, hbefore⟩, htotal⟩
      · exact ⟨h, htotal⟩

/-- **No expiration is lost or invented**, while the counters hold: of the arguments of a timer's last
`set_timer`, its posts since then say how many expirations there were up to the last of them. -/
theorem timers_exact (h : Reached Counts w) :
    w.overflowed = false ∧
    (∀ c ∈ w.cells,
      (0 < c.every → c.sum = c.posts.head?.elim 0 fun post => {k | c.start + k * c.every ≤ post.2}.ncard) ∧
      (c.every = 0 → c.posts = [] ∨ ∃ t, c.start ≤ t ∧ c.posts = [(1, t)])) ∧
    ∀ queue now, w.InOrder (.deliver queue now) →
      (w.pass queue now).2.earliest = ((w.pass queue now).1.filterMap (Cell.waits queue now)).min? ∧
      ∀ (i : Nat) (c : Cell), w.cells[i]? = some c → c.timer.deadline = disarmed → (w.pass queue now).1[i]? = some c := by
  refine ⟨h.ok.1, fun c hc => ⟨fun hpos => ?_, fun h0 => ?_⟩, fun queue now hnow => ?_⟩
  · have hok := (h.ok.2 c hc).1
    rcases hposts : c.posts with _ | ⟨⟨v, t⟩, l⟩
    · simp [Cell.sum, hposts]
    obtain ⟨hle, hsum, -⟩ := hok.many hpos v t l hposts
    have hset : {k | c.start + k * c.every ≤ t} = Finset.range ((t - c.start) / c.every + 1) := by
      ext k
      simp [Nat.le_div_iff_mul_le hpos]
      omega
    change c.sum = Set.ncard _
    rw [hset, Set.ncard_coe_finset, Finset.card_range, hsum]
  · by_cases hne : c.posts = []
    · exact .inl hne
    · exact .inr ((h.ok.2 c hc).1.once h0 hne).2
  · have hat : ∀ c ∈ w.cells, c.At now := fun c hc => (h.ok.2 c hc).mono hnow.1
    obtain ⟨hoff, hmin, -⟩ := visits_spec hat hnow.2 (rfl : w.pass queue now = _)
    exact ⟨hmin.trans (foldl_note _), hoff⟩

/-- One timer, set to five and every ten from there, after a delivery at thirty. -/
def periodic : World :=
  (step ⟨[.new 0 0], fun _ => some .new, 0, false⟩ (.set 0 5 10)).step (.deliver 0 30)

theorem timers_exact_periodic :
    ∃ c ∈ periodic.cells, c.posts = [(3, 30)] ∧ c.sum = {k | 5 + k * 10 ≤ 30}.ncard := by
  have h₀ : Reached Counts _ := .init [(0, 0)] fun _ => some .new
  have h : Reached Counts periodic :=
    (h₀.step (.set 0 5 10) (.inl (by decide))).step (.deliver 0 30) ⟨by decide, by decide⟩
  exact ⟨_, List.mem_cons_self, rfl, ((timers_exact h).2.1 _ List.mem_cons_self).1 (by decide)⟩

/-- The same timer is set to expire at every nanosecond since the start, twice. -/
theorem fires_overflow : ¬∀ w, Reached InOrder w → w.overflowed = false := by
  intro h
  have h₀ : Reached InOrder _ := .init [(0, 0)] fun _ => some .new
  have h1 := (h₀.step (.set 0 0 1) trivial).step (.deliver 0 (2 ^ 63 - 1)) ⟨by decide, by decide⟩
  have h2 := (h1.step (.set 0 0 1) trivial).step (.deliver 0 (2 ^ 63 - 1)) ⟨by decide, by decide⟩
  cases h _ h2

end World

end Kintane.Objects
