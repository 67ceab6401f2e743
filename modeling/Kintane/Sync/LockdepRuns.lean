import Kintane.Sync.LockdepProof

/-!
# Contexts that share an order

Any number of contexts, each with its stack, that take and release locks in any interleaving.
Beside the checker's state stands what it is about: which locks each context holds, and which
class was taken under which.
-/

open List Function

namespace Kintane

open Relation Lockdep LockOrder

inductive LockOp (ι κ : Type) where
  /-- An acquisition that may block, or one that was tried and succeeded. -/
  | acquire (ctx : ι) (cls : κ) (inst : Nat) (blocking : Bool)
  | release (ctx : ι) (cls : κ) (inst : Nat)

/-- The checker, beside what the contexts really hold and took. -/
structure LockWorld (ι κ : Type) where
  order : LockOrder κ
  stackOf : ι → LockStack
  edges : List (Nat × Nat)
  holding : ι → List (κ × Nat)
  /-- A lock of the second class was taken, and might have blocked, while one of the first was held. -/
  under : List (κ × κ)
  violated : Bool

namespace LockWorld

variable {ι κ : Type} [DecidableEq ι] [DecidableEq κ] (name : κ → String)

def new : LockWorld ι κ := ⟨.new, fun _ => emptyStack, [], fun _ => [], [], false⟩

/-- The edges that an acquisition records. -/
def takeEdges (order : LockOrder κ) (stack : LockStack) (cls : κ) (inst : Nat) (check : Bool) :
    List (Nat × Nat) :=
  match order.register cls with
  | (none, _) => []
  | (some index, order) =>
    if stack.held.any fun h => h.cls = index && h.inst = inst then []
    else order.scanEdges index (if check then stack.held else [])

/-- A lock that its holder takes again is not taken: the processor is stopped. Every other
violation is reported, and the lock taken. -/
def isTaken : Except LockViolation Unit → Bool
  | .error (.recursive _) => false
  | _ => true

variable (w : LockWorld ι κ)

/-- After an acquisition with result `r`, which recorded `edges`. -/
def acquired (i : ι) (cls : κ) (inst : Nat) (blocking : Bool) (edges : List (Nat × Nat))
    (r : LockOrder κ × LockStack × Except LockViolation Unit) : LockWorld ι κ where
  order := r.1
  stackOf := update w.stackOf i r.2.1
  edges := edges ++ w.edges
  holding :=
    if isTaken r.2.2 then update w.holding i (w.holding i ++ [(cls, inst)]) else w.holding
  under := if blocking then (w.holding i).map (fun h => (h.1, cls)) ++ w.under else w.under
  violated := w.violated || !r.2.2.isOk

/-- What is held without the last of the locks that are `l`. -/
def letGo (l : κ × Nat) (held : List (κ × Nat)) : List (κ × Nat) :=
  match rposition (fun h => decide (h = l)) held with
  | some place => held.eraseIdx place
  | none => held

def released (i : ι) (cls : κ) (inst : Nat)
    (r : LockOrder κ × LockStack × Except LockViolation Unit) : LockWorld ι κ :=
  { w with
    order := r.1
    stackOf := update w.stackOf i r.2.1
    holding := update w.holding i (letGo (cls, inst) (w.holding i))
    violated := w.violated || !r.2.2.isOk }

def step : LockOp ι κ → LockWorld ι κ
  | .acquire i cls inst blocking =>
    w.acquired i cls inst blocking (takeEdges w.order (w.stackOf i) cls inst blocking)
      (take name w.order (w.stackOf i) cls inst blocking)
  | .release i cls inst =>
    w.released i cls inst (releaseIn name w.order (w.stackOf i) cls inst)

/-- The states of all interleavings. -/
inductive Reaches : LockWorld ι κ → Prop where
  | new : Reaches new
  | step {w : LockWorld ι κ} (h : Reaches w) (op : LockOp ι κ) : Reaches (w.step name op)

/-! ## What is promised -/

/-- Class `d` is after class `c` in the order. -/
def ClassAfter (c d : κ) : Prop :=
  ∃ x y, w.order.classes[x]? = some c ∧ w.order.classes[y]? = some d ∧ w.order.After x y

/-- Class `d` is held by context `i`, and on its stack. -/
def OnStack (i : ι) (d : κ) : Prop :=
  ∃ h ∈ (w.stackOf i).held, w.order.classes[h.cls]? = some d

/-- A violation that names a recursion, two locks of class `c`, or an inversion with a held class. -/
def Blames (i : ι) (c : κ) (v : LockViolation) : Prop :=
  v = .recursive (name c) ∨ v = .sameClass (name c) ∨
    ∃ d, w.OnStack i d ∧ w.ClassAfter c d ∧ v = .inversion (name d) (name c)

/-- `after` is the transitive closure of the recorded edges, and has no cycle. -/
def Closed : Prop :=
  (∀ x y, w.order.After x y ↔ TransGen (fun a b => (a, b) ∈ w.edges) x y) ∧
    ∀ x, ¬w.order.After x x

/-- An entry of a stack is a lock. -/
def Tracks (classes : List κ) (h : HeldLock) (l : κ × Nat) : Prop :=
  classes[h.cls]? = some l.1 ∧ h.inst = l.2

/-- Without a violation, a context's stack is what the context holds. -/
def Tracked : Prop :=
  w.violated = false → ∀ i, (w.stackOf i).untracked = 0 ∧
    List.Forall₂ (Tracks w.order.classes) (w.stackOf i).held (w.holding i)

/-- Without a violation, classes were taken under each other without a cycle. -/
def Acyclic : Prop :=
  w.violated = false → ∀ c, ¬TransGen (fun h c => (h, c) ∈ w.under) c c

/-- Whoever takes a class while a class after it is held is told which inversion that is. -/
def ReportsAlways : Prop :=
  ∀ i c inst d, w.OnStack i d → w.ClassAfter c d →
    ∃ v, (take name w.order (w.stackOf i) c inst true).2.2 = .error v ∧ w.Blames name i c v

/-- The same as long as the stack has room; when it is full, that is what is reported. -/
def Reports : Prop :=
  ∀ i c inst d, w.OnStack i d → w.ClassAfter c d →
    ∃ v, (take name w.order (w.stackOf i) c inst true).2.2 = .error v ∧
      (w.Blames name i c v ∨ ((w.stackOf i).held.length = maxHeld ∧ v = .tooDeep (name c)))

/-! ## An acquisition -/

section

variable {order : LockOrder κ} {stack : LockStack} {edges : List (Nat × Nat)}

/-- What an acquisition does: it reports a violation and pushes nothing, or it pushes the lock, and
without a violation every held lock is ordered before it. -/
structure Took (order order' : LockOrder κ) (stack stack' : LockStack) (edges : List (Nat × Nat))
    (cls : κ) (inst : Nat) (check : Bool) (res : Except LockViolation Unit) : Prop where
  inv : order'.Inv edges
  grown : order.classes <+: order'.classes
  mono : ∀ x y, order.After x y → order'.After x y
  pushed : (res.isOk = false ∧ stack'.held = stack.held) ∨
    ∃ index, order'.classes[index]? = some cls ∧ stack.held.length < maxHeld ∧
      stack' = { stack with held := stack.held ++ [⟨index, inst⟩] } ∧
      (check = true → res.isOk = true → ∀ h ∈ stack.held, order'.After h.cls index)

theorem took (h : order.Inv edges) (hlt : ∀ k ∈ stack.held, k.cls < order.classes.length) (cls : κ)
    (inst : Nat) (check : Bool) :
    Took order (Lockdep.take name order stack cls inst check).1 stack
      (Lockdep.take name order stack cls inst check).2.1
      (takeEdges order stack cls inst check ++ edges) cls inst check
      (Lockdep.take name order stack cls inst check).2.2 := by
  unfold Lockdep.take takeEdges
  rcases hr : order.register cls with ⟨_ | index, order1⟩
  · have he : order1 = order := by
      unfold register at hr
      split at hr
      · cases hr
      · split at hr <;> cases hr
        rfl
    rw [he]
    exact ⟨h.found _, prefix_rfl, fun _ _ => id, .inl ⟨rfl, rfl⟩⟩
  · obtain ⟨hreg, h1⟩ := register_some h hr
    have hmono : ∀ x y, order.After x y → order1.After x y := by
      intro x y hxy
      unfold LockOrder.After afterOf at hxy ⊢
      rw [hreg.after]
      exact hxy
    dsimp only
    split
    · exact ⟨h1.found _, hreg.grown, hmono, .inl ⟨rfl, rfl⟩⟩
    have hi : index < order1.classes.length := (List.getElem?_eq_some_iff.mp hreg.found).1
    have hscan := scanned name cls index h1 hi (if check then stack.held else [])
      (by
        intro k hk
        refine lt_of_lt_of_le (hlt k ?_) hreg.grown.length_le
        split at hk
        · exact hk
        · cases hk)
    generalize order1.scan name cls index (.ok ()) (if check then stack.held else []) = r at hscan
    obtain ⟨order2, verdict⟩ := r
    have hgrown : order.classes <+: order2.classes := hscan.classes ▸ hreg.grown
    have hmono2 : ∀ x y, order.After x y → order2.After x y :=
      fun x y hxy => hscan.mono x y (hmono x y hxy)
    have hfound : order2.classes[index]? = some cls := hscan.classes ▸ hreg.found
    split
    · rename_i hroom
      cases hv : verdict with
      | ok u =>
        refine ⟨hscan.inv, hgrown, hmono2, .inr ⟨index, hfound, hroom, rfl, fun hc _ k hk => ?_⟩⟩
        rw [if_pos hc] at hscan
        exact hscan.ordered k hk (hscan.ok hv k hk)
      | error v =>
        exact ⟨hscan.inv.found v, hgrown, hmono2, .inr ⟨index, hfound, hroom, rfl, fun _ ho => nomatch ho⟩⟩
    · exact ⟨hscan.inv.found _, hgrown, hmono2, .inl ⟨rfl, rfl⟩⟩

end

/-! ## The invariant -/

/-- What every step preserves. -/
structure Inv (w : LockWorld ι κ) : Prop where
  order : w.order.Inv w.edges
  known : ∀ i, ∀ h ∈ (w.stackOf i).held, h.cls < w.order.classes.length
  depth : ∀ i, (w.stackOf i).held.length ≤ maxHeld
  tracked : w.Tracked
  under : w.violated = false → ∀ h c, (h, c) ∈ w.under → w.ClassAfter h c

omit [DecidableEq ι] [DecidableEq κ] in
theorem inv_new : Inv (new : LockWorld ι κ) :=
  ⟨LockOrder.inv_new, fun _ => nofun, fun _ => Nat.zero_le _, fun _ _ => ⟨rfl, .nil⟩, fun _ _ _ => nofun⟩

omit [DecidableEq κ] in
theorem getElem?_grown {classes classes' : List κ} (hg : classes <+: classes') {x : Nat} {c : κ}
    (hx : classes[x]? = some c) : classes'[x]? = some c := by
  obtain ⟨more, rfl⟩ := hg
  rw [List.getElem?_append_left (List.getElem?_eq_some_iff.mp hx).1, hx]

section Lists

variable {α β : Type} {R : α → β → Prop} {l : List α} {l' : List β}

variable (h : List.Forall₂ R l l')

include h

theorem exists_of_forall₂ {b : β} (hb : b ∈ l') : ∃ a ∈ l, R a b := by
  induction h with
  | nil => cases hb
  | cons hab _ ih =>
    rcases mem_cons.mp hb with rfl | hb
    · exact ⟨_, mem_cons_self, hab⟩
    · obtain ⟨a, ha, hr⟩ := ih hb
      exact ⟨a, mem_cons_of_mem _ ha, hr⟩

/-- Lists that agree where `p` holds have the same last place for it. -/
theorem rposition_congr {p : α → Bool} {q : β → Bool}
    (hpq : ∀ a b, R a b → p a = q b) : rposition p l = rposition q l' := by
  induction h with
  | nil => rfl
  | cons hab _ ih => simp only [rposition, ih, hpq _ _ hab]

theorem forall₂_eraseIdx (i : Nat) : List.Forall₂ R (l.eraseIdx i) (l'.eraseIdx i) := by
  induction h generalizing i with
  | nil => exact .nil
  | cons hab htail ih =>
    cases i with
    | zero => exact htail
    | succ i => exact .cons hab (ih i)

end Lists

namespace Inv

variable {w}

omit [DecidableEq κ] in
/-- One stack changes, and the classes grow. -/
theorem restack (hw : Inv w) (i : ι) (stack : LockStack) {n : Nat} (hn : w.order.classes.length ≤ n)
    (hs : (∀ h ∈ stack.held, h.cls < n) ∧ stack.held.length ≤ maxHeld) :
    (∀ j, ∀ h ∈ (update w.stackOf i stack j).held, h.cls < n) ∧
      ∀ j, (update w.stackOf i stack j).held.length ≤ maxHeld :=
  forall_and.mp ((forall_update_iff w.stackOf fun _ s => (∀ h ∈ s.held, h.cls < n) ∧ s.held.length ≤ maxHeld).mpr
    ⟨hs, fun j _ => ⟨fun h hh => lt_of_lt_of_le (hw.known j h hh) hn, hw.depth j⟩⟩)

omit [DecidableEq κ] in
/-- A context takes a lock. -/
theorem acquired (hw : Inv w) {i : ι} {cls : κ} {inst : Nat} {blocking : Bool}
    {edges : List (Nat × Nat)} {order' : LockOrder κ} {stack' : LockStack}
    {res : Except LockViolation Unit}
    (ht : Took w.order order' (w.stackOf i) stack' (edges ++ w.edges) cls inst blocking res) :
    Inv (w.acquired i cls inst blocking edges (order', stack', res)) := by
  have hlen := ht.grown.length_le
  have hgrown {x : Nat} {c : κ} := getElem?_grown ht.grown (x := x) (c := c)
  have hafter {c d : κ} : w.ClassAfter c d →
      (w.acquired i cls inst blocking edges (order', stack', res)).ClassAfter c d :=
    fun ⟨x, y, hx, hy, hxy⟩ => ⟨x, y, hgrown hx, hgrown hy, ht.mono x y hxy⟩
  have hkept {j : ι} (hh : List.Forall₂ (Tracks w.order.classes) (w.stackOf j).held (w.holding j)) :
      List.Forall₂ (Tracks order'.classes) (w.stackOf j).held (w.holding j) :=
    hh.imp fun _ _ hk => ⟨hgrown hk.1, hk.2⟩
  have hviol : (w.acquired i cls inst blocking edges (order', stack', res)).violated = false →
      w.violated = false ∧ res.isOk = true := by
    intro hv
    have hv : (w.violated || !res.isOk) = false := hv
    simpa using hv
  have hknown : ∀ h ∈ (w.stackOf i).held, h.cls < order'.classes.length :=
    fun h hh => lt_of_lt_of_le (hw.known i h hh) hlen
  obtain ⟨hcls, hdepth⟩ := hw.restack i stack' hlen (by
    rcases ht.pushed with ⟨-, he⟩ | ⟨index, hx, hroom, rfl, -⟩
    · rw [he]
      exact ⟨hknown, hw.depth i⟩
    · rw [length_append, forall_mem_append, forall_mem_singleton]
      exact ⟨⟨hknown, (List.getElem?_eq_some_iff.mp hx).1⟩, hroom⟩)
  refine ⟨ht.inv, hcls, hdepth, fun hv => ?_, fun hv h c hc => ?_⟩
  · obtain ⟨hv', hok⟩ := hviol hv
    rcases ht.pushed with ⟨hno, -⟩ | ⟨index, hx, -, rfl, -⟩
    · exact absurd (hok.symm.trans hno) nofun
    have htaken : isTaken res = true := by
      cases res with
      | ok u => rfl
      | error v => cases hok
    intro j
    obtain ⟨hu, hh⟩ := hw.tracked hv' j
    by_cases hj : j = i
    · subst hj
      simp only [LockWorld.acquired, htaken, if_true, update_self]
      exact ⟨hu, rel_append (hkept hh) (.cons ⟨hx, rfl⟩ .nil)⟩
    · simp only [LockWorld.acquired, htaken, if_true, update_of_ne hj]
      exact ⟨hu, hkept hh⟩
  · obtain ⟨hv', hok⟩ := hviol hv
    have hold (hc : (h, c) ∈ w.under) := hafter (hw.under hv' h c hc)
    have hc : (h, c) ∈ if blocking then (w.holding i).map (fun h => (h.1, cls)) ++ w.under
      else w.under := hc
    split at hc
    · rename_i hb
      rcases mem_append.mp hc with hc | hc
      · -- The held lock is on the stack, so the pass ordered its class before this one.
        obtain ⟨l, hl, he⟩ := mem_map.mp hc
        cases he
        rcases ht.pushed with ⟨hno, -⟩ | ⟨index, hx, -, -, hord⟩
        · exact absurd (hok.symm.trans hno) nofun
        · obtain ⟨k, hk, hkl⟩ := exists_of_forall₂ (hw.tracked hv' i).2 hl
          exact ⟨k.cls, index, hgrown hkl.1, hx, hord hb hok k hk⟩
      · exact hold hc
    · exact hold hc

/-- A release of a lock that is not held is a violation; any other takes the same entry off the
stack and off what is held. -/
theorem released (hw : Inv w) (i : ι) (cls : κ) (inst : Nat) :
    Inv (w.released i cls inst (releaseIn name w.order (w.stackOf i) cls inst)) := by
  unfold releaseIn
  dsimp only
  split
  · rename_i place hplace
    obtain ⟨index, hindex, hpos⟩ := Option.bind_eq_some_iff.mp hplace
    have hcls := (indexOf_eq_some hw.order.nodup).mp hindex
    obtain ⟨hknown, hdepth⟩ := hw.restack i { w.stackOf i with held := (w.stackOf i).held.eraseIdx place } le_rfl
      ⟨fun h hh => hw.known i h (mem_of_mem_eraseIdx hh), (length_eraseIdx_le ..).trans (hw.depth i)⟩
    refine ⟨hw.order, hknown, hdepth, fun hv => ?_, fun hv => hw.under (Bool.or_eq_false_iff.mp hv).1⟩
    · have hv' : w.violated = false := (Bool.or_eq_false_iff.mp hv).1
      intro j
      obtain ⟨hu, hh⟩ := hw.tracked hv' j
      by_cases hj : j = i
      · subst hj
        have hsame : rposition (fun h => decide (h = (cls, inst))) (w.holding j) = some place := by
          rw [← hpos]
          refine (rposition_congr hh fun h l hl => ?_).symm
          have hc : h.cls = index ↔ l.1 = cls := by
            constructor
            · intro he
              have hx := hl.1
              rw [he, hcls] at hx
              exact (Option.some.inj hx).symm
            · intro he
              exact hw.order.number_unique (he ▸ hl.1) hcls
          rw [← Bool.decide_and, decide_eq_decide, hc, hl.2, Prod.ext_iff]
        simp only [LockWorld.released, update_self, letGo, hsame]
        exact ⟨hu, forall₂_eraseIdx hh place⟩
      · simp only [LockWorld.released, update_of_ne hj]
        exact ⟨hu, hh⟩
  · have hstacks (n : Nat) := hw.restack i { w.stackOf i with untracked := n } le_rfl ⟨hw.known i, hw.depth i⟩
    split
    · -- Nothing is tracked that could be released: a violation.
      have hbad {P : Prop} (hv : (w.violated || !false) = false) : P := by
        rw [Bool.not_false, Bool.or_true] at hv
        cases hv
      exact ⟨hw.order.found _, (hstacks _).1, (hstacks _).2, fun hv => hbad hv, fun hv => hbad hv⟩
    · rename_i hu
      have hbad {P : Prop} (hv : (w.violated || !true) = false) : P :=
        absurd (hw.tracked (Bool.or_eq_false_iff.mp hv).1 i).1 hu
      exact ⟨hw.order, (hstacks _).1, (hstacks _).2, fun hv => hbad hv, fun hv => hbad hv⟩

theorem step (hw : Inv w) (op : LockOp ι κ) : Inv (w.step name op) := by
  cases op with
  | acquire i cls inst blocking =>
    exact hw.acquired (took name hw.order (hw.known i) cls inst blocking)
  | release i cls inst => exact hw.released name i cls inst

/-! ## The results -/

omit [DecidableEq ι] [DecidableEq κ] in
theorem closed (hw : Inv w) : w.Closed := ⟨hw.order.closure, hw.order.acyclic⟩

omit [DecidableEq ι] [DecidableEq κ] in
/-- A path of classes that were taken under each other is a path of the order. -/
theorem acyclic (hw : Inv w) : w.Acyclic := by
  intro hv c hc
  have hpath : ∀ {a b}, TransGen (fun h c => (h, c) ∈ w.under) a b → w.ClassAfter a b := by
    intro a b h
    induction h with
    | single h => exact hw.under hv _ _ h
    | tail _ h ih =>
      obtain ⟨x, y, hx, hy, hxy⟩ := ih
      obtain ⟨y', z, hy', hz, hyz⟩ := hw.under hv _ _ h
      exact ⟨x, z, hx, hz, hw.order.trans hxy (hw.order.number_unique hy' hy ▸ hyz)⟩
  obtain ⟨x, y, hx, hy, hxy⟩ := hpath hc
  exact hw.order.acyclic x (hw.order.number_unique hy hx ▸ hxy)

omit [DecidableEq ι] in
theorem reports (hw : Inv w) : w.Reports name := by
  rintro i c inst d ⟨h, hh, hd⟩ ⟨x, y, hx, hy, hxy⟩
  have hxl := (List.getElem?_eq_some_iff.mp hx).1
  have he : y = h.cls := hw.order.number_unique hy hd
  have hr : w.order.register c = (some x, w.order) := by
    unfold register
    rw [(indexOf_eq_some hw.order.nodup).mpr hx]
  have hscan := scanned name c x hw.order hxl _ (hw.known i)
  unfold Lockdep.take
  rw [hr]
  dsimp only
  split
  · exact ⟨_, rfl, .inl (.inl rfl)⟩
  rw [if_pos rfl]
  generalize w.order.scan name c x (.ok ()) (w.stackOf i).held = r at hscan
  obtain ⟨order', verdict⟩ := r
  split
  · cases hv : verdict with
    | ok u => exact absurd (.inr (he ▸ hxy)) (hscan.ok hv h hh)
    | error v =>
      refine ⟨v, rfl, .inl (.inr ((hscan.error v hv).imp id ?_))⟩
      rintro ⟨k, hk, hxk, rfl⟩
      have hkl := getElem?_eq_getElem (hw.known i k hk)
      refine ⟨_, ⟨k, hk, hkl⟩, ⟨x, k.cls, hx, hkl, hxk⟩, ?_⟩
      rw [nameOf, hkl]
      rfl
  · rename_i hfull
    exact ⟨_, rfl, .inr ⟨le_antisymm (hw.depth i) (not_lt.mp hfull), rfl⟩⟩

end Inv

def steps (w : LockWorld ι κ) (ops : List (LockOp ι κ)) : LockWorld ι κ := ops.foldl (step name) w

theorem Reaches.steps {w : LockWorld ι κ} (h : Reaches name w) (ops : List (LockOp ι κ)) :
    Reaches name (w.steps name ops) :=
  foldlRecOn ops _ h fun _ h op _ => h.step op

end LockWorld

/-- The order is the closure of what was recorded; without a violation, every stack is what its
context holds and locks were taken without a cycle; and an inversion is reported, unless the
context's stack is full, which is reported then. -/
theorem lockdep_checks {ι κ : Type} [DecidableEq ι] [DecidableEq κ] {name : κ → String}
    {w : LockWorld ι κ} (h : LockWorld.Reaches name w) :
    w.Closed ∧ w.Tracked ∧ w.Acyclic ∧ w.Reports name := by
  have hw : LockWorld.Inv w := by
    induction h with
    | new => exact LockWorld.inv_new
    | step _ op ih => exact ih.step name op
  exact ⟨hw.closed, hw.tracked, hw.acyclic, hw.reports name⟩

namespace LockWorld

/-- One context takes a lock of class 1 under one of class 0, and lets go of both. -/
def ordered : LockWorld Unit Nat :=
  steps toString new
    [.acquire () 0 0 true, .acquire () 1 0 true, .release () 1 0, .release () 0 0]

/-- Then it takes a lock of class 1 again. -/
def inverted : LockWorld Unit Nat := ordered.steps toString [.acquire () 1 0 true]

/-- And fifteen more of other classes, without blocking. -/
def deep : LockWorld Unit Nat :=
  inverted.steps toString ((List.range 15).map fun n => .acquire () (n + 2) 0 false)

theorem reaches_ordered : Reaches toString ordered := Reaches.steps toString .new _

theorem deep_full : (take toString deep.order (deep.stackOf ()) 0 0 true).2.2 =
    .error (.tooDeep "0") := by decide +kernel

theorem deep_onStack : deep.OnStack () 1 := by
  refine ⟨⟨1, 0⟩, ?_, ?_⟩ <;> decide +kernel

theorem deep_classAfter : deep.ClassAfter 0 1 := by
  refine ⟨0, 1, ?_, ?_, ?_⟩ <;> decide +kernel

end LockWorld

/-- Taking a lock of class 0 under one of class 1 is reported. -/
theorem lockdep_checks_inverted :
    LockWorld.inverted.Closed ∧ LockWorld.inverted.Tracked ∧ LockWorld.inverted.Acyclic ∧
      LockWorld.inverted.Reports toString ∧
      (take toString LockWorld.inverted.order (LockWorld.inverted.stackOf ()) 0 0 true).2.2 =
        .error (.inversion "1" "0") := by
  obtain ⟨h1, h2, h3, h4⟩ := lockdep_checks (LockWorld.reaches_ordered.steps toString _)
  exact ⟨h1, h2, h3, h4, by decide +kernel⟩

/-- With sixteen locks held, the inversion is found and another violation returned. -/
theorem lockdep_reports_fails :
    ∃ w : LockWorld Unit Nat, LockWorld.Reaches toString w ∧ ¬w.ReportsAlways toString := by
  refine ⟨LockWorld.deep, (LockWorld.reaches_ordered.steps toString _).steps toString _, fun h => ?_⟩
  obtain ⟨v, hv, hb⟩ := h () 0 0 1 LockWorld.deep_onStack LockWorld.deep_classAfter
  have he : v = .tooDeep "0" := Except.error.inj (hv.symm.trans LockWorld.deep_full)
  subst he
  rcases hb with hb | hb | ⟨d, -, -, hb⟩ <;> cases hb

end Kintane
