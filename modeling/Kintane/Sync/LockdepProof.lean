import Kintane.Lib.Bits
import Kintane.Lib.Closure
import Kintane.Sync.Lockdep

/-!
# The order is the closure of its edges

`after` is the transitive closure of the edges that were added, and has no cycle: an edge is added
only when there is no path back. One pass over the held locks relates each of them to the class
that is taken.
-/

open List

namespace Kintane

open Relation Kintane.Except

namespace LockOrder

variable {κ : Type} {i : Nat} {hs : List HeldLock} {order' order1 order : LockOrder κ} {r : Except LockViolation Unit}
  {edges : List (Nat × Nat)}

/-- Class `y` is after class `x`. -/
def After (order : LockOrder κ) (x y : Nat) : Prop := (order.afterOf x).getLsbD y = true

instance (order : LockOrder κ) (x y : Nat) : Decidable (order.After x y) :=
  inferInstanceAs (Decidable (_ = true))

theorem hasBit_eq (w : BitVec 64) (hi : i < 64) : hasBit w i = w.getLsbD i := by
  rw [Bool.eq_iff_iff, hasBit, decide_eq_true_eq]
  exact (not_congr (Bits.and_one_eq_zero w hi)).trans (Bool.not_eq_false _).to_iff

/-- What holds of the order with the edges that were added to it. -/
structure Inv (order : LockOrder κ) (edges : List (Nat × Nat)) : Prop where
  size : order.after.length = 64
  known : order.classes.length ≤ 64
  nodup : order.classes.Nodup
  closure : ∀ x y, order.After x y ↔ TransGen (fun a b => (a, b) ∈ edges) x y
  acyclic : ∀ x, ¬order.After x x
  bound : ∀ e ∈ edges, e.1 < order.classes.length ∧ e.2 < order.classes.length

theorem inv_new : Inv (new : LockOrder κ) [] := by
  have hno : ∀ x y, ¬(new : LockOrder κ).After x y := by
    intro x y h
    unfold After afterOf new at h
    rw [getElem?_replicate] at h
    split at h <;> simp at h
  refine ⟨length_replicate, Nat.zero_le _, nodup_nil, fun x y => ?_, fun x => hno x x, nofun⟩
  refine ⟨fun h => absurd h (hno x y), fun h => ?_⟩
  cases h with
  | single h => cases h
  | tail _ h => cases h

namespace Inv

variable (h : Inv order edges) {x y a b : Nat}

include h

theorem trans {z : Nat} (hxy : order.After x y) (hyz : order.After y z) : order.After x z :=
  (h.closure x z).mpr (((h.closure x y).mp hxy).trans ((h.closure y z).mp hyz))

/-- A class has one number. -/
theorem number_unique {c : κ} (hx : order.classes[x]? = some c) (hy : order.classes[y]? = some c) : x = y :=
  (List.getElem?_inj (List.getElem?_eq_some_iff.mp hx).1 h.nodup).mp (hx.trans hy.symm)

theorem after_lt (hxy : order.After x y) : x < order.classes.length ∧ y < order.classes.length := by
  have ht := (h.closure x y).mp hxy
  constructor
  · obtain ⟨z, hz, -⟩ := TransGen.head'_iff.mp ht
    exact (h.bound _ hz).1
  · obtain ⟨z, -, hz⟩ := TransGen.tail'_iff.mp ht
    exact (h.bound _ hz).2

/-- What an edge adds. -/
theorem after_addEdge (ha : a < order.classes.length) (hb : b < order.classes.length)
    (x y : Nat) : (order.addEdge a b).After x y ↔
      order.After x y ∨ ((x = a ∨ order.After x a) ∧ (y = b ∨ order.After b y)) := by
  have hk := h.known
  have hgain : (order.afterOf b ||| 1#64 <<< b).getLsbD y = true ↔ (y = b ∨ order.After b y) := by
    rw [BitVec.getLsbD_or, ← Bits.one, Bits.getLsbD_one _ (by omega), Bool.or_eq_true, decide_eq_true_eq, or_comm]
    rfl
  have hw : (order.addEdge a b).afterOf x =
      if x = a ∨ order.After x a then order.afterOf x ||| (order.afterOf b ||| 1#64 <<< b)
      else order.afterOf x := by
    cases hx : order.after[x]? with
    | none =>
      have hne : ¬(x = a ∨ order.After x a) := by
        rintro (rfl | hx')
        · rw [getElem?_eq_none_iff, h.size] at hx
          omega
        · unfold After afterOf at hx'
          rw [hx] at hx'
          simp at hx'
      rw [if_neg hne]
      unfold afterOf addEdge
      rw [getElem?_mapIdx, hx]
      rfl
    | some w =>
      have hof : order.afterOf x = w := by
        unfold afterOf
        rw [hx]
        rfl
      -- The loop stops at `known`, past which no class is before another.
      have hc : (x < order.classes.length ∧ (x = a ∨ hasBit w a = true)) ↔
          (x = a ∨ order.After x a) := by
        rw [hasBit_eq w (by omega), ← hof]
        refine ⟨And.right, fun hx' => ⟨?_, hx'⟩⟩
        rcases hx' with rfl | hx'
        · exact ha
        · exact (h.after_lt hx').1
      rw [← if_congr hc rfl rfl, hof]
      unfold addEdge
      rw [afterOf, getElem?_mapIdx, hx]
      rfl
  unfold After
  rw [hw]
  split
  · rename_i hc
    rw [BitVec.getLsbD_or, Bool.or_eq_true, hgain]
    exact ⟨fun ho => ho.imp id fun hy => ⟨hc, hy⟩, fun ho => ho.imp id And.right⟩
  · rename_i hc
    exact ⟨.inl, fun ho => ho.resolve_right fun hr => hc hr.1⟩

theorem reflTransGen_iff : ReflTransGen (fun a b => (a, b) ∈ edges) x y ↔ (x = y ∨ order.After x y) := by
  rw [reflTransGen_iff_eq_or_transGen, h.closure, eq_comm]

/-- An edge that has no path back keeps the order without a cycle. -/
theorem addEdge (ha : a < order.classes.length) (hb : b < order.classes.length)
    (hne : a ≠ b) (hback : ¬order.After b a) : Inv (order.addEdge a b) ((a, b) :: edges) := by
  have hrel : (fun x y => (x, y) ∈ (a, b) :: edges) =
      Closure.addEdge (fun x y => (x, y) ∈ edges) a b := by
    funext x y
    rw [mem_cons, Prod.mk.injEq, or_comm]
    rfl
  have hclosure : ∀ x y, (order.addEdge a b).After x y ↔
      TransGen (fun x y => (x, y) ∈ (a, b) :: edges) x y := by
    intro x y
    rw [h.after_addEdge ha hb, hrel, Closure.transGen_addEdge, h.closure, h.reflTransGen_iff,
      h.reflTransGen_iff, eq_comm (a := y)]
  refine ⟨by rw [LockOrder.addEdge, length_mapIdx, h.size], h.known, h.nodup, hclosure, fun x => ?_, ?_⟩
  · rw [hclosure, hrel]
    refine Closure.acyclic_addEdge (fun x => (h.closure x x).not.mp (h.acyclic x)) ?_ x
    rw [h.reflTransGen_iff]
    rintro (he | hba)
    · exact hne he.symm
    · exact hback hba
  · exact forall_mem_cons.mpr ⟨⟨ha, hb⟩, h.bound⟩

/-- What is counted and reported is no part of the order. -/
theorem found (v : LockViolation) : Inv (order.found v) edges := { h with }

end Inv

/-! ## One pass over the held locks -/

variable (name : κ → String) (cls : κ) (index : Nat)

/-- The edges that the loop adds. -/
def scanEdges : LockOrder κ → List HeldLock → List (Nat × Nat)
  | _, [] => []
  | order, h :: hs =>
    if h.cls = index ∨ hasBit (order.afterOf index) h.cls ∨ hasBit (order.afterOf h.cls) index then
      scanEdges order hs
    else scanEdges (order.addEdge h.cls index) hs ++ [(h.cls, index)]

/-- A held lock under which the class must not be taken. -/
def Bad (order : LockOrder κ) (h : HeldLock) : Prop := h.cls = index ∨ order.After index h.cls

/-- A violation that names an inversion, or two locks of one class. -/
def Names (order : LockOrder κ) (hs : List HeldLock) (v : LockViolation) : Prop :=
  v = .sameClass (name cls) ∨ ∃ h ∈ hs, order.After index h.cls ∧
    v = .inversion (order.nameOf name h.cls) (name cls)

/-- What one pass does to the order and finds. -/
structure Scanned (order order' : LockOrder κ) (edges : List (Nat × Nat)) (hs : List HeldLock)
    (verdict : Except LockViolation Unit) : Prop where
  inv : Inv order' (order.scanEdges index hs ++ edges)
  classes : order'.classes = order.classes
  mono : ∀ x y, order.After x y → order'.After x y
  own : ∀ y, order'.After index y ↔ order.After index y
  ordered : ∀ h ∈ hs, ¬Bad index order h → order'.After h.cls index
  ok : verdict = .ok () → ∀ h ∈ hs, ¬Bad index order h
  error : ∀ v, verdict = .error v → Names name cls index order hs v

/-- The verdict so far changes nothing but the verdict. -/
theorem scan_verdict (order : LockOrder κ) (verdict : Except LockViolation Unit) (hs : List HeldLock) :
    order.scan name cls index verdict hs =
      ((order.scan name cls index (.ok ()) hs).1,
        andThen verdict (order.scan name cls index (.ok ()) hs).2) := by
  have hassoc (a b c : Except LockViolation Unit) :
      andThen (andThen a b) c = andThen a (andThen b c) := by
    cases a <;> rfl
  have hok (a : Except LockViolation Unit) : andThen (.ok ()) a = a := rfl
  induction hs generalizing order verdict with
  | nil => cases verdict <;> rfl
  | cons h hs ih =>
    simp only [scan]
    split
    · rw [ih order (andThen verdict _), ih order (andThen (.ok ()) _), hassoc, hok]
    split
    · rw [ih order (andThen verdict _), ih order (andThen (.ok ()) _), hassoc, hok]
    · split
      · exact ih order verdict
      · exact ih (order.addEdge h.cls index) verdict

/-- A lock that is found to be wrong. -/
theorem Scanned.found (hsc : Scanned name cls index order order' edges hs r) {h : HeldLock} (hbad : Bad index order h)
    {v : LockViolation} (hv : Names name cls index order (h :: hs) v)
    (hedges : order.scanEdges index (h :: hs) = order.scanEdges index hs) :
    Scanned name cls index order order' edges (h :: hs) (andThen (.error v) r) where
  inv := hedges ▸ hsc.inv
  classes := hsc.classes
  mono := hsc.mono
  own := hsc.own
  ordered := forall_mem_cons.mpr ⟨absurd hbad, hsc.ordered⟩
  ok := nofun
  error := by
    rintro w hw
    cases hw
    exact hv

/-- A lock that the class may be taken under. -/
theorem Scanned.passed {edges1 : List (Nat × Nat)}
        (hsc : Scanned name cls index order1 order' edges1 hs r) {h : HeldLock}
    (hgood : ¬Bad index order h) (hclasses : order1.classes = order.classes)
    (hmono : ∀ x y, order.After x y → order1.After x y)
    (hown : ∀ y, order1.After index y ↔ order.After index y) (hord : order1.After h.cls index)
    (hedges : order1.scanEdges index hs ++ edges1 = order.scanEdges index (h :: hs) ++ edges) :
    Scanned name cls index order order' edges (h :: hs) r := by
  have hbad : ∀ k, Bad index order1 k ↔ Bad index order k := fun k => or_congr Iff.rfl (hown k.cls)
  refine ⟨hedges ▸ hsc.inv, hsc.classes.trans hclasses, fun x y hxy => hsc.mono x y (hmono x y hxy),
    fun y => (hsc.own y).trans (hown y), forall_mem_cons.mpr ⟨fun _ => hsc.mono _ _ hord, fun k hk hnot => ?_⟩,
    fun hr => forall_mem_cons.mpr ⟨hgood, fun k hk => (hbad k).not.mp (hsc.ok hr k hk)⟩, fun v hv => ?_⟩
  · exact hsc.ordered k hk ((hbad k).not.mpr hnot)
  · refine (hsc.error v hv).imp id fun ⟨k, hk, hak, he⟩ => ⟨k, mem_cons_of_mem _ hk, (hown _).mp hak, ?_⟩
    rw [he, nameOf, nameOf, hclasses]

theorem scanned (h : Inv order edges) (hi : index < order.classes.length) (hs : List HeldLock)
    (hlt : ∀ k ∈ hs, k.cls < order.classes.length) :
    Scanned name cls index order (order.scan name cls index (.ok ()) hs).1 edges hs
      (order.scan name cls index (.ok ()) hs).2 := by
  have hk := h.known
  induction hs generalizing order edges with
  | nil => exact ⟨h, rfl, fun _ _ => id, fun _ => Iff.rfl, nofun, fun _ => nofun, nofun⟩
  | cons k hs ih =>
    have hkl := hlt k mem_cons_self
    have hrest := fun j hj => hlt j (mem_cons_of_mem k hj)
    have hbit1 : hasBit (order.afterOf index) k.cls = true ↔ order.After index k.cls := by
      rw [hasBit_eq _ (by omega)]
      rfl
    have hbit2 : hasBit (order.afterOf k.cls) index = true ↔ order.After k.cls index := by
      rw [hasBit_eq _ (by omega)]
      rfl
    simp only [scan]
    split
    · rename_i he
      rw [scan_verdict]
      exact (ih h hi hrest hk).found name cls index (.inl he) (.inl rfl) (if_pos (.inl he))
    rename_i hne
    split
    · rename_i hinv
      rw [scan_verdict]
      exact (ih h hi hrest hk).found name cls index (.inr (hbit1.mp hinv))
        (.inr ⟨k, mem_cons_self, hbit1.mp hinv, rfl⟩) (if_pos (.inr (.inl hinv)))
    rename_i hinv
    have hgood : ¬Bad index order k := not_or.mpr ⟨hne, hbit1.not.mp hinv⟩
    split
    · rename_i hord
      exact (ih h hi hrest hk).passed name cls index hgood rfl (fun _ _ => id) (fun _ => Iff.rfl)
        (hbit2.mp hord) (by rw [scanEdges, if_pos (.inr (.inr hord))])
    rename_i hord
    have hback : ¬order.After index k.cls := fun ha => hgood (.inr ha)
    have hafter := h.after_addEdge hkl hi
    -- Nothing is added after the class itself, which has no path to the held one.
    have hown : ∀ y, (order.addEdge k.cls index).After index y ↔ order.After index y := by
      intro y
      rw [hafter]
      refine ⟨fun ho => ho.resolve_right ?_, .inl⟩
      rintro ⟨he | ha, -⟩
      · exact hne he.symm
      · exact hback ha
    refine (ih (h.addEdge hkl hi hne hback) hi hrest hk).passed name cls index hgood rfl
      (fun x y hxy => (hafter x y).mpr (.inl hxy)) hown
      ((hafter _ _).mpr (.inr ⟨.inl rfl, .inl rfl⟩)) ?_
    rw [scanEdges, if_neg (by simp only [not_or]; exact ⟨hne, hinv, hord⟩), append_assoc]
    rfl

/-! ## Classes -/

section

variable [DecidableEq κ]

theorem indexOf_eq_some {cls : κ} (hn : order.classes.Nodup) :
    order.indexOf cls = some i ↔ order.classes[i]? = some cls := by
  unfold indexOf
  rw [findIdx?_eq_some_iff_getElem, getElem?_eq_some_iff]
  refine exists_congr fun hi => ?_
  rw [decide_eq_true_eq]
  refine ⟨And.left, fun he => ⟨he, fun j hj => ?_⟩⟩
  rw [decide_eq_true_eq, ← he]
  exact fun hji => absurd ((List.Nodup.getElem_inj_iff hn).mp hji) (by omega)

/-- The class has its index, new or not, and the order is the same. -/
structure Registered (order order1 : LockOrder κ) (cls : κ) (index : Nat) : Prop where
  found : order1.classes[index]? = some cls
  grown : order.classes <+: order1.classes
  after : order1.after = order.after

theorem register_some {cls : κ} {index : Nat} (h : Inv order edges) (hr : order.register cls = (some index, order1)) :
    Registered order order1 cls index ∧ Inv order1 edges := by
  unfold register at hr
  split at hr
  · rename_i i hi
    cases hr
    exact ⟨⟨(indexOf_eq_some h.nodup).mp hi, prefix_rfl, rfl⟩, h⟩
  rename_i hno
  split at hr
  · rename_i hlt
    cases hr
    have hnot : cls ∉ order.classes := by
      intro hmem
      obtain ⟨i, hi⟩ := mem_iff_getElem?.mp hmem
      rw [(indexOf_eq_some h.nodup).mpr hi] at hno
      cases hno
    have hlen : (order.classes ++ [cls]).length = order.classes.length + 1 := length_append
    have hlt : order.classes.length < 64 := hlt
    refine ⟨⟨?_, prefix_append .., rfl⟩, h.size, ?_, ?_, h.closure, h.acyclic, fun e he => ?_⟩
    · exact getElem?_concat_length ..
    · change (order.classes ++ [cls]).length ≤ 64
      omega
    · exact h.nodup.append (nodup_singleton _) (disjoint_singleton.mpr hnot)
    · have hb := h.bound e he
      change e.1 < (order.classes ++ [cls]).length ∧ e.2 < (order.classes ++ [cls]).length
      omega
  · cases hr

end

end LockOrder

end Kintane
