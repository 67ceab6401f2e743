import Mathlib.Algebra.BigOperators.Group.List.Basic

/-!
# Counting what lists of containers hold

The contents of a list of containers, as multisets or as numbers, and how they change when
one container does.
-/

namespace Kintane.Tally

variable {α M : Type*} [AddCancelCommMonoid M] {a b : α} {i : Nat} {l : List α} {m : M}

/-- All that the containers of a list hold. -/
def total (f : α → M) (l : List α) : M := (l.map f).sum

theorem total_nil (f : α → M) : total f [] = 0 := rfl

theorem total_cons (f : α → M) (a : α) (l : List α) : total f (a :: l) = f a + total f l := by
  rw [total, List.map_cons, List.sum_cons, total]

theorem total_append (f : α → M) (l l' : List α) : total f (l ++ l') = total f l + total f l' := by
  rw [total, List.map_append, List.sum_append, total, total]

/-- One container is exchanged. -/
theorem total_set (f : α → M) (h : l[i]? = some a) (b : α) : total f (l.set i b) + f a = total f l + f b := by
  induction l generalizing i with
  | nil => cases h
  | cons c l ih =>
    cases i with
    | zero =>
      cases h
      rw [List.set_cons_zero, total_cons, total_cons, add_right_comm, add_comm (f b), add_right_comm]
    | succ i => rw [List.set_cons_succ, total_cons, total_cons, add_assoc, ih h, add_assoc]

theorem set_same (h : l[i]? = some a) : l.set i a = l := by
  obtain ⟨hi, rfl⟩ := List.getElem?_eq_some_iff.mp h
  exact List.set_getElem_self hi

/-- A container that gains `m`. -/
theorem total_set_add (f : α → M) (h : l[i]? = some a)
    (hb : f b = f a + m) : total f (l.set i b) = total f l + m := by
  have := total_set f h b
  rw [hb, ← add_assoc, add_right_comm] at this
  exact add_right_cancel this

/-- A container that loses `m`. -/
theorem total_set_sub (f : α → M) (h : l[i]? = some a)
    (hb : f a = f b + m) : total f l = total f (l.set i b) + m := by
  have := total_set f h b
  rw [hb, ← add_assoc, add_right_comm] at this
  exact (add_right_cancel this).symm

end Kintane.Tally
