import Mathlib.Data.List.Basic

/-!
# Images

An image gives a value to every address. `slice` reads a run of them, `splice` copies a run over
them, and `block` is one of the runs of equal length an image is made of.
-/

namespace Kintane.Image

variable {α : Type} {f g : Nat → α} {l : List α} {start len b c bs within i start' : Nat}

def slice (f : Nat → α) (start len : Nat) : List α := (List.range len).map fun i => f (start + i)

/-- The image with others copied over its values at `start`. -/
def splice (f : Nat → α) (start : Nat) (l : List α) : Nat → α := fun i =>
  if h : start ≤ i ∧ i - start < l.length then l[i - start] else f i

def block (bs : Nat) (f : Nat → α) (b : Nat) : List α := slice f (b * bs) bs

@[simp] theorem length_slice : (slice f start len).length = len := by simp [slice]

@[simp] theorem length_block : (block bs f b).length = bs := length_slice

theorem getElem?_slice : (slice f start len)[i]? = if i < len then some (f (start + i)) else none := by
  unfold slice
  split <;> simp [*]

theorem slice_eq_slice_iff :
    slice f start len = slice g start' len ↔ ∀ i < len, f (start + i) = g (start' + i) := by
  simp [slice]

theorem slice_append {len' : Nat} :
    slice f start (len + len') = slice f start len ++ slice f (start + len) len' := by
  simp [slice, List.range_add, Nat.add_assoc]

theorem splice_of_lt (h : i < start) : splice f start l i = f i := dif_neg (by omega)

theorem splice_of_le (h : start + l.length ≤ i) : splice f start l i = f i := dif_neg (by omega)

theorem splice_of_mem (h : i < l.length) : splice f start l (start + i) = l[i] := by
  rw [splice, dif_pos (by omega)]
  congr 1
  omega

@[simp] theorem splice_nil : splice f start [] = f := by
  funext i
  exact dif_neg (by simp)

theorem splice_append {l' : List α} :
    splice f start (l ++ l') = splice (splice f start l) (start + l.length) l' := by
  funext i
  rcases Nat.lt_or_ge i start with h | h
  · rw [splice_of_lt h, splice_of_lt (by omega), splice_of_lt h]
  obtain ⟨k, rfl⟩ := Nat.exists_eq_add_of_le h
  rcases Nat.lt_or_ge k l.length with hk | hk
  · rw [splice_of_mem (by simp; omega), List.getElem_append_left hk, splice_of_lt (by omega), splice_of_mem hk]
  obtain ⟨m, rfl⟩ := Nat.exists_eq_add_of_le hk
  rw [← Nat.add_assoc]
  rcases Nat.lt_or_ge m l'.length with hm | hm
  · rw [splice_of_mem hm, Nat.add_assoc, splice_of_mem (by simp; omega)]
    simp
  · have hm' : start + l.length + l'.length ≤ start + l.length + m := by omega
    rw [splice_of_le (by rw [List.length_append]; omega), splice_of_le hm', splice_of_le (by omega)]

theorem slice_splice_self : slice (splice f start l) start l.length = l := by
  apply List.ext_getElem?
  intro i
  rw [getElem?_slice]
  split
  · next h => rw [splice_of_mem h, List.getElem?_eq_getElem h]
  · next h => rw [List.getElem?_eq_none (by omega)]

theorem slice_splice_of_disjoint (h : start' + len ≤ start ∨ start + l.length ≤ start') :
    slice (splice f start l) start' len = slice f start' len := by
  rw [slice_eq_slice_iff]
  intro i hi
  rcases h with h | h
  · exact splice_of_lt (by omega)
  · exact splice_of_le (by omega)

/-! ## Blocks -/

theorem block_eq_block_iff : block bs f b = block bs g c ↔ ∀ i < bs, f (b * bs + i) = g (c * bs + i) :=
  slice_eq_slice_iff

/-- Copying over a whole block. -/
theorem block_splice_self (h : l.length = bs) : block bs (splice f (b * bs) l) b = l := by
  subst h
  exact slice_splice_self

/-- Blocks do not overlap. -/
theorem block_splice_of_ne (hne : c ≠ b) (h : within + l.length ≤ bs) :
    block bs (splice f (b * bs + within) l) c = block bs f c := by
  refine slice_splice_of_disjoint ?_
  rcases Nat.lt_or_gt_of_ne hne with hlt | hlt
  · have : (c + 1) * bs ≤ b * bs := Nat.mul_le_mul_right bs hlt
    rw [Nat.succ_mul] at this
    omega
  · have : (b + 1) * bs ≤ c * bs := Nat.mul_le_mul_right bs hlt
    rw [Nat.succ_mul] at this
    omega

/-- Copying the same values into equal blocks. -/
theorem block_splice_congr (heq : block bs f b = block bs g c) :
    block bs (splice f (b * bs + within) l) b = block bs (splice g (c * bs + within) l) c := by
  rw [block_eq_block_iff] at heq ⊢
  intro i hi
  rcases Nat.lt_or_ge i within with h | h
  · rw [splice_of_lt (by omega), splice_of_lt (by omega)]
    exact heq i hi
  obtain ⟨k, rfl⟩ := Nat.exists_eq_add_of_le h
  rw [← Nat.add_assoc, ← Nat.add_assoc]
  rcases Nat.lt_or_ge k l.length with hk | hk
  · rw [splice_of_mem hk, splice_of_mem hk]
  · rw [splice_of_le (by omega), splice_of_le (by omega), Nat.add_assoc, Nat.add_assoc]
    exact heq _ hi

/-- A run inside a block. -/
theorem slice_eq_of_block_eq (heq : block bs f b = block bs g c) (h : within + len ≤ bs) :
    slice f (b * bs + within) len = slice g (c * bs + within) len := by
  rw [block_eq_block_iff] at heq
  rw [slice_eq_slice_iff]
  intro i hi
  rw [Nat.add_assoc, Nat.add_assoc]
  exact heq _ (by omega)

end Kintane.Image
