import Mathlib.Logic.Relation

/-!
# Transitive closure, one edge at a time

What an added edge adds to the transitive closure of a relation, and when it closes a cycle.
-/

namespace Kintane

namespace Closure

open Relation

variable {α : Type*} {r : α → α → Prop} {a b x y : α}

def addEdge (r : α → α → Prop) (a b : α) (x y : α) : Prop := r x y ∨ (x = a ∧ y = b)

/-- A path uses the new edge or not; one that uses it more than once is shortened. -/
theorem transGen_addEdge :
    TransGen (addEdge r a b) x y ↔ TransGen r x y ∨ (ReflTransGen r x a ∧ ReflTransGen r b y) := by
  have hmono : ∀ {x y}, ReflTransGen r x y → ReflTransGen (addEdge r a b) x y :=
    fun h => ReflTransGen.mono (fun _ _ => .inl) _ _ h
  constructor
  · intro h
    induction h with
    | single h =>
      rcases h with h | ⟨rfl, rfl⟩
      · exact .inl (.single h)
      · exact .inr ⟨.refl, .refl⟩
    | tail _ h ih =>
      rcases h with h | ⟨rfl, rfl⟩
      · rcases ih with ih | ⟨h1, h2⟩
        · exact .inl (ih.tail h)
        · exact .inr ⟨h1, h2.tail h⟩
      · rcases ih with ih | ⟨h1, -⟩
        · exact .inr ⟨ih.to_reflTransGen, .refl⟩
        · exact .inr ⟨h1, .refl⟩
  · rintro (h | ⟨h1, h2⟩)
    · exact TransGen.mono (fun _ _ => .inl) _ _ h
    · exact TransGen.trans_left (TransGen.tail' (hmono h1) (.inr ⟨rfl, rfl⟩)) (hmono h2)

/-- An edge closes no cycle if there is no path back. -/
theorem acyclic_addEdge (h : ∀ x, ¬TransGen r x x) (hback : ¬ReflTransGen r b a) (x : α) :
    ¬TransGen (addEdge r a b) x x := by
  rw [transGen_addEdge]
  rintro (hx | ⟨h1, h2⟩)
  · exact h x hx
  · exact hback (h2.trans h1)

end Closure

end Kintane
