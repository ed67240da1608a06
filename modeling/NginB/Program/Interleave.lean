import Mathlib.Data.List.Basic

/-! # Interleavings of two lists

A list that is made of two others, each of them in its order.
-/
namespace NginB.Program

variable {α : Type*}

inductive Interleave : List α → List α → List α → Prop
  | nil : Interleave [] [] []
  | left {x a b l} (h : Interleave a b l) : Interleave (x :: a) b (x :: l)
  | right {x a b l} (h : Interleave a b l) : Interleave a (x :: b) (x :: l)

namespace Interleave
variable {a b c l l' m : List α} {p : α → Bool}

theorem only_left (a : List α) : Interleave a [] a := by
  induction a with
  | nil => exact .nil
  | cons x a ih => exact ih.left

theorem only_right (b : List α) : Interleave [] b b := by
  induction b with
  | nil => exact .nil
  | cons x b ih => exact ih.right

theorem append (h : Interleave a b l) {a' b' : List α} (h' : Interleave a' b' l') :
    Interleave (a ++ a') (b ++ b') (l ++ l') := by
  induction h with
  | nil => exact h'
  | left _ ih => exact ih.left
  | right _ ih => exact ih.right

/-- A list that a filter deletes may be left out before. -/
theorem filter_eq (h : Interleave a b l) (ha : ∀ x ∈ a, p x = false) : l.filter p = b.filter p := by
  induction h with
  | nil => rfl
  | @left x a b l _ ih =>
    obtain ⟨hx, ha⟩ := List.forall_mem_cons.mp ha
    rw [List.filter_cons_of_neg (by rw [hx]; exact Bool.false_ne_true), ih ha]
  | right _ ih => rw [List.filter_cons, List.filter_cons, ih ha]

end Interleave

end NginB.Program
