import Mathlib.Data.List.Induction

/-! # Settings of nested levels

A level that does not set a value takes the one of the level around it. Levels are merged from the
outermost one inwards, each with the one around it, which has been merged before.
-/
namespace NginB.Program

/-- A merge of the value that a level sets, the value around it, and a default. -/
structure Inherits {α : Type*} (merge : Option α → Option α → α → α) : Prop where
  own (a : α) (outer : Option α) (d : α) : merge (some a) outer d = a
  outer (a d : α) : merge none (some a) d = a
  default (d : α) : merge none none d = d

def innermost {α : Type*} (levels : List (Option α)) : Option α := levels.reverse.findSome? id

/-- What is set, or else what is set around it, or else the default. -/
def inherited {α : Type*} (own outer : Option α) (d : α) : α := (own.or outer).getD d

section Levels
variable {α : Type*} {merge : Option α → Option α → α → α} {a d : α} {own outer : Option α} {levels : List (Option α)}

theorem inherits_inherited : Inherits (inherited (α := α)) where
  own _ _ _ := rfl
  outer _ _ := rfl
  default _ := rfl

theorem Inherits.eq_inherited (h : Inherits merge) : merge own outer d = inherited own outer d := by
  cases own with
  | some a => exact h.own a outer d
  | none =>
    cases outer with
    | some a => exact h.outer a d
    | none => exact h.default d

theorem innermost_append (levels : List (Option α)) (own : Option α) :
    innermost (levels ++ [own]) = own.or (innermost levels) := by
  rw [innermost, List.reverse_append, List.reverse_singleton, List.singleton_append, List.findSome?_cons]
  cases own <;> rfl

/-- Merged from the outermost level inwards, a level has the value of the innermost one that sets it. -/
theorem Inherits.foldl_eq (h : Inherits merge) (hne : levels ≠ []) :
    levels.foldl (fun prev own => some (merge own prev d)) outer = some ((innermost (outer :: levels)).getD d) := by
  induction levels using List.reverseRecOn with
  | nil => exact absurd rfl hne
  | append_singleton levels own ih =>
    rw [List.foldl_append, List.foldl_cons, List.foldl_nil, h.eq_inherited, ← List.cons_append, innermost_append]
    by_cases hnil : levels = []
    · subst hnil
      cases outer <;> rfl
    · rw [ih hnil]
      cases own <;> rfl

theorem Inherits.field_eq {σ : Type*} {f : σ → σ → σ} {records : List σ} (h : Inherits merge) (field : σ → Option α)
    (hstep : ∀ prev own, field (f prev own) = some (merge (field own) (field prev) d)) (hne : records ≠ []) (r : σ) :
    field (records.foldl f r) = some ((innermost ((r :: records).map field)).getD d) := by
  have hfold : field (records.foldl f r) =
      (records.map field).foldl (fun prev own => some (merge own prev d)) (field r) := by
    rw [List.foldl_map]
    exact (List.foldl_hom field fun prev own => (hstep prev own).symm).symm
  rw [hfold, h.foldl_eq (by simpa using hne), List.map_cons]

end Levels

end NginB.Program
