import Mathlib.Data.List.Infix

/-! # What holds all along a run

A run is a fold of a step over what comes in. A property holds along it if it holds in every state
that the run goes through, the first one included.
-/
namespace NginB.Program

section
variable {σ ε : Type} {step : σ → ε → σ} {P I : σ → Prop} {es : List ε} {s : σ}

def Along (step : σ → ε → σ) (P : σ → Prop) (es : List ε) (s : σ) : Prop :=
  ∀ pre, pre <+: es → P (pre.foldl step s)

theorem Along.start (h : Along step P es s) : P s := h [] List.nil_prefix

theorem along_nil : Along step P [] s ↔ P s := by
  constructor
  · exact Along.start
  · intro h pre hpre
    rw [List.prefix_nil.mp hpre]
    exact h

theorem along_cons {e : ε} : Along step P (e :: es) s ↔ P s ∧ Along step P es (step s e) := by
  constructor
  · intro h
    refine ⟨h.start, fun pre hpre => ?_⟩
    exact h (e :: pre) (List.cons_prefix_cons.mpr ⟨rfl, hpre⟩)
  · rintro ⟨hs, h⟩ pre hpre
    cases pre with
    | nil => exact hs
    | cons a pre =>
      obtain ⟨rfl, hrest⟩ := List.cons_prefix_cons.mp hpre
      exact h pre hrest

/-- What each step preserves, and what follows from it. -/
theorem along_of_preserved (hstep : ∀ s e, I s → I (step s e)) (hP : ∀ s, I s → P s) (hs : I s) :
    Along step P es s := by
  induction es generalizing s with
  | nil => exact along_nil.mpr (hP s hs)
  | cons e es ih => exact along_cons.mpr ⟨hP s hs, ih (hstep s e hs)⟩

end

end NginB.Program
