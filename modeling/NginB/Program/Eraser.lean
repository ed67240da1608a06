import NginB.Program.Mealy

/-! # Machines that leave letters out

An eraser writes each letter as it is or leaves it out, and a letter that it leaves out does not move
it. So it has nothing to leave out of what it has written.
-/
namespace NginB.Program

variable {σ α : Type*}

structure Mealy.Erases (M : Mealy σ α α) (live : σ → Prop) : Prop where
  next : ∀ {s a}, live s → live (M.next s a)
  emit : ∀ {s a}, live s → M.emit s a = [a] ∨ M.emit s a = []
  idle : ∀ {s a}, live s → M.emit s a = [] → M.next s a = s

namespace Mealy.Erases
variable {M : Mealy σ α α} {live : σ → Prop} {s : σ} {w : List α} {p : α → Bool} (h : M.Erases live)
include h

theorem run (hs : live s) (w : List α) : live (M.run s w) := by
  induction w generalizing s with
  | nil => exact hs
  | cons a w ih => exact ih (h.next hs)

theorem out_sublist (hs : live s) : (M.out s w).Sublist w := by
  induction w generalizing s with
  | nil => exact List.Sublist.slnil
  | cons a w ih =>
    rcases h.emit hs (a := a) with he | he
    · rw [out_cons, he]
      exact (ih (h.next hs)).cons_cons a
    · rw [out_cons, he]
      exact (ih (h.next hs)).cons a

theorem run_out (hs : live s) : M.run s (M.out s w) = M.run s w := by
  induction w generalizing s with
  | nil => rfl
  | cons a w ih =>
    rcases h.emit hs (a := a) with he | he
    · rw [out_cons, he, List.singleton_append, run_cons, run_cons, ih (h.next hs)]
    · have hnext : M.next s a = s := h.idle hs he
      rw [out_cons, he, List.nil_append, run_cons, hnext, ih hs]

theorem out_out (hs : live s) : M.out s (M.out s w) = M.out s w := by
  induction w generalizing s with
  | nil => rfl
  | cons a w ih =>
    rcases h.emit hs (a := a) with he | he
    · rw [out_cons, he, List.singleton_append, out_cons, he, ih (h.next hs)]
      rfl
    · have hnext : M.next s a = s := h.idle hs he
      rw [out_cons, he, List.nil_append, hnext, ih hs]

/-- The letters of a kind of which none is left out. -/
theorem filter_out (hp : ∀ {s a}, live s → M.emit s a = [] → p a = false) (hs : live s) :
    (M.out s w).filter p = w.filter p := by
  induction w generalizing s with
  | nil => rfl
  | cons a w ih =>
    rcases h.emit hs (a := a) with he | he
    · rw [out_cons, he, List.singleton_append, List.filter_cons, List.filter_cons, ih (h.next hs)]
    · rw [out_cons, he, List.nil_append, List.filter_cons, hp hs he, ih (h.next hs)]
      rfl

end Mealy.Erases

end NginB.Program
