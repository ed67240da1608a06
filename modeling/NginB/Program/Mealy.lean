import Mathlib.Data.List.Basic

/-! # Mealy machines

A machine reads one letter at a time and writes some letters for it. What it writes for a word is
compared between two states.
-/
namespace NginB.Program

structure Mealy (σ α β : Type*) where
  next : σ → α → σ
  emit : σ → α → List β

namespace Mealy
variable {σ α β : Type*} (M : Mealy σ α β)

def run (s : σ) (w : List α) : σ := w.foldl M.next s

def out : σ → List α → List β
  | _, [] => []
  | s, a :: w => M.emit s a ++ out (M.next s a) w

variable {M} {s t : σ} {a : α} {w : List α}

@[simp] theorem run_nil : M.run s [] = s := rfl
@[simp] theorem run_cons : M.run s (a :: w) = M.run (M.next s a) w := rfl
@[simp] theorem out_nil : M.out s [] = [] := rfl
@[simp] theorem out_cons : M.out s (a :: w) = M.emit s a ++ M.out (M.next s a) w := rfl

theorem run_append (w w' : List α) : M.run s (w ++ w') = M.run (M.run s w) w' := List.foldl_append

theorem out_append (w w' : List α) : M.out s (w ++ w') = M.out s w ++ M.out (M.run s w) w' := by
  induction w generalizing s with
  | nil => rfl
  | cons a w ih => rw [List.cons_append, out_cons, ih, out_cons, run_cons, List.append_assoc]

theorem out_append_append (u v w : List α) : M.out s (u ++ (v ++ w)) =
    M.out s u ++ (M.out (M.run s u) v ++ M.out (M.run (M.run s u) v) w) := by
  rw [out_append, out_append]

/-- A letter for which both states write the same. -/
theorem out_cons_congr (h : M.emit s a = M.emit t a) :
    M.out s (a :: w) = M.out t (a :: w) ↔ M.out (M.next s a) w = M.out (M.next t a) w := by
  rw [out_cons, out_cons, h]
  exact List.append_right_inj _

/-- A word for which nothing is written, and the words around it. -/
theorem out_insert {u v q : List α} (h : M.out (M.run s u) v = []) : M.out s (u ++ (v ++ q)) =
    M.out s (u ++ q) ↔ M.out (M.run (M.run s u) v) q = M.out (M.run s u) q := by
  rw [out_append_append, out_append, h, List.nil_append]
  exact List.append_right_inj _

/-- The machine on words in pieces: `cut` is what the beginning of a piece does to the state. -/
def cutting (M : Mealy σ α β) (cut : σ → σ) : Mealy σ (Option α) β where
  next s
    | none => cut s
    | some a => M.next s a
  emit s
    | none => []
    | some a => M.emit s a

/-- The letters of the pieces, with a mark where each of them begins. -/
def pieces (ws : List (List α)) : List (Option α) := ws.flatMap fun w => none :: w.map some

section Cutting
variable {cut : σ → σ}

@[simp] theorem cutting_next_none : (M.cutting cut).next s none = cut s := rfl
@[simp] theorem cutting_next_some : (M.cutting cut).next s (some a) = M.next s a := rfl
@[simp] theorem cutting_emit_none : (M.cutting cut).emit s none = [] := rfl
@[simp] theorem cutting_emit_some : (M.cutting cut).emit s (some a) = M.emit s a := rfl

@[simp] theorem cutting_run_letters : (M.cutting cut).run s (w.map some) = M.run s w := List.foldl_map

@[simp] theorem cutting_out_letters : (M.cutting cut).out s (w.map some) = M.out s w := by
  induction w generalizing s with
  | nil => rfl
  | cons a w ih => rw [List.map_cons, out_cons, out_cons, cutting_emit_some, cutting_next_some, ih]

theorem pieces_concat (ws : List (List α)) (w : List α) : pieces (ws ++ [w]) = pieces ws ++ none :: w.map some := by
  simp [pieces]

theorem pieces_singleton (w : List α) : pieces [w] = none :: w.map some := List.append_nil _

end Cutting

/-- From `s` the word leads to `t`, and `o` is written for it. -/
structure Reads (M : Mealy σ α β) (s : σ) (w : List α) (t : σ) (o : List β) : Prop where
  run : M.run s w = t
  out : M.out s w = o

namespace Reads
variable {r : σ} {u v : List α} {o o' : List β}

theorem nil : M.Reads s [] s [] := ⟨rfl, rfl⟩

theorem single (hn : M.next s a = t) (he : M.emit s a = o) : M.Reads s [a] t o :=
  ⟨hn, by rw [out_cons, out_nil, he, List.append_nil]⟩

theorem append (h : M.Reads s u t o) (h' : M.Reads t v r o') : M.Reads s (u ++ v) r (o ++ o') :=
  ⟨by rw [run_append, h.run, h'.run], by rw [out_append, h.run, h.out, h'.out]⟩

theorem cons (hn : M.next s a = t) (he : M.emit s a = o) (h : M.Reads t w r o') :
    M.Reads s (a :: w) r (o ++ o') :=
  (single hn he).append h

/-- A word of letters that leave the state as it is and are written as they are. -/
theorem loop {M : Mealy σ α α} {s : σ} {w : List α} {q : α → Prop}
    (hq : ∀ a, q a → M.next s a = s ∧ M.emit s a = [a]) (hw : ∀ a ∈ w, q a) : M.Reads s w s w := by
  induction w with
  | nil => exact nil
  | cons a w ih =>
    rw [List.forall_mem_cons] at hw
    exact cons (hq a hw.1).1 (hq a hw.1).2 (ih hw.2)

/-- A word of letters that leave the state as it is and are left out. -/
theorem idle {q : α → Prop} (hq : ∀ a, q a → M.next s a = s ∧ M.emit s a = [])
    (hw : ∀ a ∈ w, q a) : M.Reads s w s [] := by
  induction w with
  | nil => exact nil
  | cons a w ih =>
    rw [List.forall_mem_cons] at hw
    exact cons (hq a hw.1).1 (hq a hw.1).2 (ih hw.2)

end Reads

end Mealy

end NginB.Program
