import NginB.Program.Mealy

/-! # Machines that read what they have written

A machine is run on a word, and once more on what it has written for it. A relation couples the state
of the first run, behind a letter, with the state of the second one, behind what is written for the
letter.
-/
namespace NginB.Program

namespace Mealy
variable {σ α : Type*} {M : Mealy σ α α} {bad : σ → Prop} {p : α → Bool} {R : σ → σ → Prop} {s t : σ}
  {u v w : List α}

def Avoids (M : Mealy σ α α) (bad : σ → Prop) : σ → List α → Prop
  | _, [] => True
  | s, a :: w => ¬ bad (M.next s a) ∧ Avoids M bad (M.next s a) w

theorem Avoids.append (h : M.Avoids bad s u) (h' : M.Avoids bad (M.run s u) v) : M.Avoids bad s (u ++ v) := by
  induction u generalizing s with
  | nil => exact h'
  | cons a u ih => exact ⟨h.1, ih h.2 h'⟩

/-- What `s` writes for a letter, `t` reads without a bad state, and it writes all of it for which `p` holds. -/
structure Rereads (M : Mealy σ α α) (bad : σ → Prop) (p : α → Bool) (R : σ → σ → Prop) (s t : σ) (a : α) :
    Prop where
  avoids : M.Avoids bad t (M.emit s a)
  filter : (M.out t (M.emit s a)).filter p = (M.emit s a).filter p
  next : R (M.next s a) (M.run t (M.emit s a))

theorem rereads_single {a c : α} {s' : σ} (hs : M.emit s a = [c] ∧ M.next s a = s') (hbad : ¬ bad (M.next t c))
    (hkept : M.emit t c = [c] ∨ M.emit t c = [] ∧ p c = false) (h : R s' (M.next t c)) :
    M.Rereads bad p R s t a := by
  constructor
  · rw [hs.1]
    exact ⟨hbad, trivial⟩
  · rw [hs.1, out_cons, out_nil, List.append_nil]
    rcases hkept with ht | ⟨ht, hp⟩
    · rw [ht]
    · rw [ht, List.filter_cons_of_neg (by simp [hp])]
  · rw [hs.1, hs.2]
    exact h

/-- A letter for which nothing is written, is not read again. -/
theorem rereads_none {a : α} {s' : σ} (hs : M.emit s a = [] ∧ M.next s a = s') (h : R s' t) :
    M.Rereads bad p R s t a := by
  constructor
  · rw [hs.1]
    trivial
  · rw [hs.1, out_nil]
  · rw [hs.1, hs.2]
    exact h

/-- A letter that is written with the one held back before it, and again when both are read. -/
theorem rereads_pair {a c : α} {s' t' r : σ} (hs : M.emit s a = [c, a] ∧ M.next s a = s')
    (hc : M.emit t c = [] ∧ M.next t c = r) (ht : M.emit r a = [c, a] ∧ M.next r a = t') (hr : ¬ bad r)
    (ht' : ¬ bad t') (h : R s' t') : M.Rereads bad p R s t a := by
  constructor
  · rw [hs.1, Avoids, Avoids, hc.2, ht.2]
    exact ⟨hr, ht', trivial⟩
  · rw [hs.1, out_cons, hc.1, hc.2, out_cons, ht.1]
    rfl
  · rw [hs.1, hs.2, run_cons, run_cons, hc.2, ht.2]
    exact h

/-- The second run enters no bad state, if it enters none where it reads what is written for one letter. -/
theorem avoids_out (hstep : ∀ {s t} a, R s t → M.Rereads bad p R s t a) (h : R s t) (w : List α) :
    M.Avoids bad t (M.out s w) := by
  induction w generalizing s t with
  | nil => trivial
  | cons a w ih => exact (hstep a h).avoids.append (ih (hstep a h).next)

/-- But for some letters, the second run writes what it reads. -/
theorem filter_out_out (hstep : ∀ {s t} a, R s t → M.Rereads bad p R s t a) (h : R s t) (w : List α) :
    (M.out t (M.out s w)).filter p = (M.out s w).filter p := by
  induction w generalizing s t with
  | nil => rfl
  | cons a w ih =>
    have hread : M.Rereads bad p R s t a := hstep a h
    rw [out_cons, out_append, List.filter_append, List.filter_append, hread.filter, ih hread.next]

/-- What `s` writes for a letter, `t` writes too when it reads it, and the states behind it are coupled. -/
def Copies (M : Mealy σ α α) (R : σ → σ → Prop) (s t : σ) (a : α) : Prop :=
  M.out t (M.emit s a) = M.emit s a ∧ R (M.next s a) (M.run t (M.emit s a))

theorem copies_same {a : α} {s' t' : σ} (hs : M.emit s a = [a] ∧ M.next s a = s')
    (ht : M.emit t a = [a] ∧ M.next t a = t') (h : R s' t') : M.Copies R s t a := by
  rw [Copies, hs.1, hs.2, out_cons, run_cons, ht.1, ht.2]
  exact ⟨rfl, h⟩

theorem copies_none {a : α} {s' : σ} (hs : M.emit s a = [] ∧ M.next s a = s') (h : R s' t) : M.Copies R s t a := by
  rw [Copies, hs.1, hs.2]
  exact ⟨rfl, h⟩

/-- A letter that is written with the one held back before it. -/
theorem copies_pair {a c : α} {s' t' r : σ} (hs : M.emit s a = [c, a] ∧ M.next s a = s')
    (hc : M.emit t c = [] ∧ M.next t c = r) (ht : M.emit r a = [c, a] ∧ M.next r a = t') (h : R s' t') :
    M.Copies R s t a := by
  rw [Copies, hs.1, hs.2, out_cons, run_cons, hc.1, hc.2, out_cons, run_cons, ht.1, ht.2]
  exact ⟨rfl, h⟩

/-- Where the first run enters no bad state, the second one writes what it reads. -/
theorem out_out (hstep : ∀ {s t} a, R s t → ¬ bad (M.next s a) → M.Copies R s t a) (h : R s t)
    (hw : M.Avoids bad s w) : M.out t (M.out s w) = M.out s w := by
  induction w generalizing s t with
  | nil => rfl
  | cons a w ih =>
    obtain ⟨hemit, hnext⟩ := hstep a h hw.1
    rw [out_cons, out_append, hemit, ih hnext hw.2]

/-- The second run enters no bad state and drops some letters only, so the third one drops nothing. -/
theorem out_out_out {S : σ → σ → Prop} (hread : ∀ {s t} a, R s t → M.Rereads bad p R s t a)
    (hcopy : ∀ {s t} a, S s t → ¬ bad (M.next s a) → M.Copies S s t a) (hR : R s s) (hS : S s s) (w : List α) :
    M.out s (M.out s (M.out s w)) = M.out s (M.out s w) ∧ (M.out s (M.out s w)).filter p = (M.out s w).filter p :=
  ⟨out_out hcopy hS (avoids_out hread hR w), filter_out_out hread hR w⟩

end Mealy

end NginB.Program
