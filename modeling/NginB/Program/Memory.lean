import NginB.Program.LittleEndian

/-! # Reading memory

Memory is a partial map from addresses to bytes; a read of a byte that is not mapped faults. Reads
of several objects one after the other fault where one of them does, and else join what they yield.
-/
namespace NginB.Program

abbrev Memory := ℕ → Option UInt8

def Memory.load (m : Memory) : ℕ → ℕ → Option (List UInt8)
  | _, 0 => some []
  | a, n + 1 => do
    let b ← m a
    let t ← m.load (a + 1) n
    some (b :: t)

def Memory.word (m : Memory) (a : ℕ) : Option ℕ := (m.load a 8).map ofBytes

def gather {α β : Type} (f : α → Option (List β)) : List α → Option (List β)
  | [] => some []
  | a :: l => do
    let x ← f a
    let y ← gather f l
    some (x ++ y)

section
variable {m : Memory} {a n : ℕ}

theorem load_none (ha : m a = none) (hn : 0 < n) : m.load a n = none := by
  cases n with
  | zero => exact absurd hn (Nat.lt_irrefl 0)
  | succ n => rw [Memory.load, ha, Option.bind_eq_bind, Option.bind_none]

theorem word_none (ha : m a = none) : m.word a = none := by
  rw [Memory.word, load_none ha (by decide), Option.map_none]

variable {α β : Type} {f : α → Option (List β)}

theorem gather_append (l₁ l₂ : List α) : gather f (l₁ ++ l₂) =
    (gather f l₁).bind fun x => (gather f l₂).map fun y => x ++ y := by
  induction l₁ with
  | nil => simp [gather]
  | cons a l₁ ih =>
    rw [List.cons_append, gather, gather, ih]
    cases f a with
    | none => rfl
    | some x =>
      cases gather f l₁ with
      | none => rfl
      | some y => cases gather f l₂ <;> simp

theorem gather_singleton (x : α) : gather f [x] = f x := by
  rw [gather, gather]
  cases f x <;> simp

/-- A fold that reads an object at each step reads all of them and then folds. -/
theorem foldlM_read {σ γ : Type} (g : α → Option γ) (h : σ → γ → σ) (l : List α) (s : σ) :
    l.foldlM (fun s i => do let p ← g i; some (h s p)) s = (l.mapM g).map fun ps => ps.foldl h s := by
  induction l generalizing s with
  | nil => rfl
  | cons i l ih =>
    rw [List.foldlM_cons, List.mapM_cons]
    cases hg : g i with
    | none => rfl
    | some p =>
      have hstep := ih (h s p)
      simp only [Option.bind_eq_bind, Option.bind_some] at hstep ⊢
      rw [hstep]
      cases l.mapM g <;> rfl

end

end NginB.Program
