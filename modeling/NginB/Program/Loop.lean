import Mathlib.Data.List.Basic
import Mathlib.Logic.Relation

/-! # Programs with a state, faults and fuelled loops

A program is a state transformer that may stop with a fault. `loop` is the C
`while` statement whose body may `break`; it is given fuel and stops with a
fault of its own when the fuel is spent, so that running out is never mistaken
for a result.
-/
namespace NginB.Program

abbrev Prog (σ ε α : Type) := StateT σ (Except ε) α

variable {σ ε α β : Type}

@[simp] theorem except_ok_bind (a : α) (f : α → Except ε β) :
    ((Except.ok a : Except ε α) >>= f) = f a := rfl

@[simp] theorem except_error_bind (e : ε) (f : α → Except ε β) :
    ((Except.error e : Except ε α) >>= f) = .error e := rfl

@[simp] theorem except_pure (a : α) : (pure a : Except ε α) = .ok a := rfl

@[simp] theorem except_ok_map (f : α → β) (a : α) :
    (f <$> (Except.ok a : Except ε α)) = .ok (f a) := rfl

theorem bind_run {x : Prog σ ε α} {f : α → Prog σ ε β} {s t : σ} {a : α}
    (h : x.run s = .ok (a, t)) : (x >>= f).run s = (f a).run t := by
  rw [StateT.run_bind, h]
  rfl

/-- Read `f` of the state, which must satisfy `p`. -/
def readIf (p : σ → Prop) [DecidablePred p] (e : ε) (f : σ → α) : Prog σ ε α :=
  fun s => if p s then .ok (f s, s) else .error e

/-- Update the state, which must satisfy `p`. -/
def modifyIf (p : σ → Prop) [DecidablePred p] (e : ε) (f : σ → σ) : Prog σ ε Unit :=
  fun s => if p s then .ok ((), f s) else .error e

theorem readIf_run {p : σ → Prop} [DecidablePred p] {e : ε} {f : σ → α} {s : σ} (h : p s) :
    (readIf p e f).run s = .ok (f s, s) := if_pos h

theorem modifyIf_run {p : σ → Prop} [DecidablePred p] {e : ε} {f : σ → σ} {s : σ} (h : p s) :
    (modifyIf p e f).run s = .ok ((), f s) := if_pos h

theorem readIf_fail {p : σ → Prop} [DecidablePred p] {e : ε} {f : σ → α} {s : σ} (h : ¬ p s) :
    (readIf p e f).run s = .error e := if_neg h

theorem modifyIf_fail {p : σ → Prop} [DecidablePred p] {e : ε} {f : σ → σ} {s : σ} (h : ¬ p s) :
    (modifyIf p e f).run s = .error e := if_neg h

/-- `while (cond) body`, where a body that returns `true` has executed `break`. -/
def loop (exhausted : ε) (cond body : Prog σ ε Bool) : Nat → Prog σ ε Unit
  | 0 => throw exhausted
  | fuel + 1 => do
    if ← cond then
      if ← body then pure () else loop exhausted cond body fuel
    else pure ()

section Rules
variable {exhausted : ε} {cond body : Prog σ ε Bool} {s t : σ} {fuel : ℕ}

theorem loop_run_stop (hc : cond.run s = .ok (false, t)) :
    (loop exhausted cond body (fuel + 1)).run s = .ok ((), t) := by
  simp [loop, hc]

theorem loop_run_break {u : σ} (hc : cond.run s = .ok (true, t)) (hb : body.run t = .ok (true, u)) :
    (loop exhausted cond body (fuel + 1)).run s = .ok ((), u) := by
  simp [loop, hc, hb]

theorem loop_run_turn {u : σ} (hc : cond.run s = .ok (true, t)) (hb : body.run t = .ok (false, u)) :
    (loop exhausted cond body (fuel + 1)).run s = (loop exhausted cond body fuel).run u := by
  simp [loop, hc, hb]

end Rules

end NginB.Program
