import NginB.Program.Loop

/-! # Loops that follow a ranked transition system

A transition system whose steps keep an invariant and lower a rank. A fuelled loop
whose turns follow such steps ends as long as its fuel exceeds the rank, and the
whole run follows the system. In a system without choice the end of a run is determined.
-/
namespace NginB.Program
open Relation

variable {S : Type}

/-- A system in which every state has one step at most comes to an end in one way only. -/
theorem end_unique {step : S → S → Prop} (hdet : Relator.RightUnique step) {p q q' : S}
    (hq : ReflTransGen step p q) (hq' : ReflTransGen step p q') (hend : ∀ t, ¬ step q t)
    (hend' : ∀ t, ¬ step q' t) : q = q' := by
  have hstay : ∀ {a b : S}, ReflTransGen step a b → (∀ t, ¬ step a t) → a = b := by
    intro a b hab ha
    rcases hab.cases_head with rfl | ⟨c, hc, -⟩
    · rfl
    · exact absurd hc (ha c)
  rcases ReflTransGen.total_of_right_unique hdet hq hq' with hqq | hqq
  · exact hstay hqq hend
  · exact (hstay hqq hend').symm

structure Ranked (step : S → S → Prop) where
  good : S → Prop
  rank : S → ℕ
  keeps : ∀ {p q}, good p → step p q → good q
  lowers : ∀ {p q}, good p → step p q → rank q < rank p

namespace Ranked
variable {step : S → S → Prop} (K : Ranked step) {p q : S}

theorem good_of_path (hp : K.good p) (h : ReflTransGen step p q) : K.good q := by
  induction h with
  | refl => exact hp
  | tail _ hs ih => exact K.keeps ih hs

theorem rank_le_of_path (hp : K.good p) (h : ReflTransGen step p q) : K.rank q ≤ K.rank p := by
  induction h with
  | refl => exact Nat.le_refl _
  | tail hpath hs ih => exact Nat.le_trans (Nat.le_of_lt (K.lowers (K.good_of_path hp hpath) hs)) ih

theorem rank_lt_of_path (hp : K.good p) (h : TransGen step p q) : K.rank q < K.rank p := by
  obtain ⟨m, hm, hpath⟩ := TransGen.head'_iff.mp h
  exact Nat.lt_of_le_of_lt (K.rank_le_of_path (K.keeps hp hm) hpath) (K.lowers hp hm)

section Loop
variable {σ ε : Type} {exhausted : ε} {cond body : Prog σ ε Bool}
  {bound : ℕ} (head : σ → S) (ends : S → σ → Prop)

/-- A turn of a loop whose heads are placed in the system by `head`: it comes back to the
loop's head, or breaks. -/
def TurnFollows (step : S → S → Prop) (head : σ → S) (ends : S → σ → Prop) (body : Prog σ ε Bool)
    (s : σ) : Prop :=
  (∃ t, body.run s = .ok (false, t) ∧ TransGen step (head s) (head t)) ∨
    ∃ t, body.run s = .ok (true, t) ∧ ends (head s) t

/-- The loop rule. `ends p t` says that the loop leaves in state `t` after a path from `p`. -/
theorem loop (more : σ → Prop) [DecidablePred more]
    (hpre : ∀ {p q t}, TransGen step p q → ends q t → ends p t)
    (hcond : ∀ s, cond.run s = .ok (decide (more s), s))
    (hstop : ∀ s, K.good (head s) → ¬ more s → ends (head s) s)
    (hbody : ∀ s, K.good (head s) → K.rank (head s) < bound → more s →
      TurnFollows step head ends body s) (fuel : ℕ) :
    ∀ s, K.good (head s) → K.rank (head s) < bound → K.rank (head s) < fuel →
      ∃ t, (Program.loop exhausted cond body fuel).run s = .ok ((), t) ∧ ends (head s) t := by
  induction fuel with
  | zero => exact fun s _ _ h => absurd h (Nat.not_lt_zero _)
  | succ fuel ih =>
    intro s hs hb hf
    by_cases hm : more s
    · have hc : cond.run s = .ok (true, s) := by rw [hcond, decide_eq_true hm]
      rcases hbody s hs hb hm with ⟨t, ht, hpath⟩ | ⟨t, ht, hend⟩
      · have hlt := K.rank_lt_of_path hs hpath
        obtain ⟨u, hu, hend⟩ :=
          ih t (K.good_of_path hs hpath.to_reflTransGen) (Nat.lt_trans hlt hb) (by omega)
        exact ⟨u, by rw [loop_run_turn hc ht, hu], hpre hpath hend⟩
      · exact ⟨t, loop_run_break hc ht, hend⟩
    · have hc : cond.run s = .ok (false, s) := by rw [hcond, decide_eq_false hm]
      exact ⟨s, loop_run_stop hc, hstop s hs hm⟩

end Loop

end Ranked

end NginB.Program
