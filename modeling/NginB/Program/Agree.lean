import NginB.Program.Loop

/-! # Two programs that run alike

`Agree K x y` relates programs over different states: from related states they
return the same value in related states, or stop with the same fault. The terms
`K` may let the first program have checks that the second lacks: then it may stop
with a fault in `K.excess`, and the second goes on in states that are `K.lost`.
The rules follow the shape of a program, so one pass over a text that is generic
in its state, or in its checks, relates all its instances.
-/
namespace NginB.Program

variable {σ τ ε α β : Type}

structure Terms (σ τ ε : Type) where
  rel : σ → τ → Prop
  /-- the faults of checks that only the first program has -/
  excess : ε → Prop
  /-- where the second program is once such a check has failed -/
  lost : τ → Prop

def Terms.strict (R : σ → τ → Prop) : Terms σ τ ε := ⟨R, fun _ => False, fun _ => False⟩

/-- Equal values in related states or equal faults, unless a check of the first failed. -/
def ResultAgree (K : Terms σ τ ε) : Except ε (α × σ) → Except ε (α × τ) → Prop
  | .ok (a, s), .ok (b, t) => a = b ∧ K.rel s t
  | .error e, .ok (_, t) => K.excess e ∧ K.lost t
  | .error e, .error e' => K.excess e ∨ e = e'
  | .ok _, .error _ => False

structure Agree (K : Terms σ τ ε) (x : Prog σ ε α) (y : Prog τ ε α) : Prop where
  run : ∀ s t, K.rel s t → ResultAgree K (x.run s) (y.run t)
  /-- what is lost stays lost -/
  keeps : ∀ t a t', K.lost t → y.run t = .ok (a, t') → K.lost t'

variable {K : Terms σ τ ε}

theorem agree_pure (a : α) : Agree K (pure a : Prog σ ε α) (pure a) where
  run _ _ h := ⟨rfl, h⟩
  keeps t b t' hl h := by
    cases h
    exact hl

theorem agree_throw (e : ε) : Agree K (throw e : Prog σ ε α) (throw e) where
  run _ _ _ := .inr rfl
  keeps _ _ _ _ h := by cases h

theorem Agree.bind {x : Prog σ ε α} {y : Prog τ ε α} {f : α → Prog σ ε β} {g : α → Prog τ ε β}
    (hx : Agree K x y) (hf : ∀ a, Agree K (f a) (g a)) : Agree K (x >>= f) (y >>= g) where
  run s t h := by
    have hxy := hx.run s t h
    rw [StateT.run_bind, StateT.run_bind]
    rcases hs : x.run s with e | ⟨a, s'⟩ <;> rcases ht : y.run t with e' | ⟨b, t'⟩ <;>
      rw [hs, ht] at hxy
    · exact hxy
    · rw [except_error_bind, except_ok_bind]
      rcases hr : (g b).run t' with e' | ⟨c, t''⟩
      · exact .inl hxy.1
      · exact ⟨hxy.1, (hf b).keeps t' c t'' hxy.2 hr⟩
    · exact hxy.elim
    · rcases hxy with ⟨rfl, h'⟩
      exact (hf a).run s' t' h'
  keeps t b t'' hl h := by
    rw [StateT.run_bind] at h
    rcases ht : y.run t with e | ⟨a, t'⟩ <;> rw [ht] at h
    · cases h
    · exact (hf a).keeps t' b t'' (hx.keeps t a t' hl ht) h

theorem Agree.ite {c : Prop} [Decidable c] {x x' : Prog σ ε α} {y y' : Prog τ ε α}
    (h : Agree K x y) (h' : Agree K x' y') :
    Agree K (if c then x else x') (if c then y else y') := by
  by_cases hc : c
  · rw [if_pos hc, if_pos hc]
    exact h
  · rw [if_neg hc, if_neg hc]
    exact h'

/-- Reading a value on which related states agree. -/
theorem agree_read {f : σ → α} {g : τ → α} (h : ∀ s t, K.rel s t → f s = g t) :
    Agree K (do return f (← get) : Prog σ ε α) (do return g (← get)) where
  run s t hst := ⟨h s t hst, hst⟩
  keeps t a t' hl ht := by
    cases ht
    exact hl

theorem agree_modify {f : σ → σ} {g : τ → τ} (h : ∀ s t, K.rel s t → K.rel (f s) (g t))
    (hl : ∀ t, K.lost t → K.lost (g t)) :
    Agree K (modify f : Prog σ ε PUnit) (modify g) where
  run s t hst := ⟨rfl, h s t hst⟩
  keeps t a t' hlt ht := by
    cases ht
    exact hl t hlt

theorem agree_readIf {p : σ → Prop} [DecidablePred p] {q : τ → Prop} [DecidablePred q] {e : ε}
    {f : σ → α} {g : τ → α} (hpq : ∀ s t, K.rel s t → (p s ↔ q t))
    (h : ∀ s t, K.rel s t → p s → f s = g t) : Agree K (readIf p e f) (readIf q e g) where
  run s t hst := by
    by_cases hp : p s
    · rw [readIf_run hp, readIf_run ((hpq s t hst).mp hp)]
      exact ⟨h s t hst hp, hst⟩
    · rw [readIf_fail hp, readIf_fail fun hq => hp ((hpq s t hst).mpr hq)]
      exact .inr rfl
  keeps t a t' hl ht := by
    by_cases hq : q t
    · rw [readIf_run hq] at ht
      cases ht
      exact hl
    · rw [readIf_fail hq] at ht
      cases ht

theorem agree_modifyIf {p : σ → Prop} [DecidablePred p] {q : τ → Prop} [DecidablePred q] {e : ε}
    {f : σ → σ} {g : τ → τ} (hpq : ∀ s t, K.rel s t → (p s ↔ q t))
    (h : ∀ s t, K.rel s t → p s → K.rel (f s) (g t)) (hl : ∀ t, K.lost t → K.lost (g t)) :
    Agree K (modifyIf p e f) (modifyIf q e g) where
  run s t hst := by
    by_cases hp : p s
    · rw [modifyIf_run hp, modifyIf_run ((hpq s t hst).mp hp)]
      exact ⟨rfl, h s t hst hp⟩
    · rw [modifyIf_fail hp, modifyIf_fail fun hq => hp ((hpq s t hst).mpr hq)]
      exact .inr rfl
  keeps t a t' hlt ht := by
    by_cases hq : q t
    · rw [modifyIf_run hq] at ht
      cases ht
      exact hl t hlt
    · rw [modifyIf_fail hq] at ht
      cases ht

theorem agree_modifyIf_excess {p : σ → Prop} [DecidablePred p] {q : τ → Prop} [DecidablePred q]
    {e : ε} {f : σ → σ} {g : τ → τ} (he : K.excess e) (hq : ∀ t, q t)
    (h : ∀ s t, K.rel s t → p s → K.rel (f s) (g t))
    (hlost : ∀ s t, K.rel s t → ¬ p s → K.lost (g t)) (hl : ∀ t, K.lost t → K.lost (g t)) :
    Agree K (modifyIf p e f) (modifyIf q e g) where
  run s t hst := by
    rw [modifyIf_run (hq t)]
    by_cases hp : p s
    · rw [modifyIf_run hp]
      exact ⟨rfl, h s t hst hp⟩
    · rw [modifyIf_fail hp]
      exact ⟨he, hlost s t hst hp⟩
  keeps t a t' hlt ht := by
    rw [modifyIf_run (hq t)] at ht
    cases ht
    exact hl t hlt

theorem agree_loop (e : ε) {c b : Prog σ ε Bool} {c' b' : Prog τ ε Bool}
    (hc : Agree K c c') (hb : Agree K b b') (fuel : ℕ) :
    Agree K (loop e c b fuel) (loop e c' b' fuel) := by
  induction fuel with
  | zero => exact agree_throw e
  | succ fuel ih =>
    refine hc.bind fun more => Agree.ite ?_ (agree_pure ())
    exact hb.bind fun stop => Agree.ite (agree_pure ()) ih

end NginB.Program
