import NginB.Minify.Safety

/-! # Readers of whole pages

A reader has the whole page in front of it and knows of no buffers. `Along` says that a minifier
moves along with a reader, in all iterations that are as `Cut` wants them. Where it does, what a
response comes to is a function of its page.
-/
namespace NginB.Minify
open NginB.Program Relation

variable {R : Type}

@[simp] def Moves (step : R → List UInt8 → Option (R × List UInt8)) (p q : R × List UInt8) : Prop :=
  step p.1 p.2 = some q

section Ends
variable {step : R → List UInt8 → Option (R × List UInt8)}

theorem moves_rightUnique : Relator.RightUnique (Moves step) := by
  intro p q q' hq hq'
  exact Option.some.inj (hq.symm.trans hq')

theorem moves_end {p q q' : R × List UInt8} (hq : ReflTransGen (Moves step) p q)
    (hq' : ReflTransGen (Moves step) p q') (h : step q.1 q.2 = none) (h' : step q'.1 q'.2 = none) :
    q = q' := by
  apply end_unique moves_rightUnique hq hq'
  · intro t ht
    cases h.symm.trans ht
  · intro t ht
    cases h'.symm.trans ht

end Ends

/-- A condition on iterations: on the loop, the context, the unread bytes of the buffer, `dstlen`,
the unread bytes of the page and the bytes written, newest first. -/
abbrev Cut := Routine → Ctx → List UInt8 → ℕ → List UInt8 → List UInt8 → Prop

/-- The iterations of a trace are as `C` wants them when `rest` is still to come of the page. -/
def CutRun (C : Cut) : List UInt8 → List Item → Prop
  | _, [] => True
  | rest, .turn r x u d :: tr => C r x u d rest (emitted tr) ∧ CutRun C rest tr
  | rest, i :: tr => CutRun C (i.consumed ++ rest) tr

theorem CutRun.items {C : Cut} (x : Ctx) (es : List Ev) (tr : List Item) : ∀ u fut : List UInt8,
    Ev.takes es ≤ u.length →
    (CutRun C (u.drop (Ev.takes es) ++ fut) ((Ev.items x es u).reverse ++ tr) ↔
      CutRun C (u ++ fut) tr) := by
  induction es generalizing tr with
  | nil => exact fun u fut _ => Iff.rfl
  | cons e es ih =>
    intro u fut h
    cases e with
    | tag i | stack s | call c =>
      rw [Ev.items, List.reverse_cons, List.append_assoc]
      exact ih (_ :: tr) u fut h
    | skip | copy | put c =>
      rcases u with _ | ⟨b, u⟩
      · exact absurd h (Nat.not_succ_le_zero _)
      · rw [Ev.items, List.reverse_cons, List.append_assoc]
        exact ih (_ :: tr) u fut (Nat.le_of_succ_le_succ h)

instance CutRun.decide {C : Cut} [∀ r x u d rest out, Decidable (C r x u d rest out)] :
    ∀ (rest : List UInt8) (tr : List Item), Decidable (CutRun C rest tr)
  | _, [] => .isTrue trivial
  | rest, .turn r x u d :: tr =>
    have : Decidable (CutRun C rest tr) := CutRun.decide rest tr
    inferInstanceAs (Decidable (C r x u d rest (emitted tr) ∧ CutRun C rest tr))
  | rest, .skip _ b :: tr | rest, .emit _ b _ :: tr => CutRun.decide (b :: rest) tr
  | rest, .tagWrite _ :: tr | rest, .stack _ :: tr | rest, .cacheCall _ _ _ :: tr | rest, .buffer :: tr =>
    CutRun.decide rest tr

theorem cutRun_true (rest : List UInt8) (tr : List Item) :
    CutRun (fun _ _ _ _ _ _ => True) rest tr := by
  induction tr generalizing rest with
  | nil => trivial
  | cons i tr ih =>
    cases i with
    | turn r x u d => exact ⟨trivial, ih rest⟩
    | _ => exact ih _

/-- A minifier moves along with a reader of its page. `Rel` couples the two: `rest` is unread in
the page and `out` has been written, newest first. -/
structure Along (M : Machine) (step : R → List UInt8 → Option (R × List UInt8)) (m₀ : R) (C : Cut)
    (Rel : Routine → Ctx → ℕ → List UInt8 → List UInt8 → R → Prop) : Prop where
  start : ∀ rest, Rel M.top Ctx.zero 0 rest [] m₀
  next : ∀ {x d rest out m}, Rel M.top x d rest out m → Rel M.top (x.hold []) 0 rest out m
  turn : ∀ {x r u es y nxt k k' r' d d' out out' fut m}, M.rule d x r u es y nxt → M.Fit r x u →
    y.cache = [] → nxt.Goes r k r' k' → M.callers r k → C r x u d (u ++ fut) out →
    Rel r x d (u ++ fut) out m → d ≤ out.length →
    out' = (emitted (Ev.items x es u)).reverse ++ out → d' = d + (emitted (Ev.items x es u)).length →
    ∃ m', ReflTransGen (Moves step) (m, u ++ fut) (m', u.drop (Ev.takes es) ++ fut) ∧
      Rel r' (nxt.ended r' d' out' y) d' (u.drop (Ev.takes es) ++ fut) out' m'
  hold : ∀ {x r u a y d out fut m}, M.rule d x r u (Ev.holds a u) y .again → M.Fit r x u →
    x.cache = [] → x.Held u y → Rel r x d (u ++ fut) out m → d ≤ out.length →
    step m u = none ∧ Rel r (Next.again.ended r d out y) d (u ++ fut) out m
  done : ∀ {x r r' k d rest out m}, Rel r x d rest out m → M.callers r (r' :: k) →
    d ≤ out.length → Rel r' (Next.again.ended r' d out x) d rest out m

namespace Along
variable {M : Machine} {step : R → List UInt8 → Option (R × List UInt8)} {m₀ : R} {C : Cut}
  {Rel : Routine → Ctx → ℕ → List UInt8 → List UInt8 → R → Prop}

def Inv (step : R → List UInt8 → Option (R × List UInt8)) (m₀ : R) (C : Cut)
    (Rel : Routine → Ctx → ℕ → List UInt8 → List UInt8 → R → Prop) (v : View) : Prop :=
  ∀ fut, CutRun C (v.pending ++ fut) v.trace →
    ∃ m, ReflTransGen (Moves step) (m₀, v.input ++ fut) (m, v.pending ++ fut) ∧
      Rel v.r v.ctx v.dstlen (v.pending ++ fut) (emitted v.trace) m ∧
      (v.ctx.cache ≠ [] → step m v.pending = none)

theorem inv (A : Along M step m₀ C Rel) : TraceInv M (Inv step m₀ C Rel) where
  start fut _ := ⟨m₀, .refl, A.start _, fun hne => absurd rfl hne⟩
  next {v} buf hv h hr := by
    intro fut hrun
    simp only [List.append_assoc] at hrun ⊢
    obtain ⟨m, hmoves, hrel, -⟩ := h (buf ++ fut) hrun
    rw [hr] at hrel
    exact ⟨m, hmoves, A.next hrel, fun hne => absurd rfl hne⟩
  turn {v es y nxt k k' r' d tr} hv h hc hy hrule hgo hk hd htr := by
    intro fut hrun
    rw [htr] at hrun
    obtain ⟨hcut, hpast⟩ :=
      (CutRun.items v.ctx es _ v.pending fut (M.takes_le hrule)).mp hrun
    obtain ⟨m, hmoves, hrel, -⟩ := h fut hpast
    have hout : emitted tr = (emitted (Ev.items v.ctx es v.pending)).reverse ++ emitted v.trace := by
      rw [htr, emitted_append, emitted_reverse]
      rfl
    obtain ⟨m', hmove, hnext⟩ :=
      A.turn hrule (hv.fit hc) hy hgo hk hcut hrel hv.dstlen_le hout hd
    refine ⟨m', hmoves.trans hmove, hnext, fun hne => absurd ?_ hne⟩
    rw [Next.ended_cache]
    exact hy
  hold {v y} a hv h hc hrule hy := by
    intro fut hrun
    obtain ⟨m, hmoves, hrel, -⟩ := h fut hrun.2
    obtain ⟨hstuck, hnext⟩ := A.hold hrule (hv.fit hc) hc hy hrel hv.dstlen_le
    exact ⟨m, hmoves, hnext, fun _ => hstuck⟩
  done {v k r'} hv h hk := by
    intro fut hrun
    obtain ⟨m, hmoves, hrel, hstuck⟩ := h fut hrun
    refine ⟨m, hmoves, A.done hrel hk hv.dstlen_le, fun hne => hstuck ?_⟩
    rwa [Next.ended_cache] at hne

end Along

/-- What a response comes to is what the reader of its page comes to. -/
theorem feedAll_reads {type : FileType} {step : R → List UInt8 → Option (R × List UInt8)} {m₀ : R}
    {C : Cut} {Rel : Routine → Ctx → ℕ → List UInt8 → List UInt8 → R → Prop}
    (A : Along (machine type) step m₀ C Rel) (hnil : ∀ m, step m [] = none) {cap : Option ℕ}
    {bufs : List (List UInt8)} {s : Session} (h : feedAll Flat cap type .start bufs = .ok s)
    (hcut : CutRun C s.ctx.cache s.trace) :
    ∃ m d, ReflTransGen (Moves step) (m₀, bufs.flatten) (m, s.ctx.cache) ∧
      Rel (machine type).top s.ctx d s.ctx.cache s.out.reverse m ∧ step m s.ctx.cache = none := by
  obtain ⟨c, hreach, hrest, rfl, -⟩ := feedAll_ok h
  have hpending : c.pending = c.ctx.cache := by rw [Conf.pending, hrest, List.append_nil]
  have hinv : Along.Inv step m₀ C Rel (At.view bufs ⟨(machine type).top, [], c⟩) := A.inv.reach hreach
  have hcut' : CutRun C c.ctx.cache c.settled := hcut
  obtain ⟨m, hmoves, hrel, hstuck⟩ := hinv [] (by simpa [At.view, hpending] using hcut')
  simp only [At.view, hpending, List.append_nil] at hmoves hrel hstuck
  have hout : c.session.out.reverse = emitted c.settled := List.reverse_reverse _
  refine ⟨m, c.buf.out.length, hmoves, ?_, ?_⟩
  · rw [hout]
    exact hrel
  · by_cases hc : c.ctx.cache = []
    · rw [show c.session.ctx.cache = [] from hc]
      exact hnil m
    · exact hstuck hc

/-- Two responses with the same page come to the same. -/
theorem feedAll_reads_same (type : FileType) {step : R → List UInt8 → Option (R × List UInt8)} {m₀ : R}
    {C : Cut} {Rel : Routine → Ctx → ℕ → List UInt8 → List UInt8 → R → Prop}
    (A : Along (machine type) step m₀ C Rel) (hnil : ∀ m, step m [] = none) {cap cap' : Option ℕ}
    {bufs bufs' : List (List UInt8)} {s s' : Session}
    (h : feedAll Flat cap type .start bufs = .ok s) (h' : feedAll Flat cap' type .start bufs' = .ok s')
    (hpage : bufs.flatten = bufs'.flatten) (hcut : CutRun C s.ctx.cache s.trace)
    (hcut' : CutRun C s'.ctx.cache s'.trace) : s.ctx.cache = s'.ctx.cache ∧ ∃ m d d',
      Rel (machine type).top s.ctx d s.ctx.cache s.out.reverse m ∧
      Rel (machine type).top s'.ctx d' s'.ctx.cache s'.out.reverse m := by
  obtain ⟨m, d, hmoves, hrel, hstuck⟩ := feedAll_reads A hnil h hcut
  obtain ⟨m', d', hmoves', hrel', hstuck'⟩ := feedAll_reads A hnil h' hcut'
  rw [← hpage] at hmoves'
  obtain ⟨rfl, hc⟩ := Prod.mk.inj (moves_end hmoves hmoves' hstuck hstuck')
  exact ⟨hc, m, d, d', hrel, hrel'⟩

theorem exists_cut (type : FileType) (C : Cut) [∀ r x u d rest out, Decidable (C r x u d rest out)]
    (bufs : List (List UInt8)) (out cache : List UInt8) (cut : Bool)
    (h : (feedAll Stream none type .start bufs).map (fun s => (s.out, s.ctx.cache,
      decide (CutRun C s.ctx.cache s.trace))) = .ok (out, cache, cut)) :
    ∃ s, feedAll Flat none type .start bufs = .ok s ∧ s.out = out ∧ s.ctx.cache = cache ∧
      (CutRun C s.ctx.cache s.trace ↔ cut = true) := by
  obtain ⟨t, -, -, hrun⟩ := feedAll_reach type bufs
  rw [hrun] at h
  injection h with h
  obtain ⟨hout, hcache, hcut⟩ : _ ∧ _ ∧ _ := by simpa only [Prod.mk.injEq] using h
  refine ⟨t.session, by rw [feedAll_flat, hrun], hout, hcache, ?_⟩
  rw [← hcut, decide_eq_true_iff]

end NginB.Minify
