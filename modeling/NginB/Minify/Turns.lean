import NginB.Minify.Safety

/-! # The iterations of a run

What is shown of a minifier whenever an iteration starts holds of every iteration in the trace of
a response, and of the trace before it.
-/
namespace NginB.Minify
open NginB.Program Relation

/-- An earlier iteration in a trace whose newest items `l` tell of no iteration. -/
theorem turn_split {l tr newer older : List Item} {r r' : Routine} {x x' : Ctx} {u u' : List UInt8}
    {d d' : ℕ} (hl : ∀ r x u d, Item.turn r x u d ∉ l)
    (h : l ++ .turn r x u d :: tr = newer ++ .turn r' x' u' d' :: older) :
    newer = l ∧ Item.turn r x u d = .turn r' x' u' d' ∨
      ∃ m, newer = l ++ .turn r x u d :: m ∧ tr = m ++ .turn r' x' u' d' :: older := by
  rcases List.append_eq_append_iff.mp h with ⟨m, rfl, hm⟩ | ⟨m, rfl, hm⟩
  · rcases m with _ | ⟨i, m⟩
    · obtain ⟨he, -⟩ := List.cons.inj hm
      exact .inl ⟨List.append_nil l, he⟩
    · obtain ⟨rfl, rfl⟩ := List.cons.inj hm
      exact .inr ⟨m, rfl, rfl⟩
  · rcases m with _ | ⟨i, m⟩
    · obtain ⟨he, -⟩ := List.cons.inj hm
      exact .inl ⟨(List.append_nil newer).symm, he.symm⟩
    · obtain ⟨rfl, -⟩ := List.cons.inj hm
      exact absurd (List.mem_append_right newer List.mem_cons_self) (hl _ _ _ _)

/-- Every iteration of a trace is as `p` says of it and of the trace before it. -/
def EachTurn (p : Routine → Ctx → List UInt8 → ℕ → List Item → Prop) (tr : List Item) : Prop :=
  ∀ newer older r x u d, tr = newer ++ .turn r x u d :: older → p r x u d older

section EachTurn
variable {p : Routine → Ctx → List UInt8 → ℕ → List Item → Prop} {l tr : List Item} {r : Routine} {x : Ctx}
  {u : List UInt8} {d : ℕ}

@[simp] theorem eachTurn_nil : EachTurn p [] := by
  intro newer older r x u d he
  simp at he

theorem eachTurn_cons {i : Item} (hi : ∀ r x u d, i ≠ .turn r x u d) :
    EachTurn p (i :: tr) ↔ EachTurn p tr := by
  constructor
  · intro h newer older r x u d he
    exact h (i :: newer) older r x u d (by rw [he]; rfl)
  · intro h newer older r x u d he
    rcases newer with _ | ⟨j, newer⟩
    · exact absurd (List.cons.inj he).1 (hi r x u d)
    · exact h newer older r x u d (List.cons.inj he).2

theorem eachTurn_turn (hl : ∀ r x u d, Item.turn r x u d ∉ l) :
    EachTurn p (l ++ .turn r x u d :: tr) ↔ p r x u d tr ∧ EachTurn p tr := by
  constructor
  · intro h
    refine ⟨h l tr r x u d rfl, fun newer older r' x' u' d' he => ?_⟩
    exact h (l ++ .turn r x u d :: newer) older r' x' u' d' (by rw [he]; simp)
  · rintro ⟨hp, h⟩ newer older r' x' u' d' he
    rcases turn_split hl he with ⟨rfl, hturn⟩ | ⟨m, rfl, htr⟩
    · have htr := (List.cons.inj (List.append_cancel_left he)).2
      cases hturn
      rwa [← htr]
    · exact h m older r' x' u' d' htr

theorem eachTurn_items {es : List Ev} : EachTurn p ((Ev.items x es u).reverse ++ .turn r x u d :: tr) ↔
    p r x u d tr ∧ EachTurn p tr :=
  eachTurn_turn fun r' x' u' d' hmem => Ev.turn_notMem_items x x' r' u' d' es u (List.mem_reverse.mp hmem)

theorem eachTurn_held {a : List UInt8} : EachTurn p (.cacheCall a 0 u :: .turn r x u d :: tr) ↔
    p r x u d tr ∧ EachTurn p tr := by
  rw [eachTurn_cons (by simp)]
  exact eachTurn_turn (l := []) (by simp)

instance eachTurnDecidable [∀ r x u d older, Decidable (p r x u d older)] :
    ∀ tr, Decidable (EachTurn p tr)
  | [] => isTrue eachTurn_nil
  | .turn r x u d :: tr =>
    have := eachTurnDecidable tr
    decidable_of_iff (p r x u d tr ∧ EachTurn p tr) (eachTurn_turn (l := []) (by simp)).symm
  | .buffer :: tr | .skip _ _ :: tr | .emit _ _ _ :: tr | .cacheCall _ _ _ :: tr | .tagWrite _ :: tr
  | .stack _ :: tr =>
    have := eachTurnDecidable tr
    decidable_of_iff (EachTurn p tr) (eachTurn_cons (by simp)).symm

end EachTurn

end NginB.Minify
