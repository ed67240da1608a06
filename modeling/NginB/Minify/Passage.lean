import NginB.Minify.Turns

/-! # Passages of a page

A passage begins at an iteration and runs on over the bytes ahead of it, of this buffer and of
later ones. What holds in a passage is shown once more by one lemma a step; the bytes `fut` are
those that no buffer has brought yet.
-/
namespace NginB.Minify
open NginB.Program Relation

/-- What a passage keeps: from the context at its start and the page ahead there, the context, the
pending bytes, the bytes of later buffers and the trace since its start. -/
abbrev Keeping := Ctx → List UInt8 → Ctx → List UInt8 → List UInt8 → List Item → Prop

/-- In passages that begin in a context and before a page with `S`, each step keeps `K`. -/
structure Passage (M : Machine) (S : Ctx → List UInt8 → Prop) (K : Keeping) : Prop where
  start : ∀ {x : Ctx} {r : Routine} {u fut : List UInt8}, S x (u ++ fut) → M.Fit r x u →
    x.cache = [] → K x (u ++ fut) x u fut []
  next : ∀ {x c : Ctx} {page u buf fut : List UInt8} {l : List Item}, K x page c u (buf ++ fut) l →
    K x page (c.hold []) (u ++ buf) fut (.buffer :: l)
  turn : ∀ {x c y : Ctx} {page u fut : List UInt8} {l : List Item} {r r' : Routine} {d : ℕ} {es : List Ev}
    {nxt : Next} {k k' : List Routine} (old : List UInt8), K x page c u fut l → c.cache = [] →
    y.cache = [] → M.Fit r c u → M.rule d c r u es y nxt → nxt.Goes r k r' k' →
    K x page (nxt.ended r' (d + (emitted (Ev.items c es u)).length)
        (emitted ((Ev.items c es u).reverse ++ .turn r c u d :: l) ++ old) y)
      (u.drop (Ev.takes es)) fut ((Ev.items c es u).reverse ++ .turn r c u d :: l)
  hold : ∀ {x c y : Ctx} {page u fut : List UInt8} {l : List Item} {r : Routine} {d : ℕ}
    (a old : List UInt8), K x page c u fut l → c.cache = [] → M.Fit r c u →
    M.rule d c r u (Ev.holds a u) y .again → c.Held u y →
    K x page (Next.again.ended r d (emitted l ++ old) y) u fut (.cacheCall a 0 u :: .turn r c u d :: l)
  done : ∀ {x c : Ctx} {page u fut : List UInt8} {l : List Item} {r : Routine} {d : ℕ} (old : List UInt8),
    K x page c u fut l → K x page (Next.again.ended r d (emitted l ++ old) c) u fut l

namespace Passage
variable {M : Machine} {S : Ctx → List UInt8 → Prop} {K : Keeping}

/-- Every passage of a response that begins with `S` is in a way that `K` tells of. -/
theorem inv (P : Passage M S K) : TraceInv M fun v => ∀ l older r x u d fut,
    v.trace = l ++ .turn r x u d :: older → S x ((consumed l).reverse ++ (v.pending ++ fut)) →
      K x ((consumed l).reverse ++ (v.pending ++ fut)) v.ctx v.pending fut (l ++ [.turn r x u d]) where
  start l older r x u d fut he := by simp at he
  next {v} buf _ h _ l older r x u d fut he hS := by
    rcases l with _ | ⟨i, l⟩
    · cases he
    · obtain ⟨rfl, htr⟩ := List.cons.inj he
      rw [List.append_assoc] at hS ⊢
      exact P.next (h l older r x u d (buf ++ fut) htr hS)
  turn {v es y nxt k k' r' m tr} hv h hc hy hrule hgo _ hm htr l older r x u d fut he hS := by
    have hnot : ∀ r x u d, Item.turn r x u d ∉ (Ev.items v.ctx es v.pending).reverse :=
      fun r x u d hmem => Ev.turn_notMem_items v.ctx x r u d es v.pending (List.mem_reverse.mp hmem)
    have hread : (consumed (Ev.items v.ctx es v.pending).reverse).reverse =
        v.pending.take (Ev.takes es) := by
      rw [consumed_reverse, List.reverse_reverse, Ev.consumed_items _ _ _ (M.takes_le hrule)]
    subst htr hm
    rcases turn_split hnot he with ⟨rfl, hturn⟩ | ⟨m, rfl, htr⟩
    · cases hturn
      have hpage : v.pending.take (Ev.takes es) ++ (v.pending.drop (Ev.takes es) ++ fut) =
          v.pending ++ fut := by rw [← List.append_assoc, List.take_append_drop]
      rw [hread, hpage] at hS ⊢
      have hturn := P.turn (emitted v.trace) (P.start hS (hv.fit hc) hc) hc hy (hv.fit hc) hrule hgo
      have hout : emitted ((Ev.items v.ctx es v.pending).reverse ++
            [.turn v.r v.ctx v.pending v.dstlen]) ++ emitted v.trace =
          emitted ((Ev.items v.ctx es v.pending).reverse ++
            .turn v.r v.ctx v.pending v.dstlen :: v.trace) := by simp
      rw [hout] at hturn
      exact hturn
    · have hpage : (consumed ((Ev.items v.ctx es v.pending).reverse ++
            .turn v.r v.ctx v.pending v.dstlen :: m)).reverse ++ (v.pending.drop (Ev.takes es) ++ fut) =
          (consumed m).reverse ++ (v.pending ++ fut) := by
        rw [consumed_append, List.reverse_append, hread, consumed_cons, List.append_assoc,
          ← List.append_assoc (List.take _ _), List.take_append_drop]
        rfl
      rw [hpage] at hS ⊢
      have hturn := P.turn (emitted older) (h m older r x u d fut htr hS) hc hy (hv.fit hc) hrule hgo
      have hout : emitted ((Ev.items v.ctx es v.pending).reverse ++
            .turn v.r v.ctx v.pending v.dstlen :: (m ++ [.turn r x u d])) ++ emitted older =
          emitted ((Ev.items v.ctx es v.pending).reverse ++
            .turn v.r v.ctx v.pending v.dstlen :: v.trace) := by simp [htr]
      rw [hout] at hturn
      rw [List.append_assoc, List.cons_append]
      exact hturn
  hold {v y} a hv h hc hrule hy l older r x u d fut he hS := by
    rcases turn_split (l := [.cacheCall a 0 v.pending]) (by simp) he with ⟨rfl, hturn⟩ | ⟨m, rfl, htr⟩
    · cases hturn
      have hS' : S v.ctx (v.pending ++ fut) := hS
      exact P.hold a (emitted v.trace) (P.start hS' (hv.fit hc) hc) hc (hv.fit hc) hrule hy
    · have hold := P.hold a (emitted older) (h m older r x u d fut htr hS) hc (hv.fit hc) hrule hy
      have hout : emitted (m ++ [.turn r x u d]) ++ emitted older = emitted v.trace := by simp [htr]
      rw [hout] at hold
      exact hold
  done {v k r'} _ h _ l older r x u d fut he hS := by
    have hdone := P.done (r := r') (d := v.dstlen) (emitted older) (h l older r x u d fut he hS)
    have hout : emitted (l ++ [.turn r x u d]) ++ emitted older = emitted v.trace := by
      have htr : v.trace = l ++ .turn r x u d :: older := he
      simp [htr]
    rw [hout] at hdone
    exact hdone

/-- The same for what a response leaves at its end. -/
theorem session {type : FileType} {cap : Option ℕ} {bufs : List (List UInt8)} {s : Session}
    (P : Passage (machine type) S K) (h : feedAll Flat cap type .start bufs = .ok s)
    {newer older : List Item} {r : Routine} {x : Ctx} {u page : List UInt8} {d : ℕ}
    (htr : s.trace = newer ++ .turn r x u d :: older)
    (hpage : (consumed newer).reverse ++ s.ctx.cache = page) (hS : S x page) :
    K x page s.ctx s.ctx.cache [] (newer ++ [.turn r x u d]) := by
  obtain ⟨c, hreach, hnil, rfl, -⟩ := feedAll_ok h
  have hpending : c.pending = c.ctx.cache := by rw [Conf.pending, hnil, List.append_nil]
  have hahead : (consumed newer).reverse ++ (c.pending ++ []) = page := by
    rw [hpending, List.append_nil]
    exact hpage
  have hinv : K x ((consumed newer).reverse ++ (c.pending ++ [])) c.ctx c.pending [] _ :=
    P.inv.reach hreach newer older r x u d [] htr (hahead.symm ▸ hS)
  rw [hahead, hpending] at hinv
  exact hinv

end Passage

theorem exists_run {α : Type} {type : FileType} {bufs : List (List UInt8)} {f : Session → α} {a : α}
    (h : (feedAll Stream none type .start bufs).map f = .ok a) :
    ∃ s, feedAll Flat none type .start bufs = .ok s ∧ f s = a := by
  obtain ⟨c, -, -, hrun⟩ := feedAll_reach type bufs
  rw [hrun] at h
  injection h with h
  exact ⟨c.session, by rw [feedAll_flat, hrun], h⟩

theorem exists_turn {α : Type} {type : FileType} {bufs : List (List UInt8)} {n : ℕ} {r : Routine} {x : Ctx}
    {u : List UInt8} {d : ℕ} {f : Session → List Item → α} {a : α}
    (h : (feedAll Stream none type .start bufs).map (fun s => (s.trace[n]?, f s (s.trace.take n))) =
      .ok (some (.turn r x u d), a)) :
    ∃ s newer older, feedAll Flat none type .start bufs = .ok s ∧
      s.trace = newer ++ .turn r x u d :: older ∧ f s newer = a := by
  obtain ⟨c, -, -, hrun⟩ := feedAll_reach type bufs
  rw [hrun] at h
  injection h with h
  obtain ⟨hturn, hf⟩ := Prod.mk.inj h
  obtain ⟨hlt, hget⟩ := List.getElem?_eq_some_iff.mp hturn
  refine ⟨c.session, c.session.trace.take n, c.session.trace.drop (n + 1), ?_, ?_, hf⟩
  · rw [feedAll_flat, hrun]
  · rw [← hget, ← List.drop_eq_getElem_cons hlt, List.take_append_drop]

end NginB.Minify
