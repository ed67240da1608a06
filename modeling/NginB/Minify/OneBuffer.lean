import NginB.Minify.Stripped
import NginB.Program.Mealy

/-! # A buffer, byte for byte

Between two buffers nothing is written, and `dstlen` starts at 0 again: within a buffer it is the
length of what has been written there, and after the loops have come to the end of the buffer only what
is held back is left. `Reads` couples a minifier with a Mealy machine that reads the buffer byte for byte.
-/
namespace NginB.Minify
open NginB.Program Relation

/-- What was written into earlier buffers does not matter for `pre_char`. -/
theorem Next.ended_append (nxt : Next) (r : Routine) (out older : List UInt8) (x : Ctx) :
    nxt.ended r out.length (out ++ older) x = nxt.ended r out.length out x := by
  have hrefreshed : x.refreshed out.length (out ++ older) = x.refreshed out.length out := by
    rcases out with _ | ⟨a, _ | ⟨b, out⟩⟩ <;> simp [Ctx.refreshed]
  unfold Next.ended
  rw [hrefreshed]

/-- What holds all along a buffer that is handed to a minifier in context `x₀`. In the four steps `u` is
unread and `out` has been written into the buffer, newest first. -/
structure OneBuffer (M : Machine) (x₀ : Ctx) (buf : List UInt8)
    (K : Routine → Ctx → List UInt8 → List UInt8 → Prop) : Prop where
  start : K M.top (x₀.hold []) (x₀.cache ++ buf) []
  turn : ∀ {r r' x y u es nxt k k' out out'}, K r x u out → u ≠ [] → x.cache = [] → y.cache = [] →
    M.Fit r x u → M.rule out.length x r u es y nxt → nxt.Goes r k r' k' → M.callers r k →
    out' = (emitted (Ev.items x es u)).reverse ++ out →
    K r' (nxt.ended r' out'.length out' y) (u.drop (Ev.takes es)) out'
  hold : ∀ {r x y u out} (a : List UInt8), K r x u out → u ≠ [] → x.cache = [] → M.Fit r x u →
    M.rule out.length x r u (Ev.holds a u) y .again → x.Held u y →
    K r (Next.again.ended r out.length out y) u out
  done : ∀ {r r' x k out}, K r x x.cache out → M.callers r (r' :: k) →
    K r' (Next.again.ended r' out.length out x) x.cache out

namespace OneBuffer
variable {M : Machine} {x₀ : Ctx} {buf : List UInt8} {K : Routine → Ctx → List UInt8 → List UInt8 → Prop}

theorem step (O : OneBuffer M x₀ buf K) {p q : At} {older : List UInt8} (hgood : M.Good p)
    (htraced : p.conf.Traced older) (hs : Step M.rule p q)
    (hK : K p.r p.conf.ctx p.conf.pending p.conf.buf.out) : K q.r q.conf.ctx q.conf.pending q.conf.buf.out := by
  have htraced' := htraced.step hgood hs
  cases hs with
  | @turn r k c es y nxt r' k' hne hrule hgo =>
    have hc := (M.idle hgood.fit).resolve_right hne
    have hpending : c.pending = c.buf.rest := by rw [Conf.pending, hc, List.nil_append]
    obtain ⟨hset, hpen, hbuf, -, -⟩ := nxt.ends_view r' (c.turned r es y)
    have hout : emitted (c.turned r es y).settled = (c.turned r es y).buf.out ++ older := by
      have hout := htraced'.out
      rwa [hset, hbuf] at hout
    have hlen : (c.turned r es y).buf.out =
        (emitted (Ev.items c.ctx es c.buf.rest)).reverse ++ c.buf.out := by
      rw [Conf.turned, emitted_reverse]
    simp only [hpending] at hK
    simp only [hbuf, hpen, htraced'.ends_ctx, hout, Next.ended_append]
    cases M.turned hrule hc with
    | plain hy hs' hp' =>
      rw [hp', hpending]
      exact O.turn hK hne hc hy hgood.fit hrule hgo hgood.callers hlen
    | held a hes hn hy hs' hp' =>
      subst hes hn
      cases hgo
      have hnil : emitted (Ev.items c.ctx (Ev.holds a c.buf.rest) c.buf.rest) = [] := by
        have hskips := emitted_skips c.ctx.state.top c.buf.rest
        rw [emitted_reverse, List.reverse_eq_nil_iff] at hskips
        rw [Ev.items_holds, emitted_cons, hskips]
        rfl
      rw [hnil, List.reverse_nil, List.nil_append] at hlen
      rw [hp', hpending, hlen]
      exact O.hold a hK hne hc hgood.fit hrule hy
  | @done r r' k c hnil =>
    obtain ⟨hset, hpen, hbuf, -, -⟩ := Next.ends_view .again r' c
    have hctx : (Next.again.ends r' c).ctx = _ := Conf.Traced.ends_ctx htraced'
    have hpending : c.pending = c.ctx.cache := by rw [Conf.pending, hnil, List.append_nil]
    simp only [Next.ends] at hset hpen hbuf hctx
    simp only [hpending] at hK
    simp only [hbuf, hpen, hctx, htraced.out, Next.ended_append, hpending]
    exact O.done hK hgood.callers

theorem stripped {type : FileType} (O : OneBuffer (machine type) x₀ buf K) {old : List Item} {t : Conf Stream}
    (h : Stripped type x₀ old buf t) : K (machine type).top t.ctx t.ctx.cache t.buf.out := by
  have hpath : ∀ {q : At}, ReflTransGen (Step (machine type).rule)
      ⟨(machine type).top, [], x₀.handed old buf⟩ q →
      q.conf.Traced (emitted old) ∧ K q.r q.conf.ctx q.conf.pending q.conf.buf.out := by
    intro q hpath
    induction hpath with
    | refl => exact ⟨⟨⟨.text, _, rfl⟩, rfl⟩, O.start⟩
    | tail hpath hs ih =>
      have hgood := (machine type).ranked.good_of_path h.good hpath
      exact ⟨ih.1.step hgood hs, O.step hgood ih.1 hs ih.2⟩
  have hends := (hpath h.path).2
  simp only [Conf.pending, h.rest, List.append_nil] at hends
  exact hends

end OneBuffer

/-- A minifier and a Mealy machine that has read as far. `Live` couples them while the buffer is being
read: `u` is unread and `out` has been written, newest first. `End` is what is left of that at the end, where
`u` is held back. -/
structure Reads {σ : Type} (M : Machine) (Z : Mealy σ UInt8 UInt8)
    (Live End : Routine → Ctx → List UInt8 → List UInt8 → σ → Prop) : Prop where
  turn : ∀ {r r' x y u es nxt k k' out out' m}, Live r x u out m → y.cache = [] → M.Fit r x u →
    M.rule out.length x r u es y nxt → nxt.Goes r k r' k' → M.callers r k →
    out' = (emitted (Ev.items x es u)).reverse ++ out →
    Z.out m (u.take (Ev.takes es)) = emitted (Ev.items x es u) ∧
      Live r' (nxt.ended r' out'.length out' y) (u.drop (Ev.takes es)) out' (Z.run m (u.take (Ev.takes es)))
  hold : ∀ {r x y u out m} (a : List UInt8), Live r x u out m → x.cache = [] → u ≠ [] → M.Fit r x u →
    M.rule out.length x r u (Ev.holds a u) y .again → x.Held u y →
    Z.out m u = [] ∧ End r (Next.again.ended r out.length out y) u out m
  idle : ∀ {r x out m}, Live r x [] out m → End r x [] out m
  done : ∀ {r r' x u k out m}, End r x u out m → M.callers r (r' :: k) →
    End r' (Next.again.ended r' out.length out x) u out m

namespace Reads
variable {σ : Type} {M : Machine} {Z : Mealy σ UInt8 UInt8} {x₀ : Ctx} {buf : List UInt8} {m₀ : σ}
  {Live End : Routine → Ctx → List UInt8 → List UInt8 → σ → Prop}

/-- The machine that has come as far as the minifier, which reads on or has read everything. -/
structure Along (Z : Mealy σ UInt8 UInt8) (m₀ : σ)
    (Live End : Routine → Ctx → List UInt8 → List UInt8 → σ → Prop) (input : List UInt8) (r : Routine) (x : Ctx)
    (u out : List UInt8) (m : σ) : Prop where
  written : out.reverse ++ Z.out m u = Z.out m₀ input
  state : Z.run m u = Z.run m₀ input
  phase : x.cache = [] ∧ Live r x u out m ∨ u = x.cache ∧ Z.out m u = [] ∧ End r x u out m

theorem oneBuffer (R : Reads M Z Live End) (h : Live M.top (x₀.hold []) (x₀.cache ++ buf) [] m₀) :
    OneBuffer M x₀ buf fun r x u out => ∃ m, Along Z m₀ Live End (x₀.cache ++ buf) r x u out m where
  start := ⟨m₀, rfl, rfl, .inl ⟨rfl, h⟩⟩
  turn := by
    rintro r r' x y u es nxt k k' out out' ⟨m, hout, hrun, hphase⟩ hne hc hy hf hrule hgo hk hout'
    rcases hphase with ⟨-, hlive⟩ | ⟨hu, -⟩
    · obtain ⟨hemit, hlive'⟩ := R.turn hlive hy hf hrule hgo hk hout'
      have hsplit : u.take (Ev.takes es) ++ u.drop (Ev.takes es) = u := List.take_append_drop _ _
      refine ⟨_, ?_, ?_, .inl ⟨?_, hlive'⟩⟩
      · rw [← hout, ← hsplit, Mealy.out_append, hsplit, hemit, hout', List.reverse_append,
          List.reverse_reverse, List.append_assoc]
      · rw [← hrun, ← Mealy.run_append, hsplit]
      · rw [Next.ended_cache]
        exact hy
    · rw [hc] at hu
      exact absurd hu hne
  hold := by
    rintro r x y u out a ⟨m, hout, hrun, hphase⟩ hne hc hf hrule hy
    rcases hphase with ⟨-, hlive⟩ | ⟨hu, -⟩
    · refine ⟨m, hout, hrun, .inr ⟨?_, R.hold a hlive hc hne hf hrule hy⟩⟩
      rw [Next.ended_cache]
      exact hy.cache.symm
    · rw [hc] at hu
      exact absurd hu hne
  done := by
    rintro r r' x k out ⟨m, hout, hrun, hphase⟩ hk
    refine ⟨m, hout, hrun, .inr ⟨(Next.ended_cache _ _ _ _ _).symm, ?_⟩⟩
    rcases hphase with ⟨hc, hlive⟩ | ⟨-, hnil, hend⟩
    · rw [hc] at hlive ⊢
      exact ⟨rfl, R.done (R.idle hlive) hk⟩
    · exact ⟨hnil, R.done hend hk⟩

/-- What is written into a buffer, and what holds at its end: the machine is where it was before the bytes
that are held back, and nothing is written for these. -/
theorem stripped {type : FileType} (R : Reads (machine type) Z Live End) {old : List Item} {t : Conf Stream}
    (h : Stripped type x₀ old buf t) (hlive : Live (machine type).top (x₀.hold []) (x₀.cache ++ buf) [] m₀) :
    t.buf.out.reverse = Z.out m₀ (x₀.cache ++ buf) ∧ ∃ m, Z.run m t.ctx.cache = Z.run m₀ (x₀.cache ++ buf) ∧
      End (machine type).top t.ctx t.ctx.cache t.buf.out m := by
  obtain ⟨m, hout, hrun, hphase⟩ := (R.oneBuffer hlive).stripped h
  have hend : Z.out m t.ctx.cache = [] ∧ End (machine type).top t.ctx t.ctx.cache t.buf.out m := by
    rcases hphase with ⟨hc, hlive⟩ | ⟨-, hnil, hend⟩
    · rw [hc] at hlive ⊢
      exact ⟨rfl, R.idle hlive⟩
    · exact ⟨hnil, hend⟩
  rw [hend.1, List.append_nil] at hout
  exact ⟨hout, m, hrun, hend.2⟩

/-- What is written for a page in one buffer, and what holds at its end. -/
theorem session {type : FileType} (R : Reads (machine type) Z Live End)
    (hlive : ∀ page, Live (machine type).top Ctx.zero page [] m₀) {cap : Option ℕ} {page : List UInt8} {s : Session}
    (h : feedAll Flat cap type .start [page] = .ok s) : s.out = Z.out m₀ page ∧
      ∃ m, Z.run m s.ctx.cache = Z.run m₀ page ∧ End (machine type).top s.ctx s.ctx.cache s.out.reverse m := by
  rw [feedAll_flat] at h
  have hfeed : feed Stream cap type .start page = .ok s := by
    rw [← h]
    exact (bind_pure _).symm
  obtain ⟨t, hstripped, -, rfl⟩ := feed_stripped (Ctx.resumes_zero type) (fun _ _ _ hmem => (List.not_mem_nil hmem).elim) hfeed
  obtain ⟨hout, m, hrun, hend⟩ := R.stripped hstripped (hlive page)
  have hall : (Session.start.takeBack Stream t).out = t.buf.out.reverse := List.nil_append _
  rw [hall, List.reverse_reverse]
  exact ⟨hout, m, hrun, hend⟩

end Reads

end NginB.Minify
