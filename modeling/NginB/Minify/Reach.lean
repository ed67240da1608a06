import NginB.Minify.HtmlSafe
import NginB.Minify.CssMachine
import NginB.Minify.JsMachine
import Mathlib.Data.List.Induction

/-! # What a minifier can reach

`Reach` follows the steps of a minifier through a sequence of buffers. The bytes held
back at the end of a buffer have been passed over once already, and they are read again:
`settled` is the trace without them, and `pending` are the bytes still to be read for
good. `TraceInv` is the induction over all that a response can go through, in these
terms.
-/
namespace NginB.Minify
open NginB.Program Relation

def machine : FileType → Machine
  | .html => htmlMachine
  | .css => cssMachine
  | .js => jsMachine

/-- A minifier reads a buffer to its end, by its rules. -/
theorem stripBuffer_follows (type : FileType) {c : Conf Stream} {fuel : ℕ}
    (hc : (machine type).Good ⟨(machine type).top, [], c⟩)
    (hf : (machine type).measure ⟨(machine type).top, [], c⟩ < fuel) :
    ∃ t, (stripBuffer none fuel type).run c = .ok ((), t) ∧ t.buf.rest = [] ∧
      ReflTransGen (Step (machine type).rule) ⟨(machine type).top, [], c⟩
        ⟨(machine type).top, [], t⟩ := by
  cases type with
  | html => exact htmlStripBuffer_follows hc hf
  | css => exact cssStripBuffer_follows hc hf
  | js => exact jsStripBuffer_follows hc hf

namespace Conf

/-- The trace without the skips over what is held back. -/
def settled (c : Conf Stream) : List Item := c.trace.drop c.ctx.cache.length

/-- The bytes held back and the bytes unread. -/
def pending (c : Conf Stream) : List UInt8 := c.ctx.cache ++ c.buf.rest

def session (c : Conf Stream) : Session := ⟨c.ctx, (emitted c.settled).reverse, c.settled⟩

end Conf

def At.start (M : Machine) : At := ⟨M.top, [], ⟨Ctx.zero, ⟨[], []⟩, []⟩⟩

/-- What can be reached on a sequence of buffers, of which the last one may be unread in part. -/
inductive Reach (M : Machine) : List (List UInt8) → At → Prop
  | start : Reach M [] (At.start M)
  | next {bufs c} (buf : List UInt8) (h : Reach M bufs ⟨M.top, [], c⟩) (hnil : c.buf.rest = []) :
      Reach M (bufs ++ [buf]) ⟨M.top, [], c.session.handOver Stream buf⟩
  | step {bufs p q} (h : Reach M bufs p) (hs : Step M.rule p q) : Reach M bufs q

theorem handOver_stream (s : Session) (buf : List UInt8) :
    s.handOver Stream buf = ⟨s.ctx.hold [], ⟨s.ctx.cache ++ buf, []⟩, .buffer :: s.trace⟩ := rfl

section Facts
variable {M : Machine} {bufs : List (List UInt8)} {p q : At}

theorem Reach.good (h : Reach M bufs p) : M.Good p := by
  induction h with
  | start => exact ⟨M.callers_top, M.start []⟩
  | @next bufs c buf _ hnil ih =>
    have hfit := ih.fit
    rw [show (At.conf ⟨M.top, [], c⟩).buf.rest = [] from hnil] at hfit
    exact ⟨M.callers_top, M.resume buf hfit⟩
  | step _ hs ih => exact M.good_step ih hs

theorem Reach.path (h : Reach M bufs p) (hpath : ReflTransGen (Step M.rule) p q) :
    Reach M bufs q := by
  induction hpath with
  | refl => exact h
  | tail _ hs ih => exact ih.step hs

/-- The skips over what is held back are the newest items of the trace. -/
def Conf.HeldLast (c : Conf Stream) : Prop :=
  ∃ st old, c.trace = (c.ctx.cache.map (.skip st)).reverse ++ old

theorem Conf.HeldLast.settled {c : Conf Stream} (h : c.HeldLast) :
    ∃ st, c.trace = (c.ctx.cache.map (.skip st)).reverse ++ c.settled := by
  obtain ⟨st, old, he⟩ := h
  refine ⟨st, ?_⟩
  rw [Conf.settled, he, List.drop_left' (by simp)]

theorem Conf.settled_of_nil {c : Conf Stream} (h : c.ctx.cache = []) : c.settled = c.trace := by
  rw [Conf.settled, h]
  rfl

theorem Conf.turned_settled {c : Conf Stream} {r : Routine} {es : List Ev} {y : Ctx}
    (hc : c.ctx.cache = []) (hy : y.cache = []) :
    (c.turned r es y).settled = (Ev.items c.ctx es c.buf.rest).reverse ++
      .turn r c.ctx c.buf.rest c.buf.out.length :: c.settled := by
  rw [Conf.settled_of_nil hc, Conf.settled_of_nil hy]
  rfl

/-- An iteration that holds all unread bytes back. -/
theorem Conf.turned_held {c : Conf Stream} {r : Routine} {a : List UInt8} {y : Ctx}
    (hc : c.ctx.cache = []) (hy : y.cache = c.buf.rest) :
    (c.turned r (Ev.holds a c.buf.rest) y).settled = .cacheCall a 0 c.buf.rest ::
      .turn r c.ctx c.buf.rest c.buf.out.length :: c.settled := by
  rw [Conf.settled_of_nil hc, Conf.settled, Conf.turned, Ev.items_holds, hc, hy,
    List.reverse_cons, List.append_assoc]
  exact List.drop_left' (by simp)

inductive Turned (c : Conf Stream) (r : Routine) (es : List Ev) (y : Ctx) (nxt : Next) : Prop
  | plain (hy : y.cache = [])
      (hs : (c.turned r es y).settled = (Ev.items c.ctx es c.buf.rest).reverse ++
        .turn r c.ctx c.buf.rest c.buf.out.length :: c.settled)
      (hp : (c.turned r es y).pending = c.pending.drop (Ev.takes es))
  | held (a : List UInt8) (hes : es = Ev.holds a c.buf.rest) (hn : nxt = .again)
      (hy : c.ctx.Held c.buf.rest y)
      (hs : (c.turned r es y).settled = .cacheCall a 0 c.buf.rest ::
        .turn r c.ctx c.buf.rest c.buf.out.length :: c.settled)
      (hp : (c.turned r es y).pending = c.pending)

theorem Machine.turned {c : Conf Stream} {r : Routine} {es : List Ev} {y : Ctx} {nxt : Next}
    (h : M.rule c.buf.out.length c.ctx r c.buf.rest es y nxt) (hc : c.ctx.cache = []) :
    Turned c r es y nxt := by
  have hpending : c.pending = c.buf.rest := by rw [Conf.pending, hc, List.nil_append]
  rcases M.holds h hc with hy | ⟨hy, hn, a, rfl⟩
  · refine .plain hy (Conf.turned_settled hc hy) ?_
    rw [hpending, Conf.pending, Conf.turned]
    simp [hy]
  · refine .held a rfl hn hy (Conf.turned_held hc hy.cache) ?_
    rw [hpending, Conf.pending, Conf.turned]
    simp [hy.cache]

/-- The end of an iteration changes no more than `pre_char`. -/
theorem Next.ends_view (nxt : Next) (r : Routine) (c : Conf Stream) :
    (nxt.ends r c).settled = c.settled ∧ (nxt.ends r c).pending = c.pending ∧
      (nxt.ends r c).buf = c.buf ∧ (nxt.ends r c).trace = c.trace ∧
      (nxt.ends r c).ctx.cache = c.ctx.cache := by
  obtain ⟨p, q, he⟩ := nxt.ends_eq r c
  rw [he]
  exact ⟨rfl, rfl, rfl, rfl, rfl⟩

theorem Ev.consumed_items (x : Ctx) (es : List Ev) : ∀ rest : List UInt8, Ev.takes es ≤ rest.length →
    consumed (Ev.items x es rest) = rest.take (Ev.takes es) := by
  induction es with
  | nil => exact fun rest _ => rfl
  | cons e es ih =>
    intro rest h
    cases e with
    | tag i => exact ih rest h
    | stack s => exact ih rest h
    | call a => exact ih rest h
    | skip | copy | put a =>
      rcases rest with _ | ⟨b, t⟩
      · exact absurd h (Nat.not_succ_le_zero _)
      · have htail := ih t (Nat.le_of_succ_le_succ h)
        simp [htail]

theorem consumed_reverse (tr : List Item) : consumed tr.reverse = (consumed tr).reverse := by
  induction tr with
  | nil => rfl
  | cons i tr ih =>
    rw [List.reverse_cons, consumed_append, ih, consumed_cons i tr, List.reverse_append]
    cases i <;> rfl

theorem emitted_reverse (tr : List Item) : emitted tr.reverse = (emitted tr).reverse := by
  induction tr with
  | nil => rfl
  | cons i tr ih =>
    rw [List.reverse_cons, emitted_append, ih, emitted_cons i tr, List.reverse_append]
    cases i <;> rfl

/-- A step reads bytes for good that were pending. -/
theorem split_step (hgood : M.Good p) (hs : Step M.rule p q) :
    (consumed q.conf.settled).reverse ++ q.conf.pending =
      (consumed p.conf.settled).reverse ++ p.conf.pending := by
  cases hs with
  | @turn r k c es x nxt r' k' hne hrule hgo =>
    obtain ⟨hset, hpen, -⟩ := nxt.ends_view r' (c.turned r es x)
    have hc := (M.idle hgood.fit).resolve_right hne
    simp only [hset, hpen]
    cases M.turned hrule hc with
    | plain hy hs' hp' =>
      have hrest : c.pending = c.buf.rest := by rw [Conf.pending, hc, List.nil_append]
      rw [hs', hp', consumed_append, consumed_cons, consumed_reverse,
        Ev.consumed_items _ _ _ (M.takes_le hrule), List.reverse_append, List.reverse_reverse,
        ← hrest, List.append_assoc, List.take_append_drop]
      rfl
    | held a hes hn hy hs' hp' =>
      rw [hs', hp']
      rfl
  | @done r r' k c hnil =>
    obtain ⟨hset, hpen, -⟩ := Next.ends_view .again r' c
    simp only [Next.ends] at hset hpen
    rw [hset, hpen]

/-- What the buffers gave is what has been read for good and what is pending. -/
theorem Reach.split (h : Reach M bufs p) :
    (consumed p.conf.settled).reverse ++ p.conf.pending = bufs.flatten := by
  induction h with
  | start => rfl
  | @next bufs c buf _ hnil ih =>
    have hold : (consumed c.settled).reverse ++ (c.ctx.cache ++ c.buf.rest) = bufs.flatten := ih
    rw [hnil, List.append_nil] at hold
    rw [List.flatten_append, List.flatten_singleton, ← hold, List.append_assoc]
    rfl
  | @step bufs p q h hs ih => exact (split_step h.good hs).trans ih

/-- The bytes held back have been passed over, and `older` was written before the bytes of
this buffer. -/
structure Conf.Traced (older : List UInt8) (c : Conf Stream) : Prop where
  held : c.HeldLast
  out : emitted c.settled = c.buf.out ++ older

theorem Conf.Traced.step {older : List UInt8} (h : p.conf.Traced older) (hgood : M.Good p)
    (hs : Step M.rule p q) : q.conf.Traced older := by
  have hout := h.out
  cases hs with
  | @turn r k c es x nxt r' k' hne hrule hgo =>
    obtain ⟨hset, hpen, hbuf, htr, hcache⟩ := nxt.ends_view r' (c.turned r es x)
    have hc := (M.idle hgood.fit).resolve_right hne
    have hout' : emitted c.settled = c.buf.out ++ older := hout
    refine ⟨?_, ?_⟩
    · unfold Conf.HeldLast
      simp only [htr, hcache]
      cases M.turned hrule hc with
      | plain hy hs' hp' => exact ⟨.text, _, by rw [show (c.turned r es x).ctx.cache = [] from hy]; rfl⟩
      | held a hes hn hy hs' hp' =>
        refine ⟨c.ctx.state.top, .cacheCall a c.ctx.cache.length c.buf.rest ::
          .turn r c.ctx c.buf.rest c.buf.out.length :: c.trace, ?_⟩
        rw [show (c.turned r es x).ctx.cache = c.buf.rest from hy.cache, hes, Conf.turned,
          Ev.items_holds, List.reverse_cons, List.append_assoc]
        rfl
    · simp only [hset, hbuf]
      cases M.turned hrule hc with
      | plain hy hs' hp' =>
        rw [hs', emitted_append, emitted_cons, hout']
        simp [Conf.turned]
      | held a hes hn hy hs' hp' =>
        rw [hs', hes]
        simp [Conf.turned, hout']
  | @done r r' k c hnil =>
    obtain ⟨hset, -, hbuf, htr, hcache⟩ := Next.ends_view .again r' c
    simp only [Next.ends] at hset hbuf htr hcache
    refine ⟨?_, ?_⟩
    · unfold Conf.HeldLast
      simp only [htr, hcache]
      exact h.held
    · simp only [hset, hbuf]
      exact hout

theorem Conf.Traced.path {older : List UInt8} (h : p.conf.Traced older) (hgood : M.Good p)
    (hpath : ReflTransGen (Step M.rule) p q) : q.conf.Traced older := by
  induction hpath with
  | refl => exact h
  | tail hpath hs ih => exact ih.step (M.ranked.good_of_path hgood hpath) hs

theorem Conf.handOver_traced (c : Conf Stream) (buf : List UInt8) :
    (c.session.handOver Stream buf).Traced (emitted c.settled) := ⟨⟨.text, _, rfl⟩, rfl⟩

theorem Reach.traced (h : Reach M bufs p) : ∃ older, p.conf.Traced older := by
  induction h with
  | start => exact ⟨[], ⟨.text, [], rfl⟩, rfl⟩
  | @next bufs c buf _ hnil ih => exact ⟨_, c.handOver_traced buf⟩
  | @step bufs p q h hs ih =>
    obtain ⟨older, ht⟩ := ih
    exact ⟨older, ht.step h.good hs⟩

end Facts

structure View where
  input : List UInt8
  /-- newest first -/
  trace : List Item
  pending : List UInt8
  dstlen : ℕ
  r : Routine
  ctx : Ctx

def At.view (bufs : List (List UInt8)) (p : At) : View where
  input := bufs.flatten
  trace := p.conf.settled
  pending := p.conf.pending
  dstlen := p.conf.buf.out.length
  r := p.r
  ctx := p.conf.ctx

structure View.Sound (M : Machine) (v : View) : Prop where
  split : (consumed v.trace).reverse ++ v.pending = v.input
  fit : v.ctx.cache = [] → M.Fit v.r v.ctx v.pending
  dstlen_le : v.dstlen ≤ (emitted v.trace).length

theorem At.sound {M : Machine} {bufs : List (List UInt8)} {p : At} {older : List UInt8}
    (hgood : M.Good p) (htraced : p.conf.Traced older)
    (hsplit : (consumed p.conf.settled).reverse ++ p.conf.pending = bufs.flatten) :
    (p.view bufs).Sound M where
  split := hsplit
  fit hc := by
    have hfit := hgood.fit
    have hc' : p.conf.ctx.cache = [] := hc
    change M.Fit p.r p.conf.ctx (p.conf.ctx.cache ++ p.conf.buf.rest)
    rw [hc']
    exact hfit
  dstlen_le := by
    have he := htraced.out
    change p.conf.buf.out.length ≤ (emitted p.conf.settled).length
    rw [he, List.length_append]
    omega

theorem Reach.sound {M : Machine} {bufs : List (List UInt8)} {p : At} (h : Reach M bufs p) :
    (p.view bufs).Sound M := by
  obtain ⟨older, ht⟩ := h.traced
  exact p.sound h.good ht h.split

/-- The update of `pre_char` when `d` bytes of the buffer have been written, the newest of the
response being `out`. -/
def Ctx.refreshed (d : ℕ) (out : List UInt8) (x : Ctx) : Ctx :=
  if x.nochangePre = true ∨ d = 0 then x
  else { x with preChar := out.headD 0, preChar2 := if d = 1 then 0 else out.getD 1 0 }

def Next.ended (nxt : Next) (r : Routine) (d : ℕ) (out : List UInt8) (x : Ctx) : Ctx :=
  match nxt with
  | .call _ => x
  | _ => if r.refreshes then x.refreshed d out else x

theorem Next.ended_eq (nxt : Next) (r : Routine) (d : ℕ) (out : List UInt8) (x : Ctx) : ∃ p q,
    nxt.ended r d out x = { x with preChar := p, preChar2 := q } := by
  unfold Next.ended Ctx.refreshed
  split
  · exact ⟨_, _, rfl⟩
  · split
    · split <;> exact ⟨_, _, rfl⟩
    · exact ⟨_, _, rfl⟩

@[simp] theorem Next.ended_state (nxt : Next) (r : Routine) (d : ℕ) (out : List UInt8) (x : Ctx) :
    (nxt.ended r d out x).state = x.state := by
  obtain ⟨p, q, he⟩ := nxt.ended_eq r d out x
  rw [he]

@[simp] theorem Next.ended_cache (nxt : Next) (r : Routine) (d : ℕ) (out : List UInt8) (x : Ctx) :
    (nxt.ended r d out x).cache = x.cache := by
  obtain ⟨p, q, he⟩ := nxt.ended_eq r d out x
  rw [he]

@[simp] theorem Next.ended_quoteChar (nxt : Next) (r : Routine) (d : ℕ) (out : List UInt8) (x : Ctx) :
    (nxt.ended r d out x).quoteChar = x.quoteChar := by
  obtain ⟨p, q, he⟩ := nxt.ended_eq r d out x
  rw [he]

@[simp] theorem Next.ended_nochangePre (nxt : Next) (r : Routine) (d : ℕ) (out : List UInt8)
    (x : Ctx) : (nxt.ended r d out x).nochangePre = x.nochangePre := by
  obtain ⟨p, q, he⟩ := nxt.ended_eq r d out x
  rw [he]

/-- An update of `pre_char` takes the newest byte written. -/
theorem Next.ended_pre (nxt : Next) (r : Routine) (d : ℕ) (out : List UInt8) (y : Ctx) :
    (nxt.ended r d out y).preChar = y.preChar ∨ (nxt.ended r d out y).preChar = out.headD 0 := by
  unfold Next.ended
  split
  · exact .inl rfl
  · unfold Ctx.refreshed
    split
    · split
      · exact .inl rfl
      · exact .inr rfl
    · exact .inl rfl

theorem Next.ended_refreshed {r : Routine} {d : ℕ} {y : Ctx} (hr : r.refreshes = true)
    (hy : y.nochangePre = false) (hd : d ≠ 0) (out : List UInt8) :
    (Next.again.ended r d out y).preChar = out.headD 0 := by
  simp [Next.ended, Ctx.refreshed, hr, hy, hd]

theorem Ctx.refreshed_preChar {d : ℕ} {out : List UInt8} {x : Ctx} (hx : x.nochangePre = false)
    (hd : d ≤ out.length) : d = 0 ∧ x.refreshed d out = x ∨
      out.head? = some (x.refreshed d out).preChar := by
  unfold Ctx.refreshed
  rcases Nat.eq_zero_or_pos d with rfl | hpos
  · simp
  · refine .inr ?_
    rw [if_neg (by simp [hx]; omega)]
    rcases out with _ | ⟨a, out⟩
    · simp only [List.length_nil] at hd
      omega
    · rfl

theorem Next.ended_preChar (nxt : Next) (r : Routine) {d : ℕ} {out : List UInt8} (x : Ctx)
    (hd : d ≤ out.length) : (nxt.ended r d out x).preChar = x.preChar ∨
      out.head? = some (nxt.ended r d out x).preChar := by
  unfold Next.ended
  split
  · exact .inl rfl
  · split
    · by_cases hx : x.nochangePre = true
      · rw [Ctx.refreshed, if_pos (.inl hx)]
        exact .inl rfl
      · rcases Ctx.refreshed_preChar (by simpa using hx) hd with ⟨-, he⟩ | hhead
        · rw [he]
          exact .inl rfl
        · exact .inr hhead
    · exact .inl rfl

theorem Conf.Traced.refreshPre_ctx {older : List UInt8} {c : Conf Stream} (h : c.Traced older) :
    c.refreshPre.ctx = c.ctx.refreshed c.buf.out.length (emitted c.settled) := by
  have hd : Buffer.dstlen c.buf = c.buf.out.length := rfl
  have h1 : Buffer.wposBack c.buf 1 = c.buf.out.getD 0 0 := rfl
  have h2 : Buffer.wposBack c.buf 2 = c.buf.out.getD 1 0 := rfl
  unfold Conf.refreshPre Ctx.refreshed
  rw [hd, h1, h2, h.out]
  by_cases hn : c.ctx.nochangePre = true
  · rw [if_pos hn, if_pos (.inl hn)]
  · rw [if_neg hn]
    rcases c.buf.out with _ | ⟨a, _ | ⟨b, out⟩⟩ <;> simp [hn]

theorem Conf.Traced.finish_ctx {older : List UInt8} {c : Conf Stream} (h : c.Traced older)
    (r : Routine) : (r.finish c).ctx =
      if r.refreshes then c.ctx.refreshed c.buf.out.length (emitted c.settled) else c.ctx := by
  unfold Routine.finish
  split
  · exact h.refreshPre_ctx
  · rfl

theorem Conf.Traced.of_ends {older : List UInt8} (nxt : Next) {r : Routine} {c : Conf Stream}
    (h : (nxt.ends r c).Traced older) : c.Traced older := by
  obtain ⟨p, q, he⟩ := nxt.ends_eq r c
  rw [he] at h
  exact ⟨h.held, h.out⟩

theorem Conf.Traced.ends_ctx {older : List UInt8} {nxt : Next} {r : Routine} {c : Conf Stream}
    (h : (nxt.ends r c).Traced older) :
    (nxt.ends r c).ctx = nxt.ended r c.buf.out.length (emitted c.settled) c.ctx := by
  have hc := h.of_ends nxt
  cases nxt with
  | call r' => rfl
  | again => exact hc.finish_ctx r
  | leave => exact hc.finish_ctx r

/-- A property of views that holds of every response: it holds at the start, and each thing
that can happen keeps it. -/
structure TraceInv (M : Machine) (P : View → Prop) : Prop where
  start : P ⟨[], [], [], 0, M.top, Ctx.zero⟩
  next : ∀ {v : View} (buf : List UInt8), v.Sound M → P v → v.r = M.top →
    P ⟨v.input ++ buf, .buffer :: v.trace, v.pending ++ buf, 0, M.top, v.ctx.hold []⟩
  turn : ∀ {v : View} {es : List Ev} {y : Ctx} {nxt : Next} {k k' : List Routine} {r' : Routine}
    {d : ℕ} {tr : List Item}, v.Sound M → P v → v.ctx.cache = [] → y.cache = [] →
    M.rule v.dstlen v.ctx v.r v.pending es y nxt → nxt.Goes v.r k r' k' → M.callers v.r k →
    d = v.dstlen + (emitted (Ev.items v.ctx es v.pending)).length →
    tr = (Ev.items v.ctx es v.pending).reverse ++ .turn v.r v.ctx v.pending v.dstlen :: v.trace →
    P ⟨v.input, tr, v.pending.drop (Ev.takes es), d, r', nxt.ended r' d (emitted tr) y⟩
  hold : ∀ {v : View} {y : Ctx} (a : List UInt8), v.Sound M → P v → v.ctx.cache = [] →
    M.rule v.dstlen v.ctx v.r v.pending (Ev.holds a v.pending) y .again →
    v.ctx.Held v.pending y → P ⟨v.input, .cacheCall a 0 v.pending ::
      .turn v.r v.ctx v.pending v.dstlen :: v.trace, v.pending, v.dstlen, v.r,
      Next.again.ended v.r v.dstlen (emitted v.trace) y⟩
  done : ∀ {v : View} {k : List Routine} {r' : Routine}, v.Sound M → P v → M.callers v.r (r' :: k) →
    P { v with r := r', ctx := Next.again.ended r' v.dstlen (emitted v.trace) v.ctx }

namespace TraceInv
variable {M : Machine} {P : View → Prop} (I : TraceInv M P)
include I

theorem step {bufs : List (List UInt8)} {p q : At} {older : List UInt8} (hgood : M.Good p)
    (hsound : (p.view bufs).Sound M) (htraced : q.conf.Traced older) (hs : Step M.rule p q)
    (h : P (p.view bufs)) : P (q.view bufs) := by
  cases hs with
  | @turn r k c es y nxt r' k' hne hrule hgo =>
    have hc := (M.idle hgood.fit).resolve_right hne
    have hpending : c.pending = c.buf.rest := by rw [Conf.pending, hc, List.nil_append]
    have hview : (At.view bufs ⟨r, k, c⟩).pending = c.buf.rest := hpending
    obtain ⟨hset, hpen, hbuf, -, -⟩ := nxt.ends_view r' (c.turned r es y)
    unfold At.view
    simp only [hset, hpen, hbuf, htraced.ends_ctx]
    cases M.turned hrule hc with
    | plain hy hs' hp' =>
      have hrule' : M.rule c.buf.out.length c.ctx r (At.view bufs ⟨r, k, c⟩).pending es y nxt := by
        rw [hview]
        exact hrule
      have hlen : (c.turned r es y).buf.out.length =
          c.buf.out.length + (emitted (Ev.items c.ctx es c.buf.rest)).length := by
        rw [Conf.turned, List.length_append, emitted_reverse, List.length_reverse, Nat.add_comm]
      have hturn := I.turn hsound h hc hy hrule' hgo hgood.callers rfl rfl
      rw [hview] at hturn
      rw [hs', hp', hlen, hpending]
      exact hturn
    | held a hes hn hy hs' hp' =>
      subst hes hn
      have hheld : c.ctx.Held (At.view bufs ⟨r, k, c⟩).pending y := by
        rw [hview]
        exact hy
      have hrule' : M.rule c.buf.out.length c.ctx r (At.view bufs ⟨r, k, c⟩).pending
          (Ev.holds a (At.view bufs ⟨r, k, c⟩).pending) y .again := by
        rw [hview]
        exact hrule
      have hhold := I.hold a hsound h hc hrule' hheld
      have hlen : (c.turned r (Ev.holds a c.buf.rest) y).buf.out.length = c.buf.out.length := by
        simp [Conf.turned]
      rw [hview] at hhold
      rw [hs', hp', hlen, hpending]
      cases hgo
      exact hhold
  | @done r r' k c hnil =>
    obtain ⟨hset, hpen, hbuf, -, -⟩ := Next.ends_view .again r' c
    have hctx : (Next.again.ends r' c).ctx = _ := Conf.Traced.ends_ctx htraced
    simp only [Next.ends] at hset hpen hbuf hctx
    unfold At.view
    simp only [hset, hpen, hbuf, hctx]
    exact I.done hsound h hgood.callers

/-- The property holds of everything that can be reached. -/
theorem reach {bufs : List (List UInt8)} {p : At} (h : Reach M bufs p) : P (p.view bufs) := by
  induction h with
  | start => exact I.start
  | @next bufs c buf h hnil ih =>
    have hnext := I.next buf h.sound ih rfl
    have hpending : c.pending = c.ctx.cache := by rw [Conf.pending, hnil, List.append_nil]
    simp only [At.view, hpending] at hnext ⊢
    rw [List.flatten_append, List.flatten_singleton]
    exact hnext
  | @step bufs p q h hs ih =>
    obtain ⟨older, htraced⟩ := (h.step hs).traced
    exact I.step h.good h.sound htraced hs ih

theorem path {bufs : List (List UInt8)} {p q : At} {older : List UInt8} (hgood : M.Good p)
    (htraced : p.conf.Traced older)
    (hsplit : (consumed p.conf.settled).reverse ++ p.conf.pending = bufs.flatten)
    (hpath : ReflTransGen (Step M.rule) p q) (h : P (p.view bufs)) : P (q.view bufs) := by
  induction hpath using ReflTransGen.head_induction_on with
  | refl => exact h
  | @head p m hs _ ih =>
    have htraced' := htraced.step hgood hs
    refine ih (M.good_step hgood hs) htraced' ((split_step hgood hs).trans hsplit) ?_
    exact I.step hgood (p.sound hgood htraced hsplit) htraced' hs h

end TraceInv

section Sessions
variable (type : FileType)

/-- A buffer read after others is read to its end, and what it leaves can be reached. -/
theorem feed_reach {bufs : List (List UInt8)} {c : Conf Stream}
    (h : Reach (machine type) bufs ⟨(machine type).top, [], c⟩) (hnil : c.buf.rest = [])
    (buf : List UInt8) : ∃ t, Reach (machine type) (bufs ++ [buf]) ⟨(machine type).top, [], t⟩ ∧
      t.buf.rest = [] ∧ (stripBuffer none (stripFuel (c.ctx.cache.length + buf.length)) type).run
        (c.session.handOver Stream buf) = .ok ((), t) ∧
      c.session.takeBack Stream t = t.session := by
  have hnext := h.next buf hnil
  have hrest : (c.session.handOver Stream buf).buf.rest.length ≤ c.ctx.cache.length + buf.length := by
    rw [handOver_stream, List.length_append]
    exact Nat.le_refl _
  have hgood := hnext.good
  obtain ⟨t, hrun, ht, hpath⟩ :=
    stripBuffer_follows type hgood ((machine type).measure_lt hgood.callers hrest)
  have hout := ((c.handOver_traced buf).path hgood hpath).out
  refine ⟨t, hnext.path hpath, ht, hrun, ?_⟩
  have hsession : emitted t.settled = t.buf.out ++ emitted c.settled := hout
  have hconcat : (emitted t.settled).reverse = (emitted c.settled).reverse ++ t.buf.out.reverse := by
    rw [hsession, List.reverse_append]
  rw [Conf.session, Conf.session, hconcat]
  rfl

theorem feed_session {bufs : List (List UInt8)} {c : Conf Stream}
    (h : Reach (machine type) bufs ⟨(machine type).top, [], c⟩) (hnil : c.buf.rest = [])
    (buf : List UInt8) : ∃ t, Reach (machine type) (bufs ++ [buf]) ⟨(machine type).top, [], t⟩ ∧
      t.buf.rest = [] ∧ feed Stream none type c.session buf = .ok t.session := by
  obtain ⟨t, ht, htnil, hfeed, hback⟩ := feed_reach type h hnil buf
  refine ⟨t, ht, htnil, ?_⟩
  have hlen : c.session.ctx.cache.length = c.ctx.cache.length := rfl
  rw [feed, hlen, hfeed, ← hback]
  rfl

/-- Every sequence of buffers is read to its end. -/
theorem feedAll_reach (bufs : List (List UInt8)) : ∃ c,
    Reach (machine type) bufs ⟨(machine type).top, [], c⟩ ∧ c.buf.rest = [] ∧
      feedAll Stream none type .start bufs = .ok c.session := by
  induction bufs using List.reverseRecOn with
  | nil => exact ⟨_, .start, rfl, rfl⟩
  | append_singleton bufs buf ih =>
    obtain ⟨c, hreach, hnil, hrun⟩ := ih
    obtain ⟨t, ht, htnil, hfeed⟩ := feed_session type hreach hnil buf
    refine ⟨t, ht, htnil, ?_⟩
    rw [feedAll_concat, hrun, except_ok_bind, hfeed]

end Sessions

end NginB.Minify
