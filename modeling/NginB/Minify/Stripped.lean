import NginB.Minify.Acts
import NginB.Minify.Delivery

/-! # One buffer

A minifier can go on in a context that resumes, whatever is read next. The buffer that it reads
leaves such a context, and the newest part of the trace tells what has become of its bytes.
-/
namespace NginB.Minify
open NginB.Program Relation

/-- A context in which the next buffer can be read. -/
def Ctx.Resumes (type : FileType) (x : Ctx) : Prop := (machine type).Fit (machine type).top x []

def leadStates : List MinifyState := [.htmlTagBang, .htmlComment]

theorem Ctx.resumes_zero (type : FileType) : Ctx.zero.Resumes type := (machine type).start []

/-- A context resumes when the bytes held back are lost in a state that does not rely on them. -/
theorem Ctx.Resumes.lose {type : FileType} {x : Ctx} (h : x.Resumes type)
    (hl : x.cache = [] ∨ x.state.top ∉ leadStates) : (x.hold []).Resumes type := by
  rcases hl with hc | hst
  · rw [Ctx.hold_nil hc]
    exact h
  · cases type with
    | html =>
      have hfit : HtmlFit _ x [] := h
      refine ⟨hfit.stack, hfit.top, .inl rfl, ?_⟩
      unfold HtmlLead
      split
      · next hs => exact absurd (by rw [Ctx.hold] at hs; rw [hs]; decide) hst
      · next hs => exact absurd (by rw [Ctx.hold] at hs; rw [hs]; decide) hst
      · trivial
    | css =>
      have hfit : CssFit _ x [] := h
      exact ⟨hfit.stack, .inl rfl⟩
    | js =>
      have hfit : JsFit _ x [] := h
      exact ⟨hfit.stack, .inl rfl⟩

/-- The trace has grown since `old` without another buffer. -/
def Conf.Since (old : List Item) (c : Conf Stream) : Prop :=
  ∃ l, .buffer ∉ l ∧ c.settled = l ++ .buffer :: old

section Steps
variable {M : Machine} {p q : At} {old : List Item}

theorem Conf.Since.step (h : p.conf.Since old) (hgood : M.Good p) (hs : Step M.rule p q) :
    q.conf.Since old := by
  obtain ⟨l, hl, hset⟩ := h
  cases hs with
  | @turn r k c es x nxt r' k' hne hrule hgo =>
    obtain ⟨hends, -⟩ := nxt.ends_view r' (c.turned r es x)
    have hc := (M.idle hgood.fit).resolve_right hne
    have hset' : c.settled = l ++ .buffer :: old := hset
    unfold Conf.Since
    simp only [hends]
    cases M.turned hrule hc with
    | plain hy hs' hp' =>
      refine ⟨(Ev.items c.ctx es c.buf.rest).reverse ++ .turn r c.ctx c.buf.rest c.buf.out.length :: l, ?_, ?_⟩
      · have hitems := Ev.buffer_notMem_items c.ctx es c.buf.rest
        simp [hitems, hl]
      · rw [hs', hset', List.append_assoc]
        rfl
    | held a hes hn hy hs' hp' =>
      refine ⟨.cacheCall a 0 c.buf.rest :: .turn r c.ctx c.buf.rest c.buf.out.length :: l, ?_, ?_⟩
      · simp [hl]
      · rw [hs', hset']
        rfl
  | @done r r' k c hnil =>
    obtain ⟨hends, -⟩ := Next.ends_view .again r' c
    simp only [Next.ends] at hends
    unfold Conf.Since
    rw [hends]
    exact ⟨l, hl, hset⟩

theorem Conf.Since.path (h : p.conf.Since old) (hgood : M.Good p)
    (hpath : ReflTransGen (Step M.rule) p q) : q.conf.Since old := by
  induction hpath with
  | refl => exact h
  | tail hpath hs ih => exact ih.step (M.ranked.good_of_path hgood hpath) hs

theorem Conf.Since.newest {c : Conf Stream} (h : c.Since old) :
    c.settled = NginB.Minify.newest c.settled ++ .buffer :: old := by
  obtain ⟨l, hl, hset⟩ := h
  have hnew : NginB.Minify.newest c.settled = l := by
    rw [hset, newest_append hl]
    exact List.append_nil l
  rw [hnew]
  exact hset

end Steps

/-- A minifier that is handed a buffer in context `x` after the trace `old`. -/
def Ctx.handed (x : Ctx) (old : List Item) (buf : List UInt8) : Conf Stream :=
  ⟨x.hold [], ⟨x.cache ++ buf, []⟩, .buffer :: old⟩

structure Stripped (type : FileType) (x : Ctx) (old : List Item) (buf : List UInt8)
    (t : Conf Stream) : Prop where
  from_fit : x.Resumes type
  rest : t.buf.rest = []
  path : ReflTransGen (Step (machine type).rule) ⟨(machine type).top, [], x.handed old buf⟩
    ⟨(machine type).top, [], t⟩

namespace Stripped
variable {type : FileType} {x : Ctx} {old : List Item} {buf : List UInt8} {t : Conf Stream}
  (h : Stripped type x old buf t)
include h

theorem good : (machine type).Good ⟨(machine type).top, [], x.handed old buf⟩ :=
  ⟨(machine type).callers_top, (machine type).resume buf h.from_fit⟩

theorem resumes : t.ctx.Resumes type := by
  have hfit := ((machine type).ranked.good_of_path h.good h.path).fit
  rw [show (At.conf ⟨(machine type).top, [], t⟩).buf.rest = [] from h.rest] at hfit
  exact hfit

theorem traced : t.Traced (NginB.Minify.emitted old) := by
  have hstart : (x.handed old buf).Traced (NginB.Minify.emitted old) := ⟨⟨.text, _, rfl⟩, rfl⟩
  exact hstart.path h.good h.path

theorem settled : t.settled = newest t.settled ++ .buffer :: old := by
  have hstart : (x.handed old buf).Since old := ⟨[], List.not_mem_nil, rfl⟩
  exact (hstart.path h.good h.path).newest

theorem emitted : NginB.Minify.emitted (newest t.settled) = t.buf.out := by
  have hout := h.traced.out
  rw [h.settled, emitted_append, emitted_cons] at hout
  exact List.append_cancel_right hout

theorem consumed : (NginB.Minify.consumed (newest t.settled)).reverse ++ t.ctx.cache = x.cache ++ buf := by
  have hsplit : ∀ {p q : At}, (machine type).Good p → ReflTransGen (Step (machine type).rule) p q →
      (NginB.Minify.consumed q.conf.settled).reverse ++ q.conf.pending =
        (NginB.Minify.consumed p.conf.settled).reverse ++ p.conf.pending := by
    intro p q hp hpath
    induction hpath with
    | refl => rfl
    | tail hpath hs ih => exact (split_step ((machine type).ranked.good_of_path hp hpath) hs).trans ih
  have hends := hsplit h.good h.path
  have hpending : t.pending = t.ctx.cache := by rw [Conf.pending, h.rest, List.append_nil]
  simp only [hpending] at hends
  rw [h.settled, consumed_append, consumed_cons, List.reverse_append, List.append_assoc] at hends
  exact List.append_cancel_left hends

theorem keeps {P : View → Prop} (I : TraceInv (machine type) P)
    (hP : P ⟨(NginB.Minify.consumed old).reverse ++ (x.cache ++ buf), .buffer :: old, x.cache ++ buf, 0,
      (machine type).top, x.hold []⟩) :
    P ⟨(NginB.Minify.consumed old).reverse ++ (x.cache ++ buf), t.settled, t.ctx.cache,
      t.buf.out.length, (machine type).top, t.ctx⟩ := by
  have hstart : (x.handed old buf).Traced (NginB.Minify.emitted old) := ⟨⟨.text, _, rfl⟩, rfl⟩
  have hpending : t.pending = t.ctx.cache := by rw [Conf.pending, h.rest, List.append_nil]
  have hsplit : (NginB.Minify.consumed old).reverse ++ (x.cache ++ buf) =
      [(NginB.Minify.consumed old).reverse ++ (x.cache ++ buf)].flatten := (List.append_nil _).symm
  have hends := I.path h.good hstart hsplit h.path
  simp only [At.view, hpending, List.flatten_singleton] at hends
  exact hends hP

end Stripped

section Strip
variable {cap : Option ℕ} {type : FileType} {x : Ctx} {old : List Item} {buf : List UInt8}
  {t : Conf Stream}

theorem stripped_of_none (old : List Item) (buf : List UInt8) (hx : x.Resumes type) : ∃ t,
    (stripBuffer none (stripFuel (x.cache ++ buf).length) type).run (x.handed old buf) = .ok ((), t) ∧
      Stripped type x old buf t := by
  have hgood : (machine type).Good ⟨(machine type).top, [], x.handed old buf⟩ :=
    ⟨(machine type).callers_top, (machine type).resume buf hx⟩
  obtain ⟨t, hrun, ht, hpath⟩ :=
    stripBuffer_follows type hgood ((machine type).measure_lt hgood.callers (Nat.le_refl _))
  exact ⟨t, hrun, hx, ht, hpath⟩

/-- A buffer that is read in a context that resumes has been read by the rules. -/
theorem stripped_of_ok (hx : x.Resumes type) (hw : Within cap old)
    (h : stripList cap (stripFuel (x.cache ++ buf).length) type (x.hold []) (.buffer :: old)
      (x.cache ++ buf) = .ok ((), t)) : Stripped type x old buf t ∧ Within cap t.settled := by
  have h' : (stripBuffer cap (stripFuel (x.cache ++ buf).length) type).run (x.handed old buf) =
      .ok ((), t) := h
  obtain ⟨u, hrun, hu⟩ := stripped_of_none old buf hx
  cases cap with
  | none =>
    rw [hrun] at h'
    cases h'
    exact ⟨hu, fun n hn => nomatch hn⟩
  | some n =>
    have hw' : WritesBelow n (.buffer :: old) := (hw n rfl).cons fun k hk => nomatch hk
    rcases stripBuffer_bounded_ok n hw' hrun with ⟨hwrites, hok⟩ | ⟨-, e, -, herr⟩
    · rw [hok] at h'
      cases h'
      refine ⟨hu, fun m hm => ?_⟩
      cases hm
      exact fun k hmem => hwrites k (List.mem_of_mem_drop hmem)
    · rw [herr] at h'
      cases h'

theorem feed_stripped {u v : Session} (hu : u.ctx.Resumes type) (hw : Within cap u.trace)
    (h : feed Stream cap type u buf = .ok v) : ∃ t : Conf Stream,
      Stripped type u.ctx u.trace buf t ∧ Within cap t.settled ∧ v = u.takeBack Stream t := by
  rw [feed_stripList] at h
  rcases hrun : stripList cap (stripFuel (u.ctx.cache ++ buf).length) type (u.ctx.hold [])
      (.buffer :: u.trace) (u.ctx.cache ++ buf) with e | ⟨⟨⟩, t⟩
  · rw [hrun] at h
    cases h
  · rw [hrun] at h
    cases h
    obtain ⟨hstripped, hwithin⟩ := stripped_of_ok hu hw hrun
    exact ⟨t, hstripped, hwithin, rfl⟩

end Strip

end NginB.Minify
