import Mathlib.Data.List.Induction
import NginB.Minify.Delivery
import NginB.Minify.Safety

/-! # Special buffers

A special buffer brings no bytes. Where nothing is held back when it comes, the response goes on
as it would without it; bytes that are held back then are lost.
-/
namespace NginB.Minify
open NginB.Program

namespace Visit

def ctx : Visit → Ctx
  | .read x _ _ _ => x
  | .failed x _ _ => x

/-- The buffer has its content in memory, and is not special. -/
def inMemory : Visit → Bool
  | .read _ m _ _ => m
  | .failed _ m _ => m

/-- A special buffer comes when nothing is held back. -/
def Kept (v : Visit) : Prop := v.inMemory = false → v.ctx.cache = []

end Visit

def Call.withoutSpecials (c : Call) : Call := { c with links := c.links.filter NgxBuf.inMemory }

def firstLinks : ℕ → List Call → List Call
  | _, [] => []
  | n, c :: calls => { c with links := c.links.take n } :: firstLinks (n - c.links.length) calls

/-- A response comes to the bytes and the context that it comes to without special buffers. -/
def Neutral (cap : Option ℕ) (palloc : ℕ → Bool) (r : Request) (calls : List Call) : Prop :=
  ∀ f out, respond cap palloc r .start calls = .ok (f, out) →
    ∃ g out', respond cap palloc r .start (calls.map Call.withoutSpecials) = .ok (g, out') ∧
      out'.flatMap Call.bytes = out.flatMap Call.bytes ∧ g.ctx = f.ctx

section Untraced
variable {cap : Option ℕ} {type : FileType}

/-- What arrives is read by its bytes and the context alone. -/
theorem read_untraced {s s' t : Session} (hctx : s.ctx = s'.ctx) {a b : Arrival}
    (h : s.read cap type a = .ok (t, b)) :
    ∃ t', s'.read cap type a = .ok (t', b) ∧ t.ctx = t'.ctx := by
  cases a with
  | special =>
    cases h
    exact ⟨_, rfl, by simp only [hctx]⟩
  | data ro l =>
    rw [Session.read, feed_stripList] at h ⊢
    rw [← hctx]
    rcases hrun : stripList cap (stripFuel (s.ctx.cache ++ l).length) type (s.ctx.hold [])
        (.buffer :: s.trace) (s.ctx.cache ++ l) with e | ⟨⟨⟩, c⟩
    · rw [hrun] at h
      cases h
    · obtain ⟨c', hrun', hc⟩ := stripList_untraced hrun (.buffer :: s'.trace)
      rw [hrun] at h
      rw [hrun']
      cases h
      refine ⟨s'.takeBack Stream c', ?_, hc.ctx⟩
      have hout : ∀ (u : Session) (k : Conf Stream),
          (u.takeBack Stream k).out.drop u.out.length = k.buf.out.reverse := fun _ _ => List.drop_left
      simp only [Except.map, except_ok_bind, except_pure, hout, hc.buf]

end Untraced

section Deliveries
variable {cap : Option ℕ} {palloc : ℕ → Bool} {type : FileType} {s s' t : Stage} {a : Arrival}
  {as out : List Arrival}

/-- What the loop does with the first of a list of arrivals. -/
theorem deliver_cons (h : deliver cap palloc type s (a :: as) = .ok (t, out)) :
    (s.session.ctx.cache ≠ [] ∧ palloc s.pallocs = false ∧ out = a :: as ∧
      t = ⟨s.session, s.pallocs + 1,
        .failed s.session.ctx a.inMemory ((a :: as).flatMap Arrival.bytes) :: s.visits⟩) ∨
    ((s.session.ctx.cache = [] ∨ palloc s.pallocs = true) ∧ ∃ u b out', out = b :: out' ∧
      s.session.read cap type a = .ok (u, b) ∧
      deliver cap palloc type ⟨u, if s.session.ctx.cache = [] then s.pallocs else s.pallocs + 1,
        .read s.session.ctx a.inMemory a.readOnly u.trace :: s.visits⟩ as = .ok (t, out')) := by
  rw [deliver] at h
  split at h
  · next hfail =>
    cases h
    exact .inl ⟨hfail.1, hfail.2, rfl, rfl⟩
  · next hfail =>
    rw [not_and_or, not_not, Bool.not_eq_false] at hfail
    refine .inr ⟨hfail, ?_⟩
    rcases hread : s.session.read cap type a with e | ⟨u, b⟩
    · rw [hread] at h
      cases h
    · rw [hread] at h
      simp only [except_ok_bind] at h
      rcases hrest : deliver cap palloc type
          ⟨u, if s.session.ctx.cache = [] then s.pallocs else s.pallocs + 1,
            .read s.session.ctx a.inMemory a.readOnly u.trace :: s.visits⟩ as with e | ⟨t', out'⟩
      · rw [hrest] at h
        cases h
      · rw [hrest] at h
        cases h
        exact ⟨u, b, out', rfl, rfl, hrest⟩

theorem deliver_visits (h : deliver cap palloc type s as = .ok (t, out)) : s.visits <:+ t.visits := by
  induction as generalizing s out with
  | nil =>
    cases h
    exact List.suffix_refl _
  | cons a as ih =>
    rcases deliver_cons h with ⟨-, -, -, rfl⟩ | ⟨-, u, b, out', -, -, hrest⟩
    · exact List.suffix_cons _ _
    · exact (List.suffix_cons _ _).trans (ih hrest)

theorem bytes_inMemory (as : List Arrival) :
    (as.filter Arrival.inMemory).flatMap Arrival.bytes = as.flatMap Arrival.bytes := by
  induction as with
  | nil => rfl
  | cons a as ih =>
    cases a with
    | data ro l => rw [List.filter_cons_of_pos rfl, List.flatMap_cons, ih, List.flatMap_cons]
    | special => exact ih

structure Stage.Alike (s t : Stage) : Prop where
  ctx : s.session.ctx = t.session.ctx
  pallocs : s.pallocs = t.pallocs

/-- A special buffer that comes when nothing is held back leaves the stage as it is. -/
theorem Stage.Alike.special {u : Session} {b : Arrival} {n : ℕ} {v : List Visit} (h : s.Alike s')
    (hc : s.session.ctx.cache = []) (hread : s.session.read cap type .special = .ok (u, b)) :
    Stage.Alike ⟨u, if s.session.ctx.cache = [] then s.pallocs else n, v⟩ s' ∧ b = .special := by
  cases hread
  refine ⟨⟨?_, ?_⟩, rfl⟩
  · exact (Ctx.hold_nil hc).trans h.ctx
  · rw [if_pos hc]
    exact h.pallocs

/-- Special buffers that come when nothing is held back make no difference. -/
theorem deliver_neutral (h : deliver cap palloc type s as = .ok (t, out)) (hs : s.Alike s')
    (hv : ∀ v ∈ t.visits, v.Kept) : ∃ t' out',
    deliver cap palloc type s' (as.filter Arrival.inMemory) = .ok (t', out') ∧
      t.Alike t' ∧ out'.flatMap Arrival.bytes = out.flatMap Arrival.bytes := by
  induction as generalizing s s' out with
  | nil =>
    cases h
    exact ⟨s', [], rfl, hs, rfl⟩
  | cons a as ih =>
    rcases deliver_cons h with ⟨hc, hp, rfl, rfl⟩ | ⟨hp, u, b, out', rfl, hread, hrest⟩
    · -- the loop is left: the bytes of special buffers are none
      have hkept := hv _ List.mem_cons_self
      have hmem : a.inMemory = true := by
        by_contra hmem
        exact hc (hkept (Bool.eq_false_iff.mpr hmem))
      rw [List.filter_cons_of_pos hmem, deliver, ← hs.ctx, ← hs.pallocs, if_pos ⟨hc, hp⟩]
      refine ⟨_, _, rfl, ⟨hs.ctx, rfl⟩, ?_⟩
      rw [← List.filter_cons_of_pos hmem]
      exact bytes_inMemory (a :: as)
    · cases a with
      | special =>
        have hc : s.session.ctx.cache = [] :=
          hv _ ((deliver_visits hrest).subset List.mem_cons_self) rfl
        obtain ⟨hs', rfl⟩ := hs.special hc hread
        obtain ⟨t', out'', ht, halike, hbytes⟩ := ih hrest hs'
        exact ⟨t', out'', ht, halike, hbytes⟩
      | data ro l =>
        obtain ⟨u', hread', hu⟩ := read_untraced hs.ctx hread
        have hs' : Stage.Alike ⟨u, if s.session.ctx.cache = [] then s.pallocs else s.pallocs + 1,
            .read s.session.ctx true ro u.trace :: s.visits⟩
            ⟨u', if s'.session.ctx.cache = [] then s'.pallocs else s'.pallocs + 1,
            .read s'.session.ctx true ro u'.trace :: s'.visits⟩ := by
          constructor
          · exact hu
          · rw [← hs.ctx, ← hs.pallocs]
        obtain ⟨t', out'', ht, halike, hbytes⟩ := ih hrest hs'
        have hgo : ¬ (s'.session.ctx.cache ≠ [] ∧ palloc s'.pallocs = false) := by
          rw [← hs.ctx, ← hs.pallocs, not_and_or, not_not, Bool.not_eq_false]
          exact hp
        refine ⟨t', b :: out'', ?_, halike, by rw [List.flatMap_cons, hbytes, List.flatMap_cons]⟩
        rw [List.filter_cons_of_pos rfl, deliver, if_neg hgo, hread']
        simp only [except_ok_bind, Arrival.inMemory, Arrival.readOnly, ht]
        rfl

variable {r : Request}

theorem deliverCall_passed (hr : r.Passed) (s : Stage) (as : List Arrival) :
    deliverCall cap palloc r s as = .ok (s, as) := by
  unfold deliverCall
  rcases hr with hr | hr
  · rw [if_pos (.inr hr)]
    rfl
  · rw [hr]
    split <;> rfl

theorem deliverCall_read (hr : r.headerOnly = false) (htype : r.type = some type) (s : Stage)
    (as : List Arrival) : deliverCall cap palloc r s as = deliver cap palloc type s as := by
  unfold deliverCall
  rw [hr, htype]
  cases as <;> rfl

theorem deliverCall_visits (h : deliverCall cap palloc r s as = .ok (t, out)) :
    s.visits <:+ t.visits := by
  rcases r.passed_or with hr | ⟨type, hr, htype⟩
  · rw [deliverCall_passed hr] at h
    cases h
    exact List.suffix_refl _
  · rw [deliverCall_read hr htype] at h
    exact deliver_visits h

theorem deliverCall_neutral (h : deliverCall cap palloc r s as = .ok (t, out)) (hs : s.Alike s')
    (hv : ∀ v ∈ t.visits, v.Kept) : ∃ t' out',
    deliverCall cap palloc r s' (as.filter Arrival.inMemory) = .ok (t', out') ∧
      t.Alike t' ∧ out'.flatMap Arrival.bytes = out.flatMap Arrival.bytes := by
  rcases r.passed_or with hr | ⟨type, hr, htype⟩
  · rw [deliverCall_passed hr] at h ⊢
    cases h
    exact ⟨_, _, rfl, hs, bytes_inMemory as⟩
  · rw [deliverCall_read hr htype] at h ⊢
    exact deliver_neutral h hs hv

/-- What the filter does with the first call of a response. -/
theorem deliverAll_cons {calls outs : List (List Arrival)}
    (h : deliverAll cap palloc r s (as :: calls) = .ok (t, outs)) : ∃ u out outs',
    deliverCall cap palloc r s as = .ok (u, out) ∧ deliverAll cap palloc r u calls = .ok (t, outs') ∧
      outs = out :: outs' := by
  rw [deliverAll] at h
  rcases hcall : deliverCall cap palloc r s as with e | ⟨u, out⟩
  · rw [hcall] at h
    cases h
  · rw [hcall] at h
    simp only [except_ok_bind] at h
    rcases hrest : deliverAll cap palloc r u calls with e | ⟨t', outs'⟩
    · rw [hrest] at h
      cases h
    · rw [hrest] at h
      cases h
      exact ⟨u, out, outs', rfl, hrest, rfl⟩

theorem deliverAll_visits {calls outs : List (List Arrival)}
    (h : deliverAll cap palloc r s calls = .ok (t, outs)) : s.visits <:+ t.visits := by
  induction calls generalizing s outs with
  | nil =>
    cases h
    exact List.suffix_refl _
  | cons as calls ih =>
    obtain ⟨u, out, outs', hcall, hrest, -⟩ := deliverAll_cons h
    exact (deliverCall_visits hcall).trans (ih hrest)

theorem deliverAll_neutral {calls outs : List (List Arrival)}
    (h : deliverAll cap palloc r s calls = .ok (t, outs)) (hs : s.Alike s')
    (hv : ∀ v ∈ t.visits, v.Kept) : ∃ t' outs',
    deliverAll cap palloc r s' (calls.map (List.filter Arrival.inMemory)) = .ok (t', outs') ∧
      t.Alike t' ∧ outs'.flatten.flatMap Arrival.bytes = outs.flatten.flatMap Arrival.bytes := by
  induction calls generalizing s s' outs with
  | nil =>
    cases h
    exact ⟨s', [], rfl, hs, rfl⟩
  | cons as calls ih =>
    obtain ⟨u, out, outs', hcall, hrest, rfl⟩ := deliverAll_cons h
    have hold : ∀ v ∈ u.visits, v.Kept := fun v hmem => hv v ((deliverAll_visits hrest).subset hmem)
    obtain ⟨u', out', hcall', hu, hbytes⟩ := deliverCall_neutral hcall hs hold
    obtain ⟨t', outs'', hrest', ht, hbytes'⟩ := ih hrest hu
    refine ⟨t', out' :: outs'', ?_, ht, ?_⟩
    · rw [List.map_cons, deliverAll, hcall']
      simp only [except_ok_bind, hrest']
      rfl
    · rw [List.flatten_cons, List.flatMap_append, hbytes, hbytes', List.flatten_cons,
        List.flatMap_append]

end Deliveries

section Cut
variable {cap : Option ℕ} {palloc : ℕ → Bool} {type : FileType} {r : Request} {s t : Stage}
  {as bs out : List Arrival}

/-- While `ngx_palloc` does not fail, it does not matter how a response is cut into calls. -/
theorem deliver_append (hp : ∀ k, palloc k = true) :
    deliver cap palloc type s (as ++ bs) = (do
      let (u, out) ← deliver cap palloc type s as
      let (t, out') ← deliver cap palloc type u bs
      return (t, out ++ out')) := by
  have hgo : ∀ s : Stage, ¬ (s.session.ctx.cache ≠ [] ∧ palloc s.pallocs = false) := by
    intro s
    rw [hp]
    exact fun h => Bool.noConfusion h.2
  induction as generalizing s with
  | nil =>
    simp only [List.nil_append, deliver, except_pure, except_ok_bind]
    rcases deliver cap palloc type s bs with e | ⟨t, out⟩ <;> rfl
  | cons a as ih =>
    rw [List.cons_append, deliver, deliver, if_neg (hgo s), if_neg (hgo s)]
    rcases s.session.read cap type a with e | ⟨u, b⟩
    · rfl
    · simp only [except_ok_bind, ih]
      rcases deliver cap palloc type ⟨u, if s.session.ctx.cache = [] then s.pallocs else s.pallocs + 1,
          .read s.session.ctx a.inMemory a.readOnly u.trace :: s.visits⟩ as with e | ⟨v, out⟩
      · rfl
      · simp only [except_ok_bind, except_pure]
        rcases deliver cap palloc type v bs with e | ⟨w, out'⟩ <;> rfl

theorem deliverAll_flatten (hp : ∀ k, palloc k = true) (hr : r.headerOnly = false)
    (htype : r.type = some type) (calls : List (List Arrival)) :
    (deliverAll cap palloc r s calls).map (fun p => (p.1, p.2.flatten)) =
      deliver cap palloc type s calls.flatten := by
  induction calls generalizing s with
  | nil => rfl
  | cons as calls ih =>
    rw [List.flatten_cons, deliver_append hp, deliverAll, deliverCall_read hr htype]
    rcases deliver cap palloc type s as with e | ⟨u, out⟩
    · rfl
    · simp only [except_ok_bind, ← ih]
      rcases deliverAll cap palloc r u calls with e | ⟨t, outs⟩ <;> rfl

/-- If a response and all its beginnings come to the same context without special buffers, then
these come when nothing is held back. -/
theorem kept_of_neutral (hp : ∀ k, palloc k = true)
    (hn : ∀ l t out, l <+: as → deliver cap palloc type s l = .ok (t, out) → ∃ t' out',
      deliver cap palloc type s (l.filter Arrival.inMemory) = .ok (t', out') ∧
        t'.session.ctx = t.session.ctx)
    (h : deliver cap palloc type s as = .ok (t, out)) (hs : ∀ v ∈ s.visits, v.Kept) :
    ∀ v ∈ t.visits, v.Kept := by
  induction as using List.reverseRecOn generalizing t out with
  | nil =>
    cases h
    exact hs
  | append_singleton as a ih =>
    have hlast := hn _ t out (List.prefix_refl _) h
    have hbefore : ∀ l, l <+: as → l <+: as ++ [a] := fun l hl => hl.trans (List.prefix_append as [a])
    rw [deliver_append hp] at h
    rcases hrun : deliver cap palloc type s as with e | ⟨u, o⟩
    · rw [hrun] at h
      cases h
    · rw [hrun] at h
      simp only [except_ok_bind] at h
      rcases hone : deliver cap palloc type u [a] with e | ⟨t', o'⟩
      · rw [hone] at h
        cases h
      · rw [hone] at h
        cases h
        have hold := ih (fun l t out hl => hn l t out (hbefore l hl)) hrun
        rcases deliver_cons hone with ⟨-, hfail, -⟩ | ⟨-, w, b, rest, -, hread, hrest⟩
        · rw [hp] at hfail
          cases hfail
        · cases hrest
          refine List.forall_mem_cons.mpr ⟨?_, hold⟩
          intro hspecial
          cases a with
          | data ro l => cases hspecial
          | special =>
            cases hread
            obtain ⟨x, p, hx, hctx⟩ := hn as u o (hbefore as (List.prefix_refl as)) hrun
            obtain ⟨x', p', hx', hctx'⟩ := hlast
            have hfilter : (as ++ [Arrival.special]).filter Arrival.inMemory =
                as.filter Arrival.inMemory := by
              rw [List.filter_append]
              exact List.append_nil _
            rw [hfilter, hx] at hx'
            cases hx'
            have hnil : u.session.ctx.cache = (u.session.ctx.hold []).cache :=
              congrArg Ctx.cache (hctx.symm.trans hctx')
            exact hnil

end Cut

section Calls
variable {cap : Option ℕ} {palloc : ℕ → Bool} {r : Request} {calls : List Call} {f : Filter}
  {out : List Call}

theorem Call.withoutSpecials_arrivals (c : Call) :
    c.withoutSpecials.arrivals = c.arrivals.filter Arrival.inMemory := by
  have hkind : Arrival.inMemory ∘ NgxBuf.arrival c.mem = NgxBuf.inMemory := by
    funext b
    exact NgxBuf.arrival_inMemory c.mem b
  rw [Call.arrivals, Call.arrivals, List.filter_map, hkind]
  rfl

theorem Call.Delivered.withoutSpecials {c : Call} (h : c.Delivered) : c.withoutSpecials.Delivered where
  links b hb := h.links b (List.mem_of_mem_filter hb)
  apart := h.apart.sublist List.filter_sublist

theorem firstLinks_delivered (h : ∀ c ∈ calls, c.Delivered) (n : ℕ) :
    ∀ c ∈ firstLinks n calls, c.Delivered := by
  induction calls generalizing n with
  | nil => exact fun c hc => (List.not_mem_nil hc).elim
  | cons c calls ih =>
    obtain ⟨hc, hcalls⟩ := List.forall_mem_cons.mp h
    refine List.forall_mem_cons.mpr ⟨⟨?_, ?_⟩, ih hcalls _⟩
    · exact fun b hb => hc.links b (List.mem_of_mem_take hb)
    · exact hc.apart.sublist (List.take_sublist _ _)

theorem firstLinks_arrivals (n : ℕ) (calls : List Call) :
    ((firstLinks n calls).map Call.arrivals).flatten = (calls.map Call.arrivals).flatten.take n := by
  induction calls generalizing n with
  | nil => exact List.take_nil.symm
  | cons c calls ih =>
    have hlen : c.arrivals.length = c.links.length := List.length_map _
    rw [firstLinks, List.map_cons, List.flatten_cons, ih, List.map_cons, List.flatten_cons,
      List.take_append, hlen]
    exact congrArg (· ++ _) List.map_take

theorem Filter.shows_start : Filter.start.Shows Stage.start := ⟨rfl, rfl, rfl, rfl⟩

theorem bytes_arrivals (out : List Call) :
    (out.map Call.arrivals).flatten.flatMap Arrival.bytes = out.flatMap Call.bytes := by
  induction out with
  | nil => rfl
  | cons c out ih =>
    rw [List.map_cons, List.flatten_cons, List.flatMap_append, ih, Call.arrivals_bytes,
      List.flatMap_cons]

/-- A response that comes to an end is delivered so. -/
theorem respond_ok (hcalls : ∀ c ∈ calls, c.Delivered)
    (h : respond cap palloc r .start calls = .ok (f, out)) : ∃ t,
      deliverAll cap palloc r .start (calls.map Call.arrivals) = .ok (t, out.map Call.arrivals) ∧
        f.Shows t ∧ ∀ c ∈ out, ∀ d ∈ c.links, d.inMemory = false → d.special = true := by
  have hagree := respond_agree cap palloc r hcalls Filter.shows_start
  rcases hrun : deliverAll cap palloc r .start (calls.map Call.arrivals) with e | ⟨t, outs⟩
  · rw [hrun] at hagree
    rw [hagree] at h
    cases h
  · rw [hrun] at hagree
    obtain ⟨g, out', hg, ht, hout, hspecial⟩ := hagree
    rw [hg] at h
    cases h
    exact ⟨t, by rw [hout], ht, hspecial⟩

theorem ok_respond (hcalls : ∀ c ∈ calls, c.Delivered) {t : Stage} {outs : List (List Arrival)}
    (h : deliverAll cap palloc r .start (calls.map Call.arrivals) = .ok (t, outs)) : ∃ f out,
      respond cap palloc r .start calls = .ok (f, out) ∧ f.Shows t ∧ out.map Call.arrivals = outs := by
  have hagree := respond_agree cap palloc r hcalls Filter.shows_start
  rw [h] at hagree
  obtain ⟨f, out, hrun, hshows, hout, -⟩ := hagree
  exact ⟨f, out, hrun, hshows, hout⟩

theorem withoutSpecials_arrivals (calls : List Call) :
    (calls.map Call.withoutSpecials).map Call.arrivals =
      (calls.map Call.arrivals).map (List.filter Arrival.inMemory) := by
  rw [List.map_map, List.map_map]
  exact List.map_congr_left fun c _ => c.withoutSpecials_arrivals

theorem withoutSpecials_delivered (hcalls : ∀ c ∈ calls, c.Delivered) :
    ∀ c ∈ calls.map Call.withoutSpecials, c.Delivered := by
  intro c' hc'
  obtain ⟨c, hc, rfl⟩ := List.mem_map.mp hc'
  exact (hcalls c hc).withoutSpecials

/-- Special buffers that come when nothing is held back make no difference to a response. -/
theorem neutral_of_kept (hcalls : ∀ c ∈ calls, c.Delivered)
    (hkept : ∀ f out, respond cap palloc r .start calls = .ok (f, out) → ∀ v ∈ f.visits, v.Kept) :
    Neutral cap palloc r calls := by
  intro f out h
  obtain ⟨t, ht, hshows, -⟩ := respond_ok hcalls h
  have hv : ∀ v ∈ t.visits, v.Kept := by
    rw [← hshows.visits]
    exact hkept f out h
  obtain ⟨t', outs', ht', halike, hbytes⟩ := deliverAll_neutral ht ⟨rfl, rfl⟩ hv
  rw [← withoutSpecials_arrivals] at ht'
  obtain ⟨g, out', hg, hshows', rfl⟩ := ok_respond (withoutSpecials_delivered hcalls) ht'
  refine ⟨g, out', hg, ?_, ?_⟩
  · rw [← bytes_arrivals, hbytes, bytes_arrivals]
  · rw [hshows'.ctx, ← halike.ctx, hshows.ctx]

/-- A response of which the filter reads something, as one list of arrivals. -/
theorem respond_flatten (hcalls : ∀ c ∈ calls, c.Delivered) (hp : ∀ k, palloc k = true)
    {type : FileType} (hr : r.headerOnly = false) (htype : r.type = some type)
    (h : respond cap palloc r .start calls = .ok (f, out)) : ∃ t,
      deliver cap palloc type .start (calls.map Call.arrivals).flatten =
        .ok (t, (out.map Call.arrivals).flatten) ∧ f.Shows t := by
  obtain ⟨t, ht, hshows, -⟩ := respond_ok hcalls h
  refine ⟨t, ?_, hshows⟩
  rw [← deliverAll_flatten hp hr htype, ht]
  rfl

theorem flatten_respond (hcalls : ∀ c ∈ calls, c.Delivered) (hp : ∀ k, palloc k = true)
    {type : FileType} (hr : r.headerOnly = false) (htype : r.type = some type) {t : Stage}
    {as : List Arrival} (h : deliver cap palloc type .start (calls.map Call.arrivals).flatten = .ok (t, as)) :
    ∃ f out, respond cap palloc r .start calls = .ok (f, out) ∧ f.Shows t := by
  rw [← deliverAll_flatten hp hr htype] at h
  rcases hrun : deliverAll cap palloc r .start (calls.map Call.arrivals) with e | ⟨t', outs⟩
  · rw [hrun] at h
    cases h
  · rw [hrun] at h
    cases h
    obtain ⟨f, out, hf, hshows, -⟩ := ok_respond hcalls hrun
    exact ⟨f, out, hf, hshows⟩

/-- A response comes to the same bytes and the same context as without its special buffers if each
of them comes when nothing is held back. Where `ngx_palloc` does not fail and that holds of the
beginnings of the response as well, each of them does come so. -/
theorem special_neutral (hcalls : ∀ c ∈ calls, c.Delivered)
    (h : respond cap palloc r .start calls = .ok (f, out)) :
    ((∀ v ∈ f.visits, v.Kept) → Neutral cap palloc r calls) ∧
      ((∀ k, palloc k = true) →
        ((∀ n, Neutral cap palloc r (firstLinks n calls)) ↔ ∀ v ∈ f.visits, v.Kept)) := by
  have hone : (∀ v ∈ f.visits, v.Kept) → Neutral cap palloc r calls := by
    intro hv
    refine neutral_of_kept hcalls fun g out' hg => ?_
    rw [h] at hg
    cases hg
    exact hv
  refine ⟨hone, fun hp => ?_⟩
  rcases r.passed_or with hr | ⟨type, hr, htype⟩
  · have hnone : ∀ n g out', respond cap palloc r .start (firstLinks n calls) = .ok (g, out') →
        g.visits = [] := fun n g out' hg => (respond_passed hr hg).1
    refine iff_of_true (fun n => ?_) ?_
    · refine neutral_of_kept (firstLinks_delivered hcalls n) fun g out' hg v hmem => ?_
      rw [hnone n g out' hg] at hmem
      exact (List.not_mem_nil hmem).elim
    · rw [(respond_passed hr h).1]
      exact fun v hmem => (List.not_mem_nil hmem).elim
  · obtain ⟨t, ht, hshows⟩ := respond_flatten hcalls hp hr htype h
    rw [hshows.visits]
    constructor
    · intro hn
      refine kept_of_neutral hp (fun l u o hl hu => ?_) ht fun v hmem => (List.not_mem_nil hmem).elim
      have htake : ((firstLinks l.length calls).map Call.arrivals).flatten = l := by
        rw [firstLinks_arrivals, List.prefix_iff_eq_take.mp hl, List.length_take,
          Nat.min_eq_left hl.length_le]
      rw [← htake] at hu
      obtain ⟨g, o', hg, hgu⟩ := flatten_respond (firstLinks_delivered hcalls _) hp hr htype hu
      obtain ⟨g', o'', hg', -, hctx⟩ := hn l.length g o' hg
      obtain ⟨t', ht', hshows'⟩ := respond_flatten
        (withoutSpecials_delivered (firstLinks_delivered hcalls _)) hp hr htype hg'
      rw [withoutSpecials_arrivals, ← List.filter_flatten, htake] at ht'
      exact ⟨t', _, ht', by rw [← hshows'.ctx, hctx, hgu.ctx]⟩
    · intro hv n
      refine neutral_of_kept (firstLinks_delivered hcalls n) fun g o hg => ?_
      obtain ⟨u, hu, hgu⟩ := respond_flatten (firstLinks_delivered hcalls n) hp hr htype hg
      rw [firstLinks_arrivals] at hu
      rw [← List.take_append_drop n (calls.map Call.arrivals).flatten, deliver_append hp, hu] at ht
      simp only [except_ok_bind] at ht
      rcases hrest : deliver cap palloc type u ((calls.map Call.arrivals).flatten.drop n) with e | ⟨w, o'⟩
      · rw [hrest] at ht
        cases ht
      · rw [hrest] at ht
        obtain ⟨rfl, -⟩ := Prod.mk.inj (Except.ok.inj ht)
        rw [hgu.visits]
        exact fun v hmem => hv v ((deliver_visits hrest).subset hmem)

end Calls

/-- A buffer with `n` bytes of content, alone in its region. -/
def dataBuf (readOnly : Bool) (n : ℕ) : NgxBuf :=
  ⟨0, 0, 0, n, n, 0, 0, !readOnly, readOnly, false, false, false, false, false⟩

def flushBuf : NgxBuf := ⟨0, 0, 0, 0, 0, 0, 0, false, false, false, false, true, false, false⟩

def dataCall (readOnly : Bool) (l : List UInt8) : Call :=
  ⟨fun _ a => l.getD a 0, 1, [dataBuf readOnly l.length]⟩

def flushCall : Call := ⟨fun _ _ => 0, 1, [flushBuf]⟩

section Calls
variable {cap : Option ℕ} {palloc : ℕ → Bool} {r : Request} {calls : List Call}

theorem dataBuf_inMemory (readOnly : Bool) (n : ℕ) : (dataBuf readOnly n).inMemory = true := by
  cases readOnly <;> rfl

theorem dataCall_delivered (readOnly : Bool) (l : List UInt8) : (dataCall readOnly l).Delivered where
  links := by
    refine List.forall_mem_singleton.mpr ⟨fun _ => Nat.zero_le _, fun _ => Nat.zero_lt_one, fun hm => ?_⟩
    rw [dataBuf_inMemory] at hm
    cases hm
  apart := List.pairwise_singleton _ _

theorem flushCall_delivered : flushCall.Delivered where
  links := List.forall_mem_singleton.mpr ⟨nofun, nofun, fun _ => ⟨rfl, rfl⟩⟩
  apart := List.pairwise_singleton _ _

@[simp] theorem dataCall_arrivals (readOnly : Bool) (l : List UInt8) :
    (dataCall readOnly l).arrivals = [.data readOnly l] := by
  have hkind : (dataBuf readOnly l.length).readOnly = readOnly := by cases readOnly <;> rfl
  have hcontent : NgxBuf.content (dataCall readOnly l).mem (dataBuf readOnly l.length) = l := by
    rw [NgxBuf.content, if_pos (dataBuf_inMemory _ _)]
    exact region_load l
  change [NgxBuf.arrival (dataCall readOnly l).mem (dataBuf readOnly l.length)] = _
  rw [NgxBuf.arrival, if_pos (dataBuf_inMemory _ _), hcontent, hkind]

@[simp] theorem flushCall_arrivals : flushCall.arrivals = [.special] := rfl

theorem exists_respond (hcalls : ∀ c ∈ calls, c.Delivered)
    (h : (deliverAll cap palloc r .start (calls.map Call.arrivals)).isOk = true) :
    ∃ f out, respond cap palloc r .start calls = .ok (f, out) := by
  rcases hrun : deliverAll cap palloc r .start (calls.map Call.arrivals) with e | ⟨t, outs⟩
  · rw [hrun] at h
    cases h
  · obtain ⟨f, out, hf, -⟩ := ok_respond hcalls hrun
    exact ⟨f, out, hf⟩

theorem respond_bytes {f : Filter} {out : List Call} (hcalls : ∀ c ∈ calls, c.Delivered)
    (h : respond cap palloc r .start calls = .ok (f, out)) :
    (deliverAll cap palloc r .start (calls.map Call.arrivals)).map
      (fun p => p.2.flatten.flatMap Arrival.bytes) = .ok (out.flatMap Call.bytes) := by
  obtain ⟨t, ht, -⟩ := respond_ok hcalls h
  rw [ht, ← bytes_arrivals]
  rfl

end Calls

/-- The page `a` with a flush behind it. -/
theorem special_neutral_a : ∃ f out,
    respond none (fun _ => true) ⟨false, some .html⟩ .start [dataCall false (lit "a"), flushCall] =
      .ok (f, out) ∧
    ((∀ v ∈ f.visits, v.Kept) →
      Neutral none (fun _ => true) ⟨false, some .html⟩ [dataCall false (lit "a"), flushCall]) ∧
    ((∀ k, (fun _ : ℕ => true) k = true) →
      ((∀ n, Neutral none (fun _ => true) ⟨false, some .html⟩
        (firstLinks n [dataCall false (lit "a"), flushCall])) ↔ ∀ v ∈ f.visits, v.Kept)) := by
  have hcalls : ∀ c ∈ [dataCall false (lit "a"), flushCall], c.Delivered := by
    simp [dataCall_delivered, flushCall_delivered]
  obtain ⟨f, out, hf⟩ : ∃ f out, respond none (fun _ => true) ⟨false, some .html⟩ .start
      [dataCall false (lit "a"), flushCall] = .ok (f, out) := by
    refine exists_respond hcalls ?_
    simp only [List.map_cons, List.map_nil, dataCall_arrivals, flushCall_arrivals]
    decide +kernel
  exact ⟨f, out, hf, special_neutral hcalls hf⟩

/-- A flush between the `<` and the `b>` of the page `<b>` costs the `<`. -/
theorem special_not_neutral : ¬ ∀ (cap : Option ℕ) (palloc : ℕ → Bool) (r : Request)
    (calls : List Call), (∀ c ∈ calls, c.Delivered) → Neutral cap palloc r calls := by
  intro hall
  have hpage : ∀ c ∈ [dataCall false (lit "<"), flushCall, dataCall false (lit "b>")], c.Delivered := by
    simp [dataCall_delivered, flushCall_delivered]
  obtain ⟨f, out, hf⟩ : ∃ f out, respond none (fun _ => true) ⟨false, some .html⟩ .start
      [dataCall false (lit "<"), flushCall, dataCall false (lit "b>")] = .ok (f, out) := by
    refine exists_respond hpage ?_
    simp only [List.map_cons, List.map_nil, dataCall_arrivals, flushCall_arrivals]
    decide +kernel
  obtain ⟨g, out', hg, hbytes, -⟩ := hall none _ _ _ hpage f out hf
  have hwith := respond_bytes hpage hf
  have hwithout := respond_bytes (withoutSpecials_delivered hpage) hg
  rw [withoutSpecials_arrivals, hbytes] at hwithout
  rw [← hwith] at hwithout
  simp only [List.map_cons, List.map_nil, dataCall_arrivals, flushCall_arrivals] at hwithout
  revert hwithout
  decide +kernel

end NginB.Minify
