import NginB.Minify.Special
import NginB.Minify.Stripped

/-! # The loop over a chain, link by link

What the loop does with a buffer depends on the context and on the memory as they are then. While
the contexts resume, a buffer in memory is read by the rules, whatever lies in the memory and
however its buffers overlap.
-/
namespace NginB.Minify
open NginB.Program

/-- A special buffer is not read in a state that relies on bytes held back before. -/
def Visit.Resumes : Visit → Prop
  | .read x false _ _ => x.cache = [] ∨ x.state.top ∉ leadStates
  | _ => True

/-- A filter that can go on with the response. -/
structure Filter.Ready (cap : Option ℕ) (type : FileType) (f : Filter) : Prop where
  resumes : f.ctx.Resumes type
  within : Within cap f.trace

structure Rewritten (type : FileType) (f : Filter) (b : NgxBuf) (g : Filter) (d : NgxBuf)
    (t : Conf Stream) : Prop where
  stripped : Stripped type f.ctx f.trace (b.content f.mem) t
  ctx : g.ctx = t.ctx
  trace : g.trace = t.settled
  inMemory : d.inMemory = true
  size : d.size = t.buf.out.length
  mem : ∀ r, r < f.fresh → r ≠ b.region ∨ f.ctx.cache ≠ [] → g.mem r = f.mem r
  inPlace : f.ctx.cache = [] →
    Flat.region (g.mem b.region) b.pos t.buf.out.length = t.buf.out.reverse ∧
      ∀ a, a < b.pos ∨ b.pos + t.buf.out.length ≤ a → g.mem b.region a = f.mem b.region a

structure Emptied (f : Filter) (b : NgxBuf) (g : Filter) (d : NgxBuf) : Prop where
  ctx : g.ctx = f.ctx.hold []
  trace : g.trace = .buffer :: f.trace
  special : d.special = true
  inMemory : d.inMemory = false
  mem : ∀ r, r < f.fresh → g.mem r = f.mem r

section Loop
variable {cap : Option ℕ} {palloc : ℕ → Bool} {type : FileType} {f g h k : Filter} {b c d : NgxBuf}
  {links out : List NgxBuf}

theorem Filter.ready_start (cap : Option ℕ) (type : FileType) : Filter.start.Ready cap type where
  resumes := Ctx.resumes_zero type
  within _ _ _ hmem := (List.not_mem_nil hmem).elim

/-- What the loop does with the first of the links. -/
theorem loop_cons (hb : b.Delivered f.fresh)
    (hrun : bodyFilterLoop cap palloc type f (b :: links) = .ok (k, out)) :
    (f.ctx.cache ≠ [] ∧ palloc f.pallocs = false ∧ out = b :: links ∧
      k = { f with
        pallocs := f.pallocs + 1
        visits := .failed f.ctx b.inMemory ((b :: links).flatMap (NgxBuf.content f.mem)) :: f.visits }) ∨
    ∃ g c h d out', Prepended f b g c ∧ ngxMinifyProcess cap type g c = .ok (h, d) ∧
      out = { d with inFile := false } :: out' ∧
      bodyFilterLoop cap palloc type
        { h with visits := .read f.ctx b.inMemory b.readOnly h.trace :: h.visits } links =
        .ok (k, out') := by
  rw [bodyFilterLoop] at hrun
  by_cases hfail : f.ctx.cache ≠ [] ∧ palloc f.pallocs = false
  · rw [prependCache_fail hfail.1 hfail.2] at hrun
    cases hrun
    exact .inl ⟨hfail.1, hfail.2, rfl, rfl⟩
  · obtain ⟨g, c, hpre, hprep⟩ : ∃ g c, prependCache palloc f b = (g, some c) ∧ Prepended f b g c := by
      rw [not_and_or, not_not, Bool.not_eq_false] at hfail
      by_cases hc : f.ctx.cache = []
      · exact ⟨f, b, prependCache_empty hb hc⟩
      · exact prependCache_held hb hc (hfail.resolve_left hc)
    rw [hpre] at hrun
    simp only at hrun
    rcases hproc : ngxMinifyProcess cap type g c with e | ⟨h, d⟩
    · rw [hproc] at hrun
      cases hrun
    · rw [hproc] at hrun
      simp only [except_ok_bind] at hrun
      rcases hrest : bodyFilterLoop cap palloc type
          { h with visits := .read f.ctx b.inMemory b.readOnly h.trace :: h.visits } links with
        e | ⟨k', out'⟩
      · rw [hrest] at hrun
        cases hrun
      · rw [hrest] at hrun
        cases hrun
        exact .inr ⟨g, c, h, d, out', hprep, hproc, rfl, hrest⟩

theorem Prepended.rewritten (hp : Prepended f b g c) (hf : f.Ready cap type)
    (hd : b.Delivered f.fresh) (hb : b.inMemory = true)
    (hproc : ngxMinifyProcess cap type g c = .ok (h, d)) :
    h.Ready cap type ∧ h.visits = f.visits ∧ f.fresh ≤ h.fresh ∧
      ∃ t, Rewritten type f b h { d with inFile := false } t := by
  have hreads : f.reads b = f.ctx.cache ++ b.content f.mem := if_pos hb
  have hagree : ProcessAgrees cap type g c (f.reads b) _ := process_agree hp.size hp.bytes
  rw [hreads, hp.ctx, hp.trace] at hagree
  rcases hrun : stripList cap (stripFuel (f.ctx.cache ++ b.content f.mem).length) type (f.ctx.hold [])
      (.buffer :: f.trace) (f.ctx.cache ++ b.content f.mem) with e | ⟨⟨⟩, t⟩
  · rw [hrun] at hagree
    rw [show ngxMinifyProcess cap type g c = .error e from hagree] at hproc
    cases hproc
  · rw [hrun] at hagree
    obtain ⟨-, m, hm, heq⟩ := hagree
    rw [heq] at hproc
    cases hproc
    obtain ⟨hstripped, hwithin⟩ := stripped_of_ok hf.resumes hf.within hrun
    have hmem : NgxBuf.inMemory { c with last := c.pos + t.buf.out.length, inFile := false } = true :=
      hp.inMemory.trans hb
    refine ⟨⟨hstripped.resumes, hwithin⟩, hp.visits, hp.fresh, t, hstripped, rfl, rfl, hmem, ?_, ?_, ?_⟩
    · rw [NgxBuf.size, if_pos hmem]
      simp only
      omega
    · intro r hr hne
      have hregion : r ≠ c.region := by
        rcases hp.place with ⟨rfl, hcache⟩ | ⟨hnew, -⟩
        · exact hne.resolve_right (not_not.mpr hcache)
        · omega
      exact (Function.update_of_ne hregion _ _).trans (hp.mem r hr)
    · intro hcache
      rcases hp.place with ⟨rfl, -⟩ | ⟨-, -, hne⟩
      · simp only [Function.update_self]
        exact ⟨hm.bytes, fun a ha => (hm.same a ha).trans (congrFun (hp.mem _ (hd.inUse hb)) a)⟩
      · exact absurd hcache hne

/-- A special buffer has no bytes to read, and what is held back is lost. -/
theorem Prepended.emptied (hp : Prepended f b g c) (hf : f.Ready cap type)
    (hd : b.Delivered f.fresh) (hb : b.inMemory = false)
    (hl : f.ctx.cache = [] ∨ f.ctx.state.top ∉ leadStates)
    (hproc : ngxMinifyProcess cap type g c = .ok (h, d)) :
    h.Ready cap type ∧ h.visits = f.visits ∧ f.fresh ≤ h.fresh ∧
      Emptied f b h { d with inFile := false } := by
  have hreads : f.reads b = [] := by rw [Filter.reads, hb]; rfl
  have hagree : ProcessAgrees cap type g c (f.reads b) _ := process_agree hp.size hp.bytes
  rw [hreads, List.length_nil, stripList_nil, hp.ctx, hp.trace] at hagree
  obtain ⟨-, m, hm, heq⟩ := hagree
  rw [heq] at hproc
  cases hproc
  have hspecial := hp.special.trans (hd.empty hb).1
  simp only [NgxBuf.special, Bool.and_eq_true] at hspecial
  refine ⟨⟨hf.resumes.lose hl, ?_⟩, hp.visits, hp.fresh, rfl, rfl, ?_, hp.inMemory.trans hb, ?_⟩
  · intro n hn
    exact (hf.within n hn).cons fun k hk => by cases hk
  · simp only [NgxBuf.special, Bool.and_eq_true]
    exact ⟨hspecial.1, rfl⟩
  · intro r hr
    by_cases hregion : r = c.region
    · subst hregion
      rw [← hp.mem _ hr]
      refine (Function.update_self _ _ _).trans (funext fun a => hm.same a ?_)
      exact (Nat.lt_or_ge a c.pos).imp_right id
    · exact (Function.update_of_ne hregion _ _).trans (hp.mem r hr)

/-- The minifier changes neither the visits nor what is in use of the memory. -/
theorem process_same (hproc : ngxMinifyProcess cap type g c = .ok (h, d)) :
    h.visits = g.visits ∧ h.fresh = g.fresh := by
  rw [ngxMinifyProcess] at hproc
  rcases hrun : (stripBuffer cap (stripFuel c.size.toNat) type).run
      ⟨g.ctx, Flat.start (g.mem c.region) c.pos c.size c.pos, .buffer :: g.trace⟩ with e | r
  · rw [hrun] at hproc
    cases hproc
  · rw [hrun] at hproc
    cases hproc
    exact ⟨rfl, rfl⟩

theorem loop_visits (hd : ∀ b ∈ links, b.Delivered f.fresh)
    (hrun : bodyFilterLoop cap palloc type f links = .ok (k, out)) : f.visits <:+ k.visits := by
  induction links generalizing f out with
  | nil =>
    cases hrun
    exact List.suffix_refl _
  | cons b links ih =>
    obtain ⟨hb, hd⟩ := List.forall_mem_cons.mp hd
    rcases loop_cons hb hrun with ⟨-, -, -, rfl⟩ | ⟨g, c, h, d, out', hprep, hproc, -, hrest⟩
    · exact List.suffix_cons _ _
    · obtain ⟨hvisits, hfresh⟩ := process_same hproc
      have hle : f.fresh ≤ h.fresh := by
        rw [hfresh]
        exact hprep.fresh
      have hlater := ih (f := { h with visits := .read f.ctx b.inMemory b.readOnly h.trace :: h.visits })
        (fun e he => (hd e he).mono hle) hrest
      rw [← hprep.visits, ← hvisits]
      exact (List.suffix_cons _ _).trans hlater

/-- What the loop does with the first of the links while the contexts resume. -/
theorem loop_next (hd : ∀ e ∈ b :: links, e.Delivered f.fresh) (hf : f.Ready cap type)
    (hrun : bodyFilterLoop cap palloc type f (b :: links) = .ok (k, out))
    (hres : ∀ v ∈ k.visits, v.Resumes) :
    (f.ctx.cache ≠ [] ∧ palloc f.pallocs = false ∧ out = b :: links ∧
      k = { f with
        pallocs := f.pallocs + 1
        visits := .failed f.ctx b.inMemory ((b :: links).flatMap (NgxBuf.content f.mem)) :: f.visits }) ∨
    ∃ h d out', h.Ready cap type ∧ f.fresh ≤ h.fresh ∧
      (b.inMemory = true ∧ (∃ t, Rewritten type f b h d t) ∨ b.inMemory = false ∧ Emptied f b h d) ∧
      h.visits = .read f.ctx b.inMemory b.readOnly h.trace :: f.visits ∧ h.visits <:+ k.visits ∧
      out = d :: out' ∧ bodyFilterLoop cap palloc type h links = .ok (k, out') := by
  obtain ⟨hb, hd⟩ := List.forall_mem_cons.mp hd
  rcases loop_cons hb hrun with hfail | ⟨g, c, h, d, out', hprep, hproc, hout, hrest⟩
  · exact .inl hfail
  · obtain ⟨hvisits, hfresh⟩ := process_same hproc
    have hle : f.fresh ≤ h.fresh := by
      rw [hfresh]
      exact hprep.fresh
    have hlater := loop_visits
      (f := { h with visits := .read f.ctx b.inMemory b.readOnly h.trace :: h.visits })
      (fun e he => (hd e he).mono hle) hrest
    have hvisit : (Visit.read f.ctx b.inMemory b.readOnly h.trace).Resumes :=
      hres _ (hlater.subset List.mem_cons_self)
    have hone : h.Ready cap type ∧
        (b.inMemory = true ∧ (∃ t, Rewritten type f b h { d with inFile := false } t) ∨
          b.inMemory = false ∧ Emptied f b h { d with inFile := false }) := by
      rcases hm : b.inMemory with _ | _
      · rw [hm] at hvisit
        obtain ⟨hready, -, -, hempty⟩ := hprep.emptied hf hb hm hvisit hproc
        exact ⟨hready, .inr ⟨rfl, hempty⟩⟩
      · obtain ⟨hready, -, -, hread⟩ := hprep.rewritten hf hb hm hproc
        exact ⟨hready, .inl ⟨rfl, hread⟩⟩
    obtain ⟨hready, hone⟩ := hone
    refine .inr ⟨{ h with visits := .read f.ctx b.inMemory b.readOnly h.trace :: h.visits },
      { d with inFile := false }, out', ⟨hready.resumes, hready.within⟩, hle, ?_, ?_, hlater, hout, hrest⟩
    · rcases hone with ⟨hm, t, hr⟩ | ⟨hm, he⟩
      · exact .inl ⟨hm, t, { hr with }⟩
      · exact .inr ⟨hm, { he with }⟩
    · rw [← hprep.visits, ← hvisits]

end Loop

section Calls
variable {cap : Option ℕ} {palloc : ℕ → Bool} {type : FileType} {r : Request} {f g : Filter}
  {links out : List NgxBuf} {c : Call} {calls outs : List Call}

theorem filter_visits (hd : ∀ b ∈ links, b.Delivered f.fresh)
    (h : ngxHttpMinifyBodyFilter cap palloc r f links = .ok (g, out)) : f.visits <:+ g.visits := by
  rcases r.passed_or with hr | ⟨type, hr, htype⟩
  · rw [filter_passed hr] at h
    cases h
    exact List.suffix_refl _
  · rw [filter_read hr htype] at h
    exact loop_visits hd h

theorem respond_visits (hcalls : ∀ c ∈ calls, ∀ b ∈ c.links, b.Delivered c.fresh)
    (h : respond cap palloc r f calls = .ok (g, outs)) : f.visits <:+ g.visits := by
  induction calls generalizing f outs with
  | nil =>
    cases h
    exact List.suffix_refl _
  | cons c calls ih =>
    obtain ⟨hc, hcalls⟩ := List.forall_mem_cons.mp hcalls
    obtain ⟨u, out, outs', hcall, hrest, -⟩ := respond_cons h
    have hone : f.visits <:+ u.visits := filter_visits (f := { f with mem := c.mem, fresh := c.fresh }) hc hcall
    exact hone.trans (ih hcalls hrest)

end Calls

end NginB.Minify
