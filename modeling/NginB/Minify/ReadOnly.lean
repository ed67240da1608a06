import NginB.Minify.Nonempty

/-! # Content that must not be changed

A store keeps regions that any number of requests share. The loop minifies in place, so a shared
region stays as it is only while no byte of a buffer is moved or replaced.
-/
namespace NginB.Minify
open NginB.Program Ascii

def Item.acts (a : Act) : Item → Prop
  | .turn r x u d => act r x u d = a
  | _ => False

instance (a : Act) : DecidablePred (Item.acts a)
  | .turn r x u d => inferInstanceAs (Decidable (act r x u d = a))
  | .buffer | .skip .. | .emit .. | .cacheCall .. | .tagWrite .. | .stack .. =>
    inferInstanceAs (Decidable False)

/-- What is written of the newest buffer lands where it has been read: no iteration copies after
one that drops, and none replaces a byte. -/
structure InStep (tr : List Item) : Prop where
  order : (newest tr).Pairwise fun newer older => newer.acts .copies → ¬ older.acts .drops
  none : ∀ i ∈ newest tr, ¬ i.acts .replaces

/-- A read-only buffer is read in step, if it is minified in place. -/
def Visit.InStep : Visit → Prop
  | .read x true true tr => x.cache = [] → NginB.Minify.InStep tr
  | _ => True

section Events
variable {es : List Ev} {x : Ctx}

theorem Ev.emitted_eq_consumed (hskip : .skip ∉ es) (hput : ∀ c, .put c ∉ es) :
    ∀ rest : List UInt8, emitted (Ev.items x es rest) = consumed (Ev.items x es rest) := by
  induction es with
  | nil => exact fun rest => rfl
  | cons e es ih =>
    intro rest
    simp only [List.mem_cons, not_or] at hskip hput
    have ih' := ih hskip.2 fun c => (hput c).2
    cases e with
    | skip => exact absurd rfl hskip.1
    | put c => exact absurd rfl (hput c).1
    | copy => simp [ih']
    | tag | stack | call => simp [ih']

end Events

section Trace
variable {tr l : List Item} {i : Item}

/-- The newest buffer is in step before its newest iteration. -/
theorem InStep.tail (h : InStep (l ++ tr)) (hl : .buffer ∉ l) : InStep tr := by
  obtain ⟨horder, hnone⟩ := h
  rw [newest_append hl] at horder hnone
  exact ⟨(List.pairwise_append.mp horder).2.1, fun i hi => hnone i (List.mem_append_right l hi)⟩

/-- Nothing has been dropped before an iteration that copies. -/
theorem InStep.even (h : InStep (l ++ i :: tr)) (hl : .buffer ∉ l) (hi : i ≠ .buffer)
    (hacts : i.acts .copies) : ∀ j ∈ newest tr, ¬ j.acts .drops ∧ ¬ j.acts .replaces := by
  obtain ⟨horder, hnone⟩ := h
  have hnew : newest (l ++ i :: tr) = l ++ i :: newest tr := by
    rw [newest_append hl, newest, List.takeWhile_cons_of_pos (by simpa using hi)]
    rfl
  rw [hnew] at horder hnone
  intro j hj
  have hpair := List.pairwise_cons.mp (List.pairwise_append.mp horder).2.1
  refine ⟨hpair.1 j hj hacts, hnone j ?_⟩
  exact List.mem_append_right l (List.mem_cons_of_mem i hj)

end Trace

/-- While the newest buffer is in step, what is written of it is the beginning of what is read. -/
theorem stepInv (type : FileType) : TraceInv (machine type) fun v =>
    ((∀ i ∈ newest v.trace, ¬ i.acts .drops ∧ ¬ i.acts .replaces) →
      emitted (newest v.trace) = consumed (newest v.trace)) ∧
    (InStep v.trace → emitted (newest v.trace) <:+ consumed (newest v.trace)) where
  start := ⟨fun _ => rfl, fun _ => List.suffix_refl _⟩
  next buf _ _ _ := ⟨fun _ => rfl, fun _ => List.suffix_refl _⟩
  turn {v es y nxt k k' r' d tr} hv h hc hy hrule _ _ _ htr := by
    obtain ⟨heven, hstep⟩ := h
    have hdoes := (rule_act (d := v.dstlen) hrule hc).does hy
    have hitems : Item.buffer ∉ (Ev.items v.ctx es v.pending).reverse := fun hmem =>
      Ev.buffer_notMem_items v.ctx es v.pending (List.mem_reverse.mp hmem)
    have hnew : newest tr = (Ev.items v.ctx es v.pending).reverse ++
        .turn v.r v.ctx v.pending v.dstlen :: newest v.trace := by
      rw [htr, newest_append hitems]
      rfl
    have hemitted : emitted (newest tr) =
        emitted (Ev.items v.ctx es v.pending).reverse ++ emitted (newest v.trace) := by
      rw [hnew, emitted_append, emitted_cons]
      rfl
    have hconsumed : consumed (newest tr) =
        consumed (Ev.items v.ctx es v.pending).reverse ++ consumed (newest v.trace) := by
      rw [hnew, consumed_append, consumed_cons]
      rfl
    have hlast : Item.turn v.r v.ctx v.pending v.dstlen ∈ newest tr := by
      rw [hnew]
      exact List.mem_append_right _ List.mem_cons_self
    have hold : ∀ {p : Item → Prop}, (∀ i ∈ newest tr, p i) → ∀ i ∈ newest v.trace, p i := by
      intro p hp i hi
      refine hp i ?_
      rw [hnew]
      exact List.mem_append_right _ (List.mem_cons_of_mem _ hi)
    have htail : InStep tr → InStep v.trace := by
      intro hin
      rw [htr, List.append_cons] at hin
      exact hin.tail (by simp [hitems])
    change (_ → emitted (newest tr) = consumed (newest tr)) ∧
      (InStep tr → emitted (newest tr) <:+ consumed (newest tr))
    rw [hemitted, hconsumed]
    generalize ha : act v.r v.ctx v.pending v.dstlen = a at hdoes
    cases a with
    | quiet =>
      have hnone := mt Ev.takes_pos_iff.mpr (Nat.not_lt.mpr (Nat.le_of_eq hdoes))
      simp only [not_or, not_exists] at hnone
      have hout := (Ev.emitted_items_eq_nil v.ctx es v.pending).mpr hnone.2
      have hin := Ev.consumed_items v.ctx es v.pending ((machine type).takes_le hrule)
      rw [show Ev.takes es = 0 from hdoes] at hin
      rw [emitted_reverse, consumed_reverse, hout, hin]
      exact ⟨fun hn => heven (hold hn), fun hn => hstep (htail hn)⟩
    | copies =>
      have hsame := Ev.emitted_eq_consumed hdoes.2.1 hdoes.2.2 (x := v.ctx) v.pending
      rw [emitted_reverse, consumed_reverse, hsame]
      constructor
      · intro hn
        rw [heven (hold hn)]
      · intro hn
        rw [htr] at hn
        exact heven (hn.even hitems (by simp) ha) ▸ List.suffix_rfl
    | drops =>
      have hout := (Ev.emitted_items_eq_nil v.ctx es v.pending).mpr hdoes.2
      rw [emitted_reverse, hout]
      constructor
      · intro hn
        exact absurd ha (hn _ hlast).1
      · intro hn
        exact (hstep (htail hn)).trans (List.suffix_append _ _)
    | replaces =>
      constructor
      · intro hn
        exact absurd ha (hn _ hlast).2
      · intro hn
        exact absurd ha (hn.none _ hlast)
  hold {v y} a hv h hc hrule hy := by
    obtain ⟨heven, hstep⟩ := h
    constructor
    · intro hn
      refine heven fun i hi => hn i ?_
      exact List.mem_cons_of_mem _ (List.mem_cons_of_mem _ hi)
    · intro hn
      exact hstep (hn.tail (l := [.cacheCall a 0 v.pending, .turn v.r v.ctx v.pending v.dstlen])
        (by simp))
  done _ h _ := h

theorem Flat.region_eq_of_prefix {m m' : ℕ → UInt8} {a n n' : ℕ}
    (h : Flat.region m a n <+: Flat.region m' a n') : ∀ i, a ≤ i → i < a + n → m i = m' i := by
  intro i hle hlt
  have hn : n ≤ n' := by
    have hlen := h.length_le
    rw [Flat.region_length, Flat.region_length] at hlen
    exact hlen
  have hk : i - a < (Flat.region m a n).length := by
    rw [Flat.region_length]
    omega
  have hget := h.getElem hk
  simp only [Flat.region, List.getElem_map, List.getElem_range] at hget
  rw [Nat.add_sub_cancel' hle] at hget
  exact hget

section Loop
variable {cap : Option ℕ} {palloc : ℕ → Bool} {type : FileType} {f g k : Filter} {b d : NgxBuf}
  {links out : List NgxBuf} {t : Conf Stream} {shared : ℕ → Bool}

/-- A buffer that is minified in place keeps its bytes if it is read in step. -/
theorem Rewritten.intact (hr : Rewritten type f b g d t) (hb : b.inMemory = true)
    (hc : f.ctx.cache = []) (hin : InStep g.trace) : g.mem b.region = f.mem b.region := by
  obtain ⟨hbytes, hsame⟩ := hr.inPlace hc
  have hstep := (hr.stripped.keeps (stepInv type)
    ⟨fun _ => rfl, fun _ => List.suffix_refl _⟩).2 (hr.trace ▸ hin)
  have hpre : t.buf.out.reverse <+: b.content f.mem := by
    have hcontent := hr.stripped.consumed
    rw [hc, List.nil_append] at hcontent
    rw [← hcontent, ← hr.stripped.emitted]
    exact (List.reverse_prefix.mpr hstep).trans (List.prefix_append _ _)
  rw [← hbytes, NgxBuf.content, if_pos hb] at hpre
  funext a
  by_cases ha : a < b.pos ∨ b.pos + t.buf.out.length ≤ a
  · exact hsame a ha
  · rw [not_or, Nat.not_lt, Nat.not_le] at ha
    exact Flat.region_eq_of_prefix hpre a ha.1 ha.2

/-- The chain refers to what is shared by its read-only buffers alone. -/
structure Call.Shares (shared : ℕ → Bool) (c : Call) : Prop where
  links : ∀ b ∈ c.links, b.Delivered c.fresh
  kind : ∀ b ∈ c.links, b.inMemory = true → shared b.region = b.readOnly
  inUse : ∀ r, shared r = true → r < c.fresh

/-- A chain whose read-only buffers are read in step leaves what is shared alone. -/
theorem loop_intact (hd : ∀ b ∈ links, b.Delivered f.fresh)
    (hk : ∀ b ∈ links, b.inMemory = true → shared b.region = b.readOnly)
    (hs : ∀ r, shared r = true → r < f.fresh) (hf : f.Ready cap type)
    (hrun : bodyFilterLoop cap palloc type f links = .ok (k, out))
    (hres : ∀ v ∈ k.visits, v.Resumes) (hin : ∀ v ∈ k.visits, v.InStep) :
    k.Ready cap type ∧ ∀ r, shared r = true → k.mem r = f.mem r := by
  induction links generalizing f out with
  | nil =>
    cases hrun
    exact ⟨hf, fun r _ => rfl⟩
  | cons b links ih =>
    rcases loop_next hd hf hrun hres with
      ⟨-, -, -, rfl⟩ | ⟨h, d, out', hready, hle, hone, hvisits, hlater, -, hrest⟩
    · exact ⟨⟨hf.resumes, hf.within⟩, fun r _ => rfl⟩
    · have hd' : ∀ e ∈ links, e.Delivered h.fresh := fun e he => (hd e (List.mem_cons_of_mem _ he)).mono hle
      obtain ⟨hk', hmem⟩ := ih hd' (fun e he => hk e (List.mem_cons_of_mem _ he))
        (fun r hr => Nat.lt_of_lt_of_le (hs r hr) hle) hready hrest
      refine ⟨hk', fun r hr => (hmem r hr).trans ?_⟩
      rcases hone with ⟨hm, t, hread⟩ | ⟨-, hempty⟩
      · by_cases hplace : r = b.region ∧ f.ctx.cache = []
        · obtain ⟨rfl, hc⟩ := hplace
          have hvisit : (Visit.read f.ctx b.inMemory b.readOnly h.trace).InStep := by
            refine hin _ (hlater.subset ?_)
            rw [hvisits]
            exact List.mem_cons_self
          rw [hm, ← hk b List.mem_cons_self hm, hr] at hvisit
          exact hread.intact hm hc (hvisit hc)
        · rw [not_and_or] at hplace
          exact hread.mem r (hs r hr) hplace
      · exact hempty.mem r (hs r hr)

end Loop

def Call.over (shared : ℕ → Bool) (m : Memory) (c : Call) : Call :=
  { c with mem := fun r => if shared r then m r else c.mem r }

def callsOf (i : ℕ) (calls : List (ℕ × Call)) : List Call :=
  (calls.filter fun p => p.1 = i).map Prod.snd

section Serve
variable (cap : Option ℕ) (palloc : ℕ → ℕ → Bool) (requests : ℕ → Request) (shared : ℕ → Bool)

/-- Calls for any number of requests, each with a filter of its own. A call finds the store as the
one before has left it. -/
def serve : Memory → (ℕ → Filter) → List (ℕ × Call) →
    Except Fault (Memory × (ℕ → Filter) × List (ℕ × Call))
  | m, fs, [] => return (m, fs, [])
  | m, fs, (i, c) :: calls => do
    let (g, out) ← ngxHttpMinifyBodyFilter cap (palloc i) (requests i)
      { fs i with mem := (c.over shared m).mem, fresh := c.fresh } c.links
    let (n, gs, outs) ← serve g.mem (Function.update fs i g) calls
    return (n, gs, (i, ⟨g.mem, g.fresh, out⟩) :: outs)

end Serve

section Store
variable {cap : Option ℕ} {palloc : ℕ → ℕ → Bool} {requests : ℕ → Request} {shared : ℕ → Bool}
  {m n : Memory} {fs gs : ℕ → Filter} {i : ℕ} {c : Call} {calls outs : List (ℕ × Call)}

theorem Call.over_congr (h : ∀ r, shared r = true → n r = m r) (c : Call) :
    c.over shared n = c.over shared m := by
  have hmem : (fun r => if shared r then n r else c.mem r) = fun r => if shared r then m r else c.mem r := by
    funext r
    split
    · next hr => exact h r hr
    · rfl
  rw [Call.over, hmem]
  rfl

theorem callsOf_cons (i j : ℕ) (c : Call) (calls : List (ℕ × Call)) :
    callsOf j ((i, c) :: calls) = if i = j then c :: callsOf j calls else callsOf j calls := by
  unfold callsOf
  by_cases h : i = j
  · simp [h]
  · simp [h]

theorem serve_cons (h : serve cap palloc requests shared m fs ((i, c) :: calls) = .ok (n, gs, outs)) :
    ∃ g out outs', ngxHttpMinifyBodyFilter cap (palloc i) (requests i)
        { fs i with mem := (c.over shared m).mem, fresh := c.fresh } c.links = .ok (g, out) ∧
      serve cap palloc requests shared g.mem (Function.update fs i g) calls = .ok (n, gs, outs') ∧
      outs = (i, ⟨g.mem, g.fresh, out⟩) :: outs' := by
  rw [serve] at h
  rcases hcall : ngxHttpMinifyBodyFilter cap (palloc i) (requests i)
      { fs i with mem := (c.over shared m).mem, fresh := c.fresh } c.links with e | ⟨g, out⟩
  · rw [hcall] at h
    cases h
  · rw [hcall] at h
    simp only [except_ok_bind] at h
    rcases hrest : serve cap palloc requests shared g.mem (Function.update fs i g) calls with
      e | ⟨n', gs', outs'⟩
    · rw [hrest] at h
      cases h
    · rw [hrest] at h
      cases h
      exact ⟨g, out, outs', rfl, hrest, rfl⟩

/-- A call keeps what is shared, and the filter can go on. -/
theorem filter_intact {p : ℕ → Bool} {r : Request} {f g : Filter} {links out : List NgxBuf}
    (hd : ∀ b ∈ links, b.Delivered f.fresh)
    (hk : ∀ b ∈ links, b.inMemory = true → shared b.region = b.readOnly)
    (hs : ∀ r, shared r = true → r < f.fresh)
    (hf : ∀ type, r.headerOnly = false → r.type = some type → f.Ready cap type)
    (hrun : ngxHttpMinifyBodyFilter cap p r f links = .ok (g, out))
    (hres : ∀ v ∈ g.visits, v.Resumes) (hin : ∀ v ∈ g.visits, v.InStep) :
    (∀ type, r.headerOnly = false → r.type = some type → g.Ready cap type) ∧
      ∀ q, shared q = true → g.mem q = f.mem q := by
  rcases r.passed_or with hr | ⟨type, hr, htype⟩
  · rw [filter_passed hr] at hrun
    cases hrun
    exact ⟨hf, fun q _ => rfl⟩
  · rw [filter_read hr htype] at hrun
    obtain ⟨hready, hmem⟩ := loop_intact hd hk hs (hf type hr htype) hrun hres hin
    refine ⟨fun type' _ htype' => ?_, hmem⟩
    rw [htype] at htype'
    cases htype'
    exact hready

theorem serve_visits (hcalls : ∀ p ∈ calls, p.2.Shares shared)
    (h : serve cap palloc requests shared m fs calls = .ok (n, gs, outs)) (j : ℕ) :
    (fs j).visits <:+ (gs j).visits := by
  induction calls generalizing m fs outs with
  | nil =>
    cases h
    exact List.suffix_refl _
  | cons p calls ih =>
    obtain ⟨i, c⟩ := p
    obtain ⟨hc, hcalls⟩ := List.forall_mem_cons.mp hcalls
    obtain ⟨g, out, outs', hcall, hrest, -⟩ := serve_cons h
    have hone : (fs i).visits <:+ g.visits :=
      filter_visits (f := { fs i with mem := (c.over shared m).mem, fresh := c.fresh }) hc.links hcall
    have hlater := ih hcalls hrest
    by_cases hj : j = i
    · subst hj
      rw [Function.update_self] at hlater
      exact hone.trans hlater
    · rw [Function.update_of_ne hj] at hlater
      exact hlater

/-- While every call reads in step, the store stays as it is, and every response is what it is when
it is served alone. -/
theorem serve_intact (hcalls : ∀ p ∈ calls, p.2.Shares shared)
    (hf : ∀ p ∈ calls, ∀ type, (requests p.1).headerOnly = false → (requests p.1).type = some type →
      (fs p.1).Ready cap type)
    (h : serve cap palloc requests shared m fs calls = .ok (n, gs, outs))
    (hres : ∀ p ∈ calls, ∀ v ∈ (gs p.1).visits, v.Resumes)
    (hin : ∀ p ∈ calls, ∀ v ∈ (gs p.1).visits, v.InStep) :
    (∀ r, shared r = true → n r = m r) ∧
      (∀ p ∈ outs, ∀ r, shared r = true → p.2.mem r = m r) ∧
      ∀ j, respond cap (palloc j) (requests j) (fs j) ((callsOf j calls).map (Call.over shared m)) =
        .ok (gs j, callsOf j outs) := by
  induction calls generalizing m fs outs with
  | nil =>
    cases h
    exact ⟨fun r _ => rfl, fun p hp => (List.not_mem_nil hp).elim, fun j => rfl⟩
  | cons p calls ih =>
    obtain ⟨i, c⟩ := p
    obtain ⟨hc, hcalls⟩ := List.forall_mem_cons.mp hcalls
    obtain ⟨hres₀, hres⟩ := List.forall_mem_cons.mp hres
    obtain ⟨hin₀, hin⟩ := List.forall_mem_cons.mp hin
    obtain ⟨hf₀, hf⟩ := List.forall_mem_cons.mp hf
    obtain ⟨g, out, outs', hcall, hrest, rfl⟩ := serve_cons h
    have hlater : g.visits <:+ (gs i).visits := by
      have hlater := serve_visits hcalls hrest i
      rw [Function.update_self] at hlater
      exact hlater
    obtain ⟨hready, hmem⟩ := filter_intact
      (f := { fs i with mem := (c.over shared m).mem, fresh := c.fresh }) hc.links hc.kind hc.inUse
      (fun type hr htype => ⟨(hf₀ type hr htype).resumes, (hf₀ type hr htype).within⟩) hcall
      (fun v hv => hres₀ v (hlater.subset hv)) fun v hv => hin₀ v (hlater.subset hv)
    have hstore : ∀ r, shared r = true → g.mem r = m r := by
      intro r hr
      rw [hmem r hr]
      exact if_pos hr
    have hf' : ∀ p ∈ calls, ∀ type, (requests p.1).headerOnly = false →
        (requests p.1).type = some type → (Function.update fs i g p.1).Ready cap type := by
      intro p hp type hr htype
      by_cases hi : p.1 = i
      · rw [hi] at hr htype ⊢
        rw [Function.update_self]
        exact hready type hr htype
      · rw [Function.update_of_ne hi]
        exact hf p hp type hr htype
    obtain ⟨hn, houts, hresp⟩ := ih hcalls hf' hrest hres hin
    refine ⟨fun r hr => (hn r hr).trans (hstore r hr), ?_, fun j => ?_⟩
    · refine List.forall_mem_cons.mpr ⟨hstore, fun p hp r hr => ?_⟩
      exact (houts p hp r hr).trans (hstore r hr)
    · have hj := hresp j
      have hover : Call.over shared g.mem = Call.over shared m := by
        funext d
        exact Call.over_congr hstore d
      rw [hover] at hj
      rw [callsOf_cons, callsOf_cons]
      by_cases hi : i = j
      · subst hi
        rw [Function.update_self] at hj
        have hcall' : ngxHttpMinifyBodyFilter cap (palloc i) (requests i)
            { fs i with mem := (c.over shared m).mem, fresh := (c.over shared m).fresh }
            (c.over shared m).links = .ok (g, out) := hcall
        rw [if_pos rfl, if_pos rfl, List.map_cons, respond, hcall', except_ok_bind]
        simp only
        rw [hj]
        rfl
      · rw [Function.update_of_ne (Ne.symm hi)] at hj
        rw [if_neg hi, if_neg hi]
        exact hj

/-- While no special buffer comes in a state that relies on bytes held back before, and every
read-only buffer is read in step, each response is what it is over the original store: it leaves
what is shared alone, and forwards the same as any other response of the same request. -/
theorem readOnly_intact (hcalls : ∀ p ∈ calls, p.2.Shares shared)
    (h : serve cap palloc requests shared m (fun _ => .start) calls = .ok (n, fs, outs))
    (hres : ∀ p ∈ calls, ∀ v ∈ (fs p.1).visits, v.Resumes)
    (hin : ∀ p ∈ calls, ∀ v ∈ (fs p.1).visits, v.InStep) :
    (∀ r, shared r = true → n r = m r) ∧
      (∀ p ∈ outs, ∀ r, shared r = true → p.2.mem r = m r) ∧
      (∀ j, respond cap (palloc j) (requests j) .start ((callsOf j calls).map (Call.over shared m)) =
        .ok (fs j, callsOf j outs)) ∧
      ((∀ p ∈ calls, p.2.Delivered) → ∀ i j, palloc i = palloc j → requests i = requests j →
        ((callsOf i calls).map (Call.over shared m)).map Call.arrivals =
          ((callsOf j calls).map (Call.over shared m)).map Call.arrivals →
        (callsOf i outs).map Call.arrivals = (callsOf j outs).map Call.arrivals) := by
  obtain ⟨hn, houts, hresp⟩ :=
    serve_intact hcalls (fun p _ type _ _ => Filter.ready_start cap type) h hres hin
  refine ⟨hn, houts, hresp, fun hdel i j hpalloc hrequest hsame => ?_⟩
  have hdel' : ∀ k, ∀ c ∈ (callsOf k calls).map (Call.over shared m), c.Delivered := by
    intro k c hc
    obtain ⟨d, hd, rfl⟩ := List.mem_map.mp hc
    obtain ⟨p, hp, rfl⟩ := List.mem_map.mp hd
    obtain ⟨hlinks, hapart⟩ := hdel p (List.mem_filter.mp hp).1
    exact ⟨hlinks, hapart⟩
  obtain ⟨t, ht, -⟩ := respond_ok (hdel' i) (hresp i)
  obtain ⟨u, hu, -⟩ := respond_ok (hdel' j) (hresp j)
  rw [hpalloc, hrequest, hsame, hu] at ht
  exact (Prod.mk.inj (Except.ok.inj ht)).2.symm

end Store

instance (tr : List Item) : Decidable (InStep tr) :=
  decidable_of_iff (_ ∧ _) ⟨fun h => ⟨h.1, h.2⟩, fun h => ⟨h.order, h.none⟩⟩

instance : DecidablePred Visit.InStep
  | .read x true true tr => inferInstanceAs (Decidable (x.cache = [] → NginB.Minify.InStep tr))
  | .read _ false _ _ | .read _ true false _ | .failed .. => .isTrue trivial

theorem dataCall_shares (l : List UInt8) : (dataCall true l).Shares fun r => r == 0 where
  links := (dataCall_delivered true l).links
  kind := List.forall_mem_singleton.mpr fun _ => rfl
  inUse r hr := by
    rw [eq_of_beq hr]
    exact Nat.zero_lt_one

/-- The content `a  <`, which two requests share, each of them in two calls. -/
theorem readOnly_intact_lt : ∃ n fs outs,
    serve none (fun _ _ => true) (fun _ => ⟨false, some .html⟩) (fun r => r == 0)
      (dataCall true (lit "a  <")).mem (fun _ => .start)
      [(0, dataCall true (lit "a  <")), (1, dataCall true (lit "a  <")), (0, dataCall true (lit "a  <")),
        (1, dataCall true (lit "a  <"))] = .ok (n, fs, outs) ∧
    (∀ r, (r == 0) = true → n r = (dataCall true (lit "a  <")).mem r) ∧
    (callsOf 0 outs).map Call.arrivals = (callsOf 1 outs).map Call.arrivals := by
  let calls : List (ℕ × Call) := [(0, dataCall true (lit "a  <")), (1, dataCall true (lit "a  <")),
    (0, dataCall true (lit "a  <")), (1, dataCall true (lit "a  <"))]
  have hcalls : ∀ p ∈ calls, p.2.Shares fun r => r == 0 := by simp [calls, dataCall_shares]
  have hdelivered : ∀ p ∈ calls, p.2.Delivered := by simp [calls, dataCall_delivered]
  have hstep : (serve none (fun _ _ => true) (fun _ => ⟨false, some .html⟩) (fun r => r == 0)
      (dataCall true (lit "a  <")).mem (fun _ => .start) calls).map (fun p => decide
        (∀ v ∈ (p.2.1 0).visits ++ (p.2.1 1).visits, v.Resumes ∧ v.InStep)) = .ok true := by
    decide +kernel
  rcases hrun : serve none (fun _ _ => true) (fun _ => ⟨false, some .html⟩) (fun r => r == 0)
      (dataCall true (lit "a  <")).mem (fun _ => .start) calls with e | ⟨n, fs, outs⟩
  · rw [hrun] at hstep
    cases hstep
  · rw [hrun] at hstep
    have hall := of_decide_eq_true (Except.ok.inj hstep)
    rw [List.forall_mem_append] at hall
    have hvisits : ∀ p ∈ calls, ∀ v ∈ (fs p.1).visits, v.Resumes ∧ v.InStep := by
      simp only [calls, List.forall_mem_cons]
      exact ⟨hall.1, hall.2, hall.1, hall.2, fun p hp => absurd hp List.not_mem_nil⟩
    obtain ⟨hn, -, -, hsame⟩ := readOnly_intact hcalls hrun (fun p hp v hv => (hvisits p hp v hv).1)
      fun p hp v hv => (hvisits p hp v hv).2
    exact ⟨n, fs, outs, rfl, hn, hsame hdelivered 0 1 rfl rfl rfl⟩

/-- Of the page `a` behind a line break the first request makes `aa`, and the second one gets that. -/
theorem serve_break : ∃ n fs outs,
    serve none (fun _ _ => true) (fun _ => ⟨false, some .html⟩) (fun r => r == 0)
      (dataCall true (lf :: lit "a")).mem (fun _ => .start)
      [(0, dataCall true (lf :: lit "a")), (1, dataCall true (lf :: lit "a"))] = .ok (n, fs, outs) ∧
    n 0 0 ≠ lf ∧ (callsOf 0 outs).flatMap Call.bytes ≠ (callsOf 1 outs).flatMap Call.bytes := by
  have hends : (serve none (fun _ _ => true) (fun _ => ⟨false, some .html⟩) (fun r => r == 0)
      (dataCall true (lf :: lit "a")).mem (fun _ => .start)
      [(0, dataCall true (lf :: lit "a")), (1, dataCall true (lf :: lit "a"))]).map (fun p =>
        (p.1 0 0, (callsOf 0 p.2.2).flatMap Call.bytes, (callsOf 1 p.2.2).flatMap Call.bytes)) =
      .ok (97, lit "a", lit "aa") := by
    decide +kernel
  rcases hrun : serve none (fun _ _ => true) (fun _ => ⟨false, some .html⟩) (fun r => r == 0)
      (dataCall true (lf :: lit "a")).mem (fun _ => .start)
      [(0, dataCall true (lf :: lit "a")), (1, dataCall true (lf :: lit "a"))] with e | ⟨n, fs, outs⟩
  · rw [hrun] at hends
    cases hends
  · rw [hrun] at hends
    have hends := Except.ok.inj hends
    simp only [Prod.mk.injEq] at hends
    refine ⟨n, fs, outs, rfl, ?_, ?_⟩
    · rw [hends.1]
      decide
    · rw [hends.2.1, hends.2.2]
      decide

/-- A shared region does not stay as it is, nor do two requests of it get the same. -/
theorem break_rewrites_shared : (¬ ∀ (cap : Option ℕ) (palloc : ℕ → ℕ → Bool)
    (requests : ℕ → Request) (shared : ℕ → Bool) (m n : Memory) (fs : ℕ → Filter)
    (calls outs : List (ℕ × Call)), (∀ p ∈ calls, p.2.Shares shared) →
    serve cap palloc requests shared m (fun _ => .start) calls = .ok (n, fs, outs) →
    ∀ r, shared r = true → n r = m r) ∧
    ¬ ∀ (cap : Option ℕ) (palloc : ℕ → ℕ → Bool) (requests : ℕ → Request) (shared : ℕ → Bool)
      (m n : Memory) (fs : ℕ → Filter) (calls outs : List (ℕ × Call)),
      (∀ p ∈ calls, p.2.Shares shared) → (∀ p ∈ calls, p.2.Delivered) →
      serve cap palloc requests shared m (fun _ => .start) calls = .ok (n, fs, outs) →
      ∀ i j, palloc i = palloc j → requests i = requests j →
        ((callsOf i calls).map (Call.over shared m)).map Call.arrivals =
          ((callsOf j calls).map (Call.over shared m)).map Call.arrivals →
        (callsOf i outs).map Call.arrivals = (callsOf j outs).map Call.arrivals := by
  obtain ⟨n, fs, outs, hrun, hregion, hbytes⟩ := serve_break
  have hcalls : ∀ p ∈ [(0, dataCall true (lf :: lit "a")), (1, dataCall true (lf :: lit "a"))],
      p.2.Shares fun r => r == 0 := by simp [dataCall_shares]
  have hdel : ∀ p ∈ [(0, dataCall true (lf :: lit "a")), (1, dataCall true (lf :: lit "a"))],
      p.2.Delivered := by simp [dataCall_delivered]
  constructor
  · intro hall
    exact hregion (congrFun (hall _ _ _ _ _ _ _ _ _ hcalls hrun 0 rfl) 0)
  · intro hall
    have hsame := hall _ _ _ _ _ _ _ _ _ hcalls hdel hrun 0 1 rfl rfl rfl
    exact hbytes (by rw [← bytes_arrivals, hsame, bytes_arrivals])

end NginB.Minify
