import NginB.Minify.Chain

/-! # Buffers that are forwarded empty

A buffer of data is forwarded empty when no iteration on it writes a byte: each of them drops
bytes, or holds them back.
-/
namespace NginB.Minify
open NginB.Program Relation Ascii

def Act.writes : Act → Bool
  | .copies | .replaces => true
  | .quiet | .drops => false

def NgxBuf.Obeys (b : NgxBuf) : Prop := 0 < b.size ∨ b.special = true

/-- An iteration on the buffer starts in front of a byte that it writes. -/
def Visit.Writes : Visit → Prop
  | .read _ true _ tr => SomeTurn (fun r x u d => (act r x u d).writes = true) tr
  | _ => True

section Events
variable {x y : Ctx} {es : List Ev} {rest : List UInt8} {a : Act}

theorem Ev.takes_pos_iff :
    0 < Ev.takes es ↔ .skip ∈ es ∨ .copy ∈ es ∨ ∃ c, .put c ∈ es := by
  induction es with
  | nil => simp
  | cons e es ih => cases e <;> simp [ih]

theorem Ev.emitted_items_eq_nil (x : Ctx) (es : List Ev) : ∀ rest : List UInt8,
    emitted (Ev.items x es rest) = [] ↔ .copy ∉ es ∧ ∀ c, .put c ∉ es := by
  induction es with
  | nil => simp
  | cons e es ih =>
    intro rest
    cases e with
    | put c => exact iff_of_false (List.cons_ne_nil _ _) fun h => h.2 c List.mem_cons_self
    | skip | copy | tag | stack | call => simp [ih]

/-- An iteration writes a byte just when its act says so. -/
theorem Act.Does.emitted_iff (h : a.Does es) :
    emitted (Ev.items x es rest) ≠ [] ↔ a.writes = true := by
  rw [Ne, Ev.emitted_items_eq_nil]
  cases a with
  | quiet =>
    have hnone := mt Ev.takes_pos_iff.mpr (Nat.not_lt.mpr (Nat.le_of_eq h))
    simp only [not_or, not_exists] at hnone
    exact iff_of_false (fun hn => hn hnone.2) Bool.false_ne_true
  | copies =>
    obtain ⟨hpos, hskip, hput⟩ := h
    have hcopy : .copy ∈ es := by
      rcases Ev.takes_pos_iff.mp hpos with hmem | hmem | ⟨c, hmem⟩
      · exact absurd hmem hskip
      · exact hmem
      · exact absurd hmem (hput c)
    exact iff_of_true (fun hn => hn.1 hcopy) rfl
  | drops => exact iff_of_false (fun hn => hn ⟨h.2.1, h.2.2⟩) Bool.false_ne_true
  | replaces =>
    obtain ⟨c, hmem⟩ := h
    exact iff_of_true (fun hn => hn.2 c hmem) rfl

/-- An iteration that holds the unread bytes back does nothing else. -/
theorem Act.Tells.quiet {c : List UInt8} (h : a.Tells (Ev.holds c rest) y) (hy : y.cache = rest) :
    a = .quiet := by
  by_cases hne : y.cache = []
  · have hdoes := h.does hne
    rw [← hy, hne] at hdoes
    cases a with
    | quiet => rfl
    | copies | drops => exact absurd hdoes.1 (Nat.lt_irrefl 0)
    | replaces =>
      obtain ⟨b, hmem⟩ := hdoes
      simp [Ev.holds] at hmem
  · exact h.held hne

end Events

/-- A byte of the newest buffer has been written just when an iteration on it writes one. -/
theorem writtenInv (type : FileType) : TraceInv (machine type) fun v =>
    0 < v.dstlen ↔ SomeTurn (fun r x u d => (act r x u d).writes = true) v.trace where
  start := iff_of_false (Nat.lt_irrefl 0) fun ⟨_, _, _, _, hmem, _⟩ => List.not_mem_nil hmem
  next buf _ _ _ := iff_of_false (Nat.lt_irrefl 0) not_someTurn_buffer
  turn {v es y nxt k k' r' d tr} hv h hc hy hrule _ _ hd htr := by
    have hitems := Ev.buffer_notMem_items v.ctx es v.pending
    have hturns : ∀ r x u d, Item.turn r x u d ∉ (Ev.items v.ctx es v.pending).reverse :=
      fun r x u d hmem => Ev.turn_notMem_items v.ctx x r u d es v.pending (List.mem_reverse.mp hmem)
    have hact : emitted (Ev.items v.ctx es v.pending) ≠ [] ↔
        (act v.r v.ctx v.pending v.dstlen).writes = true := ((rule_act hrule hc).does hy).emitted_iff
    change 0 < d ↔ SomeTurn _ tr
    rw [htr, someTurn_turn (fun hmem => hitems (List.mem_reverse.mp hmem)) hturns, ← hact, ← h, hd,
      ← List.length_pos_iff]
    omega
  hold {v y} a hv h hc hrule hy := by
    have hact := (rule_act (d := v.dstlen) hrule hc).quiet hy.cache
    have hsplit : SomeTurn (fun r x u d => (act r x u d).writes = true)
        ([.cacheCall a 0 v.pending] ++ .turn v.r v.ctx v.pending v.dstlen :: v.trace) ↔ _ :=
      someTurn_turn (by simp) (by simp)
    rw [hact] at hsplit
    exact h.trans ((or_iff_right Bool.false_ne_true).symm.trans hsplit.symm)
  done _ h _ := h

section Loop
variable {cap : Option ℕ} {palloc : ℕ → Bool} {type : FileType} {f g k : Filter} {b d : NgxBuf}
  {links out : List NgxBuf} {t : Conf Stream}

theorem Rewritten.obeys_iff (hr : Rewritten type f b g d t) :
    d.Obeys ↔ SomeTurn (fun r x u d => (act r x u d).writes = true) g.trace := by
  have hwritten := hr.stripped.keeps (writtenInv type)
    (iff_of_false (Nat.lt_irrefl 0) not_someTurn_buffer)
  have hnot : ¬ d.special = true := by simp [NgxBuf.special, hr.inMemory]
  rw [NgxBuf.Obeys, or_iff_left hnot, hr.size, hr.trace, ← hwritten]
  exact Int.natCast_pos

/-- What the loop forwards obeys the rule just when an iteration on each buffer of data writes. -/
theorem loop_obeys_iff (hd : ∀ b ∈ links, b.Delivered f.fresh) (ho : ∀ b ∈ links, b.Obeys)
    (hf : f.Ready cap type) (hrun : bodyFilterLoop cap palloc type f links = .ok (k, out))
    (hres : ∀ v ∈ k.visits, v.Resumes) : k.Ready cap type ∧
      ((∀ d ∈ out, d.Obeys) ∧ (∀ v ∈ f.visits, v.Writes) ↔ ∀ v ∈ k.visits, v.Writes) := by
  induction links generalizing f out with
  | nil =>
    cases hrun
    exact ⟨hf, by simp⟩
  | cons b links ih =>
    obtain ⟨hob, ho⟩ := List.forall_mem_cons.mp ho
    rcases loop_next hd hf hrun hres with
      ⟨-, -, rfl, rfl⟩ | ⟨h, d, out', hready, hle, hone, hvisits, -, rfl, hrest⟩
    · refine ⟨⟨hf.resumes, hf.within⟩, ?_⟩
      have hobeys : ∀ d ∈ b :: links, d.Obeys := List.forall_mem_cons.mpr ⟨hob, ho⟩
      constructor
      · rintro ⟨-, hall⟩
        exact List.forall_mem_cons.mpr ⟨trivial, hall⟩
      · intro hall
        exact ⟨hobeys, (List.forall_mem_cons.mp hall).2⟩
    · have hwrites : d.Obeys ↔ (Visit.read f.ctx b.inMemory b.readOnly h.trace).Writes := by
        rcases hone with ⟨hm, t, hr⟩ | ⟨hm, hempty⟩
        · rw [hm]
          exact hr.obeys_iff
        · rw [hm]
          exact iff_of_true (.inr hempty.special) trivial
      have hd' : ∀ e ∈ links, e.Delivered h.fresh := fun e he => (hd e (List.mem_cons_of_mem _ he)).mono hle
      obtain ⟨hk, hiff⟩ := ih hd' ho hready hrest
      refine ⟨hk, ?_⟩
      rw [← hiff, hvisits, List.forall_mem_cons, List.forall_mem_cons, hwrites]
      tauto

end Loop

section Calls
variable {cap : Option ℕ} {palloc : ℕ → Bool} {r : Request} {f k : Filter} {calls outs : List Call}

theorem respond_obeys_iff {type : FileType}
    (hcalls : ∀ c ∈ calls, ∀ b ∈ c.links, b.Delivered c.fresh ∧ b.Obeys)
    (hr : r.headerOnly = false) (htype : r.type = some type) (hf : f.Ready cap type)
    (hrun : respond cap palloc r f calls = .ok (k, outs)) (hres : ∀ v ∈ k.visits, v.Resumes) :
    (∀ c ∈ outs, ∀ d ∈ c.links, d.Obeys) ∧ (∀ v ∈ f.visits, v.Writes) ↔
      ∀ v ∈ k.visits, v.Writes := by
  induction calls generalizing f outs with
  | nil =>
    cases hrun
    simp
  | cons c calls ih =>
    obtain ⟨hc, hcalls⟩ := List.forall_mem_cons.mp hcalls
    obtain ⟨u, out, outs', hcall, hrest, rfl⟩ := respond_cons hrun
    rw [filter_read hr htype] at hcall
    have hlater := respond_visits (fun c hc b hb => (hcalls c hc b hb).1) hrest
    obtain ⟨hu, hiff⟩ := loop_obeys_iff (f := { f with mem := c.mem, fresh := c.fresh })
      (fun b hb => (hc b hb).1) (fun b hb => (hc b hb).2) ⟨hf.resumes, hf.within⟩ hcall
      fun v hv => hres v (hlater.subset hv)
    rw [← ih hcalls hu hrest, ← hiff, List.forall_mem_cons]
    tauto

/-- Where no special buffer comes in a state that relies on bytes held back before, every buffer that
a response forwards obeys the rule just when an iteration on each buffer of data writes a byte. -/
theorem nonempty_iff (hcalls : ∀ c ∈ calls, ∀ b ∈ c.links, b.Delivered c.fresh ∧ b.Obeys)
    (hrun : respond cap palloc r .start calls = .ok (f, outs)) (hres : ∀ v ∈ f.visits, v.Resumes) :
    (∀ c ∈ outs, ∀ d ∈ c.links, d.Obeys) ↔ ∀ v ∈ f.visits, v.Writes := by
  rcases r.passed_or with hr | ⟨type, hr, htype⟩
  · obtain ⟨hvisits, hlinks⟩ := respond_passed hr hrun
    refine iff_of_true (fun c hc d hd => ?_) fun v hv => ?_
    · obtain ⟨c', hc', he⟩ := List.mem_map.mp (hlinks ▸ List.mem_map_of_mem hc)
      exact (hcalls c' hc' d (he ▸ hd)).2
    · rw [hvisits] at hv
      exact (List.not_mem_nil hv).elim
  · rw [← respond_obeys_iff hcalls hr htype (Filter.ready_start cap type) hrun hres]
    exact (and_iff_left fun v hv => (List.not_mem_nil hv).elim).symm

end Calls

instance : DecidablePred Visit.Resumes
  | .read _ false _ _ => inferInstanceAs (Decidable (_ ∨ _))
  | .read _ true _ _ => .isTrue trivial
  | .failed _ _ _ => .isTrue trivial

instance : DecidablePred Visit.Writes
  | .read _ true _ tr => inferInstanceAs (Decidable (SomeTurn _ tr))
  | .read _ false _ _ => .isTrue trivial
  | .failed _ _ _ => .isTrue trivial

theorem dataCall_obeys {readOnly : Bool} {l : List UInt8} (hl : l ≠ []) :
    ∀ b ∈ (dataCall readOnly l).links, b.Delivered (dataCall readOnly l).fresh ∧ b.Obeys := by
  intro b hb
  refine ⟨(dataCall_delivered readOnly l).links b hb, .inl ?_⟩
  obtain rfl := List.mem_singleton.mp hb
  rw [NgxBuf.size, if_pos (dataBuf_inMemory _ _)]
  have hpos := List.length_pos_iff.mpr hl
  simp only [dataBuf]
  omega

/-- The page `a<b  c> d`, of which the first buffer ends behind the `<`. -/
theorem nonempty_iff_lt : ∃ f outs,
    respond none (fun _ => true) ⟨false, some .html⟩ .start [dataCall false (lit "a<"), dataCall false (lit "b  c> d")] =
      .ok (f, outs) ∧
    ∀ c ∈ outs, ∀ d ∈ c.links, d.Obeys := by
  have hcalls : ∀ c ∈ [dataCall false (lit "a<"), dataCall false (lit "b  c> d")], c.Delivered := by
    simp [dataCall_delivered]
  have hobeys : ∀ c ∈ [dataCall false (lit "a<"), dataCall false (lit "b  c> d")], ∀ b ∈ c.links,
      b.Delivered c.fresh ∧ b.Obeys :=
    List.forall_mem_cons.mpr ⟨dataCall_obeys (by decide), List.forall_mem_singleton.mpr (dataCall_obeys (by decide))⟩
  have hvisits : (deliverAll none (fun _ => true) ⟨false, some .html⟩ .start
      [[.data false (lit "a<")], [.data false (lit "b  c> d")]]).map
      (fun p => decide (∀ v ∈ p.1.visits, v.Resumes ∧ v.Writes)) = .ok true := by decide +kernel
  obtain ⟨f, outs, hf⟩ : ∃ f outs, respond none (fun _ => true) ⟨false, some .html⟩ .start
      [dataCall false (lit "a<"), dataCall false (lit "b  c> d")] = .ok (f, outs) := by
    refine exists_respond hcalls ?_
    simp only [List.map_cons, List.map_nil, dataCall_arrivals]
    decide +kernel
  obtain ⟨t, ht, hshows, -⟩ := respond_ok hcalls hf
  simp only [List.map_cons, List.map_nil, dataCall_arrivals] at ht
  rw [ht] at hvisits
  have hall := of_decide_eq_true (Except.ok.inj hvisits)
  rw [← hshows.visits] at hall
  exact ⟨f, outs, hf, (nonempty_iff hobeys hf fun v hv => (hall v hv).1).mpr fun v hv => (hall v hv).2⟩

/-- A buffer with a line break only is forwarded empty. -/
theorem break_forwarded_empty : ¬ ∀ (cap : Option ℕ) (palloc : ℕ → Bool) (r : Request)
    (calls : List Call) (f : Filter) (outs : List Call),
    (∀ c ∈ calls, ∀ b ∈ c.links, b.Delivered c.fresh ∧ b.Obeys) →
    respond cap palloc r .start calls = .ok (f, outs) → ∀ c ∈ outs, ∀ d ∈ c.links, d.Obeys := by
  intro hall
  have hcalls : ∀ c ∈ [dataCall false [lf]], c.Delivered := by simp [dataCall_delivered]
  have hobeys : ∀ c ∈ [dataCall false [lf]], ∀ b ∈ c.links, b.Delivered c.fresh ∧ b.Obeys :=
    List.forall_mem_singleton.mpr (dataCall_obeys (by decide))
  have hempty : (deliverAll none (fun _ => true) ⟨false, some .html⟩ .start [[.data false [lf]]]).map
      (fun p => p.2) = .ok [[.data false []]] := by decide +kernel
  obtain ⟨f, outs, hf⟩ : ∃ f outs, respond none (fun _ => true) ⟨false, some .html⟩ .start
      [dataCall false [lf]] = .ok (f, outs) := by
    refine exists_respond hcalls ?_
    simp only [List.map_cons, List.map_nil, dataCall_arrivals]
    decide +kernel
  obtain ⟨t, ht, -⟩ := respond_ok hcalls hf
  simp only [List.map_cons, List.map_nil, dataCall_arrivals] at ht
  rw [ht] at hempty
  have houts : outs.map Call.arrivals = [[.data false []]] := Except.ok.inj hempty
  obtain ⟨c, hc, hlinks⟩ : ∃ c ∈ outs, c.arrivals = [.data false []] :=
    List.mem_map.mp (houts ▸ List.mem_cons_self)
  obtain ⟨d, hd, harrival⟩ : ∃ d ∈ c.links, d.arrival c.mem = .data false [] := by
    refine List.mem_map.mp (show _ ∈ c.arrivals from ?_)
    rw [hlinks]
    exact List.mem_cons_self
  have hmem : d.inMemory = true := by
    rw [← NgxBuf.arrival_inMemory c.mem d, harrival]
    rfl
  have hlen : (d.content c.mem).length = 0 := by
    rw [← NgxBuf.arrival_bytes, harrival]
    rfl
  rw [NgxBuf.content_length hmem] at hlen
  rcases hall none _ _ _ f outs hobeys hf c hc d hd with hsize | hspecial
  · rw [NgxBuf.size, if_pos hmem] at hsize
    omega
  · simp [NgxBuf.special, hmem] at hspecial

end NginB.Minify
