import NginB.Minify.Safety

/-! # Bytes held back at the end of a response

A minifier holds bytes back where a buffer ends within a token that it waits for. Nothing
tells it of the last buffer, so what it holds back there is lost.
-/
namespace NginB.Minify
open NginB.Program Relation Ascii

def stripStates : FileType → List MinifyState
  | .html => [.htmlCommentSkip]
  | .css => [.cssComment]
  | .js => [.jsComment, .jsCommentLine]

/-- Bytes outside a comment are held back. -/
def Ctx.Owes (type : FileType) (x : Ctx) : Prop := x.cache ≠ [] ∧ x.state.top ∉ stripStates type

/-- The unread bytes are the first byte of the token and more of it, in any letter case, but not
all of it. -/
def begins (token u : List UInt8) : Bool :=
  u ≠ [] && u.head? = token.head? && u.length < token.length && cacheable token u

/-- The unread bytes of this buffer end within a token that the loop waits for in state `st`. -/
def endsWithin : Routine → MinifyState → List UInt8 → Bool
  | .htmlStripBuffer, .text, u => u = lit "<" || u = lit "<!"
  | .htmlStripBuffer, .htmlSkip, u => u = lit "<"
  | .htmlStripTagname, .htmlTagatt, u => u = lit "/"
  | .htmlStripTag, .htmlTagBang, u =>
    u = lit "<!" ++ [dash] || u.take 3 = lit "<![" && begins (lit "<![CDATA[") u
  | .htmlStripTag, .htmlCdata, u => begins (lit "]]>") u
  | .htmlStripComment, .htmlComment, u =>
    u = lit "<!--" || u.take 5 = lit "<!--[" && begins (lit "<!--[if") u
  | .htmlStripComment, .htmlCommentIe, u => begins (lit "]-->") u
  | .cssStripBuffer, .text, u | .cssStripBrace, .cssBrace, u | .jsStripBuffer, .text, u => u = lit "/"
  | .cssStripQuote, .cssQuote, u | .jsStripQuote, .jsQuote, u => u = lit "\\"
  | _, _, _ => false

section Rules
variable {x y : Ctx} {r : Routine} {rest : List UInt8} {es : List Ev} {nxt : Next} {d : ℕ}

theorem HtmlRule.endsWithin_iff (h : HtmlRule x r rest es y nxt) (hx : x.cache = []) :
    endsWithin r x.state.top rest = true ↔ y.Owes .html := by
  cases h
  case nameGt hs =>
    obtain ⟨st, t, -, he⟩ := x.nameGt_eq
    simp [he, hs, hx, endsWithin, Ctx.Owes]
  case nameBlank hs _ =>
    obtain ⟨t, he⟩ := x.nameBlank_eq
    simp [he, hs, hx, endsWithin, Ctx.Owes]
  case attGt hs =>
    obtain ⟨st, -, he⟩ := x.attGt_eq
    simp [he, hs, hx, endsWithin, Ctx.Owes]
  case endGt hs =>
    obtain ⟨st, t, u, -, he⟩ := x.endGt_eq
    simp [he, hs, hx, endsWithin, Ctx.Owes]
  case commentIf | ieClose | ieFour | ieHold | cdataClose | cdataThree | cdataHold | commentOther
    | commentHoldIf | bangCdata | bangNine | bangHoldCdata =>
    simp_all [endsWithin, begins, Ctx.Owes, stripStates, cacheable]
    try omega
  case textBreak hs hb => rcases hb with rfl | rfl | rfl <;> simp [hs, hx, endsWithin, Ctx.Owes]
  case callTagname hs | callComment hs =>
    simp only [List.mem_cons, List.not_mem_nil, or_false] at hs
    rcases hs with hs | hs | hs <;> simp [hs, hx, endsWithin, Ctx.Owes]
  case tagLeave hs => rcases List.mem_pair.mp hs with hs | hs <;> simp [hs, hx, endsWithin, Ctx.Owes]
  case callTag hs =>
    simp only [List.mem_cons, List.not_mem_nil, or_false] at hs
    rcases hs with hs | hs | hs | hs | hs | hs | hs | hs | hs <;> simp [hs, hx, endsWithin, Ctx.Owes]
  all_goals simp_all [endsWithin, begins, Ctx.Owes, stripStates, cacheable]

theorem CssRule.endsWithin_iff (h : CssRule x r rest es y nxt) (hx : x.cache = []) :
    endsWithin r x.state.top rest = true ↔ y.Owes .css := by
  cases h
  case commentLeave hs | quoteLeave hs =>
    rcases List.mem_pair.mp hs with hs | hs <;> simp [hs, hx, endsWithin, Ctx.Owes]
  case braceBlank hs hb =>
    rcases hb with ⟨rfl, -⟩ | rfl | rfl | rfl <;> simp [hs, hx, endsWithin, Ctx.Owes]
  case braceQuote hs hb | textQuote hs hb | textBlankDrop hs hb _ | textBlank hs hb _
    | textBreak hs hb => rcases hb with rfl | rfl <;> simp [hs, hx, endsWithin, Ctx.Owes]
  all_goals simp_all [endsWithin, Ctx.Owes, stripStates]

theorem JsRule.endsWithin_iff (h : JsRule d x r rest es y nxt) (hx : x.cache = []) :
    endsWithin r x.state.top rest = true ↔ y.Owes .js := by
  cases h
  case textBlank hs hb _ => rcases hb with rfl | rfl <;> simp [hs, hx, endsWithin, Ctx.Owes]
  case textQuote hs hb => rcases hb with rfl | rfl | rfl <;> simp [hs, hx, endsWithin, Ctx.Owes]
  case callComment hs => rcases List.mem_pair.mp hs with hs | hs <;> simp [hs, hx, endsWithin, Ctx.Owes]
  all_goals simp_all [endsWithin, Ctx.Owes, stripStates]

end Rules

theorem rule_endsWithin_iff {type : FileType} {d : ℕ} {x y : Ctx} {r : Routine} {rest : List UInt8}
    {es : List Ev} {nxt : Next} (h : (machine type).rule d x r rest es y nxt) (hx : x.cache = []) :
    endsWithin r x.state.top rest = true ↔ y.Owes type := by
  cases type with
  | html => exact HtmlRule.endsWithin_iff h hx
  | css => exact CssRule.endsWithin_iff h hx
  | js => exact JsRule.endsWithin_iff h hx

def newest (tr : List Item) : List Item := tr.takeWhile fun i => i ≠ .buffer

def SomeTurn (p : Routine → Ctx → List UInt8 → ℕ → Prop) (tr : List Item) : Prop :=
  ∃ r x u d, .turn r x u d ∈ newest tr ∧ p r x u d

instance (p : Routine → Ctx → List UInt8 → ℕ → Prop) [∀ r x u d, Decidable (p r x u d)] (tr : List Item) :
    Decidable (SomeTurn p tr) :=
  decidable_of_iff ((newest tr).any (fun
    | .turn r x u d => decide (p r x u d)
    | _ => false) = true) <| by
    rw [List.any_eq_true]
    constructor
    · rintro ⟨i, hmem, hi⟩
      cases i with
      | turn r x u d => exact ⟨r, x, u, d, hmem, of_decide_eq_true hi⟩
      | _ => cases hi
    · rintro ⟨r, x, u, d, hmem, hp⟩
      exact ⟨_, hmem, decide_eq_true hp⟩

section Newest
variable {p : Routine → Ctx → List UInt8 → ℕ → Prop} {tr : List Item}

theorem newest_append {l : List Item} (h : .buffer ∉ l) : newest (l ++ tr) = l ++ newest tr := by
  refine List.takeWhile_append_of_pos fun i hi => decide_eq_true ?_
  rintro rfl
  exact h hi

theorem Ev.buffer_notMem_items (x : Ctx) (es : List Ev) : ∀ rest : List UInt8,
    Item.buffer ∉ Ev.items x es rest := by
  induction es with
  | nil => exact fun rest => List.not_mem_nil
  | cons e es ih => cases e <;> simp [ih]

theorem not_someTurn_buffer : ¬ SomeTurn p (.buffer :: tr) := by
  rintro ⟨r, x, u, d, hmem, -⟩
  exact List.not_mem_nil hmem

theorem someTurn_turn {l : List Item} {r : Routine} {x : Ctx} {u : List UInt8} {d : ℕ}
    (hbuf : .buffer ∉ l) (hl : ∀ r x u d, Item.turn r x u d ∉ l) :
    SomeTurn p (l ++ .turn r x u d :: tr) ↔ p r x u d ∨ SomeTurn p tr := by
  have hnew : newest (l ++ .turn r x u d :: tr) = l ++ .turn r x u d :: newest tr := by
    rw [newest_append hbuf]
    rfl
  constructor
  · rintro ⟨r', x', u', d', hmem, hp⟩
    rw [hnew] at hmem
    rcases List.mem_append.mp hmem with hmem | hmem
    · exact absurd hmem (hl r' x' u' d')
    · rcases List.mem_cons.mp hmem with he | hmem
      · cases he
        exact .inl hp
      · exact .inr ⟨r', x', u', d', hmem, hp⟩
  · rintro (hp | ⟨r', x', u', d', hmem, hp⟩)
    · exact ⟨r, x, u, d, by rw [hnew]; exact List.mem_append_right l List.mem_cons_self, hp⟩
    · refine ⟨r', x', u', d', ?_, hp⟩
      rw [hnew]
      exact List.mem_append_right l (List.mem_cons_of_mem _ hmem)

end Newest

theorem Ctx.Owes.ended (type : FileType) (nxt : Next) (r : Routine) (d : ℕ) (out : List UInt8) (x : Ctx) :
    (nxt.ended r d out x).Owes type ↔ x.Owes type := by
  obtain ⟨p, q, he⟩ := nxt.ended_eq r d out x
  rw [he]
  rfl

/-- Bytes are held back just when an iteration has found the newest buffer to end within a token. -/
theorem owes_iff (type : FileType) : TraceInv (machine type) fun v =>
    SomeTurn (fun r x u _ => endsWithin r x.state.top u = true) v.trace ↔ v.ctx.Owes type where
  start := by
    refine iff_of_false ?_ fun h => h.1 rfl
    rintro ⟨r, x, u, d, hmem, -⟩
    exact List.not_mem_nil hmem
  next buf _ _ _ := iff_of_false not_someTurn_buffer fun h => h.1 rfl
  turn {v es y nxt k k' r' d tr} hv h hc _ hrule _ _ _ htr := by
    have hitems := Ev.buffer_notMem_items v.ctx es v.pending
    have hturns : ∀ r x u d, Item.turn r x u d ∉ (Ev.items v.ctx es v.pending).reverse :=
      fun r x u d hmem => Ev.turn_notMem_items v.ctx x r u d es v.pending (List.mem_reverse.mp hmem)
    have hnot : ¬ v.ctx.Owes type := fun ho => ho.1 hc
    rw [Ctx.Owes.ended, htr, someTurn_turn (fun hmem => hitems (List.mem_reverse.mp hmem)) hturns, h,
      rule_endsWithin_iff hrule hc, or_iff_left hnot]
  hold {v y} a hv h hc hrule _ := by
    have hnot : ¬ v.ctx.Owes type := fun ho => ho.1 hc
    have hsplit : SomeTurn (fun r x u _ => endsWithin r x.state.top u = true)
        ([.cacheCall a 0 v.pending] ++ .turn v.r v.ctx v.pending v.dstlen :: v.trace) ↔ _ :=
      someTurn_turn (by simp) (by simp)
    rw [Ctx.Owes.ended, ← rule_endsWithin_iff hrule hc]
    exact hsplit.trans (or_iff_left (mt h.mp hnot))
  done {v k r'} _ h _ := by
    rw [Ctx.Owes.ended]
    exact h

/-- When the last buffer of a response has been read, no byte outside a comment is held back, just
when no iteration on that buffer finds it to end within a token that it waits for. -/
theorem nothing_owed_iff {cap : Option ℕ} {type : FileType} {bufs : List (List UInt8)} {s : Session}
    (h : feedAll Flat cap type .start bufs = .ok s) :
    (s.ctx.cache = [] ∨ s.ctx.state.top ∈ stripStates type) ↔
      ∀ r x u d, .turn r x u d ∈ newest s.trace → endsWithin r x.state.top u = false := by
  obtain ⟨c, hreach, -, rfl, -⟩ := feedAll_ok h
  have howes := (owes_iff type).reach hreach
  have hleft : (c.ctx.cache = [] ∨ c.ctx.state.top ∈ stripStates type) ↔ ¬ c.ctx.Owes type := by
    unfold Ctx.Owes
    tauto
  have hright : (∀ r x u d, .turn r x u d ∈ newest c.settled → endsWithin r x.state.top u = false) ↔
      ¬ SomeTurn (fun r x u _ => endsWithin r x.state.top u = true) c.settled := by
    simp [SomeTurn]
  exact hleft.trans ((not_congr howes).symm.trans hright.symm)

/-- In the page `a<b  c><` the first `<` is held back for the second buffer, and the last one stays behind. -/
theorem nothing_owed_iff_lt : ∃ s, feedAll Flat none .html .start [lit "a<", lit "b  c><"] = .ok s ∧
    s.ctx.cache = [lt] ∧ ∃ r x u d, .turn r x u d ∈ newest s.trace ∧ endsWithin r x.state.top u = true := by
  obtain ⟨c, -, -, hrun⟩ := feedAll_reach .html [lit "a<", lit "b  c><"]
  have hs : feedAll Flat none .html .start [lit "a<", lit "b  c><"] = .ok c.session := by rw [feedAll_flat, hrun]
  have hend : (feedAll Stream none .html .start [lit "a<", lit "b  c><"]).map
      (fun s => (s.ctx.cache, s.ctx.state.top)) = .ok ([lt], .text) := by decide +kernel
  rw [hrun] at hend
  obtain ⟨hcache, htop⟩ := Prod.mk.inj (Except.ok.inj hend)
  have howed : ¬ (c.session.ctx.cache = [] ∨ c.session.ctx.state.top ∈ stripStates .html) := by
    rw [hcache, htop]
    decide
  rw [nothing_owed_iff hs] at howed
  push Not at howed
  obtain ⟨r, x, u, d, hmem, hends⟩ := howed
  exact ⟨c.session, hs, hcache, r, x, u, d, hmem, by simpa using hends⟩

/-- The `<` at the end of the page `<` stays behind. -/
theorem owed_lt : ¬ ∀ (type : FileType) (bufs : List (List UInt8)) (s : Session),
    feedAll Flat none type .start bufs = .ok s →
      s.ctx.cache = [] ∨ s.ctx.state.top ∈ stripStates type := by
  intro h
  obtain ⟨c, -, -, hrun⟩ := feedAll_reach .html [[lt]]
  have hend : (feedAll Stream none .html .start [[lt]]).map (fun s => (s.ctx.cache, s.ctx.state.top)) =
      .ok ([lt], .text) := by decide
  rw [hrun] at hend
  injection hend with hend
  obtain ⟨hcache, htop⟩ := Prod.mk.inj hend
  rcases h .html [[lt]] c.session (by rw [feedAll_flat, hrun]) with hnil | hst
  · rw [hnil] at hcache
    cases hcache
  · rw [htop] at hst
    exact absurd hst (by decide)

end NginB.Minify
