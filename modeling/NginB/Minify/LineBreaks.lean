import NginB.Minify.Adjacency
import NginB.Minify.Passage

/-! # Line breaks that a script loses

The text state drops a LF where `pre_char` says that it separates nothing. `pre_char` is the last
byte written, unless that byte closes a string or stands for a line comment.
-/
namespace NginB.Minify
open NginB.Program Relation Ascii

/-- The newest byte written in a trace, and the state it was written in. -/
def lastEmit (tr : List Item) : Option (MinifyState × UInt8) :=
  (lastWritten tr).map fun w => (w.st, w.byte)

section LastEmit
variable {l tr : List Item} {st : MinifyState} {b : UInt8}

theorem lastEmit_cons {i : Item} (h : i.emitted = []) : lastEmit (i :: tr) = lastEmit tr := by
  rw [lastEmit, lastEmit, lastWritten_cons h, Option.map_map]
  rfl

@[simp] theorem lastEmit_emit (c : UInt8) : lastEmit (.emit st c b :: tr) = some (st, b) := rfl

@[simp] theorem lastEmit_skip (c : UInt8) : lastEmit (.skip st c :: tr) = lastEmit tr := lastEmit_cons rfl
@[simp] theorem lastEmit_buffer : lastEmit (.buffer :: tr) = lastEmit tr := lastEmit_cons rfl

@[simp] theorem lastEmit_turn (r : Routine) (x : Ctx) (u : List UInt8) (d : ℕ) :
    lastEmit (.turn r x u d :: tr) = lastEmit tr := lastEmit_cons rfl

@[simp] theorem lastEmit_call (a : List UInt8) (n : ℕ) (u : List UInt8) :
    lastEmit (.cacheCall a n u :: tr) = lastEmit tr := lastEmit_cons rfl

@[simp] theorem lastEmit_stack (s : StateStack) : lastEmit (.stack s :: tr) = lastEmit tr := lastEmit_cons rfl

theorem lastEmit_head (h : lastEmit tr = some (st, b)) : ∃ out, emitted tr = b :: out := by
  obtain ⟨w, hw, he⟩ := Option.map_eq_some_iff.mp h
  have hhead : (emitted tr).head? = some w.byte := by rw [← lastWritten_emitted, hw]; rfl
  cases he
  exact List.head?_eq_some_iff.mp hhead

theorem lastEmit_none (h : lastEmit tr = none) : emitted tr = [] := by
  have hw : lastWritten tr = none := Option.map_eq_none_iff.mp h
  have hhead : (emitted tr).head? = none := by rw [← lastWritten_emitted, hw]; rfl
  exact List.head?_eq_none_iff.mp hhead

end LastEmit

/-- A LF may be dropped behind the bytes `out`, newest first: they are white space, or the last of
them that is no space is one after which a line break separates nothing. -/
def BreakAllowed (out : List UInt8) : Prop :=
  (∀ b ∈ out, isBlank b = true) ∨
    ∃ b ∈ out.find? (· ≠ space), b ∈ [lf, semicolon, colon, lbrace, rbrace]

/-- The last byte written, if there is one, was written by the text state and is no NUL. -/
def TextLast (tr : List Item) : Prop := ∀ p ∈ lastEmit tr, p.1 = .text ∧ p.2 ≠ nul

/-- A LF that is dropped behind `tr` may be dropped there, if the last byte written was written by the text
state and is no NUL, and otherwise only behind a line comment. -/
def BreakJudged (tr : List Item) : Prop :=
  (TextLast tr → BreakAllowed (emitted tr)) ∧
    (BreakAllowed (emitted tr) → TextLast tr ∨ ∃ b, lastEmit tr = some (.jsCommentLine, b))

theorem BreakJudged.turn {tr : List Item} (h : BreakJudged tr) (r : Routine) (x : Ctx) (u : List UInt8)
    (d : ℕ) : BreakJudged (.turn r x u d :: tr) := by
  simpa [BreakJudged, TextLast] using h

/-- Every LF that the text state has dropped is as `BreakJudged` says of the trace before it. -/
def BreaksJudged : List Item → Prop
  | [] => True
  | .skip st b :: tr => (st = .text → b = lf → BreakJudged tr) ∧ BreaksJudged tr
  | _ :: tr => BreaksJudged tr

theorem BreaksJudged.of_append {l tr : List Item} (h : BreaksJudged (l ++ tr)) : BreaksJudged tr := by
  induction l with
  | nil => exact h
  | cons i l ih =>
    cases i with
    | skip st b => exact ih h.2
    | _ => exact ih h

theorem BreaksJudged.append {l tr : List Item} (h : BreaksJudged tr) (hl : Item.skip .text lf ∉ l) :
    BreaksJudged (l ++ tr) := by
  induction l with
  | nil => exact h
  | cons i l ih =>
    have htail := ih fun hmem => hl (List.mem_cons_of_mem i hmem)
    cases i with
    | skip st b =>
      refine ⟨fun hst hb => absurd ?_ hl, htail⟩
      rw [hst, hb]
      exact List.mem_cons_self
    | _ => exact htail

/-- The bytes that close a string; `[` is treated as a quote. -/
def quoteBytes : List UInt8 := [dquote, squote, rbracket]

/-- What the last byte written, and its state, tell of `pre_char` outside strings. -/
structure BreakInv (st : MinifyState) (q p : UInt8) (last : Option (MinifyState × UInt8)) : Prop where
  quote : st = .jsQuote → q ∈ quoteBytes
  states : ∀ e ∈ last, e.1 ∈ [MinifyState.text, .jsQuote, .jsCommentLine]
  closed : st ≠ .jsQuote → ∀ b, last = some (.jsQuote, b) → b ∈ quoteBytes
  fresh : st ≠ .jsQuote → ∀ b, last = some (.text, b) → jsBreakRedundant p = true →
    jsBreakRedundant b = true

/-- Outside strings, without a byte written and with no other `pre_char` that makes a line break
redundant. -/
theorem BreakInv.move {st st' : MinifyState} {q p p' : UInt8} {last : Option (MinifyState × UInt8)}
    (h : BreakInv st q p last) (hst : st ≠ .jsQuote) (hst' : st' ≠ .jsQuote)
    (hp : jsBreakRedundant p' = true → jsBreakRedundant p = true) : BreakInv st' q p' last where
  quote hq := absurd hq hst'
  states := h.states
  closed _ := h.closed hst
  fresh _ b hb hp' := h.fresh hst b hb (hp hp')

section Rules
variable {x y : Ctx} {r : Routine} {u : List UInt8} {es : List Ev} {nxt : Next} {tr : List Item} {d : ℕ}

/-- What an iteration makes of it: where the text state writes, `pre_char` is updated. -/
theorem JsRule.breaks (h : JsRule d x r u es y nxt) (hy : y.cache = [])
    (hinv : BreakInv x.state.top x.quoteChar x.preChar (lastEmit tr)) :
    BreakInv y.state.top y.quoteChar y.preChar (lastEmit ((Ev.items x es u).reverse ++ tr)) ∨
      r = .jsStripBuffer ∧ nxt = .again ∧ y.nochangePre = false ∧ y.state.top = .text ∧
        emitted (Ev.items x es u) ≠ [] ∧
        ∃ b, lastEmit ((Ev.items x es u).reverse ++ tr) = some (.text, b) := by
  cases h
  case textByte hs _ _ _ | textSlash hs _ | textBreak hs _ =>
    exact .inr ⟨rfl, rfl, rfl, by simp [hs], by simp, _, by simp [hs]; rfl⟩
  case textQuote hs hb =>
    refine .inl ⟨fun _ => ?_, by simp [hs], fun hne => absurd rfl hne, fun hne => absurd rfl hne⟩
    rcases hb with rfl | rfl | rfl <;> simp [quoteBytes]
  case quoteEscape hs | quoteByte hs _ =>
    have hquote := hinv.quote (by rw [hs])
    exact .inl ⟨fun _ => hquote, by simp [hs], fun hne => by simp [hs] at hne, fun hne => by simp [hs] at hne⟩
  case quoteClose hs _ =>
    have hquote := hinv.quote (by rw [hs])
    exact .inl ⟨fun hq => by simp at hq, by simp [hs], by simpa [hs] using hquote, by simp [hs]⟩
  case lineEnd hs => exact .inl ⟨fun hq => by simp at hq, by simp [hs], by simp [hs], by simp [hs]⟩
  case textBreakDrop hs hp =>
    have hmove : BreakInv x.state.top x.quoteChar lf (lastEmit tr) :=
      hinv.move (by simp [hs]) (by simp [hs]) fun _ => hp
    exact .inl (by simpa using hmove)
  case textComment hs | textLine hs | commentClose hs =>
    exact .inl (by simpa using hinv.move (by simp [hs]) (by decide) id)
  case textBlank hs _ _ | textReturn hs | commentStar hs _ | commentByte hs _ | lineByte hs _ =>
    exact .inl (by simpa using hinv.move (by simp [hs]) (by simp [hs]) id)
  case commentLeave | quoteLeave | callComment | callQuote => exact .inl hinv
  all_goals simp at hy

theorem JsRule.drop_cases (h : JsRule d x r u es y nxt) : Item.skip .text lf ∉ Ev.items x es u ∨
    es = [.skip] ∧ u.head? = some lf ∧ x.state.top = .text ∧ jsBreakRedundant x.preChar = true := by
  cases h
  case textBreakDrop hs hp => exact .inr ⟨rfl, rfl, by simp [hs], hp⟩
  case textBlank hb _ => exact .inl (by rcases hb with rfl | rfl <;> simp)
  all_goals exact .inl (by simp_all [Ev.holds])

end Rules

def breakView (v : View) : Prop :=
  BreakInv v.ctx.state.top v.ctx.quoteChar v.ctx.preChar (lastEmit v.trace)

theorem BreakInv.refreshed {st : MinifyState} {q p : UInt8} {tr : List Item}
    (h : BreakInv st q p (lastEmit tr)) : BreakInv st q ((emitted tr).headD 0) (lastEmit tr) where
  quote := h.quote
  states := h.states
  closed := h.closed
  fresh _ b hb hp := by
    obtain ⟨out, hout⟩ := lastEmit_head hb
    rwa [hout] at hp

theorem BreakInv.written {st : MinifyState} {q b : UInt8} {tr : List Item} (hst : st = .text)
    (hb : lastEmit tr = some (.text, b)) : BreakInv st q ((emitted tr).headD 0) (lastEmit tr) where
  quote hq := by simp [hst] at hq
  states := by simp [hb]
  closed _ c hc := by simp [hb] at hc
  fresh _ c hc hp := by
    obtain ⟨out, hout⟩ := lastEmit_head hc
    rwa [hout] at hp

/-- An update of `pre_char` takes the last byte written. -/
theorem BreakInv.ended {nxt : Next} {r : Routine} {d : ℕ} {tr : List Item} {y : Ctx}
    (h : BreakInv y.state.top y.quoteChar y.preChar (lastEmit tr)) :
    BreakInv (nxt.ended r d (emitted tr) y).state.top (nxt.ended r d (emitted tr) y).quoteChar
      (nxt.ended r d (emitted tr) y).preChar (lastEmit tr) := by
  rw [Next.ended_state, Next.ended_quoteChar]
  rcases nxt.ended_pre r d (emitted tr) y with hp | hp
  · rwa [hp]
  · rw [hp]
    exact h.refreshed

theorem breakInv : TraceInv jsMachine breakView where
  start := ⟨fun hq => absurd hq (by decide), by simp [lastEmit], by simp [lastEmit], by simp [lastEmit]⟩
  next {v} buf _ h _ := by
    unfold breakView
    rw [lastEmit_buffer]
    exact h
  turn {v es y nxt k k' r' d tr} hv h hc hy hrule hgo _ hd htr := by
    have hrule' : JsRule v.dstlen v.ctx v.r v.pending es y nxt := hrule
    have hold : BreakInv v.ctx.state.top v.ctx.quoteChar v.ctx.preChar
        (lastEmit (.turn v.r v.ctx v.pending v.dstlen :: v.trace)) := by
      rw [lastEmit_turn]
      exact h
    rcases hrule'.breaks hy hold with hinv | ⟨hr, rfl, hno, hst, hwrites, b, hb⟩
    · rw [← htr] at hinv
      exact hinv.ended
    · have hne : emitted (Ev.items v.ctx es v.pending) ≠ [] := hwrites
      have hpos : d ≠ 0 := by
        have hlen := List.length_pos_of_ne_nil hne
        omega
      cases hgo
      have hpre := Next.ended_refreshed (r := v.r) (by rw [hr]; rfl) hno hpos (emitted tr)
      have hinv : BreakInv y.state.top y.quoteChar ((emitted tr).headD 0) (lastEmit tr) := by
        rw [htr]
        exact .written hst hb
      unfold breakView
      simp only [Next.ended_state, Next.ended_quoteChar, hpre]
      exact hinv
  hold {v y} a hv h _ _ hy := by
    have hold : BreakInv y.state.top y.quoteChar y.preChar (lastEmit v.trace) := by cases hy <;> exact h
    unfold breakView
    rw [lastEmit_call, lastEmit_turn]
    exact hold.ended
  done _ h _ := BreakInv.ended h

/-- Where the text state drops a LF, the last byte written tells whether it may. -/
theorem BreakInv.judged {st : MinifyState} {q p : UInt8} {tr : List Item}
    (h : BreakInv st q p (lastEmit tr)) (hst : st = .text) (hp : jsBreakRedundant p = true) : BreakJudged tr := by
  have hne : st ≠ .jsQuote := by simp [hst]
  cases hlast : lastEmit tr with
  | none =>
    have hnil : emitted tr = [] := lastEmit_none hlast
    have htext : TextLast tr := by simp [TextLast, hlast]
    exact ⟨fun _ => .inl (by simp [hnil]), fun _ => .inl htext⟩
  | some e =>
    obtain ⟨st', b⟩ := e
    obtain ⟨out, hout⟩ := lastEmit_head hlast
    -- a byte that is neither white space nor one of the five allows no drop
    have hnot (hb : b ∈ nul :: quoteBytes) : ¬ BreakAllowed (emitted tr) := by
      rw [hout]
      simp only [quoteBytes, List.mem_cons, List.not_mem_nil, or_false] at hb
      rcases hb with rfl | rfl | rfl | rfl <;> simp [BreakAllowed, isBlank]
    have hstates : st' ∈ [MinifyState.text, .jsQuote, .jsCommentLine] := h.states _ hlast
    simp only [List.mem_cons, List.not_mem_nil, or_false] at hstates
    rcases hstates with rfl | rfl | rfl
    · have hb : jsBreakRedundant b = true := h.fresh hne b hlast hp
      refine ⟨fun htext => ?_, fun hallowed => .inl ?_⟩
      · have hb0 : b ≠ 0 := (htext _ hlast).2
        have hfive : b ∈ [lf, semicolon, colon, lbrace, rbrace] := by
          simpa [jsBreakRedundant, hb0, or_assoc] using hb
        have hsp : b ≠ space := by
          rintro rfl
          exact absurd hfive (by decide)
        exact .inr ⟨b, by simp [hout, hsp], hfive⟩
      · intro e he
        cases hlast.symm.trans he
        refine ⟨rfl, fun hb0 : b = nul => hnot ?_ hallowed⟩
        rw [hb0]
        exact List.mem_cons_self
    · have hb : b ∈ quoteBytes := h.closed hne b hlast
      refine ⟨fun htext => ?_, fun hallowed => absurd hallowed (hnot (List.mem_cons_of_mem _ hb))⟩
      have htop : MinifyState.jsQuote = .text := (htext _ hlast).1
      cases htop
    · refine ⟨fun htext => ?_, fun _ => .inr ⟨b, hlast⟩⟩
      have htop : MinifyState.jsCommentLine = .text := (htext _ hlast).1
      cases htop

theorem JsRule.judged {x y : Ctx} {r : Routine} {u : List UInt8} {es : List Ev} {nxt : Next} {tr : List Item}
    {d : ℕ} (h : JsRule d x r u es y nxt) (hinv : BreakInv x.state.top x.quoteChar x.preChar (lastEmit tr))
    (htr : BreaksJudged tr) : BreaksJudged ((Ev.items x es u).reverse ++ .turn r x u d :: tr) := by
  have hturn : BreaksJudged (.turn r x u d :: tr) := htr
  rcases h.drop_cases with hnot | ⟨rfl, hhead, hs, hp⟩
  · exact hturn.append fun hmem => hnot (List.mem_reverse.mp hmem)
  · have hjudged : BreakJudged tr := hinv.judged hs hp
    exact ⟨fun _ _ => hjudged.turn r x u d, hturn⟩

theorem breaksJudged : TraceInv jsMachine fun v => breakView v ∧ BreaksJudged v.trace where
  start := ⟨breakInv.start, trivial⟩
  next buf hv h hr := ⟨breakInv.next buf hv h.1 hr, h.2⟩
  turn {v es y nxt k k' r' d tr} hv h hc hy hrule hgo hk hd htr := by
    have hrule' : JsRule v.dstlen v.ctx v.r v.pending es y nxt := hrule
    refine ⟨breakInv.turn hv h.1 hc hy hrule hgo hk hd htr, ?_⟩
    rw [htr]
    exact hrule'.judged h.1 h.2
  hold a hv h hc hrule hy := ⟨breakInv.hold a hv h.1 hc hrule hy, h.2⟩
  done hv h hk := ⟨breakInv.done hv h.1 hk, h.2⟩

/-- Whenever the text state drops a LF, the bytes written so far allow it if the last of them was written by
the text state and is no NUL; otherwise they do so only where the last byte stands for a line comment. -/
theorem break_drops {cap : Option ℕ} {bufs : List (List UInt8)} {s : Session}
    (h : feedAll Flat cap .js .start bufs = .ok s) {newer older : List Item}
    (htr : s.trace = newer ++ .skip .text lf :: older) :
    (TextLast older → BreakAllowed (emitted older)) ∧
      (BreakAllowed (emitted older) → TextLast older ∨ ∃ b, lastEmit older = some (.jsCommentLine, b)) := by
  obtain ⟨c, hreach, -, rfl, -⟩ := feedAll_ok h
  have hjudged : BreaksJudged c.settled := (breaksJudged.reach hreach).2
  have htr' : c.settled = newer ++ .skip .text lf :: older := htr
  rw [htr'] at hjudged
  exact hjudged.of_append.1 rfl rfl

/-- The LF of the script `a;`, LF, cut in front of the LF. -/
theorem break_drops_semicolon : ∃ s older, feedAll Flat none .js .start [lit "a;", [lf]] = .ok s ∧
    s.trace = .skip .text lf :: older ∧ BreakAllowed (emitted older) := by
  obtain ⟨s, hs, hf⟩ : ∃ s, feedAll Flat none .js .start [lit "a;", [lf]] = .ok s ∧
      (s.trace.head?, lastEmit s.trace.tail) = (some (.skip .text lf), some (.text, semicolon)) :=
    exists_run (f := fun s => (s.trace.head?, lastEmit s.trace.tail)) (by decide)
  obtain ⟨hhead, hlast⟩ := Prod.mk.inj hf
  obtain ⟨older, htr⟩ := List.head?_eq_some_iff.mp hhead
  rw [htr, List.tail_cons] at hlast
  have htext : TextLast older := by
    rw [TextLast, hlast]
    rintro _ ⟨⟩
    exact ⟨rfl, by decide⟩
  have htrace : s.trace = [] ++ .skip .text lf :: older := htr
  exact ⟨s, older, hs, htr, (break_drops hs htrace).1 htext⟩

/-- The LF behind the string of the script `""`, LF is dropped. -/
theorem break_lost : ¬ ∀ (bufs : List (List UInt8)) (s : Session) (newer older : List Item),
    feedAll Flat none .js .start bufs = .ok s → s.trace = newer ++ .skip .text lf :: older →
      BreakAllowed (emitted older) := by
  intro h
  obtain ⟨s, hs, hrun⟩ : ∃ s, feedAll Flat none .js .start [[dquote, dquote, lf]] = .ok s ∧
      (s.trace.head?, emitted s.trace) = (some (.skip .text lf), [dquote, dquote]) :=
    exists_run (f := fun s => (s.trace.head?, emitted s.trace)) (by decide)
  obtain ⟨hhead, hall⟩ := Prod.mk.inj hrun
  obtain ⟨older, htr⟩ := List.head?_eq_some_iff.mp hhead
  have hold : emitted older = [dquote, dquote] := by
    rw [htr] at hall
    exact hall
  have hallowed := h _ s [] older hs htr
  rw [hold] at hallowed
  simp [BreakAllowed, isBlank] at hallowed

end NginB.Minify
