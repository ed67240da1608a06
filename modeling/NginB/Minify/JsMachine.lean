import NginB.Minify.Machine
import NginB.Minify.Js

/-! # The rules of the JavaScript minifier

One constructor for each way an iteration of the three loops can go in a reachable
state, the proof that the code does what the rules say, and the machine they make.
-/
namespace NginB.Minify
open NginB.Program Relation Ascii

/-- When a blank of the text is dropped; `d` bytes of this buffer have been written. -/
def jsBlankRedundant (d : ℕ) (x : Ctx) : Prop :=
  x.preChar = lf ∨ d = 0 ∨ x.preChar = space ∨ x.preChar = tab

/-- The context after a quote `b`, `[` included, has been opened. -/
@[simp] def Ctx.openQuote (b : UInt8) (x : Ctx) : Ctx :=
  { x with
    state := ⟨.jsQuote, [.text]⟩, nochangePre := true
    quoteChar := if b = lbracket then rbracket else b }

@[simp] def Ctx.atBreak (x : Ctx) : Ctx := { x with preChar := lf, preChar2 := nul }

inductive JsRule (d : ℕ) (x : Ctx) : Routine → List UInt8 → List Ev → Ctx → Next → Prop
  -- ngx_minify_js_strip_comment
  | commentClose {t} (hs : x.state = ⟨.jsComment, [.text]⟩) :
      JsRule d x .jsStripComment (lit "*/" ++ t) [.skip, .skip, .stack ⟨.text, []⟩]
        { x with state := ⟨.text, []⟩ } .again
  | commentStar {b t} (hs : x.state = ⟨.jsComment, [.text]⟩) (hb : b ≠ slash) :
      JsRule d x .jsStripComment (star :: b :: t) [.skip] x .again
  | commentHold (hs : x.state = ⟨.jsComment, [.text]⟩) :
      JsRule d x .jsStripComment [star] (Ev.holds (lit "*") [star]) (x.hold [star]) .again
  | commentByte {b t} (hs : x.state = ⟨.jsComment, [.text]⟩) (hb : b ≠ star) :
      JsRule d x .jsStripComment (b :: t) [.skip] x .again
  | lineEnd {t} (hs : x.state = ⟨.jsCommentLine, [.text]⟩) :
      JsRule d x .jsStripComment (lf :: t) [.put space, .stack ⟨.text, []⟩]
        { x.atBreak with state := ⟨.text, []⟩ } .again
  | lineByte {b t} (hs : x.state = ⟨.jsCommentLine, [.text]⟩) (hb : b ≠ lf) :
      JsRule d x .jsStripComment (b :: t) [.skip] x .again
  | commentLeave {rest} (hs : x.state = ⟨.text, []⟩) :
      JsRule d x .jsStripComment rest [] x .leave
  -- ngx_minify_js_strip_quote
  | quoteEscape {b t} (hs : x.state = ⟨.jsQuote, [.text]⟩) :
      JsRule d x .jsStripQuote (backslash :: b :: t) [.copy, .copy] x .again
  | quoteHold (hs : x.state = ⟨.jsQuote, [.text]⟩) :
      JsRule d x .jsStripQuote [backslash] (Ev.holds (lit "\\") [backslash])
        (x.hold [backslash]) .again
  | quoteClose {t} (hs : x.state = ⟨.jsQuote, [.text]⟩) (hq : x.quoteChar ≠ backslash) :
      JsRule d x .jsStripQuote (x.quoteChar :: t) [.copy, .stack ⟨.text, []⟩]
        { x with state := ⟨.text, []⟩ } .again
  | quoteByte {b t} (hs : x.state = ⟨.jsQuote, [.text]⟩) (hb : b ≠ backslash ∧ b ≠ x.quoteChar) :
      JsRule d x .jsStripQuote (b :: t) [.copy] x .again
  | quoteLeave {rest} (hs : x.state = ⟨.text, []⟩) : JsRule d x .jsStripQuote rest [] x .leave
  -- ngx_minify_js_strip_buffer
  | textBlank {b t} (hs : x.state = ⟨.text, []⟩) (hb : b = space ∨ b = tab)
      (hp : jsBlankRedundant d x) :
      JsRule d x .jsStripBuffer (b :: t) [.skip] (x.freeze true) .again
  | textComment {t} (hs : x.state = ⟨.text, []⟩) :
      JsRule d x .jsStripBuffer (lit "/*" ++ t) [.skip, .skip, .stack ⟨.jsComment, [.text]⟩]
        { x.freeze false with state := ⟨.jsComment, [.text]⟩ } .again
  | textLine {t} (hs : x.state = ⟨.text, []⟩) :
      JsRule d x .jsStripBuffer (lit "//" ++ t) [.skip, .skip, .stack ⟨.jsCommentLine, [.text]⟩]
        { x.freeze false with state := ⟨.jsCommentLine, [.text]⟩ } .again
  | textSlash {b t} (hs : x.state = ⟨.text, []⟩) (hb : b ≠ star ∧ b ≠ slash) :
      JsRule d x .jsStripBuffer (slash :: b :: t) [.copy, .copy] (x.freeze false) .again
  | textHold (hs : x.state = ⟨.text, []⟩) :
      JsRule d x .jsStripBuffer [slash] (Ev.holds (lit "/") [slash])
        ((x.hold [slash]).freeze false) .again
  | textQuote {b t} (hs : x.state = ⟨.text, []⟩) (hb : b = dquote ∨ b = squote ∨ b = lbracket) :
      JsRule d x .jsStripBuffer (b :: t) [.copy, .stack ⟨.jsQuote, [.text]⟩]
        (x.openQuote b) .again
  | textBreak {t} (hs : x.state = ⟨.text, []⟩) (hp : jsBreakRedundant x.preChar = false) :
      JsRule d x .jsStripBuffer (lf :: t) [.copy] (x.freeze false) .again
  | textBreakDrop {t} (hs : x.state = ⟨.text, []⟩) (hp : jsBreakRedundant x.preChar = true) :
      JsRule d x .jsStripBuffer (lf :: t) [.skip] (x.atBreak.freeze true) .again
  | textReturn {t} (hs : x.state = ⟨.text, []⟩) :
      JsRule d x .jsStripBuffer (cr :: t) [.skip] (x.freeze true) .again
  | textByte {b t} (hs : x.state = ⟨.text, []⟩) (hb : b ≠ slash ∧ b ≠ lf ∧ b ≠ cr)
      (hq : b ≠ dquote ∧ b ≠ squote ∧ b ≠ lbracket)
      (hp : ¬((b = space ∨ b = tab) ∧ jsBlankRedundant d x)) :
      JsRule d x .jsStripBuffer (b :: t) [.copy] (x.freeze false) .again
  | callComment {rest} (hs : x.state ∈ [⟨.jsComment, [.text]⟩, ⟨.jsCommentLine, [.text]⟩]) :
      JsRule d x .jsStripBuffer rest [] (x.freeze true) (.call .jsStripComment)
  | callQuote {rest} (hs : x.state = ⟨.jsQuote, [.text]⟩) :
      JsRule d x .jsStripBuffer rest [] (x.freeze true) (.call .jsStripQuote)

def jsStates : Routine → List StateStack
  | .jsStripBuffer =>
    [⟨.text, []⟩, ⟨.jsComment, [.text]⟩, ⟨.jsCommentLine, [.text]⟩, ⟨.jsQuote, [.text]⟩]
  | .jsStripQuote => [⟨.text, []⟩, ⟨.jsQuote, [.text]⟩]
  | .jsStripComment => [⟨.text, []⟩, ⟨.jsComment, [.text]⟩, ⟨.jsCommentLine, [.text]⟩]
  | _ => []

def jsCallers : Routine → List Routine
  | .jsStripQuote | .jsStripComment => [.jsStripBuffer]
  | _ => []

structure JsFit (r : Routine) (x : Ctx) (rest : List UInt8) : Prop where
  stack : x.state ∈ jsStates r
  held : x.cache = [] ∨ rest = []

theorem jsStates_top {r : Routine} {s : StateStack} (h : s ∈ jsStates r) :
    s.top ∈ [MinifyState.text, .jsComment, .jsCommentLine, .jsQuote] := by
  revert h
  revert s
  cases r <;> decide

def jsRank : Routine → MinifyState → ℕ
  | .jsStripBuffer, _ => 1
  | _, .text => 2
  | _, _ => 0

section Run
variable {x y : Ctx} {r : Routine} {rest out : List UInt8} {tr : List Item} {es : List Ev}
  {nxt : Next} {d : ℕ}

theorem JsRule.comment_run (h : JsRule d x .jsStripComment rest es y nxt) (hc : x.cache = []) :
    (jsStripCommentTurn (B := Stream)).run ⟨x, ⟨rest, out⟩, tr⟩ =
      .ok (decide (nxt = .leave), Conf.turned ⟨x, ⟨rest, out⟩, tr⟩ .jsStripComment es y) := by
  unfold jsStripCommentTurn jsStripCommentSwitch Conf.turned
  cases h with
  | @commentClose t hs =>
    have h2 : (2 : ℤ) ≤ t.length + 1 + 1 := by omega
    simp [hs, h2]
  | @commentStar b t hs hb =>
    have h2 : (2 : ℤ) ≤ t.length + 1 + 1 := by omega
    simp [hs, h2, hb]
  | commentHold hs => simp [hs, hc, cache_hold_run, cacheable]
  | commentByte hs hb => simp [hs, hb]
  | lineEnd hs => simp [hs]
  | lineByte hs hb => simp [hs, hb]
  | commentLeave hs => simp [hs]

theorem JsRule.quote_run (h : JsRule d x .jsStripQuote rest es y nxt) (hc : x.cache = []) :
    (jsStripQuoteTurn (B := Stream)).run ⟨x, ⟨rest, out⟩, tr⟩ =
      .ok (decide (nxt = .leave), Conf.turned ⟨x, ⟨rest, out⟩, tr⟩ .jsStripQuote es y) := by
  unfold jsStripQuoteTurn jsStripQuoteSwitch Conf.turned
  cases h with
  | @quoteEscape b t hs =>
    have h2 : (1 : ℤ) < t.length + 1 + 1 := by omega
    simp [hs, h2]
  | quoteHold hs => simp [hs, hc, cache_hold_run, cacheable]
  | quoteClose hs hq => simp [hs, hq]
  | quoteByte hs hb =>
    have hb' := Ne.symm hb.2
    simp [hs, hb, hb']
  | quoteLeave hs => simp [hs]

/-- The first test of the code under which a blank is dropped. -/
theorem jsBlankRedundant_first {b : UInt8} (hb : b = space ∨ b = tab)
    (h : x.preChar = lf ∨ d = 0) : (b = space ∧ x.preChar = lf) ∨ (b = tab ∧ x.preChar = lf) ∨
      (d = 0 ∧ (b = space ∨ b = tab)) := by
  unfold Ascii.space Ascii.tab Ascii.lf at *
  tauto

theorem JsRule.buffer_run {fuel : ℕ} (h : JsRule out.length x .jsStripBuffer rest es y nxt)
    (hc : x.cache = []) (hn : ∀ r, nxt ≠ .call r) :
    (jsStripBufferTurn fuel).run ⟨x, ⟨rest, out⟩, tr⟩ =
      .ok (false, Routine.finish .jsStripBuffer
        (Conf.turned ⟨x, ⟨rest, out⟩, tr⟩ .jsStripBuffer es y)) := by
  unfold jsStripBufferTurn jsStripBufferSwitch Conf.turned Routine.finish Routine.refreshes
  cases h with
  | @textBlank b t hs hb hp =>
    by_cases hfirst : x.preChar = lf ∨ out.length = 0
    · have h1 := jsBlankRedundant_first hb hfirst
      simp at h1
      simp [hs, h1, jsStateText]
    · rw [not_or] at hfirst
      have h2 : x.preChar = 32 ∨ x.preChar = 9 := by
        rcases hp with hp | hp | hp
        · exact absurd hp hfirst.1
        · exact absurd hp hfirst.2
        · exact hp
      have h3 : ¬ out = [] := fun he => hfirst.2 (by rw [he]; rfl)
      rcases hb with rfl | rfl <;> simp [hs, hfirst.1, h2, h3, jsStateText]
  | @textComment t hs =>
    have h2 : (2 : ℤ) ≤ t.length + 1 + 1 := by omega
    simp [hs, h2, jsStateText]
  | @textLine t hs =>
    have h2 : (2 : ℤ) ≤ t.length + 1 + 1 := by omega
    simp [hs, h2, jsStateText]
  | @textSlash b t hs hb =>
    have h2 : (2 : ℤ) ≤ t.length + 1 + 1 := by omega
    simp [hs, h2, hb, jsStateText]
  | textHold hs => simp [hs, hc, cache_hold_run, cacheable, jsStateText]
  | textQuote hs hb => rcases hb with rfl | rfl | rfl <;> simp [hs, jsStateText]
  | textBreak hs hp => simp [hs, hp, jsStateText]
  | textBreakDrop hs hp => simp [hs, hp, jsStateText]
  | textReturn hs => simp [hs, jsStateText]
  | @textByte b t hs hb hq hp =>
    by_cases hblank : b = space ∨ b = tab
    · have hp' : ¬ jsBlankRedundant out.length x := fun h => hp ⟨hblank, h⟩
      unfold jsBlankRedundant at hp'
      simp only [not_or] at hp'
      obtain ⟨h1, h2, h3, h4⟩ := hp'
      have h5 : ¬ out = [] := fun he => h2 (by rw [he]; rfl)
      rcases hblank with rfl | rfl <;> simp [hs, h1, h3, h4, h5, jsStateText]
    · rw [not_or] at hblank
      simp [hs, hb, hq, hblank, jsStateText]
  | callComment hs | callQuote hs => exact absurd rfl (hn _)

def jsCallee (fuel : ℕ) : Routine → MinifyM Stream Unit
  | .jsStripQuote => ngxMinifyJsStripQuote fuel
  | _ => ngxMinifyJsStripComment fuel

theorem JsRule.buffer_call_run {fuel : ℕ} (h : JsRule d x .jsStripBuffer rest es y (.call r)) :
    (jsStripBufferTurn fuel).run ⟨x, ⟨rest, out⟩, tr⟩ =
      (do jsCallee fuel r; refreshPre; return false : MinifyM Stream Bool).run
        (Conf.turned ⟨x, ⟨rest, out⟩, tr⟩ .jsStripBuffer es y) := by
  unfold jsStripBufferTurn jsStripBufferSwitch
  rw [bind_run (visit_run _), bind_assoc, bind_run (ctxState_run _)]
  cases h with
  | callComment hs =>
    rcases List.mem_pair.mp hs with hs | hs <;> simp only [hs, bind_assoc] <;>
      exact bind_run (modifyCtx_run _ _)
  | callQuote hs =>
    simp only [hs, bind_assoc]
    exact bind_run (modifyCtx_run _ _)

end Run

section Safe
variable {x y : Ctx} {r : Routine} {rest t : List UInt8} {es : List Ev} {nxt : Next} {b : UInt8}
  {d : ℕ}

theorem JsRule.comment_applies (h : x.state ∈ jsStates .jsStripComment) :
    ∃ es y nxt, JsRule d x .jsStripComment (b :: t) es y nxt := by
  simp only [jsStates, List.mem_cons, List.not_mem_nil, or_false] at h
  rcases h with hs | hs | hs
  · exact ⟨_, _, _, .commentLeave hs⟩
  · by_cases hb : b = star
    · subst hb
      rcases t with _ | ⟨c, t⟩
      · exact ⟨_, _, _, .commentHold hs⟩
      by_cases hc : c = slash
      · subst hc
        exact ⟨_, _, _, .commentClose (t := t) hs⟩
      · exact ⟨_, _, _, .commentStar hs hc⟩
    · exact ⟨_, _, _, .commentByte hs hb⟩
  · by_cases hb : b = lf
    · subst hb
      exact ⟨_, _, _, .lineEnd hs⟩
    · exact ⟨_, _, _, .lineByte hs hb⟩

theorem JsRule.quote_applies (h : x.state ∈ jsStates .jsStripQuote) :
    ∃ es y nxt, JsRule d x .jsStripQuote (b :: t) es y nxt := by
  rcases List.mem_pair.mp h with hs | hs
  · exact ⟨_, _, _, .quoteLeave hs⟩
  by_cases hb : b = backslash
  · subst hb
    rcases t with _ | ⟨c, t⟩
    · exact ⟨_, _, _, .quoteHold hs⟩
    · exact ⟨_, _, _, .quoteEscape hs⟩
  by_cases hq : b = x.quoteChar
  · subst hq
    exact ⟨_, _, _, .quoteClose hs hb⟩
  · exact ⟨_, _, _, .quoteByte hs ⟨hb, hq⟩⟩

theorem JsRule.text_applies (hs : x.state = ⟨.text, []⟩) :
    ∃ es y nxt, JsRule d x .jsStripBuffer (b :: t) es y nxt := by
  by_cases hbl : (b = space ∨ b = tab) ∧ jsBlankRedundant d x
  · exact ⟨_, _, _, .textBlank hs hbl.1 hbl.2⟩
  by_cases hsl : b = slash
  · subst hsl
    rcases t with _ | ⟨c, t⟩
    · exact ⟨_, _, _, .textHold hs⟩
    by_cases hst : c = star
    · subst hst
      exact ⟨_, _, _, .textComment (t := t) hs⟩
    by_cases hc : c = slash
    · subst hc
      exact ⟨_, _, _, .textLine (t := t) hs⟩
    · exact ⟨_, _, _, .textSlash hs ⟨hst, hc⟩⟩
  by_cases hq : b = dquote ∨ b = squote ∨ b = lbracket
  · exact ⟨_, _, _, .textQuote hs hq⟩
  by_cases hlf : b = lf
  · subst hlf
    rcases hp : jsBreakRedundant x.preChar with _ | _
    · exact ⟨_, _, _, .textBreak hs hp⟩
    · exact ⟨_, _, _, .textBreakDrop hs hp⟩
  by_cases hcr : b = cr
  · subst hcr
    exact ⟨_, _, _, .textReturn hs⟩
  · rw [not_or, not_or] at hq
    exact ⟨_, _, _, .textByte hs ⟨hsl, hlf, hcr⟩ hq hbl⟩

theorem JsFit.applies (h : JsFit r x rest) (hne : rest ≠ []) :
    ∃ es y nxt, JsRule d x r rest es y nxt := by
  obtain ⟨b, t, rfl⟩ := List.exists_cons_of_ne_nil hne
  have hx := h.stack
  cases r with
  | jsStripBuffer =>
    simp only [jsStates, List.mem_cons, List.not_mem_nil, or_false] at hx
    rcases hx with hs | hs | hs | hs
    · exact JsRule.text_applies hs
    · exact ⟨_, _, _, .callComment (by simp [hs])⟩
    · exact ⟨_, _, _, .callComment (by simp [hs])⟩
    · exact ⟨_, _, _, .callQuote hs⟩
  | jsStripQuote => exact JsRule.quote_applies hx
  | jsStripComment => exact JsRule.comment_applies hx
  | htmlStripBuffer | htmlStripTag | htmlStripTagname | htmlStripComment | cssStripBuffer
  | cssStripBrace | cssStripQuote | cssStripComment => cases hx

theorem JsRule.takes_le (h : JsRule d x r rest es y nxt) : Ev.takes es ≤ rest.length := by
  cases h <;> simp

theorem JsRule.held (h : JsRule d x r rest es y nxt) (hx : x.cache = []) :
    y.cache = [] ∨ Holds x rest es y nxt := by
  cases h <;> first
    | exact .inl hx | exact .inr ⟨.plain, rfl, _, rfl⟩ | exact .inr ⟨.text (by simp [*]), rfl, _, rfl⟩

theorem JsRule.stack {r' : Routine} {k k' : List Routine} (h : JsRule d x r rest es y nxt)
    (hk : k = jsCallers r) (hgo : nxt.Goes r k r' k') :
    k' = jsCallers r' ∧ y.state ∈ jsStates r' := by
  cases hgo with
  | again =>
    refine ⟨hk, ?_⟩
    cases h <;> simp_all [jsStates]
  | call =>
    cases h with
    | callComment hs =>
      refine ⟨by rw [hk]; rfl, ?_⟩
      rcases List.mem_pair.mp hs with hs | hs <;> simp [jsStates, hs]
    | callQuote hs => exact ⟨by rw [hk]; rfl, by simp [jsStates, hs]⟩
  | leave => cases h <;> (cases hk; exact ⟨rfl, by simp_all [jsStates]⟩)

theorem jsRank_lt (r : Routine) (st : MinifyState) : jsRank r st < 16 := by
  cases r <;> cases st <;> decide

/-- A rule consumes a byte or goes to a state of lower rank. -/
theorem JsRule.lowers {r' : Routine} {k k' : List Routine} (h : JsRule d x r rest es y nxt)
    (hk : k = jsCallers r) (hgo : nxt.Goes r k r' k') :
    0 < Ev.takes es ∨ jsRank r' y.state.top < jsRank r x.state.top := by
  cases hgo with
  | again => cases h <;> exact .inl (by simp)
  | call =>
    refine .inr ?_
    cases h with
    | callComment hs => rcases List.mem_pair.mp hs with hs | hs <;> simp [hs, jsRank]
    | callQuote hs => simp [hs, jsRank]
  | leave => cases h <;> (cases hk; exact .inr (by simp_all [jsRank]))

theorem JsRule.calls {r' : Routine} (h : JsRule d x r rest es y (.call r')) :
    r = .jsStripBuffer ∧ r' ∈ [.jsStripComment, .jsStripQuote] := by
  cases h <;> decide

theorem JsRule.leaves (h : JsRule d x r rest es y .leave) : r ≠ .jsStripBuffer := by
  cases h <;> decide

theorem jsCallers_top : [] = jsCallers .jsStripBuffer := rfl

def jsMachine : Machine where
  rule := JsRule
  top := .jsStripBuffer
  callers r k := k = jsCallers r
  Fit := JsFit
  rank := jsRank
  rank_lt := jsRank_lt
  callers_top := jsCallers_top
  callers_lt {r k} h := by
    rw [h]
    cases r <;> decide
  takes_le h := h.takes_le
  idle h := h.held
  holds h hx := h.held hx
  applies _ h hne := h.applies hne
  keeps h hf hne hk hgo := by
    obtain ⟨hk', hx'⟩ := h.stack hk hgo
    exact ⟨hk', hx', held_of_holds (h.held (hf.held.resolve_right hne))⟩
  lowers h _ hk hgo := h.lowers hk hgo
  done {r x r' k} hf hk := by
    have hx := hf.stack
    refine ⟨?_, ?_, hf.held⟩
    · cases r <;> cases hk <;> rfl
    · revert hx
      generalize x.state = s
      revert s
      cases r <;> cases hk <;> decide
  pre p q h := ⟨h.stack, h.held⟩
  start rest := ⟨by decide, .inl rfl⟩
  resume buf h := ⟨h.stack, .inl rfl⟩

end Safe

section Follows
variable {fuel : ℕ} {r r₁ : Routine} {k : List Routine} {c : Conf Stream}

theorem js_quote_serves (hc : jsMachine.Good ⟨.jsStripQuote, r :: k, c⟩)
    (hf : jsMachine.measure ⟨.jsStripQuote, r :: k, c⟩ < fuel) :
    jsMachine.Serves (jsCallee fuel .jsStripQuote) .jsStripQuote r k c := by
  refine jsMachine.loop_serves (fun c hc _ hne => ?_) hc hf
  have hfit : JsFit _ _ _ := hc.fit
  obtain ⟨es, y, nxt, h⟩ := hfit.applies hne
  refine jsMachine.turns_rule hne h (fun r' he => ?_) ?_
  · subst he
    have hcall := h.calls
    simp at hcall
  · rw [h.quote_run (hfit.held.resolve_right hne)]
    split <;> rfl

theorem js_comment_serves (hc : jsMachine.Good ⟨.jsStripComment, r :: k, c⟩)
    (hf : jsMachine.measure ⟨.jsStripComment, r :: k, c⟩ < fuel) :
    jsMachine.Serves (jsCallee fuel .jsStripComment) .jsStripComment r k c := by
  refine jsMachine.loop_serves (fun c hc _ hne => ?_) hc hf
  have hfit : JsFit _ _ _ := hc.fit
  obtain ⟨es, y, nxt, h⟩ := hfit.applies hne
  refine jsMachine.turns_rule hne h (fun r' he => ?_) ?_
  · subst he
    have hcall := h.calls
    simp at hcall
  · rw [h.comment_run (hfit.held.resolve_right hne)]
    split <;> rfl

theorem js_buffer_turns (hc : jsMachine.Good ⟨.jsStripBuffer, [], c⟩)
    (hf : jsMachine.measure ⟨.jsStripBuffer, [], c⟩ < fuel) (hne : c.buf.rest ≠ []) :
    jsMachine.TopTurns (jsStripBufferTurn fuel) c := by
  have hfit : JsFit _ _ _ := hc.fit
  obtain ⟨es, y, nxt, h⟩ := hfit.applies (d := c.buf.out.length) hne
  cases nxt with
  | again =>
    exact ⟨_, h.buffer_run (hfit.held.resolve_right hne) (by simp), .single (.turn hne h .again)⟩
  | leave => exact absurd rfl h.leaves
  | call r₁ =>
    have hstep : Step jsMachine.rule _ _ := .turn hne h (.call (k := []))
    have hgood := jsMachine.good_step hc hstep
    have hlow := Nat.lt_trans (jsMachine.measure_step hc hstep) hf
    refine jsMachine.turns_call hne h h.buffer_call_run (fun t ht => bind_run ht) ?_
    rcases List.mem_pair.mp h.calls.2 with rfl | rfl
    · exact js_comment_serves hgood hlow
    · exact js_quote_serves hgood hlow

/-- The JavaScript minifier reads a buffer to its end, by the rules. -/
theorem jsStripBuffer_follows (hc : jsMachine.Good ⟨.jsStripBuffer, [], c⟩)
    (hf : jsMachine.measure ⟨.jsStripBuffer, [], c⟩ < fuel) :
    ∃ t, (ngxMinifyJsStripBuffer fuel).run c = .ok ((), t) ∧ t.buf.rest = [] ∧
      ReflTransGen (Step jsMachine.rule) ⟨.jsStripBuffer, [], c⟩ ⟨.jsStripBuffer, [], t⟩ := by
  have hcount : ¬ (c.buf.rest.length : ℤ) < 0 := by omega
  rw [ngxMinifyJsStripBuffer, bind_run (count_run c), if_neg hcount]
  exact jsMachine.topLoop (fun c => js_buffer_turns) hc hf

end Follows

end NginB.Minify
