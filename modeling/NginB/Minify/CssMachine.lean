import Mathlib.Algebra.Order.Ring.Int
import NginB.Minify.Machine
import NginB.Minify.Css

/-! # The rules of the CSS minifier

One constructor for each way an iteration of the four loops can go in a reachable
state, the proof that the code does what the rules say, and the machine they make.
-/
namespace NginB.Minify
open NginB.Program Relation Ascii

inductive CssRule (x : Ctx) : Routine → List UInt8 → List Ev → Ctx → Next → Prop
  -- ngx_minify_css_strip_comment
  | commentClose {t} (hs : x.state.top = .cssComment) :
      CssRule x .cssStripComment (lit "*/" ++ t) [.skip, .skip, .stack x.state.pop] x.pop .again
  | commentStar {b t} (hs : x.state.top = .cssComment) (hb : b ≠ slash) :
      CssRule x .cssStripComment (star :: b :: t) [.skip] x .again
  | commentHold (hs : x.state.top = .cssComment) :
      CssRule x .cssStripComment [star] (Ev.holds (lit "*") [star]) (x.hold [star]) .again
  | commentByte {b t} (hs : x.state.top = .cssComment) (hb : b ≠ star) :
      CssRule x .cssStripComment (b :: t) [.skip] x .again
  | commentLeave {rest} (hs : x.state.top ∈ [MinifyState.text, .cssBrace]) :
      CssRule x .cssStripComment rest [] x .leave
  -- ngx_minify_css_strip_quote
  | quoteEscape {b t} (hs : x.state.top = .cssQuote) :
      CssRule x .cssStripQuote (backslash :: b :: t) [.copy, .copy] x .again
  | quoteHold (hs : x.state.top = .cssQuote) :
      CssRule x .cssStripQuote [backslash] (Ev.holds (lit "\\") [backslash])
        (x.hold [backslash]) .again
  | quoteClose {t} (hs : x.state.top = .cssQuote) (hq : x.quoteChar ≠ backslash) :
      CssRule x .cssStripQuote (x.quoteChar :: t) [.copy, .stack x.state.pop] x.pop .again
  | quoteByte {b t} (hs : x.state.top = .cssQuote) (hb : b ≠ backslash ∧ b ≠ x.quoteChar) :
      CssRule x .cssStripQuote (b :: t) [.copy] x .again
  | quoteLeave {rest} (hs : x.state.top ∈ [MinifyState.text, .cssBrace]) :
      CssRule x .cssStripQuote rest [] x .leave
  -- ngx_minify_css_strip_brace
  | braceClose {t} (hs : x.state.top = .cssBrace) :
      CssRule x .cssStripBrace (rbrace :: t) [.copy, .stack ⟨.text, []⟩]
        { x with state := ⟨.text, []⟩ } .again
  | braceBlank {b t} (hs : x.state.top = .cssBrace)
      (hb : (b = space ∧ x.preChar = space) ∨ b = lf ∨ b = cr ∨ b = tab) :
      CssRule x .cssStripBrace (b :: t) [.skip] x .again
  | braceComment {t} (hs : x.state.top = .cssBrace) :
      CssRule x .cssStripBrace (lit "/*" ++ t)
        [.skip, .skip, .stack (x.state.push .cssComment)] (x.push .cssComment) .again
  | braceSlash {b t} (hs : x.state.top = .cssBrace) (hb : b ≠ star) :
      CssRule x .cssStripBrace (slash :: b :: t) [.copy, .copy] x .again
  | braceHold (hs : x.state.top = .cssBrace) :
      CssRule x .cssStripBrace [slash] (Ev.holds (lit "/") [slash]) (x.hold [slash]) .again
  | braceQuote {b t} (hs : x.state.top = .cssBrace) (hb : b = dquote ∨ b = squote) :
      CssRule x .cssStripBrace (b :: t) [.copy, .stack (x.state.push .cssQuote)]
        { x.push .cssQuote with quoteChar := b } .again
  | braceByte {b t} (hs : x.state.top = .cssBrace) (hb : b ≠ rbrace ∧ b ≠ slash)
      (hq : b ≠ dquote ∧ b ≠ squote)
      (hp : ¬((b = space ∧ x.preChar = space) ∨ b = lf ∨ b = cr ∨ b = tab)) :
      CssRule x .cssStripBrace (b :: t) [.copy] x .again
  | braceCallQuote {rest} (hs : x.state.top = .cssQuote) :
      CssRule x .cssStripBrace rest [] x (.call .cssStripQuote)
  | braceCallComment {rest} (hs : x.state.top = .cssComment) :
      CssRule x .cssStripBrace rest [] (x.freeze true) (.call .cssStripComment)
  | braceLeave {rest} (hs : x.state.top = .text) :
      CssRule x .cssStripBrace rest [] x .leave
  -- ngx_minify_css_strip_buffer
  | textBlankDrop {b t} (hs : x.state.top = .text) (hb : b = space ∨ b = tab)
      (hp : x.preChar = space ∨ x.preChar = tab) :
      CssRule x .cssStripBuffer (b :: t) [.skip] (x.freeze false) .again
  | textBlank {b t} (hs : x.state.top = .text) (hb : b = space ∨ b = tab)
      (hp : ¬(x.preChar = space ∨ x.preChar = tab)) :
      CssRule x .cssStripBuffer (b :: t) [.copy] (x.freeze false) .again
  | textComment {t} (hs : x.state.top = .text) :
      CssRule x .cssStripBuffer (lit "/*" ++ t)
        [.skip, .skip, .stack (x.state.push .cssComment)] ((x.push .cssComment).freeze false) .again
  | textSlash {b t} (hs : x.state.top = .text) (hb : b ≠ star) :
      CssRule x .cssStripBuffer (slash :: b :: t) [.copy, .copy] (x.freeze false) .again
  | textHold (hs : x.state.top = .text) :
      CssRule x .cssStripBuffer [slash] (Ev.holds (lit "/") [slash])
        ((x.hold [slash]).freeze false) .again
  | textQuote {b t} (hs : x.state.top = .text) (hb : b = dquote ∨ b = squote) :
      CssRule x .cssStripBuffer (b :: t) [.copy, .stack (x.state.push .cssQuote)]
        { (x.push .cssQuote).freeze false with quoteChar := b } .again
  | textOpen {t} (hs : x.state.top = .text) :
      CssRule x .cssStripBuffer (lbrace :: t) [.copy, .stack (x.state.push .cssBrace)]
        ((x.push .cssBrace).freeze false) .again
  | textBreak {b t} (hs : x.state.top = .text) (hb : b = lf ∨ b = cr) :
      CssRule x .cssStripBuffer (b :: t) [.skip] (x.freeze false) .again
  | textByte {b t} (hs : x.state.top = .text) (hb : b ≠ space ∧ b ≠ tab ∧ b ≠ slash)
      (hq : b ≠ dquote ∧ b ≠ squote ∧ b ≠ lbrace) (hn : b ≠ lf ∧ b ≠ cr) :
      CssRule x .cssStripBuffer (b :: t) [.copy] (x.freeze false) .again
  | callComment {rest} (hs : x.state.top = .cssComment) :
      CssRule x .cssStripBuffer rest [] (x.freeze true) (.call .cssStripComment)
  | callQuote {rest} (hs : x.state.top = .cssQuote) :
      CssRule x .cssStripBuffer rest [] (x.freeze true) (.call .cssStripQuote)
  | callBrace {rest} (hs : x.state.top = .cssBrace) :
      CssRule x .cssStripBuffer rest [] x (.call .cssStripBrace)

def cssStacks : List StateStack :=
  [⟨.text, []⟩, ⟨.cssBrace, [.text]⟩, ⟨.cssQuote, [.text]⟩, ⟨.cssQuote, [.cssBrace, .text]⟩,
    ⟨.cssComment, [.text]⟩, ⟨.cssComment, [.cssBrace, .text]⟩]

theorem cssStacks_push {s : StateStack} (st : MinifyState) (h : s ∈ cssStacks)
    (hs : s.top = .text ∧ st ∈ [MinifyState.cssBrace, .cssQuote, .cssComment] ∨
      s.top = .cssBrace ∧ st ∈ [MinifyState.cssQuote, .cssComment]) :
    s.push st ∈ cssStacks ∧ s.below.length < 7 := by
  revert hs
  revert h
  simp only [cssStacks, List.mem_cons, List.not_mem_nil, or_false]
  rintro (rfl | rfl | rfl | rfl | rfl | rfl) <;> simp

theorem cssStacks_pop {s : StateStack} (h : s ∈ cssStacks)
    (hs : s.top = .cssQuote ∨ s.top = .cssComment) :
    s.pop ∈ cssStacks ∧ s.below ≠ [] ∧ s.pop.top ∈ [MinifyState.text, .cssBrace] := by
  revert hs
  revert h
  simp only [cssStacks, List.mem_cons, List.not_mem_nil, or_false]
  rintro (rfl | rfl | rfl | rfl | rfl | rfl) <;> simp

section Run
variable {x y : Ctx} {r : Routine} {rest out : List UInt8} {tr : List Item} {es : List Ev}
  {nxt : Next}

theorem CssRule.comment_run (h : CssRule x .cssStripComment rest es y nxt)
    (hx : x.state ∈ cssStacks) (hc : x.cache = []) :
    (cssStripCommentTurn (B := Stream)).run ⟨x, ⟨rest, out⟩, tr⟩ =
      .ok (decide (nxt = .leave), Conf.turned ⟨x, ⟨rest, out⟩, tr⟩ .cssStripComment es y) := by
  unfold cssStripCommentTurn cssStripCommentSwitch Conf.turned
  cases h with
  | @commentClose t hs =>
    have h2 : (2 : ℤ) ≤ t.length + 1 + 1 := by omega
    have hpop := (cssStacks_pop hx (.inr hs)).2.1
    simp [hs, h2, hpop]
  | @commentStar b t hs hb =>
    have h2 : (2 : ℤ) ≤ t.length + 1 + 1 := by omega
    simp [hs, h2, hb]
  | commentHold hs => simp [hs, hc, cache_hold_run, cacheable]
  | commentByte hs hb => simp [hs, hb]
  | commentLeave hs => rcases List.mem_pair.mp hs with hs | hs <;> simp [hs]

theorem CssRule.quote_run (h : CssRule x .cssStripQuote rest es y nxt)
    (hx : x.state ∈ cssStacks) (hc : x.cache = []) :
    (cssStripQuoteTurn (B := Stream)).run ⟨x, ⟨rest, out⟩, tr⟩ =
      .ok (decide (nxt = .leave), Conf.turned ⟨x, ⟨rest, out⟩, tr⟩ .cssStripQuote es y) := by
  unfold cssStripQuoteTurn cssStripQuoteSwitch Conf.turned
  cases h with
  | @quoteEscape b t hs =>
    have h2 : (1 : ℤ) < t.length + 1 + 1 := by omega
    simp [hs, h2]
  | quoteHold hs => simp [hs, hc, cache_hold_run, cacheable]
  | quoteClose hs hq =>
    have hpop := (cssStacks_pop hx (.inl hs)).2.1
    simp [hs, hq, hpop]
  | quoteByte hs hb =>
    have hb' := Ne.symm hb.2
    simp [hs, hb, hb']
  | quoteLeave hs => rcases List.mem_pair.mp hs with hs | hs <;> simp [hs]

theorem CssRule.brace_run {fuel : ℕ} (h : CssRule x .cssStripBrace rest es y nxt)
    (hx : x.state ∈ cssStacks) (hc : x.cache = []) (hn : ∀ r, nxt ≠ .call r) :
    (cssStripBraceTurn fuel).run ⟨x, ⟨rest, out⟩, tr⟩ =
      .ok (decide (nxt = .leave), if nxt = .leave then
        Conf.turned ⟨x, ⟨rest, out⟩, tr⟩ .cssStripBrace es y
      else Routine.finish .cssStripBrace (Conf.turned ⟨x, ⟨rest, out⟩, tr⟩ .cssStripBrace es y)) := by
  unfold cssStripBraceTurn cssStripBraceSwitch Conf.turned Routine.finish Routine.refreshes
  cases h with
  | braceClose hs => simp [hs, cssStateBrace]
  | braceBlank hs hb =>
    rcases hb with ⟨rfl, hp⟩ | rfl | rfl | rfl
    · simp [hs, hp, cssStateBrace]
    all_goals simp [hs, cssStateBrace]
  | @braceComment t hs =>
    have hpush := (cssStacks_push .cssComment hx (.inr ⟨hs, by decide⟩)).2
    simp [hs, hpush, cssStateBrace]
  | @braceSlash b t hs hb => simp [hs, hb, cssStateBrace]
  | braceHold hs => simp [hs, hc, cache_hold_run, cacheable, cssStateBrace]
  | braceQuote hs hb =>
    have hpush := (cssStacks_push .cssQuote hx (.inr ⟨hs, by decide⟩)).2
    rcases hb with rfl | rfl <;> simp [hs, hpush, cssStateBrace]
  | braceByte hs hb hq hp => simp [hs, hb, hq, hp, cssStateBrace]
  | braceCallQuote hs => exact absurd rfl (hn _)
  | braceCallComment hs => exact absurd rfl (hn _)
  | braceLeave hs => simp [hs]

theorem CssRule.buffer_run {fuel : ℕ} (h : CssRule x .cssStripBuffer rest es y nxt)
    (hx : x.state ∈ cssStacks) (hc : x.cache = []) (hn : ∀ r, nxt ≠ .call r) :
    (cssStripBufferTurn fuel).run ⟨x, ⟨rest, out⟩, tr⟩ =
      .ok (false, Routine.finish .cssStripBuffer
        (Conf.turned ⟨x, ⟨rest, out⟩, tr⟩ .cssStripBuffer es y)) := by
  unfold cssStripBufferTurn cssStripBufferSwitch Conf.turned Routine.finish Routine.refreshes
  cases h with
  | textBlankDrop hs hb hp =>
    rcases hb with rfl | rfl <;> rcases hp with hp | hp <;> simp [hs, hp, cssStateText]
  | textBlank hs hb hp => rcases hb with rfl | rfl <;> simp [hs, hp, cssStateText]
  | @textComment t hs =>
    have h2 : (2 : ℤ) ≤ t.length + 1 + 1 := by omega
    have hpush := (cssStacks_push .cssComment hx (.inl ⟨hs, by decide⟩)).2
    simp [hs, h2, hpush, cssStateText]
  | @textSlash b t hs hb =>
    have h2 : (2 : ℤ) ≤ t.length + 1 + 1 := by omega
    simp [hs, h2, hb, cssStateText]
  | textHold hs => simp [hs, hc, cache_hold_run, cacheable, cssStateText]
  | textQuote hs hb =>
    have hpush := (cssStacks_push .cssQuote hx (.inl ⟨hs, by decide⟩)).2
    rcases hb with rfl | rfl <;> simp [hs, hpush, cssStateText]
  | textOpen hs =>
    have hpush := (cssStacks_push .cssBrace hx (.inl ⟨hs, by decide⟩)).2
    simp [hs, hpush, cssStateText]
  | textBreak hs hb => rcases hb with rfl | rfl <;> simp [hs, cssStateText]
  | textByte hs hb hq hbr => simp [hs, hb, hq, hbr, cssStateText]
  | callComment hs | callQuote hs | callBrace hs => exact absurd rfl (hn _)

def cssCallee (fuel : ℕ) : Routine → MinifyM Stream Unit
  | .cssStripQuote => ngxMinifyCssStripQuote fuel
  | .cssStripComment => ngxMinifyCssStripComment fuel
  | _ => ngxMinifyCssStripBrace fuel

theorem CssRule.brace_call_run {fuel : ℕ} {r : Routine}
    (h : CssRule x .cssStripBrace rest es y (.call r)) :
    (cssStripBraceTurn fuel).run ⟨x, ⟨rest, out⟩, tr⟩ =
      (do cssCallee fuel r; refreshPre; return false : MinifyM Stream Bool).run
        (Conf.turned ⟨x, ⟨rest, out⟩, tr⟩ .cssStripBrace es y) := by
  unfold cssStripBraceTurn cssStripBraceSwitch
  rw [bind_run (visit_run _), bind_assoc, bind_run (ctxState_run _)]
  cases h with
  | braceCallQuote hs =>
    simp only [hs, bind_assoc, pure_bind]
    rfl
  | braceCallComment hs =>
    simp only [hs, bind_assoc, pure_bind]
    exact bind_run (modifyCtx_run _ _)

theorem CssRule.buffer_call_run {fuel : ℕ} {r : Routine}
    (h : CssRule x .cssStripBuffer rest es y (.call r)) :
    (cssStripBufferTurn fuel).run ⟨x, ⟨rest, out⟩, tr⟩ =
      (do cssCallee fuel r; refreshPre; return false : MinifyM Stream Bool).run
        (Conf.turned ⟨x, ⟨rest, out⟩, tr⟩ .cssStripBuffer es y) := by
  unfold cssStripBufferTurn cssStripBufferSwitch
  rw [bind_run (visit_run _), bind_assoc, bind_run (ctxState_run _)]
  cases h with
  | callComment hs | callQuote hs =>
    simp only [hs, bind_assoc]
    exact bind_run (modifyCtx_run _ _)
  | callBrace hs =>
    simp only [hs]
    rfl

end Run

def cssStates : Routine → List StateStack
  | .cssStripBuffer | .cssStripBrace => cssStacks
  | .cssStripQuote =>
    [⟨.text, []⟩, ⟨.cssBrace, [.text]⟩, ⟨.cssQuote, [.text]⟩, ⟨.cssQuote, [.cssBrace, .text]⟩]
  | .cssStripComment =>
    [⟨.text, []⟩, ⟨.cssBrace, [.text]⟩, ⟨.cssComment, [.text]⟩, ⟨.cssComment, [.cssBrace, .text]⟩]
  | _ => []

def cssCallers : Routine → List (List Routine)
  | .cssStripBuffer => [[]]
  | .cssStripBrace => [[.cssStripBuffer]]
  | .cssStripQuote | .cssStripComment => [[.cssStripBuffer], [.cssStripBrace, .cssStripBuffer]]
  | _ => []

structure CssFit (r : Routine) (x : Ctx) (rest : List UInt8) : Prop where
  stack : x.state ∈ cssStates r
  held : x.cache = [] ∨ rest = []

def cssRank : Routine → MinifyState → ℕ
  | .cssStripBuffer, _ => 4
  | .cssStripBrace, .text => 5
  | .cssStripBrace, _ => 3
  | _, .cssQuote | _, .cssComment => 0
  | _, _ => 6

section Safe
variable {x y : Ctx} {r : Routine} {rest t : List UInt8} {es : List Ev} {nxt : Next} {b : UInt8}

theorem cssStates_subset {r : Routine} {s : StateStack} (h : s ∈ cssStates r) : s ∈ cssStacks := by
  revert h
  revert s
  cases r <;> decide

/-- The states on top of the stacks of each loop. -/
theorem cssStates_top {s : StateStack} (h : s ∈ cssStates r) :
    s.top ∈ [MinifyState.text, .cssBrace] ∨
      s.top = .cssQuote ∧ r ∈ [.cssStripBuffer, .cssStripBrace, .cssStripQuote] ∨
      s.top = .cssComment ∧ r ∈ [.cssStripBuffer, .cssStripBrace, .cssStripComment] := by
  revert h
  revert s
  cases r <;> decide

theorem CssRule.comment_applies (h : x.state ∈ cssStates .cssStripComment) :
    ∃ es y nxt, CssRule x .cssStripComment (b :: t) es y nxt := by
  rcases cssStates_top h with hs | ⟨-, hr⟩ | ⟨hs, -⟩
  · exact ⟨_, _, _, .commentLeave hs⟩
  · exact absurd hr (by decide)
  by_cases hb : b = star
  · subst hb
    rcases t with _ | ⟨c, t⟩
    · exact ⟨_, _, _, .commentHold hs⟩
    by_cases hc : c = slash
    · subst hc
      exact ⟨_, _, _, .commentClose (t := t) hs⟩
    · exact ⟨_, _, _, .commentStar hs hc⟩
  · exact ⟨_, _, _, .commentByte hs hb⟩

theorem CssRule.quote_applies (h : x.state ∈ cssStates .cssStripQuote) :
    ∃ es y nxt, CssRule x .cssStripQuote (b :: t) es y nxt := by
  rcases cssStates_top h with hs | ⟨hs, -⟩ | ⟨-, hr⟩
  · exact ⟨_, _, _, .quoteLeave hs⟩
  · by_cases hb : b = backslash
    · subst hb
      rcases t with _ | ⟨c, t⟩
      · exact ⟨_, _, _, .quoteHold hs⟩
      · exact ⟨_, _, _, .quoteEscape hs⟩
    by_cases hq : b = x.quoteChar
    · subst hq
      exact ⟨_, _, _, .quoteClose hs hb⟩
    · exact ⟨_, _, _, .quoteByte hs ⟨hb, hq⟩⟩
  · exact absurd hr (by decide)

theorem CssRule.brace_applies (h : x.state ∈ cssStates .cssStripBrace) :
    ∃ es y nxt, CssRule x .cssStripBrace (b :: t) es y nxt := by
  rcases cssStates_top h with hs | ⟨hs, -⟩ | ⟨hs, -⟩
  · rcases List.mem_pair.mp hs with hs | hs
    · exact ⟨_, _, _, .braceLeave hs⟩
    by_cases hcl : b = rbrace
    · subst hcl
      exact ⟨_, _, _, .braceClose hs⟩
    by_cases hp : (b = space ∧ x.preChar = space) ∨ b = lf ∨ b = cr ∨ b = tab
    · exact ⟨_, _, _, .braceBlank hs hp⟩
    by_cases hsl : b = slash
    · subst hsl
      rcases t with _ | ⟨c, t⟩
      · exact ⟨_, _, _, .braceHold hs⟩
      by_cases hc : c = star
      · subst hc
        exact ⟨_, _, _, .braceComment (t := t) hs⟩
      · exact ⟨_, _, _, .braceSlash hs hc⟩
    by_cases hq : b = dquote ∨ b = squote
    · exact ⟨_, _, _, .braceQuote hs hq⟩
    · rw [not_or] at hq
      exact ⟨_, _, _, .braceByte hs ⟨hcl, hsl⟩ hq hp⟩
  · exact ⟨_, _, _, .braceCallQuote hs⟩
  · exact ⟨_, _, _, .braceCallComment hs⟩

theorem CssRule.buffer_applies (h : x.state ∈ cssStates .cssStripBuffer) :
    ∃ es y nxt, CssRule x .cssStripBuffer (b :: t) es y nxt := by
  rcases cssStates_top h with hs | ⟨hs, -⟩ | ⟨hs, -⟩
  · rcases List.mem_pair.mp hs with hs | hs
    · by_cases hbl : b = space ∨ b = tab
      · by_cases hp : x.preChar = space ∨ x.preChar = tab
        · exact ⟨_, _, _, .textBlankDrop hs hbl hp⟩
        · exact ⟨_, _, _, .textBlank hs hbl hp⟩
      by_cases hsl : b = slash
      · subst hsl
        rcases t with _ | ⟨c, t⟩
        · exact ⟨_, _, _, .textHold hs⟩
        by_cases hc : c = star
        · subst hc
          exact ⟨_, _, _, .textComment (t := t) hs⟩
        · exact ⟨_, _, _, .textSlash hs hc⟩
      by_cases hq : b = dquote ∨ b = squote
      · exact ⟨_, _, _, .textQuote hs hq⟩
      by_cases ho : b = lbrace
      · subst ho
        exact ⟨_, _, _, .textOpen hs⟩
      by_cases hn : b = lf ∨ b = cr
      · exact ⟨_, _, _, .textBreak hs hn⟩
      · rw [not_or] at hbl hq hn
        exact ⟨_, _, _, .textByte hs ⟨hbl.1, hbl.2, hsl⟩ ⟨hq.1, hq.2, ho⟩ hn⟩
    · exact ⟨_, _, _, .callBrace hs⟩
  · exact ⟨_, _, _, .callQuote hs⟩
  · exact ⟨_, _, _, .callComment hs⟩

theorem CssFit.applies (h : CssFit r x rest) (hne : rest ≠ []) :
    ∃ es y nxt, CssRule x r rest es y nxt := by
  obtain ⟨b, t, rfl⟩ := List.exists_cons_of_ne_nil hne
  have hx := h.stack
  cases r with
  | cssStripBuffer => exact CssRule.buffer_applies hx
  | cssStripBrace => exact CssRule.brace_applies hx
  | cssStripQuote => exact CssRule.quote_applies hx
  | cssStripComment => exact CssRule.comment_applies hx
  | htmlStripBuffer | htmlStripTag | htmlStripTagname | htmlStripComment | jsStripBuffer
  | jsStripQuote | jsStripComment => cases hx

theorem CssRule.takes_le (h : CssRule x r rest es y nxt) : Ev.takes es ≤ rest.length := by
  cases h <;> simp

theorem CssRule.held (h : CssRule x r rest es y nxt) (hx : x.cache = []) :
    y.cache = [] ∨ Holds x rest es y nxt := by
  cases h <;> first
    | exact .inl hx | exact .inr ⟨.plain, rfl, _, rfl⟩ | exact .inr ⟨.text (by simp [*]), rfl, _, rfl⟩

theorem cssStates_pop {s : StateStack} (h : s ∈ cssStates r)
    (hs : s.top = .cssQuote ∨ s.top = .cssComment) : s.pop ∈ cssStates r := by
  revert hs
  revert h
  revert s
  cases r <;> decide

/-- A loop that is left goes back to a loop that can be in every state. -/
theorem cssCallers_leave {r' : Routine} {k : List Routine} (hk : (r' :: k) ∈ cssCallers r) :
    k ∈ cssCallers r' ∧ cssStates r' = cssStacks := by
  cases r <;> simp [cssCallers] at hk
  case cssStripBrace =>
    obtain ⟨rfl, rfl⟩ := hk
    decide
  case cssStripQuote | cssStripComment =>
    rcases hk with ⟨rfl, rfl⟩ | ⟨rfl, rfl⟩ <;> decide

theorem CssRule.stack_again (h : CssRule x r rest es y .again) (hx : x.state ∈ cssStates r) :
    y.state ∈ cssStates r := by
  have hall := cssStates_subset hx
  cases h
  case commentClose hs => exact cssStates_pop hx (.inr hs)
  case quoteClose hs _ => exact cssStates_pop hx (.inl hs)
  case braceClose => exact List.mem_cons_self
  case braceComment hs | braceQuote hs _ =>
    exact (cssStacks_push _ hall (.inr ⟨hs, by decide⟩)).1
  case textComment hs | textQuote hs _ | textOpen hs =>
    exact (cssStacks_push _ hall (.inl ⟨hs, by decide⟩)).1
  all_goals exact hx

theorem CssRule.stack_call {r' : Routine} {k : List Routine} (h : CssRule x r rest es y (.call r'))
    (hx : x.state ∈ cssStates r) (hk : k ∈ cssCallers r) :
    (r :: k) ∈ cssCallers r' ∧ y.state ∈ cssStates r' := by
  have hquote : ∀ s ∈ cssStacks, s.top = .cssQuote → s ∈ cssStates .cssStripQuote := by decide
  have hcomment : ∀ s ∈ cssStacks, s.top = .cssComment → s ∈ cssStates .cssStripComment := by decide
  cases h <;> obtain rfl := List.mem_singleton.mp hk
  case braceCallQuote hs | callQuote hs => exact ⟨by decide, hquote _ hx hs⟩
  case braceCallComment hs | callComment hs => exact ⟨by decide, hcomment _ hx hs⟩
  case callBrace => exact ⟨by decide, hx⟩

theorem CssRule.leaves (h : CssRule x r rest es y .leave) : y = x ∧ r ≠ .cssStripBuffer := by
  cases h <;> exact ⟨rfl, by decide⟩

theorem CssRule.stack {r' : Routine} {k k' : List Routine} (h : CssRule x r rest es y nxt)
    (hx : x.state ∈ cssStates r) (hk : k ∈ cssCallers r) (hgo : nxt.Goes r k r' k') :
    k' ∈ cssCallers r' ∧ y.state ∈ cssStates r' := by
  cases hgo with
  | again => exact ⟨hk, h.stack_again hx⟩
  | call => exact h.stack_call hx hk
  | leave =>
    obtain ⟨hk', hr'⟩ := cssCallers_leave hk
    rw [h.leaves.1, hr']
    exact ⟨hk', cssStates_subset hx⟩

theorem cssRank_lt (r : Routine) (st : MinifyState) : cssRank r st < 16 := by
  cases r <;> cases st <;> decide

/-- A rule consumes a byte or goes to a state of lower rank. -/
theorem CssRule.lowers {r' : Routine} {k k' : List Routine} (h : CssRule x r rest es y nxt)
    (hk : k ∈ cssCallers r) (hgo : nxt.Goes r k r' k') :
    0 < Ev.takes es ∨ cssRank r' y.state.top < cssRank r x.state.top := by
  cases hgo with
  | again => cases h <;> exact .inl (by simp)
  | call => cases h <;> rename_i hs <;> exact .inr (by simp [hs, cssRank])
  | leave =>
    refine .inr ?_
    have hr' : r' = .cssStripBuffer ∨ r' = .cssStripBrace ∧ r ≠ .cssStripBrace := by
      cases r <;> simp [cssCallers] at hk <;> aesop
    cases h with
    | commentLeave hs | quoteLeave hs =>
      rcases hr' with rfl | ⟨rfl, -⟩ <;> rcases List.mem_pair.mp hs with hs | hs <;>
        simp [hs, cssRank]
    | braceLeave hs =>
      rcases hr' with rfl | ⟨-, hne⟩
      · simp [hs, cssRank]
      · exact absurd rfl hne

def cssMachine : Machine where
  rule _ := CssRule
  top := .cssStripBuffer
  callers r k := k ∈ cssCallers r
  Fit := CssFit
  rank := cssRank
  rank_lt := cssRank_lt
  callers_top := by decide
  callers_lt {r k} h := by
    revert h
    revert k
    cases r <;> decide
  takes_le h := h.takes_le
  idle h := h.held
  holds h hx := h.held hx
  applies _ h hne := h.applies hne
  keeps h hf hne hk hgo := by
    obtain ⟨hk', hx'⟩ := h.stack hf.stack hk hgo
    exact ⟨hk', hx', held_of_holds (h.held (hf.held.resolve_right hne))⟩
  lowers h _ hk hgo := h.lowers hk hgo
  done hf hk := by
    obtain ⟨hk', hr'⟩ := cssCallers_leave hk
    exact ⟨hk', by rw [hr']; exact cssStates_subset hf.stack, hf.held⟩
  pre p q h := ⟨h.stack, h.held⟩
  start rest := ⟨by decide, .inl rfl⟩
  resume buf h := ⟨h.stack, .inl rfl⟩

end Safe

section Follows
variable {fuel : ℕ} {r r₁ : Routine} {k : List Routine} {c : Conf Stream}

theorem CssRule.calls {x y : Ctx} {rest : List UInt8} {es : List Ev}
    (h : CssRule x r rest es y (.call r₁)) :
    r = .cssStripBrace ∧ r₁ ∈ [.cssStripQuote, .cssStripComment] ∨
      r = .cssStripBuffer ∧ r₁ ∈ [.cssStripQuote, .cssStripComment, .cssStripBrace] := by
  cases h <;> decide

theorem css_quote_serves (hc : cssMachine.Good ⟨.cssStripQuote, r :: k, c⟩)
    (hf : cssMachine.measure ⟨.cssStripQuote, r :: k, c⟩ < fuel) :
    cssMachine.Serves (cssCallee fuel .cssStripQuote) .cssStripQuote r k c := by
  refine cssMachine.loop_serves (fun c hc _ hne => ?_) hc hf
  have hfit : CssFit _ _ _ := hc.fit
  obtain ⟨es, y, nxt, h⟩ := hfit.applies hne
  refine cssMachine.turns_rule hne h (fun r' he => ?_) ?_
  · subst he
    have hcall := h.calls
    simp at hcall
  · rw [h.quote_run (cssStates_subset hfit.stack) (hfit.held.resolve_right hne)]
    split <;> rfl

theorem css_comment_serves (hc : cssMachine.Good ⟨.cssStripComment, r :: k, c⟩)
    (hf : cssMachine.measure ⟨.cssStripComment, r :: k, c⟩ < fuel) :
    cssMachine.Serves (cssCallee fuel .cssStripComment) .cssStripComment r k c := by
  refine cssMachine.loop_serves (fun c hc _ hne => ?_) hc hf
  have hfit : CssFit _ _ _ := hc.fit
  obtain ⟨es, y, nxt, h⟩ := hfit.applies hne
  refine cssMachine.turns_rule hne h (fun r' he => ?_) ?_
  · subst he
    have hcall := h.calls
    simp at hcall
  · rw [h.comment_run (cssStates_subset hfit.stack) (hfit.held.resolve_right hne)]
    split <;> rfl

/-- The loops that both the brace loop and the text loop call. -/
theorem css_callee_serves (hr : r₁ ∈ [.cssStripQuote, .cssStripComment])
    (hc : cssMachine.Good ⟨r₁, r :: k, c⟩) (hf : cssMachine.measure ⟨r₁, r :: k, c⟩ < fuel) :
    cssMachine.Serves (cssCallee fuel r₁) r₁ r k c := by
  rcases List.mem_pair.mp hr with rfl | rfl
  · exact css_quote_serves hc hf
  · exact css_comment_serves hc hf

theorem css_brace_turns (hc : cssMachine.Good ⟨.cssStripBrace, r :: k, c⟩)
    (hf : cssMachine.measure ⟨.cssStripBrace, r :: k, c⟩ < fuel) (hne : c.buf.rest ≠ []) :
    cssMachine.Turns (cssStripBraceTurn fuel) .cssStripBrace r k c := by
  have hfit : CssFit _ _ _ := hc.fit
  obtain ⟨es, y, nxt, h⟩ := hfit.applies hne
  by_cases hn : ∀ r', nxt ≠ .call r'
  · exact cssMachine.turns_rule hne h hn
      (h.brace_run (cssStates_subset hfit.stack) (hfit.held.resolve_right hne) hn)
  · rw [not_forall] at hn
    obtain ⟨r₁, hr₁⟩ := hn
    obtain rfl := not_not.mp hr₁
    have hstep : Step cssMachine.rule _ _ := .turn hne h (.call (k := r :: k))
    have hgood := cssMachine.good_step hc hstep
    have hlow := cssMachine.measure_step hc hstep
    have hr : r₁ ∈ [.cssStripQuote, .cssStripComment] := by simpa using h.calls
    exact .inl (cssMachine.turns_call hne h h.brace_call_run (fun t ht => bind_run ht)
      (css_callee_serves hr hgood (Nat.lt_trans hlow hf)))

theorem css_buffer_turns (hc : cssMachine.Good ⟨.cssStripBuffer, [], c⟩)
    (hf : cssMachine.measure ⟨.cssStripBuffer, [], c⟩ < fuel) (hne : c.buf.rest ≠ []) :
    cssMachine.TopTurns (cssStripBufferTurn fuel) c := by
  have hfit : CssFit _ _ _ := hc.fit
  obtain ⟨es, y, nxt, h⟩ := hfit.applies hne
  cases nxt with
  | again =>
    exact ⟨_, h.buffer_run (cssStates_subset hfit.stack) (hfit.held.resolve_right hne) (by simp),
      .single (.turn hne h .again)⟩
  | leave => exact absurd rfl h.leaves.2
  | call r₁ =>
    have hstep : Step cssMachine.rule _ _ := .turn hne h (.call (k := []))
    have hgood := cssMachine.good_step hc hstep
    have hlow := Nat.lt_trans (cssMachine.measure_step hc hstep) hf
    refine cssMachine.turns_call hne h h.buffer_call_run (fun t ht => bind_run ht) ?_
    have hr : r₁ = .cssStripQuote ∨ r₁ = .cssStripComment ∨ r₁ = .cssStripBrace := by
      simpa using h.calls
    rcases hr with rfl | rfl | rfl
    · exact css_quote_serves hgood hlow
    · exact css_comment_serves hgood hlow
    · exact cssMachine.loop_serves (fun c => css_brace_turns) hgood hlow

/-- The CSS minifier reads a buffer to its end, by the rules. -/
theorem cssStripBuffer_follows (hc : cssMachine.Good ⟨.cssStripBuffer, [], c⟩)
    (hf : cssMachine.measure ⟨.cssStripBuffer, [], c⟩ < fuel) :
    ∃ t, (ngxMinifyCssStripBuffer fuel).run c = .ok ((), t) ∧ t.buf.rest = [] ∧
      ReflTransGen (Step cssMachine.rule) ⟨.cssStripBuffer, [], c⟩ ⟨.cssStripBuffer, [], t⟩ := by
  have hcount : ¬ (c.buf.rest.length : ℤ) < 0 := by omega
  rw [ngxMinifyCssStripBuffer, bind_run (count_run c), if_neg hcount]
  exact cssMachine.topLoop (fun c => css_buffer_turns) hc hf

end Follows

end NginB.Minify
