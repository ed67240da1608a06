import NginB.Minify.Lexer
import NginB.Minify.Passage

/-! # String literals in the output

The minifiers are lexers as well. As long as the mode of the reference lexer is the one that the
state of a minifier stands for, no byte of a string literal is lost.
-/
namespace NginB.Minify
open NginB.Program Relation Ascii

def heldDelims : List (List UInt8) := [[], [slash], [star], [backslash]]

/-- What the response has written, and the mode of the lexer behind all that it has read. -/
structure LexAgrees (lines : Bool) (fits : MinifyState → UInt8 → List UInt8 → LexMode → Prop) (v : View) :
    Prop where
  kept : Kept (lexed lines (consumed v.trace).reverse) (emitted v.trace).reverse
  fits : fits v.ctx.state.top v.ctx.quoteChar v.pending (lexed lines (consumed v.trace).reverse).mode
  held : v.ctx.cache ∈ heldDelims

section LexAgrees
variable {M : Machine} {lines : Bool} {fits : MinifyState → UInt8 → List UInt8 → LexMode → Prop}
  {cond : Ctx → List UInt8 → LexMode → Prop}

/-- The condition on an iteration, in terms of the mode behind all that was read before. -/
def lexTurn (lines : Bool) (cond : Ctx → List UInt8 → LexMode → Prop) :
    Routine → Ctx → List UInt8 → ℕ → List Item → Prop :=
  fun _ x u _ older => cond x u (lexed lines (consumed older).reverse).mode

instance [∀ x u m, Decidable (cond x u m)] (r : Routine) (x : Ctx) (u : List UInt8) (d : ℕ)
    (older : List Item) : Decidable (lexTurn lines cond r x u d older) :=
  inferInstanceAs (Decidable (cond x u _))

/-- A lexer that each iteration keeps in step, under a condition, stays in step. -/
theorem lexAgrees_inv (hstart : fits .text 0 [] .code)
    (hnext : ∀ {st q u m} (buf : List UInt8), fits st q u m → fits st q (u ++ buf) m)
    (hturn : ∀ {d r x u es y nxt s out}, M.Fit r x u → M.rule d x r u es y nxt → y.cache = [] →
      Kept s out → cond x u s.mode → fits x.state.top x.quoteChar u s.mode →
      Kept ((u.take (Ev.takes es)).foldl (Lexed.read lines) s) (out ++ emitted (Ev.items x es u)) ∧
        fits y.state.top y.quoteChar (u.drop (Ev.takes es))
          ((u.take (Ev.takes es)).foldl (Lexed.read lines) s).mode)
    (hhold : ∀ {d r x u a y}, M.rule d x r u (Ev.holds a u) y .again → x.cache = [] → y.cache = u →
      u ∈ heldDelims) :
    TraceInv M fun v => EachTurn (lexTurn lines cond) v.trace → LexAgrees lines fits v where
  start _ := ⟨Kept.start, hstart, by simp [heldDelims, Ctx.zero]⟩
  next {v} buf hv h _ hturns := by
    obtain ⟨hkept, hfits, -⟩ := h ((eachTurn_cons (by simp)).mp hturns)
    exact ⟨hkept, hnext buf hfits, by simp [heldDelims]⟩
  turn {v es y nxt k k' r' d tr} hv h hc hy hrule hgo _ hd htr hturns := by
    rw [htr] at hturns
    obtain ⟨hcond, hturns⟩ := eachTurn_items.mp hturns
    obtain ⟨hkept, hfits, -⟩ := h hturns
    have hread : (consumed tr).reverse = (consumed v.trace).reverse ++ v.pending.take (Ev.takes es) := by
      rw [htr, consumed_append, consumed_reverse, Ev.consumed_items _ _ _ (M.takes_le hrule)]
      simp
    have hwritten : (emitted tr).reverse = (emitted v.trace).reverse ++ emitted (Ev.items v.ctx es v.pending) := by
      rw [htr, emitted_append, emitted_reverse]
      simp
    obtain ⟨hkept', hfits'⟩ := hturn (hv.fit hc) hrule hy hkept hcond hfits
    refine ⟨?_, ?_, ?_⟩
    · rw [hread, hwritten, lexed_append]
      exact hkept'
    · rw [hread, lexed_append, Next.ended_state, Next.ended_quoteChar]
      exact hfits'
    · rw [Next.ended_cache, hy]
      simp [heldDelims]
  hold {v y} a hv h hc hrule hy hturns := by
    obtain ⟨hkept, hfits, -⟩ := h (eachTurn_held.mp hturns).2
    refine ⟨hkept, ?_, ?_⟩
    · rw [Next.ended_state, Next.ended_quoteChar]
      cases hy <;> exact hfits
    · rw [Next.ended_cache, hy.cache]
      exact hhold hrule hc hy.cache
  done {v k r'} hv h hk hturns := by
    obtain ⟨hkept, hfits, hheld⟩ := h hturns
    refine ⟨hkept, ?_, ?_⟩
    · rw [Next.ended_state, Next.ended_quoteChar]
      exact hfits
    · rwa [Next.ended_cache]

theorem LexAgrees.literals {v : View} (h : LexAgrees lines fits v) :
    InOrder (stringLiterals lines ((consumed v.trace).reverse ++ v.ctx.cache)) (emitted v.trace).reverse := by
  have hkept := h.kept.inOrder
  have hsane := lexed_sane lines (consumed v.trace).reverse
  have hheld := h.held
  rw [stringLiterals, lexed_append]
  simp only [heldDelims, List.mem_cons, List.not_mem_nil, or_false] at hheld
  rcases hheld with hc | hc | hc | hc <;> rw [hc]
  · exact hkept
  all_goals
    rw [List.foldl_cons, List.foldl_nil, Lexed.read_done hsane (by decide)]
    exact hkept

end LexAgrees

def SlashQuote (u : List UInt8) : Prop := [slash, dquote] <+: u ∨ [slash, squote] <+: u

instance (u : List UInt8) : Decidable (SlashQuote u) := inferInstanceAs (Decidable (_ ∨ _))

theorem SlashQuote.not {b : UInt8} {t : List UInt8} (h : ¬ SlashQuote (slash :: b :: t)) :
    b ≠ dquote ∧ b ≠ squote := by
  constructor
  · rintro rfl
    exact h (.inl ⟨t, rfl⟩)
  · rintro rfl
    exact h (.inr ⟨t, rfl⟩)

/-- The modes in a block comment: behind a star there is a byte that does not close it. -/
def InBlock (u : List UInt8) (m : LexMode) : Prop := m = .block ∨ m = .star ∧ ∃ b t, u = b :: t ∧ b ≠ slash

namespace InBlock
variable {lines : Bool} {u : List UInt8} {m : LexMode} {b : UInt8}

theorem outside (h : InBlock u m) : m.inString = false := by
  rcases h with rfl | ⟨rfl, -⟩ <;> rfl

theorem star (h : InBlock u m) : lexStep lines m star = .star := by
  rcases h with rfl | ⟨rfl, -⟩ <;> rfl

theorem byte (h : InBlock (b :: u) m) (hb : b ≠ Ascii.star) : lexStep lines m b = .block := by
  rcases h with rfl | ⟨rfl, c, t, he, hc⟩
  · rw [lexStep, if_neg hb]
  · obtain ⟨rfl, -⟩ := List.cons.inj he
    rw [lexStep, if_neg hc, if_neg hb]

theorem append (h : InBlock u m) (buf : List UInt8) : InBlock (u ++ buf) m := by
  rcases h with rfl | ⟨rfl, b, t, rfl, hb⟩
  · exact .inl rfl
  · exact .inr ⟨rfl, b, t ++ buf, rfl, hb⟩

end InBlock

/-! ## Style sheets -/

def cssFits (st : MinifyState) (q : UInt8) (u : List UInt8) (m : LexMode) : Prop :=
  match st with
  | .text | .cssBrace => m = .code ∨ m = .slash
  | .cssComment => InBlock u m
  | .cssQuote => m = .str q
  | _ => False

/-- An iteration in which the CSS minifier takes no quote together with the slash before it, and
misses no comment behind two slashes. -/
def CssLexes (x : Ctx) (u : List UInt8) (m : LexMode) : Prop :=
  x.state.top ∈ [MinifyState.text, .cssBrace] → ¬ SlashQuote u ∧ (u.head? = some star → m ≠ .slash)

instance (x : Ctx) (u : List UInt8) (m : LexMode) : Decidable (CssLexes x u m) :=
  inferInstanceAs (Decidable (_ → _ ∧ (_ → _)))

section Css
variable {x y : Ctx} {r : Routine} {u out : List UInt8} {es : List Ev} {nxt : Next} {s : Lexed}

/-- The mode in code behind a byte that opens nothing. -/
theorem lexStep_code {m : LexMode} {b : UInt8} (hm : m = .code ∨ m = .slash) (hb : b ≠ slash)
    (hq : b ≠ dquote ∧ b ≠ squote) (hstar : b = star → m ≠ .slash) (lines : Bool) :
    lexStep lines m b = .code := by
  have hcode : lexCode b = .code := by
    rw [lexCode, if_neg hb, if_neg (by simp [hq])]
  rcases hm with rfl | rfl
  · exact hcode
  · have hns : b ≠ star := fun h => hstar h rfl
    rw [lexStep, if_neg hns, if_neg (fun h => hb h.2), hcode]

theorem lexStep_plain {m : LexMode} {b : UInt8} (hm : m = .code ∨ m = .slash)
    (hb : b ∈ [space, tab, lf, cr, lbrace, rbrace]) (lines : Bool) : lexStep lines m b = .code := by
  have hne : b ≠ slash ∧ b ≠ star ∧ b ≠ dquote ∧ b ≠ squote := by
    revert hb
    revert b
    decide +kernel
  exact lexStep_code hm hne.1 hne.2.2 (fun h => absurd h hne.2.1) lines

theorem lexStep_quote {m : LexMode} {b : UInt8} (hm : m = .code ∨ m = .slash)
    (hb : b = dquote ∨ b = squote) (lines : Bool) : lexStep lines m b = .str b := by
  rcases hm with rfl | rfl <;> rcases hb with rfl | rfl <;> simp [lexStep, lexCode]

theorem lexStep_slash {m : LexMode} (hm : m = .code ∨ m = .slash) : lexStep false m slash = .slash := by
  rcases hm with rfl | rfl <;> rfl

theorem lexStep_pair {b : UInt8} (hb : b ≠ star) (hq : b ≠ dquote ∧ b ≠ squote) :
    lexStep false .slash b = .code ∨ lexStep false .slash b = .slash := by
  rw [lexStep, if_neg hb, if_neg (fun h => absurd h.1 (by decide)), lexCode]
  split
  · exact .inr rfl
  · rw [if_neg (by simp [hq])]
    exact .inl rfl

theorem CssRule.lexes (h : CssRule x r u es y nxt) (hx : x.state ∈ cssStacks) (hy : y.cache = [])
    (hs : Kept s out) (hcond : CssLexes x u s.mode)
    (hfits : cssFits x.state.top x.quoteChar u s.mode) :
    Kept ((u.take (Ev.takes es)).foldl (Lexed.read false) s) (out ++ emitted (Ev.items x es u)) ∧
      cssFits y.state.top y.quoteChar (u.drop (Ev.takes es))
        ((u.take (Ev.takes es)).foldl (Lexed.read false) s).mode := by
  have hcode (hs' : x.state.top = .text ∨ x.state.top = .cssBrace) : s.mode = .code ∨ s.mode = .slash := by
    rcases hs' with hs' | hs' <;> simpa [cssFits, hs'] using hfits
  have hplain (hs' : x.state.top = .text ∨ x.state.top = .cssBrace) : s.mode.inString = false := by
    rcases hcode hs' with hm | hm <;> rw [hm] <;> rfl
  have hblock (hs' : x.state.top = .cssComment) : InBlock u s.mode := by
    rw [hs'] at hfits
    exact hfits
  cases h
  case textByte hs' hb hq _ =>
    have hm := lexStep_code (hcode (.inl hs')) hb.2.2 ⟨hq.1, hq.2.1⟩
      (fun h => (hcond (by simp [hs'])).2 (by simp [h])) false
    exact ⟨by simpa using hs.copy _, by simp [cssFits, hs', hm]⟩
  case braceByte hs' hb hq _ =>
    have hm := lexStep_code (hcode (.inr hs')) hb.2 hq
      (fun h => (hcond (by simp [hs'])).2 (by simp [h])) false
    exact ⟨by simpa using hs.copy _, by simp [cssFits, hs', hm]⟩
  case textBlank b t hs' hb _ =>
    have hm : lexStep false s.mode b = .code := by
      rcases hb with rfl | rfl <;> exact lexStep_plain (hcode (.inl hs')) (by decide) false
    exact ⟨by simpa using hs.copy _, by simp [cssFits, hs', hm]⟩
  case textOpen hs' =>
    have hm := lexStep_plain (hcode (.inl hs')) (b := lbrace) (by decide) false
    exact ⟨by simpa using hs.copy _, by simp [cssFits, hm]⟩
  case braceClose hs' =>
    have hm := lexStep_plain (hcode (.inr hs')) (b := rbrace) (by decide) false
    exact ⟨by simpa using hs.copy _, by simp [cssFits, hm]⟩
  case textSlash b t hs' hb =>
    have hm := lexStep_slash (hcode (.inl hs'))
    have hpair := lexStep_pair hb (SlashQuote.not (hcond (by simp [hs'])).1)
    exact ⟨by simpa using (hs.copy slash).copy b, by simpa [cssFits, hs', hm] using hpair⟩
  case braceSlash b t hs' hb =>
    have hm := lexStep_slash (hcode (.inr hs'))
    have hpair := lexStep_pair hb (SlashQuote.not (hcond (by simp [hs'])).1)
    exact ⟨by simpa using (hs.copy slash).copy b, by simpa [cssFits, hs', hm] using hpair⟩
  case textQuote hs' hb =>
    have hm := lexStep_quote (hcode (.inl hs')) hb false
    exact ⟨by simpa using hs.copy _, by simp [cssFits, hm]⟩
  case braceQuote hs' hb =>
    have hm := lexStep_quote (hcode (.inr hs')) hb false
    exact ⟨by simpa using hs.copy _, by simp [cssFits, hm]⟩
  case textBlankDrop b t hs' hb _ | textBreak b t hs' hb =>
    have hm : lexStep false s.mode b = .code := by
      rcases hb with rfl | rfl <;> exact lexStep_plain (hcode (.inl hs')) (by decide) false
    have hdrop := hs.drop (hplain (.inl hs')) (by rw [hm]; rfl)
    exact ⟨by simpa using hdrop, by simp [cssFits, hs', hm]⟩
  case braceBlank b t hs' hb =>
    have hm : lexStep false s.mode b = .code := by
      rcases hb with ⟨rfl, -⟩ | rfl | rfl | rfl <;> exact lexStep_plain (hcode (.inr hs')) (by decide) false
    have hdrop := hs.drop (hplain (.inr hs')) (by rw [hm]; rfl)
    exact ⟨by simpa using hdrop, by simp [cssFits, hs', hm]⟩
  case textComment t hs' =>
    have hm := lexStep_slash (hcode (.inl hs'))
    have hdrop := hs.drop_pair (b := star) (hplain (.inl hs')) (by rw [hm]; rfl) (by rw [hm]; rfl)
    exact ⟨by simpa using hdrop, by simp [cssFits, InBlock, hm]⟩
  case braceComment t hs' =>
    have hm := lexStep_slash (hcode (.inr hs'))
    have hdrop := hs.drop_pair (b := star) (hplain (.inr hs')) (by rw [hm]; rfl) (by rw [hm]; rfl)
    exact ⟨by simpa using hdrop, by simp [cssFits, InBlock, hm]⟩
  case commentClose t hs' =>
    have hm : lexStep false s.mode star = .star := (hblock hs').star
    have hpop := (cssStacks_pop hx (.inr hs')).2.2
    have hdrop := hs.drop_pair (b := slash) (hblock hs').outside (by rw [hm]; rfl) (by rw [hm]; rfl)
    refine ⟨by simpa using hdrop, ?_⟩
    rcases List.mem_pair.mp hpop with hpop | hpop <;> simp [cssFits, hpop, hm]
  case commentStar b t hs' hb =>
    have hm : lexStep false s.mode star = .star := (hblock hs').star
    have hdrop := hs.drop (hblock hs').outside (by rw [hm]; rfl)
    exact ⟨by simpa using hdrop, by simpa [cssFits, InBlock, hs', hm] using hb⟩
  case commentByte b t hs' hb =>
    have hm : lexStep false s.mode b = .block := (hblock hs').byte hb
    have hdrop := hs.drop (hblock hs').outside (by rw [hm]; rfl)
    exact ⟨by simpa using hdrop, by simp [cssFits, InBlock, hs', hm]⟩
  case quoteEscape b t hs' =>
    have hm : s.mode = .str x.quoteChar := by simpa [cssFits, hs'] using hfits
    exact ⟨by simpa using (hs.copy backslash).copy b, by simp [cssFits, hs', hm]⟩
  case quoteClose t hs' hq =>
    have hm : s.mode = .str x.quoteChar := by simpa [cssFits, hs'] using hfits
    have hpop := (cssStacks_pop hx (.inl hs')).2.2
    refine ⟨by simpa using hs.copy _, ?_⟩
    rcases List.mem_pair.mp hpop with hpop | hpop <;> simp [cssFits, hpop, hm, lexStep_quoted hq]
  case quoteByte b t hs' hb =>
    have hm : s.mode = .str x.quoteChar := by simpa [cssFits, hs'] using hfits
    exact ⟨by simpa using hs.copy b, by simp [cssFits, hs', hm, lexStep_byte hb]⟩
  case commentLeave | quoteLeave | braceCallQuote | braceCallComment | braceLeave | callComment |
      callQuote | callBrace => exact ⟨by simpa using hs, hfits⟩
  all_goals simp at hy

/-- The CSS minifier holds back the first byte of a comment delimiter or of an escape. -/
theorem CssRule.holds_delim {a : List UInt8} (h : CssRule x r u (Ev.holds a u) y nxt) (hx : x.cache = [])
    (hy : y.cache = u) : u ∈ heldDelims := by
  generalize Ev.holds a u = es at h
  cases h <;> simp_all [heldDelims]

end Css

theorem cssLexAgrees : TraceInv cssMachine fun v =>
    EachTurn (lexTurn false CssLexes) v.trace → LexAgrees false cssFits v := by
  apply lexAgrees_inv
  · exact .inl rfl
  · intro st q u m buf h
    cases st <;> first | exact h | exact InBlock.append h buf
  · intro d r x u es y nxt s out hfit hrule hy hs hcond hfits
    have hstack : x.state ∈ cssStates r := CssFit.stack hfit
    exact CssRule.lexes hrule (cssStates_subset hstack) hy hs hcond hfits
  · intro d r x u a y hrule hx hy
    exact CssRule.holds_delim hrule hx hy

/-- A style sheet keeps its string literals, in their order, if no iteration takes a quote together
with the slash before it or misses a comment behind two slashes. -/
theorem css_literals_kept {cap : Option ℕ} {bufs : List (List UInt8)} {s : Session}
    (h : feedAll Flat cap .css .start bufs = .ok s)
    (hturns : EachTurn (lexTurn false CssLexes) s.trace) :
    InOrder (stringLiterals false bufs.flatten) s.out := by
  obtain ⟨c, hreach, hnil, rfl, -⟩ := feedAll_ok h
  have hpending : c.pending = c.ctx.cache := by rw [Conf.pending, hnil, List.append_nil]
  have hsplit := hreach.split
  have hagrees : LexAgrees false cssFits (At.view bufs ⟨cssMachine.top, [], c⟩) :=
    cssLexAgrees.reach hreach hturns
  have hlit := hagrees.literals
  rw [← hsplit]
  simp only [hpending]
  exact hlit

/-- The style sheet `"a"`. -/
theorem css_literals_kept_a : ∃ s, feedAll Flat none .css .start [[dquote, 97, dquote]] = .ok s ∧
    InOrder (stringLiterals false [[dquote, 97, dquote]].flatten) s.out := by
  have hrun : (feedAll Stream none .css .start [[dquote, 97, dquote]]).map
      (fun s => decide (EachTurn (lexTurn false CssLexes) s.trace)) = .ok true := by decide
  obtain ⟨s, hs, hturns⟩ := exists_run hrun
  exact ⟨s, hs, css_literals_kept hs (of_decide_eq_true hturns)⟩

/-- The literal `"b  c"` behind a slash loses a space. -/
theorem css_literal_lost : ¬ ∀ (bufs : List (List UInt8)) (s : Session),
    feedAll Flat none .css .start bufs = .ok s → InOrder (stringLiterals false bufs.flatten) s.out := by
  intro h
  have hrun : (feedAll Stream none .css .start [[slash, dquote, 98, space, space, 99, dquote]]).map
      Session.out = .ok [slash, dquote, 98, space, 99, dquote] := by decide
  obtain ⟨s, hs, hout⟩ := exists_run hrun
  have hlit : stringLiterals false [[slash, dquote, 98, space, space, 99, dquote]].flatten =
      [[dquote, 98, space, space, 99, dquote]] := by decide
  have hkept := h _ s hs
  rw [hlit, hout] at hkept
  exact absurd hkept.isInfix (by decide)


/-! ## Scripts -/

/-- The modes that a state of the JavaScript minifier stands for; between brackets it may be any. -/
def jsFits (st : MinifyState) (q : UInt8) (u : List UInt8) (m : LexMode) : Prop :=
  match st with
  | .text => m = .code
  | .jsComment => InBlock u m
  | .jsCommentLine => m = .line
  | .jsQuote => m = .str q ∨ q = rbracket
  | _ => False

/-- An iteration in which the JavaScript minifier takes no quote together with the slash before it, and
leaves no bracket in the middle of a string literal or of a comment. -/
def JsLexes (x : Ctx) (u : List UInt8) (m : LexMode) : Prop :=
  (x.state.top = .text → ¬ SlashQuote u) ∧
    (x.state.top = .jsQuote → x.quoteChar = rbracket → u.head? = some rbracket → m = .code ∨ m = .slash)

instance (x : Ctx) (u : List UInt8) (m : LexMode) : Decidable (JsLexes x u m) :=
  inferInstanceAs (Decidable ((_ → _) ∧ (_ → _ → _ → _)))

section Js
variable {x y : Ctx} {r : Routine} {u out : List UInt8} {es : List Ev} {nxt : Next} {s : Lexed} {d : ℕ}

theorem JsRule.lexes (h : JsRule d x r u es y nxt) (hy : y.cache = []) (hs : Kept s out)
    (hcond : JsLexes x u s.mode) (hfits : jsFits x.state.top x.quoteChar u s.mode) :
    Kept ((u.take (Ev.takes es)).foldl (Lexed.read true) s) (out ++ emitted (Ev.items x es u)) ∧
      jsFits y.state.top y.quoteChar (u.drop (Ev.takes es))
        ((u.take (Ev.takes es)).foldl (Lexed.read true) s).mode := by
  have hcode (hs' : x.state = ⟨.text, []⟩) : s.mode = .code := by
    rw [hs'] at hfits
    exact hfits
  have hplain (hs' : x.state = ⟨.text, []⟩) : s.mode.inString = false := by rw [hcode hs']; rfl
  have hblock (hs' : x.state = ⟨.jsComment, [.text]⟩) : InBlock u s.mode := by
    rw [hs'] at hfits
    exact hfits
  have hline (hs' : x.state = ⟨.jsCommentLine, [.text]⟩) : s.mode = .line := by
    rw [hs'] at hfits
    exact hfits
  have hquote (hs' : x.state = ⟨.jsQuote, [.text]⟩) : s.mode = .str x.quoteChar ∨ x.quoteChar = rbracket := by
    rw [hs'] at hfits
    exact hfits
  cases h
  case textByte b t hs' hb hq _ =>
    have hm : lexStep true s.mode b = .code := by
      rw [hcode hs', lexStep, lexCode, if_neg hb.1, if_neg (by simp [hq])]
    exact ⟨by simpa using hs.copy b, by simp [jsFits, hs', hm]⟩
  case textBreak t hs' hp =>
    have hm : lexStep true s.mode lf = .code := by rw [hcode hs']; rfl
    exact ⟨by simpa using hs.copy lf, by simp [jsFits, hs', hm]⟩
  case textBreakDrop t hs' hp =>
    have hm : lexStep true s.mode lf = .code := by rw [hcode hs']; rfl
    have hdrop := hs.drop (hplain hs') (by rw [hm]; rfl)
    exact ⟨by simpa using hdrop, by simp [jsFits, hs', hm]⟩
  case textReturn t hs' =>
    have hm : lexStep true s.mode cr = .code := by rw [hcode hs']; rfl
    have hdrop := hs.drop (hplain hs') (by rw [hm]; rfl)
    exact ⟨by simpa using hdrop, by simp [jsFits, hs', hm]⟩
  case textBlank b t hs' hb _ =>
    have hm : lexStep true s.mode b = .code := by
      rw [hcode hs']
      rcases hb with rfl | rfl <;> rfl
    have hdrop := hs.drop (hplain hs') (by rw [hm]; rfl)
    exact ⟨by simpa using hdrop, by simp [jsFits, hs', hm]⟩
  case textComment t hs' =>
    have hm : lexStep true s.mode slash = .slash := by rw [hcode hs']; rfl
    have hdrop := hs.drop_pair (b := star) (hplain hs') (by rw [hm]; rfl) (by rw [hm]; rfl)
    exact ⟨by simpa using hdrop, by simp [jsFits, InBlock, hm]⟩
  case textLine t hs' =>
    have hm : lexStep true s.mode slash = .slash := by rw [hcode hs']; rfl
    have hm' : lexStep true .slash slash = .line := rfl
    have hdrop := hs.drop_pair (b := slash) (hplain hs') (by rw [hm]; rfl) (by rw [hm]; rfl)
    exact ⟨by simpa using hdrop, by simp [jsFits, hm, hm']⟩
  case textSlash b t hs' hb =>
    have hm : lexStep true s.mode slash = .slash := by rw [hcode hs']; rfl
    have hq := SlashQuote.not (hcond.1 (by rw [hs']))
    have hm' : lexStep true .slash b = .code := by
      rw [lexStep, if_neg hb.1, if_neg (fun h => hb.2 h.2), lexCode, if_neg hb.2, if_neg (by simp [hq])]
    exact ⟨by simpa using (hs.copy slash).copy b, by simp [jsFits, hs', hm, hm']⟩
  case textQuote b t hs' hb =>
    refine ⟨by simpa using hs.copy b, ?_⟩
    rcases hb with rfl | rfl | rfl
    · simp [jsFits, hcode hs', lexStep_quote]
    · simp [jsFits, hcode hs', lexStep_quote]
    · simp [jsFits]
  case commentClose t hs' =>
    have hm : lexStep true s.mode star = .star := (hblock hs').star
    have hdrop := hs.drop_pair (b := slash) (hblock hs').outside (by rw [hm]; rfl) (by rw [hm]; rfl)
    exact ⟨by simpa using hdrop, by simp [jsFits, hm]⟩
  case commentStar b t hs' hb =>
    have hm : lexStep true s.mode star = .star := (hblock hs').star
    have hdrop := hs.drop (hblock hs').outside (by rw [hm]; rfl)
    exact ⟨by simpa using hdrop, by simpa [jsFits, InBlock, hs', hm] using hb⟩
  case commentByte b t hs' hb =>
    have hm : lexStep true s.mode b = .block := (hblock hs').byte hb
    have hdrop := hs.drop (hblock hs').outside (by rw [hm]; rfl)
    exact ⟨by simpa using hdrop, by simp [jsFits, InBlock, hs', hm]⟩
  case lineEnd t hs' =>
    have hm : lexStep true s.mode lf = .code := by rw [hline hs']; rfl
    have hpass := hs.pass (by rw [hline hs']; rfl) (by rw [hm]; rfl) [space]
    exact ⟨by simpa using hpass, by simp [jsFits, hm]⟩
  case lineByte b t hs' hb =>
    have hm : lexStep true s.mode b = .line := by rw [hline hs', lexStep, if_neg hb]
    have hdrop := hs.drop (by rw [hline hs']; rfl) (by rw [hm]; rfl)
    exact ⟨by simpa using hdrop, by simp [jsFits, hs', hm]⟩
  case quoteEscape b t hs' =>
    refine ⟨by simpa using (hs.copy backslash).copy b, ?_⟩
    rcases hquote hs' with hm | hq
    · simp [jsFits, hs', hm]
    · simp [jsFits, hs', hq]
  case quoteClose t hs' hq =>
    refine ⟨by simpa using hs.copy _, ?_⟩
    rcases hquote hs' with hm | hbracket
    · simp [jsFits, hm, lexStep_quoted hq]
    · have hcode := hcond.2 (by rw [hs']) hbracket (by rw [hbracket]; rfl)
      have hm : lexStep true s.mode x.quoteChar = .code := by
        rw [hbracket]
        rcases hcode with hm | hm <;> rw [hm] <;> rfl
      simp [jsFits, hm]
  case quoteByte b t hs' hb =>
    refine ⟨by simpa using hs.copy b, ?_⟩
    rcases hquote hs' with hm | hq
    · simp [jsFits, hs', hm, lexStep_byte hb]
    · simp [jsFits, hs', hq]
  case commentLeave | quoteLeave | callComment | callQuote => exact ⟨by simpa using hs, hfits⟩
  all_goals simp at hy

/-- The JavaScript minifier holds back the first byte of a comment delimiter or of an escape. -/
theorem JsRule.holds_delim {a : List UInt8} (h : JsRule d x r u (Ev.holds a u) y nxt) (hx : x.cache = [])
    (hy : y.cache = u) : u ∈ heldDelims := by
  generalize Ev.holds a u = es at h
  cases h <;> simp_all [heldDelims]

end Js

theorem jsLexAgrees : TraceInv jsMachine fun v =>
    EachTurn (lexTurn true JsLexes) v.trace → LexAgrees true jsFits v := by
  apply lexAgrees_inv
  · exact rfl
  · intro st q u m buf h
    cases st <;> first | exact h | exact InBlock.append h buf
  · intro d r x u es y nxt s out hfit hrule hy hs hcond hfits
    exact JsRule.lexes hrule hy hs hcond hfits
  · intro d r x u a y hrule hx hy
    exact JsRule.holds_delim hrule hx hy

/-- A script keeps its string literals, in their order, if no iteration takes a quote together with the
slash before it or leaves a bracket in the middle of a string literal or of a comment. -/
theorem js_literals_kept {cap : Option ℕ} {bufs : List (List UInt8)} {s : Session}
    (h : feedAll Flat cap .js .start bufs = .ok s) (hturns : EachTurn (lexTurn true JsLexes) s.trace) :
    InOrder (stringLiterals true bufs.flatten) s.out := by
  obtain ⟨c, hreach, hnil, rfl, -⟩ := feedAll_ok h
  have hpending : c.pending = c.ctx.cache := by rw [Conf.pending, hnil, List.append_nil]
  have hsplit := hreach.split
  have hagrees : LexAgrees true jsFits (At.view bufs ⟨jsMachine.top, [], c⟩) :=
    jsLexAgrees.reach hreach hturns
  have hlit := hagrees.literals
  rw [← hsplit]
  simp only [hpending]
  exact hlit

/-- The script `["a"]`. -/
theorem js_literals_kept_a : ∃ s, feedAll Flat none .js .start [[lbracket, dquote, 97, dquote, rbracket]] = .ok s ∧
    InOrder (stringLiterals true [[lbracket, dquote, 97, dquote, rbracket]].flatten) s.out := by
  have hrun : (feedAll Stream none .js .start [[lbracket, dquote, 97, dquote, rbracket]]).map
      (fun s => decide (EachTurn (lexTurn true JsLexes) s.trace)) = .ok true := by decide
  obtain ⟨s, hs, hturns⟩ := exists_run hrun
  exact ⟨s, hs, js_literals_kept hs (of_decide_eq_true hturns)⟩

/-- In `["]""  "` the bracket is taken to end in the first literal, and the second one loses a space. -/
theorem js_literal_lost : ¬ ∀ (bufs : List (List UInt8)) (s : Session),
    feedAll Flat none .js .start bufs = .ok s → InOrder (stringLiterals true bufs.flatten) s.out := by
  intro h
  have hrun : (feedAll Stream none .js .start
      [[lbracket, dquote, rbracket, dquote, dquote, space, space, dquote]]).map Session.out =
        .ok [lbracket, dquote, rbracket, dquote, dquote, space, dquote] := by decide
  obtain ⟨s, hs, hout⟩ := exists_run hrun
  have hlit : stringLiterals true
      [[lbracket, dquote, rbracket, dquote, dquote, space, space, dquote]].flatten =
        [[dquote, rbracket, dquote], [dquote, space, space, dquote]] := by decide
  have hkept := h _ s hs
  rw [hlit, hout] at hkept
  obtain ⟨before, after, htext, hafter⟩ := hkept
  have hsuffix : after <:+ [lbracket, dquote, rbracket, dquote, dquote, space, dquote] :=
    ⟨before ++ [dquote, rbracket, dquote], by rw [htext, List.append_assoc]⟩
  exact absurd (hafter.isInfix.trans hsuffix.isInfix) (by decide)

end NginB.Minify
