import NginB.Minify.CssPartition
import NginB.Minify.OneBuffer

/-! # A style sheet in one buffer, byte for byte

In one buffer the CSS minifier is a Mealy machine: what it does with a byte depends on whether it is
in a rule block, on `pre_char`, and on whether a comment has frozen `pre_char` for the rest of the
block.
-/
namespace NginB.Minify
open NginB.Program Relation Ascii

/-- In `slash`, `star` and `esc` the last byte waits for the next one. -/
inductive CssMode
  | plain | slash | comment | star | str | esc
  deriving DecidableEq

structure CssScan where
  mode : CssMode
  /-- in a rule block -/
  block : Bool
  quote : UInt8
  pre : UInt8
  /-- the last byte written -/
  last : UInt8
  /-- `pre` stays as it is -/
  frozen : Bool
  deriving DecidableEq

namespace CssScan
variable (m : CssScan)

def start : CssScan := ⟨.plain, false, 0, 0, 0, false⟩

@[simp] def Drops (b : UInt8) : Prop :=
  if m.block = true then (b = space ∧ m.pre = space) ∨ b = lf ∨ b = cr ∨ b = tab
  else (Blank b ∧ Blank m.pre) ∨ b = lf ∨ b = cr

instance (b : UInt8) : Decidable (m.Drops b) := by
  unfold Drops
  infer_instance

@[simp] def writes (b : UInt8) : List UInt8 :=
  match m.mode with
  | .plain => if m.Drops b ∨ b = slash then [] else [b]
  | .slash => if b = star then [] else [slash, b]
  | .comment | .star => []
  | .str => if b = backslash then [] else [b]
  | .esc => [backslash, b]

@[simp] def wrote (bytes : List UInt8) : CssScan :=
  { m with
    last := bytes.getLastD m.last
    pre := if m.frozen then m.pre else bytes.getLastD m.last }

@[simp] def goes (b : UInt8) : CssScan :=
  match m.mode with
  | .plain =>
    if b = slash then { m with mode := .slash }
    else if b = dquote ∨ b = squote then { m with mode := .str, quote := b }
    else if m.block = true ∧ b = rbrace then { m with block := false, frozen := false }
    else if m.block = false ∧ b = lbrace then { m with block := true }
    else m
  | .slash => if b = star then { m with mode := .comment, frozen := m.block } else { m with mode := .plain }
  | .comment => if b = star then { m with mode := .star } else m
  | .star => { m with mode := if b = slash then .plain else if b = star then .star else .comment }
  | .str =>
    if b = backslash then { m with mode := .esc }
    else if b = m.quote then { m with mode := .plain }
    else m
  | .esc => { m with mode := .str }

structure Sound : Prop where
  thawed : m.block = false → m.frozen = false
  pre : m.frozen = true ∨ m.pre = m.last ∨ m.block = false ∧ m.mode = .plain ∧ m.last = rbrace
  comment : m.block = true → m.mode = .comment ∨ m.mode = .star → m.frozen = true

end CssScan

def cssScan : Mealy CssScan UInt8 UInt8 where
  next m b := (m.wrote (m.writes b)).goes b
  emit := CssScan.writes

@[simp] theorem cssScan_next (m : CssScan) (b : UInt8) :
    cssScan.next m b = (m.wrote (m.writes b)).goes b := rfl

@[simp] theorem cssScan_emit (m : CssScan) (b : UInt8) : cssScan.emit m b = m.writes b := rfl

theorem CssScan.Sound.next {m : CssScan} (h : m.Sound) (b : UInt8) : (cssScan.next m b).Sound := by
  obtain ⟨mode, block, quote, pre, last, frozen⟩ := m
  obtain ⟨hthawed, hpre, hcomment⟩ := h
  simp only at hthawed hpre hcomment
  constructor
  case thawed => cases mode <;> simp <;> (try split_ifs) <;> simp_all
  case comment => cases mode <;> simp <;> (try split_ifs) <;> simp_all
  case pre =>
    cases frozen with
    | true =>
      cases mode <;> simp <;> (try split_ifs) <;> simp_all
    | false =>
      cases mode <;> simp <;> (try split_ifs) <;> simp_all

theorem CssScan.sound_start : CssScan.start.Sound := ⟨fun _ => rfl, .inr (.inl rfl), fun h => nomatch h⟩

theorem CssScan.Sound.run {m : CssScan} (h : m.Sound) (w : List UInt8) : (cssScan.run m w).Sound := by
  induction w generalizing m with
  | nil => exact h
  | cons b w ih => exact ih (h.next b)

/-- The machine is where the minifier is: `u` is unread and `out` has been written, newest first. -/
structure CssLive (r : Routine) (x : Ctx) (u out : List UInt8) (m : CssScan) : Prop where
  sound : m.Sound
  quote : m.quote = x.quoteChar
  last : m.last = out.headD 0
  wrote : m.block = true → out ≠ []
  fresh : r ≠ .cssStripQuote → x.nochangePre = false → x.preChar = m.last
  text : x.state.top = .text → m.mode = .plain ∧ m.block = false ∧ m.pre = x.preChar ∧
    (r = .cssStripQuote → x.nochangePre = true)
  brace : x.state.top = .cssBrace → m.mode = .plain ∧ m.block = true ∧ m.frozen = x.nochangePre ∧
    (m.frozen = true → m.pre = x.preChar)
  textQuote : x.state = ⟨.cssQuote, [.text]⟩ → m.mode = .str ∧ m.block = false ∧
    x.preChar = x.quoteChar ∧ (r = .cssStripQuote → x.nochangePre = true) ∧ r ≠ .cssStripBrace
  braceQuote : x.state = ⟨.cssQuote, [.cssBrace, .text]⟩ → m.mode = .str ∧ m.block = true ∧
    m.frozen = x.nochangePre ∧ (m.frozen = true → m.pre = x.preChar) ∧ r ≠ .cssStripBuffer
  comment : x.state.top = .cssComment → (m.mode = .comment ∨ m.mode = .star ∧ u.head? ≠ some slash) ∧
    m.pre = x.preChar ∧ (r = .cssStripComment → x.nochangePre = true) ∧
      (x.state = ⟨.cssComment, [.text]⟩ ∧ m.block = false ∨
        x.state = ⟨.cssComment, [.cssBrace, .text]⟩ ∧ m.block = true ∧ r ≠ .cssStripBuffer)

namespace CssLive
variable {x y : Ctx} {r r' : Routine} {u u' out out' : List UInt8} {m : CssScan} {nxt : Next}

theorem braceComment (h : CssLive r x u out m) (hs : x.state.top = .cssComment) (hb : m.block = true) :
    m.frozen = true :=
  h.sound.comment hb ((h.comment hs).1.imp_right fun h => h.1)

/-- In the loops of the text and of the rule blocks the machine has the same `pre_char`. -/
theorem brace_pre (h : CssLive .cssStripBrace x u out m) (hs : x.state.top = .cssBrace) :
    m.pre = x.preChar := by
  obtain ⟨-, hblock, hfrozen, hpre⟩ := h.brace hs
  by_cases hm : m.frozen = true
  · exact hpre hm
  · have hfresh := h.fresh (by decide) (by rw [← hfrozen]; simpa using hm)
    rcases h.sound.pre with hf | hlast | ⟨hb, -⟩
    · exact absurd hf hm
    · rw [hlast, hfresh]
    · rw [hb] at hblock
      cases hblock

/-- Before anything has been written `pre_char` is 0. -/
theorem text_pre (h : CssLive r x u out m) (hs : x.state.top = .text) (hnil : out = []) : x.preChar = 0 := by
  obtain ⟨-, hblock, hpre, -⟩ := h.text hs
  have hlast := h.last
  rw [hnil] at hlast
  rw [← hpre]
  rcases h.sound.pre with hf | hp | ⟨-, -, hl⟩
  · rw [h.sound.thawed hblock] at hf
    cases hf
  · rw [hp, hlast]
    rfl
  · rw [hl] at hlast
    cases hlast

theorem of_text (hno : y.nochangePre = false) (hs : m.Sound) (hq : m.quote = y.quoteChar)
    (hlast : m.last = out'.headD 0) (hpre : m.pre = m.last) (hnil : out' = [] → y.preChar = 0)
    (hshape : y.state = ⟨.text, []⟩ ∧ m.mode = .plain ∧ m.block = false ∨
      y.state = ⟨.cssComment, [.text]⟩ ∧ m.mode = .comment ∧ m.block = false ∨
      y.state = ⟨.cssQuote, [.text]⟩ ∧ m.mode = .str ∧ m.block = false ∧ m.last = y.quoteChar ∨
      y.state = ⟨.cssBrace, [.text]⟩ ∧ m.mode = .plain ∧ m.block = true ∧ m.frozen = false ∧ out' ≠ []) :
    CssLive .cssStripBuffer (Next.again.ended .cssStripBuffer out'.length out' y) u' out' m := by
  have hp : (Next.again.ended .cssStripBuffer out'.length out' y).preChar = m.last := by
    rw [ended_preChar rfl (by simp), hlast]
    split
    · next h =>
      rw [hno, Bool.false_eq_true, false_or, List.length_eq_zero_iff] at h
      rw [hnil h, h]
      rfl
    · rfl
  rcases hshape with ⟨hst, hm, hb⟩ | ⟨hst, hm, hb⟩ | ⟨hst, hm, hb, hl⟩ | ⟨hst, hm, hb, hf, hne⟩ <;>
    constructor <;> simp_all

/-- The loop of the rule blocks after an iteration. -/
theorem of_brace (hs : m.Sound) (hq : m.quote = y.quoteChar) (hlast : m.last = out'.headD 0)
    (hne : out' ≠ []) (hpre : m.pre = if y.nochangePre = true then y.preChar else m.last)
    (hshape : y.state = ⟨.text, []⟩ ∧ m.mode = .plain ∧ m.block = false ∨
      y.state = ⟨.cssBrace, [.text]⟩ ∧ m.mode = .plain ∧ m.block = true ∧ m.frozen = y.nochangePre ∨
      y.state = ⟨.cssComment, [.cssBrace, .text]⟩ ∧ m.mode = .comment ∧ m.block = true ∨
      y.state = ⟨.cssQuote, [.cssBrace, .text]⟩ ∧ m.mode = .str ∧ m.block = true ∧ m.frozen = y.nochangePre) :
    CssLive .cssStripBrace (Next.again.ended .cssStripBrace out'.length out' y) u' out' m := by
  have hp : (Next.again.ended .cssStripBrace out'.length out' y).preChar = m.pre := by
    rw [ended_preChar rfl (by simp), hpre, hlast]
    have hlen : out'.length ≠ 0 := fun h => hne (List.length_eq_zero_iff.mp h)
    simp only [hlen, or_false]
  have hf : y.nochangePre = false → m.pre = m.last := by
    intro hno
    rw [hpre, hno]
    rfl
  rcases hshape with ⟨hst, hm, hb⟩ | ⟨hst, hm, hb, hf⟩ | ⟨hst, hm, hb⟩ | ⟨hst, hm, hb, hf⟩ <;>
    constructor <;> simp_all

/-- Where the text or a rule block goes on, a loop that is left goes back to a loop that waited. -/
theorem left {r'' : Routine} (h : CssLive r x u out m) (hn : ∀ r', nxt ≠ .call r')
    (hs : x.state.top ∈ [MinifyState.text, .cssBrace]) (hr' : r' = .cssStripBuffer ∨ r' = .cssStripBrace)
    (hr'' : r'' ≠ .cssStripQuote) : CssLive r'' (nxt.ended r' out.length out x) u' out m := by
  have hrefresh : r'.refreshes = true := by rcases hr' with rfl | rfl <;> rfl
  have hp : (nxt.ended r' out.length out x).preChar = if x.nochangePre = true then x.preChar else m.last := by
    rw [ended_preChar hrefresh hn, h.last]
    by_cases hno : x.nochangePre = true
    · simp [hno]
    · by_cases hnil : out = []
      · rcases List.mem_pair.mp hs with hs | hs
        · simp [hno, hnil, h.text_pre hs hnil]
        · exact absurd hnil (h.wrote (h.brace hs).2.1)
      · simp [hno, hnil]
  have hq : ∀ below, x.state ≠ ⟨.cssQuote, below⟩ := by
    intro below he
    rw [he] at hs
    exact absurd hs (by simp)
  have hc : x.state.top ≠ .cssComment := by
    intro he
    rw [he] at hs
    exact absurd hs (by simp)
  constructor
  case sound => exact h.sound
  case quote => rw [Next.ended_quoteChar]; exact h.quote
  case last => exact h.last
  case wrote => exact h.wrote
  case fresh =>
    intro _ hno
    rw [Next.ended_nochangePre] at hno
    rw [hp, hno]
    rfl
  case text =>
    intro htext
    rw [Next.ended_state] at htext
    obtain ⟨hm, hb, hpre, hquote⟩ := h.text htext
    refine ⟨hm, hb, ?_, fun he => absurd he hr''⟩
    rw [hp]
    split
    · exact hpre
    · next hno =>
      rw [hpre]
      exact h.fresh (fun he => hno (hquote he)) (by simpa using hno)
  case brace =>
    intro hbrace
    rw [Next.ended_state] at hbrace
    obtain ⟨hm, hb, hf, hpre⟩ := h.brace hbrace
    rw [Next.ended_nochangePre]
    refine ⟨hm, hb, hf, fun hfrozen => ?_⟩
    rw [hp, ← hf, if_pos hfrozen]
    exact hpre hfrozen
  all_goals
    intro he
    rw [Next.ended_state] at he
  case textQuote | braceQuote => exact absurd he (hq _)
  case comment => exact absurd he hc

end CssLive

section Rules
variable {x y : Ctx} {r : Routine} {u out out' : List UInt8} {es : List Ev} {m : CssScan}

/-- The machine writes what an iteration writes. -/
theorem CssRule.scans {nxt : Next} (h : CssRule x r u es y nxt) (hx : CssLive r x u out m)
    (hst : x.state ∈ cssStacks) (hy : y.cache = []) :
    cssScan.out m (u.take (Ev.takes es)) = emitted (Ev.items x es u) := by
  cases h
  case commentClose hs =>
    rcases (hx.comment hs).1 with hm | ⟨hm, -⟩ <;> simp [hm]
  case commentStar hs _ | commentByte hs _ =>
    rcases (hx.comment hs).1 with hm | ⟨hm, -⟩ <;> simp [hm]
  case quoteEscape hs =>
    rcases cssStacks_quote hst hs with hq | hq
    · simp [(hx.textQuote hq).1]
    · simp [(hx.braceQuote hq).1]
  case quoteClose hs hne =>
    rcases cssStacks_quote hst hs with hq | hq
    · simp [(hx.textQuote hq).1, hne]
    · simp [(hx.braceQuote hq).1, hne]
  case quoteByte hs hb =>
    rcases cssStacks_quote hst hs with hq | hq
    · simp [(hx.textQuote hq).1, hb.1]
    · simp [(hx.braceQuote hq).1, hb.1]
  case commentLeave | quoteLeave | braceCallQuote | braceCallComment | braceLeave | callComment
    | callQuote | callBrace => rfl
  case braceClose hs => simp [(hx.brace hs).1, (hx.brace hs).2.1]
  case braceBlank hs hb =>
    rw [← hx.brace_pre hs] at hb
    simp [(hx.brace hs).1, (hx.brace hs).2.1, hb]
  case braceComment hs => simp [(hx.brace hs).1]
  case braceSlash hs hb => simp [(hx.brace hs).1, hb]
  case braceQuote hs hb => rcases hb with rfl | rfl <;> simp [(hx.brace hs).1, (hx.brace hs).2.1]
  case braceByte hs hb hq hp =>
    rw [← hx.brace_pre hs] at hp
    simp [(hx.brace hs).1, (hx.brace hs).2.1, hp, hb.2]
  case textBlankDrop hs hb hp =>
    obtain ⟨hmode, hblock, hpre, -⟩ := hx.text hs
    rw [← hpre] at hp
    simp [hmode, hblock, hb, hp]
  case textBlank hs hb hp =>
    obtain ⟨hmode, hblock, hpre, -⟩ := hx.text hs
    rw [← hpre] at hp
    rcases hb with rfl | rfl <;> simp [hmode, hblock, hp]
  case textComment hs => simp [(hx.text hs).1]
  case textSlash hs hb => simp [(hx.text hs).1, hb]
  case textQuote hs hb => rcases hb with rfl | rfl <;> simp [(hx.text hs).1, (hx.text hs).2.1]
  case textOpen hs => simp [(hx.text hs).1, (hx.text hs).2.1]
  case textBreak hs hb => simp [(hx.text hs).1, (hx.text hs).2.1, hb]
  case textByte hs hb hq hn => simp [(hx.text hs).1, (hx.text hs).2.1, hb, hn]
  all_goals simp at hy

theorem CssRule.live_text (h : CssRule x .cssStripBuffer u es y .again)
    (hx : CssLive .cssStripBuffer x u out m) (hst : x.state ∈ cssStacks) (hy : y.cache = [])
    (hout : out' = (emitted (Ev.items x es u)).reverse ++ out) :
    CssLive .cssStripBuffer (Next.again.ended .cssStripBuffer out'.length out' y) (u.drop (Ev.takes es)) out'
      (cssScan.run m (u.take (Ev.takes es))) := by
  have hs : x.state.top = .text := by cases h <;> assumption
  have hstack := cssStacks_text hst hs
  have hsound := hx.sound.run (u.take (Ev.takes es))
  obtain ⟨hmode, hblock, hpre, -⟩ := hx.text hs
  have hnil := hx.text_pre hs
  have hquote := hx.quote
  have hlast := hx.last
  have hfrozen := hx.sound.thawed hblock
  obtain ⟨mode, block, quote, pre, last, frozen⟩ := m
  simp only at hmode hblock hpre hquote hlast hfrozen
  subst hmode hblock hpre hquote hlast hfrozen hout
  cases h
  case textBlankDrop hb hp =>
    rcases hb with rfl | rfl <;> apply CssLive.of_text rfl hsound <;> simp [hp, hstack] <;> exact hnil
  case textBlank hb hp =>
    rw [not_or] at hp
    rcases hb with rfl | rfl <;> apply CssLive.of_text rfl hsound <;> simp [hp, hstack]
  case textComment =>
    apply CssLive.of_text rfl hsound <;> simp [hstack]
    exact hnil
  case textSlash hb => apply CssLive.of_text rfl hsound <;> simp [hb, hstack]
  case textQuote hb => rcases hb with rfl | rfl <;> apply CssLive.of_text rfl hsound <;> simp [hstack]
  case textOpen => apply CssLive.of_text rfl hsound <;> simp [hstack]
  case textBreak hb =>
    rcases hb with rfl | rfl <;> apply CssLive.of_text rfl hsound <;> simp [hstack] <;> exact hnil
  case textByte hb hq hn => apply CssLive.of_text rfl hsound <;> simp [hb, hq, hn, hstack]
  case textHold => simp at hy

/-- An iteration of the loop of the rule blocks. -/
theorem CssRule.live_brace (h : CssRule x .cssStripBrace u es y .again)
    (hx : CssLive .cssStripBrace x u out m) (hst : x.state ∈ cssStacks) (hy : y.cache = [])
    (hout : out' = (emitted (Ev.items x es u)).reverse ++ out) :
    CssLive .cssStripBrace (Next.again.ended .cssStripBrace out'.length out' y) (u.drop (Ev.takes es)) out'
      (cssScan.run m (u.take (Ev.takes es))) := by
  have hs : x.state.top = .cssBrace := by cases h <;> assumption
  have hstack := cssStacks_brace hst hs
  have hsound := hx.sound.run (u.take (Ev.takes es))
  have hpre := hx.brace_pre hs
  obtain ⟨hmode, hblock, hfrozen, -⟩ := hx.brace hs
  have hne := hx.wrote hblock
  have hquote := hx.quote
  have hlast := hx.last
  obtain ⟨mode, block, quote, pre, last, frozen⟩ := m
  simp only at hmode hblock hpre hquote hlast hfrozen
  subst hmode hblock hpre hquote hlast hfrozen hout
  cases h
  case braceHold => simp at hy
  case braceClose => apply CssLive.of_brace hsound <;> simp [hstack]
  case braceBlank hb =>
    rcases hb with ⟨rfl, hp⟩ | rfl | rfl | rfl <;> apply CssLive.of_brace hsound <;> simp [*]
  case braceComment =>
    apply CssLive.of_brace hsound <;> simp [hstack, hne]
    intro hthawed hfrozen
    rw [hthawed] at hfrozen
    cases hfrozen
  case braceSlash hb =>
    apply CssLive.of_brace hsound <;> simp [hb, hstack]
    split <;> rfl
  case braceQuote hb => rcases hb with rfl | rfl <;> apply CssLive.of_brace hsound <;> simp [hstack]
  case braceByte hb hq hp =>
    rw [not_or, not_or, not_or] at hp
    apply CssLive.of_brace hsound <;> simp [hb, hq, hp, hstack]

/-- An iteration of the quote loop: `pre_char` is as old as the quote. -/
theorem CssRule.live_quote (h : CssRule x .cssStripQuote u es y .again)
    (hx : CssLive .cssStripQuote x u out m) (hst : x.state ∈ cssStacks) (hy : y.cache = [])
    (hout : out' = (emitted (Ev.items x es u)).reverse ++ out) :
    CssLive .cssStripQuote (Next.again.ended .cssStripQuote out'.length out' y) (u.drop (Ev.takes es)) out'
      (cssScan.run m (u.take (Ev.takes es))) := by
  have hs : x.state.top = .cssQuote := by cases h <;> assumption
  have hsound := hx.sound.run (u.take (Ev.takes es))
  have hended : Next.again.ended .cssStripQuote out'.length out' y = y := rfl
  have hquote := hx.quote
  have hlast := hx.last
  rw [hended]
  obtain ⟨mode, block, quote, pre, last, frozen⟩ := m
  simp only at hquote hlast
  subst hquote hlast hout
  rcases cssStacks_quote hst hs with hstack | hstack
  · obtain ⟨hmode, hblock, hpre, hno, -⟩ := hx.textQuote hstack
    have hfrozen := hx.sound.thawed hblock
    simp only at hmode hblock hfrozen
    subst hmode hblock hfrozen
    cases h
    case quoteHold => simp at hy
    all_goals constructor <;> simp_all
  · obtain ⟨hmode, hblock, hfrozen, hpre, -⟩ := hx.braceQuote hstack
    simp only at hmode hblock hfrozen hpre
    subst hmode hblock hfrozen
    cases h
    case quoteHold => simp at hy
    all_goals constructor <;> simp_all

/-- An iteration of the comment loop: nothing is written, and `pre_char` stays. -/
theorem CssRule.live_comment (h : CssRule x .cssStripComment u es y .again)
    (hx : CssLive .cssStripComment x u out m) (hy : y.cache = [])
    (hout : out' = (emitted (Ev.items x es u)).reverse ++ out) :
    CssLive .cssStripComment (Next.again.ended .cssStripComment out'.length out' y) (u.drop (Ev.takes es)) out'
      (cssScan.run m (u.take (Ev.takes es))) := by
  have hs : x.state.top = .cssComment := by cases h <;> assumption
  have hsound := hx.sound.run (u.take (Ev.takes es))
  have hended : Next.again.ended .cssStripComment out'.length out' y = y := rfl
  have hno := (hx.comment hs).2.2.1 rfl
  have hpre := (hx.comment hs).2.1
  have hfrozen := hx.braceComment hs
  have hlast : m.frozen = true ∨ m.pre = m.last := by
    rcases hx.sound.pre with hf | hp | ⟨-, hm, -⟩
    · exact .inl hf
    · exact .inr hp
    · rcases (hx.comment hs).1 with hc | ⟨hc, -⟩ <;> rw [hm] at hc <;> cases hc
  have hquote := hx.quote
  have hwrote := hx.wrote
  have hout' := hx.last
  obtain ⟨hmode, -, -, hblock⟩ := hx.comment hs
  obtain ⟨mode, block, quote, pre, last, frozen⟩ := m
  rw [hended]
  simp only at hpre hfrozen hlast hquote hwrote hout' hblock hmode
  subst hout
  rcases hblock with ⟨hstack, rfl⟩ | ⟨hstack, rfl, -⟩
  · have hthawed : frozen = false := hx.sound.thawed rfl
    subst hthawed
    obtain rfl : pre = last := hlast.resolve_left (by simp)
    cases h
    case commentHold => simp at hy
    all_goals rcases hmode with rfl | ⟨rfl, hmode⟩ <;> constructor <;> simp_all
  · obtain rfl : frozen = true := hfrozen rfl
    cases h
    case commentHold => simp at hy
    all_goals rcases hmode with rfl | ⟨rfl, hmode⟩ <;> constructor <;> simp_all

theorem CssRule.live_call {r' : Routine} (h : CssRule x r u es y (.call r')) (hx : CssLive r x u out m)
    (hst : x.state ∈ cssStacks) : CssLive r' y u out m := by
  have hquote := hx.quote
  cases h
  case braceCallQuote hs =>
    rcases cssStacks_quote hst hs with hstack | hstack
    · exact absurd rfl (hx.textQuote hstack).2.2.2.2
    · have hq := hx.braceQuote hstack
      exact ⟨hx.sound, hquote, hx.last, hx.wrote, by simp, by simp [hs], by simp [hs], by simp [hstack],
        fun _ => ⟨hq.1, hq.2.1, hq.2.2.1, hq.2.2.2.1, by decide⟩, by simp [hs]⟩
  case braceCallComment hs | callComment hs =>
    obtain ⟨hmode, hpre, -, hblock⟩ := hx.comment hs
    have hblock' : x.state = ⟨.cssComment, [.text]⟩ ∧ m.block = false ∨
        x.state = ⟨.cssComment, [.cssBrace, .text]⟩ ∧ m.block = true ∧
          Routine.cssStripComment ≠ .cssStripBuffer :=
      hblock.imp_right fun h => ⟨h.1, h.2.1, by decide⟩
    have hne : ∀ below, x.state ≠ ⟨.cssQuote, below⟩ := by
      intro below he
      simp [he] at hs
    exact ⟨hx.sound, hquote, hx.last, hx.wrote, by simp, by simp [hs], by simp [hs],
      fun he => absurd he (hne _), fun he => absurd he (hne _), fun _ => ⟨hmode, hpre, fun _ => rfl, hblock'⟩⟩
  case callQuote hs =>
    rcases cssStacks_quote hst hs with hstack | hstack
    · have hq := hx.textQuote hstack
      exact ⟨hx.sound, hquote, hx.last, hx.wrote, by simp, by simp [hs], by simp [hs],
        fun _ => ⟨hq.1, hq.2.1, hq.2.2.1, fun _ => rfl, by decide⟩, by simp [hstack], by simp [hs]⟩
    · exact absurd rfl (hx.braceQuote hstack).2.2.2.2
  case callBrace hs =>
    have hstack := cssStacks_brace hst hs
    exact ⟨hx.sound, hquote, hx.last, hx.wrote, fun _ => hx.fresh (by decide), by simp [hs],
      fun _ => hx.brace hs, by simp [hstack], by simp [hstack], by simp [hs]⟩

theorem CssRule.leaves_top (h : CssRule x r u es y .leave) :
    es = [] ∧ x.state.top ∈ [MinifyState.text, .cssBrace] := by
  cases h
  case braceLeave hs => exact ⟨rfl, by simp [hs]⟩
  all_goals exact ⟨rfl, by assumption⟩

theorem CssRule.scans_held {nxt : Next} (h : CssRule x r u es y nxt) (hx : CssLive r x u out m)
    (hst : x.state ∈ cssStacks) (hc : x.cache = []) (hy : y.cache ≠ []) : cssScan.out m u = [] := by
  cases h
  case commentHold hs => rcases (hx.comment hs).1 with hm | ⟨hm, -⟩ <;> simp [hm]
  case quoteHold hs =>
    rcases cssStacks_quote hst hs with hq | hq
    · simp [(hx.textQuote hq).1]
    · simp [(hx.braceQuote hq).1]
  case braceHold hs => simp [(hx.brace hs).1]
  case textHold hs => simp [(hx.text hs).1]
  all_goals exact absurd hc hy

end Rules

theorem CssLive.zero (page : List UInt8) : CssLive .cssStripBuffer Ctx.zero page [] .start where
  sound := CssScan.sound_start
  quote := rfl
  last := rfl
  wrote h := nomatch h
  fresh _ _ := rfl
  text _ := ⟨rfl, rfl, rfl, fun h => nomatch h⟩
  brace h := nomatch h
  textQuote h := nomatch h
  braceQuote h := nomatch h
  comment h := nomatch h

/-- What is left of the coupling at the end: where the text or a rule block goes on with nothing held back. -/
def CssEnd (r : Routine) (x : Ctx) (u out : List UInt8) (m : CssScan) : Prop :=
  u = [] → x.state.top ∈ [MinifyState.text, .cssBrace] →
    CssLive r x [] out m ∨ CssLive .cssStripBuffer x [] out m

theorem cssReads : Reads cssMachine cssScan CssLive CssEnd where
  turn := by
    intro r r' x y u es nxt k k' out out' m hx hy hf hrule hgo hk hout
    have hrule' : CssRule x r u es y nxt := hrule
    have hst := cssStates_subset hf.stack
    refine ⟨hrule'.scans hx hst hy, ?_⟩
    cases hgo with
    | again =>
      cases r with
      | cssStripBuffer => exact hrule'.live_text hx hst hy hout
      | cssStripBrace => exact hrule'.live_brace hx hst hy hout
      | cssStripQuote => exact hrule'.live_quote hx hst hy hout
      | cssStripComment => exact hrule'.live_comment hx hy hout
      | _ => cases hrule'
    | call =>
      have hlive := hrule'.live_call hx hst
      subst hout
      cases hrule' <;> exact hlive
    | leave =>
      obtain ⟨rfl, hs⟩ := hrule'.leaves_top
      obtain ⟨rfl, -⟩ := hrule'.leaves
      have hwaits := cssCallers_waits hk
      have hr' : r' ≠ .cssStripQuote := by rcases hwaits.2 with rfl | rfl <;> decide
      subst hout
      exact hx.left (by simp) hs hwaits.2 hr'
  hold := by
    intro r x y u out m a hx hc hne hf hrule hy
    have hrule' : CssRule x r u (Ev.holds a u) y .again := hrule
    refine ⟨hrule'.scans_held hx (cssStates_subset hf.stack) hc ?_, fun hnil => absurd hnil hne⟩
    rw [hy.cache]
    exact hne
  idle hx _ _ := .inl hx
  done := by
    intro r r' x u k out m hx hk hnil htop
    rw [Next.ended_state] at htop
    have hwaits := (cssCallers_waits hk).2
    rcases hx hnil htop with hx | hx
    · exact .inr (hx.left (by simp) htop hwaits (by decide))
    · exact .inr (hx.left (by simp) htop hwaits (by decide))

/-- A style sheet in one buffer is written as by the machine. -/
theorem css_session {cap : Option ℕ} {page : List UInt8} {s : Session}
    (h : feedAll Flat cap .css .start [page] = .ok s) : s.out = cssScan.out .start page ∧
      (s.ctx.cache = [] → s.ctx.state.top ∈ [MinifyState.text, .cssBrace] →
        CssLive .cssStripBuffer s.ctx [] s.out.reverse (cssScan.run .start page)) := by
  have hreads : Reads (machine .css) cssScan CssLive CssEnd := cssReads
  obtain ⟨hout, m, hrun, hend⟩ := hreads.session CssLive.zero h
  refine ⟨hout, fun hc htop => ?_⟩
  rw [hc, Mealy.run_nil] at hrun
  rw [← hrun]
  exact (hend hc htop).elim id id

end NginB.Minify
