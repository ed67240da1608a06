import NginB.Minify.CssPartition
import NginB.Minify.JsPartition
import NginB.Minify.OneBuffer

/-! # A script, byte for byte

Within a buffer the JavaScript minifier is a Mealy machine, too, and where a buffer begins that machine
forgets what has been written. `pre_char` is the last byte written, but for the bytes of strings, and for
the line break that is set by hand.
-/
namespace NginB.Minify
open NginB.Program Relation Ascii

/-- In `slash`, `star` and `esc` the last byte waits for the next one. -/
inductive JsMode
  | plain | slash | line | comment | star | str | esc
  deriving DecidableEq

structure JsScan where
  mode : JsMode
  quote : UInt8
  pre : UInt8
  /-- the last byte written into the buffer -/
  last : UInt8
  /-- something has been written into the buffer -/
  wrote : Bool
  deriving DecidableEq

namespace JsScan
variable (m : JsScan)

def start : JsScan := ⟨.plain, 0, 0, 0, false⟩

@[simp] def DropsBlank : Prop := m.pre = lf ∨ m.wrote = false ∨ Blank m.pre

instance : Decidable m.DropsBlank := inferInstanceAs (Decidable (_ ∨ _ ∨ _))

@[simp] def textWrites (b : UInt8) : List UInt8 :=
  if Blank b ∧ m.DropsBlank ∨ b = slash ∨ b = cr ∨ b = lf ∧ jsBreakRedundant m.pre = true then [] else [b]

@[simp] def writes (b : UInt8) : List UInt8 :=
  match m.mode with
  | .plain => m.textWrites b
  | .slash => if b = star ∨ b = slash then [] else [slash, b]
  | .line => if b = lf then [space] else []
  | .comment | .star => []
  | .str => if b = backslash then [] else [b]
  | .esc => [backslash, b]

@[simp] def refresh : JsScan := { m with pre := if m.wrote = true then m.last else m.pre }

@[simp] def goes (b : UInt8) : JsScan :=
  match m.mode with
  | .plain =>
    if Blank b then (if m.DropsBlank then m else { m with pre := b })
    else if b = slash then { m.refresh with mode := .slash }
    else if b = dquote ∨ b = squote ∨ b = lbracket then
      { m with mode := .str, quote := if b = lbracket then rbracket else b }
    else if b = cr then m
    else { m with pre := b }
  | .slash =>
    if b = star then { m with mode := .comment }
    else if b = slash then { m with mode := .line }
    else { m with mode := .plain, pre := b }
  | .line => if b = lf then { m with mode := .plain, pre := lf } else m
  | .comment => if b = star then { m with mode := .star } else m
  | .star => { m with mode := if b = slash then .plain else if b = star then .star else .comment }
  | .str =>
    if b = backslash then { m with mode := .esc }
    else if b = m.quote then { m with mode := .plain }
    else m
  | .esc => { m with mode := .str }

@[simp] def wrotes (bytes : List UInt8) : JsScan :=
  { m with last := bytes.getLastD m.last, wrote := m.wrote || !bytes.isEmpty }

@[simp] def cut : JsScan := { m with last := 0, wrote := false }

end JsScan

def jsScan : Mealy JsScan UInt8 UInt8 where
  next m b := (m.goes b).wrotes (m.writes b)
  emit := JsScan.writes

@[simp] theorem jsScan_next (m : JsScan) (b : UInt8) : jsScan.next m b = (m.goes b).wrotes (m.writes b) := rfl

@[simp] theorem jsScan_emit (m : JsScan) (b : UInt8) : jsScan.emit m b = m.writes b := rfl

section Text
variable {q p l b : UInt8} {w : Bool}

theorem jsScan_blank_drop (hb : Blank b) (hd : (JsScan.mk .plain q p l w).DropsBlank) :
    (JsScan.mk .plain q p l w).writes b = [] ∧ jsScan.next ⟨.plain, q, p, l, w⟩ b = ⟨.plain, q, p, l, w⟩ := by
  have hwrites : (JsScan.mk .plain q p l w).writes b = [] := by
    simp only [JsScan.writes, JsScan.textWrites, if_pos (Or.inl (And.intro hb hd))]
  rw [jsScan_next, hwrites]
  simp only [JsScan.goes, if_pos hb, if_pos hd]
  simp

theorem jsScan_blank (hb : Blank b) (hd : ¬ (JsScan.mk .plain q p l w).DropsBlank) :
    (JsScan.mk .plain q p l w).writes b = [b] ∧ jsScan.next ⟨.plain, q, p, l, w⟩ b = ⟨.plain, q, b, b, true⟩ := by
  have hwrites : (JsScan.mk .plain q p l w).writes b = [b] := by
    have hne : b ≠ slash ∧ b ≠ cr ∧ b ≠ lf := by rcases hb with rfl | rfl <;> decide
    simp only [JsScan.writes, JsScan.textWrites, hd, hne, and_false, false_and, or_false, if_false]
  rw [jsScan_next, hwrites]
  simp only [JsScan.goes, if_pos hb, if_neg hd]
  simp

/-- A byte of the text with no meaning of its own. -/
theorem jsScan_byte (hb : b ≠ slash ∧ b ≠ lf ∧ b ≠ cr) (hq : b ≠ dquote ∧ b ≠ squote ∧ b ≠ lbracket)
    (hp : ¬(Blank b ∧ (JsScan.mk .plain q p l w).DropsBlank)) :
    (JsScan.mk .plain q p l w).writes b = [b] ∧ jsScan.next ⟨.plain, q, p, l, w⟩ b = ⟨.plain, q, b, b, true⟩ := by
  by_cases hbl : Blank b
  · exact jsScan_blank hbl fun hd => hp ⟨hbl, hd⟩
  · have hwrites : (JsScan.mk .plain q p l w).writes b = [b] := by
      simp only [JsScan.writes, JsScan.textWrites, hp, hb, false_and, or_false, if_false]
    rw [jsScan_next, hwrites]
    simp only [JsScan.goes, if_neg hbl, hb, hq, or_false, if_false]
    simp

theorem jsScan_break_drop (hp : jsBreakRedundant p = true) :
    (JsScan.mk .plain q p l w).writes lf = [] ∧ jsScan.next ⟨.plain, q, p, l, w⟩ lf = ⟨.plain, q, lf, l, w⟩ := by
  simp [hp]

theorem jsScan_break (hp : jsBreakRedundant p = false) : (JsScan.mk .plain q p l w).writes lf = [lf] ∧
    jsScan.next ⟨.plain, q, p, l, w⟩ lf = ⟨.plain, q, lf, lf, true⟩ := by
  simp [hp]

theorem jsScan_return : (JsScan.mk .plain q p l w).writes cr = [] ∧
    jsScan.next ⟨.plain, q, p, l, w⟩ cr = ⟨.plain, q, p, l, w⟩ := by
  simp

theorem jsScan_slash : (JsScan.mk .plain q p l w).writes slash = [] ∧
    jsScan.next ⟨.plain, q, p, l, w⟩ slash = ⟨.slash, q, if w = true then l else p, l, w⟩ := by
  simp

theorem jsScan_quote (hb : b = dquote ∨ b = squote ∨ b = lbracket) :
    (JsScan.mk .plain q p l w).writes b = [b] ∧ jsScan.next ⟨.plain, q, p, l, w⟩ b =
      ⟨.str, if b = lbracket then rbracket else b, p, b, true⟩ := by
  rcases hb with rfl | rfl | rfl <;> simp

theorem jsScan_opens : (JsScan.mk .slash q p l w).writes star = [] ∧
    jsScan.next ⟨.slash, q, p, l, w⟩ star = ⟨.comment, q, p, l, w⟩ := by
  simp

theorem jsScan_opens_line : (JsScan.mk .slash q p l w).writes slash = [] ∧
    jsScan.next ⟨.slash, q, p, l, w⟩ slash = ⟨.line, q, p, l, w⟩ := by
  simp

theorem jsScan_pair (hb : b ≠ star) (hb' : b ≠ slash) : (JsScan.mk .slash q p l w).writes b = [slash, b] ∧
    jsScan.next ⟨.slash, q, p, l, w⟩ b = ⟨.plain, q, b, b, true⟩ := by
  simp [hb, hb']

theorem jsScan_comment : (JsScan.mk .comment q p l w).writes b = [] ∧
    jsScan.next ⟨.comment, q, p, l, w⟩ b = ⟨if b = star then .star else .comment, q, p, l, w⟩ := by
  by_cases hb : b = star <;> simp [hb]

theorem jsScan_star : (JsScan.mk .star q p l w).writes b = [] ∧ jsScan.next ⟨.star, q, p, l, w⟩ b =
    ⟨if b = slash then .plain else if b = star then .star else .comment, q, p, l, w⟩ := by
  simp

theorem jsScan_backslash : (JsScan.mk .str q p l w).writes backslash = [] ∧
    jsScan.next ⟨.str, q, p, l, w⟩ backslash = ⟨.esc, q, p, l, w⟩ := by
  simp

theorem jsScan_str (hb : b ≠ backslash) : (JsScan.mk .str q p l w).writes b = [b] ∧
    jsScan.next ⟨.str, q, p, l, w⟩ b = ⟨if b = q then .plain else .str, q, p, b, true⟩ := by
  by_cases hq : b = q
  · subst hq
    simp [hb]
  · simp [hb, hq]

theorem jsScan_esc : (JsScan.mk .esc q p l w).writes b = [backslash, b] ∧
    jsScan.next ⟨.esc, q, p, l, w⟩ b = ⟨.str, q, p, b, true⟩ := by
  simp

end Text

/-- The machine is where the minifier is: `u` is unread and `out` has been written, newest first. -/
structure JsLive (r : Routine) (x : Ctx) (u out : List UInt8) (m : JsScan) : Prop where
  quote : m.quote = x.quoteChar
  last : m.last = out.headD 0
  wrote : m.wrote = !out.isEmpty
  inner : r ≠ .jsStripBuffer → x.nochangePre = true
  fresh : x.nochangePre = false → out = [] ∨ x.preChar = m.last
  text : x.state = ⟨.text, []⟩ → m.mode = .plain ∧ m.pre = x.preChar
  str : x.state = ⟨.jsQuote, [.text]⟩ → m.mode = .str ∧ m.pre = x.preChar
  comment : x.state = ⟨.jsComment, [.text]⟩ →
    (m.mode = .comment ∨ m.mode = .star ∧ u ≠ [] ∧ u.head? ≠ some slash) ∧ m.pre = x.preChar
  line : x.state = ⟨.jsCommentLine, [.text]⟩ → m.mode = .line

theorem JsLive.blank_iff {x : Ctx} {r : Routine} {u out : List UInt8} {m : JsScan} (h : JsLive r x u out m)
    (hs : x.state = ⟨.text, []⟩) : jsBlankRedundant out.length x ↔ m.DropsBlank := by
  rw [jsBlankRedundant, JsScan.DropsBlank, h.wrote, (h.text hs).2, List.length_eq_zero_iff]
  simp

section Rules
variable {x y : Ctx} {r : Routine} {u out out' : List UInt8} {es : List Ev} {m : JsScan}

/-- The machine writes what an iteration writes. -/
theorem JsRule.scans {nxt : Next} (h : JsRule out.length x r u es y nxt) (hx : JsLive r x u out m)
    (hy : y.cache = []) : jsScan.out m (u.take (Ev.takes es)) = emitted (Ev.items x es u) := by
  cases h
  case commentClose hs =>
    rcases (hx.comment hs).1 with hm | ⟨hm, -⟩ <;> simp [hm]
  case commentStar hs _ | commentByte hs _ =>
    rcases (hx.comment hs).1 with hm | ⟨hm, -⟩ <;> simp [hm]
  case lineEnd hs => simp [hx.line hs]
  case lineByte hs hb => simp [hx.line hs, hb]
  case commentLeave | quoteLeave | callComment | callQuote => rfl
  case quoteEscape hs => simp [(hx.str hs).1]
  case quoteClose hs hq => simp [(hx.str hs).1, hq]
  case quoteByte hs hb => simp [(hx.str hs).1, hb.1]
  case textBlank b t hs hb hp =>
    rw [hx.blank_iff hs] at hp
    have hdrop : Blank b ∧ m.DropsBlank := ⟨hb, hp⟩
    simp only [Ev.takes, List.take_succ_cons, List.take_zero, Mealy.out_cons, jsScan_emit, JsScan.writes,
      (hx.text hs).1, JsScan.textWrites, if_pos (Or.inl hdrop)]
    rfl
  case textComment hs => simp [(hx.text hs).1]
  case textLine hs => simp [(hx.text hs).1]
  case textSlash hs hb => simp [(hx.text hs).1, hb]
  case textQuote hs hb => rcases hb with rfl | rfl | rfl <;> simp [(hx.text hs).1]
  case textBreak hs hp =>
    rw [← (hx.text hs).2] at hp
    simp [(hx.text hs).1, hp]
  case textBreakDrop hs hp =>
    rw [← (hx.text hs).2] at hp
    simp [(hx.text hs).1, hp]
  case textReturn hs => simp [(hx.text hs).1]
  case textByte b t hs hb hq hp =>
    rw [hx.blank_iff hs] at hp
    have hwrite : ¬(Blank b ∧ m.DropsBlank ∨ b = slash ∨ b = cr ∨ b = lf ∧ jsBreakRedundant m.pre = true) :=
      not_or.mpr ⟨hp, by simp [hb]⟩
    simp only [Ev.takes, List.take_succ_cons, List.take_zero, Mealy.out_cons, jsScan_emit, JsScan.writes,
      (hx.text hs).1, JsScan.textWrites, if_neg hwrite]
    rfl
  all_goals simp at hy

theorem JsRule.scans_held {nxt : Next} (h : JsRule out.length x r u es y nxt) (hx : JsLive r x u out m)
    (hc : x.cache = []) (hy : y.cache ≠ []) : jsScan.out m u = [] := by
  cases h
  case commentHold hs => rcases (hx.comment hs).1 with hm | ⟨hm, -⟩ <;> simp [hm]
  case quoteHold hs => simp [(hx.str hs).1]
  case textHold hs => simp [(hx.text hs).1]
  all_goals exact absurd hc hy

theorem JsLive.of_text (hq : m.quote = y.quoteChar) (hlast : m.last = out'.headD 0)
    (hwrote : m.wrote = !out'.isEmpty)
    (hpre : m.pre = if y.nochangePre = true ∨ out' = [] then y.preChar else m.last)
    (hshape : y.state = ⟨.text, []⟩ ∧ m.mode = .plain ∨ y.state = ⟨.jsQuote, [.text]⟩ ∧ m.mode = .str ∨
      y.state = ⟨.jsComment, [.text]⟩ ∧ m.mode = .comment ∨
      y.state = ⟨.jsCommentLine, [.text]⟩ ∧ m.mode = .line) :
    JsLive .jsStripBuffer (Next.again.ended .jsStripBuffer out'.length out' y) u out' m := by
  have hp : (Next.again.ended .jsStripBuffer out'.length out' y).preChar = m.pre := by
    rw [ended_preChar rfl (by simp), hpre, hlast]
    simp only [List.length_eq_zero_iff]
  have hfresh : (Next.again.ended .jsStripBuffer out'.length out' y).nochangePre = false →
      out' = [] ∨ (Next.again.ended .jsStripBuffer out'.length out' y).preChar = m.last := by
    rw [Next.ended_nochangePre, hp, hpre]
    intro hno
    by_cases hnil : out' = []
    · exact .inl hnil
    · rw [if_neg (by simp [hno, hnil])]
      exact .inr rfl
  rcases hshape with ⟨hst, hm⟩ | ⟨hst, hm⟩ | ⟨hst, hm⟩ | ⟨hst, hm⟩ <;> constructor <;>
    first | exact hfresh | simp_all

theorem JsRule.live_text (h : JsRule out.length x .jsStripBuffer u es y .again)
    (hx : JsLive .jsStripBuffer x u out m) (hy : y.cache = [])
    (hout : out' = (emitted (Ev.items x es u)).reverse ++ out) :
    JsLive .jsStripBuffer (Next.again.ended .jsStripBuffer out'.length out' y) (u.drop (Ev.takes es)) out'
      (jsScan.run m (u.take (Ev.takes es))) := by
  have hs : x.state = ⟨.text, []⟩ := by cases h <;> assumption
  have hblank := hx.blank_iff hs
  obtain ⟨hmode, hpre⟩ := hx.text hs
  have hquote := hx.quote
  have hlast := hx.last
  have hwrote := hx.wrote
  obtain ⟨mode, quote, pre, last, wrote⟩ := m
  simp only at hmode hpre hquote hlast hwrote
  subst hmode hpre hquote hlast hwrote hout
  cases h
  case textHold => simp at hy
  case textBlank b t _ hb hp =>
    obtain ⟨-, hnext⟩ := jsScan_blank_drop hb (hblank.mp hp)
    have hrun : jsScan.run ⟨.plain, x.quoteChar, x.preChar, out.headD 0, !out.isEmpty⟩
        ((b :: t).take (Ev.takes [.skip])) = _ := hnext
    rw [hrun]
    apply JsLive.of_text <;> simp [hs]
  case textComment | textLine =>
    apply JsLive.of_text <;> simp
  case textSlash hb => apply JsLive.of_text <;> simp [hb, hs]
  case textQuote hb => rcases hb with rfl | rfl | rfl <;> apply JsLive.of_text <;> simp
  case textBreak hp => apply JsLive.of_text <;> simp [hp, hs]
  case textBreakDrop hp => apply JsLive.of_text <;> simp [hp, hs]
  case textReturn =>
    apply JsLive.of_text <;> simp [hs]
  case textByte b t _ hb hq hp =>
    rw [hblank] at hp
    obtain ⟨-, hnext⟩ := jsScan_byte hb hq hp
    have hrun : jsScan.run ⟨.plain, x.quoteChar, x.preChar, out.headD 0, !out.isEmpty⟩
        ((b :: t).take (Ev.takes [.copy])) = _ := hnext
    rw [hrun]
    apply JsLive.of_text <;> simp [hs]

theorem JsRule.live_comment (h : JsRule out.length x .jsStripComment u es y .again)
    (hx : JsLive .jsStripComment x u out m) (hy : y.cache = [])
    (hout : out' = (emitted (Ev.items x es u)).reverse ++ out) :
    JsLive .jsStripComment (Next.again.ended .jsStripComment out'.length out' y) (u.drop (Ev.takes es)) out'
      (jsScan.run m (u.take (Ev.takes es))) := by
  have hended : Next.again.ended .jsStripComment out'.length out' y = y := rfl
  have hno := hx.inner (by decide)
  have hcomment := hx.comment
  have hline := hx.line
  have hquote := hx.quote
  have hlast := hx.last
  have hwrote := hx.wrote
  obtain ⟨mode, quote, pre, last, wrote⟩ := m
  rw [hended]
  simp only at hcomment hline hquote hlast hwrote
  subst hquote hlast hwrote hout
  cases h
  case commentHold => simp at hy
  case commentClose hs | commentStar hs _ | commentByte hs _ =>
    obtain ⟨hmode, rfl⟩ := hcomment hs
    rcases hmode with rfl | ⟨rfl, hmode⟩ <;> constructor <;> simp_all
  case lineEnd hs | lineByte hs _ =>
    obtain rfl := hline hs
    constructor <;> simp_all

theorem JsRule.live_quote (h : JsRule out.length x .jsStripQuote u es y .again)
    (hx : JsLive .jsStripQuote x u out m) (hy : y.cache = [])
    (hout : out' = (emitted (Ev.items x es u)).reverse ++ out) :
    JsLive .jsStripQuote (Next.again.ended .jsStripQuote out'.length out' y) (u.drop (Ev.takes es)) out'
      (jsScan.run m (u.take (Ev.takes es))) := by
  have hs : x.state = ⟨.jsQuote, [.text]⟩ := by cases h <;> assumption
  have hended : Next.again.ended .jsStripQuote out'.length out' y = y := rfl
  have hno := hx.inner (by decide)
  obtain ⟨hmode, hpre⟩ := hx.str hs
  have hquote := hx.quote
  have hlast := hx.last
  have hwrote := hx.wrote
  obtain ⟨mode, quote, pre, last, wrote⟩ := m
  rw [hended]
  simp only at hmode hpre hquote hlast hwrote
  subst hmode hpre hquote hlast hwrote hout
  cases h
  case quoteHold => simp at hy
  all_goals constructor <;> simp_all

theorem JsRule.live_call {r' : Routine} (h : JsRule out.length x r u es y (.call r')) (hx : JsLive r x u out m) :
    JsLive r' y u out m := by
  cases h <;> exact
    ⟨hx.quote, hx.last, hx.wrote, fun _ => rfl, (fun h => nomatch h), hx.text, hx.str, hx.comment, hx.line⟩

/-- Back in the text loop, `pre_char` is as it was. -/
theorem JsLive.left {nxt : Next} (h : JsLive r x u out m) (hn : ∀ r', nxt ≠ .call r') :
    JsLive .jsStripBuffer (nxt.ended .jsStripBuffer out.length out x) u out m := by
  have hp : (nxt.ended .jsStripBuffer out.length out x).preChar = x.preChar := by
    rw [ended_preChar rfl hn]
    split
    · rfl
    · next hno =>
      rw [not_or, Bool.not_eq_true, List.length_eq_zero_iff] at hno
      rw [(h.fresh hno.1).resolve_left hno.2]
      exact h.last.symm
  constructor
  case quote => rw [Next.ended_quoteChar]; exact h.quote
  case last => exact h.last
  case wrote => exact h.wrote
  case inner => exact fun he => absurd rfl he
  case fresh =>
    rw [Next.ended_nochangePre, hp]
    exact h.fresh
  all_goals rw [Next.ended_state]
  case line => exact h.line
  all_goals rw [hp]
  case text => exact h.text
  case str => exact h.str
  case comment => exact h.comment

end Rules

theorem JsLive.zero (page : List UInt8) : JsLive .jsStripBuffer Ctx.zero page [] .start where
  quote := rfl
  last := rfl
  wrote := rfl
  inner h := absurd rfl h
  fresh _ := .inl rfl
  text _ := ⟨rfl, rfl⟩
  str h := nomatch h
  comment h := nomatch h
  line h := nomatch h

theorem jsCallers_waits {r r' : Routine} {k : List Routine} (hk : r' :: k = jsCallers r) :
    r' = .jsStripBuffer := by
  cases r <;> simp [jsCallers] at hk
  all_goals exact hk.1

theorem JsRule.leaves_eq {d : ℕ} {x y : Ctx} {r : Routine} {u : List UInt8} {es : List Ev}
    (h : JsRule d x r u es y .leave) : es = [] ∧ y = x := by
  cases h <;> exact ⟨rfl, rfl⟩

/-- What is left of the coupling at the end of a buffer, where `u` is held back: in the next buffer `u` is read
again, by a machine that has come as far as the minifier. -/
def JsEnd (r : Routine) (x : Ctx) (u out : List UInt8) (m : JsScan) : Prop :=
  ∃ r' n, (r = .jsStripBuffer → r' = r) ∧ JsLive r' x u out n ∧ (u = [] → n = m) ∧
    jsScan.out n.cut u = [] ∧ jsScan.run n.cut u = (jsScan.run m u).cut

/-- In the next buffer the machine and the minifier are together again. -/
theorem JsLive.cut {x : Ctx} {r : Routine} {u out : List UInt8} {m : JsScan} (h : JsLive r x u out m)
    (buf : List UInt8) : JsLive .jsStripBuffer (x.hold []) (u ++ buf) [] m.cut where
  quote := h.quote
  last := rfl
  wrote := rfl
  inner h := absurd rfl h
  fresh _ := .inl rfl
  text := h.text
  str := h.str
  comment hs := by
    obtain ⟨hmode, hpre⟩ := h.comment hs
    refine ⟨hmode.imp_right fun ⟨hm, hne, hhead⟩ => ⟨hm, by simp [hne], ?_⟩, hpre⟩
    rwa [List.head?_append_of_ne_nil _ hne]
  line := h.line

theorem JsRule.holds_end {x y : Ctx} {r : Routine} {u out : List UInt8} {es : List Ev} {nxt : Next} {m : JsScan}
    (h : JsRule out.length x r u es y nxt) (hx : JsLive r x u out m) (hc : x.cache = []) (hy : y.cache ≠ []) :
    JsEnd r (Next.again.ended r out.length out y) u out m := by
  cases h
  case commentHold hs =>
    have hlive : JsLive .jsStripComment (x.hold [star]) [star] out m :=
      ⟨hx.quote, hx.last, hx.wrote, hx.inner, hx.fresh, hx.text, hx.str, hx.comment, hx.line⟩
    refine ⟨.jsStripComment, m, fun _ => rfl, hlive, fun _ => rfl, ?_, ?_⟩ <;>
      rcases (hx.comment hs).1 with hm | ⟨hm, -⟩ <;> simp [hm]
  case quoteHold hs =>
    have hlive : JsLive .jsStripQuote (x.hold [backslash]) [backslash] out m :=
      ⟨hx.quote, hx.last, hx.wrote, hx.inner, hx.fresh, hx.text, hx.str, hx.comment, hx.line⟩
    refine ⟨.jsStripQuote, m, fun _ => rfl, hlive, fun _ => rfl, ?_, ?_⟩ <;> simp [(hx.str hs).1]
  case textHold hs =>
    -- `pre_char` is brought up to date
    have hlast := hx.last
    have hwrote := hx.wrote
    refine ⟨.jsStripBuffer, m.refresh, fun _ => rfl, JsLive.of_text hx.quote hlast hwrote ?_ ?_, by simp, ?_, ?_⟩
    · have hfrozen : ((x.hold [slash]).freeze false).nochangePre = false := rfl
      rw [hfrozen]
      by_cases hnil : out = []
      · subst hnil
        rw [if_pos (.inr rfl), JsScan.refresh, hwrote]
        exact (hx.text hs).2
      · rw [if_neg (by simp [hnil]), JsScan.refresh, hwrote]
        simp [hnil]
    · exact .inl ⟨hs, (hx.text hs).1⟩
    · simp [(hx.text hs).1]
    · simp [(hx.text hs).1]
  all_goals exact absurd hc hy

theorem jsReads : Reads jsMachine jsScan JsLive JsEnd where
  turn := by
    intro r r' x y u es nxt k k' out out' m hx hy hf hrule hgo hk hout
    have hrule' : JsRule out.length x r u es y nxt := hrule
    refine ⟨hrule'.scans hx hy, ?_⟩
    cases hgo with
    | again =>
      cases r with
      | jsStripBuffer => exact hrule'.live_text hx hy hout
      | jsStripQuote => exact hrule'.live_quote hx hy hout
      | jsStripComment => exact hrule'.live_comment hx hy hout
      | _ => cases hrule'
    | call =>
      have hlive := hrule'.live_call hx
      subst hout
      cases hrule' <;> exact hlive
    | leave =>
      obtain ⟨rfl, rfl⟩ := hrule'.leaves_eq
      obtain rfl := jsCallers_waits hk
      subst hout
      exact hx.left (by simp)
  hold := by
    intro r x y u out m a hx hc hne hf hrule hy
    have hrule' : JsRule out.length x r u (Ev.holds a u) y .again := hrule
    have hheld : y.cache ≠ [] := by
      rw [hy.cache]
      exact hne
    exact ⟨hrule'.scans_held hx hc hheld, hrule'.holds_end hx hc hheld⟩
  idle {r _ _ _} hx := ⟨r, _, fun _ => rfl, hx, fun _ => rfl, rfl, rfl⟩
  done := by
    rintro r r' x u k out m ⟨r'', n, -, hx, hn, hout, hrun⟩ hk
    obtain rfl := jsCallers_waits hk
    exact ⟨.jsStripBuffer, n, fun _ => rfl, hx.left (by simp), hn, hout, hrun⟩

def jsPieces : Mealy JsScan (Option UInt8) UInt8 := jsScan.cutting JsScan.cut

def JsSession (s : Session) (m : JsScan) : Prop :=
  ∃ n, JsLive .jsStripBuffer s.ctx s.ctx.cache (emitted (newest s.trace)) n ∧ (s.ctx.cache = [] → n = m) ∧
    jsScan.out n.cut s.ctx.cache = [] ∧ jsScan.run n.cut s.ctx.cache = m.cut

theorem JsSession.feed {cap : Option ℕ} {buf : List UInt8} {u v : Session} {m : JsScan} (h : JsSession u m)
    (hu : u.ctx.Resumes .js) (hw : Within cap u.trace) (hfeed : NginB.Minify.feed Stream cap .js u buf = .ok v) :
    v.out = u.out ++ jsScan.out m.cut buf ∧ JsSession v (jsScan.run m.cut buf) := by
  obtain ⟨n, hlive, -, hout, hrun⟩ := h
  obtain ⟨t, hstripped, -, rfl⟩ := feed_stripped hu hw hfeed
  have hreads : Reads (machine .js) jsScan JsLive JsEnd := jsReads
  obtain ⟨hwritten, m', hstate, r, n', hr, hlive', hsame, hout', hrun'⟩ := hreads.stripped hstripped (hlive.cut buf)
  obtain rfl := hr rfl
  rw [Mealy.out_append, hout, hrun, List.nil_append] at hwritten
  rw [Mealy.run_append, hrun] at hstate
  rw [hstate] at hrun'
  refine ⟨congrArg (u.out ++ ·) hwritten, n', ?_, fun hc => ?_, hout', hrun'⟩
  · have htrace : newest (u.takeBack Stream t).trace = newest t.settled := rfl
    rw [htrace, hstripped.emitted]
    exact hlive'
  · have hc' : t.ctx.cache = [] := hc
    rw [hsame hc', ← hstate, hc']
    rfl

/-- A script is written as by the machine, wherever it is cut. -/
theorem js_pieces {cap : Option ℕ} {bufs : List (List UInt8)} {s : Session}
    (h : feedAll Flat cap .js .start bufs = .ok s) : s.out = jsPieces.out .start (Mealy.pieces bufs) ∧
      JsSession s (jsPieces.run .start (Mealy.pieces bufs)) := by
  induction bufs using List.reverseRecOn generalizing s with
  | nil =>
    cases h
    exact ⟨rfl, .start, .zero [], fun _ => rfl, rfl, rfl⟩
  | append_singleton bufs buf ih =>
    rw [feedAll_concat] at h
    rcases hfirst : feedAll Flat cap .js .start bufs with e | u
    · rw [hfirst] at h
      cases h
    · rw [hfirst] at h
      obtain ⟨hout, hsession⟩ := ih hfirst
      obtain ⟨c, hreach, hnil, rfl, hw⟩ := feedAll_ok hfirst
      have hfit := hreach.good.fit
      rw [hnil] at hfit
      obtain ⟨hnext, hsession'⟩ := hsession.feed hfit hw ((feed_flat cap .js _ buf).symm.trans h)
      rw [Mealy.pieces_concat, Mealy.out_append, Mealy.run_append, ← hout]
      have hletters : jsPieces.out (jsPieces.run .start (Mealy.pieces bufs)) (none :: buf.map some) =
          jsScan.out (jsPieces.run .start (Mealy.pieces bufs)).cut buf := Mealy.cutting_out_letters
      have hstate : jsPieces.run (jsPieces.run .start (Mealy.pieces bufs)) (none :: buf.map some) =
          jsScan.run (jsPieces.run .start (Mealy.pieces bufs)).cut buf := Mealy.cutting_run_letters
      rw [hletters, hstate]
      exact ⟨hnext, hsession'⟩

theorem js_session {cap : Option ℕ} {page : List UInt8} {s : Session}
    (h : feedAll Flat cap .js .start [page] = .ok s) : s.out = jsScan.out .start page := by
  rw [(js_pieces h).1, Mealy.pieces_singleton]
  exact Mealy.cutting_out_letters

end NginB.Minify
