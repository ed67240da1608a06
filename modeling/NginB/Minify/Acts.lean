import NginB.Minify.Ending
import NginB.Minify.Reader

/-! # What an iteration does with the next bytes

An iteration copies bytes, drops bytes, or writes a space for a line break; or it leaves the unread
bytes for another iteration or another buffer. Its context and the unread bytes tell which.
-/
namespace NginB.Minify
open NginB.Program Relation Ascii

inductive Act
  /-- no byte is consumed for good -/
  | quiet
  | copies | drops
  /-- a byte is consumed and another one is written -/
  | replaces
  deriving DecidableEq

instance (d : ℕ) (x : Ctx) : Decidable (jsBlankRedundant d x) :=
  inferInstanceAs (Decidable (_ ∨ _ ∨ _ ∨ _))

section Tables
variable (x : Ctx) (u : List UInt8) (d : ℕ)

def htmlTagnameAct : Act :=
  match x.state.top with
  | .htmlTagname => .copies
  | .htmlTagatt =>
    if u.head? = some space ∧ x.preChar = space then .drops
    else if u = [slash] then .quiet
    else .copies
  | .htmlTagnameEnd => if u.head? = some space then .drops else .copies
  | _ => .quiet

def htmlCommentAct : Act :=
  match x.state.top with
  | .htmlComment => if lit "<!--[if" <+: u ∨ waits (lit "<!--[if") u then .quiet else .drops
  | .htmlCommentIe =>
    if waits (lit "]-->") u then .quiet
    else if u.head? = some rbracket ∧ u.length < 4 then .drops
    else .copies
  | .htmlCommentSkip => if waits (lit "-->") u then .quiet else .drops
  | _ => .quiet

def htmlTagAct : Act :=
  match x.state.top with
  | .htmlTag =>
    if u.head? = some space then .drops else if u.head? = some slash then .copies else .quiet
  | .htmlTagBang =>
    if lit "<!--" <+: u ∨ u = lit "<!" ++ [dash] ∨ lit "<![" <+: u ∧ u.length < 9 then .quiet
    else .copies
  | .htmlCdata => if waits (lit "]]>") u then .quiet else .copies
  | _ => .quiet

def htmlBufferAct : Act :=
  match x.state.top with
  | .abort => .copies
  | .text =>
    if u.head? ∈ [some lf, some cr, some tab] ∨ u.head? = some space ∧ x.preChar = space then .drops
    else if u = lit "<" ∨ lit "<!" <+: u then .quiet
    else .copies
  | .htmlSkip => if u = lit "<" ∨ lit "</" <+: u then .quiet else .copies
  | _ => .quiet

def cssBraceAct : Act :=
  match x.state.top with
  | .cssBrace =>
    if u.head? ∈ [some lf, some cr, some tab] ∨ u.head? = some space ∧ x.preChar = space ∨
      lit "/*" <+: u then .drops
    else if u = [slash] then .quiet
    else .copies
  | _ => .quiet

def cssBufferAct : Act :=
  match x.state.top with
  | .text =>
    if u.head? ∈ [some lf, some cr] ∨ lit "/*" <+: u ∨
      u.head? ∈ [some space, some tab] ∧ (x.preChar = space ∨ x.preChar = tab) then .drops
    else if u = [slash] then .quiet
    else .copies
  | _ => .quiet

def jsCommentAct : Act :=
  match x.state.top with
  | .jsComment => if u = [star] then .quiet else .drops
  | .jsCommentLine => if u.head? = some lf then .replaces else .drops
  | _ => .quiet

def jsBufferAct : Act :=
  match x.state.top with
  | .text =>
    if u.head? = some cr ∨ lit "/*" <+: u ∨ lit "//" <+: u ∨
      u.head? ∈ [some space, some tab] ∧ jsBlankRedundant d x ∨
      u.head? = some lf ∧ jsBreakRedundant x.preChar = true then .drops
    else if u = [slash] then .quiet
    else .copies
  | _ => .quiet

end Tables

def act (r : Routine) (x : Ctx) (u : List UInt8) (d : ℕ) : Act :=
  match r with
  | .htmlStripTagname => htmlTagnameAct x u
  | .htmlStripComment => htmlCommentAct x u
  | .htmlStripTag => htmlTagAct x u
  | .htmlStripBuffer => htmlBufferAct x u
  | .cssStripComment =>
    if x.state.top = .cssComment then if u = [star] then .quiet else .drops else .quiet
  | .cssStripQuote =>
    if x.state.top = .cssQuote then if u = [backslash] then .quiet else .copies else .quiet
  | .cssStripBrace => cssBraceAct x u
  | .cssStripBuffer => cssBufferAct x u
  | .jsStripComment => jsCommentAct x u
  | .jsStripQuote =>
    if x.state.top = .jsQuote then if u = [backslash] then .quiet else .copies else .quiet
  | .jsStripBuffer => jsBufferAct x u d

/-- The events of an iteration that does this. -/
def Act.Does : Act → List Ev → Prop
  | .quiet, es => Ev.takes es = 0
  | .copies, es => 0 < Ev.takes es ∧ .skip ∉ es ∧ ∀ c, .put c ∉ es
  | .drops, es => 0 < Ev.takes es ∧ .copy ∉ es ∧ ∀ c, .put c ∉ es
  | .replaces, es => ∃ c, .put c ∈ es

section Does
variable {es : List Ev}

@[simp] theorem Act.does_quiet : Act.quiet.Does es ↔ Ev.takes es = 0 := Iff.rfl

@[simp] theorem Act.does_copies :
    Act.copies.Does es ↔ 0 < Ev.takes es ∧ .skip ∉ es ∧ ∀ c, .put c ∉ es := Iff.rfl

@[simp] theorem Act.does_drops :
    Act.drops.Does es ↔ 0 < Ev.takes es ∧ .copy ∉ es ∧ ∀ c, .put c ∉ es := Iff.rfl

@[simp] theorem Act.does_replaces : Act.replaces.Does es ↔ ∃ c, .put c ∈ es := Iff.rfl

end Does

/-- An iteration does what its act says, or holds the unread bytes back. -/
structure Act.Tells (a : Act) (es : List Ev) (y : Ctx) : Prop where
  does : y.cache = [] → a.Does es
  held : y.cache ≠ [] → a = .quiet

theorem Act.tells_of {a : Act} {es : List Ev} {y : Ctx} (h : a.Does es) (hy : y.cache = []) :
    a.Tells es y := ⟨fun _ => h, fun hne => absurd hy hne⟩

section Rules
variable {x y : Ctx} {r : Routine} {rest : List UInt8} {es : List Ev} {nxt : Next} {d : ℕ}

theorem HtmlRule.tagname_act (h : HtmlRule x .htmlStripTagname rest es y nxt) (hx : x.cache = []) :
    (htmlTagnameAct x rest).Tells es y := by
  cases h with
  | nameGt hs =>
    obtain ⟨st, t, -, he⟩ := x.nameGt_eq
    refine Act.tells_of ?_ (by rw [he]; exact hx)
    simp [htmlTagnameAct, hs]
  | nameBlank hs _ =>
    obtain ⟨t, he⟩ := x.nameBlank_eq
    refine Act.tells_of ?_ (by rw [he]; exact hx)
    simp [htmlTagnameAct, hs]
  | attGt hs =>
    obtain ⟨st, -, he⟩ := x.attGt_eq
    refine Act.tells_of ?_ (by rw [he]; exact hx)
    simp [htmlTagnameAct, hs]
  | endGt hs =>
    obtain ⟨st, t, u, -, he⟩ := x.endGt_eq
    refine Act.tells_of ?_ (by rw [he]; exact hx)
    split <;> simp [htmlTagnameAct, hs]
  | attHold hs => constructor <;> simp [htmlTagnameAct, hs]
  | attByte hs hb hp =>
    refine Act.tells_of ?_ hx
    simp only [htmlTagnameAct, hs, List.head?_cons, Option.some.injEq, if_neg hp]
    simp [hb.2]
  | nameByte | attSpace | attClose | attSlash | endSpace | endName | endByte | nameSkip | nameLeave =>
    refine Act.tells_of ?_ hx
    simp_all [htmlTagnameAct]

theorem HtmlRule.comment_act (h : HtmlRule x .htmlStripComment rest es y nxt) (hx : x.cache = []) :
    (htmlCommentAct x rest).Tells es y := by
  cases h with
  | commentHold hs => constructor <;> simp [htmlCommentAct, hs, waits, cacheable]
  | commentIf hs =>
    refine Act.tells_of ?_ hx
    simp [htmlCommentAct, hs]
  | commentPlain hs hb =>
    have hlower : ¬ toLower lbracket = toLower _ := fun h => hb (toLower_eq (by decide) h)
    refine Act.tells_of ?_ hx
    simp [htmlCommentAct, hs, waits, cacheable, Ne.symm hb, hlower]
  | @commentOther a b t hs hn =>
    have hpre : ¬ lit "<!--[if" <+: lit "<!--[" ++ a :: b :: t := by
      rintro ⟨u, hu⟩
      simp at hu
      exact hn (by rw [← hu.1, ← hu.2.1])
    have hwait : waits (lit "<!--[if") (lit "<!--[" ++ a :: b :: t) = false := waits_of_le (by simp)
    refine Act.tells_of ?_ hx
    simp only [htmlCommentAct, hs, hpre, hwait]
    simp
  | commentHoldIf hs ht hc =>
    have hwait := waits_of_hold (by simp; omega) hc
    constructor
    · simp
    · intro _
      simp only [htmlCommentAct, hs, hwait, or_true, if_true]
  | @commentMiss t hs ht hc =>
    have hpre : ¬ lit "<!--[if" <+: lit "<!--[" ++ t := by
      intro hpre
      have hle := hpre.length_le
      simp at hle
      omega
    refine Act.tells_of ?_ hx
    simp only [htmlCommentAct, hs, hpre, waits_of_miss hc]
    simp
  | @ieClose t hs =>
    have hlong : ¬ t.length + 1 + 1 + 1 + 1 < 4 := by omega
    refine Act.tells_of ?_ hx
    simp [htmlCommentAct, hs, waits_of_le, hlong]
  | @ieFour a b c t hs hn =>
    have hlong : ¬ t.length + 1 + 1 + 1 + 1 < 4 := by omega
    refine Act.tells_of ?_ hx
    simp [htmlCommentAct, hs, waits_of_le, hlong]
  | @ieHold t hs ht hc =>
    have hwait : waits (lit "]-->") (rbracket :: t) = true := waits_of_hold (Nat.succ_lt_succ ht) hc
    constructor
    · simp
    · intro _
      simp only [htmlCommentAct, hs, hwait, if_true]
  | @ieMiss t hs ht hc =>
    have hshort : t.length + 1 < 4 := by omega
    refine Act.tells_of ?_ hx
    simp only [htmlCommentAct, hs, waits_of_miss hc]
    simp [hshort]
  | ieByte hs hb =>
    refine Act.tells_of ?_ hx
    simp [htmlCommentAct, hs, waits_of_ne _ hb, hb]
  | skipClose hs | skipThree hs _ =>
    refine Act.tells_of ?_ hx
    simp [htmlCommentAct, hs, waits_of_le]
  | @skipHold t hs ht hc =>
    have hwait : waits (lit "-->") (dash :: t) = true := waits_of_hold (Nat.succ_lt_succ ht) hc
    constructor
    · simp
    · intro _
      simp only [htmlCommentAct, hs, hwait, if_true]
  | skipMiss hs ht hc =>
    refine Act.tells_of ?_ hx
    simp only [htmlCommentAct, hs, waits_of_miss hc]
    simp
  | skipByte hs hb =>
    refine Act.tells_of ?_ hx
    simp [htmlCommentAct, hs, waits_of_ne _ hb]
  | commentLeave hs =>
    refine Act.tells_of ?_ hx
    simp [htmlCommentAct, hs]

theorem HtmlRule.tag_act (h : HtmlRule x .htmlStripTag rest es y nxt) (hx : x.cache = []) :
    (htmlTagAct x rest).Tells es y := by
  cases h with
  | tagSpace hs | tagSlash hs | bangComment hs =>
    refine Act.tells_of ?_ hx
    simp [htmlTagAct, hs]
  | tagName hs hb =>
    refine Act.tells_of ?_ hx
    simp [htmlTagAct, hs, hb]
  | bangTag hs hb =>
    refine Act.tells_of ?_ hx
    simp [htmlTagAct, hs, hb, Ne.symm hb.1, Ne.symm hb.2]
  | bangDash hs hb =>
    refine Act.tells_of ?_ hx
    simp [htmlTagAct, hs, Ne.symm hb]
  | bangHoldDash hs => constructor <;> simp [htmlTagAct, hs]
  | @bangCdata t hs =>
    have hlong : ¬ t.length + 9 < 9 := by omega
    refine Act.tells_of ?_ hx
    simp [htmlTagAct, hs, hlong, List.replicate]
  | @bangNine t hs ht hn =>
    have hlong : ¬ t.length + 3 < 9 := by omega
    refine Act.tells_of ?_ hx
    simp [htmlTagAct, hs, hlong, List.replicate]
  | @bangHoldCdata t hs ht hc =>
    have hshort : t.length + 3 < 9 := by omega
    constructor
    · simp
    · simp [htmlTagAct, hs, hshort]
  | @bangAbort t hs ht hc =>
    have hshort : t.length + 3 < 9 := by omega
    refine Act.tells_of ?_ hx
    simp [htmlTagAct, hs, hshort]
  | cdataClose hs | cdataThree hs _ =>
    refine Act.tells_of ?_ hx
    simp [htmlTagAct, hs, waits_of_le]
  | @cdataHold t hs ht hc =>
    have hwait : waits (lit "]]>") (rbracket :: t) = true := waits_of_hold (Nat.succ_lt_succ ht) hc
    constructor
    · simp
    · intro _
      simp only [htmlTagAct, hs, hwait, if_true]
  | cdataMiss hs ht hc =>
    refine Act.tells_of ?_ hx
    simp only [htmlTagAct, hs, waits_of_miss hc]
    simp
  | cdataByte hs hb =>
    refine Act.tells_of ?_ hx
    simp [htmlTagAct, hs, waits_of_ne _ hb]
  | callTagname hs | callComment hs =>
    refine Act.tells_of ?_ hx
    simp only [List.mem_cons, List.not_mem_nil, or_false] at hs
    rcases hs with hs | hs | hs <;> simp [htmlTagAct, hs]
  | tagSkip hs =>
    refine Act.tells_of ?_ hx
    simp [htmlTagAct, hs]
  | tagLeave hs =>
    refine Act.tells_of ?_ hx
    rcases List.mem_pair.mp hs with hs | hs <;> simp [htmlTagAct, hs]

theorem HtmlRule.buffer_act (h : HtmlRule x .htmlStripBuffer rest es y nxt) (hx : x.cache = []) :
    (htmlBufferAct x rest).Tells es y := by
  cases h with
  | textBreak hs hb =>
    refine Act.tells_of ?_ hx
    rcases hb with rfl | rfl | rfl <;> simp [htmlBufferAct, hs]
  | textTag hs hb | elementPair hs hb =>
    refine Act.tells_of ?_ hx
    simp [htmlBufferAct, hs, Ne.symm hb]
  | textHoldBang hs | textHold hs | elementHold hs => constructor <;> simp [htmlBufferAct, hs]
  | @textByte b t hs hb hp =>
    have hbang : ¬ lit "<!" <+: b :: t := by
      rintro ⟨u, hu⟩
      simp at hu
      exact hb.2.2.2 hu.1.symm
    refine Act.tells_of ?_ hx
    simp only [htmlBufferAct, hs, hbang, List.head?_cons, Option.some.injEq, hp]
    simp [hb]
  | @elementByte b t hs hb =>
    have hend : ¬ lit "</" <+: b :: t := by
      rintro ⟨u, hu⟩
      simp at hu
      exact hb hu.1.symm
    refine Act.tells_of ?_ hx
    simp only [htmlBufferAct, hs, hend]
    simp [hb]
  | callTag hs =>
    refine Act.tells_of ?_ hx
    simp only [List.mem_cons, List.not_mem_nil, or_false] at hs
    rcases hs with hs | hs | hs | hs | hs | hs | hs | hs | hs <;> simp [htmlBufferAct, hs]
  | abortByte hs | textBang hs | elementEnd hs =>
    refine Act.tells_of ?_ hx
    simp [htmlBufferAct, hs]
  | textSpace hs hp =>
    refine Act.tells_of ?_ hx
    simp [htmlBufferAct, hs, hp]

theorem HtmlRule.act (h : HtmlRule x r rest es y nxt) (hx : x.cache = []) :
    (act r x rest d).Tells es y := by
  cases r with
  | htmlStripTagname => exact h.tagname_act hx
  | htmlStripComment => exact h.comment_act hx
  | htmlStripTag => exact h.tag_act hx
  | htmlStripBuffer => exact h.buffer_act hx
  | cssStripComment | cssStripQuote | cssStripBrace | cssStripBuffer | jsStripComment | jsStripQuote
    | jsStripBuffer => cases h

theorem CssRule.act (h : CssRule x r rest es y nxt) (hx : x.cache = []) :
    (act r x rest d).Tells es y := by
  unfold NginB.Minify.act
  cases h with
  | commentHold hs | quoteHold hs | braceHold hs | textHold hs =>
    constructor <;> simp [hs, cssBraceAct, cssBufferAct]
  | commentLeave hs | quoteLeave hs =>
    refine Act.tells_of ?_ hx
    rcases List.mem_pair.mp hs with hs | hs <;> simp [hs]
  | braceBlank hs hb =>
    refine Act.tells_of ?_ hx
    rcases hb with ⟨rfl, hp⟩ | rfl | rfl | rfl <;> simp_all [cssBraceAct]
  | braceQuote hs hb =>
    refine Act.tells_of ?_ hx
    rcases hb with rfl | rfl <;> simp [hs, cssBraceAct]
  | textQuote hs hb | textBreak hs hb =>
    refine Act.tells_of ?_ hx
    rcases hb with rfl | rfl <;> simp [hs, cssBufferAct]
  | textBlankDrop hs hb hp | textBlank hs hb hp =>
    refine Act.tells_of ?_ hx
    rcases hb with rfl | rfl <;> simp [hs, hp, cssBufferAct]
  | braceSlash hs hb | textSlash hs hb =>
    refine Act.tells_of ?_ hx
    simp [hs, Ne.symm hb, cssBraceAct, cssBufferAct]
  | @braceByte b t hs hb hq hp =>
    have hdrop : ¬ ((b :: t).head? ∈ [some lf, some cr, some tab] ∨
        (b :: t).head? = some space ∧ x.preChar = space ∨ lit "/*" <+: b :: t) := by
      have hopen := Ne.symm hb.2
      simp_all
    refine Act.tells_of ?_ hx
    simp only [cssBraceAct, hs, hdrop]
    simp [hb.2]
  | @textByte b t hs hb hq hn =>
    have hopen := Ne.symm hb.2.2
    refine Act.tells_of ?_ hx
    simp_all [cssBufferAct]
  | commentClose | commentStar | commentByte | quoteEscape | quoteClose | quoteByte | braceClose
    | braceComment | braceCallQuote | braceCallComment | braceLeave | textComment | textOpen
    | callComment | callQuote | callBrace =>
    refine Act.tells_of ?_ hx
    simp_all [cssBraceAct, cssBufferAct]

theorem JsRule.act (h : JsRule d x r rest es y nxt) (hx : x.cache = []) :
    (act r x rest d).Tells es y := by
  unfold NginB.Minify.act
  cases h with
  | commentHold hs | quoteHold hs | textHold hs => constructor <;> simp [hs, jsCommentAct, jsBufferAct]
  | textBlank hs hb hp =>
    refine Act.tells_of ?_ hx
    rcases hb with rfl | rfl <;> simp [hs, hp, jsBufferAct]
  | textQuote hs hb =>
    refine Act.tells_of ?_ hx
    rcases hb with rfl | rfl | rfl <;> simp [hs, jsBufferAct]
  | callComment hs =>
    refine Act.tells_of ?_ hx
    rcases List.mem_pair.mp hs with hs | hs <;> simp [hs, jsBufferAct]
  | textSlash hs hb =>
    refine Act.tells_of ?_ hx
    simp [hs, Ne.symm hb.1, Ne.symm hb.2, jsBufferAct]
  | @textByte b t hs hb hq hp =>
    have hdrop : ¬ ((b :: t).head? = some cr ∨ lit "/*" <+: b :: t ∨ lit "//" <+: b :: t ∨
        (b :: t).head? ∈ [some space, some tab] ∧ jsBlankRedundant d x ∨
        (b :: t).head? = some lf ∧ jsBreakRedundant x.preChar = true) := by
      have hopen := Ne.symm hb.1
      simp_all
    refine Act.tells_of ?_ hx
    simp only [jsBufferAct, hs, hdrop]
    simp [hb.1]
  | commentClose | commentStar | commentByte | lineEnd | lineByte | commentLeave | quoteEscape
    | quoteClose | quoteByte | quoteLeave | textComment | textLine | textBreak | textBreakDrop
    | textReturn | callQuote =>
    refine Act.tells_of ?_ hx
    simp_all [jsCommentAct, jsBufferAct]

end Rules

/-- An iteration of a minifier does what its act says. -/
theorem rule_act {type : FileType} {d : ℕ} {x y : Ctx} {r : Routine} {rest : List UInt8} {es : List Ev}
    {nxt : Next} (h : (machine type).rule d x r rest es y nxt) (hx : x.cache = []) :
    (act r x rest d).Tells es y := by
  cases type with
  | html => exact HtmlRule.act h hx
  | css => exact CssRule.act h hx
  | js => exact JsRule.act h hx

end NginB.Minify
