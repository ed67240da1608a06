import NginB.Minify.HtmlRun

/-! # The HTML minifier is always in a good state

`HtmlGood` says which states each loop can be in, what the state stack looks like,
and what the unread bytes start with in the two states that rely on it. The rules keep
it, lower a rank and apply to every unread byte, so the minifier runs to the end of
its buffer.
-/
namespace NginB.Minify
open NginB.Program Relation Ascii

/-- What the unread bytes start with in the states that take it for granted. -/
def HtmlLead (st : MinifyState) (pending : List UInt8) : Prop :=
  match st with
  | .htmlTagBang => lit "<!" <+: pending ∧ 2 < pending.length
  | .htmlComment => lit "<!--" <+: pending
  | _ => True

theorem HtmlLead.append {st : MinifyState} {pending : List UInt8} (h : HtmlLead st pending)
    (buf : List UInt8) : HtmlLead st (pending ++ buf) := by
  unfold HtmlLead at h ⊢
  split at h
  · exact ⟨h.1.trans (List.prefix_append _ _), by rw [List.length_append]; omega⟩
  · exact h.trans (List.prefix_append _ _)
  · trivial

def htmlCallers : Routine → List Routine
  | .htmlStripTag => [.htmlStripBuffer]
  | .htmlStripTagname | .htmlStripComment => [.htmlStripTag, .htmlStripBuffer]
  | _ => []

def htmlStates : Routine → List MinifyState
  | .htmlStripBuffer | .htmlStripTag =>
    [.text, .abort, .htmlSkip, .htmlTag, .htmlTagBang, .htmlCdata, .htmlTagname, .htmlTagatt,
      .htmlTagnameEnd, .htmlComment, .htmlCommentIe, .htmlCommentSkip]
  | .htmlStripTagname => [.text, .htmlSkip, .htmlTagname, .htmlTagatt, .htmlTagnameEnd]
  | .htmlStripComment => [.text, .htmlComment, .htmlCommentIe, .htmlCommentSkip]
  | _ => []

structure HtmlFit (r : Routine) (x : Ctx) (rest : List UInt8) : Prop where
  stack : x.state = htmlStack x.state.top
  top : x.state.top ∈ htmlStates r
  held : x.cache = [] ∨ rest = []
  lead : HtmlLead x.state.top (x.cache ++ rest)

def htmlRank : Routine → MinifyState → ℕ
  | .htmlStripBuffer, .abort => 0
  | .htmlStripBuffer, .htmlSkip => 10
  | .htmlStripBuffer, .text => 9
  | .htmlStripBuffer, _ => 8
  | .htmlStripTag, .abort => 1
  | .htmlStripTag, .text | .htmlStripTag, .htmlSkip => 11
  | .htmlStripTag, .htmlTagBang => 3
  | .htmlStripTag, .htmlTag | .htmlStripTag, .htmlComment | .htmlStripTag, .htmlCommentIe
  | .htmlStripTag, .htmlCommentSkip => 2
  | .htmlStripTag, _ => 1
  | _, .text | _, .htmlSkip => 12
  | _, .htmlComment => 1
  | _, _ => 0

section Progress
variable {x : Ctx} {rest t : List UInt8} {b : UInt8}

def HtmlRule.Applies (x : Ctx) (r : Routine) (rest : List UInt8) : Prop :=
  ∃ es y nxt, HtmlRule x r rest es y nxt

theorem HtmlRule.tagname_applies (h : x.state.top ∈ htmlStates .htmlStripTagname) :
    HtmlRule.Applies x .htmlStripTagname (b :: t) := by
  simp only [htmlStates, List.mem_cons, List.not_mem_nil, or_false] at h
  rcases h with hs | hs | hs | hs | hs
  · exact ⟨_, _, _, .nameLeave hs⟩
  · exact ⟨_, _, _, .nameSkip hs⟩
  · by_cases hgt : b = gt
    · subst hgt
      exact ⟨_, _, _, .nameGt hs⟩
    · by_cases hblank : b = space ∨ b = slash
      · exact ⟨_, _, _, .nameBlank hs hblank⟩
      · rw [not_or] at hblank
        exact ⟨_, _, _, .nameByte hs ⟨hgt, hblank⟩⟩
  · by_cases hsp : b = space ∧ x.preChar = space
    · rcases hsp with ⟨rfl, hp⟩
      exact ⟨_, _, _, .attSpace hs hp⟩
    by_cases hgt : b = gt
    · subst hgt
      exact ⟨_, _, _, .attGt hs⟩
    by_cases hsl : b = slash
    · subst hsl
      rcases t with _ | ⟨c, t⟩
      · exact ⟨_, _, _, .attHold hs⟩
      · by_cases hc : c = gt
        · subst hc
          exact ⟨_, _, _, .attClose hs⟩
        · exact ⟨_, _, _, .attSlash hs hc⟩
    · exact ⟨_, _, _, .attByte hs ⟨hgt, hsl⟩ hsp⟩
  · by_cases hsp : b = space
    · subst hsp
      exact ⟨_, _, _, .endSpace hs⟩
    by_cases hgt : b = gt
    · subst hgt
      exact ⟨_, _, _, .endGt hs⟩
    by_cases hl : x.tagcache.len = 0
    · exact ⟨_, _, _, .endByte hs ⟨hsp, hgt⟩ hl⟩
    · exact ⟨_, _, _, .endName hs ⟨hsp, hgt⟩ hl⟩

theorem HtmlRule.ie_applies (hs : x.state.top = .htmlCommentIe) :
    HtmlRule.Applies x .htmlStripComment (b :: t) := by
  by_cases hb : b = rbracket
  · subst hb
    rcases t with _ | ⟨a, _ | ⟨c, _ | ⟨d, t⟩⟩⟩
    case cons.cons.cons =>
      by_cases hn : [a, c, d] = lit "-->"
      · rw [lit_commentClose] at hn
        obtain ⟨rfl, rfl, rfl⟩ : a = 45 ∧ c = 45 ∧ d = 62 := by simpa using hn
        exact ⟨_, _, _, .ieClose (t := t) hs⟩
      · exact ⟨_, _, _, .ieFour hs hn⟩
    all_goals
      rcases hc : cacheable (lit "]-->") _ with _ | _
      · exact ⟨_, _, _, .ieMiss hs (by simp) hc⟩
      · exact ⟨_, _, _, .ieHold hs (by simp) hc⟩
  · exact ⟨_, _, _, .ieByte hs hb⟩

theorem HtmlRule.commentSkip_applies (hs : x.state.top = .htmlCommentSkip) :
    HtmlRule.Applies x .htmlStripComment (b :: t) := by
  by_cases hb : b = dash
  · subst hb
    rcases t with _ | ⟨a, _ | ⟨c, t⟩⟩
    case cons.cons =>
      by_cases hn : [a, c] = [dash, gt]
      · obtain ⟨rfl, rfl⟩ : a = 45 ∧ c = 62 := by simpa using hn
        exact ⟨_, _, _, .skipClose (t := t) hs⟩
      · exact ⟨_, _, _, .skipThree hs hn⟩
    all_goals
      rcases hc : cacheable (lit "-->") _ with _ | _
      · exact ⟨_, _, _, .skipMiss hs (by simp) hc⟩
      · exact ⟨_, _, _, .skipHold hs (by simp) hc⟩
  · exact ⟨_, _, _, .skipByte hs hb⟩

theorem HtmlRule.comment_applies (hs : x.state.top = .htmlComment) (hl : lit "<!--" <+: rest) :
    HtmlRule.Applies x .htmlStripComment rest := by
  obtain ⟨t, rfl⟩ := hl
  rcases t with _ | ⟨b, t⟩
  · rw [List.append_nil]
    exact ⟨_, _, _, .commentHold hs⟩
  by_cases hb : b = lbracket
  · subst hb
    have he : lit "<!--" ++ lbracket :: t = lit "<!--[" ++ t := by simp
    rw [he]
    rcases t with _ | ⟨a, _ | ⟨c, t⟩⟩
    case cons.cons =>
      by_cases hn : [a, c] = [105, 102]
      · obtain ⟨rfl, rfl⟩ : a = 105 ∧ c = 102 := by simpa using hn
        have hif : lit "<!--[" ++ 105 :: 102 :: t = lit "<!--[if" ++ t := by simp
        rw [hif]
        exact ⟨_, _, _, .commentIf hs⟩
      · exact ⟨_, _, _, .commentOther hs hn⟩
    all_goals
      rcases hc : cacheable (lit "<!--[if") (lit "<!--[" ++ _) with _ | _
      · exact ⟨_, _, _, .commentMiss hs (by simp) hc⟩
      · exact ⟨_, _, _, .commentHoldIf hs (by simp) hc⟩
  · exact ⟨_, _, _, .commentPlain hs hb⟩

theorem HtmlRule.cdata_applies (hs : x.state.top = .htmlCdata) :
    HtmlRule.Applies x .htmlStripTag (b :: t) := by
  by_cases hb : b = rbracket
  · subst hb
    rcases t with _ | ⟨a, _ | ⟨c, t⟩⟩
    case cons.cons =>
      by_cases hn : [a, c] = [rbracket, gt]
      · obtain ⟨rfl, rfl⟩ : a = 93 ∧ c = 62 := by simpa using hn
        exact ⟨_, _, _, .cdataClose (t := t) hs⟩
      · exact ⟨_, _, _, .cdataThree hs hn⟩
    all_goals
      rcases hc : cacheable (lit "]]>") _ with _ | _
      · exact ⟨_, _, _, .cdataMiss hs (by simp) hc⟩
      · exact ⟨_, _, _, .cdataHold hs (by simp) hc⟩
  · exact ⟨_, _, _, .cdataByte hs hb⟩

theorem HtmlRule.bang_applies (hs : x.state.top = .htmlTagBang) (hl : lit "<!" <+: rest)
    (h2 : 2 < rest.length) : HtmlRule.Applies x .htmlStripTag rest := by
  obtain ⟨t, rfl⟩ := hl
  rcases t with _ | ⟨b, t⟩
  · simp at h2
  by_cases hd : b = dash
  · subst hd
    rcases t with _ | ⟨c, t⟩
    · exact ⟨_, _, _, .bangHoldDash hs⟩
    by_cases hc : c = dash
    · subst hc
      have he : lit "<!" ++ dash :: dash :: t = lit "<!--" ++ t := by simp
      rw [he]
      exact ⟨_, _, _, .bangComment hs⟩
    · exact ⟨_, _, _, .bangDash hs hc⟩
  by_cases hb : b = lbracket
  · subst hb
    by_cases ht : t.length < 6
    · rcases hc : cacheable (lit "<![CDATA[") (lit "<!" ++ lbracket :: t) with _ | _
      · exact ⟨_, _, _, .bangAbort hs ht hc⟩
      · exact ⟨_, _, _, .bangHoldCdata hs ht hc⟩
    · by_cases hn : (lit "<!" ++ lbracket :: t).take 9 = lit "<![CDATA["
      · obtain ⟨u, hu⟩ : lit "<![CDATA[" <+: lit "<!" ++ lbracket :: t := ⟨_, by
          rw [← hn, List.take_append_drop]⟩
        rw [← hu]
        exact ⟨_, _, _, .bangCdata hs⟩
      · exact ⟨_, _, _, .bangNine hs (Nat.le_of_not_lt ht) hn⟩
  · exact ⟨_, _, _, .bangTag hs ⟨hd, hb⟩⟩

theorem HtmlRule.text_applies (hs : x.state.top = .text) :
    HtmlRule.Applies x .htmlStripBuffer (b :: t) := by
  by_cases hbr : b = lf ∨ b = cr ∨ b = tab
  · exact ⟨_, _, _, .textBreak hs hbr⟩
  by_cases hlt : b = lt
  · subst hlt
    rcases t with _ | ⟨c, t⟩
    · exact ⟨_, _, _, .textHold hs⟩
    by_cases hc : c = bang
    · subst hc
      rcases t with _ | ⟨d, t⟩
      · exact ⟨_, _, _, .textHoldBang hs⟩
      · exact ⟨_, _, _, .textBang (b := d) (t := t) hs⟩
    · exact ⟨_, _, _, .textTag hs hc⟩
  by_cases hsp : b = space ∧ x.preChar = space
  · rcases hsp with ⟨rfl, hp⟩
    exact ⟨_, _, _, .textSpace hs hp⟩
  · rw [not_or, not_or] at hbr
    exact ⟨_, _, _, .textByte hs ⟨hbr.1, hbr.2.1, hbr.2.2, hlt⟩ hsp⟩

theorem HtmlRule.element_applies (hs : x.state.top = .htmlSkip) :
    HtmlRule.Applies x .htmlStripBuffer (b :: t) := by
  by_cases hlt : b = lt
  · subst hlt
    rcases t with _ | ⟨c, t⟩
    · exact ⟨_, _, _, .elementHold hs⟩
    by_cases hc : c = slash
    · subst hc
      exact ⟨_, _, _, .elementEnd hs⟩
    · exact ⟨_, _, _, .elementPair hs hc⟩
  · exact ⟨_, _, _, .elementByte hs hlt⟩

theorem HtmlFit.applies {r : Routine} (h : HtmlFit r x rest) (hne : rest ≠ []) :
    HtmlRule.Applies x r rest := by
  have hlead := h.lead
  rw [h.held.resolve_right hne, List.nil_append] at hlead
  obtain ⟨b, t, rfl⟩ := List.exists_cons_of_ne_nil hne
  have htop := h.top
  cases r with
  | htmlStripTagname => exact HtmlRule.tagname_applies htop
  | htmlStripComment =>
    simp only [htmlStates, List.mem_cons, List.not_mem_nil, or_false] at htop
    rcases htop with hs | hs | hs | hs
    · exact ⟨_, _, _, .commentLeave hs⟩
    · rw [hs] at hlead
      exact HtmlRule.comment_applies hs hlead
    · exact HtmlRule.ie_applies hs
    · exact HtmlRule.commentSkip_applies hs
  | htmlStripTag =>
    simp only [htmlStates, List.mem_cons, List.not_mem_nil, or_false] at htop
    rcases htop with hs | hs | hs | hs | hs | hs | hs | hs | hs | hs | hs | hs
    · exact ⟨_, _, _, .tagLeave (by simp [hs])⟩
    · exact ⟨_, _, _, .tagLeave (by simp [hs])⟩
    · exact ⟨_, _, _, .tagSkip hs⟩
    · by_cases hsp : b = space
      · subst hsp
        exact ⟨_, _, _, .tagSpace hs⟩
      by_cases hsl : b = slash
      · subst hsl
        exact ⟨_, _, _, .tagSlash hs⟩
      · exact ⟨_, _, _, .tagName hs ⟨hsp, hsl⟩⟩
    · rw [hs] at hlead
      exact HtmlRule.bang_applies hs hlead.1 hlead.2
    · exact HtmlRule.cdata_applies hs
    · exact ⟨_, _, _, .callTagname (by simp [hs])⟩
    · exact ⟨_, _, _, .callTagname (by simp [hs])⟩
    · exact ⟨_, _, _, .callTagname (by simp [hs])⟩
    · exact ⟨_, _, _, .callComment (by simp [hs])⟩
    · exact ⟨_, _, _, .callComment (by simp [hs])⟩
    · exact ⟨_, _, _, .callComment (by simp [hs])⟩
  | htmlStripBuffer =>
    by_cases h1 : x.state.top = .text
    · exact HtmlRule.text_applies h1
    by_cases h2 : x.state.top = .abort
    · exact ⟨_, _, _, .abortByte h2⟩
    by_cases h3 : x.state.top = .htmlSkip
    · exact HtmlRule.element_applies h3
    · refine ⟨_, _, _, .callTag ?_⟩
      simpa [htmlStates, h1, h2, h3] using htop
  | cssStripBuffer | cssStripBrace | cssStripQuote | cssStripComment | jsStripBuffer
  | jsStripQuote | jsStripComment => cases htop

end Progress
def htmlTarget (r : Routine) : Next → Routine
  | .again => r
  | .call r' => r'
  | .leave => (htmlCallers r).headD r

section Keeps
variable {x y : Ctx} {r : Routine} {rest : List UInt8} {es : List Ev} {nxt : Next}

theorem Ctx.nameGt_eq (x : Ctx) : ∃ st t, st ∈ [MinifyState.htmlSkip, .text] ∧
    x.nameGt = { x with state := htmlStack st, tagcache := t } := by
  unfold Ctx.nameGt
  split
  · exact ⟨.htmlSkip, _, by decide, rfl⟩
  · exact ⟨.text, _, by decide, rfl⟩

theorem Ctx.nameBlank_eq (x : Ctx) : ∃ t,
    x.nameBlank = { x with state := htmlStack .htmlTagatt, tagcache := t } := by
  unfold Ctx.nameBlank
  split <;> exact ⟨_, rfl⟩

theorem Ctx.attGt_eq (x : Ctx) : ∃ st, st ∈ [MinifyState.htmlSkip, .text] ∧
    x.attGt = { x with state := htmlStack st } := by
  unfold Ctx.attGt
  split <;> exact ⟨_, by decide, rfl⟩

theorem Ctx.endGt_eq (x : Ctx) : ∃ st t u, st ∈ [MinifyState.htmlSkip, .text] ∧
    x.endGt = { x with state := htmlStack st, tagcache := t, tagendcache := u } := by
  unfold Ctx.endGt
  split
  · split
    · exact ⟨.text, _, _, by decide, rfl⟩
    · exact ⟨.htmlSkip, _, _, by decide, rfl⟩
  · exact ⟨.text, _, _, by decide, rfl⟩

theorem Ctx.nameGt_top (x : Ctx) : x.nameGt.state.top = .htmlSkip ∨ x.nameGt.state.top = .text := by
  obtain ⟨st, t, hst, he⟩ := x.nameGt_eq
  rw [he]
  simpa using hst

theorem Ctx.attGt_top (x : Ctx) : x.attGt.state.top = .htmlSkip ∨ x.attGt.state.top = .text := by
  obtain ⟨st, hst, he⟩ := x.attGt_eq
  rw [he]
  simpa using hst

theorem Ctx.endGt_top (x : Ctx) : x.endGt.state.top = .htmlSkip ∨ x.endGt.state.top = .text := by
  obtain ⟨st, t, u, hst, he⟩ := x.endGt_eq
  rw [he]
  simpa using hst

@[simp] theorem Ctx.nameBlank_top (x : Ctx) : x.nameBlank.state.top = .htmlTagatt := by
  obtain ⟨t, he⟩ := x.nameBlank_eq
  rw [he]
  rfl

@[simp] theorem Ctx.name_nochangePre (x : Ctx) : x.nameGt.nochangePre = x.nochangePre ∧
    x.nameBlank.nochangePre = x.nochangePre ∧ x.attGt.nochangePre = x.nochangePre ∧
      x.endGt.nochangePre = x.nochangePre := by
  obtain ⟨_, _, -, h₁⟩ := x.nameGt_eq
  obtain ⟨_, h₂⟩ := x.nameBlank_eq
  obtain ⟨_, -, h₃⟩ := x.attGt_eq
  obtain ⟨_, _, _, -, h₄⟩ := x.endGt_eq
  exact ⟨by rw [h₁], by rw [h₂], by rw [h₃], by rw [h₄]⟩

theorem HtmlRule.takes_le (h : HtmlRule x r rest es y nxt) : Ev.takes es ≤ rest.length := by
  cases h
  case endGt => split <;> simp
  case bangNine ht _ => simp; omega
  all_goals simp [Ev.holds]

theorem HtmlRule.stack (h : HtmlRule x r rest es y nxt) (hx : x.state = htmlStack x.state.top) :
    y.state = htmlStack y.state.top := by
  cases h
  case nameGt =>
    obtain ⟨st, t, -, he⟩ := x.nameGt_eq
    simp [he]
  case nameBlank =>
    obtain ⟨t, he⟩ := x.nameBlank_eq
    simp [he]
  case attGt =>
    obtain ⟨st, -, he⟩ := x.attGt_eq
    simp [he]
  case endGt =>
    obtain ⟨st, t, u, -, he⟩ := x.endGt_eq
    simp [he]
  all_goals first | exact hx | rfl

theorem HtmlRule.top (h : HtmlRule x r rest es y nxt) (hx : x.state.top ∈ htmlStates r) :
    y.state.top ∈ htmlStates (htmlTarget r nxt) := by
  cases h
  case nameGt =>
    obtain ⟨st, t, hst, he⟩ := x.nameGt_eq
    rcases List.mem_pair.mp hst with rfl | rfl <;> simp [he, htmlTarget, htmlStates]
  case nameBlank =>
    obtain ⟨t, he⟩ := x.nameBlank_eq
    simp [he, htmlTarget, htmlStates]
  case attGt =>
    obtain ⟨st, hst, he⟩ := x.attGt_eq
    rcases List.mem_pair.mp hst with rfl | rfl <;> simp [he, htmlTarget, htmlStates]
  case endGt =>
    obtain ⟨st, t, u, hst, he⟩ := x.endGt_eq
    rcases List.mem_pair.mp hst with rfl | rfl <;> simp [he, htmlTarget, htmlStates]
  case callTagname hs =>
    simp only [List.mem_cons, List.not_mem_nil, or_false] at hs
    rcases hs with hs | hs | hs <;> simp [hs, htmlTarget, htmlStates]
  all_goals simp_all [htmlTarget, htmlStates, htmlCallers]

theorem HtmlRule.held (h : HtmlRule x r rest es y nxt) (hx : x.cache = []) :
    y.cache = [] ∨ Holds x rest es y nxt := by
  cases h
  case nameGt =>
    obtain ⟨st, t, -, he⟩ := x.nameGt_eq
    exact .inl (by rw [he, ← hx])
  case nameBlank =>
    obtain ⟨t, he⟩ := x.nameBlank_eq
    exact .inl (by rw [he, ← hx])
  case attGt =>
    obtain ⟨st, -, he⟩ := x.attGt_eq
    exact .inl (by rw [he, ← hx])
  case endGt =>
    obtain ⟨st, t, u, -, he⟩ := x.endGt_eq
    exact .inl (by rw [he, ← hx])
  all_goals first
    | exact .inl hx | exact .inr ⟨.plain, rfl, _, rfl⟩ | exact .inr ⟨.text (by simp [*]), rfl, _, rfl⟩

theorem HtmlRule.lead (h : HtmlRule x r rest es y nxt) (hx : x.cache = [])
    (hl : HtmlLead x.state.top rest) :
    HtmlLead y.state.top (y.cache ++ rest.drop (Ev.takes es)) := by
  cases h
  case nameGt =>
    obtain ⟨st, t, hst, he⟩ := x.nameGt_eq
    rcases List.mem_pair.mp hst with rfl | rfl <;> simp [he, HtmlLead]
  case nameBlank =>
    obtain ⟨t, he⟩ := x.nameBlank_eq
    simp [he, HtmlLead]
  case attGt =>
    obtain ⟨st, hst, he⟩ := x.attGt_eq
    rcases List.mem_pair.mp hst with rfl | rfl <;> simp [he, HtmlLead]
  case endGt =>
    obtain ⟨st, t, u, hst, he⟩ := x.endGt_eq
    rcases List.mem_pair.mp hst with rfl | rfl <;> simp [he, HtmlLead]
  all_goals simp_all [HtmlLead]

theorem HtmlRule.fit (h : HtmlRule x r rest es y nxt) (hf : HtmlFit r x rest) (hne : rest ≠ []) :
    HtmlFit (htmlTarget r nxt) y (rest.drop (Ev.takes es)) where
  stack := h.stack hf.stack
  top := h.top hf.top
  held := held_of_holds (h.held (hf.held.resolve_right hne))
  lead := by
    have hx := hf.held.resolve_right hne
    have hl := hf.lead
    rw [hx, List.nil_append] at hl
    exact h.lead hx hl

theorem htmlRank_lt (r : Routine) (st : MinifyState) : htmlRank r st < 16 := by
  cases r <;> cases st <;> decide

/-- A rule consumes a byte or goes to a state of lower rank. -/
theorem HtmlRule.lowers (h : HtmlRule x r rest es y nxt) (hf : HtmlFit r x rest) :
    (∃ k, Ev.takes es = k + 1) ∨
      Ev.takes es = 0 ∧ htmlRank (htmlTarget r nxt) y.state.top < htmlRank r x.state.top := by
  cases h
  case endGt => exact .inl (by split <;> exact ⟨_, rfl⟩)
  case commentIf hs | commentLeave hs | tagName hs _ | bangComment hs | bangAbort hs _ _ | nameSkip hs | nameLeave hs | tagSkip hs
    | textBang hs | elementEnd hs =>
    exact .inr ⟨rfl, by simp [hs, htmlRank, htmlTarget, htmlCallers]⟩
  case callTagname hs =>
    simp only [List.mem_cons, List.not_mem_nil, or_false] at hs
    rcases hs with hs | hs | hs <;> exact .inr ⟨rfl, by simp [hs, htmlRank, htmlTarget]⟩
  case callComment hs =>
    simp only [List.mem_cons, List.not_mem_nil, or_false] at hs
    rcases hs with hs | hs | hs <;> exact .inr ⟨rfl, by simp [hs, htmlRank, htmlTarget]⟩
  case tagLeave hs =>
    rcases List.mem_pair.mp hs with hs | hs <;>
      exact .inr ⟨rfl, by simp [hs, htmlRank, htmlTarget, htmlCallers]⟩
  case callTag hs =>
    simp only [List.mem_cons, List.not_mem_nil, or_false] at hs
    rcases hs with hs | hs | hs | hs | hs | hs | hs | hs | hs <;>
      exact .inr ⟨rfl, by simp [hs, htmlRank, htmlTarget]⟩
  all_goals exact .inl ⟨_, rfl⟩

end Keeps

theorem HtmlRule.goes {x y : Ctx} {r r' : Routine} {rest : List UInt8} {es : List Ev} {nxt : Next}
    {k k' : List Routine} (h : HtmlRule x r rest es y nxt) (hf : HtmlFit r x rest)
    (hk : k = htmlCallers r) (hgo : nxt.Goes r k r' k') :
    r' = htmlTarget r nxt ∧ k' = htmlCallers r' := by
  cases hgo with
  | again => exact ⟨rfl, hk⟩
  | call => cases h <;> exact ⟨rfl, by rw [hk]; rfl⟩
  | leave => cases h <;> (cases hk; exact ⟨rfl, rfl⟩)

theorem HtmlRule.calls {x y : Ctx} {r r' : Routine} {rest : List UInt8} {es : List Ev}
    (h : HtmlRule x r rest es y (.call r')) :
    r = .htmlStripTag ∧ r' ∈ [.htmlStripTagname, .htmlStripComment] ∨
      r = .htmlStripBuffer ∧ r' = .htmlStripTag := by
  cases h with
  | callTagname hs => exact .inl ⟨rfl, by decide⟩
  | callComment hs => exact .inl ⟨rfl, by decide⟩
  | callTag hs => exact .inr ⟨rfl, rfl⟩

theorem HtmlRule.leaves {x y : Ctx} {r : Routine} {rest : List UInt8} {es : List Ev}
    (h : HtmlRule x r rest es y .leave) : r ≠ .htmlStripBuffer := by
  cases h <;> decide

def htmlMachine : Machine where
  rule _ := HtmlRule
  top := .htmlStripBuffer
  callers r k := k = htmlCallers r
  Fit := HtmlFit
  rank := htmlRank
  rank_lt := htmlRank_lt
  callers_top := rfl
  callers_lt {r k} h := by
    rw [h]
    cases r <;> decide
  takes_le h := h.takes_le
  idle h := h.held
  holds h hx := h.held hx
  applies _ h hne := h.applies hne
  keeps h hf hne hk hgo := by
    obtain ⟨rfl, hk'⟩ := h.goes hf hk hgo
    exact ⟨hk', h.fit hf hne⟩
  lowers h hf hk hgo := by
    obtain ⟨rfl, -⟩ := h.goes hf hk hgo
    rcases h.lowers hf with ⟨n, hn⟩ | ⟨-, hlt⟩
    · exact .inl (by omega)
    · exact .inr hlt
  done {r x r' k} hf hk := by
    have htop := hf.top
    refine ⟨?_, hf.stack, ?_, hf.held, hf.lead⟩
    · cases r <;> cases hk <;> rfl
    · cases r <;> cases hk <;> revert htop <;> generalize x.state.top = st <;> revert st <;> decide
  pre p q h := ⟨h.stack, h.top, h.held, h.lead⟩
  start rest := ⟨rfl, by decide, .inl rfl, trivial⟩
  resume {x} buf h := by
    have hl := h.lead
    rw [List.append_nil] at hl
    exact ⟨h.stack, h.top, .inl rfl, hl.append buf⟩

section Follows
variable {fuel : ℕ} {r : Routine} {k : List Routine} {c : Conf Stream}

theorem tagname_serves (hc : htmlMachine.Good ⟨.htmlStripTagname, r :: k, c⟩)
    (hf : htmlMachine.measure ⟨.htmlStripTagname, r :: k, c⟩ < fuel) :
    htmlMachine.Serves (htmlCallee fuel .htmlStripTagname) .htmlStripTagname r k c := by
  refine htmlMachine.loop_serves (fun c hc _ hne => ?_) hc hf
  have hfit : HtmlFit _ _ _ := hc.fit
  obtain ⟨es, y, nxt, h⟩ := hfit.applies hne
  refine htmlMachine.turns_rule hne h (fun r' he => ?_) (h.tagname_run hfit.stack (hfit.held.resolve_right hne))
  subst he
  have hcall := h.calls
  simp at hcall

theorem comment_serves (hc : htmlMachine.Good ⟨.htmlStripComment, r :: k, c⟩)
    (hf : htmlMachine.measure ⟨.htmlStripComment, r :: k, c⟩ < fuel) :
    htmlMachine.Serves (htmlCallee fuel .htmlStripComment) .htmlStripComment r k c := by
  refine htmlMachine.loop_serves (fun c hc _ hne => ?_) hc hf
  have hfit : HtmlFit _ _ _ := hc.fit
  obtain ⟨es, y, nxt, h⟩ := hfit.applies hne
  refine htmlMachine.turns_rule hne h (fun r' he => ?_) ?_
  · subst he
    have hcall := h.calls
    simp at hcall
  · rw [h.comment_run hfit.stack (hfit.held.resolve_right hne)]
    split <;> rfl

theorem tag_callee_serves {x y : Ctx} {rest : List UInt8} {es : List Ev}
    (h : HtmlRule x .htmlStripTag rest es y (.call r))
    (hc : htmlMachine.Good ⟨r, .htmlStripTag :: k, c⟩)
    (hf : htmlMachine.measure ⟨r, .htmlStripTag :: k, c⟩ < fuel) :
    htmlMachine.Serves (htmlCallee fuel r) r .htmlStripTag k c := by
  cases h with
  | callTagname _ => exact tagname_serves hc hf
  | callComment _ => exact comment_serves hc hf

theorem tag_turns (hc : htmlMachine.Good ⟨.htmlStripTag, r :: k, c⟩)
    (hf : htmlMachine.measure ⟨.htmlStripTag, r :: k, c⟩ < fuel) (hne : c.buf.rest ≠ []) :
    htmlMachine.Turns (htmlStripTagTurn none fuel) .htmlStripTag r k c := by
  have hfit : HtmlFit _ _ _ := hc.fit
  obtain ⟨es, y, nxt, h⟩ := hfit.applies hne
  have hcache := hfit.held.resolve_right hne
  by_cases hn : ∀ r', nxt ≠ .call r'
  · refine htmlMachine.turns_rule hne h hn ?_
    rw [h.tag_run hfit.stack hcache hn]
    split <;> rfl
  · rw [not_forall] at hn
    obtain ⟨r₁, hr₁⟩ := hn
    obtain rfl := not_not.mp hr₁
    have hstep : Step htmlMachine.rule _ _ := .turn hne h (.call (k := r :: k))
    have hgood := htmlMachine.good_step hc hstep
    have hlow := htmlMachine.measure_step hc hstep
    exact .inl (htmlMachine.turns_call hne h h.tag_call_run (fun t ht => bind_run ht)
      (tag_callee_serves h hgood (Nat.lt_trans hlow hf)))

theorem buffer_turns (hc : htmlMachine.Good ⟨.htmlStripBuffer, [], c⟩)
    (hf : htmlMachine.measure ⟨.htmlStripBuffer, [], c⟩ < fuel) (hne : c.buf.rest ≠ []) :
    htmlMachine.TopTurns (htmlStripBufferTurn none fuel) c := by
  have hfit : HtmlFit _ _ _ := hc.fit
  obtain ⟨es, y, nxt, h⟩ := hfit.applies hne
  have hcache := hfit.held.resolve_right hne
  cases nxt with
  | again => exact ⟨_, h.buffer_run hfit.stack hcache (by simp), .single (.turn hne h .again)⟩
  | leave => exact absurd rfl h.leaves
  | call r₁ =>
    have hstep : Step htmlMachine.rule _ _ := .turn hne h (.call (k := []))
    have hgood := htmlMachine.good_step hc hstep
    have hlow := htmlMachine.measure_step hc hstep
    refine htmlMachine.turns_call hne h h.buffer_call_run (fun t ht => bind_run ht) ?_
    obtain rfl : r₁ = .htmlStripTag := by simpa using h.calls
    exact htmlMachine.loop_serves (fun c => tag_turns) hgood (Nat.lt_trans hlow hf)

/-- The HTML minifier reads a buffer to its end, by the rules. -/
theorem htmlStripBuffer_follows (hc : htmlMachine.Good ⟨.htmlStripBuffer, [], c⟩)
    (hf : htmlMachine.measure ⟨.htmlStripBuffer, [], c⟩ < fuel) :
    ∃ t, (ngxMinifyHtmlStripBuffer none fuel).run c = .ok ((), t) ∧ t.buf.rest = [] ∧
      ReflTransGen (Step htmlMachine.rule) ⟨.htmlStripBuffer, [], c⟩ ⟨.htmlStripBuffer, [], t⟩ := by
  have hcount : ¬ (c.buf.rest.length : ℤ) < 0 := by omega
  rw [ngxMinifyHtmlStripBuffer, bind_run (count_run c), if_neg hcount]
  exact htmlMachine.topLoop (fun c => buffer_turns) hc hf

end Follows

end NginB.Minify
