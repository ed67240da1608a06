import NginB.Minify.CssScan
import NginB.Minify.Passage
import NginB.Program.Occurrence

/-! # Comments that a style sheet does not show

A comment changes two things only: in the text it brings `pre_char` up to date, in a rule block it
freezes it. Whether that shows is decided by the white space behind the comment, up to the first
byte of text that is no white space.
-/
namespace NginB.Minify
open NginB.Program Relation Ascii

/-- The first byte that is neither a line break nor in a comment, if it is a blank. -/
def nextBlank : CssMode → List UInt8 → Option UInt8
  | .plain, b :: t =>
    if b = lf ∨ b = cr then nextBlank .plain t
    else if b = slash then nextBlank .slash t
    else if Blank b then some b else none
  | .slash, b :: t => if b = star then nextBlank .comment t else none
  | .comment, b :: t => nextBlank (if b = star then .star else .comment) t
  | .star, b :: t => nextBlank (if b = slash then .plain else if b = star then .star else .comment) t
  | _, _ => none

/-- The text `q` reads the same behind the bytes `p` and `p'`: a blank at its head is dropped behind
both, or written behind both, or the blank that is written in its place is the same. -/
def TextAgrees (p p' : UInt8) : List UInt8 → Prop
  | [] => True
  | b :: t => Blank b → (Blank p ↔ Blank p') ∨ nextBlank .plain t = some b

/-- Each space of the rule block meets a `pre_char` that is a space if and only if `e` is one; the
text behind the block, if there is any, reads the same behind `e`. -/
def SpacesAgree (e : UInt8) (m : CssScan) : List UInt8 → Prop
  | [] => True
  | b :: t =>
    if m.block = true then
      (m.mode = .plain → b = space → (m.pre = space ↔ e = space)) ∧ SpacesAgree e (cssScan.next m b) t
    else TextAgrees e m.pre (b :: t)

instance (p p' : UInt8) : ∀ q, Decidable (TextAgrees p p' q)
  | [] => isTrue trivial
  | b :: t => inferInstanceAs (Decidable (Blank b → (Blank p ↔ Blank p') ∨ nextBlank .plain t = some b))

instance spacesAgreeDecidable (e : UInt8) : ∀ (m : CssScan) (q : List UInt8), Decidable (SpacesAgree e m q)
  | _, [] => isTrue trivial
  | m, b :: t =>
    have := spacesAgreeDecidable e (cssScan.next m b) t
    inferInstanceAs (Decidable (if m.block = true then
      (m.mode = .plain → b = space → (m.pre = space ↔ e = space)) ∧ SpacesAgree e (cssScan.next m b) t
    else TextAgrees e m.pre (b :: t)))

@[simp] def CssMode.Bare (st : CssMode) : Prop := st ≠ .str ∧ st ≠ .esc

section Text
variable {m : CssScan} {b e : UInt8} {q : List UInt8}

/-- A blank that one run has written and the other has not: they come to the same if and only if the
other one writes it next. -/
theorem out_blank (hmode : m.mode.Bare) (hblock : m.block = false) (hfrozen : m.frozen = false)
    (hpre : m.pre = m.last) (hlast : ¬ Blank m.last) (hb : Blank b) :
    b :: cssScan.out { m with pre := b, last := b } q = cssScan.out m q ↔ nextBlank m.mode q = some b := by
  obtain ⟨mode, block, quote, pre, last, frozen⟩ := m
  simp only at hmode hblock hfrozen hpre hlast
  subst hblock hfrozen hpre
  induction q generalizing mode with
  | nil => cases mode <;> simp [nextBlank]
  | cons c t ih =>
    have hlen (o : List UInt8) : b :: c :: o ≠ c :: o := by
      intro he
      have hl := congrArg List.length he
      simp at hl
    cases mode with
    | plain =>
      by_cases hbreak : c = lf ∨ c = cr
      · have hrest := ih .plain (by simp)
        rcases hbreak with rfl | rfl <;> simpa [nextBlank] using hrest
      by_cases hslash : c = slash
      · subst hslash
        simpa [nextBlank] using ih .slash (by simp)
      by_cases hc : Blank c
      · -- one run drops the blank, and the other writes it
        have hnext : nextBlank .plain (c :: t) = some c := by
          rw [nextBlank, if_neg hbreak, if_neg hslash, if_pos hc]
        have hdrop : cssScan.out ⟨.plain, false, quote, b, b, false⟩ (c :: t) =
            cssScan.out ⟨.plain, false, quote, b, b, false⟩ t := by
          rcases hc with rfl | rfl <;> rcases hb with rfl | rfl <;> simp
        have hwrite : cssScan.out ⟨.plain, false, quote, pre, pre, false⟩ (c :: t) =
            c :: cssScan.out ⟨.plain, false, quote, c, c, false⟩ t := by
          simp only [Blank, not_or] at hlast
          rcases hc with rfl | rfl <;> simp [hlast]
        rw [hdrop, hwrite, hnext, Option.some.injEq]
        constructor
        · exact fun he => (List.cons.inj he).1.symm
        · rintro rfl
          rfl
      · have hnext : nextBlank .plain (c :: t) = none := by
          rw [nextBlank, if_neg hbreak, if_neg hslash, if_neg hc]
        have hsame : ∀ p, ∃ m, cssScan.out ⟨.plain, false, quote, p, p, false⟩ (c :: t) =
            c :: cssScan.out m t ∧ m = cssScan.next ⟨.plain, false, quote, c, c, false⟩ c := by
          simp only [Blank, not_or] at hbreak hc
          intro p
          refine ⟨_, ?_, rfl⟩
          simp [hbreak, hslash, hc]
        obtain ⟨m, hm, rfl⟩ := hsame b
        obtain ⟨m, hm', rfl⟩ := hsame pre
        rw [hm, hm', hnext]
        exact iff_of_false (hlen _) (by simp)
    | slash =>
      by_cases hstar : c = star
      · subst hstar
        simpa [nextBlank] using ih .comment (by simp)
      · have hnext : nextBlank .slash (c :: t) = none := by simp [nextBlank, hstar]
        rw [hnext]
        refine iff_of_false (fun he => ?_) (by simp)
        have hl := congrArg List.length he
        simp [hstar] at hl
    | comment =>
      have hrest := ih (if c = star then .star else .comment) (by split <;> simp)
      by_cases hstar : c = star <;> simpa [nextBlank, hstar] using hrest
    | star =>
      have hrest := ih (if c = slash then .plain else if c = star then .star else .comment)
        (by split <;> (try split) <;> simp)
      simpa [nextBlank] using hrest
    | str | esc => simp at hmode

/-- The text behind another byte than `pre_char`. -/
theorem out_text (hmode : m.mode = .plain) (hblock : m.block = false) (hfrozen : m.frozen = false)
    (hlast : (Blank e ↔ Blank m.pre) ∨ ¬ Blank m.last) :
    cssScan.out { m with pre := e } q = cssScan.out m q ↔ TextAgrees e m.pre q := by
  obtain ⟨mode, block, quote, pre, last, frozen⟩ := m
  simp only at hmode hblock hfrozen hlast
  subst hmode hblock hfrozen
  cases q with
  | nil => simp [TextAgrees]
  | cons b t =>
    by_cases hb : Blank b
    · have hdrop : ∀ p, Blank p → cssScan.out ⟨.plain, false, quote, p, last, false⟩ (b :: t) =
          cssScan.out ⟨.plain, false, quote, last, last, false⟩ t := by
        intro p hp
        rcases hp with rfl | rfl <;> rcases hb with rfl | rfl <;> simp
      have hwrite : ∀ p, ¬ Blank p → cssScan.out ⟨.plain, false, quote, p, last, false⟩ (b :: t) =
          b :: cssScan.out ⟨.plain, false, quote, b, b, false⟩ t := by
        intro p hp
        simp only [Blank, not_or] at hp
        rcases hb with rfl | rfl <;> simp [hp]
      by_cases hsame : Blank e ↔ Blank pre
      · refine iff_of_true ?_ fun _ => .inl hsame
        by_cases hp : Blank pre
        · rw [hdrop _ hp, hdrop _ (hsame.mpr hp)]
        · rw [hwrite _ hp, hwrite _ fun he => hp (hsame.mp he)]
      · have hl := hlast.resolve_left hsame
        have hgap : _ ↔ _ := out_blank (m := ⟨.plain, false, quote, last, last, false⟩) (q := t) (by simp)
          rfl rfl rfl hl hb
        have hagrees : TextAgrees e pre (b :: t) ↔ nextBlank .plain t = some b :=
          ⟨fun h => (h hb).resolve_left hsame, fun h _ => .inr h⟩
        rw [hagrees, ← hgap]
        by_cases hp : Blank pre
        · have he : ¬ Blank e := fun he => hsame (iff_of_true he hp)
          rw [hdrop _ hp, hwrite _ he]
        · have he : Blank e := not_not.mp fun he => hsame (iff_of_false he hp)
          rw [hdrop _ he, hwrite _ hp]
          exact eq_comm
    · refine iff_of_true ?_ fun hb' => absurd hb' hb
      simp only [Blank, not_or] at hb
      simp [hb]

end Text

section Block
variable {m : CssScan} {b e : UInt8} {q : List UInt8}

/-- In a rule block no space is written while `pre_char` is one. -/
theorem out_head (hmode : m.mode.Bare) (hblock : m.block = true) (hpre : m.pre = space)
    (hlast : m.frozen = true ∨ m.last = space) : (cssScan.out m q).head? ≠ some space := by
  obtain ⟨mode, block, quote, pre, last, frozen⟩ := m
  simp only at hmode hblock hpre hlast
  subst hblock hpre
  induction q generalizing mode frozen with
  | nil => simp
  | cons c t ih =>
    have hsame : (if frozen = true then space else last) = space := by
      rcases hlast with rfl | rfl <;> simp
    cases mode with
    | plain =>
      by_cases hdrop : c = space ∨ c = lf ∨ c = cr ∨ c = tab
      · have hrest := ih .plain frozen (by simp) hlast
        rcases hdrop with rfl | rfl | rfl | rfl <;> simpa [hsame] using hrest
      by_cases hslash : c = slash
      · subst hslash
        simpa [hsame] using ih .slash frozen (by simp) hlast
      · simp only [not_or] at hdrop
        simp [hdrop, hslash]
    | slash =>
      by_cases hstar : c = star
      · subst hstar
        simpa [hsame] using ih .comment true (by simp) (.inl rfl)
      · simp [hstar]
    | comment =>
      have hrest := ih (if c = star then .star else .comment) frozen (by split <;> simp) hlast
      by_cases hstar : c = star <;> simpa [hstar, hsame] using hrest
    | star =>
      have hrest := ih (if c = slash then .plain else if c = star then .star else .comment) frozen
        (by split <;> (try split) <;> simp) hlast
      simpa [hsame] using hrest
    | str | esc => simp at hmode

/-- Another byte in the place of `pre_char` changes what is written for spaces only. -/
theorem writes_block (hblock : m.block = true)
    (hspace : m.mode = .plain → b = space → (m.pre = space ↔ e = space)) :
    { m with pre := e, frozen := true : CssScan }.writes b = m.writes b := by
  obtain ⟨mode, block, quote, pre, last, frozen⟩ := m
  simp only at hblock hspace
  subst hblock
  cases mode with
  | plain =>
    by_cases hb : b = space
    · subst hb
      simp [hspace rfl rfl]
    · simp [hb]
  | _ => rfl

theorem next_block (hblock : m.block = true) (hb : ¬(m.mode = .plain ∧ b = rbrace))
    (hwrites : { m with pre := e, frozen := true : CssScan }.writes b = m.writes b) :
    cssScan.next { m with pre := e, frozen := true } b =
        { cssScan.next m b with pre := e, frozen := true } ∧ (cssScan.next m b).block = true := by
  rw [cssScan_next, cssScan_next, hwrites]
  obtain ⟨mode, block, quote, pre, last, frozen⟩ := m
  simp only at hblock
  subst hblock
  generalize CssScan.writes _ b = w
  cases mode with
  | plain =>
    have hne : b ≠ rbrace := fun he => hb ⟨rfl, he⟩
    simp [hne]
    split
    · exact ⟨rfl, rfl⟩
    · split <;> exact ⟨rfl, rfl⟩
  | slash | str =>
    simp
    split
    · exact ⟨rfl, rfl⟩
    · try split
      all_goals exact ⟨rfl, rfl⟩
  | comment =>
    simp
    split <;> exact ⟨rfl, rfl⟩
  | star | esc => exact ⟨rfl, rfl⟩

/-- Where the bytes differ at a space, one run writes it, and the other comes to another byte next. -/
theorem out_space (hs : m.Sound) (hmode : m.mode = .plain) (hblock : m.block = true)
    (hne : ¬(m.pre = space ↔ e = space)) :
    cssScan.out { m with pre := e, frozen := true } (space :: q) ≠ cssScan.out m (space :: q) := by
  have hlast : m.frozen = true ∨ m.pre = m.last := by
    rcases hs.pre with hf | hp | ⟨hb, -⟩
    · exact .inl hf
    · exact .inr hp
    · rw [hb] at hblock
      cases hblock
  obtain ⟨mode, block, quote, pre, last, frozen⟩ := m
  simp only at hmode hblock hne hlast
  subst hmode hblock
  intro he
  have hhead := congrArg List.head? he
  by_cases hp : pre = space
  · have hpe : e ≠ space := fun he => hne (iff_of_true hp he)
    subst hp
    have hnext := out_head (m := cssScan.next ⟨.plain, true, quote, space, last, frozen⟩ space) (q := q)
      (by simp) (by simp) (by rcases hlast with rfl | rfl <;> simp)
      (by rcases hlast with rfl | rfl <;> simp)
    simp [hpe] at hhead hnext
    exact hnext hhead.symm
  · have hpe : e = space := not_not.mp fun he => hne (iff_of_false hp he)
    subst hpe
    have hnext := out_head (m := cssScan.next ⟨.plain, true, quote, space, last, true⟩ space) (q := q)
      (by simp) (by simp) (by simp) (by simp)
    simp [hp] at hhead hnext
    exact hnext hhead

/-- A rule block with another byte in the place of `pre_char`. -/
theorem out_block (hs : m.Sound) (hblock : m.block = true) :
    cssScan.out { m with pre := e, frozen := true } q = cssScan.out m q ↔ SpacesAgree e m q := by
  induction q generalizing m with
  | nil => simp [SpacesAgree]
  | cons b t ih =>
    rw [SpacesAgree, if_pos hblock]
    by_cases hspace : m.mode = .plain → b = space → (m.pre = space ↔ e = space)
    · have hwrites := writes_block hblock hspace
      rw [Mealy.out_cons_congr hwrites, and_iff_right hspace]
      by_cases hend : m.mode = .plain ∧ b = rbrace
      · obtain ⟨hmode, rfl⟩ := hend
        have hnext : cssScan.next { m with pre := e, frozen := true } rbrace =
            { cssScan.next m rbrace with pre := e } := by simp [hmode, hblock]
        have hclosed : (cssScan.next m rbrace).mode = .plain ∧ (cssScan.next m rbrace).block = false ∧
            (cssScan.next m rbrace).frozen = false ∧ (cssScan.next m rbrace).last = rbrace := by
          simp [hmode, hblock]
        obtain ⟨hmode', hblock', hfrozen, hlast⟩ := hclosed
        rw [hnext, out_text hmode' hblock' hfrozen (.inr (by rw [hlast]; decide))]
        cases t with
        | nil => exact Iff.rfl
        | cons c t => rw [SpacesAgree, hblock', if_neg Bool.false_ne_true]
      · obtain ⟨hnext, hblock'⟩ := next_block hblock hend hwrites
        rw [hnext]
        exact ih (hs.next b) hblock'
    · refine iff_of_false ?_ fun h => hspace h.1
      rw [Classical.not_imp, Classical.not_imp] at hspace
      obtain ⟨hmode, rfl, hne⟩ := hspace
      exact out_space hs hmode hblock hne

end Block

/-- Within a comment nothing is written, and `pre_char` stays. -/
theorem scan_inside {w : List UInt8} {m : CssScan} (hpre : m.frozen = true ∨ m.pre = m.last)
    (hmode : m.mode = .comment ∧ EndsFirst (lit "*/") w ∨ m.mode = .star ∧ EndsFirst (lit "*/") (star :: w)) :
    cssScan.out m (w ++ lit "*/") = [] ∧ cssScan.run m (w ++ lit "*/") = { m with mode := .plain } := by
  obtain ⟨mode, block, quote, pre, last, frozen⟩ := m
  simp only at hpre hmode
  have hsame : (if frozen = true then pre else last) = pre := by
    rcases hpre with rfl | rfl
    · rfl
    · exact ite_self _
  induction w generalizing mode with
  | nil => rcases hmode with ⟨rfl, -⟩ | ⟨rfl, -⟩ <;> simp [hsame]
  | cons b w ih =>
    rcases hmode with ⟨rfl, hw⟩ | ⟨rfl, hw⟩
    · by_cases hb : b = star
      · subst hb
        simpa [hsame] using ih .star (.inr ⟨rfl, hw⟩)
      · simpa [hsame, hb] using ih .comment (.inl ⟨rfl, hw.tail⟩)
    · by_cases hslash : b = slash
      · subst hslash
        have hnil := hw [] (w ++ lit "*/") (by simp)
        simp at hnil
      by_cases hb : b = star
      · subst hb
        simpa [hsame] using ih .star (.inr ⟨rfl, hw.tail⟩)
      · simpa [hsame, hslash, hb] using ih .comment (.inl ⟨rfl, hw.tail.tail⟩)

/-- A comment writes nothing; it updates `pre_char`, and in a rule block it freezes it. -/
theorem scan_comment {w : List UInt8} {m : CssScan} (hs : m.Sound) (hmode : m.mode = .plain)
    (hw : EndsFirst (lit "*/") w) :
    cssScan.out m (lit "/*" ++ (w ++ lit "*/")) = [] ∧ cssScan.run m (lit "/*" ++ (w ++ lit "*/")) =
      { m with pre := if m.frozen = true then m.pre else m.last, frozen := m.block } := by
  have hthawed := hs.thawed
  obtain ⟨mode, block, quote, pre, last, frozen⟩ := m
  simp only at hmode hthawed
  subst hmode
  have hopen : cssScan.out ⟨.plain, block, quote, pre, last, frozen⟩ (lit "/*") = [] ∧
      cssScan.run ⟨.plain, block, quote, pre, last, frozen⟩ (lit "/*") =
        ⟨.comment, block, quote, if frozen = true then pre else last, last, block⟩ := by
    cases frozen <;> simp
  have hpre : block = true ∨ (if frozen = true then pre else last) = last := by
    cases block with
    | true => exact .inl rfl
    | false => exact .inr (by rw [hthawed rfl]; rfl)
  obtain ⟨hout, hrun⟩ := scan_inside (w := w)
    (m := ⟨.comment, block, quote, if frozen = true then pre else last, last, block⟩) hpre (.inl ⟨rfl, hw⟩)
  rw [Mealy.out_append, Mealy.run_append, hopen.1, hopen.2, hout, hrun]
  exact ⟨rfl, rfl⟩

/-- A text that does not have `*/` ends no comment early. -/
theorem endsFirst_close {w : List UInt8} (hw : ¬ lit "*/" <:+: w) : EndsFirst (lit "*/") w := by
  rw [lit_blockClose] at hw ⊢
  have hends : ¬ [star] ++ [slash] <:+: w ++ [star] → EndsFirst ([star] ++ [slash]) w := .of_notInfix
  apply hends
  rintro ⟨u, v, he⟩
  apply hw
  rcases List.eq_nil_or_concat v with rfl | ⟨v, b, rfl⟩
  · rw [List.append_nil, ← List.append_assoc] at he
    have hlast := List.append_inj_right' he rfl
    simp at hlast
  · rw [List.concat_eq_append, ← List.append_assoc] at he
    exact ⟨u, v, List.append_inj_left' he rfl⟩

/-- The machine behind a page that ends in the text or in a rule block, with nothing held back. -/
def Session.cssScan (s : Session) : CssScan where
  mode := .plain
  block := s.ctx.state.top = .cssBrace
  quote := s.ctx.quoteChar
  pre := s.ctx.preChar
  last := s.out.getLastD 0
  frozen := s.ctx.state.top = .cssBrace && s.ctx.nochangePre

def Session.commentPre (s : Session) : UInt8 :=
  if s.ctx.state.top = .cssBrace then s.ctx.preChar else s.out.getLastD 0

theorem CssLive.eq_scan {s : Session} {m : CssScan} (h : CssLive .cssStripBuffer s.ctx [] s.out.reverse m)
    (hs : s.ctx.state.top = .text ∨ s.ctx.state.top = .cssBrace) : m = s.cssScan := by
  have hsound := h.sound
  have hquote := h.quote
  have hlast : m.last = s.out.getLastD 0 := by
    rw [h.last, List.getLastD_eq_getLast?, List.headD_eq_head?_getD, List.head?_reverse]
  have hfresh := h.fresh (by decide)
  have htext := h.text
  have hbrace := h.brace
  obtain ⟨mode, block, quote, pre, last, frozen⟩ := m
  simp only at hquote hlast hfresh htext hbrace
  subst hquote hlast
  rcases hs with hs | hs
  · obtain ⟨rfl, rfl, rfl, -⟩ := htext hs
    obtain rfl : frozen = false := hsound.thawed rfl
    simp [Session.cssScan, hs]
  · obtain ⟨rfl, rfl, rfl, hpre⟩ := hbrace hs
    have hsame : pre = s.ctx.preChar := by
      cases hno : s.ctx.nochangePre with
      | true => exact hpre hno
      | false =>
        rcases hsound.pre with hf | hp | ⟨hb, -⟩
        · rw [hno] at hf
          cases hf
        · rw [hfresh hno]
          exact hp
        · cases hb
    simp [Session.cssScan, hs, hsame]

/-- In one buffer a comment of a style sheet changes nothing of what is written for the bytes behind
it, if and only if each space of the rule block meets with the same answer as without the comment,
and the text behind it reads the same. -/
theorem css_comment_invisible {cap cap₁ cap₂ : Option ℕ} {p w q : List UInt8} {s s₁ s₂ : Session}
    (h : feedAll Flat cap .css .start [p] = .ok s)
    (hs : s.ctx.state.top = .text ∨ s.ctx.state.top = .cssBrace) (hc : s.ctx.cache = [])
    (hw : ¬ lit "*/" <:+: w)
    (h₁ : feedAll Flat cap₁ .css .start [p ++ (lit "/*" ++ (w ++ lit "*/") ++ q)] = .ok s₁)
    (h₂ : feedAll Flat cap₂ .css .start [p ++ q] = .ok s₂) :
    s₁.out = s₂.out ↔ SpacesAgree s.commentPre s.cssScan q := by
  obtain ⟨-, hend⟩ := css_session h
  have hlive := hend hc (by simpa using hs)
  have hscan := hlive.eq_scan hs
  have hsound := hlive.sound
  rw [hscan] at hsound
  obtain ⟨hnil, hrun⟩ := scan_comment hsound rfl (endsFirst_close hw)
  rw [(css_session h₁).1, (css_session h₂).1, Mealy.out_insert (by rw [hscan]; exact hnil), hscan, hrun]
  by_cases hbrace : s.ctx.state.top = .cssBrace
  · have hblock : s.cssScan.block = true := by simp [Session.cssScan, hbrace]
    have hpre : (if s.cssScan.frozen = true then s.cssScan.pre else s.cssScan.last) = s.commentPre := by
      rw [Session.commentPre, if_pos hbrace]
      rcases hsound.pre with hf | hp | ⟨hb, -⟩
      · rw [if_pos hf]
        rfl
      · rw [← hp, ite_self]
        rfl
      · rw [hblock] at hb
        cases hb
    rw [hpre, hblock, ← out_block hsound hblock, hblock]
  · have hblock : s.cssScan.block = false := by simp [Session.cssScan, hbrace]
    have hfrozen := hsound.thawed hblock
    have hpre : s.cssScan.last = s.commentPre := by
      rw [Session.commentPre, if_neg hbrace]
      rfl
    have hlast : (Blank s.commentPre ↔ Blank s.cssScan.pre) ∨ ¬ Blank s.cssScan.last := by
      rcases hsound.pre with hf | hp | ⟨-, -, hl⟩
      · rw [hfrozen] at hf
        cases hf
      · rw [hp, hpre]
        exact .inl Iff.rfl
      · rw [hl]
        exact .inr (by decide)
    have htext : SpacesAgree s.commentPre s.cssScan q ↔ TextAgrees s.commentPre s.cssScan.pre q := by
      cases q with
      | nil => exact Iff.rfl
      | cons b t => rw [SpacesAgree, hblock, if_neg Bool.false_ne_true]
    rw [hfrozen, if_neg Bool.false_ne_true, hblock, htext, ← out_text rfl hblock hfrozen hlast, hblock, hfrozen,
      hpre]

/-- The comment in `a{b/**/ c}`. -/
theorem css_comment_invisible_block : ∃ s s₁ s₂, feedAll Flat none .css .start [lit "a\x7bb"] = .ok s ∧
    feedAll Flat none .css .start [lit "a\x7bb/**/ c\x7d"] = .ok s₁ ∧
    feedAll Flat none .css .start [lit "a\x7bb c\x7d"] = .ok s₂ ∧ s₁.out = s₂.out := by
  obtain ⟨s, hs, hst⟩ : ∃ s, feedAll Flat none .css .start [lit "a\x7bb"] = .ok s ∧
      (s.ctx.state.top, s.ctx.cache, decide (SpacesAgree s.commentPre s.cssScan (lit " c\x7d"))) =
        (.cssBrace, [], true) := exists_run (by decide)
  obtain ⟨s₁, hs₁, -⟩ : ∃ s, feedAll Flat none .css .start [lit "a\x7bb/**/ c\x7d"] = .ok s ∧ () = () :=
    exists_run (f := fun _ => ()) (by decide)
  obtain ⟨s₂, hs₂, -⟩ : ∃ s, feedAll Flat none .css .start [lit "a\x7bb c\x7d"] = .ok s ∧ () = () :=
    exists_run (f := fun _ => ()) (by decide)
  obtain ⟨htop, hst⟩ := Prod.mk.inj hst
  obtain ⟨hc, hagree⟩ := Prod.mk.inj hst
  have hiff := css_comment_invisible (p := lit "a\x7bb") (w := []) (q := lit " c\x7d") hs (.inr htop) hc
    (by decide) hs₁ hs₂
  exact ⟨s, s₁, s₂, hs, hs₁, hs₂, hiff.mpr (of_decide_eq_true hagree)⟩

/-- In `a{b/**/  c}` both spaces are written. -/
theorem css_comment_shows : ¬ ∀ (p w q : List UInt8) (s s₁ s₂ : Session),
    feedAll Flat none .css .start [p] = .ok s → s.ctx.state.top = .text ∨ s.ctx.state.top = .cssBrace →
      s.ctx.cache = [] → ¬ lit "*/" <:+: w →
      feedAll Flat none .css .start [p ++ (lit "/*" ++ (w ++ lit "*/") ++ q)] = .ok s₁ →
      feedAll Flat none .css .start [p ++ q] = .ok s₂ → ¬ (p.getLast? = some slash) → s₁.out = s₂.out := by
  intro h
  obtain ⟨s, hs, hst⟩ : ∃ s, feedAll Flat none .css .start [lit "a\x7bb"] = .ok s ∧
      (s.ctx.state.top, s.ctx.cache) = (.cssBrace, []) := exists_run (by decide)
  obtain ⟨s₁, hs₁, hout₁⟩ : ∃ s, feedAll Flat none .css .start [lit "a\x7bb/**/  c\x7d"] = .ok s ∧
      s.out = lit "a\x7bb  c\x7d" := exists_run (by decide)
  obtain ⟨s₂, hs₂, hout₂⟩ : ∃ s, feedAll Flat none .css .start [lit "a\x7bb  c\x7d"] = .ok s ∧
      s.out = lit "a\x7bb c\x7d" := exists_run (by decide)
  obtain ⟨htop, hc⟩ := Prod.mk.inj hst
  have hout := h (lit "a\x7bb") [] (lit "  c\x7d") s s₁ s₂ hs (.inr htop) hc (by decide) hs₁ hs₂ (by decide)
  rw [hout₁, hout₂] at hout
  exact absurd hout (by decide)

end NginB.Minify
