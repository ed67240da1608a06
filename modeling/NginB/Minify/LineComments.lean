import Mathlib.Data.List.ReduceOption
import NginB.Minify.JsScan
import NginB.Minify.Passage

/-! # Line breaks behind line comments

The text state weighs `pre_char` before it writes a line break; the line break of a line comment is
always written as a space. The two ways differ in the line break itself, and in the last byte
written, which becomes `pre_char` where a block comment opens.
-/
namespace NginB.Minify
open NginB.Program Relation Ascii

def unblanked (l : List UInt8) : List UInt8 := l.filter fun b => ¬ Blank b

@[simp] theorem unblanked_nil : unblanked [] = [] := rfl

theorem unblanked_blank {b : UInt8} (hb : Blank b) (l : List UInt8) : unblanked (b :: l) = unblanked l :=
  List.filter_cons_of_neg (by simp only [hb, not_true_eq_false, decide_false, Bool.false_eq_true, not_false_eq_true])

/-- States that write the same but for blanks: where they differ in `pre_char` or in the last byte
written, these are bytes behind which a line break is written. -/
inductive SameBreaks : JsScan → JsScan → Prop
  | refl (m) : SameBreaks m m
  | line {q p p' l l' w w'} : SameBreaks ⟨.line, q, p, l, w⟩ ⟨.line, q, p', l', w'⟩
  | broken {st q l l' w w'} (hst : st ∉ [JsMode.line, .str, .esc]) (hl : w = true → l = lf)
      (hl' : w' = true → l' = lf) : SameBreaks ⟨st, q, lf, l, w⟩ ⟨st, q, lf, l', w'⟩
  | last {st q p l l' w} (hst : st ∉ [JsMode.line, .str, .esc]) (hl : jsBreakRedundant l = false)
      (hl' : jsBreakRedundant l' = false) : SameBreaks ⟨st, q, p, l, w⟩ ⟨st, q, p, l', w⟩
  | both {st q p p' l l' w} (hst : st ∉ [JsMode.line, .str, .esc]) (hp : jsBreakRedundant p = false)
      (hp' : jsBreakRedundant p' = false)
      (hl : w = true → jsBreakRedundant l = false ∧ jsBreakRedundant l' = false) :
      SameBreaks ⟨st, q, p, l, w⟩ ⟨st, q, p', l', w⟩
  | str {st q p p' l w} (hst : st ∈ [JsMode.str, .esc]) (hq : jsBreakRedundant q = false)
      (hp : jsBreakRedundant p = false) (hp' : jsBreakRedundant p' = false) :
      SameBreaks ⟨st, q, p, l, w⟩ ⟨st, q, p', l, w⟩

inductive TextByte (b : UInt8) : Prop
  | blank (h : Blank b)
  | lf (h : b = lf)
  | cr (h : b = cr)
  | slash (h : b = slash)
  | quote (h : b = dquote ∨ b = squote ∨ b = lbracket)
  | other (h : ¬ Blank b) (hb : b ≠ slash ∧ b ≠ Ascii.lf ∧ b ≠ Ascii.cr)
      (hq : b ≠ dquote ∧ b ≠ squote ∧ b ≠ lbracket)

theorem textByte (b : UInt8) : TextByte b := by
  by_cases hblank : Blank b
  · exact .blank hblank
  by_cases hlf : b = lf
  · exact .lf hlf
  by_cases hcr : b = cr
  · exact .cr hcr
  by_cases hslash : b = slash
  · exact .slash hslash
  by_cases hquote : b = dquote ∨ b = squote ∨ b = lbracket
  · exact .quote hquote
  · rw [not_or, not_or] at hquote
    exact .other hblank ⟨hslash, hlf, hcr⟩ hquote

theorem jsBreakRedundant_blank {b : UInt8} (h : Blank b) : jsBreakRedundant b = false := by
  rcases h with rfl | rfl <;> rfl

theorem jsBreakRedundant_quote {b : UInt8} (h : b = dquote ∨ b = squote ∨ b = lbracket) :
    jsBreakRedundant b = false ∧ jsBreakRedundant (if b = lbracket then rbracket else b) = false := by
  rcases h with rfl | rfl | rfl <;> decide

theorem sameBreaks_next {m m' n n' : JsScan} {b : UInt8} {ws ws' : List UInt8}
    (h : m.writes b = ws ∧ jsScan.next m b = n) (h' : m'.writes b = ws' ∧ jsScan.next m' b = n')
    (hws : unblanked ws = unblanked ws') (hn : SameBreaks n n') :
    unblanked (jsScan.emit m b) = unblanked (jsScan.emit m' b) ∧
      SameBreaks (jsScan.next m b) (jsScan.next m' b) := by
  rw [jsScan_emit, jsScan_emit, h.1, h'.1, h.2, h'.2]
  exact ⟨hws, hn⟩

/-- A blank is dropped, or it becomes `pre_char`. -/
theorem jsScan_blank_cases {q p l b : UInt8} {w : Bool} (hb : Blank b) :
    (JsScan.mk .plain q p l w).writes b = [] ∧ jsScan.next ⟨.plain, q, p, l, w⟩ b = ⟨.plain, q, p, l, w⟩ ∨
      w = true ∧ (JsScan.mk .plain q p l w).writes b = [b] ∧
        jsScan.next ⟨.plain, q, p, l, w⟩ b = ⟨.plain, q, b, b, true⟩ := by
  by_cases hd : (JsScan.mk .plain q p l w).DropsBlank
  · exact .inl (jsScan_blank_drop hb hd)
  · refine .inr ⟨?_, jsScan_blank hb hd⟩
    simp only [JsScan.DropsBlank, not_or, Bool.not_eq_false] at hd
    exact hd.2.1

section Steps
variable {st : JsMode} {q p p' l l' : UInt8} {w w' : Bool} {b : UInt8}

/-- Behind a slash and in a block comment nothing is written that depends on how the states differ. -/
theorem sameBreaks_outside (hst : st ∈ [JsMode.slash, .comment, .star])
    (hkeep : ∀ st' ∉ [JsMode.line, .str, .esc], SameBreaks ⟨st', q, p, l, w⟩ ⟨st', q, p', l', w'⟩) (b : UInt8) :
    unblanked (jsScan.emit ⟨st, q, p, l, w⟩ b) = unblanked (jsScan.emit ⟨st, q, p', l', w'⟩ b) ∧
      SameBreaks (jsScan.next ⟨st, q, p, l, w⟩ b) (jsScan.next ⟨st, q, p', l', w'⟩ b) := by
  cases st with
  | plain | line | str | esc => simp at hst
  | slash =>
    by_cases hstar : b = star
    · subst hstar
      exact sameBreaks_next jsScan_opens jsScan_opens rfl (hkeep _ (by simp))
    by_cases hslash : b = slash
    · subst hslash
      exact sameBreaks_next jsScan_opens_line jsScan_opens_line rfl .line
    · exact sameBreaks_next (jsScan_pair hstar hslash) (jsScan_pair hstar hslash) rfl (.refl _)
  | comment => exact sameBreaks_next jsScan_comment jsScan_comment rfl (hkeep _ (by split <;> simp))
  | star => exact sameBreaks_next jsScan_star jsScan_star rfl (hkeep _ (by split <;> (try split) <;> simp))

theorem sameBreaks_broken (hl : w = true → l = lf) (hl' : w' = true → l' = lf) (b : UInt8) :
    unblanked (jsScan.emit ⟨.plain, q, lf, l, w⟩ b) = unblanked (jsScan.emit ⟨.plain, q, lf, l', w'⟩ b) ∧
      SameBreaks (jsScan.next ⟨.plain, q, lf, l, w⟩ b) (jsScan.next ⟨.plain, q, lf, l', w'⟩ b) := by
  have hkeep : SameBreaks ⟨.plain, q, lf, l, w⟩ ⟨.plain, q, lf, l', w'⟩ := .broken (by simp) hl hl'
  cases textByte b with
  | blank hb => exact sameBreaks_next (jsScan_blank_drop hb (.inl rfl)) (jsScan_blank_drop hb (.inl rfl)) rfl hkeep
  | lf hb =>
    subst hb
    exact sameBreaks_next (jsScan_break_drop rfl) (jsScan_break_drop rfl) rfl hkeep
  | cr hb =>
    subst hb
    exact sameBreaks_next jsScan_return jsScan_return rfl hkeep
  | slash hb =>
    subst hb
    have hpre {l : UInt8} {w : Bool} (hl : w = true → l = lf) : (if w = true then l else lf) = lf := by
      cases w with
      | true => exact hl rfl
      | false => rfl
    have hn := jsScan_slash (q := q) (p := lf) (l := l) (w := w)
    have hn' := jsScan_slash (q := q) (p := lf) (l := l') (w := w')
    rw [hpre hl] at hn
    rw [hpre hl'] at hn'
    exact sameBreaks_next hn hn' rfl (.broken (by simp) hl hl')
  | quote hb => exact sameBreaks_next (jsScan_quote hb) (jsScan_quote hb) rfl (.refl _)
  | other hbl hb hq =>
    exact sameBreaks_next (jsScan_byte hb hq fun h => hbl h.1) (jsScan_byte hb hq fun h => hbl h.1) rfl (.refl _)

theorem sameBreaks_last (hl : jsBreakRedundant l = false) (hl' : jsBreakRedundant l' = false) (b : UInt8) :
    unblanked (jsScan.emit ⟨.plain, q, p, l, w⟩ b) = unblanked (jsScan.emit ⟨.plain, q, p, l', w⟩ b) ∧
      SameBreaks (jsScan.next ⟨.plain, q, p, l, w⟩ b) (jsScan.next ⟨.plain, q, p, l', w⟩ b) := by
  have hkeep : SameBreaks ⟨.plain, q, p, l, w⟩ ⟨.plain, q, p, l', w⟩ := .last (by simp) hl hl'
  cases textByte b with
  | blank hb =>
    by_cases hd : (JsScan.mk .plain q p l w).DropsBlank
    · exact sameBreaks_next (jsScan_blank_drop hb hd) (jsScan_blank_drop hb hd) rfl hkeep
    · exact sameBreaks_next (jsScan_blank hb hd) (jsScan_blank hb hd) rfl (.refl _)
  | lf hb =>
    subst hb
    cases hp : jsBreakRedundant p with
    | true => exact sameBreaks_next (jsScan_break_drop hp) (jsScan_break_drop hp) rfl (.last (by simp) hl hl')
    | false => exact sameBreaks_next (jsScan_break hp) (jsScan_break hp) rfl (.refl _)
  | cr hb =>
    subst hb
    exact sameBreaks_next jsScan_return jsScan_return rfl hkeep
  | slash hb =>
    subst hb
    cases w with
    | true => exact sameBreaks_next jsScan_slash jsScan_slash rfl (.both (by simp) hl hl' fun _ => ⟨hl, hl'⟩)
    | false => exact sameBreaks_next jsScan_slash jsScan_slash rfl (.last (by simp) hl hl')
  | quote hb => exact sameBreaks_next (jsScan_quote hb) (jsScan_quote hb) rfl (.refl _)
  | other hbl hb hq =>
    exact sameBreaks_next (jsScan_byte hb hq fun h => hbl h.1) (jsScan_byte hb hq fun h => hbl h.1) rfl (.refl _)

theorem sameBreaks_both (hp : jsBreakRedundant p = false) (hp' : jsBreakRedundant p' = false)
    (hl : w = true → jsBreakRedundant l = false ∧ jsBreakRedundant l' = false) (b : UInt8) :
    unblanked (jsScan.emit ⟨.plain, q, p, l, w⟩ b) = unblanked (jsScan.emit ⟨.plain, q, p', l', w⟩ b) ∧
      SameBreaks (jsScan.next ⟨.plain, q, p, l, w⟩ b) (jsScan.next ⟨.plain, q, p', l', w⟩ b) := by
  have hkeep : SameBreaks ⟨.plain, q, p, l, w⟩ ⟨.plain, q, p', l', w⟩ := .both (by simp) hp hp' hl
  cases textByte b with
  | blank hb =>
    have hbn := jsBreakRedundant_blank hb
    have hnil : unblanked [b] = unblanked [] := unblanked_blank hb []
    rcases jsScan_blank_cases (q := q) (p := p) (l := l) (w := w) hb with hn | ⟨rfl, hn⟩ <;>
      rcases jsScan_blank_cases (q := q) (p := p') (l := l') hb with hn' | ⟨hw, hn'⟩
    · exact sameBreaks_next hn hn' rfl hkeep
    · subst hw
      exact sameBreaks_next hn hn' hnil.symm (.both (by simp) hp hbn fun _ => ⟨(hl rfl).1, hbn⟩)
    · exact sameBreaks_next hn hn' hnil (.both (by simp) hbn hp' fun _ => ⟨hbn, (hl rfl).2⟩)
    · exact sameBreaks_next hn hn' rfl (.refl _)
  | lf hb =>
    subst hb
    exact sameBreaks_next (jsScan_break hp) (jsScan_break hp') rfl (.refl _)
  | cr hb =>
    subst hb
    exact sameBreaks_next jsScan_return jsScan_return rfl hkeep
  | slash hb =>
    subst hb
    cases w with
    | true => exact sameBreaks_next jsScan_slash jsScan_slash rfl (.both (by simp) (hl rfl).1 (hl rfl).2 hl)
    | false => exact sameBreaks_next jsScan_slash jsScan_slash rfl (.both (by simp) hp hp' hl)
  | quote hb =>
    exact sameBreaks_next (jsScan_quote hb) (jsScan_quote hb) rfl (.str (by simp) (jsBreakRedundant_quote hb).2 hp hp')
  | other hbl hb hq =>
    exact sameBreaks_next (jsScan_byte hb hq fun h => hbl h.1) (jsScan_byte hb hq fun h => hbl h.1) rfl (.refl _)

theorem sameBreaks_str (hst : st ∈ [JsMode.str, .esc]) (hq : jsBreakRedundant q = false)
    (hp : jsBreakRedundant p = false) (hp' : jsBreakRedundant p' = false) (b : UInt8) :
    unblanked (jsScan.emit ⟨st, q, p, l, w⟩ b) = unblanked (jsScan.emit ⟨st, q, p', l, w⟩ b) ∧
      SameBreaks (jsScan.next ⟨st, q, p, l, w⟩ b) (jsScan.next ⟨st, q, p', l, w⟩ b) := by
  rcases List.mem_pair.mp hst with rfl | rfl
  · by_cases hb : b = backslash
    · subst hb
      exact sameBreaks_next jsScan_backslash jsScan_backslash rfl (.str (by simp) hq hp hp')
    by_cases hbq : b = q
    · subst hbq
      have hn := jsScan_str (q := b) (p := p) (l := l) (w := w) hb
      have hn' := jsScan_str (q := b) (p := p') (l := l) (w := w) hb
      rw [if_pos rfl] at hn hn'
      exact sameBreaks_next hn hn' rfl (.both (by simp) hp hp' fun _ => ⟨hq, hq⟩)
    · have hn := jsScan_str (q := q) (p := p) (l := l) (w := w) hb
      have hn' := jsScan_str (q := q) (p := p') (l := l) (w := w) hb
      rw [if_neg hbq] at hn hn'
      exact sameBreaks_next hn hn' rfl (.str (by simp) hq hp hp')
  · exact sameBreaks_next jsScan_esc jsScan_esc rfl (.str (by simp) hq hp hp')

end Steps

theorem not_plain {st : JsMode} (hst : st ∉ [JsMode.line, .str, .esc]) (h : st ≠ .plain) :
    st ∈ [JsMode.slash, .comment, .star] := by
  cases st <;> simp_all

theorem SameBreaks.step {m m' : JsScan} (h : SameBreaks m m') (b : UInt8) :
    unblanked (jsScan.emit m b) = unblanked (jsScan.emit m' b) ∧
      SameBreaks (jsScan.next m b) (jsScan.next m' b) := by
  cases h with
  | refl => exact ⟨rfl, .refl _⟩
  | line =>
    by_cases hb : b = lf
    · subst hb
      simp
      exact .refl _
    · simp [hb]
      exact .line
  | @broken st _ _ _ _ _ hst hl hl' =>
    by_cases hplain : st = .plain
    · subst hplain
      exact sameBreaks_broken hl hl' b
    · exact sameBreaks_outside (not_plain hst hplain) (fun _ hst' => .broken hst' hl hl') b
  | @last st _ _ _ _ _ hst hl hl' =>
    by_cases hplain : st = .plain
    · subst hplain
      exact sameBreaks_last hl hl' b
    · exact sameBreaks_outside (not_plain hst hplain) (fun _ hst' => .last hst' hl hl') b
  | @both st _ _ _ _ _ _ hst hp hp' hl =>
    by_cases hplain : st = .plain
    · subst hplain
      exact sameBreaks_both hp hp' hl b
    · exact sameBreaks_outside (not_plain hst hplain) (fun _ hst' => .both hst' hp hp' hl) b
  | str hst hq hp hp' => exact sameBreaks_str hst hq hp hp' b

theorem SameBreaks.cut {m m' : JsScan} (h : SameBreaks m m') : SameBreaks m.cut m'.cut := by
  cases h with
  | refl | last => exact .refl _
  | line => exact .line
  | broken hst => exact .broken hst (fun h => nomatch h) fun h => nomatch h
  | both hst hp hp' => exact .both hst hp hp' fun h => nomatch h
  | str hst hq hp hp' => exact .str hst hq hp hp'

/-- How two runs have come to differ in `pre_char` since a block comment; `q` ends the string they are in. -/
inductive Differ (e q : UInt8) : JsMode → UInt8 → Bool → UInt8 → Bool → Prop
  | comment {st last' w'} (hst : st ∈ [JsMode.plain, .slash, .comment, .star])
      (hl : w' = true → last' = e) : Differ e q st space true last' w'
  | cut {st last last'} (hst : st ∈ [JsMode.plain, .slash, .comment, .star]) : Differ e q st last false last' false
  | string {last} (hl : jsBreakRedundant last = false) : Differ e q .plain last true last true
  | inside {st last w} (hst : st ∈ [JsMode.str, .esc]) (hq : jsBreakRedundant q = false) :
      Differ e q st last w last w

section Runs
variable {st : JsMode} {q p e last last' : UInt8} {w w' : Bool} {l : Option UInt8} {t : List (Option UInt8)}

def LastWrote (w : Bool) (last : UInt8) (l : Option UInt8) : Prop := l = if w = true then some last else none

theorem LastWrote.getD (h : LastWrote w last l) (p : UInt8) : (if w = true then last else p) = l.getD p := by
  rw [show l = _ from h]
  split <;> rfl

theorem Differ.move {l : UInt8} {st' : JsMode} (h : Differ e q st l w last' w') (hst : st ∈ [JsMode.comment, .star])
    (hst' : st' ∈ [JsMode.plain, .slash, .comment, .star]) : Differ e q st' l w last' w' := by
  cases h with
  | comment _ hl => exact .comment hst' hl
  | cut => exact .cut hst'
  | string => simp at hst
  | inside hin => rcases List.mem_pair.mp hin with rfl | rfl <;> simp at hst

end Runs

end NginB.Minify
