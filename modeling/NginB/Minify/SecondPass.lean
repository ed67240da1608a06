import NginB.Minify.CssScan
import NginB.Minify.LineComments
import NginB.Program.Retrace

/-! # Minifying what has been minified

A script or a style sheet is minified, and what comes out is minified again. A comment leaves white
space behind that would have been dropped without it, so once is not enough: the second time some of
that is dropped, the third time nothing is.
-/
namespace NginB.Minify
open NginB.Program Relation Ascii

namespace CssScan

def Commented (m : CssScan) : Prop := m.mode ∈ [CssMode.comment, .star]

inductive Reread : CssScan → CssScan → Prop
  | text {s t} (hs : s.mode ∉ [CssMode.str, .esc]) (ht : t.mode = .plain) : Reread s t
  | str {s t} (hs : s.mode ∈ [CssMode.str, .esc]) (ht : t.mode = .str) (hq : t.quote = s.quote) : Reread s t

/-- `t` reads what `s` writes, and `s` has been in no comment. -/
inductive Settled : CssScan → CssScan → Prop
  | text {st k q q' l} (hst : st ∈ [CssMode.plain, .slash]) :
      Settled ⟨st, k, q, l, l, false⟩ ⟨.plain, k, q', l, l, false⟩
  | str {st k q l} (hst : st ∈ [CssMode.str, .esc]) :
      Settled ⟨st, k, q, l, l, false⟩ ⟨.str, k, q, l, l, false⟩

end CssScan

section Steps
variable {q p l b : UInt8} {k f : Bool}

theorem cssScan_slash : (CssScan.mk .plain k q p l f).writes slash = [] ∧
    cssScan.next ⟨.plain, k, q, p, l, f⟩ slash = ⟨.slash, k, q, if f = true then p else l, l, f⟩ := by
  simp

theorem cssScan_opens : (CssScan.mk .slash k q p l f).writes star = [] ∧
    cssScan.next ⟨.slash, k, q, p, l, f⟩ star = ⟨.comment, k, q, if f = true then p else l, l, k⟩ := by
  simp

theorem cssScan_pair (hb : b ≠ star) : (CssScan.mk .slash k q p l f).writes b = [slash, b] ∧
    cssScan.next ⟨.slash, k, q, p, l, f⟩ b = ⟨.plain, k, q, if f = true then p else b, b, f⟩ := by
  simp [hb]

theorem cssScan_backslash : (CssScan.mk .str k q p l f).writes backslash = [] ∧
    cssScan.next ⟨.str, k, q, p, l, f⟩ backslash = ⟨.esc, k, q, if f = true then p else l, l, f⟩ := by
  simp

theorem cssScan_str (hb : b ≠ backslash) : (CssScan.mk .str k q p l f).writes b = [b] ∧
    cssScan.next ⟨.str, k, q, p, l, f⟩ b =
      ⟨if b = q then .plain else .str, k, q, if f = true then p else b, b, f⟩ := by
  by_cases hq : b = q
  · subst hq
    simp [hb]
  · simp [hb, hq]

theorem cssScan_esc : (CssScan.mk .esc k q p l f).writes b = [backslash, b] ∧
    cssScan.next ⟨.esc, k, q, p, l, f⟩ b = ⟨.str, k, q, if f = true then p else b, b, f⟩ := by
  simp

end Steps

namespace CssScan

/-- In the text and in a rule block, a byte other than a slash is written, or it is white space. -/
theorem writes_text {t : CssScan} {b : UInt8} (ht : t.mode = .plain) (hb : b ≠ slash) :
    t.writes b = [b] ∧ ¬ t.Drops b ∨ t.writes b = [] ∧ t.Drops b ∧ isBlank b = true := by
  simp only [writes, ht, hb, or_false]
  split
  · next h =>
    refine .inr ⟨rfl, h, ?_⟩
    rw [Drops] at h
    split at h
    · rcases h with ⟨rfl, -⟩ | rfl | rfl | rfl <;> rfl
    · rcases h with ⟨rfl | rfl, -⟩ | rfl | rfl <;> rfl
  · next h => exact .inl ⟨rfl, h⟩

/-- In the text and in a rule block, only a quote leads into a string. -/
theorem goes_text {t : CssScan} {b : UInt8} (ht : t.mode = .plain) (hb : b ≠ slash) :
    if b = dquote ∨ b = squote then (cssScan.next t b).mode = .str ∧ (cssScan.next t b).quote = b
    else (cssScan.next t b).mode = .plain := by
  split
  · next h => rcases h with rfl | rfl <;> simp [ht]
  · next h =>
    simp only [cssScan_next, wrote, goes, ht, if_neg hb, if_neg h]
    split_ifs <;> rfl

/-- What is read in the text or in a rule block, but for a slash. -/
theorem Reread.text_byte {s t : CssScan} {b : UInt8} (hw : s.writes b = [b]) (ht : t.mode = .plain) (hb : b ≠ slash)
    (hs : if b = dquote ∨ b = squote then (cssScan.next s b).mode = .str ∧ (cssScan.next s b).quote = b
      else (cssScan.next s b).mode = .plain) :
    cssScan.Rereads Commented (fun b => !isBlank b) Reread s t b := by
  have hgoes := goes_text ht hb
  refine Mealy.rereads_single ⟨hw, rfl⟩ ?_ ?_ ?_
  · rw [Commented]
    split at hgoes
    · rw [hgoes.1]
      decide
    · rw [hgoes]
      decide
  · rcases writes_text ht hb with ⟨hw, -⟩ | ⟨hw, -, hblank⟩
    · exact .inl hw
    · exact .inr ⟨hw, by rw [hblank]; rfl⟩
  · split at hgoes
    · next h =>
      rw [if_pos h] at hs
      refine .str ?_ hgoes.1 (hgoes.2.trans hs.2.symm)
      rw [hs.1]
      decide
    · next h =>
      rw [if_neg h] at hs
      refine .text ?_ hgoes
      rw [hs]
      decide

/-- The second time no comment is met, and nothing but white space is dropped. -/
theorem Reread.next {s t : CssScan} (h : s.Reread t) (b : UInt8) :
    cssScan.Rereads Commented (fun b => !isBlank b) Reread s t b := by
  obtain ⟨mode, k, q, p, l, f⟩ := s
  cases h with
  | str hs ht hq =>
    obtain ⟨mode', k', q', p', l', f'⟩ := t
    simp only at hs ht hq
    subst ht hq
    rw [List.mem_pair] at hs
    rcases hs with rfl | rfl
    · by_cases hb : b = backslash
      · subst hb
        exact Mealy.rereads_none cssScan_backslash (.str (by simp) rfl rfl)
      · have hread : _ := @cssScan_str q' p' l' b k' f' hb
        refine Mealy.rereads_single (cssScan_str hb) ?_ (.inl hread.1) ?_
        · rw [hread.2, Commented]
          dsimp only
          split <;> decide
        · rw [hread.2]
          split
          · exact .text (by simp) rfl
          · exact .str (by simp) rfl rfl
    · exact Mealy.rereads_pair cssScan_esc cssScan_backslash cssScan_esc (by simp [Commented])
        (by simp [Commented]) (.str (by simp) rfl rfl)
  | text hs ht =>
    simp only [List.mem_cons, List.not_mem_nil, or_false, not_or] at hs
    cases mode with
    | str | esc => simp at hs
    | plain =>
      by_cases hb : b = slash
      · subst hb
        exact Mealy.rereads_none cssScan_slash (.text (by simp) ht)
      have hgoes : _ := @goes_text ⟨.plain, k, q, p, l, f⟩ b rfl hb
      rcases @writes_text ⟨.plain, k, q, p, l, f⟩ b rfl hb with ⟨hw, -⟩ | ⟨hw, -, hblank⟩
      · exact Reread.text_byte hw ht hb hgoes
      · refine Mealy.rereads_none ⟨hw, rfl⟩ (.text ?_ ht)
        have hq : ¬ (b = dquote ∨ b = squote) := by
          rintro (rfl | rfl) <;> cases hblank
        rw [if_neg hq] at hgoes
        rw [hgoes]
        decide
    | slash =>
      obtain ⟨mode', k', q', p', l', f'⟩ := t
      simp only at ht
      subst ht
      by_cases hb : b = star
      · subst hb
        exact Mealy.rereads_none cssScan_opens (.text (by simp) rfl)
      · exact Mealy.rereads_pair (cssScan_pair hb) cssScan_slash (cssScan_pair hb) (by simp [Commented])
          (by simp [Commented]) (.text (by simp) rfl)
    | comment | star =>
      refine Mealy.rereads_none ⟨rfl, rfl⟩ (.text ?_ ht)
      simp only [cssScan_next, wrote, goes]
      split_ifs <;> simp

/-- Up to the first comment, what is read again is written as it is. -/
theorem Settled.next {s t : CssScan} (h : s.Settled t) (b : UInt8) (hb : ¬ (cssScan.next s b).Commented) :
    cssScan.Copies Settled s t b := by
  cases h with
  | str hst =>
    rw [List.mem_pair] at hst
    rcases hst with rfl | rfl
    · by_cases hback : b = backslash
      · subst hback
        exact Mealy.copies_none cssScan_backslash (.str (by simp))
      · refine Mealy.copies_same (cssScan_str hback) (cssScan_str hback) ?_
        split
        · exact .text (by simp)
        · exact .str (by simp)
    · exact Mealy.copies_pair cssScan_esc cssScan_backslash cssScan_esc (.str (by simp))
  | @text _ k q q' l hst =>
    rw [List.mem_pair] at hst
    rcases hst with rfl | rfl
    · by_cases hslash : b = slash
      · subst hslash
        exact Mealy.copies_none cssScan_slash (.text (by simp))
      rcases @writes_text ⟨.plain, k, q, l, l, false⟩ b rfl hslash with ⟨hw, hd⟩ | ⟨hw, hd, hblank⟩
      · have hw' : (CssScan.mk .plain k q' l l false).writes b = [b] := by
          refine if_neg ?_
          rintro (h | h)
          · exact hd h
          · exact hslash h
        refine Mealy.copies_same ⟨hw, rfl⟩ ⟨hw', rfl⟩ ?_
        rw [cssScan_next, cssScan_next, hw, hw']
        simp only [wrote, goes, if_neg hslash, Bool.false_eq_true, if_false]
        split_ifs
        · exact .str (by simp)
        all_goals exact .text (by simp)
      · refine Mealy.copies_none ⟨hw, rfl⟩ ?_
        -- white space leads nowhere
        have hquote : ¬ (b = dquote ∨ b = squote) := by
          rintro (rfl | rfl) <;> cases hblank
        have hclose : ¬ (k = true ∧ b = rbrace) := by
          rintro ⟨-, rfl⟩
          cases hblank
        have hopen : ¬ (k = false ∧ b = lbrace) := by
          rintro ⟨-, rfl⟩
          cases hblank
        rw [cssScan_next, hw]
        simp only [wrote, goes, if_neg hslash, if_neg hquote, if_neg hclose, if_neg hopen]
        exact .text (by simp)
    · by_cases hstar : b = star
      · subst hstar
        rw [cssScan_opens.2] at hb
        exact absurd (by decide : CssMode.comment ∈ [CssMode.comment, .star]) hb
      exact Mealy.copies_pair (cssScan_pair hstar) cssScan_slash (cssScan_pair hstar) (.text (by simp))

theorem out_third (sheet : List UInt8) :
    cssScan.out .start (cssScan.out .start (cssScan.out .start sheet)) = cssScan.out .start (cssScan.out .start sheet) ∧
      solid (cssScan.out .start (cssScan.out .start sheet)) = solid (cssScan.out .start sheet) := by
  have hreread : start.Reread start := .text (by decide) rfl
  have hsettled : start.Settled start := .text (by decide)
  rw [solid_eq_filter, solid_eq_filter]
  exact Mealy.out_out_out (fun b h => h.next b) (fun b h hb => h.next b hb) hreread hsettled sheet

end CssScan

namespace JsScan

def Commented (m : JsScan) : Prop := m.mode ∈ [JsMode.line, .comment, .star]

inductive Reread : JsScan → JsScan → Prop
  | text {s t} (hs : s.mode ∉ [JsMode.str, .esc]) (ht : t.mode = .plain) : Reread s t
  | str {s t} (hs : s.mode ∈ [JsMode.str, .esc]) (ht : t.mode = .str) (hq : t.quote = s.quote) : Reread s t

/-- `t` reads what `s` writes, and `s` has been in no comment. -/
inductive Settled : JsScan → JsScan → Prop
  | text {q q' p p' l l' w} (hp : p = lf ∨ p' = p) : Settled ⟨.plain, q, p, l, w⟩ ⟨.plain, q', p', l', w⟩
  | opened {q q' p p' l l' w} : Settled ⟨.slash, q, p, l, w⟩ ⟨.plain, q', p', l', w⟩
  | str {st q p p' l l' w} (hst : st ∈ [JsMode.str, .esc]) (hp : p = lf ∨ p' = p) :
      Settled ⟨st, q, p, l, w⟩ ⟨.str, q, p', l', w⟩

/-- In the text a byte other than a slash is written, or it is white space. -/
theorem writes_text {t : JsScan} {b : UInt8} (ht : t.mode = .plain) (hb : b ≠ slash) :
    t.writes b = [b] ∨ t.writes b = [] ∧ isBlank b = true := by
  simp only [writes, ht, textWrites, hb, false_or]
  split_ifs with h
  · refine .inr ⟨rfl, ?_⟩
    rcases h with ⟨rfl | rfl, -⟩ | rfl | ⟨rfl, -⟩ <;> rfl
  · exact .inl rfl

/-- In the text, only a quote or a bracket leads into a string. -/
theorem goes_text {t : JsScan} {b : UInt8} (ht : t.mode = .plain) (hb : b ≠ slash) :
    if b = dquote ∨ b = squote ∨ b = lbracket then
      (jsScan.next t b).mode = .str ∧ (jsScan.next t b).quote = if b = lbracket then rbracket else b
    else (jsScan.next t b).mode = .plain := by
  obtain ⟨mode, q, p, l, w⟩ := t
  simp only at ht
  subst ht
  cases textByte b with
  | slash h => exact absurd h hb
  | blank h =>
    have hq : ¬ (b = dquote ∨ b = squote ∨ b = lbracket) := by rcases h with rfl | rfl <;> decide
    rw [if_neg hq]
    by_cases hd : (JsScan.mk .plain q p l w).DropsBlank
    · rw [(jsScan_blank_drop h hd).2]
    · rw [(jsScan_blank h hd).2]
  | lf h | cr h =>
    subst h
    simp
  | quote h =>
    rw [if_pos h, (jsScan_quote h).2]
    exact ⟨rfl, rfl⟩
  | other h hb hq =>
    rw [if_neg (by simp [hq]), (jsScan_byte hb hq fun hd => h hd.1).2]

theorem Reread.text_byte {s t : JsScan} {b c : UInt8} (hw : s.writes b = [c]) (ht : t.mode = .plain) (hc : c ≠ slash)
    (hs : if c = dquote ∨ c = squote ∨ c = lbracket then
      (jsScan.next s b).mode = .str ∧ (jsScan.next s b).quote = if c = lbracket then rbracket else c
      else (jsScan.next s b).mode = .plain) :
    jsScan.Rereads Commented (fun b => !isBlank b) Reread s t b := by
  have hgoes := goes_text ht hc
  refine Mealy.rereads_single ⟨hw, rfl⟩ ?_ ?_ ?_
  · rw [Commented]
    split at hgoes
    · rw [hgoes.1]
      decide
    · rw [hgoes]
      decide
  · rcases writes_text ht hc with hw | ⟨hw, hblank⟩
    · exact .inl hw
    · exact .inr ⟨hw, by rw [hblank]; rfl⟩
  · split at hgoes
    · next h =>
      rw [if_pos h] at hs
      refine .str ?_ hgoes.1 (hgoes.2.trans hs.2.symm)
      rw [hs.1]
      decide
    · next h =>
      rw [if_neg h] at hs
      refine .text ?_ hgoes
      rw [hs]
      decide

/-- The second time no comment is met, and nothing but white space is dropped. -/
theorem Reread.next {s t : JsScan} (h : s.Reread t) (b : UInt8) :
    jsScan.Rereads Commented (fun b => !isBlank b) Reread s t b := by
  obtain ⟨mode, q, p, l, w⟩ := s
  cases h with
  | str hs ht hq =>
    obtain ⟨mode', q', p', l', w'⟩ := t
    simp only at hs ht hq
    subst ht hq
    rw [List.mem_pair] at hs
    rcases hs with rfl | rfl
    · by_cases hb : b = backslash
      · subst hb
        exact Mealy.rereads_none jsScan_backslash (.str (by simp) rfl rfl)
      · have hread : _ := @jsScan_str q' p' l' b w' hb
        refine Mealy.rereads_single (jsScan_str hb) ?_ (.inl hread.1) ?_
        · rw [hread.2, Commented]
          dsimp only
          split <;> decide
        · rw [hread.2]
          split
          · exact .text (by simp) rfl
          · exact .str (by simp) rfl rfl
    · exact Mealy.rereads_pair jsScan_esc jsScan_backslash jsScan_esc (by simp [Commented])
        (by simp [Commented]) (.str (by simp) rfl rfl)
  | text hs ht =>
    simp only [List.mem_cons, List.not_mem_nil, or_false, not_or] at hs
    cases mode with
    | str | esc => simp at hs
    | plain =>
      by_cases hb : b = slash
      · subst hb
        exact Mealy.rereads_none jsScan_slash (.text (by simp) ht)
      have hgoes : _ := @goes_text ⟨.plain, q, p, l, w⟩ b rfl hb
      rcases @writes_text ⟨.plain, q, p, l, w⟩ b rfl hb with hw | ⟨hw, hblank⟩
      · exact Reread.text_byte hw ht hb hgoes
      · refine Mealy.rereads_none ⟨hw, rfl⟩ (.text ?_ ht)
        have hq : ¬ (b = dquote ∨ b = squote ∨ b = lbracket) := by
          rintro (rfl | rfl | rfl) <;> cases hblank
        rw [if_neg hq] at hgoes
        rw [hgoes]
        decide
    | slash =>
      obtain ⟨mode', q', p', l', w'⟩ := t
      simp only at ht
      subst ht
      by_cases hstar : b = star
      · subst hstar
        exact Mealy.rereads_none jsScan_opens (.text (by simp) rfl)
      by_cases hslash : b = slash
      · subst hslash
        exact Mealy.rereads_none jsScan_opens_line (.text (by simp) rfl)
      · exact Mealy.rereads_pair (jsScan_pair hstar hslash) jsScan_slash (jsScan_pair hstar hslash)
          (by simp [Commented]) (by simp [Commented]) (.text (by simp) rfl)
    | line =>
      by_cases hb : b = lf
      · subst hb
        have hwrites : (JsScan.mk .line q p l w).writes lf = [space] := by simp
        exact Reread.text_byte hwrites ht (by decide) rfl
      · have hwrites : (JsScan.mk .line q p l w).writes b = [] := if_neg hb
        refine Mealy.rereads_none ⟨hwrites, rfl⟩ (.text ?_ ht)
        rw [jsScan_next, hwrites]
        simp [hb]
    | comment => exact Mealy.rereads_none jsScan_comment (.text (by split <;> simp) ht)
    | star => exact Mealy.rereads_none jsScan_star (.text (by split <;> (try split) <;> simp) ht)

/-- Up to the first comment, what is read again is written as it is. -/
theorem Settled.next {s t : JsScan} (h : s.Settled t) (b : UInt8) (hb : ¬ (jsScan.next s b).Commented) :
    jsScan.Copies Settled s t b := by
  cases h with
  | str hst hp =>
    rw [List.mem_pair] at hst
    rcases hst with rfl | rfl
    · by_cases hback : b = backslash
      · subst hback
        exact Mealy.copies_none jsScan_backslash (.str (by simp) hp)
      · refine Mealy.copies_same (jsScan_str hback) (jsScan_str hback) ?_
        split
        · exact .text hp
        · exact .str (by simp) hp
    · exact Mealy.copies_pair jsScan_esc jsScan_backslash jsScan_esc (.str (by simp) hp)
  | @text q q' p p' l l' w hp =>
    cases textByte b with
    | blank h =>
      by_cases hd : (JsScan.mk .plain q p l w).DropsBlank
      · exact Mealy.copies_none (jsScan_blank_drop h hd) (.text hp)
      · -- `pre_char` is no line break here
        obtain rfl := hp.resolve_left fun h => hd (.inl h)
        exact Mealy.copies_same (jsScan_blank h hd) (jsScan_blank h hd) (.text (.inr rfl))
    | lf h =>
      subst h
      cases hr : jsBreakRedundant p with
      | true => exact Mealy.copies_none (jsScan_break_drop hr) (.text (.inl rfl))
      | false =>
        obtain rfl : p' = p := by
          refine hp.resolve_left ?_
          rintro rfl
          cases hr
        exact Mealy.copies_same (jsScan_break hr) (jsScan_break hr) (.text (.inl rfl))
    | cr h =>
      subst h
      exact Mealy.copies_none jsScan_return (.text hp)
    | slash h =>
      subst h
      exact Mealy.copies_none jsScan_slash .opened
    | quote h => exact Mealy.copies_same (jsScan_quote h) (jsScan_quote h) (.str (by simp) hp)
    | other h hb hq =>
      exact Mealy.copies_same (jsScan_byte hb hq fun hd => h hd.1) (jsScan_byte hb hq fun hd => h hd.1)
        (.text (.inr rfl))
  | opened =>
    by_cases hstar : b = star
    · subst hstar
      rw [jsScan_opens.2] at hb
      exact absurd (by decide : JsMode.comment ∈ [JsMode.line, .comment, .star]) hb
    by_cases hslash : b = slash
    · subst hslash
      rw [jsScan_opens_line.2] at hb
      exact absurd (by decide : JsMode.line ∈ [JsMode.line, .comment, .star]) hb
    exact Mealy.copies_pair (jsScan_pair hstar hslash) jsScan_slash (jsScan_pair hstar hslash)
      (.text (.inr rfl))

theorem out_third (page : List UInt8) :
    jsScan.out .start (jsScan.out .start (jsScan.out .start page)) = jsScan.out .start (jsScan.out .start page) ∧
      solid (jsScan.out .start (jsScan.out .start page)) = solid (jsScan.out .start page) := by
  have hreread : start.Reread start := .text (by decide) rfl
  have hsettled : start.Settled start := .text (.inr rfl)
  rw [solid_eq_filter, solid_eq_filter]
  exact Mealy.out_out_out (fun b h => h.next b) (fun b h hb => h.next b hb) hreread hsettled page

end JsScan

/-- A style sheet or a script that is minified a second time loses white space only, and nothing the
third time. -/
theorem third_pass {type : FileType} (htype : type = .css ∨ type = .js) {cap₁ cap₂ cap₃ : Option ℕ}
    {page : List UInt8} {s₁ s₂ s₃ : Session} (h₁ : feedAll Flat cap₁ type .start [page] = .ok s₁)
    (h₂ : feedAll Flat cap₂ type .start [s₁.out] = .ok s₂) (h₃ : feedAll Flat cap₃ type .start [s₂.out] = .ok s₃) :
    s₃.out = s₂.out ∧ solid s₂.out = solid s₁.out := by
  rcases htype with rfl | rfl
  · rw [(css_session h₃).1, (css_session h₂).1, (css_session h₁).1]
    exact CssScan.out_third page
  · rw [js_session h₃, js_session h₂, js_session h₁]
    exact JsScan.out_third page

/-- The line comment in the script `a // c`, LF, ` b`. -/
theorem third_pass_comment : ∃ s₁ s₂ s₃,
    feedAll Flat none .js .start [lit "a // c" ++ lf :: lit " b"] = .ok s₁ ∧
    feedAll Flat none .js .start [s₁.out] = .ok s₂ ∧ feedAll Flat none .js .start [s₂.out] = .ok s₃ ∧
    s₁.out ≠ s₂.out ∧ s₃.out = s₂.out ∧ solid s₂.out = solid s₁.out := by
  obtain ⟨s₁, h₁, hout₁⟩ : ∃ s, feedAll Flat none .js .start [lit "a // c" ++ lf :: lit " b"] = .ok s ∧
      s.out = lit "a  b" := exists_run (by decide)
  obtain ⟨s₂, h₂, hout₂⟩ : ∃ s, feedAll Flat none .js .start [lit "a  b"] = .ok s ∧ s.out = lit "a b" :=
    exists_run (by decide)
  obtain ⟨s₃, h₃, -⟩ : ∃ s, feedAll Flat none .js .start [lit "a b"] = .ok s ∧ s.out = lit "a b" :=
    exists_run (by decide)
  rw [← hout₁] at h₂
  rw [← hout₂] at h₃
  refine ⟨s₁, s₂, s₃, h₁, h₂, h₃, ?_, third_pass (.inr rfl) h₁ h₂ h₃⟩
  rw [hout₁, hout₂]
  decide

end NginB.Minify
