import NginB.Minify.Reader
import NginB.Minify.Pages
import NginB.Minify.Markup

/-! # Pages that are cut into buffers

Where the bytes at the end of a buffer are held back, the minifier reads a page as a reader
does that has the whole page in front of it. `CutFree` names the iterations in which it does
not.
-/
namespace NginB.Minify
open NginB.Program Relation Ascii

def Special (st : MinifyState) (y : List UInt8) : Prop :=
  closer st <+: y ∨ waits (closer st) y = true ∨
    st = .htmlCommentIe ∧ y.head? = some rbracket ∧ y.length < 4

/-- An iteration that does as it does wherever the page is cut: `u` is unread in the buffer,
`rest` in the page, and `out` has been written. -/
structure CutFree (r : Routine) (x : Ctx) (u : List UInt8) (d : ℕ) (rest out : List UInt8) : Prop where
  /-- `pre_char` knows of a space in front of the attribute -/
  att : r = .htmlStripTagname → x.state.top = .htmlTagatt → u.head? = some space →
    endsBlank out = true → x.preChar = space
  /-- `pre_char` is not older than the last byte -/
  text : r = .htmlStripBuffer → x.state.top = .text → x.nochangePre = false →
    u.head? = some space → x.preChar = space → endsBlank out = true
  comment : r = .htmlStripBuffer → x.state.top = .text → lit "<!--" <+: rest → 2 < u.length →
    d = 0 → x.preChar = space → endsBlank out = true
  /-- nine bytes are left of the page when they are left of the buffer -/
  markup : x.state.top = .htmlTagBang → lit "<![" <+: u → u.length < 9 →
    cacheable (lit "<![CDATA[") u = false → rest.length < 9
  /-- a step over several bytes runs over nothing -/
  inside : (closer x.state.top).head? = u.head? → (closer x.state.top).length ≤ u.length →
    ¬ closer x.state.top <+: u → ∀ i < (closer x.state.top).length, 0 < i →
      ¬ Special x.state.top (rest.drop i)
  bracket : x.state.top = .htmlCommentIe → u.head? = some rbracket → u.length < 4 →
    cacheable (lit "]-->") u = false → rest.length < 4

instance (st : MinifyState) (y : List UInt8) : Decidable (Special st y) :=
  inferInstanceAs (Decidable (_ ∨ _ ∨ _))

set_option synthInstance.maxSize 1000 in
instance (r : Routine) (x : Ctx) (u : List UInt8) (d : ℕ) (rest out : List UInt8) :
    Decidable (CutFree r x u d rest out) :=
  decidable_of_iff (_ ∧ _ ∧ _ ∧ _ ∧ _ ∧ _)
    ⟨fun ⟨ha, ht, hc, hm, hi, hb⟩ => ⟨ha, ht, hc, hm, hi, hb⟩,
      fun h => ⟨h.att, h.text, h.comment, h.markup, h.inside, h.bracket⟩⟩

@[simp] def Ctx.reader (x : Ctx) (blank : Bool) (out : List UInt8) : Reader :=
  ⟨x.state.top, blank, x.tagcache, x.tagendcache, out⟩

/-- The second space, after an iteration. -/
@[simp] def blankNext (x : Ctx) (nxt : Next) (blank : Bool) (out : List UInt8) : Bool :=
  if nxt = .again ∧ inComment x.state.top = false then endsBlank out else blank

/-- What `pre_char` tells of the reader's `blank` in each state. -/
structure Coupled (r : Routine) (x : Ctx) (d : ℕ) (rest out : List UInt8) (blank : Bool) : Prop where
  live : x.state.top ∈ [MinifyState.htmlTag, .htmlTagBang, .htmlTagname, .htmlTagatt, .htmlTagnameEnd,
    .htmlCdata] → x.nochangePre = false
  frozen : inComment x.state.top = true → x.nochangePre = true ∧ (x.preChar = space ↔ blank = true)
  att : r = .htmlStripTagname → x.state.top = .htmlTagatt → x.preChar = space →
    endsBlank out = true
  bang : x.state.top = .htmlTagBang → (blank = true ↔ endsBlank out = true) ∧
    (lit "<!--" <+: rest → (x.preChar = space ↔ endsBlank out = true))
  last : x.state.top ∈ [MinifyState.htmlComment, .htmlCommentSkip] → endsBlank out = true →
    x.preChar = space
  closing : x.state.top = .text → r ≠ .htmlStripBuffer →
    x.nochangePre = true ∧ (x.preChar = space ↔ blank = true) ∧
        (endsBlank out = true → x.preChar = space) ∨
      x.nochangePre = false ∧ d ≠ 0 ∧ (blank = true ↔ endsBlank out = true)
  text : x.state.top = .text → r = .htmlStripBuffer → rest.head? ≠ some lt →
    (x.preChar = space ↔ blank = true) ∨
      x.preChar = space ∧ d = 0 ∧ x.nochangePre = false ∧ endsBlank out = false
  textLast : x.state.top = .text → r = .htmlStripBuffer → ¬ lit "</" <+: rest →
    endsBlank out = true → x.preChar = space

section Pass
variable {x : Ctx} {b : UInt8} {t : List UInt8} (blank : Bool) (out : List UInt8)

theorem pass_commentSkip (hs : x.state.top = .htmlCommentSkip)
    (h : ¬ Special .htmlCommentSkip (b :: t)) :
    Moves Reader.step (x.reader blank out, b :: t) (x.reader blank out, t) := by
  simp only [Special, closer, not_or] at h
  simp only [Moves, Reader.step, Reader.move, Reader.commentSkip, Ctx.reader, hs, if_neg h.1, h.2.1]
  simp

theorem pass_commentIe (hs : x.state.top = .htmlCommentIe)
    (h : ¬ Special .htmlCommentIe (b :: t)) :
    Moves Reader.step (x.reader blank out, b :: t) (x.reader blank (b :: out), t) := by
  simp only [Special, closer, not_or, not_and] at h
  have hdrop : ¬ (b = rbracket ∧ t.length < 3) := by
    rintro ⟨rfl, hlt⟩
    exact h.2.2 trivial rfl (Nat.succ_lt_succ hlt)
  simp only [Moves, Reader.step, Reader.move, Reader.commentIe, Ctx.reader, hs, if_neg h.1, h.2.1, if_neg hdrop]
  simp

theorem pass_cdata (hs : x.state.top = .htmlCdata) (h : ¬ Special .htmlCdata (b :: t)) :
    Moves Reader.step (x.reader blank out, b :: t) (x.reader (decide (b = space)) (b :: out), t) := by
  simp only [Special, closer, not_or] at h
  simp only [Moves, Reader.step, Reader.move, Reader.cdata, Ctx.reader, hs, if_neg h.1, h.2.1]
  simp

/-- Nothing special comes where the bytes of the buffer show it. -/
theorem special_of_miss {st : MinifyState} {u fut : List UInt8} (hst : st ≠ .htmlCommentIe)
    (hu : u.length ≤ (closer st).length) (h : cacheable (closer st) u = false) :
    ¬ Special st (u ++ fut) := by
  obtain ⟨hpre, hwait⟩ := not_comes fut h
  rintro (hsp | hsp | ⟨hie, -⟩)
  · exact hpre ⟨hu, hsp⟩
  · rw [hwait] at hsp
    cases hsp
  · exact hst hie

/-- Only the byte that begins it can begin what a state waits for. -/
theorem special_of_ne {st : MinifyState} {c : UInt8} {tok : List UInt8} (hst : closer st = c :: tok)
    (hie : st = .htmlCommentIe → c = rbracket) (hc : c < 65 ∨ 90 < c ∧ c < 97) (hne : b ≠ c) :
    ¬ Special st (b :: t) := by
  rintro (hsp | hsp | ⟨rfl, hhead, -⟩)
  · rw [hst] at hsp
    exact hne (List.cons_prefix_cons.mp hsp).1.symm
  · rw [hst, waits, cacheable, Bool.and_eq_true, Bool.and_eq_true] at hsp
    exact hne (toLower_eq hc (of_decide_eq_true hsp.2.1))
  · exact hne ((Option.some.inj hhead).trans (hie rfl).symm)

/-- Nothing special comes in a step over several bytes. -/
theorem CutFree.passes {r : Routine} {x : Ctx} {u fut out : List UInt8} {d : ℕ}
    (h : CutFree r x u d (u ++ fut) out) (hhead : (closer x.state.top).head? = u.head?)
    (hlen : (closer x.state.top).length ≤ u.length) (hn : ¬ closer x.state.top <+: u)
    (hie : x.state.top = .htmlCommentIe → 4 ≤ u.length) :
    ∀ i < (closer x.state.top).length, ¬ Special x.state.top ((u ++ fut).drop i) := by
  intro i hi
  rcases Nat.eq_zero_or_pos i with rfl | hpos
  · rw [List.drop_zero]
    rintro (hsp | hsp | ⟨hst, -, hlt⟩)
    · exact hn (List.prefix_of_prefix_length_le hsp (List.prefix_append u fut) hlen)
    · rw [waits, Bool.and_eq_true, decide_eq_true_eq, List.length_append] at hsp
      omega
    · have h4 := hie hst
      rw [List.length_append] at hlt
      omega
  · exact h.inside hhead hlen hn i hi hpos

end Pass

section Rules
variable {x y : Ctx} {r : Routine} {u fut : List UInt8} {es : List Ev} {nxt : Next} {d : ℕ}
  {out : List UInt8} {blank : Bool}

theorem HtmlRule.reads (h : HtmlRule x r u es y nxt) (hcut : CutFree r x u d (u ++ fut) out)
    (hx : Coupled r x d (u ++ fut) out blank) (hy : y.cache = []) :
    ReflTransGen (Moves Reader.step) (x.reader blank out, u ++ fut)
      (y.reader (blankNext x nxt blank (emitted (Ev.items x es u).reverse ++ out))
        (emitted (Ev.items x es u).reverse ++ out), u.drop (Ev.takes es) ++ fut) := by
  cases h
  case nameGt hs =>
    refine .single ?_
    unfold Ctx.nameGt
    split_ifs with hskip <;> simp [Reader.move, Reader.tagname, hs, hskip]
  case nameBlank hs hb =>
    refine .single ?_
    unfold Ctx.nameBlank
    rcases hb with rfl | rfl <;> split_ifs with hskip <;>
      simp [Reader.move, Reader.tagname, hs, hskip]
  case nameByte hs hb =>
    refine .single ?_
    simp [Reader.move, Reader.tagname, hs, hb]
  case attGt hs =>
    refine .single ?_
    unfold Ctx.attGt
    simp [Reader.move, Reader.tagatt, hs]
  case attClose hs =>
    refine .single ?_
    simp [Reader.move, Reader.tagatt, hs]
  case attSlash hs hb =>
    refine .single ?_
    simp [Reader.move, Reader.tagatt, hs, hb]
  case attSpace hs hp =>
    have hlast := hx.att rfl hs hp
    refine .single ?_
    simp [Reader.move, Reader.tagatt, hs, hlast]
  case attByte b t hs hb hp =>
    refine .single ?_
    by_cases hsp : b = space
    · subst hsp
      have hlast : endsBlank out = false :=
        Bool.eq_false_iff.mpr fun hl => hp ⟨rfl, hcut.att rfl hs rfl hl⟩
      simp [Reader.move, Reader.tagatt, hs, hlast]
    · simp at hsp
      simp [Reader.move, Reader.tagatt, hs, hsp, hb]
  case endSpace hs =>
    refine .single ?_
    simp [Reader.move, Reader.tagnameEnd, hs]
  case endGt hs =>
    refine .single ?_
    unfold Ctx.endGt
    split_ifs with hlen heq
    · simp [Reader.move, Reader.tagnameEnd, hs, hlen, heq]
    · simp [Reader.move, Reader.tagnameEnd, hs, hlen, heq]
    · simp [Reader.move, Reader.tagnameEnd, hs, hlen]
  case endName hs hb hl =>
    refine .single ?_
    simp [Reader.move, Reader.tagnameEnd, hs, hb, hl]
  case endByte hs hb hl =>
    refine .single ?_
    simp [Reader.move, Reader.tagnameEnd, hs, hb, hl]
  case nameSkip | nameLeave | commentLeave | tagSkip | tagLeave | callTag | callComment | callTagname =>
    simpa using .refl
  case tagSpace hs | tagSlash hs =>
    refine .single ?_
    simp [Reader.move, Reader.tag, hs]
  case tagName hs hb =>
    refine .single ?_
    simp [Reader.move, Reader.tag, hs, hb]
  case bangTag hs hb =>
    refine .single ?_
    simp [Reader.move, Reader.tagBang, hs, hb]
  case bangComment hs =>
    refine .single ?_
    simp [Reader.move, Reader.tagBang, hs]
  case bangDash hs hb =>
    refine .single ?_
    simp [Reader.move, Reader.tagBang, hs, hb]
  case bangCdata hs =>
    refine .single ?_
    simp [Reader.move, Reader.tagBang, hs, List.replicate]
  case abortByte hs =>
    refine .single ?_
    simp [Reader.move, hs]
  case textBreak hs hb =>
    refine .single ?_
    rcases hb with rfl | rfl | rfl <;> simp [Reader.move, Reader.text, hs]
  case textTag hs hb =>
    refine .single ?_
    simp [Reader.move, Reader.text, hs, hb]
  case textBang hs =>
    refine .single ?_
    simp [Reader.move, Reader.text, hs]
  case elementEnd hs =>
    refine .single ?_
    simp [Reader.move, Reader.element, hs]
  case elementPair hs hb | elementByte hs hb =>
    refine .single ?_
    simp [Reader.move, Reader.element, hs, hb]
  case textSpace hs hp =>
    have hblank : blank = true := by
      rcases hx.text hs rfl (by simp) with hiff | ⟨-, -, hno, hlast⟩
      · exact hiff.mp hp
      · exact absurd (hcut.text rfl hs hno rfl hp) (Bool.eq_false_iff.mp hlast)
    refine .single ?_
    simp [Reader.move, Reader.text, hs, hblank]
  case textByte b t hs hb hp =>
    refine .single ?_
    by_cases hsp : b = space
    · subst hsp
      have hblank : blank = false := by
        rcases hx.text hs rfl (by simp) with hiff | ⟨hpre, -⟩
        · exact Bool.eq_false_iff.mpr fun hb => hp ⟨rfl, hiff.mpr hb⟩
        · exact absurd ⟨rfl, hpre⟩ hp
      simp [Reader.move, Reader.text, hs, hblank]
    · simp at hsp
      simp [Reader.move, Reader.text, hs, hb, hsp]
  case commentIf hs =>
    refine .single ?_
    simp [Reader.move, Reader.comment, hs]
  case commentPlain b t hs hb =>
    have hne : ¬ (toLower 91 = toLower b) := fun h => hb (toLower_eq (by decide) h)
    have hne' : ¬ (91 = b) := fun h => hne (by rw [h])
    refine .single ?_
    simp [Reader.move, Reader.comment, hs, hne, hne', waits, cacheable]
  case commentOther a b t hs hn =>
    have hne : ¬ (105 = a ∧ 102 = b) := by simpa [eq_comm] using hn
    have hwait : waits (lit "<!--[if") (lit "<!--[" ++ a :: b :: (t ++ fut)) = false :=
      waits_of_le (by simp)
    refine .single ?_
    simp at hwait
    simp [Reader.move, Reader.comment, hs, hne, hwait]
  case commentMiss t hs ht hc =>
    obtain ⟨hpre, hwait⟩ := not_comes fut hc
    have hpre' : ¬ lit "<!--[if" <+: lit "<!--[" ++ t ++ fut := fun h => hpre ⟨by simp; omega, h⟩
    refine .single ?_
    simp at hpre' hwait
    simp [Reader.move, Reader.comment, hs, hpre', hwait]
  case skipByte hs hb =>
    refine .single ?_
    simpa [hs] using pass_commentSkip blank out hs (special_of_ne rfl (by simp) (by decide) hb)
  case skipMiss t hs ht hc =>
    have hmiss : ¬ Special .htmlCommentSkip (dash :: t ++ fut) :=
      special_of_miss (by simp) (by simp [closer]; omega) hc
    refine .single ?_
    simpa [hs] using pass_commentSkip blank out hs hmiss
  case skipClose hs =>
    refine .single ?_
    simp [Reader.move, Reader.commentSkip, hs]
  case ieClose hs =>
    refine .single ?_
    simp [Reader.move, Reader.commentIe, hs]
  case ieByte hs hb =>
    refine .single ?_
    simpa [hs] using pass_commentIe blank out hs (special_of_ne rfl (fun _ => rfl) (by decide) hb)
  case ieMiss t hs ht hc =>
    obtain ⟨hpre, hwait⟩ := not_comes fut hc
    have hpre' : ¬ lit "]-->" <+: rbracket :: t ++ fut := fun h => hpre ⟨by simp; omega, h⟩
    have hlen := hcut.bracket hs rfl (Nat.succ_lt_succ ht) hc
    refine .single ?_
    rw [List.length_append, List.length_cons] at hlen
    have hlt : t.length + fut.length < 3 := by omega
    simp at hpre' hwait
    simp [Reader.move, Reader.commentIe, hs, hpre', hwait, hlt]
  case cdataByte hs hb =>
    refine .single ?_
    simpa [hs] using pass_cdata blank out hs (special_of_ne rfl (by simp) (by decide) hb)
  case cdataMiss t hs ht hc =>
    have hmiss : ¬ Special .htmlCdata (rbracket :: t ++ fut) :=
      special_of_miss (by simp) (by simp [closer]; omega) hc
    refine .single ?_
    simpa [hs] using pass_cdata blank out hs hmiss
  case cdataClose hs =>
    refine .single ?_
    simp [Reader.move, Reader.cdata, hs]
  case skipThree a b t hs hn =>
    have hpass := hcut.passes (by simp [hs, closer]) (by simp [hs, closer])
      (by simpa [hs, closer, eq_comm] using hn) (by simp [hs])
    simp only [hs] at hpass
    have h0 := pass_commentSkip blank out hs (hpass 0 (by decide))
    have h1 := pass_commentSkip blank out hs (hpass 1 (by decide))
    have h2 := pass_commentSkip blank out hs (hpass 2 (by decide))
    exact .head h0 (.head h1 (.single (by simpa [hs] using h2)))
  case ieFour a b c t hs hn =>
    have hpass := hcut.passes (by simp [hs, closer]) (by simp [hs, closer])
      (by simpa [hs, closer, eq_comm] using hn) (by simp)
    simp only [hs] at hpass
    have h0 := pass_commentIe blank out hs (hpass 0 (by decide))
    have h1 := pass_commentIe blank (rbracket :: out) hs (hpass 1 (by decide))
    have h2 := pass_commentIe blank (a :: rbracket :: out) hs (hpass 2 (by decide))
    have h3 := pass_commentIe blank (b :: a :: rbracket :: out) hs
      (hpass 3 (by decide))
    exact .head h0 (.head h1 (.head h2 (.single (by simpa [hs] using h3))))
  case cdataThree a b t hs hn =>
    have hpass := hcut.passes (by simp [hs, closer]) (by simp [hs, closer])
      (by simpa [hs, closer, eq_comm] using hn) (by simp [hs])
    simp only [hs] at hpass
    have h0 := pass_cdata blank out hs (hpass 0 (by decide))
    have h1 := pass_cdata false (rbracket :: out) hs (hpass 1 (by decide))
    have h2 := pass_cdata (decide (a = space)) (a :: rbracket :: out) hs
      (hpass 2 (by decide))
    exact .head h0 (.head h1 (.single (by simpa [hs] using h2)))
  case bangNine t hs ht hn =>
    have hlen : 9 ≤ (lit "<!" ++ lbracket :: t ++ fut).length := by simp; omega
    have hpre : ¬ lit "<![CDATA[" <+: lit "<!" ++ lbracket :: t ++ fut := by
      intro h
      refine hn (List.prefix_iff_eq_take.mp (List.prefix_of_prefix_length_le h (List.prefix_append _ _) ?_)).symm
      simp
      omega
    have hwait : waits (lit "<![CDATA[") (lit "<!" ++ lbracket :: t ++ fut) = false := by
      rw [waits, Bool.and_eq_false_iff]
      exact .inl (decide_eq_false (by simp at hlen ⊢; omega))
    refine .single ?_
    rcases t with _ | ⟨b₁, _ | ⟨b₂, _ | ⟨b₃, _ | ⟨b₄, _ | ⟨b₅, _ | ⟨b₆, t⟩⟩⟩⟩⟩⟩
    case cons.cons.cons.cons.cons.cons =>
      simp at hpre hwait
      have hne : ¬ (67 = b₁ ∧ 68 = b₂ ∧ 65 = b₃ ∧ 84 = b₄ ∧ 65 = b₅ ∧ 91 = b₆) := by
        simpa only [not_and] using hpre
      simp [Reader.move, Reader.tagBang, hs, hne, hwait, List.replicate]
    all_goals simp at ht
  case bangAbort t hs ht hc =>
    obtain ⟨hpre, hwait⟩ := not_comes fut hc
    have hpre' : ¬ lit "<![CDATA[" <+: lit "<!" ++ lbracket :: t ++ fut :=
      fun h => hpre ⟨by simp; omega, h⟩
    have hlen := hcut.markup hs (by simp) (by simp; omega) hc
    refine .single ?_
    simp at hpre' hwait hlen
    have hlt : ¬ 6 ≤ t.length + fut.length := by omega
    simp [Reader.move, Reader.tagBang, hs, hpre', hwait, hlt]
  all_goals simp at hy

end Rules

section Ended
variable {nxt : Next} {r : Routine} {d : ℕ} {out : List UInt8} {y : Ctx}

theorem ended_frozen (h : y.nochangePre = true) : (nxt.ended r d out y).preChar = y.preChar := by
  unfold Next.ended Ctx.refreshed
  split
  · rfl
  · simp [h]

theorem ended_zero : (nxt.ended r 0 out y).preChar = y.preChar := by
  unfold Next.ended Ctx.refreshed
  split
  · rfl
  · simp

theorem ended_blank (hr : r.refreshes = true) (hn : ∀ r', nxt ≠ .call r') (h : y.nochangePre = false)
    (h0 : d ≠ 0) (hd : d ≤ out.length) :
    (nxt.ended r d out y).preChar = space ↔ endsBlank out = true := by
  have hnext : nxt.ended r d out y = y.refreshed d out := by
    unfold Next.ended
    split
    · next r' => exact absurd rfl (hn r')
    · rw [if_pos hr]
  rw [hnext]
  obtain ⟨hzero, -⟩ | hhead := Ctx.refreshed_preChar h hd
  · exact absurd hzero h0
  · rcases out with _ | ⟨b, out⟩
    · cases hhead
    · rw [← Option.some.inj hhead]
      simp

end Ended

section Coupling
variable {x y : Ctx} {r : Routine} {u fut : List UInt8} {es : List Ev} {nxt : Next} {d d' : ℕ}
  {out out' : List UInt8} {blank : Bool}

theorem HtmlRule.live (h : HtmlRule x r u es y nxt) (hx : Coupled r x d (u ++ fut) out blank)
    (hy : y.state.top ∈ [MinifyState.htmlTag, .htmlTagBang, .htmlTagname, .htmlTagatt,
      .htmlTagnameEnd, .htmlCdata]) : y.nochangePre = false := by
  have hlive := hx.live
  cases h
  case textTag | textBang => rfl
  all_goals simp_all

theorem HtmlRule.frozen_pre (h : HtmlRule x r u es y nxt) (hx : Coupled r x d (u ++ fut) out blank)
    (hy : inComment y.state.top = true) :
    y.nochangePre = true ∧ (y.preChar = space ↔ blankNext x nxt blank ((emitted (Ev.items x es u)).reverse ++ out) = true) := by
  have hfrozen := hx.frozen
  cases h
  case bangComment hs =>
    obtain ⟨hblank, hpre⟩ := hx.bang hs
    refine ⟨rfl, ?_⟩
    simpa [hs] using hpre (by simp)
  case nameGt => rcases x.nameGt_top with ht | ht <;> simp [ht] at hy
  case attGt => rcases x.attGt_top with ht | ht <;> simp [ht] at hy
  case endGt => rcases x.endGt_top with ht | ht <;> simp [ht] at hy
  case callTagname hs =>
    simp only [List.mem_cons, List.not_mem_nil, or_false] at hs
    rcases hs with hs | hs | hs <;> simp [hs] at hy
  all_goals simp_all

theorem HtmlRule.last_pre (h : HtmlRule x r u es y nxt) (hx : Coupled r x d (u ++ fut) out blank)
    (hy : y.cache = []) (hst : y.state.top ∈ [MinifyState.htmlComment, .htmlCommentSkip])
    (hlast : endsBlank ((emitted (Ev.items x es u)).reverse ++ out) = true) : y.preChar = space := by
  have hx' := hx.last
  cases h
  case bangComment hs =>
    obtain ⟨-, hpre⟩ := hx.bang hs
    exact (hpre (by simp)).mpr (by simpa using hlast)
  case nameGt => rcases x.nameGt_top with ht | ht <;> simp [ht] at hst
  case attGt => rcases x.attGt_top with ht | ht <;> simp [ht] at hst
  case endGt => rcases x.endGt_top with ht | ht <;> simp [ht] at hst
  case callTagname hs =>
    simp only [List.mem_cons, List.not_mem_nil, or_false] at hs
    rcases hs with hs | hs | hs <;> simp [hs] at hst
  all_goals simp_all

theorem HtmlRule.att_next (h : HtmlRule x r u es y nxt) (hx : Coupled r x d (u ++ fut) out blank)
    (hy : y.cache = []) (hno : y.nochangePre = false) (hd : d ≤ out.length)
    (hout : out' = (emitted (Ev.items x es u)).reverse ++ out)
    (hd' : d' = d + (emitted (Ev.items x es u)).length) (hr : htmlTarget r nxt = .htmlStripTagname)
    (hst : y.state.top = .htmlTagatt)
    (hp : (nxt.ended .htmlStripTagname d' out' y).preChar = space) : endsBlank out' = true := by
  have hle : d' ≤ out'.length := by
    rw [hout, hd', List.length_append, List.length_reverse]
    omega
  cases nxt with
  | call r' => exact absurd hp (h.call_preChar hr)
  | leave => exact absurd hr h.leave_ne
  | again =>
  by_cases h0 : d' = 0
  · rw [h0, ended_zero] at hp
    have hnil : emitted (Ev.items x es u) = [] := List.eq_nil_of_length_eq_zero (by omega)
    rw [hout, hnil]
    have hr' : r = .htmlStripTagname := hr
    subst hr'
    cases h
    case attSpace hs _ => exact hx.att rfl hs hp
    case endGt => rcases x.endGt_top with ht | ht <;> simp [ht] at hst
    all_goals simp_all
  · exact (ended_blank rfl (by simp) hno h0 hle).mp hp

theorem HtmlRule.bang_next (h : HtmlRule x r u es y nxt) (hcut : CutFree r x u d (u ++ fut) out)
    (hx : Coupled r x d (u ++ fut) out blank) (hy : y.cache = []) (hd : d ≤ out.length)
    (hst : y.state.top = .htmlTagBang) :
    emitted (Ev.items x es u) = [] ∧ Ev.takes es = 0 ∧
      (blankNext x nxt blank out = true ↔ endsBlank out = true) ∧ (lit "<!--" <+: u ++ fut →
        ((nxt.ended (htmlTarget r nxt) d out y).preChar = space ↔ endsBlank out = true)) := by
  cases h
  case textBang b t hs =>
    refine ⟨rfl, rfl, by simp [hs], fun hpre => ?_⟩
    by_cases h0 : d = 0
    · subst h0
      rw [ended_zero]
      refine ⟨fun hp => ?_, fun hl => hx.textLast hs rfl (by simp) hl⟩
      exact hcut.comment rfl hs hpre (by simp) rfl hp
    · exact ended_blank rfl (by simp) rfl h0 hd
  case callTag hs => exact ⟨rfl, rfl, hx.bang hst⟩
  case nameGt => rcases x.nameGt_top with ht | ht <;> simp [ht] at hst
  case attGt => rcases x.attGt_top with ht | ht <;> simp [ht] at hst
  case endGt => rcases x.endGt_top with ht | ht <;> simp [ht] at hst
  all_goals simp_all

/-- Back in the text, while the loops of the element are still to be left. -/
theorem HtmlRule.closing_next (h : HtmlRule x r u es y nxt)
    (hx : Coupled r x d (u ++ fut) out blank) (hy : y.cache = [])
    (hout : out' = (emitted (Ev.items x es u)).reverse ++ out)
    (hd' : d' = d + (emitted (Ev.items x es u)).length) (hst : y.state.top = .text)
    (hr : htmlTarget r nxt ≠ .htmlStripBuffer) :
    y.nochangePre = true ∧ (y.preChar = space ↔ blankNext x nxt blank out' = true) ∧
        (endsBlank out' = true → y.preChar = space) ∨
      y.nochangePre = false ∧ d' ≠ 0 ∧ (blankNext x nxt blank out' = true ↔ endsBlank out' = true) := by
  have hlive := hx.live
  have hfrozen := hx.frozen
  have hlast := hx.last
  subst hout hd'
  cases h
  case nameLeave hs => exact hx.closing hs (by simp)
  case commentLeave hs => exact hx.closing hs (by simp)
  case nameGt hs =>
    obtain ⟨st, t, -, he⟩ := x.nameGt_eq
    rw [he]
    simp [hs, hlive]
  case attGt hs =>
    obtain ⟨st, -, he⟩ := x.attGt_eq
    rw [he]
    simp [hs, hlive]
  case endGt hs =>
    obtain ⟨st, t, v, -, he⟩ := x.endGt_eq
    rw [he]
    split <;> simp [hs, hlive]
  case ieClose hs =>
    obtain ⟨hno, hpre⟩ := hfrozen (by simp [hs])
    exact .inl ⟨hno, by simpa [hs] using hpre, by simp⟩
  case skipClose hs =>
    obtain ⟨hno, hpre⟩ := hfrozen (by simp [hs])
    exact .inl ⟨hno, by simpa [hs] using hpre, by simpa [hs] using hlast (by simp [hs])⟩
  all_goals simp_all [htmlTarget, htmlCallers, List.replicate]

/-- What `pre_char` tells in the text once no other loop waits. -/
def TextPre (x : Ctx) (d : ℕ) (rest out : List UInt8) (blank : Bool) : Prop :=
  (rest.head? ≠ some lt → (x.preChar = space ↔ blank = true) ∨
    x.preChar = space ∧ d = 0 ∧ x.nochangePre = false ∧ endsBlank out = false) ∧
  (¬ lit "</" <+: rest → endsBlank out = true → x.preChar = space)

theorem TextPre.ended {rest : List UInt8} (hn : ∀ r', nxt ≠ .call r') (hd : d ≤ out.length)
    (hno : y.nochangePre = false) (h0 : d = 0 → endsBlank out = true → y.preChar = space) :
    TextPre (nxt.ended .htmlStripBuffer d out y) d rest out (endsBlank out) := by
  by_cases hz : d = 0
  · subst hz
    refine ⟨fun _ => ?_, fun _ hl => by rw [ended_zero]; exact h0 rfl hl⟩
    rw [ended_zero, Next.ended_nochangePre]
    rcases hl : endsBlank out with _ | _
    · by_cases hp : y.preChar = space
      · exact .inr ⟨hp, rfl, hno, rfl⟩
      · exact .inl (by simp [hp])
    · exact .inl (by simp [h0 rfl hl])
  · have hiff : (nxt.ended .htmlStripBuffer d out y).preChar = space ↔ endsBlank out = true :=
      ended_blank rfl hn hno hz hd
    exact ⟨fun _ => .inl hiff, fun _ hl => hiff.mpr hl⟩

theorem Coupled.left {rest : List UInt8} (nxt : Next) (hx : Coupled r x d rest out blank)
    (hn : ∀ r', nxt ≠ .call r') (hd : d ≤ out.length) (hst : x.state.top = .text)
    (hr : r ≠ .htmlStripBuffer) :
    TextPre (nxt.ended .htmlStripBuffer d out x) d rest out blank := by
  rcases hx.closing hst hr with ⟨hno, hpre, hlast⟩ | ⟨hno, h0, hblank⟩
  · have he : (nxt.ended .htmlStripBuffer d out x).preChar = x.preChar := ended_frozen hno
    refine ⟨fun _ => .inl ?_, fun _ hl => ?_⟩
    · rw [he]
      exact hpre
    · rw [he]
      exact hlast hl
  · have hiff : (nxt.ended .htmlStripBuffer d out x).preChar = space ↔ endsBlank out = true :=
      ended_blank rfl hn hno h0 hd
    exact ⟨fun _ => .inl (hiff.trans hblank.symm), fun _ hl => hiff.mpr hl⟩

theorem HtmlRule.text_next (h : HtmlRule x r u es y nxt) (hx : Coupled r x d (u ++ fut) out blank)
    (hy : y.cache = []) (hd : d ≤ out.length)
    (hout : out' = (emitted (Ev.items x es u)).reverse ++ out)
    (hd' : d' = d + (emitted (Ev.items x es u)).length) (hst : y.state.top = .text)
    (hr : htmlTarget r nxt = .htmlStripBuffer) :
    TextPre (nxt.ended .htmlStripBuffer d' out' y) d' (u.drop (Ev.takes es) ++ fut) out'
      (blankNext x nxt blank out') := by
  have hle : d' ≤ out'.length := by
    rw [hout, hd', List.length_append, List.length_reverse]
    omega
  cases h
  case tagLeave hs =>
    subst hout hd'
    exact hx.left .leave (by simp) hd hst (by simp)
  case elementEnd hs => exact ⟨fun hne => by simp at hne, fun hne => by simp at hne⟩
  case textBreak hs hb =>
    have hblank : blankNext x .again blank out' = endsBlank out' := by simp [hs]
    have hlast := hx.textLast hs rfl (by rcases hb with rfl | rfl | rfl <;> simp)
    rw [hblank]
    exact TextPre.ended (by simp) hle rfl fun _ hl => hlast (by simpa [hout] using hl)
  case textSpace hs hp =>
    have hblank : blankNext x .again blank out' = endsBlank out' := by simp [hs]
    rw [hblank]
    exact TextPre.ended (by simp) hle rfl fun _ _ => hp
  case textByte hs hb hp =>
    have hblank : blankNext x .again blank out' = endsBlank out' := by simp [hs]
    rw [hblank]
    exact TextPre.ended (by simp) hle rfl fun h0 => absurd (hd'.symm.trans h0) (by simp)
  all_goals simp_all [htmlTarget, htmlCallers]

theorem HtmlRule.coupled (h : HtmlRule x r u es y nxt) (hcut : CutFree r x u d (u ++ fut) out)
    (hx : Coupled r x d (u ++ fut) out blank) (hy : y.cache = []) (hd : d ≤ out.length)
    (hout : out' = (emitted (Ev.items x es u)).reverse ++ out)
    (hd' : d' = d + (emitted (Ev.items x es u)).length) :
    Coupled (htmlTarget r nxt) (nxt.ended (htmlTarget r nxt) d' out' y) d'
      (u.drop (Ev.takes es) ++ fut) out' (blankNext x nxt blank out') where
  live hst := by
    rw [Next.ended_state] at hst
    rw [Next.ended_nochangePre]
    exact h.live hx hst
  frozen hst := by
    rw [Next.ended_state] at hst
    obtain ⟨hno, hpre⟩ := h.frozen_pre hx hst
    rw [Next.ended_nochangePre, ended_frozen hno, hout]
    exact ⟨hno, hpre⟩
  att hr hst hp := by
    rw [Next.ended_state] at hst
    rw [hr] at hp
    exact h.att_next hx hy (h.live hx (by simp [hst])) hd hout hd' hr hst hp
  bang hst := by
    rw [Next.ended_state] at hst
    obtain ⟨hnil, htakes, hbang⟩ := h.bang_next hcut hx hy hd hst
    rw [hnil] at hout hd'
    subst hout hd'
    rw [htakes]
    exact hbang
  last hst hl := by
    rw [Next.ended_state] at hst
    have hno := (h.frozen_pre hx (by rcases List.mem_pair.mp hst with hst | hst <;> simp [hst])).1
    rw [ended_frozen hno]
    exact h.last_pre hx hy hst (hout ▸ hl)
  closing hst hr := by
    rw [Next.ended_state] at hst
    rw [Next.ended_nochangePre]
    rcases h.closing_next hx hy hout hd' hst hr with ⟨hno, hpre, hlast⟩ | hlive
    · rw [ended_frozen hno]
      exact .inl ⟨hno, hpre, hlast⟩
    · exact .inr hlive
  text hst hr := by
    rw [Next.ended_state] at hst
    rw [hr]
    exact (h.text_next hx hy hd hout hd' hst hr).1
  textLast hst hr := by
    rw [Next.ended_state] at hst
    rw [hr]
    exact (h.text_next hx hy hd hout hd' hst hr).2

/-- Where bytes are held back, the reader waits too. -/
theorem HtmlRule.stuck (h : HtmlRule x r u es y nxt) (hc : x.cache = []) (hy : y.cache ≠ []) :
    (x.reader blank out).step u = none := by
  cases h
  case attHold hs => simp [Reader.move, Reader.tagatt, hs]
  case commentHold hs => simp [Reader.move, Reader.comment, hs, waits, cacheable]
  case commentHoldIf t hs ht hcache =>
    obtain ⟨hpre, hwait⟩ := comes_later (by simp; omega) hcache
    simp at hpre hwait
    simp [Reader.move, Reader.comment, hs, hpre, hwait]
  case ieHold t hs ht hcache =>
    obtain ⟨hpre, hwait⟩ := comes_later (by simp; omega) hcache
    simp at hpre hwait
    simp [Reader.move, Reader.commentIe, hs, hpre, hwait]
  case skipHold t hs ht hcache =>
    obtain ⟨hpre, hwait⟩ := comes_later (by simp; omega) hcache
    simp at hpre hwait
    simp [Reader.move, Reader.commentSkip, hs, hpre, hwait]
  case bangHoldDash hs => simp [Reader.move, Reader.tagBang, hs]
  case bangHoldCdata t hs ht hcache =>
    obtain ⟨hpre, hwait⟩ := comes_later (by simp; omega) hcache
    simp at hpre hwait
    simp [Reader.move, Reader.tagBang, hs, hpre, hwait]
  case cdataHold t hs ht hcache =>
    obtain ⟨hpre, hwait⟩ := comes_later (by simp; omega) hcache
    simp at hpre hwait
    simp [Reader.move, Reader.cdata, hs, hpre, hwait]
  case textHoldBang hs => simp [Reader.move, Reader.text, hs]
  case textHold hs => simp [Reader.move, Reader.text, hs]
  case elementHold hs => simp [Reader.move, Reader.element, hs]
  case nameGt =>
    obtain ⟨st, t, -, he⟩ := x.nameGt_eq
    rw [he] at hy
    exact absurd hc hy
  case nameBlank =>
    obtain ⟨t, he⟩ := x.nameBlank_eq
    rw [he] at hy
    exact absurd hc hy
  case attGt =>
    obtain ⟨st, -, he⟩ := x.attGt_eq
    rw [he] at hy
    exact absurd hc hy
  case endGt =>
    obtain ⟨st, t, v, -, he⟩ := x.endGt_eq
    rw [he] at hy
    exact absurd hc hy
  all_goals exact absurd hc hy

theorem HtmlRule.held_at (h : HtmlRule x r u es y nxt) (hc : x.cache = []) (hy : y.cache ≠ []) :
    (x.state.top = .text →
        r = .htmlStripBuffer ∧ (u ++ fut).head? = some lt ∧ y.nochangePre = false) ∧
      (x.state.top = .htmlTagBang → r = .htmlStripTag) := by
  cases h
  case nameGt =>
    obtain ⟨st, t, -, he⟩ := x.nameGt_eq
    rw [he] at hy
    exact absurd hc hy
  case nameBlank =>
    obtain ⟨t, he⟩ := x.nameBlank_eq
    rw [he] at hy
    exact absurd hc hy
  case attGt =>
    obtain ⟨st, -, he⟩ := x.attGt_eq
    rw [he] at hy
    exact absurd hc hy
  case endGt =>
    obtain ⟨st, t, v, -, he⟩ := x.endGt_eq
    rw [he] at hy
    exact absurd hc hy
  all_goals first
    | exact absurd hc hy
    | simp_all

/-- The context with all unread bytes held back. -/
theorem Coupled.held {rest : List UInt8} (hx : Coupled r x d rest out blank) (hheld : x.Held u y)
    (hd : d ≤ out.length)
    (hat : (x.state.top = .text →
        r = .htmlStripBuffer ∧ rest.head? = some lt ∧ y.nochangePre = false) ∧
      (x.state.top = .htmlTagBang → r = .htmlStripTag)) :
    Coupled r (Next.again.ended r d out y) d rest out blank := by
  have hst := hheld.state
  have hpre : y.preChar = x.preChar := by cases hheld <;> rfl
  have hno : x.state.top ≠ .text → y.nochangePre = x.nochangePre := by
    intro hne
    cases hheld with
    | plain => rfl
    | text hs => exact absurd hs hne
  refine ⟨fun h => ?_, fun h => ?_, fun hr h hp => ?_, fun h => ?_, fun h hl => ?_, fun h hr => ?_,
    fun h hr hlt => ?_, fun h hr hlt hl => ?_⟩
  all_goals rw [Next.ended_state, hst] at h
  · rw [Next.ended_nochangePre, hno (by rintro ht; simp [ht] at h)]
    exact hx.live h
  · have hfrozen := hx.frozen h
    have hy := hno (by rintro ht; simp [ht] at h)
    rw [Next.ended_nochangePre, ended_frozen (hy.trans hfrozen.1), hy, hpre]
    exact hfrozen
  · by_cases h0 : d = 0
    · rw [h0, ended_zero, hpre] at hp
      exact hx.att hr h hp
    · subst hr
      have hlive := (hno (by simp [h])).trans (hx.live (by simp [h]))
      exact (ended_blank rfl (by simp) hlive h0 hd).mp hp
  · have hr := hat.2 h
    subst hr
    have he : (Next.again.ended .htmlStripTag d out y).preChar = x.preChar := hpre
    rw [he]
    exact hx.bang h
  · have hfrozen := hx.frozen (by rcases List.mem_pair.mp h with h | h <;> simp [h])
    have hy := hno (by rintro ht; simp [ht] at h)
    rw [ended_frozen (hy.trans hfrozen.1), hpre]
    exact hx.last h hl
  · exact absurd (hat.1 h).1 hr
  · exact absurd (hat.1 h).2.1 hlt
  · subst hr
    by_cases h0 : d = 0
    · rw [h0, ended_zero, hpre]
      exact hx.textLast h rfl hlt hl
    · exact (ended_blank rfl (by simp) (hat.1 h).2.2 h0 hd).mpr hl

theorem Coupled.done {rest : List UInt8} {r' : Routine} {k : List Routine}
    (hx : Coupled r x d rest out blank) (hd : d ≤ out.length) (hr : htmlCallers r = r' :: k) :
    Coupled r' (Next.again.ended r' d out x) d rest out blank := by
  have hne : r ≠ .htmlStripBuffer := by
    rintro rfl
    cases hr
  have hr' : r' = .htmlStripTag ∨ r' = .htmlStripBuffer := by
    cases r <;> simp_all [htmlCallers]
  have hpre : inComment x.state.top = true → (Next.again.ended r' d out x).preChar = x.preChar :=
    fun h => ended_frozen (hx.frozen h).1
  rcases hr' with rfl | rfl
  · exact ⟨hx.live, hx.frozen, fun hr => absurd hr (by decide), hx.bang, hx.last, fun h _ => hx.closing h hne,
      fun _ hr => absurd hr (by decide), fun _ hr => absurd hr (by decide)⟩
  refine ⟨fun h => ?_, fun h => ?_, fun hr => absurd hr (by decide), fun h => ?_, fun h hl => ?_,
    fun h hr => absurd rfl hr, fun h _ => ?_, fun h _ => ?_⟩
  all_goals rw [Next.ended_state] at h
  · rw [Next.ended_nochangePre]
    exact hx.live h
  · rw [Next.ended_nochangePre, hpre h]
    exact hx.frozen h
  · obtain ⟨hblank, hbang⟩ := hx.bang h
    refine ⟨hblank, fun hcomment => ?_⟩
    by_cases h0 : d = 0
    · subst h0
      rw [ended_zero]
      exact hbang hcomment
    · exact ended_blank rfl (by simp) (hx.live (by simp [h])) h0 hd
  · rw [hpre (by rcases List.mem_pair.mp h with h | h <;> simp [h])]
    exact hx.last h hl
  · exact (hx.left .again (by simp) hd h hne).1
  · exact (hx.left .again (by simp) hd h hne).2

theorem Coupled.next {rest : List UInt8} (hx : Coupled .htmlStripBuffer x d rest out blank) :
    Coupled .htmlStripBuffer (x.hold []) 0 rest out blank where
  live := hx.live
  frozen := hx.frozen
  att hr := by cases hr
  bang := hx.bang
  last := hx.last
  closing _ hr := absurd rfl hr
  text hst hr hlt := by
    rcases hx.text hst hr hlt with hpre | ⟨hpre, -, hno, hl⟩
    · exact .inl hpre
    · exact .inr ⟨hpre, rfl, hno, hl⟩
  textLast := hx.textLast

end Coupling

section Runs

@[simp] theorem ended_reader (nxt : Next) (r : Routine) (d : ℕ) (out w : List UInt8) (x : Ctx)
    (blank : Bool) : (nxt.ended r d out x).reader blank w = x.reader blank w := by
  obtain ⟨p, q, he⟩ := nxt.ended_eq r d out x
  rw [he]
  rfl

theorem Ctx.Held.reader {x y : Ctx} {u w : List UInt8} {blank : Bool} (h : x.Held u y) :
    y.reader blank w = x.reader blank w := by
  cases h <;> rfl

theorem HtmlRule.ne_nil {x y : Ctx} {r : Routine} {u : List UInt8} {es : List Ev} {nxt : Next}
    (h : HtmlRule x r u es y nxt) (hes : es ≠ []) : u ≠ [] := by
  cases h <;> simp_all

theorem htmlAlong : Along htmlMachine Reader.step Reader.start CutFree
    (fun r x d rest out m => ∃ blank, m = x.reader blank out ∧ Coupled r x d rest out blank) where
  start rest := by
    have hpre : Ctx.zero.preChar ≠ space := by decide
    refine ⟨false, rfl, by simp [Ctx.zero], by simp [Ctx.zero], fun hr => (nomatch hr), by simp [Ctx.zero],
      by simp [Ctx.zero], fun _ hr => absurd rfl hr, fun _ _ _ => .inl ?_, fun _ _ _ hl => nomatch hl⟩
    exact iff_of_false hpre Bool.false_ne_true
  next := by
    rintro x d rest out m ⟨blank, rfl, hx⟩
    exact ⟨blank, rfl, hx.next⟩
  turn := by
    rintro x r u es y nxt k k' r' d d' out out' fut m hrule hf hy hgo hk hcut ⟨blank, rfl, hx⟩ hd hout hd'
    have hrule' : HtmlRule x r u es y nxt := hrule
    obtain ⟨rfl, -⟩ := HtmlRule.goes hrule' hf hk hgo
    have hreads := hrule'.reads hcut hx hy
    rw [emitted_reverse, ← hout] at hreads
    exact ⟨_, hreads, _, (ended_reader _ _ _ _ _ _ _).symm, hrule'.coupled hcut hx hy hd hout hd'⟩
  hold := by
    rintro x r u a y d out fut m hrule hf hc hy ⟨blank, rfl, hx⟩ hd
    have hrule' : HtmlRule x r u (Ev.holds a u) y .again := hrule
    have hne : y.cache ≠ [] := by
      rw [hy.cache]
      exact hrule'.ne_nil (by simp [Ev.holds])
    refine ⟨hrule'.stuck hc hne, blank, ?_, hx.held hy hd (hrule'.held_at hc hne)⟩
    rw [ended_reader, hy.reader]
  done := by
    rintro x r r' k d rest out m ⟨blank, rfl, hx⟩ hk hd
    have hk' : r' :: k = htmlCallers r := hk
    exact ⟨blank, (ended_reader _ _ _ _ _ _ _).symm, hx.done hd hk'.symm⟩

def CutFreeRun (rest : List UInt8) (tr : List Item) : Prop := CutRun CutFree rest tr

instance (rest : List UInt8) (tr : List Item) : Decidable (CutFreeRun rest tr) :=
  inferInstanceAs (Decidable (CutRun CutFree rest tr))

/-- A response in which every iteration is `CutFree` does not depend on where the page is cut. -/
theorem cut_anywhere {cap cap' : Option ℕ} {bufs bufs' : List (List UInt8)} {s s' : Session}
    (h : feedAll Flat cap .html .start bufs = .ok s) (h' : feedAll Flat cap' .html .start bufs' = .ok s')
    (hpage : bufs.flatten = bufs'.flatten) (hcut : CutFreeRun s.ctx.cache s.trace)
    (hcut' : CutFreeRun s'.ctx.cache s'.trace) : s.out = s'.out ∧ s.ctx.cache = s'.ctx.cache := by
  obtain ⟨hcache, m, d, d', ⟨blank, hm, -⟩, blank', hm', -⟩ :=
    feedAll_reads_same .html htmlAlong (fun _ => rfl) h h' hpage hcut hcut'
  have hout : s.out.reverse = s'.out.reverse := congrArg Reader.out (hm.symm.trans hm')
  exact ⟨List.reverse_injective hout, hcache⟩

theorem cut_anywhere_lt_a : ∃ s s', feedAll Flat none .html .start [lit "<a>"] = .ok s ∧
    feedAll Flat none .html .start [lit "<", lit "a>"] = .ok s' ∧
      s.out = s'.out ∧ s.ctx.cache = s'.ctx.cache := by
  obtain ⟨s, hs, -, -, hcut⟩ := exists_cut .html CutFree [lit "<a>"] (lit "<a>") [] true (by decide +kernel)
  obtain ⟨s', hs', -, -, hcut'⟩ := exists_cut .html CutFree [lit "<", lit "a>"] (lit "<a>") [] true
    (by decide +kernel)
  exact ⟨s, s', hs, hs', cut_anywhere hs hs' (by decide) (hcut.mpr rfl) (hcut'.mpr rfl)⟩

/-- The tag-name loop forgets `pre_char` at each buffer: the second space of `<a  b>` is kept if a
buffer begins with it. -/
theorem cut_matters : ¬ ∀ (bufs bufs' : List (List UInt8)) (s s' : Session),
    feedAll Flat none .html .start bufs = .ok s → feedAll Flat none .html .start bufs' = .ok s' →
      bufs.flatten = bufs'.flatten → s.out = s'.out ∧ s.ctx.cache = s'.ctx.cache := by
  intro h
  obtain ⟨s, hs, hout, -⟩ := exists_cut .html CutFree [lit "<a  b>"] (lit "<a b>") [] true (by decide +kernel)
  obtain ⟨s', hs', hout', -⟩ := exists_cut .html CutFree [lit "<a ", lit " b>"] (lit "<a  b>") [] false
    (by decide +kernel)
  have heq := (h _ _ s s' hs hs' (by decide)).1
  rw [hout, hout'] at heq
  exact absurd heq (by decide)

end Runs

end NginB.Minify
