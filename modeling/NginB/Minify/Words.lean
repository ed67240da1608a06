import NginB.Minify.CommentParts

/-! # Words that were apart in a script

Two identifier bytes that the JavaScript minifier writes next to each other, outside
quotes, had at most carriage returns and block comments between them, and blanks that
come first in a buffer. Until something else is written, `pre_char` is the first of the two.
-/
namespace NginB.Minify
open NginB.Program Relation Ascii

def isIdent (c : UInt8) : Bool :=
  (65 ≤ c && c ≤ 90) || (97 ≤ c && c ≤ 122) || (48 ≤ c && c ≤ 57) || c = underscore || c = dollar

/-- What is passed over one by one between two words that the output joins: carriage returns, and blanks in
front of all that a buffer has written. -/
def WordDropped (st : MinifyState) (b : UInt8) (gap : List Item) : Prop :=
  st = .text ∧ (b = cr ∨ (b = space ∨ b = tab) ∧ .buffer ∈ gap)

/-- What may stand between two words that the output joins, newest first. -/
def WordGap : List Item → Prop := Gap .js WordDropped

/-- What the bytes passed over between two such words are, each for itself. -/
def WordSkips : List Item → Prop
  | [] => True
  | .skip st b :: gap => WordSkips gap ∧ (st = .jsComment ∨ st = .text ∧
      (b = cr ∨ b = slash ∨ b = star ∨ (b = space ∨ b = tab) ∧ .buffer ∈ gap))
  | _ :: gap => WordSkips gap

theorem WordSkips.dropped {newer gap : List Item} {st : MinifyState} {b : UInt8}
    (h : WordSkips (newer ++ .skip st b :: gap)) (hst : st ∉ insideStates) (hb : isBlank b = true) :
    WordDropped st b gap := by
  induction newer with
  | nil =>
    rcases h.2 with rfl | ⟨rfl, rfl | rfl | rfl | hblank⟩
    · exact absurd (by decide) hst
    · exact ⟨rfl, .inl rfl⟩
    · cases hb
    · cases hb
    · exact ⟨rfl, .inr hblank⟩
  | cons i newer ih =>
    apply ih
    cases i with
    | skip => exact h.1
    | _ => exact h

structure WordOpen (w : Written) : Prop where
  byte : isIdent w.byte = true
  st : w.st ≠ .jsQuote

def WordKept (w : Written) (st : MinifyState) (c : UInt8) : Prop :=
  WordOpen w → isIdent c = true → st ≠ .jsQuote → WordSkips w.since

structure WordSince (st : MinifyState) (p : UInt8) (w : Written) : Prop where
  preChar : WordOpen w → p = w.byte
  gap : WordOpen w → st ∈ [MinifyState.text, .jsComment] → WordSkips w.since

section Since
variable {st : MinifyState} {p : UInt8} {w : Written}

theorem WordSince.of_not_open (h : ¬ WordOpen w) : WordSince st p w :=
  ⟨fun ho => absurd ho h, fun ho => absurd ho h⟩

theorem WordSince.of_byte (h : isIdent w.byte = false) : WordSince st p w :=
  .of_not_open fun ho => by
    have hbyte := ho.byte
    rw [h] at hbyte
    cases hbyte

theorem WordSince.quiet (h : WordSince st p w) {i : Item} (hi : ∀ s b, i ≠ .skip s b) :
    WordSince st p { w with since := i :: w.since } := by
  have hopen : WordOpen { w with since := i :: w.since } → WordOpen w := fun ho => ⟨ho.byte, ho.st⟩
  refine ⟨fun ho => h.preChar (hopen ho), fun ho hst => ?_⟩
  have hgap := h.gap (hopen ho) hst
  cases i with
  | skip s b => exact absurd rfl (hi s b)
  | _ => exact hgap

end Since

/-- The update of `pre_char` keeps the byte of a word in it. -/
theorem WordSince.ended {nxt : Next} {r : Routine} {d : ℕ} {tr : List Item} {y : Ctx}
    (hd : d ≤ (emitted tr).length) (h : ∀ w ∈ lastWritten tr, WordSince y.state.top y.preChar w) :
    ∀ w ∈ lastWritten tr,
      WordSince y.state.top (nxt.ended r d (emitted tr) y).preChar w := by
  intro w hw
  refine ⟨fun ho => ?_, (h w hw).gap⟩
  rcases nxt.ended_preChar r y hd with he | hhead
  · rw [he]
    exact (h w hw).preChar ho
  · rw [← lastWritten_emitted, hw] at hhead
    exact (Option.some.inj hhead).symm

section Rules
variable {x y : Ctx} {r : Routine} {rest : List UInt8} {es : List Ev} {nxt : Next} {tr : List Item}
  {d : ℕ}

theorem wordKept_next (st st' : MinifyState) (b c : UInt8) : WordKept ⟨st, b, []⟩ st' c :=
  fun _ _ _ => trivial

theorem WordKept.of_not_ident {w : Written} {st : MinifyState} {c : UInt8} (h : isIdent c = false) :
    WordKept w st c := by
  intro _ hc
  rw [h] at hc
  cases hc

theorem JsRule.words (h : JsRule d x r rest es y nxt) (hy : y.cache = [])
    (hadj : Adjacent WordKept tr)
    (hw : ∀ w ∈ lastWritten tr, WordSince x.state.top x.preChar w)
    (h0 : d = 0 → ∀ w ∈ lastWritten tr, .buffer ∈ w.since) :
    Adjacent WordKept ((Ev.items x es rest).reverse ++ tr) ∧
      ((∀ w ∈ lastWritten ((Ev.items x es rest).reverse ++ tr), WordSince y.state.top y.preChar w) ∨
        r = .jsStripBuffer ∧ nxt = .again ∧ y.nochangePre = false ∧
          emitted (Ev.items x es rest) ≠ [] ∧
          ∀ w ∈ lastWritten ((Ev.items x es rest).reverse ++ tr), w.since = []) := by
  have hkept : x.state.top = .text → ∀ w, lastWritten tr = some w → ∀ st c, WordKept w st c := by
    intro hs w hlast st c ho _ _
    exact (hw w hlast).gap ho (by simp [hs])
  cases h
  case textByte hs hb hq hp =>
    exact ⟨by simp +contextual [hadj, hkept, hs], .inr ⟨rfl, rfl, rfl, by simp, by simp⟩⟩
  case textSlash hs hb =>
    exact ⟨by simp +contextual [hadj, hkept, hs, wordKept_next], .inr ⟨rfl, rfl, rfl, by simp, by simp⟩⟩
  case textBreak hs hp =>
    exact ⟨by simp +contextual [hadj, hkept, hs], .inr ⟨rfl, rfl, rfl, by simp, by simp⟩⟩
  case textBlank hs hb hp =>
    refine ⟨by simpa using hadj, .inl fun w hlast => ?_⟩
    obtain ⟨u, hu, rfl⟩ := Option.map_eq_some_iff.mp hlast
    refine ⟨fun ho => (hw u hu).preChar ⟨ho.byte, ho.st⟩, fun ho hst => ?_⟩
    have hopen : WordOpen u := ⟨ho.byte, ho.st⟩
    have hpre := (hw u hu).preChar hopen
    refine ⟨(hw u hu).gap hopen hst, .inr ⟨by rw [hs], .inr (.inr (.inr ⟨hb, ?_⟩))⟩⟩
    rcases hp with hp | hp | hp | hp
    · exact absurd hopen.byte (by rw [← hpre, hp]; decide)
    · exact h0 hp u hu
    · exact absurd hopen.byte (by rw [← hpre, hp]; decide)
    · exact absurd hopen.byte (by rw [← hpre, hp]; decide)
  case textBreakDrop hs hp =>
    refine ⟨by simpa using hadj, .inl fun w hlast => ?_⟩
    obtain ⟨u, hu, rfl⟩ := Option.map_eq_some_iff.mp hlast
    refine .of_not_open fun ho => ?_
    have hpre := (hw u hu).preChar ⟨ho.byte, ho.st⟩
    have hident : isIdent x.preChar = true := by rw [hpre]; exact ho.byte
    simp only [jsBreakRedundant, Bool.or_eq_true, decide_eq_true_eq] at hp
    rcases hp with ((((hp | hp) | hp) | hp) | hp) | hp <;> rw [hp] at hident <;> cases hident
  case textReturn hs =>
    refine ⟨by simpa using hadj, .inl fun w hlast => ?_⟩
    obtain ⟨u, hu, rfl⟩ := Option.map_eq_some_iff.mp hlast
    exact ⟨fun ho => (hw u hu).preChar ⟨ho.byte, ho.st⟩, fun ho hst =>
      ⟨(hw u hu).gap ⟨ho.byte, ho.st⟩ hst, .inr ⟨by rw [hs], .inl rfl⟩⟩⟩
  case textComment hs =>
    refine ⟨by simpa using hadj, .inl fun w hlast => ?_⟩
    simp only [lit_blockOpen, List.cons_append, List.nil_append, Ev.items, List.headD_cons,
      List.tail_cons, List.reverse_cons, List.reverse_nil, lastWritten_stack, lastWritten_skip,
      Option.map_map] at hlast
    obtain ⟨u, hu, rfl⟩ := Option.map_eq_some_iff.mp hlast
    refine ⟨fun ho => (hw u hu).preChar ⟨ho.byte, ho.st⟩, fun ho _ => ?_⟩
    have hgap := (hw u hu).gap ⟨ho.byte, ho.st⟩ (by simp [hs])
    exact ⟨⟨hgap, .inr ⟨by rw [hs], .inr (.inl rfl)⟩⟩, .inr ⟨by rw [hs], .inr (.inr (.inl rfl))⟩⟩
  case commentStar hs hb | commentByte hs hb =>
    refine ⟨by simpa using hadj, .inl fun w hlast => ?_⟩
    obtain ⟨u, hu, rfl⟩ := Option.map_eq_some_iff.mp hlast
    exact ⟨fun ho => (hw u hu).preChar ⟨ho.byte, ho.st⟩, fun ho hst =>
      ⟨(hw u hu).gap ⟨ho.byte, ho.st⟩ hst, .inl (by rw [hs])⟩⟩
  case commentClose hs =>
    refine ⟨by simpa using hadj, .inl fun w hlast => ?_⟩
    simp only [lit_blockClose, List.cons_append, List.nil_append, Ev.items, List.headD_cons,
      List.tail_cons, List.reverse_cons, List.reverse_nil, lastWritten_stack, lastWritten_skip,
      Option.map_map] at hlast
    obtain ⟨u, hu, rfl⟩ := Option.map_eq_some_iff.mp hlast
    refine ⟨fun ho => (hw u hu).preChar ⟨ho.byte, ho.st⟩, fun ho _ => ?_⟩
    have hgap := (hw u hu).gap ⟨ho.byte, ho.st⟩ (by simp [hs])
    exact ⟨⟨hgap, .inl (by rw [hs])⟩, .inl (by rw [hs])⟩
  case textLine hs | lineByte hs _ =>
    refine ⟨by simpa using hadj, .inl fun w hlast => ?_⟩
    rw [lastWritten_silent (by simp)] at hlast
    obtain ⟨u, hu, rfl⟩ := Option.map_eq_some_iff.mp hlast
    exact ⟨fun ho => (hw u hu).preChar ⟨ho.byte, ho.st⟩, fun _ hst => by simp [hs] at hst⟩
  case lineEnd hs =>
    refine ⟨⟨fun w _ => .of_not_ident rfl, hadj⟩, .inl fun w hlast => ?_⟩
    cases hlast
    exact .of_byte rfl
  case textQuote hs hb =>
    refine ⟨by simp +contextual [hadj, hkept, hs], .inl fun w hlast => ?_⟩
    cases hlast
    rcases hb with rfl | rfl | rfl <;> exact .of_byte rfl
  case quoteClose hs _ | quoteByte hs _ =>
    refine ⟨⟨fun w _ _ _ hst => absurd (by rw [hs]) hst, hadj⟩, .inl fun w hlast => ?_⟩
    cases hlast
    exact .of_not_open fun ho => ho.st (by rw [hs])
  case quoteEscape hs =>
    refine ⟨⟨fun w _ _ _ hst => absurd (by rw [hs]) hst, fun w _ _ _ hst => absurd (by rw [hs]) hst, hadj⟩,
      .inl fun w hlast => ?_⟩
    cases hlast
    exact .of_not_open fun ho => ho.st (by rw [hs])
  case commentLeave | quoteLeave | callComment | callQuote => exact ⟨hadj, .inl hw⟩
  all_goals simp at hy

end Rules

structure WordInv (v : View) : Prop where
  adjacent : Adjacent WordKept v.trace
  since : ∀ w ∈ lastWritten v.trace, WordSince v.ctx.state.top v.ctx.preChar w
  fresh : v.dstlen = 0 → ∀ w ∈ lastWritten v.trace, .buffer ∈ w.since

theorem lastWritten_since {i : Item} {tr : List Item} {st : MinifyState} {p : UInt8}
    (he : i.emitted = []) (hi : ∀ s b, i ≠ .skip s b) (h : ∀ w ∈ lastWritten tr, WordSince st p w) :
    ∀ w ∈ lastWritten (i :: tr), WordSince st p w := by
  intro w hw
  rw [lastWritten_cons he] at hw
  obtain ⟨u, hu, rfl⟩ := Option.map_eq_some_iff.mp hw
  exact (h u hu).quiet hi

theorem lastWritten_buffer {l tr : List Item} (hl : emitted l = [])
    (h : ∀ w ∈ lastWritten tr, .buffer ∈ w.since) : ∀ w ∈ lastWritten (l ++ tr), .buffer ∈ w.since := by
  intro w hw
  rw [lastWritten_silent hl] at hw
  obtain ⟨u, hu, rfl⟩ := Option.map_eq_some_iff.mp hw
  exact List.mem_append_right l (h u hu)

theorem wordInv : TraceInv jsMachine WordInv where
  start := ⟨trivial, by simp, by simp⟩
  next {v} buf hv h hr := by
    refine ⟨h.adjacent, ?_, fun _ w hw => ?_⟩
    · exact lastWritten_since rfl (by simp) h.since
    · rw [lastWritten_cons rfl] at hw
      obtain ⟨u, -, rfl⟩ := Option.map_eq_some_iff.mp hw
      exact List.mem_cons_self
  turn {v es y nxt k k' r' d tr} hv h hc hy hrule hgo hk hd htr := by
    have hrule' : JsRule v.dstlen v.ctx v.r v.pending es y nxt := hrule
    have hsince := lastWritten_since (i := .turn v.r v.ctx v.pending v.dstlen) rfl (by simp) h.since
    have hfresh : v.dstlen = 0 →
        ∀ w ∈ lastWritten (.turn v.r v.ctx v.pending v.dstlen :: v.trace), .buffer ∈ w.since :=
      fun h0 => lastWritten_buffer (l := [_]) rfl (h.fresh h0)
    have hold : Adjacent WordKept (.turn v.r v.ctx v.pending v.dstlen :: v.trace) := h.adjacent
    obtain ⟨hadj, hlast⟩ := hrule'.words hy hold hsince hfresh
    rw [← htr] at hadj hlast
    have hout : emitted tr =
        (emitted (Ev.items v.ctx es v.pending)).reverse ++ emitted v.trace := by
      rw [htr, emitted_append, emitted_reverse]
      rfl
    have hle : d ≤ (emitted tr).length := by
      have hdst := hv.dstlen_le
      rw [hout, List.length_append, List.length_reverse, hd]
      omega
    refine ⟨hadj, ?_, fun h0 => ?_⟩
    · simp only [Next.ended_state]
      rcases hlast with hlast | ⟨hr, rfl, hno, hne, hnil⟩
      · exact WordSince.ended hle hlast
      · have hr' : r' = v.r := by
          cases hgo
          rfl
        subst hr'
        intro w hw
        refine ⟨fun _ => ?_, fun _ _ => by rw [hnil w hw]; trivial⟩
        rw [hr]
        have hpos := List.length_pos_of_ne_nil hne
        obtain ⟨hzero, -⟩ | hhead := Ctx.refreshed_preChar hno hle
        · rw [hzero] at hd
          omega
        · rw [← lastWritten_emitted, hw] at hhead
          exact (Option.some.inj hhead).symm
    · rw [show d = 0 from h0] at hd
      have hnil : emitted (Ev.items v.ctx es v.pending) = [] := by
        apply List.eq_nil_of_length_eq_zero
        omega
      rw [htr]
      exact lastWritten_buffer (by rw [emitted_reverse, hnil]; rfl) (hfresh (by omega))
  hold {v y} a hv h _ _ hy := by
    have hpre : y.preChar = v.ctx.preChar := by cases hy <;> rfl
    refine ⟨h.adjacent, ?_, fun h0 => ?_⟩
    · simp only [Next.ended_state]
      refine WordSince.ended (by simpa using hv.dstlen_le) ?_
      rw [hy.state, hpre]
      exact lastWritten_since rfl (by simp) (lastWritten_since rfl (by simp) h.since)
    · exact lastWritten_buffer (l := [_, _]) rfl (h.fresh h0)
  done {v k r'} hv h _ := by
    refine ⟨h.adjacent, ?_, h.fresh⟩
    simp only [Next.ended_state]
    exact WordSince.ended hv.dstlen_le h.since

/-- The script `a/**/b`: the comment goes, and nothing stands in its place. -/
theorem neighbours_a_b : ∃ s gap, feedAll Flat none .js .start [lit "a/**/b"] = .ok s ∧
    Neighbours s .text .text 97 98 gap ∧ consumed gap = [slash, star, star, slash] := by
  obtain ⟨t, -, -, hrun⟩ := feedAll_reach .js [lit "a/**/b"]
  have hfacts : (feedAll Stream none .js .start [lit "a/**/b"]).map (fun s => (s.trace[0]?,
      s.trace[12]?, emitted ((s.trace.drop 1).take 11), consumed ((s.trace.drop 1).take 11))) =
      .ok (some (.emit .text 98 98), some (.emit .text 97 97), [], [47, 42, 42, 47]) := by decide
  rw [hrun] at hfacts
  injection hfacts with hfacts
  obtain ⟨hc, hb, hgap, hcons⟩ : _ ∧ _ ∧ _ ∧ _ := by simpa only [Prod.mk.injEq] using hfacts
  exact ⟨t.session, _, by rw [feedAll_flat, hrun], .of_getElem? (m := 0) (n := 11) hc hb hgap, hcons⟩

/-- Two bytes of words that the output joins outside quotes have been apart by no more than
carriage returns, block comments and the blanks in front of all that a buffer has written. -/
theorem words_apart {cap : Option ℕ} {bufs : List (List UInt8)} {s : Session}
    (h : feedAll Flat cap .js .start bufs = .ok s) {st st' : MinifyState} {b c : UInt8}
    {gap : List Item} (hn : Neighbours s st st' b c gap) (hb : isIdent b = true)
    (hc : isIdent c = true) (hst : st ≠ .jsQuote) (hst' : st' ≠ .jsQuote) : WordGap gap := by
  have hparts := feedAll_parts h fun hjs => nomatch hjs
  obtain ⟨t, hreach, -, rfl, -⟩ := feedAll_ok h
  have hadj : Adjacent WordKept t.session.trace := (wordInv.reach hreach).adjacent
  have hskips : WordSkips gap := hn.related hadj ⟨hb, hst⟩ hc hst'
  obtain ⟨hgap, newer, older, i, i', htr⟩ := hn
  rw [htr] at hparts
  have hne : c ≠ space := by
    rintro rfl
    cases hc
  apply (hparts.of_emit.before_emit hne).between (by decide) hgap
  intro newer st b l he hst hb
  rw [he] at hskips
  exact hskips.dropped hst hb

theorem words_apart_a_b : ∃ s gap, Neighbours s .text .text 97 98 gap ∧ WordGap gap := by
  obtain ⟨s, gap, hs, hn, -⟩ := neighbours_a_b
  exact ⟨s, gap, hn, words_apart hs hn (by decide) (by decide) (by decide) (by decide)⟩

/-- In `a/**/b` two words become one. -/
theorem words_joined : ¬ ∀ (bufs : List (List UInt8)) (s : Session) (st st' : MinifyState)
    (b c : UInt8) (gap : List Item), feedAll Flat none .js .start bufs = .ok s →
      Neighbours s st st' b c gap → isIdent b = true → isIdent c = true → st ≠ .jsQuote →
        st' ≠ .jsQuote → consumed gap = [] := by
  intro h
  obtain ⟨s, gap, hs, hn, hcons⟩ := neighbours_a_b
  have hnone := h _ s _ _ _ _ gap hs hn (by decide) (by decide) (by decide) (by decide)
  rw [hcons] at hnone
  exact absurd hnone (by decide)

end NginB.Minify
