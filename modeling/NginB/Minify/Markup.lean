import NginB.Minify.Adjacency
import NginB.Minify.Safety

/-! # Markup that was not in the page

A `<` of the output that is followed by a byte that could make markup of it was followed
by that byte in the page, but for spaces. The two exceptions are bytes that the code loses:
a `]` of a conditional comment at the end of a buffer, and what follows the nine bytes that
an unknown `<![` is taken to have.
-/
namespace NginB.Minify
open NginB.Program Relation Ascii

/-- The byte makes markup of a `<` in front of it. -/
def opensMarkup (c : UInt8) : Bool :=
  (65 ≤ c && c ≤ 90) || (97 ≤ c && c ≤ 122) || c = slash || c = bang || c = question

/-- A `<` of the output, and a byte written next, in state `st`. -/
def MarkupKept (w : Written) (st : MinifyState) (c : UInt8) : Prop :=
  w.byte = lt → c ≠ lt → (∀ b, .skip .htmlCommentIe b ∉ w.since) →
    (w.st = .htmlTagBang → st = .htmlTagBang) → ∀ b ∈ consumed w.since, b = space

/-- A `<` outside the exceptions is the last byte written. -/
structure LtOpen (w : Written) : Prop where
  byte : w.byte = lt
  bang : w.st ≠ .htmlTagBang
  ie : ∀ b, .skip .htmlCommentIe b ∉ w.since

structure LtGap (st : MinifyState) (pending : List UInt8) (w : Written) : Prop where
  blank : LtOpen w → ∀ b ∈ consumed w.since, b = space
  state : LtOpen w → consumed w.since ≠ [] → st ∈ [MinifyState.htmlTag, .htmlTagname, .htmlTagnameEnd]
  next : LtOpen w → st ∈ [MinifyState.text, .htmlTagBang, .htmlComment, .htmlCommentSkip] →
    st = .text ∧ lit "</" <+: pending

section Gap
variable {st st' : MinifyState} {pending : List UInt8} {w : Written} {c : UInt8}

theorem LtGap.kept (h : LtGap st pending w) (hc : st' = .htmlTagBang → c = lt) :
    MarkupKept w st' c := by
  intro hb hne hie hbang
  refine h.blank ⟨hb, fun hs => hne (hc (hbang hs)), hie⟩

theorem LtGap.of_not_open (hw : ¬ LtOpen w) : LtGap st pending w :=
  ⟨fun h => absurd h hw, fun h => absurd h hw, fun h => absurd h hw⟩

theorem LtGap.of_ne (hw : w.byte ≠ lt) : LtGap st pending w :=
  .of_not_open fun h => hw h.byte

theorem LtGap.of_bang (hw : w.st = .htmlTagBang) : LtGap st pending w :=
  .of_not_open fun h => h.bang hw

theorem LtGap.fresh (hw : consumed w.since = [])
    (hst : st ∉ [MinifyState.text, .htmlTagBang, .htmlComment, .htmlCommentSkip]) :
    LtGap st pending w :=
  ⟨fun _ b hb => by rw [hw] at hb; exact absurd hb List.not_mem_nil, fun _ h => absurd hw h,
    fun _ h => absurd h hst⟩

theorem markupKept_next (st st' : MinifyState) (b c : UInt8) : MarkupKept ⟨st, b, []⟩ st' c :=
  fun _ _ _ _ _ hmem => absurd hmem List.not_mem_nil

theorem markupKept_tag (i : ℕ) :
    MarkupKept { w with since := .tagWrite i :: w.since } st c ↔ MarkupKept w st c := by
  simp [MarkupKept]

theorem markupKept_call (a : List UInt8) (n : ℕ) (u : List UInt8) :
    MarkupKept { w with since := .cacheCall a n u :: w.since } st c ↔ MarkupKept w st c := by
  simp [MarkupKept]

/-- Items that consume nothing leave the gap as it is. -/
theorem LtGap.quiet (h : LtGap st pending w) {i : Item} (hi : i.consumed = []) :
    LtGap st pending { w with since := i :: w.since } := by
  have hopen : LtOpen { w with since := i :: w.since } → LtOpen w :=
    fun ho => ⟨ho.byte, ho.bang, fun b hb => ho.ie b (List.mem_cons_of_mem i hb)⟩
  have hcons : consumed (i :: w.since) = consumed w.since := by rw [consumed_cons, hi, List.nil_append]
  refine ⟨fun ho => ?_, fun ho => ?_, fun ho => h.next (hopen ho)⟩
  · simp only [hcons]
    exact h.blank (hopen ho)
  · simp only [hcons]
    exact h.state (hopen ho)

theorem LtGap.goes (h : LtGap st pending w)
    (hst : st ∈ [MinifyState.htmlTag, .htmlTagname, .htmlTagnameEnd] →
      st' ∈ [MinifyState.htmlTag, .htmlTagname, .htmlTagnameEnd])
    (hnext : st' ∈ [MinifyState.text, .htmlTagBang, .htmlComment, .htmlCommentSkip] →
      st' = .text ∧ lit "</" <+: pending) : LtGap st' pending w :=
  ⟨h.blank, fun ho hne => hst (h.state ho hne), fun _ => hnext⟩

theorem LtGap.passed (h : LtGap st pending w) (pending' : List UInt8) (s : MinifyState)
    (hst : st ∈ [MinifyState.htmlTag, .htmlTagnameEnd]) :
    LtGap st pending' { w with since := .skip s Ascii.space :: w.since } := by
  have hopen : LtOpen { w with since := .skip s Ascii.space :: w.since } → LtOpen w :=
    fun ho => ⟨ho.byte, ho.bang, fun b hb => ho.ie b (List.mem_cons_of_mem _ hb)⟩
  refine ⟨fun ho b hb => ?_, fun _ _ => ?_, fun _ hin => ?_⟩
  · rcases List.mem_cons.mp hb with rfl | hb
    · rfl
    · exact h.blank (hopen ho) b hb
  · rcases List.mem_pair.mp hst with rfl | rfl <;> simp
  · rcases List.mem_pair.mp hst with rfl | rfl <;> simp at hin

end Gap

section Rules
variable {x y : Ctx} {r : Routine} {rest : List UInt8} {es : List Ev} {nxt : Next} {tr : List Item}

/-- Bytes passed over where no such `<` is the last byte written. -/
theorem LtGap.closed {l : List Item} {st : MinifyState} {pending : List UInt8}
    (hopen : ∀ w ∈ lastWritten tr, ¬ LtOpen w) (hl : emitted l = []) :
    ∀ w ∈ lastWritten (l ++ tr), LtGap st pending w := by
  intro w hw
  rw [lastWritten_silent hl] at hw
  obtain ⟨u, hu, rfl⟩ := Option.map_eq_some_iff.mp hw
  exact .of_not_open fun ho =>
    hopen u hu ⟨ho.byte, ho.bang, fun b hb => ho.ie b (List.mem_append_right l hb)⟩

theorem lastWritten_gap {i : Item} {st : MinifyState} {pending : List UInt8}
    (he : i.emitted = []) (hc : i.consumed = []) (h : ∀ w ∈ lastWritten tr, LtGap st pending w) :
    ∀ w ∈ lastWritten (i :: tr), LtGap st pending w := by
  intro w hw
  rw [lastWritten_cons he] at hw
  obtain ⟨u, hu, rfl⟩ := Option.map_eq_some_iff.mp hw
  exact (h u hu).quiet hc

theorem HtmlRule.markup (h : HtmlRule x r rest es y nxt) (hx : x.cache = []) (hy : y.cache = [])
    (hadj : Adjacent MarkupKept tr) (hgap : ∀ w ∈ lastWritten tr, LtGap x.state.top rest w)
    (hblank : r = .htmlStripTagname → x.preChar = space → (emitted tr).head? = some space) :
    Adjacent MarkupKept ((Ev.items x es rest).reverse ++ tr) ∧
      ∀ w ∈ lastWritten ((Ev.items x es rest).reverse ++ tr),
        LtGap y.state.top (rest.drop (Ev.takes es)) w := by
  have hkept : ∀ w, lastWritten tr = some w → ∀ st c, (st = .htmlTagBang → c = lt) →
      MarkupKept w st c := fun w hw st c => (hgap w hw).kept
  have hclosed : ∀ {l : List Item} {st : MinifyState} {pending : List UInt8},
      x.state.top ∈ [MinifyState.text, .htmlTagBang, .htmlComment, .htmlCommentSkip] →
      (x.state.top = .text → ¬ lit "</" <+: rest) → emitted l = [] →
      ∀ w ∈ lastWritten (l ++ tr), LtGap st pending w := by
    intro l st pending hst hno
    refine LtGap.closed fun w hw ho => ?_
    obtain ⟨htext, hpre⟩ := (hgap w hw).next ho hst
    exact hno htext hpre
  cases h
  case nameByte hs _ | attClose hs | attSlash hs _ | attByte hs _ _ | endName hs _ _ | endByte hs _ _
    | ieFour hs _ | ieByte hs _ | tagSlash hs | cdataThree hs _ | cdataMiss hs _ _ | cdataByte hs _
    | abortByte hs | elementPair hs _ | elementByte hs _ | textTag hs _ =>
    refine ⟨?_, ?_⟩
    · simp +contextual [hadj, hkept, hs, markupKept_tag, markupKept_call, markupKept_next]
    · simp only [hs, Ev.items, List.reverse_cons, List.reverse_nil, List.nil_append,
        List.cons_append, lastWritten_emit, lastWritten_stack, Option.map_some, Option.mem_some_iff,
        forall_eq']
      exact LtGap.fresh rfl (by simp)
  case endGt hs =>
    split <;> exact ⟨by simp +contextual [hadj, hkept, hs], by simp [LtGap.of_ne]⟩
  case nameBlank hs hb =>
    refine ⟨by simp +contextual [hadj, hkept, hs], ?_⟩
    rcases hb with rfl | rfl <;> simp [LtGap.of_ne]
  case nameGt hs | attGt hs | ieClose hs | cdataClose hs | bangTag hs _ | bangDash hs _
    | bangCdata hs =>
    exact ⟨by simp +contextual [hadj, hkept, hs, markupKept_next], by simp [LtGap.of_ne]⟩
  case textByte hs hb _ =>
    exact ⟨by simp +contextual [hadj, hkept, hs], by simp_all [LtGap.of_ne]⟩
  case attSpace hs hp =>
    refine ⟨hadj, LtGap.closed (l := [.skip x.state.top space]) (fun w hw ho => ?_) rfl⟩
    have hhead := hblank rfl hp
    rw [← lastWritten_emitted, hw] at hhead
    have hbyte : w.byte = space := Option.some.inj hhead
    rw [ho.byte] at hbyte
    exact absurd hbyte (by decide)
  case ieMiss t hs _ _ =>
    refine ⟨by simpa using hadj, fun w hw => ?_⟩
    obtain ⟨u, -, rfl⟩ := Option.map_eq_some_iff.mp hw
    exact .of_not_open fun ho => ho.ie rbracket (by rw [hs]; exact List.mem_cons_self)
  case commentPlain hs _ | commentOther hs _ | commentMiss hs _ _ | skipClose hs | skipThree hs _
    | skipMiss hs _ _ | skipByte hs _ | bangAbort hs _ _ =>
    exact ⟨by simpa using hadj, hclosed (by simp [hs]) (by simp [hs]) (by simp)⟩
  case textBreak hs hb =>
    refine ⟨by simpa using hadj, hclosed (by simp [hs]) (fun _ hl => ?_) (by simp)⟩
    rcases hb with rfl | rfl | rfl <;> simp at hl
  case textSpace hs _ =>
    exact ⟨by simpa using hadj, hclosed (by simp [hs]) (fun _ hl => by simp at hl) (by simp)⟩
  case bangComment hs =>
    exact ⟨by simpa using hadj, hclosed (by simp [hs]) (by simp [hs]) (by simp)⟩
  case textBang hs =>
    exact ⟨by simpa using hadj, hclosed (by simp [hs]) (fun _ hl => by simp at hl) (by simp)⟩
  case tagSpace hs | endSpace hs =>
    refine ⟨by simpa using hadj, fun w hw => ?_⟩
    obtain ⟨u, hu, rfl⟩ := Option.map_eq_some_iff.mp hw
    exact (hgap u hu).passed _ _ (by simp [hs])
  case nameSkip | nameLeave | commentLeave | callTagname | callComment | tagSkip | tagLeave
    | callTag => exact ⟨hadj, hgap⟩
  case tagName hs _ =>
    exact ⟨by simpa using hadj, lastWritten_gap rfl rfl fun w hw => (hgap w hw).goes (by simp [hs]) (by simp)⟩
  case commentIf hs =>
    refine ⟨by simpa using hadj, lastWritten_gap rfl rfl (lastWritten_gap rfl rfl fun w hw => ?_)⟩
    exact (hgap w hw).goes (by simp [hs]) (by simp)
  case elementEnd t hs =>
    refine ⟨by simpa using hadj, lastWritten_gap rfl rfl fun w hw => ?_⟩
    exact (hgap w hw).goes (by simp [hs]) fun _ => ⟨rfl, t, rfl⟩
  case bangNine hs _ _ =>
    refine ⟨by simp +contextual [hadj, hkept, hs, markupKept_next, List.replicate], ?_⟩
    simp [List.replicate, LtGap.of_bang, hs]
  all_goals simp at hy

/-- The states in which `nochange_pre` is reset. -/
def htmlTagStates : List MinifyState := [.htmlTag, .htmlTagBang, .htmlTagname, .htmlTagatt, .htmlTagnameEnd]

theorem HtmlRule.frozen (h : HtmlRule x r rest es y nxt)
    (hx : r = .htmlStripTagname ∨ x.state.top ∈ htmlTagStates → x.nochangePre = false) :
    htmlTarget r nxt = .htmlStripTagname ∨ y.state.top ∈ htmlTagStates → y.nochangePre = false := by
  cases h
  case nameGt =>
    obtain ⟨st, t, hst, he⟩ := x.nameGt_eq
    rw [he]
    exact fun _ => hx (.inl rfl)
  case nameBlank =>
    obtain ⟨t, he⟩ := x.nameBlank_eq
    rw [he]
    exact fun _ => hx (.inl rfl)
  case attGt =>
    obtain ⟨st, hst, he⟩ := x.attGt_eq
    rw [he]
    exact fun _ => hx (.inl rfl)
  case endGt =>
    obtain ⟨st, t, u, hst, he⟩ := x.endGt_eq
    rw [he]
    exact fun _ => hx (.inl rfl)
  case callTagname hs =>
    refine fun _ => hx (.inr ?_)
    simp only [List.mem_cons, List.not_mem_nil, or_false] at hs
    rcases hs with hs | hs | hs <;> simp [hs, htmlTagStates]
  all_goals simp_all [htmlTarget, htmlTagStates, htmlCallers]

theorem HtmlRule.call_preChar {r' : Routine} (h : HtmlRule x r rest es y (.call r'))
    (hr : r' = .htmlStripTagname) : y.preChar ≠ space := by
  subst hr
  cases h
  exact of_decide_eq_false rfl

theorem HtmlRule.leave_ne (h : HtmlRule x r rest es y .leave) :
    htmlTarget r .leave ≠ .htmlStripTagname := by
  cases h <;> decide

theorem HtmlRule.preChar (h : HtmlRule x .htmlStripTagname rest es y nxt) :
    y.preChar = x.preChar := by
  cases h
  case nameGt =>
    obtain ⟨st, t, hst, he⟩ := x.nameGt_eq
    rw [he]
  case nameBlank =>
    obtain ⟨t, he⟩ := x.nameBlank_eq
    rw [he]
  case attGt =>
    obtain ⟨st, hst, he⟩ := x.attGt_eq
    rw [he]
  case endGt =>
    obtain ⟨st, t, u, hst, he⟩ := x.endGt_eq
    rw [he]
  all_goals rfl

end Rules

/-- After an iteration of the tag-name loop a space in `pre_char` is the newest byte. -/
theorem blank_ended {r : Routine} {nxt : Next} {d : ℕ} {out older : List UInt8} {y : Ctx}
    (hr : r = .htmlStripTagname) (hn : nxt = .again) (hno : y.nochangePre = false)
    (hd : d ≤ out.length) (h0 : d = 0 → out = older)
    (hy : y.preChar = space → older.head? = some space)
    (hp : (nxt.ended r d out y).preChar = space) : out.head? = some space := by
  subst hr hn
  have hp' : (y.refreshed d out).preChar = space := hp
  rcases Ctx.refreshed_preChar hno hd with ⟨hzero, he⟩ | hhead
  · rw [he] at hp'
    rw [h0 hzero]
    exact hy hp'
  · rw [hhead, hp']

structure MarkupInv (v : View) : Prop where
  adjacent : Adjacent MarkupKept v.trace
  gap : ∀ w ∈ lastWritten v.trace, LtGap v.ctx.state.top v.pending w
  blank : v.r = .htmlStripTagname → v.ctx.preChar = space → (emitted v.trace).head? = some space
  frozen : v.r = .htmlStripTagname ∨ v.ctx.state.top ∈ htmlTagStates → v.ctx.nochangePre = false

theorem LtGap.append {st : MinifyState} {pending : List UInt8} {w : Written} (h : LtGap st pending w)
    (buf : List UInt8) : LtGap st (pending ++ buf) w :=
  ⟨h.blank, h.state, fun ho hst =>
    ⟨(h.next ho hst).1, (h.next ho hst).2.trans (List.prefix_append _ _)⟩⟩

theorem markupInv : TraceInv htmlMachine MarkupInv where
  start := ⟨trivial, by simp, by decide, by decide⟩
  next {v} buf hv h hr := by
    refine ⟨h.adjacent, ?_, ?_, fun hst => ?_⟩
    · exact lastWritten_gap rfl rfl fun w hw => (h.gap w hw).append buf
    · intro hr
      cases hr
    · have hne : htmlMachine.top ≠ .htmlStripTagname := by decide
      exact h.frozen (.inr (hst.resolve_left hne))
  turn {v es y nxt k k' r' d tr} hv h hc hy hrule hgo hk hd htr := by
    have hfit : HtmlFit _ _ _ := hv.fit hc
    obtain ⟨rfl, -⟩ := HtmlRule.goes hrule hfit hk hgo
    have hadj : Adjacent MarkupKept (.turn v.r v.ctx v.pending v.dstlen :: v.trace) := h.adjacent
    have hmarkup := HtmlRule.markup hrule hc hy hadj (lastWritten_gap rfl rfl h.gap) h.blank
    rw [← htr] at hmarkup
    have hfrozen := HtmlRule.frozen hrule h.frozen
    refine ⟨hmarkup.1, ?_, ?_, ?_⟩
    · simp only [Next.ended_state]
      exact hmarkup.2
    · intro hr hp
      have hout : emitted tr =
          (emitted (Ev.items v.ctx es v.pending)).reverse ++ emitted v.trace := by
        rw [htr, emitted_append, emitted_reverse]
        rfl
      have hle : d ≤ (emitted tr).length := by
        have hdst := hv.dstlen_le
        rw [hout, List.length_append, List.length_reverse, hd]
        omega
      have hrule' : HtmlRule v.ctx v.r v.pending es y nxt := hrule
      cases nxt with
      | call r₁ =>
        exact absurd hp (HtmlRule.call_preChar hrule' hr)
      | leave => exact absurd hr (HtmlRule.leave_ne hrule')
      | again =>
      have hr' : v.r = .htmlStripTagname := hr
      have hpre : y.preChar = v.ctx.preChar := by
        rw [hr'] at hrule'
        exact hrule'.preChar
      refine blank_ended hr rfl (hfrozen (.inl hr)) hle (fun h0 => ?_) (fun hy' => h.blank hr' ?_) hp
      rotate_left
      · rw [← hpre, hy']
      have hnil : emitted (Ev.items v.ctx es v.pending) = [] := by
        apply List.eq_nil_of_length_eq_zero
        omega
      rw [hout, hnil]
      rfl
    · simp only [Next.ended_state, Next.ended_nochangePre]
      exact hfrozen
  hold {v y} a hv h _ _ hy := by
    refine ⟨h.adjacent, ?_, ?_, ?_⟩
    · simp only [Next.ended_state, hy.state]
      exact lastWritten_gap rfl rfl (lastWritten_gap rfl rfl h.gap)
    · intro hr hp
      have hr' : v.r = .htmlStripTagname := hr
      have hno : y.nochangePre = false := by
        cases hy with
        | plain => exact h.frozen (.inl hr)
        | text => rfl
      have hpre : y.preChar = v.ctx.preChar := by cases hy <;> rfl
      refine blank_ended hr' rfl hno hv.dstlen_le (fun _ => rfl) (fun hy' => h.blank hr' ?_) hp
      rw [← hpre, hy']
    · simp only [Next.ended_state, Next.ended_nochangePre, hy.state]
      intro hst
      cases hy with
      | plain => exact h.frozen hst
      | text => rfl
  done {v k r'} _ h hk := by
    have hne : r' ≠ .htmlStripTagname := by
      intro he
      subst he
      have hk' : .htmlStripTagname :: k = htmlCallers v.r := hk
      revert hk'
      cases v.r <;> simp [htmlCallers]
    refine ⟨h.adjacent, ?_, fun hr => absurd hr hne, ?_⟩
    · simp only [Next.ended_state]
      exact h.gap
    · simp only [Next.ended_state, Next.ended_nochangePre]
      exact fun hst => h.frozen (.inr (hst.resolve_left hne))

def Item.skipsIn (st : MinifyState) : Item → Bool
  | .skip st' _ => st' = st
  | _ => false

/-- The page `< a>`: the space between `<` and `a` goes. -/
theorem neighbours_lt_a : ∃ s gap, feedAll Flat none .html .start [lit "< a>"] = .ok s ∧
    Neighbours s .text .htmlTagname lt 97 gap ∧ consumed gap = [space] ∧
      ∀ b, .skip .htmlCommentIe b ∉ gap := by
  obtain ⟨t, -, -, hrun⟩ := feedAll_reach .html [lit "< a>"]
  have hfacts : (feedAll Stream none .html .start [lit "< a>"]).map (fun s => (s.trace[4]?,
      s.trace[14]?, emitted ((s.trace.drop 5).take 9), consumed ((s.trace.drop 5).take 9),
      ((s.trace.drop 5).take 9).all fun i => !i.skipsIn .htmlCommentIe)) =
      .ok (some (.emit .htmlTagname 97 97), some (.emit .text 60 60), [], [32], true) := by decide
  rw [hrun] at hfacts
  injection hfacts with hfacts
  obtain ⟨hc, hb, hgap, hcons, hie⟩ : _ ∧ _ ∧ _ ∧ _ ∧ _ := by
    simpa only [Prod.mk.injEq] using hfacts
  refine ⟨t.session, _, by rw [feedAll_flat, hrun], .of_getElem? (m := 4) (n := 9) hc hb hgap, hcons,
    fun b hmem => ?_⟩
  exact Bool.false_ne_true (List.all_eq_true.mp hie _ hmem)

/-- Where a `<` of the output is followed by a byte that makes markup of it, only spaces can
have been between the two in the page: unless `html_state_comment_ie` has passed over a `]` in
between, or the `<` is the last byte that `html_state_tag_bang` has copied. -/
theorem markup_kept {cap : Option ℕ} {bufs : List (List UInt8)} {s : Session}
    (h : feedAll Flat cap .html .start bufs = .ok s) {st st' : MinifyState} {c : UInt8}
    {gap : List Item} (hn : Neighbours s st st' lt c gap) (hc : opensMarkup c = true)
    (hie : ∀ b, .skip .htmlCommentIe b ∉ gap) (hbang : st = .htmlTagBang → st' = .htmlTagBang) :
    ∀ b ∈ consumed gap, b = space := by
  obtain ⟨t, hreach, -, rfl, -⟩ := feedAll_ok h
  have hadj : Adjacent MarkupKept t.session.trace := (markupInv.reach hreach).adjacent
  have hne : c ≠ lt := by
    rintro rfl
    exact absurd hc (by decide)
  exact hn.related hadj rfl hne hie hbang

theorem markup_kept_lt_a : ∃ s gap, Neighbours s .text .htmlTagname lt 97 gap ∧
    ∀ b ∈ consumed gap, b = space := by
  obtain ⟨s, gap, hs, hn, -, hie⟩ := neighbours_lt_a
  exact ⟨s, gap, hn, markup_kept hs hn (by decide) hie (by decide)⟩

/-- In `< a>` the space goes, and the text `< a` becomes a start tag. -/
theorem markup_made : ¬ ∀ (bufs : List (List UInt8)) (s : Session) (st st' : MinifyState) (c : UInt8)
    (gap : List Item), feedAll Flat none .html .start bufs = .ok s → Neighbours s st st' lt c gap →
      opensMarkup c = true → consumed gap = [] := by
  intro h
  obtain ⟨s, gap, hs, hn, hcons, -⟩ := neighbours_lt_a
  have hnone := h _ s _ _ _ gap hs hn (by decide)
  rw [hcons] at hnone
  exact absurd hnone (by decide)

end NginB.Minify
