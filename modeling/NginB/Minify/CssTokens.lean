import NginB.Minify.CommentParts

/-! # Names that were apart in a style sheet

Two bytes of names that the CSS minifier writes next to each other, outside strings, had at most
line breaks and comments between them, and in a block TABs and the spaces that are dropped while
`nochange_pre` keeps a space in `pre_char`.
-/
namespace NginB.Minify
open NginB.Program Relation Ascii

/-- Letters, digits, `-`, `_`, `.`, `#` and `%`. -/
def isName (c : UInt8) : Bool :=
  (65 ≤ c && c ≤ 90) || (97 ≤ c && c ≤ 122) || (48 ≤ c && c ≤ 57) || c = dash || c = underscore ||
    c = 46 || c = 35 || c = 37

/-- The newest item starts an iteration on a block with a space kept in `pre_char`. -/
def SpaceKept : List Item → Prop
  | .turn .cssStripBrace x _ _ :: _ => x.nochangePre = true ∧ x.preChar = space
  | _ => False

/-- What is passed over one by one between two names that the output joins: line breaks, and in a block TABs
and the spaces dropped while a space is kept in `pre_char`. -/
def NameDropped (st : MinifyState) (b : UInt8) (gap : List Item) : Prop :=
  st ∈ [MinifyState.text, .cssBrace] ∧ (b = lf ∨ b = cr) ∨
    st = .cssBrace ∧ (b = tab ∨ b = space ∧ SpaceKept gap)

/-- What may stand between two names that the output joins, newest first. -/
def NameGap : List Item → Prop := Gap .css NameDropped

/-- What the bytes passed over between two such names are, each for itself. -/
def NameSkips : List Item → Prop
  | [] => True
  | .skip st b :: gap => NameSkips gap ∧ (st = .cssComment ∨
      st ∈ [MinifyState.text, .cssBrace] ∧ b ∈ [lf, cr, slash, star] ∨
      st = .cssBrace ∧ (b = tab ∨ b = space ∧ SpaceKept gap))
  | _ :: gap => NameSkips gap

theorem NameSkips.dropped {newer gap : List Item} {st : MinifyState} {b : UInt8}
    (h : NameSkips (newer ++ .skip st b :: gap)) (hst : st ∉ insideStates) (hb : isBlank b = true) :
    NameDropped st b gap := by
  induction newer with
  | nil =>
    rcases h.2 with rfl | ⟨hplain, hbreak⟩ | hbrace
    · exact absurd (by decide) hst
    · simp only [List.mem_cons, List.not_mem_nil, or_false] at hbreak
      rcases hbreak with rfl | rfl | rfl | rfl
      · exact .inl ⟨hplain, .inl rfl⟩
      · exact .inl ⟨hplain, .inr rfl⟩
      · cases hb
      · cases hb
    · exact .inr hbrace
  | cons i newer ih =>
    apply ih
    cases i with
    | skip => exact h.1
    | _ => exact h

structure NameOpen (w : Written) : Prop where
  byte : isName w.byte = true
  st : w.st ≠ .cssQuote

def NameKept (w : Written) (st : MinifyState) (c : UInt8) : Prop :=
  NameOpen w → isName c = true → st ≠ .cssQuote → NameSkips w.since

def textLevel : List StateStack := [⟨.text, []⟩, ⟨.cssComment, [.text]⟩]

def braceLevel : List StateStack := [⟨.cssBrace, [.text]⟩, ⟨.cssComment, [.cssBrace, .text]⟩]

/-- What is known of a byte of a name while nothing else is written. -/
structure NameSince (s : StateStack) (p : UInt8) (frozen : Bool) (w : Written) : Prop where
  gap : NameOpen w → NameSkips w.since
  spot : NameOpen w → w.st = .text ∧ s ∈ textLevel ∧ p = w.byte ∨
    w.st = .cssBrace ∧ s ∈ braceLevel ∧ (frozen = false → p = w.byte)

section Since
variable {s s' : StateStack} {p : UInt8} {frozen frozen' : Bool} {w : Written}

theorem NameSince.of_not_open (h : ¬ NameOpen w) : NameSince s p frozen w :=
  ⟨fun ho => absurd ho h, fun ho => absurd ho h⟩

theorem NameSince.of_byte (h : isName w.byte = false) : NameSince s p frozen w := by
  apply NameSince.of_not_open
  intro ho
  have hbyte := ho.byte
  rw [h] at hbyte
  cases hbyte

theorem NameSince.of_quote (h : w.st = .cssQuote) : NameSince s p frozen w :=
  .of_not_open fun ho => ho.st h

theorem NameSince.quiet (h : NameSince s p frozen w) {i : Item} (hi : ∀ s b, i ≠ .skip s b) :
    NameSince s p frozen { w with since := i :: w.since } := by
  have hopen : NameOpen { w with since := i :: w.since } → NameOpen w := fun ho => ⟨ho.byte, ho.st⟩
  refine ⟨fun ho => ?_, fun ho => h.spot (hopen ho)⟩
  have hgap := h.gap (hopen ho)
  cases i with
  | skip s b => exact absurd rfl (hi s b)
  | _ => exact hgap

theorem NameSince.skip (h : NameSince s p frozen w) {st : MinifyState} {b : UInt8}
    (hb : NameOpen w → st = .cssComment ∨ st ∈ [MinifyState.text, .cssBrace] ∧ b ∈ [lf, cr, slash, star] ∨
      st = .cssBrace ∧ (b = tab ∨ b = space ∧ SpaceKept w.since)) :
    NameSince s p frozen { w with since := .skip st b :: w.since } := by
  have hopen : NameOpen { w with since := .skip st b :: w.since } → NameOpen w :=
    fun ho => ⟨ho.byte, ho.st⟩
  exact ⟨fun ho => ⟨h.gap (hopen ho), hb (hopen ho)⟩, fun ho => h.spot (hopen ho)⟩

/-- A LF or a CR passed over, or a byte that opens a comment. -/
theorem NameSince.drop (h : NameSince s p frozen w) {st : MinifyState} {b : UInt8}
    (hst : st = .text ∨ st = .cssBrace) (hb : b ∈ [lf, cr, slash, star]) :
    NameSince s p frozen { w with since := .skip st b :: w.since } :=
  h.skip fun _ => .inr (.inl ⟨List.mem_pair.mpr hst, hb⟩)

/-- Into a comment and back, or on the same stack with `pre_char` kept. -/
theorem NameSince.move (h : NameSince s p frozen w) (htext : s ∈ textLevel → s' ∈ textLevel)
    (hbrace : s ∈ braceLevel → s' ∈ braceLevel ∧ (frozen' = false → frozen = false)) :
    NameSince s' p frozen' w := by
  refine ⟨h.gap, fun ho => ?_⟩
  rcases h.spot ho with ⟨hst, hs, hp⟩ | ⟨hst, hs, hp⟩
  · exact .inl ⟨hst, htext hs, hp⟩
  · exact .inr ⟨hst, (hbrace hs).1, fun hf => hp ((hbrace hs).2 hf)⟩

theorem NameSince.fresh {st : MinifyState} {b : UInt8} (hf : frozen = false → p = b)
    (h : st = .text ∧ s ∈ textLevel ∧ frozen = false ∨ st = .cssBrace ∧ s ∈ braceLevel) :
    NameSince s p frozen ⟨st, b, []⟩ := by
  refine ⟨fun _ => trivial, fun _ => ?_⟩
  rcases h with ⟨hst, hs, hfalse⟩ | ⟨hst, hs⟩
  · exact .inl ⟨hst, hs, hf hfalse⟩
  · exact .inr ⟨hst, hs, hf⟩

end Since

section Rules
variable {x y : Ctx} {r : Routine} {rest : List UInt8} {es : List Ev} {nxt : Next} {tr : List Item}
  {d : ℕ}

theorem nameKept_next (st st' : MinifyState) (b c : UInt8) : NameKept ⟨st, b, []⟩ st' c :=
  fun _ _ _ => trivial

theorem lastWritten_cons_since {i : Item} {P : Written → Prop} (hi : i.emitted = [])
    (h : ∀ w ∈ lastWritten tr, P { w with since := i :: w.since }) :
    ∀ w ∈ lastWritten (i :: tr), P w := by
  intro w hw
  rw [lastWritten_cons hi] at hw
  obtain ⟨u, hu, rfl⟩ := Option.map_eq_some_iff.mp hw
  exact h u hu

theorem cssStacks_textTop {s : StateStack} (h : s ∈ cssStacks) (hs : s.top = .text) : s = ⟨.text, []⟩ := by
  revert hs
  revert h
  revert s
  decide

theorem cssStacks_braceTop {s : StateStack} (h : s ∈ cssStacks) (hs : s.top = .cssBrace) :
    s = ⟨.cssBrace, [.text]⟩ := by
  revert hs
  revert h
  revert s
  decide

theorem CssRule.names (h : CssRule x r rest es y nxt) (hx : x.state ∈ cssStacks) (hy : y.cache = [])
    (hadj : Adjacent NameKept tr)
    (hw : ∀ w ∈ lastWritten tr, NameSince x.state x.preChar x.nochangePre w)
    (hspace : r = .cssStripBrace → x.nochangePre = true → x.preChar = space →
      ∀ w ∈ lastWritten tr, SpaceKept w.since) :
    Adjacent NameKept ((Ev.items x es rest).reverse ++ tr) ∧
      ((∀ w ∈ lastWritten ((Ev.items x es rest).reverse ++ tr),
          NameSince y.state y.preChar y.nochangePre w) ∨
        r.refreshes = true ∧ nxt = .again ∧ emitted (Ev.items x es rest) ≠ [] ∧
          ∀ w ∈ lastWritten ((Ev.items x es rest).reverse ++ tr), ∀ p,
            (y.nochangePre = false → p = w.byte) → NameSince y.state p y.nochangePre w) := by
  have hkept : ∀ w, lastWritten tr = some w → ∀ st c, NameKept w st c :=
    fun w hlast st c ho _ _ => (hw w hlast).gap ho
  cases h
  case textByte hs _ _ _ | textBlank hs _ _ | textSlash hs _ =>
    have hstack := cssStacks_textTop hx hs
    refine ⟨by simp +contextual [hadj, hkept, nameKept_next], .inr ⟨rfl, rfl, by simp, fun w hlast p hp => ?_⟩⟩
    cases hlast
    apply NameSince.fresh hp
    exact .inl ⟨hs, by simp [hstack, textLevel], rfl⟩
  case braceByte hs _ _ _ | braceSlash hs _ =>
    have hstack := cssStacks_braceTop hx hs
    refine ⟨by simp +contextual [hadj, hkept, nameKept_next], .inr ⟨rfl, rfl, by simp, fun w hlast p hp => ?_⟩⟩
    cases hlast
    apply NameSince.fresh hp
    exact .inr ⟨hs, by simp [hstack, braceLevel]⟩
  case textOpen | braceClose =>
    refine ⟨by simp +contextual [hadj, hkept], .inl fun w hlast => ?_⟩
    cases hlast
    exact .of_byte rfl
  case textQuote hs hb | braceQuote hs hb =>
    refine ⟨by simp +contextual [hadj, hkept], .inl fun w hlast => ?_⟩
    cases hlast
    apply NameSince.of_byte
    rcases hb with rfl | rfl <;> rfl
  case quoteClose hs _ | quoteByte hs _ =>
    refine ⟨⟨fun w _ _ _ hst => absurd hs hst, hadj⟩, .inl fun w hlast => ?_⟩
    cases hlast
    exact .of_quote hs
  case quoteEscape hs =>
    refine ⟨⟨fun w _ _ _ hst => absurd hs hst, fun w _ _ _ hst => absurd hs hst, hadj⟩,
      .inl fun w hlast => ?_⟩
    cases hlast
    exact .of_quote hs
  case textBlankDrop hs hb hp =>
    have hstack := cssStacks_textTop hx hs
    refine ⟨by simpa using hadj, .inl (lastWritten_cons_since rfl fun w hlast => ?_)⟩
    apply NameSince.of_not_open
    intro ho
    rcases (hw w hlast).spot ⟨ho.byte, ho.st⟩ with ⟨-, -, hpre⟩ | ⟨-, hbrace, -⟩
    · have hname : isName x.preChar = true := by rw [hpre]; exact ho.byte
      rcases hp with hp | hp <;> rw [hp] at hname <;> cases hname
    · simp [hstack, braceLevel] at hbrace
  case textBreak hs hb =>
    have hstack := cssStacks_textTop hx hs
    refine ⟨by simpa using hadj, .inl (lastWritten_cons_since rfl fun w hlast => ?_)⟩
    apply ((hw w hlast).drop (.inl hs) (by rcases hb with rfl | rfl <;> simp)).move id
    intro hbrace
    simp [hstack, braceLevel] at hbrace
  case braceBlank b t hs hb =>
    refine ⟨by simpa using hadj, .inl (lastWritten_cons_since rfl fun w hlast => ?_)⟩
    apply (hw w hlast).skip
    intro ho
    rcases hb with ⟨rfl, hp⟩ | rfl | rfl | rfl
    · have hstack := cssStacks_braceTop hx hs
      rcases (hw w hlast).spot ho with ⟨-, htext, -⟩ | ⟨-, -, hpre⟩
      · simp [hstack, textLevel] at htext
      · have hfrozen : x.nochangePre = true := by
          by_contra hf
          have hname : isName x.preChar = true := by
            rw [hpre (by simpa using hf)]
            exact ho.byte
          rw [hp] at hname
          cases hname
        exact .inr (.inr ⟨hs, .inr ⟨rfl, hspace rfl hfrozen hp w hlast⟩⟩)
    · exact .inr (.inl ⟨by simp [hs], by simp⟩)
    · exact .inr (.inl ⟨by simp [hs], by simp⟩)
    · exact .inr (.inr ⟨hs, .inl rfl⟩)
  case textComment t hs =>
    have hstack := cssStacks_textTop hx hs
    refine ⟨by simpa using hadj, .inl ?_⟩
    refine lastWritten_cons_since rfl (lastWritten_cons_since rfl (lastWritten_cons_since rfl ?_))
    intro w hlast
    have hopen := ((hw w hlast).drop (.inl hs) (b := 47) (by simp)).drop (.inl hs) (b := 42) (by simp)
    apply (hopen.quiet (i := .stack (x.state.push .cssComment)) (by simp)).move
    · intro _
      simp [hstack, textLevel]
    · intro hbrace
      simp [hstack, braceLevel] at hbrace
  case braceComment t hs =>
    have hstack := cssStacks_braceTop hx hs
    refine ⟨by simpa using hadj, .inl ?_⟩
    refine lastWritten_cons_since rfl (lastWritten_cons_since rfl (lastWritten_cons_since rfl ?_))
    intro w hlast
    have hopen := ((hw w hlast).drop (.inr hs) (b := 47) (by simp)).drop (.inr hs) (b := 42) (by simp)
    apply (hopen.quiet (i := .stack (x.state.push .cssComment)) (by simp)).move
    · intro htext
      simp [hstack, textLevel] at htext
    · intro _
      exact ⟨by simp [hstack, braceLevel], id⟩
  case commentClose t hs =>
    refine ⟨by simpa using hadj, .inl ?_⟩
    refine lastWritten_cons_since rfl (lastWritten_cons_since rfl (lastWritten_cons_since rfl ?_))
    intro w hlast
    have hclose := ((hw w hlast).skip (b := 42) fun _ => .inl hs).skip (b := 47) fun _ => .inl hs
    have hlevel : (x.state ∈ textLevel → x.state.pop ∈ textLevel) ∧
        (x.state ∈ braceLevel → x.state.pop ∈ braceLevel) := by
      revert hs
      generalize x.state = s at hx
      revert hx
      revert s
      decide
    apply (hclose.quiet (i := .stack x.state.pop) (by simp)).move hlevel.1
    intro hbrace
    exact ⟨hlevel.2 hbrace, id⟩
  case commentStar hs _ | commentByte hs _ =>
    refine ⟨by simpa using hadj, .inl (lastWritten_cons_since rfl fun w hlast => ?_)⟩
    exact (hw w hlast).skip fun _ => .inl hs
  case commentLeave | quoteLeave | braceCallQuote | braceLeave | callBrace => exact ⟨hadj, .inl hw⟩
  case braceCallComment | callComment | callQuote =>
    exact ⟨hadj, .inl fun w hlast => (hw w hlast).move id fun hs => ⟨hs, fun hf => nomatch hf⟩⟩
  all_goals simp at hy

end Rules

structure TokenInv (v : View) : Prop where
  adjacent : Adjacent NameKept v.trace
  since : ∀ w ∈ lastWritten v.trace, NameSince v.ctx.state v.ctx.preChar v.ctx.nochangePre w

theorem lastWritten_headD {tr : List Item} {w : Written} (hw : w ∈ lastWritten tr) :
    (emitted tr).headD 0 = w.byte := by
  have hbyte : (lastWritten tr).map Written.byte = (emitted tr).head? := lastWritten_emitted
  rw [hw] at hbyte
  obtain ⟨out, hout⟩ := List.head?_eq_some_iff.mp hbyte.symm
  rw [hout]
  rfl

/-- The update of `pre_char` takes the last byte written. -/
theorem NameSince.ended {nxt : Next} {r : Routine} {d : ℕ} {tr : List Item} {y : Ctx}
    (h : ∀ w ∈ lastWritten tr, NameSince y.state y.preChar y.nochangePre w) :
    ∀ w ∈ lastWritten tr, NameSince (nxt.ended r d (emitted tr) y).state
      (nxt.ended r d (emitted tr) y).preChar (nxt.ended r d (emitted tr) y).nochangePre w := by
  intro w hw
  rw [Next.ended_state, Next.ended_nochangePre]
  refine ⟨(h w hw).gap, fun ho => ?_⟩
  rcases nxt.ended_pre r d (emitted tr) y with hp | hp
  · rw [hp]
    exact (h w hw).spot ho
  · rw [hp, lastWritten_headD hw]
    rcases (h w hw).spot ho with ⟨hst, hs, -⟩ | ⟨hst, hs, -⟩
    · exact .inl ⟨hst, hs, rfl⟩
    · exact .inr ⟨hst, hs, fun _ => rfl⟩

theorem nameSince_quiet {i : Item} {tr : List Item} {s : StateStack} {p : UInt8} {frozen : Bool}
    (he : i.emitted = []) (hi : ∀ s b, i ≠ .skip s b) (h : ∀ w ∈ lastWritten tr, NameSince s p frozen w) :
    ∀ w ∈ lastWritten (i :: tr), NameSince s p frozen w :=
  lastWritten_cons_since he fun w hw => (h w hw).quiet hi

theorem tokenInv : TraceInv cssMachine TokenInv where
  start := ⟨trivial, by simp⟩
  next buf _ h _ := ⟨h.adjacent, nameSince_quiet rfl (by simp) h.since⟩
  turn {v es y nxt k k' r' d tr} hv h hc hy hrule hgo _ hd htr := by
    have hrule' : CssRule v.ctx v.r v.pending es y nxt := hrule
    have hfit : CssFit _ _ _ := hv.fit hc
    have hsince := nameSince_quiet (i := .turn v.r v.ctx v.pending v.dstlen) rfl (by simp) h.since
    have hspace : v.r = .cssStripBrace → v.ctx.nochangePre = true → v.ctx.preChar = space →
        ∀ w ∈ lastWritten (.turn v.r v.ctx v.pending v.dstlen :: v.trace), SpaceKept w.since := by
      intro hr hfrozen hp w hw
      rw [lastWritten_cons rfl] at hw
      obtain ⟨u, -, rfl⟩ := Option.map_eq_some_iff.mp hw
      rw [hr]
      exact ⟨hfrozen, hp⟩
    have hold : Adjacent NameKept (.turn v.r v.ctx v.pending v.dstlen :: v.trace) := h.adjacent
    obtain ⟨hadj, hlast⟩ := hrule'.names (cssStates_subset hfit.stack) hy hold hsince hspace
    rw [← htr] at hadj hlast
    refine ⟨hadj, ?_⟩
    rcases hlast with hlast | ⟨href, rfl, hne, hlast⟩
    · exact NameSince.ended hlast
    · cases hgo
      have hpos : d ≠ 0 := by
        have hlen := List.length_pos_of_ne_nil hne
        omega
      intro w hw
      rw [Next.ended_state, Next.ended_nochangePre]
      apply hlast w hw
      intro hno
      rw [Next.ended_refreshed href hno hpos, lastWritten_headD hw]
  hold {v y} a hv h hc _ hy := by
    refine ⟨h.adjacent, ?_⟩
    have hsince : ∀ w ∈ lastWritten (.cacheCall a 0 v.pending :: .turn v.r v.ctx v.pending v.dstlen :: v.trace),
        NameSince y.state y.preChar y.nochangePre w := by
      apply nameSince_quiet rfl (by simp)
      apply nameSince_quiet rfl (by simp)
      intro w hw
      cases hy with
      | plain => exact h.since w hw
      | text hs =>
        have hfit : CssFit _ _ _ := hv.fit hc
        have hstack := cssStacks_textTop (cssStates_subset hfit.stack) hs
        apply (h.since w hw).move id
        intro hbrace
        simp [hstack, braceLevel] at hbrace
    exact @NameSince.ended .again v.r v.dstlen _ y hsince
  done _ h _ := ⟨h.adjacent, NameSince.ended h.since⟩

/-- The style sheet `a`, LF, `b`: the LF goes, and nothing stands in its place. -/
theorem neighbours_break : ∃ s gap, feedAll Flat none .css .start [[97, lf, 98]] = .ok s ∧
    Neighbours s .text .text 97 98 gap ∧ consumed gap = [lf] := by
  obtain ⟨t, -, -, hrun⟩ := feedAll_reach .css [[97, lf, 98]]
  have hfacts : (feedAll Stream none .css .start [[97, lf, 98]]).map (fun s => (s.trace[0]?,
      s.trace[4]?, emitted ((s.trace.drop 1).take 3), consumed ((s.trace.drop 1).take 3))) =
      .ok (some (.emit .text 98 98), some (.emit .text 97 97), [], [lf]) := by decide
  rw [hrun] at hfacts
  injection hfacts with hfacts
  obtain ⟨hc, hb, hgap, hcons⟩ : _ ∧ _ ∧ _ ∧ _ := by simpa only [Prod.mk.injEq] using hfacts
  exact ⟨t.session, _, by rw [feedAll_flat, hrun], .of_getElem? (m := 0) (n := 3) hc hb hgap, hcons⟩

/-- Two bytes of names that the output joins outside strings have been apart by no more than line
breaks and comments, and in a block TABs and the spaces dropped while a space is kept in `pre_char`. -/
theorem names_apart {cap : Option ℕ} {bufs : List (List UInt8)} {s : Session}
    (h : feedAll Flat cap .css .start bufs = .ok s) {st st' : MinifyState} {b c : UInt8}
    {gap : List Item} (hn : Neighbours s st st' b c gap) (hb : isName b = true)
    (hc : isName c = true) (hst : st ≠ .cssQuote) (hst' : st' ≠ .cssQuote) : NameGap gap := by
  have hparts := feedAll_parts h fun hcss => nomatch hcss
  obtain ⟨t, hreach, -, rfl, -⟩ := feedAll_ok h
  have hadj : Adjacent NameKept t.session.trace := (tokenInv.reach hreach).adjacent
  have hskips : NameSkips gap := hn.related hadj ⟨hb, hst⟩ hc hst'
  obtain ⟨hgap, newer, older, i, i', htr⟩ := hn
  rw [htr] at hparts
  have hne : c ≠ space := by
    rintro rfl
    cases hc
  apply (hparts.of_emit.before_emit hne).between (by decide) hgap
  intro newer st b l he hst hb
  rw [he] at hskips
  exact hskips.dropped hst hb

theorem names_apart_a_b : ∃ s gap, Neighbours s .text .text 97 98 gap ∧ NameGap gap := by
  obtain ⟨s, gap, hs, hn, -⟩ := neighbours_break
  exact ⟨s, gap, hn, names_apart hs hn (by decide) (by decide) (by decide) (by decide)⟩

/-- In `a`, LF, `b` two names become one. -/
theorem names_joined : ¬ ∀ (bufs : List (List UInt8)) (s : Session) (st st' : MinifyState)
    (b c : UInt8) (gap : List Item), feedAll Flat none .css .start bufs = .ok s →
      Neighbours s st st' b c gap → isName b = true → isName c = true → st ≠ .cssQuote →
        st' ≠ .cssQuote → consumed gap = [] := by
  intro h
  obtain ⟨s, gap, hs, hn, hcons⟩ := neighbours_break
  have hnone := h _ s _ _ _ _ gap hs hn (by decide) (by decide) (by decide) (by decide)
  rw [hcons] at hnone
  exact absurd hnone (by decide)

end NginB.Minify
