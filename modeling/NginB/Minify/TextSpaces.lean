import NginB.Minify.Comments
import NginB.Minify.Partition
import NginB.Minify.Passage

/-! # Spaces of the text

The text state compares a space with `pre_char`. This is the last byte written, whatever has been read
since, but for one case: what it was in front of a conditional comment it stays behind the comment.
-/
namespace NginB.Minify
open NginB.Program Relation Ascii

/-- The last byte written is the `>` that ended a conditional comment. -/
def EndsIe (tr : List Item) : Prop :=
  ∃ l older, tr = l ++ .stack (htmlStack .text) :: .emit .htmlCommentIe gt gt :: older ∧ emitted l = []

/-- What the text state does with spaces agrees with the bytes written before. -/
def BlanksAgree : List Item → Prop
  | [] => True
  | .emit st _ c :: tr => (st = .text → c = space → (emitted tr).head? ≠ some space) ∧ BlanksAgree tr
  | .skip st b :: tr =>
    (st = .text → b = space → (emitted tr).head? = some space ∨ EndsIe tr) ∧ BlanksAgree tr
  | _ :: tr => BlanksAgree tr

structure Ctx.KnowsLast (x : Ctx) (tr : List Item) : Prop where
  complete : endsBlank (emitted tr) = true → x.preChar = space
  sound : x.preChar = space → endsBlank (emitted tr) = true ∨ EndsIe tr

section Traces
variable {l tr newer older : List Item} {x y : Ctx} {b : UInt8} {d : ℕ} {nxt : Next} {r : Routine}

theorem BlanksAgree.of_append (h : BlanksAgree (l ++ tr)) : BlanksAgree tr := by
  induction l with
  | nil => exact h
  | cons i l ih =>
    cases i with
    | emit | skip => exact ih h.2
    | _ => exact ih h

theorem spacesAgree_other (hs : x.state.top ≠ .text) (es : List Ev) : ∀ (u : List UInt8) (tr : List Item),
    BlanksAgree tr → BlanksAgree ((Ev.items x es u).reverse ++ tr) := by
  induction es with
  | nil => exact fun _ _ h => h
  | cons e es ih =>
    intro u tr h
    cases e with
    | skip | copy | put =>
      rw [Ev.items, List.reverse_cons, List.append_assoc]
      exact ih _ _ ⟨fun hst => absurd hst hs, h⟩
    | tag | stack | call =>
      rw [Ev.items, List.reverse_cons, List.append_assoc]
      exact ih _ _ h

theorem endsBlank_iff {out : List UInt8} : endsBlank out = true ↔ out.head? = some space := by
  cases out <;> simp [endsBlank]

theorem EndsIe.append (h : EndsIe tr) (hl : emitted l = []) : EndsIe (l ++ tr) := by
  obtain ⟨l', older, rfl, hl'⟩ := h
  exact ⟨l ++ l', older, by rw [List.append_assoc], by rw [emitted_append, hl, hl']; rfl⟩

/-- As long as nothing is written, `pre_char` stays what it is. -/
theorem Ctx.KnowsLast.silent (h : x.KnowsLast tr) (hl : emitted l = []) (hy : y.preChar = x.preChar) :
    y.KnowsLast (l ++ tr) := by
  constructor
  · rw [emitted_append, hl, hy]
    exact h.complete
  · rw [emitted_append, hl, hy]
    exact fun hp => (h.sound hp).imp_right fun hie => hie.append hl

theorem Ctx.KnowsLast.turn (h : x.KnowsLast tr) {es : List Ev} {u : List UInt8}
    (he : emitted (Ev.items x es u) = []) (hy : y.preChar = x.preChar) :
    y.KnowsLast ((Ev.items x es u).reverse ++ .turn r x u d :: tr) := by
  have hsilent : emitted ((Ev.items x es u).reverse ++ [.turn r x u d]) = [] := by
    rw [emitted_append, emitted_reverse, he]
    rfl
  have hk := h.silent hsilent hy
  rwa [List.append_assoc] at hk

theorem Ctx.KnowsLast.of_iff (h : x.preChar = space ↔ endsBlank (emitted tr) = true) : x.KnowsLast tr :=
  ⟨h.mpr, fun hp => .inl (h.mp hp)⟩

/-- An update of `pre_char` takes the last byte written. -/
theorem Ctx.KnowsLast.ended (h : y.KnowsLast tr) (hd : d ≤ (emitted tr).length) :
    (nxt.ended r d (emitted tr) y).KnowsLast tr := by
  rcases nxt.ended_preChar r y hd with hp | hhead
  · exact ⟨fun hb => hp.trans (h.complete hb), fun hsp => h.sound (hp.symm.trans hsp)⟩
  · apply Ctx.KnowsLast.of_iff
    rw [endsBlank_iff, hhead, Option.some.injEq]

end Traces

/-- The states in which `nochange_pre` is reset. -/
def liveStates : List MinifyState :=
  [.htmlTag, .htmlTagBang, .htmlTagname, .htmlTagatt, .htmlTagnameEnd, .htmlCdata]

/-- The states of a `<!` that may begin a comment, and of comments that are skipped. -/
def silentStates : List MinifyState := [.htmlTagBang, .htmlComment, .htmlCommentSkip]

structure SpaceInv (r : Routine) (x : Ctx) (d : ℕ) (u : List UInt8) (tr : List Item) : Prop where
  live : x.state.top ∈ liveStates → x.nochangePre = false
  comment : inComment x.state.top = true → x.nochangePre = true
  silent : x.state.top ∈ silentStates → x.KnowsLast tr
  /-- the loops of the markup are still to be left -/
  closing : x.state.top = .text → r ≠ .htmlStripBuffer →
    x.nochangePre = true ∧ x.KnowsLast tr ∨ x.nochangePre = false ∧ d ≠ 0
  /-- `</` is ahead where the text state has been set for an end tag -/
  text : x.state.top = .text → r = .htmlStripBuffer → x.KnowsLast tr ∨ lit "</" <+: u

section Rules
variable {x y : Ctx} {r : Routine} {u : List UInt8} {es : List Ev} {nxt : Next} {d : ℕ} {tr : List Item}

theorem HtmlRule.live_kept (h : HtmlRule x r u es y nxt) (hx : x.state.top ∈ liveStates → x.nochangePre = false)
    (hy : y.state.top ∈ liveStates) : y.nochangePre = false := by
  simp only [liveStates] at hx hy
  cases h
  case textTag | textBang => rfl
  all_goals simp_all

theorem HtmlRule.space_comment (h : HtmlRule x r u es y nxt) (hx : SpaceInv r x d u tr)
    (hy : inComment y.state.top = true) : y.nochangePre = true := by
  have hcomment := hx.comment
  cases h
  case bangComment => rfl
  case nameGt => rcases x.nameGt_top with ht | ht <;> simp [ht] at hy
  case attGt => rcases x.attGt_top with ht | ht <;> simp [ht] at hy
  case endGt => rcases x.endGt_top with ht | ht <;> simp [ht] at hy
  case callTagname hs =>
    simp only [List.mem_cons, List.not_mem_nil, or_false] at hs
    rcases hs with hs | hs | hs <;> simp [hs] at hy
  all_goals simp_all

/-- Nothing is written on the way to a skipped comment and in it. -/
theorem HtmlRule.space_silent (h : HtmlRule x r u es y nxt) (hx : SpaceInv r x d u tr) (hy : y.cache = [])
    (hst : y.state.top ∈ silentStates) :
    emitted (Ev.items x es u) = [] ∧ y.preChar = x.preChar ∧ x.KnowsLast tr := by
  have hsilent := hx.silent
  simp only [silentStates, List.mem_cons, List.not_mem_nil, or_false] at hsilent hst
  cases h
  case textBang hs =>
    rcases hx.text hs rfl with hk | hpre
    · exact ⟨rfl, rfl, hk⟩
    · simp at hpre
  case nameGt => rcases x.nameGt_top with ht | ht <;> simp [ht] at hst
  case attGt => rcases x.attGt_top with ht | ht <;> simp [ht] at hst
  case endGt => rcases x.endGt_top with ht | ht <;> simp [ht] at hst
  case callTagname hs =>
    simp only [List.mem_cons, List.not_mem_nil, or_false] at hs
    rcases hs with hs | hs | hs <;> simp [hs] at hst
  all_goals simp_all

/-- Back in the text, while the loops of the markup are still to be left. -/
theorem HtmlRule.space_closing (h : HtmlRule x r u es y nxt) (hx : SpaceInv r x d u tr) (hy : y.cache = [])
    (hst : y.state.top = .text) (hr : htmlTarget r nxt ≠ .htmlStripBuffer) :
    y.nochangePre = true ∧ y.KnowsLast ((Ev.items x es u).reverse ++ .turn r x u d :: tr) ∨
      y.nochangePre = false ∧ d + (emitted (Ev.items x es u)).length ≠ 0 := by
  have hlive := hx.live
  have hcomment := hx.comment
  cases h
  case nameLeave hs | commentLeave hs =>
    rcases hx.closing hs (by simp) with ⟨hno, hk⟩ | hzero
    · exact .inl ⟨hno, hk.turn rfl rfl⟩
    · exact .inr hzero
  case nameGt hs =>
    obtain ⟨st, t, -, he⟩ := x.nameGt_eq
    rw [he]
    exact .inr ⟨hlive (by simp [hs, liveStates]), by simp⟩
  case attGt hs =>
    obtain ⟨st, -, he⟩ := x.attGt_eq
    rw [he]
    exact .inr ⟨hlive (by simp [hs, liveStates]), by simp⟩
  case endGt hs =>
    obtain ⟨st, t, v, -, he⟩ := x.endGt_eq
    rw [he]
    refine .inr ⟨hlive (by simp [hs, liveStates]), ?_⟩
    split <;> simp
  case bangNine hs _ _ => exact .inr ⟨hlive (by simp [hs, liveStates]), by simp [List.replicate]⟩
  case cdataClose hs => exact .inr ⟨hlive (by simp [hs, liveStates]), by simp⟩
  case ieClose t hs =>
    refine .inl ⟨hcomment (by simp [hs]), ⟨fun hb => by simp at hb, fun _ => .inr ?_⟩⟩
    refine ⟨[], .emit .htmlCommentIe dash dash :: .emit .htmlCommentIe dash dash ::
      .emit .htmlCommentIe rbracket rbracket :: .turn .htmlStripComment x (lit "]-->" ++ t) d :: tr, ?_, rfl⟩
    simp [hs]
  case skipClose t hs =>
    have hk := hx.silent (by simp [hs, silentStates])
    exact .inl ⟨hcomment (by simp [hs]), hk.turn rfl rfl⟩
  all_goals simp_all [htmlTarget, htmlCallers]

theorem SpaceInv.left {r' : Routine} (hx : SpaceInv r x d u tr) (hn : ∀ r', nxt ≠ .call r')
    (hd : d ≤ (emitted tr).length) (hst : x.state.top = .text) (hr : r ≠ .htmlStripBuffer)
    (hr' : r'.refreshes = true) : (nxt.ended r' d (emitted tr) x).KnowsLast tr := by
  rcases hx.closing hst hr with ⟨-, hk⟩ | ⟨hno, hzero⟩
  · exact hk.ended hd
  · exact .of_iff (ended_blank hr' hn hno hzero hd)

theorem HtmlRule.space_text (h : HtmlRule x r u es y nxt) (hx : SpaceInv r x d u tr) (hy : y.cache = [])
    (hd : d ≤ (emitted tr).length) (hst : y.state.top = .text) (hr : htmlTarget r nxt = .htmlStripBuffer) :
    (nxt.ended .htmlStripBuffer (d + (emitted (Ev.items x es u)).length)
        (emitted ((Ev.items x es u).reverse ++ .turn r x u d :: tr)) y).KnowsLast
          ((Ev.items x es u).reverse ++ .turn r x u d :: tr) ∨ lit "</" <+: u.drop (Ev.takes es) := by
  have hknown : ∀ {b t}, u = b :: t → x.state.top = .text → r = .htmlStripBuffer → b ≠ lt → x.KnowsLast tr := by
    intro b t hu hs hr hb
    rcases hx.text hs hr with hk | hpre
    · exact hk
    · rw [hu] at hpre
      exact absurd (List.cons_prefix_cons.mp hpre).1.symm hb
  cases h
  case tagLeave hs =>
    have hleft : (Next.leave.ended .htmlStripBuffer d (emitted tr) x).KnowsLast tr :=
      hx.left (by simp) hd hst (by simp) rfl
    exact .inl (hleft.silent (l := [.turn _ x u d]) rfl rfl)
  case elementEnd t hs => exact .inr ⟨t, rfl⟩
  case textBreak b t hs hb =>
    have hk := hknown rfl hs rfl (by rcases hb with rfl | rfl | rfl <;> decide)
    exact .inl (Ctx.KnowsLast.ended (hk.turn rfl rfl) (by simp; omega))
  case textSpace t hs hp =>
    have hk := hknown rfl hs rfl (by decide)
    exact .inl (Ctx.KnowsLast.ended (hk.turn rfl rfl) (by simp; omega))
  case textByte b t hs hb hp =>
    have hpos : d + (emitted (Ev.items x [.copy] (b :: t))).length ≠ 0 := by simp
    exact .inl (.of_iff (ended_blank rfl (by simp) rfl hpos (by simp; omega)))
  all_goals simp_all [htmlTarget, htmlCallers]

theorem SpaceInv.turn (hx : SpaceInv r x d u tr) (h : HtmlRule x r u es y nxt) (hy : y.cache = [])
    (hd : d ≤ (emitted tr).length) :
    SpaceInv (htmlTarget r nxt) (nxt.ended (htmlTarget r nxt) (d + (emitted (Ev.items x es u)).length)
        (emitted ((Ev.items x es u).reverse ++ .turn r x u d :: tr)) y) (d + (emitted (Ev.items x es u)).length)
      (u.drop (Ev.takes es)) ((Ev.items x es u).reverse ++ .turn r x u d :: tr) := by
  have hd' : d + (emitted (Ev.items x es u)).length ≤
      (emitted ((Ev.items x es u).reverse ++ .turn r x u d :: tr)).length := by
    rw [emitted_append, emitted_reverse, emitted_cons, List.length_append, List.length_reverse]
    simp only [Item.emitted, List.nil_append]
    omega
  constructor
  · intro hst
    rw [Next.ended_state] at hst
    rw [Next.ended_nochangePre]
    exact h.live_kept hx.live hst
  · intro hst
    rw [Next.ended_state] at hst
    rw [Next.ended_nochangePre]
    exact h.space_comment hx hst
  · intro hst
    rw [Next.ended_state] at hst
    obtain ⟨hnil, hpre, hk⟩ := h.space_silent hx hy hst
    exact (hk.turn hnil hpre).ended hd'
  · intro hst hr
    rw [Next.ended_state] at hst
    rw [Next.ended_nochangePre]
    exact (h.space_closing hx hy hst hr).imp_left fun hk => ⟨hk.1, hk.2.ended hd'⟩
  · intro hst hr
    rw [Next.ended_state] at hst
    have htext := h.space_text hx hy hd hst hr
    rwa [hr]

/-- What holding back all unread bytes makes of it. -/
theorem SpaceInv.hold (hx : SpaceInv r x d u tr) {a : List UInt8} (h : HtmlRule x r u (Ev.holds a u) y .again)
    (hy : x.Held u y) (hd : d ≤ (emitted tr).length) :
    SpaceInv r (Next.again.ended r d (emitted tr) y) d u (.cacheCall a 0 u :: .turn r x u d :: tr) := by
  have hpre : y.preChar = x.preChar := by cases hy <;> rfl
  have hknows : x.KnowsLast tr →
      (Next.again.ended r d (emitted tr) y).KnowsLast (.cacheCall a 0 u :: .turn r x u d :: tr) := by
    intro hk
    have hy' : y.KnowsLast tr := hk.silent (l := []) rfl hpre
    exact (hy'.ended hd).silent (l := [.cacheCall a 0 u, .turn r x u d]) rfl rfl
  have hfreeze : y.nochangePre = x.nochangePre ∨ y.nochangePre = false ∧ x.state.top = .text := by
    cases hy with
    | plain => exact .inl rfl
    | text hs => exact .inr ⟨rfl, hs⟩
  constructor
  · intro hst
    rw [Next.ended_state, hy.state] at hst
    rw [Next.ended_nochangePre]
    rcases hfreeze with hno | ⟨hno, -⟩
    · rw [hno]
      exact hx.live hst
    · exact hno
  · intro hst
    rw [Next.ended_state, hy.state] at hst
    rw [Next.ended_nochangePre]
    rcases hfreeze with hno | ⟨-, hs⟩
    · rw [hno]
      exact hx.comment hst
    · simp [hs] at hst
  · intro hst
    rw [Next.ended_state, hy.state] at hst
    exact hknows (hx.silent hst)
  · intro hst hr
    rw [Next.ended_state, hy.state] at hst
    exact absurd (h.back hst hr).1 (List.cons_ne_nil _ _)
  · intro hst hr
    rw [Next.ended_state, hy.state] at hst
    exact (hx.text hst hr).imp_left hknows

theorem SpaceInv.done {r' : Routine} {k : List Routine} (hx : SpaceInv r x d u tr) (hk : htmlCallers r = r' :: k)
    (hd : d ≤ (emitted tr).length) : SpaceInv r' (Next.again.ended r' d (emitted tr) x) d u tr := by
  have hr : r ≠ .htmlStripBuffer := by
    rintro rfl
    cases hk
  constructor
  · intro hst
    rw [Next.ended_state] at hst
    rw [Next.ended_nochangePre]
    exact hx.live hst
  · intro hst
    rw [Next.ended_state] at hst
    rw [Next.ended_nochangePre]
    exact hx.comment hst
  · intro hst
    rw [Next.ended_state] at hst
    exact (hx.silent hst).ended hd
  · intro hst _
    rw [Next.ended_state] at hst
    rw [Next.ended_nochangePre]
    exact (hx.closing hst hr).imp_left fun h => ⟨h.1, h.2.ended hd⟩
  · intro hst hr'
    rw [Next.ended_state] at hst
    exact .inl (hx.left (by simp) hd hst hr (by rw [hr']; rfl))

/-- The spaces that an iteration of the text state reads. -/
theorem HtmlRule.spaces (h : HtmlRule x r u es y nxt) (hx : SpaceInv r x d u tr) (htr : BlanksAgree tr) :
    BlanksAgree ((Ev.items x es u).reverse ++ .turn r x u d :: tr) := by
  have hturn : BlanksAgree (.turn r x u d :: tr) := htr
  have hknown : ∀ {t}, u = space :: t → x.state.top = .text → r = .htmlStripBuffer → x.KnowsLast tr := by
    intro t hu hs hr
    rcases hx.text hs hr with hk | hpre
    · exact hk
    · rw [hu] at hpre
      exact absurd (List.cons_prefix_cons.mp hpre).1.symm (by decide)
  by_cases hs : x.state.top = .text
  · cases h
    case textBreak b t _ hb =>
      refine ⟨fun _ hsp => ?_, hturn⟩
      obtain rfl : b = space := hsp
      exact absurd hb (by decide)
    case textSpace t _ hp =>
      refine ⟨fun _ _ => ?_, hturn⟩
      have hk := hknown rfl hs rfl
      rcases hk.sound hp with hb | hie
      · exact .inl (endsBlank_iff.mp hb)
      · exact .inr (hie.append (l := [.turn _ x _ d]) rfl)
    case textByte b t _ _ hp =>
      refine ⟨fun _ hsp hlast => hp ?_, hturn⟩
      obtain rfl : b = space := hsp
      exact ⟨rfl, (hknown rfl hs rfl).complete (endsBlank_iff.mpr hlast)⟩
    case textTag =>
      have hne : lt ≠ space := by decide
      exact ⟨fun _ hsp => absurd hsp hne, hturn⟩
    case textHoldBang | textHold => simp_all [BlanksAgree]
    all_goals first | exact hturn | simp_all
  · exact spacesAgree_other hs es u _ hturn

end Rules

theorem spaceInv : TraceInv htmlMachine fun v =>
    SpaceInv v.r v.ctx v.dstlen v.pending v.trace ∧ BlanksAgree v.trace where
  start := by
    refine ⟨⟨fun _ => rfl, fun hst => absurd hst (by decide), fun hst => absurd hst (by decide), fun _ hr => absurd rfl hr,
      fun _ _ => .inl ⟨nofun, fun hp => absurd hp (by decide)⟩⟩, trivial⟩
  next {v} buf _ h hr := by
    obtain ⟨hx, htr⟩ := h
    have hknows : v.ctx.KnowsLast v.trace → (v.ctx.hold []).KnowsLast (.buffer :: v.trace) :=
      fun hk => hk.silent (l := [.buffer]) rfl rfl
    refine ⟨⟨hx.live, hx.comment, fun hst => hknows (hx.silent hst), fun _ hr' => absurd rfl hr', fun hst _ => ?_⟩, htr⟩
    exact (hx.text hst hr).imp hknows fun hpre => hpre.trans (List.prefix_append _ buf)
  turn {v es y nxt k k' r' d tr} hv h hc hy hrule hgo hk hd htr := by
    have hrule' : HtmlRule v.ctx v.r v.pending es y nxt := hrule
    obtain ⟨rfl, -⟩ := hrule'.goes (hv.fit hc) hk hgo
    subst htr hd
    exact ⟨h.1.turn hrule' hy hv.dstlen_le, hrule'.spaces h.1 h.2⟩
  hold a hv h _ hrule hy := ⟨h.1.hold hrule hy hv.dstlen_le, h.2⟩
  done {v k r'} hv h hk := by
    have hcallers : r' :: k = htmlCallers v.r := hk
    exact ⟨h.1.done hcallers.symm hv.dstlen_le, h.2⟩

/-- Whenever the text state emits a space, the byte written before is none; whenever it drops a space, that
byte is a space or the `>` that ended a conditional comment. -/
theorem text_spaces {cap : Option ℕ} {bufs : List (List UInt8)} {s : Session}
    (h : feedAll Flat cap .html .start bufs = .ok s) :
    (∀ newer b older, s.trace = newer ++ .emit .text b space :: older → (emitted older).head? ≠ some space) ∧
      ∀ newer older, s.trace = newer ++ .skip .text space :: older →
        (emitted older).head? = some space ∨ EndsIe older := by
  obtain ⟨c, hreach, -, rfl, -⟩ := feedAll_ok h
  have hagree : BlanksAgree c.settled := (spaceInv.reach hreach).2
  constructor
  · intro newer b older htr
    have htr' : c.settled = newer ++ .emit .text b space :: older := htr
    rw [htr'] at hagree
    exact hagree.of_append.1 rfl rfl
  · intro newer older htr
    have htr' : c.settled = newer ++ .skip .text space :: older := htr
    rw [htr'] at hagree
    exact hagree.of_append.1 rfl rfl

/-- The second space of the page `a`, cut behind the first one, is dropped. -/
theorem text_spaces_cut : ∃ s older, feedAll Flat none .html .start [lit "a ", lit " "] = .ok s ∧
    s.trace = .skip .text space :: older ∧ ((emitted older).head? = some space ∨ EndsIe older) := by
  obtain ⟨s, hs, hhead⟩ : ∃ s, feedAll Flat none .html .start [lit "a ", lit " "] = .ok s ∧
      s.trace.head? = some (.skip .text space) := exists_run (by decide)
  obtain ⟨older, htr⟩ := List.head?_eq_some_iff.mp hhead
  exact ⟨s, older, hs, htr, (text_spaces hs).2 [] older htr⟩

end NginB.Minify
