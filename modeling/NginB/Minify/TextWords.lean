import NginB.Minify.Passage
import NginB.Program.Words

/-! # The words of page text

In the text of a page TABs, CRs and LFs are dropped, and spaces behind a space that has been
written. Two words stay apart just when one of the bytes between them is a space.
-/
namespace NginB.Minify
open NginB.Program Relation Ascii

inductive TextTurn (x y : Ctx) (nxt : Next) : Routine → List UInt8 → List Ev → Prop
  | none {r u} (hs : y.state = x.state) (hp : y.preChar = x.preChar) : TextTurn x y nxt r u []
  | drop {b t} (hb : b = lf ∨ b = cr ∨ b = tab ∨ b = space ∧ x.preChar = space)
      (hy : y = x.freeze false) : TextTurn x y nxt .htmlStripBuffer (b :: t) [.skip]
  | copy {b t} (hb : b ≠ lf ∧ b ≠ cr ∧ b ≠ tab) (hp : ¬ (b = space ∧ x.preChar = space))
      (hy : y = x.freeze false) (hn : nxt = .again) :
      TextTurn x y nxt .htmlStripBuffer (b :: t) [.copy]
  | markup {r t es} : TextTurn x y nxt r (lt :: t) es

theorem HtmlRule.textTurn {x y : Ctx} {r : Routine} {u : List UInt8} {es : List Ev} {nxt : Next}
    (h : HtmlRule x r u es y nxt) (hs : x.state.top = .text) : TextTurn x y nxt r u es := by
  cases h
  case textBreak hb => exact .drop (by tauto) rfl
  case textSpace hp => exact .drop (by tauto) rfl
  case textByte hb hp => exact .copy ⟨hb.1, hb.2.1, hb.2.2.1⟩ hp rfl rfl
  case textTag | textBang | textHoldBang | textHold => exact .markup
  case nameLeave | commentLeave | tagLeave => exact .none rfl rfl
  all_goals simp_all

/-- The text `t` has been read, by the items of some stretch of the trace, and it is squeezed. -/
def TextRead (t : List UInt8) (l : List Item) : Prop :=
  ∃ after mid, l = after ++ mid ∧ (consumed mid).reverse = t ∧
    Squeezes isBlank space t (emitted mid).reverse

theorem TextRead.append {t : List UInt8} {l : List Item} (h : TextRead t l) (l' : List Item) :
    TextRead t (l' ++ l) := by
  obtain ⟨after, mid, rfl, hmid⟩ := h
  exact ⟨l' ++ after, mid, by rw [List.append_assoc], hmid⟩

inductive TextPhase (t q : List UInt8) (c : Ctx) (u fut : List UInt8) (l : List Item) : Prop
  | reading (w₁ w₂ : List UInt8) (ht : t = w₁ ++ w₂) (hne : w₂ ≠ []) (hs : c.state.top = .text)
      (hc : c.cache = []) (hp : u ++ fut = w₂ ++ q) (hl : (consumed l).reverse = w₁)
      (hpre : emitted l ≠ [] → (emitted l).headD 0 = c.preChar)
      (hw : Squeezes isBlank space w₁ (emitted l).reverse)
  | read (h : TextRead t l)

section Phases
variable {t q : List UInt8} {c y : Ctx} {r r' : Routine} {u fut w₁ w₂ old : List UInt8} {es : List Ev}
  {nxt : Next} {l : List Item} {d : ℕ} {b : UInt8}

theorem TextPhase.of_reading (w₁ w₂ : List UInt8) (ht : t = w₁ ++ w₂) (hs : c.state.top = .text) (hc : c.cache = [])
    (hp : u ++ fut = w₂ ++ q) (hl : (consumed l).reverse = w₁)
    (hpre : emitted l ≠ [] → (emitted l).headD 0 = c.preChar)
    (hw : Squeezes isBlank space w₁ (emitted l).reverse) : TextPhase t q c u fut l := by
  by_cases hne : w₂ = []
  · subst hne
    rw [List.append_nil] at ht
    subst ht
    exact .read ⟨[], l, rfl, hl, hw⟩
  · exact .reading w₁ w₂ ht hne hs hc hp hl hpre hw

/-- The newest byte written in the text stays the newest when `pre_char` is updated. -/
theorem ended_text (hpre : emitted l ≠ [] → (emitted l).headD 0 = y.preChar) :
    emitted l ≠ [] → (emitted l).headD 0 = (nxt.ended r d (emitted l ++ old) y).preChar := by
  intro hne
  rcases nxt.ended_pre r d (emitted l ++ old) y with he | he
  · rw [he]
    exact hpre hne
  · rw [he]
    cases hl : emitted l with
    | nil => exact absurd hl hne
    | cons a out => rfl

theorem head_of_append {t' : List UInt8} (hne : w₂ ≠ []) (hp : b :: t' ++ fut = w₂ ++ q) :
    ∃ w, w₂ = b :: w ∧ t' ++ fut = w ++ q := by
  cases w₂ with
  | nil => exact absurd rfl hne
  | cons a w =>
    obtain ⟨rfl, ht⟩ := List.cons.inj hp
    exact ⟨w, rfl, ht⟩

theorem TextPhase.turn (h : TextPhase t q c u fut l) (ht : lt ∉ t) (hrule : HtmlRule c r u es y nxt)
    (hgo : ∃ k k', nxt.Goes r k r' k') (hy : y.cache = []) :
    TextPhase t q (nxt.ended r' (d + (emitted (Ev.items c es u)).length)
        (emitted ((Ev.items c es u).reverse ++ .turn r c u d :: l) ++ old) y)
      (u.drop (Ev.takes es)) fut ((Ev.items c es u).reverse ++ .turn r c u d :: l) := by
  cases h with
  | reading w₁ w₂ hw' hne hs hc hp hl hpre hw =>
    have hturn := hrule.textTurn hs
    have hhead {b : UInt8} {t' : List UInt8} (hu : u = b :: t') : ∃ w, w₂ = b :: w ∧ t' ++ fut = w ++ q :=
      head_of_append hne (hu ▸ hp)
    have hlast : (emitted l).reverse.getLast? = some space ↔ emitted l ≠ [] ∧ c.preChar = space := by
      rw [List.getLast?_reverse]
      cases hout : emitted l with
      | nil => simp
      | cons a out =>
        have ha : a = c.preChar := by simpa [hout] using hpre
        simp [ha]
    cases hturn with
    | none hs' hp' =>
      refine .reading w₁ w₂ hw' hne (by rw [Next.ended_state, hs', hs]) (by rw [Next.ended_cache, hy]) hp hl ?_ hw
      exact ended_text fun hne => (hpre hne).trans hp'.symm
    | @drop b t' hb hy' =>
      obtain ⟨w, rfl, hp'⟩ := hhead rfl
      have hblank : isBlank b = true := by rcases hb with rfl | rfl | rfl | ⟨rfl, -⟩ <;> rfl
      have hdrop : b ≠ space ∨ (emitted l).reverse = [] ∨ (emitted l).reverse.getLast? = some space := by
        rw [hlast]
        rcases hb with rfl | rfl | rfl | ⟨rfl, hp'⟩
        · exact .inl (by decide)
        · exact .inl (by decide)
        · exact .inl (by decide)
        · by_cases hnil : emitted l = []
          · exact .inr (.inl (by rw [hnil]; rfl))
          · exact .inr (.inr ⟨hnil, hp'⟩)
      refine .of_reading (w₁ ++ [b]) w (by rw [hw', List.append_assoc]; rfl) ?_ ?_ hp' ?_ ?_ ?_
      · rw [Next.ended_state, hy']
        exact hs
      · rw [Next.ended_cache, hy]
      · simpa using hl
      · refine ended_text (l := _ ++ .turn .htmlStripBuffer c (b :: t') d :: l) ?_
        rw [hy']
        exact hpre
      · exact hw.drop hblank hdrop
    | @copy b t' hb hp' hy' hn =>
      obtain ⟨w, rfl, hrest⟩ := hhead rfl
      subst hn
      obtain ⟨k, k', hgo⟩ := hgo
      cases hgo
      refine .of_reading (w₁ ++ [b]) w (by rw [hw', List.append_assoc]; rfl) ?_ ?_ hrest ?_ ?_ ?_
      · rw [Next.ended_state, hy']
        exact hs
      · rw [Next.ended_cache, hy]
      · simpa using hl
      · intro _
        rw [hy']
        simp [Next.ended, Routine.refreshes, Ctx.refreshed]
      · by_cases hsp : b = space
        · subst hsp
          have hkeep := hw.keep rfl fun hs' => hp' ⟨rfl, (hlast.mp hs').2⟩
          simpa using hkeep
        · have hsolid : isBlank b = false := by simp_all [isBlank]
          simpa using hw.solid hsolid
    | @markup _ t' _ =>
      obtain ⟨w, rfl, -⟩ := hhead rfl
      exact absurd (by rw [hw']; simp) ht
  | read h =>
    have happ := h.append ((Ev.items c es u).reverse ++ [.turn r c u d])
    rw [List.append_assoc] at happ
    exact .read happ

theorem TextPhase.hold (h : TextPhase t q c u fut l) (ht : lt ∉ t) {a : List UInt8} {y' : Ctx}
    (hrule : HtmlRule c r u (Ev.holds a u) y .again) :
    TextPhase t q y' u fut (.cacheCall a 0 u :: .turn r c u d :: l) := by
  generalize hes : Ev.holds a u = es at hrule
  cases h with
  | reading w₁ w₂ hw' hne hs hc hp hl hpre hw =>
    have hturn := hrule.textTurn hs
    cases hturn with
    | markup =>
      obtain ⟨w, rfl, -⟩ := head_of_append hne hp
      exact absurd (by rw [hw']; simp) ht
    | none | drop | copy => cases hes
  | read h => exact .read (h.append [.cacheCall a 0 u, .turn r c u d])

end Phases

theorem textPassage {t : List UInt8} (q : List UInt8) (ht : lt ∉ t) :
    Passage htmlMachine (fun x page => x.state.top = .text ∧ page = t ++ q)
      fun _ _ c u fut l => TextPhase t q c u fut l where
  start h _ hc := .of_reading [] _ rfl h.1 hc h.2 rfl (fun hne => absurd rfl hne) .nil
  next {x c page u buf fut l} h := by
    cases h with
    | reading w₁ w₂ hw' hne hs hc hp hl hpre hw =>
      exact .reading w₁ w₂ hw' hne hs rfl (by rw [List.append_assoc]; exact hp) hl hpre hw
    | read h => exact .read (h.append [.buffer])
  turn {x c y page u fut l r r' d es nxt k k'} old h _ hy _ hrule hgo := h.turn ht hrule ⟨k, k', hgo⟩ hy
  hold {x c y page u fut l r d} a old h _ _ hrule _ := h.hold ht hrule
  done {x c page u fut l r d} old h := by
    cases h with
    | reading w₁ w₂ hw' hne hs hc hp hl hpre hw =>
      exact .reading w₁ w₂ hw' hne (by rwa [Next.ended_state]) (by rwa [Next.ended_cache]) hp hl
        (ended_text hpre) hw
    | read h => exact .read h

/-- A run of page text `t`, which the text state comes upon, is written with the same words just when
every white space between two of its words has a space. -/
theorem text_words_iff {cap : Option ℕ} {bufs : List (List UInt8)} {s : Session}
    (h : feedAll Flat cap .html .start bufs = .ok s) {newer older : List Item} {r : Routine} {x : Ctx}
    {u t q : List UInt8} {d : ℕ} (htr : s.trace = newer ++ .turn r x u d :: older)
    (hs : x.state.top = .text) (hpage : (consumed newer).reverse ++ s.ctx.cache = t ++ q) (ht : lt ∉ t) :
    ∃ after mid, newer ++ [.turn r x u d] = after ++ mid ∧ (consumed mid).reverse = t ∧
      (words isBlank (emitted mid).reverse = words isBlank t ↔ Separated isBlank space t) := by
  have hpassage : Passage (machine .html) _ _ := textPassage q ht
  have hphase : TextPhase t q s.ctx s.ctx.cache [] (newer ++ [.turn r x u d]) :=
    hpassage.session h htr hpage ⟨hs, rfl⟩
  cases hphase with
  | reading w₁ w₂ _ hne _ hc hp =>
    rw [hc] at hp
    exact absurd hp.symm (List.append_ne_nil_of_left_ne_nil hne q)
  | read hread =>
    obtain ⟨after, mid, he, hmid, hw⟩ := hread
    exact ⟨after, mid, he, hmid, hw.words_iff rfl⟩

/-- The text `a b` in two buffers. -/
theorem text_words_iff_a : ∃ s newer, feedAll Flat none .html .start [lit "a ", lit "b"] = .ok s ∧
    ∃ after mid, newer ++ [.turn .htmlStripBuffer Ctx.zero (lit "a ") 0] = after ++ mid ∧
      (consumed mid).reverse = lit "a b" ∧
      (words isBlank (emitted mid).reverse = words isBlank (lit "a b") ↔
        Separated isBlank space (lit "a b")) := by
  obtain ⟨s, newer, older, hs, htr, hpage⟩ : ∃ s newer older,
      feedAll Flat none .html .start [lit "a ", lit "b"] = .ok s ∧
        s.trace = newer ++ .turn .htmlStripBuffer Ctx.zero (lit "a ") 0 :: older ∧
        (consumed newer).reverse ++ s.ctx.cache = lit "a b" ++ [] := exists_turn (n := 6) (by decide)
  exact ⟨s, newer, hs, text_words_iff hs htr rfl hpage (by decide)⟩

/-- The LF between the words of the page is dropped. -/
theorem text_words_joined : ¬ ∀ (bufs : List (List UInt8)) (s : Session) (newer older : List Item)
    (r : Routine) (x : Ctx) (u t q : List UInt8) (d : ℕ), feedAll Flat none .html .start bufs = .ok s →
      s.trace = newer ++ .turn r x u d :: older → x.state.top = .text →
      (consumed newer).reverse ++ s.ctx.cache = t ++ q → lt ∉ t →
      ∃ after mid, newer ++ [.turn r x u d] = after ++ mid ∧ (consumed mid).reverse = t ∧
        words isBlank (emitted mid).reverse = words isBlank t := by
  intro h
  obtain ⟨s, newer, older, hs, htr, hpage⟩ : ∃ s newer older,
      feedAll Flat none .html .start [[97, lf, 98]] = .ok s ∧
        s.trace = newer ++ .turn .htmlStripBuffer Ctx.zero [97, lf, 98] 0 :: older ∧
        ((consumed newer).reverse ++ s.ctx.cache, emitted newer) = ([97, lf, 98] ++ [], [98, 97]) :=
    exists_turn (n := 5) (by decide)
  obtain ⟨hpage, hout⟩ := Prod.mk.inj hpage
  obtain ⟨after, mid, he, hmid, hw⟩ := h _ s newer older _ _ _ _ _ _ hs htr rfl hpage (by decide)
  have hsplit : emitted after ++ emitted mid = [98, 97] := by
    have hemitted := congrArg emitted he
    rw [emitted_append, emitted_append, hout] at hemitted
    exact hemitted.symm
  have hword : words isBlank (emitted mid).reverse ≠ words isBlank [97, lf, 98] := by
    rcases List.append_eq_cons_iff.mp hsplit with ⟨-, hmid⟩ | ⟨v, -, hmid⟩
    · rw [hmid]
      decide
    · rcases List.append_eq_cons_iff.mp hmid.symm with ⟨-, hmid⟩ | ⟨w, -, hmid⟩
      · rw [hmid]
        decide
      · rw [(List.append_eq_nil_iff.mp hmid.symm).2]
        decide
  exact hword hw

end NginB.Minify
