import NginB.Minify.Comments
import NginB.Minify.Reader
import NginB.Program.Occurrence

/-! # Conditional comments

`html_state_comment_ie` copies four bytes at once where it meets a `]`, and passes over a `]` that
comes with the last bytes of a buffer. A conditional comment stays as it is just when no `]` of it
is passed over and none of these steps runs into the closing `]-->`.
-/
namespace NginB.Minify
open NginB.Program Relation Ascii

/-- Single bytes other than `]`, and groups of four bytes of which the first is a `]`. -/
def bracketFours : List UInt8 → Bool
  | [] => true
  | b :: w =>
    if b = rbracket then
      match w with
      | _ :: _ :: _ :: w' => bracketFours w'
      | _ => false
    else bracketFours w

theorem bracketFours_byte {b : UInt8} (hb : b ≠ rbracket) (w : List UInt8) :
    bracketFours (b :: w) = bracketFours w := by
  rw [bracketFours.eq_def]
  exact if_neg hb

theorem bracketFours_short {w : List UInt8} (h : w.length < 3) : bracketFours (rbracket :: w) = false := by
  rw [bracketFours.eq_def]
  rcases w with _ | ⟨a, _ | ⟨b, _ | ⟨c, w⟩⟩⟩
  · rfl
  · rfl
  · rfl
  · simp only [List.length_cons] at h
    omega

theorem bracketFours_four (a b c : UInt8) (w : List UInt8) :
    bracketFours (rbracket :: a :: b :: c :: w) = bracketFours w := by
  rw [bracketFours.eq_def]
  exact if_pos rfl

theorem bracketFours_opened (w : List UInt8) : bracketFours (lit "<!--[if" ++ w) = bracketFours w := by
  have h (b : UInt8) (hb : b ≠ rbracket) (w : List UInt8) := bracketFours_byte hb w
  rw [lit_commentIf, List.cons_append, h 60 (by decide), List.cons_append, h 33 (by decide),
    List.cons_append, h 45 (by decide), List.cons_append, h 45 (by decide), List.cons_append,
    h 91 (by decide), List.cons_append, h 105 (by decide), List.cons_append, h 102 (by decide)]
  rfl

def conditional (w : List UInt8) : List UInt8 := lit "<!--[if" ++ (w ++ lit "]-->")

/-- An iteration that passes over a `]`: it comes with the last bytes of a buffer, and these are not
the beginning of `]-->`. -/
def BracketLost (r : Routine) (x : Ctx) (u : List UInt8) : Prop :=
  r = .htmlStripComment ∧ x.state.top = .htmlCommentIe ∧ u.head? = some rbracket ∧ u.length < 4 ∧
    ¬ u <+: lit "]-->"

instance (r : Routine) (x : Ctx) (u : List UInt8) : Decidable (BracketLost r x u) :=
  inferInstanceAs (Decidable (_ ∧ _ ∧ _ ∧ _ ∧ _))

/-- The same inside a comment of `n` bytes. -/
def LostBefore (n : ℕ) (r : Routine) (x : Ctx) (u : List UInt8) (_ : ℕ) (older : List Item) : Prop :=
  (consumed older).length < n → ¬ BracketLost r x u

instance (n : ℕ) (r : Routine) (x : Ctx) (u : List UInt8) (d : ℕ) (older : List Item) :
    Decidable (LostBefore n r x u d older) := inferInstanceAs (Decidable (_ → ¬ _))

/-- The items read the bytes of the comment and write the same ones. -/
structure Verbatim (c : List UInt8) (l : List Item) : Prop where
  read : consumed l = c.reverse
  written : emitted l = c.reverse

/-- The text state reads on behind the comment `c`, which has been written as it was. -/
def BehindVerbatim (c : List UInt8) (l : List Item) : Prop :=
  ∃ after r y u d mid, l = after ++ .turn r y u d :: mid ∧ y.state.top = .text ∧ Verbatim c mid

inductive IeTurn (x y : Ctx) : Routine → List UInt8 → List Ev → Prop
  | call {r u} (hr : r ≠ .htmlStripComment) (hy : y.state = x.state) : IeTurn x y r u []
  | close {t} (hy : y.state.top = .text) : IeTurn x y .htmlStripComment (lit "]-->" ++ t)
      [.copy, .copy, .copy, .copy, .stack (htmlStack .text)]
  | four {a b c t} (hn : [a, b, c] ≠ lit "-->") (hy : y.state = x.state) :
      IeTurn x y .htmlStripComment (rbracket :: a :: b :: c :: t) [.copy, .copy, .copy, .copy]
  | miss {t} (ht : t.length < 3) (hn : ¬ rbracket :: t <+: lit "]-->") (hy : y.state = x.state) :
      IeTurn x y .htmlStripComment (rbracket :: t) [.call (lit "]-->"), .skip]
  | byte {b t} (hb : b ≠ rbracket) (hy : y.state = x.state) :
      IeTurn x y .htmlStripComment (b :: t) [.copy]
  | holds {t} (ht : t.length < 3) (hp : rbracket :: t <+: lit "]-->") (hy : x.Held (rbracket :: t) y) :
      IeTurn x y .htmlStripComment (rbracket :: t) (Ev.holds (lit "]-->") (rbracket :: t))

def ieOpening : List MinifyState := [.text, .htmlTagBang, .htmlComment]

section Rules
variable {x y : Ctx} {r : Routine} {u fut q : List UInt8} {es : List Ev} {nxt : Next}

theorem HtmlRule.ieTurn (h : HtmlRule x r u es y nxt) (hs : x.state.top = .htmlCommentIe) :
    IeTurn x y r u es := by
  cases h
  case ieClose => exact .close (by simp)
  case ieFour hn => exact .four hn rfl
  case ieHold ht hc => exact .holds ht (prefix_of_cacheable (by decide +kernel) hc) .plain
  case ieMiss ht hc =>
    refine .miss ht (fun hp => ?_) rfl
    rw [cacheable_of_le hp] at hc
    cases hc
  case ieByte hb => exact .byte hb rfl
  case callTag | callComment => exact .call (by decide) rfl
  all_goals simp_all

/-- Before a conditional comment nothing is read; the bytes there are may be held back. -/
theorem HtmlRule.ieOpens (h : HtmlRule x r u es y nxt) (hs : x.state.top ∈ ieOpening)
    (hu : u ++ fut = lit "<!--[if" ++ q) :
    (∃ l : List StateStack, es = l.map .stack ∧
      (y.state.top ∈ ieOpening ∨ y.state.top = .htmlCommentIe)) ∨
    u ≠ [] ∧ y.cache = u ∧ u.length < 7 ∧ y.state = x.state := by
  simp only [ieOpening, List.mem_cons, List.not_mem_nil, or_false] at hs
  cases h
  case callTag | callComment => exact .inl ⟨[], rfl, .inl (by simpa [ieOpening] using hs)⟩
  case nameLeave hs' | commentLeave hs' => exact .inl ⟨[], rfl, .inl (by simp [ieOpening, hs'])⟩
  case textBang => exact .inl ⟨[htmlStack .htmlTagBang], rfl, .inl (by simp [ieOpening])⟩
  case bangComment => exact .inl ⟨[htmlStack .htmlComment], rfl, .inl (by simp [ieOpening])⟩
  case commentIf =>
    exact .inl ⟨[htmlStack .htmlTagBang, htmlStack .htmlCommentIe], rfl, .inr (by simp)⟩
  case textHold | textHoldBang | bangHoldDash | commentHold => exact .inr ⟨by simp, rfl, by simp, rfl⟩
  case commentHoldIf ht _ => exact .inr ⟨by simp, rfl, by simp; omega, rfl⟩
  case commentMiss t _ ht hc =>
    have hrest : t ++ fut = [105, 102] ++ q := by simpa using hu
    have hpre := List.prefix_of_prefix_length_le ⟨fut, hrest⟩ (List.prefix_append _ q)
      (Nat.le_of_lt ht)
    have hcache : cacheable (lit "<!--[if") (lit "<!--[" ++ t) = true := by
      apply cacheable_of_le
      simpa using hpre
    rw [hcache] at hc
    cases hc
  case tagLeave hs' =>
    have htext : x.state.top = .text := by
      rcases List.mem_pair.mp hs' with hs' | hs'
      · exact hs'
      · simp [hs'] at hs
    exact .inl ⟨[], rfl, .inl (by simp [ieOpening, htext])⟩
  case callTagname hs' =>
    simp only [List.mem_cons, List.not_mem_nil, or_false] at hs'
    rcases hs' with hs' | hs' | hs' <;> simp [hs'] at hs
  all_goals simp_all

end Rules

theorem endsFirst_opened {w : List UInt8} (hw : EndsFirst (lit "]-->") w) :
    EndsFirst (lit "]-->") (lit "<!--[if" ++ w) := by
  have hne : lit "]-->" ≠ [] := by decide
  have h := (((hw.cons (b := 102) (by decide) hne).cons (b := 105) (by decide) hne).cons (b := 91)
    (by decide) hne).cons (b := 45) (by decide) hne
  exact ((h.cons (b := 45) (by decide) hne).cons (b := 33) (by decide) hne).cons (b := 60) (by decide) hne

section Passed
variable {c : List UInt8} {l l' : List Item}

theorem BehindVerbatim.append (h : BehindVerbatim c l) (l' : List Item) : BehindVerbatim c (l' ++ l) :=
  InTextBehind.append h l'

theorem BehindVerbatim.read_le (h : BehindVerbatim c l) : c.length ≤ (consumed l).length :=
  InTextBehind.read_le h Verbatim.read

def SkippedIn (c : List UInt8) (l : List Item) : Prop :=
  ∃ after st b before, l = after ++ .skip st b :: before ∧ (consumed before).length < c.length

theorem SkippedIn.append (h : SkippedIn c l) (l' : List Item) : SkippedIn c (l' ++ l) := by
  obtain ⟨after, st, b, before, rfl, hlt⟩ := h
  exact ⟨l' ++ after, st, b, before, by rw [List.append_assoc], hlt⟩

theorem emitted_le_consumed (l : List Item) : (emitted l).length ≤ (consumed l).length := by
  induction l with
  | nil => exact Nat.le_refl _
  | cons i l ih => cases i <;> simp <;> omega

theorem SkippedIn.not_verbatim (h : SkippedIn c l) : ¬ Verbatim c l := by
  obtain ⟨after, st, b, before, rfl, -⟩ := h
  intro hv
  have hread := congrArg List.length hv.read
  have hwritten := congrArg List.length hv.written
  have hafter := emitted_le_consumed after
  have hbefore := emitted_le_consumed before
  simp at hread hwritten
  omega

theorem SkippedIn.not_behind (h : SkippedIn c l) : ¬ BehindVerbatim c l := by
  obtain ⟨after, st, b, before, rfl, hlt⟩ := h
  rintro ⟨after', r, y, u, d, mid, he, -, hv⟩
  rcases List.append_eq_append_iff.mp he with ⟨m, rfl, hm⟩ | ⟨m, rfl, hm⟩
  · rcases m with _ | ⟨i, m⟩
    · cases hm
    · obtain ⟨rfl, rfl⟩ := List.cons.inj hm
      have hlt' : (consumed (m ++ .turn r y u d :: mid)).length < c.length := hlt
      have hread := congrArg List.length hv.read
      simp at hread hlt'
      omega
  · rcases m with _ | ⟨i, m⟩
    · cases hm
    · obtain ⟨rfl, rfl⟩ := List.cons.inj hm
      exact SkippedIn.not_verbatim ⟨m, st, b, before, rfl, hlt⟩ hv

end Passed

inductive IePhase (w q : List UInt8) (x : Ctx) (u fut : List UInt8) (l : List Item) : Prop
  | opening (hs : x.state.top ∈ ieOpening) (hc : x.cache.length < 7) (hp : u ++ fut = conditional w ++ q)
      (hl : consumed l = [] ∧ emitted l = []) (hin : EachTurn (LostBefore (conditional w).length) l)
  | body (w₁ w₂ : List UInt8) (hw : lit "<!--[if" ++ w = w₁ ++ w₂) (hw₂ : EndsFirst (lit "]-->") w₂)
      (hf : bracketFours w₂ = bracketFours w) (hs : x.state.top = .htmlCommentIe)
      (hc : x.cache.length < 4) (hp : u ++ fut = w₂ ++ (lit "]-->" ++ q)) (hl : Verbatim w₁ l)
      (hin : EachTurn (LostBefore (conditional w).length) l)
  | closed (hf : bracketFours w = true) (hs : x.state.top = .text) (hc : x.cache = []) (hp : u ++ fut = q)
      (hl : Verbatim (conditional w) l) (hin : EachTurn (LostBefore (conditional w).length) l)
  | passed (hf : bracketFours w = true) (hq : q ≠ []) (hl : BehindVerbatim (conditional w) l)
      (hin : EachTurn (LostBefore (conditional w).length) l)
  | lost (hl : SkippedIn (conditional w) l) (hin : ¬ EachTurn (LostBefore (conditional w).length) l)
  | overshot (hf : bracketFours w = false) (hl : ¬ BehindVerbatim (conditional w) l)
      (hp : (conditional w).length < (consumed l).length ∨
        x.state.top = .htmlCommentIe ∧ (conditional w).length < (consumed l).length + 4)

section Phases
variable {x y : Ctx} {r : Routine} {u fut w q : List UInt8} {es : List Ev} {nxt : Next} {l : List Item} {d : ℕ}

theorem IePhase.of_eq (h : IePhase w q x u fut l) (hs : y.state = x.state) (hc : y.cache = x.cache) :
    IePhase w q y u fut l := by
  cases h with
  | opening hs' hc' hp hl hin => exact .opening (by rwa [hs]) (by rwa [hc]) hp hl hin
  | body w₁ w₂ hw hw₂ hf hs' hc' hp hl hin =>
    exact .body w₁ w₂ hw hw₂ hf (by rwa [hs]) (by rwa [hc]) hp hl hin
  | closed hf hs' hc' hp hl hin => exact .closed hf (by rwa [hs]) (by rwa [hc]) hp hl hin
  | passed hf hq hl hin => exact .passed hf hq hl hin
  | lost hl hin => exact .lost hl hin
  | overshot hf hl hp => exact .overshot hf hl (by rwa [hs])

/-- An iteration outside conditional comments passes over no `]`. -/
theorem LostBefore.of_top {n : ℕ} (hs : x.state.top ≠ .htmlCommentIe) : LostBefore n r x u d l :=
  fun _ hlost => hs hlost.2.1

theorem LostBefore.of_read {n : ℕ} (hn : n ≤ (consumed l).length) : LostBefore n r x u d l :=
  fun hlt => absurd hlt (Nat.not_lt_of_le hn)

theorem BehindVerbatim.of_cons {c : List UInt8} {i : Item} (hi : ∀ r x u d, i ≠ .turn r x u d)
    (h : BehindVerbatim c (i :: l)) : BehindVerbatim c l :=
  InTextBehind.of_cons hi h

/-- Behind the comment, or in a step that runs over its end, the text state does not come to the
bytes after it. -/
theorem not_behind_turn {c : List UInt8} {l' : List Item} (hl : ∀ r x u d, Item.turn r x u d ∉ l')
    (h : ¬ BehindVerbatim c l) (hp : c.length < (consumed l).length ∨ x.state.top ≠ .text) :
    ¬ BehindVerbatim c (l' ++ .turn r x u d :: l) :=
  not_inTextBehind_turn hl Verbatim.read h hp

/-- What an iteration in the conditional comment makes of the phase. -/
theorem IePhase.inside {w₁ w₂ : List UInt8} (hw : lit "<!--[if" ++ w = w₁ ++ w₂)
    (hw₂ : EndsFirst (lit "]-->") w₂) (hf : bracketFours w₂ = bracketFours w)
    (hs : x.state.top = .htmlCommentIe) (hp : u ++ fut = w₂ ++ (lit "]-->" ++ q)) (hl : Verbatim w₁ l)
    (hin : EachTurn (LostBefore (conditional w).length) l) (hturn : IeTurn x y r u es) (hy : y.cache = []) :
    IePhase w q y (u.drop (Ev.takes es)) fut ((Ev.items x es u).reverse ++ .turn r x u d :: l) := by
  have hc : y.cache.length < 4 := by simp [hy]
  have hcond : conditional w = w₁ ++ (w₂ ++ lit "]-->") := by
    rw [conditional, ← List.append_assoc, hw, List.append_assoc]
  have hread : (consumed l).length < (conditional w).length := by
    have hlen := congrArg List.length hl.read
    rw [hcond]
    simp at hlen ⊢
    omega
  cases hturn with
  | call hr hy' =>
    refine .body w₁ w₂ hw hw₂ hf (by rw [hy', hs]) hc hp ⟨hl.read, hl.written⟩ ?_
    exact eachTurn_items.mpr ⟨fun _ hlost => hr hlost.1, hin⟩
  | @close t hy' =>
    have hnil : w₂ = [] := hw₂.eq_nil ⟨t ++ fut, by rw [← hp, List.append_assoc]⟩
    subst hnil
    refine .closed (hf.symm.trans rfl) hy' hy (by simpa using hp) ⟨?_, ?_⟩ ?_
    · simp [hcond, hl.read]
    · simp [hcond, hl.written]
    · refine eachTurn_items.mpr ⟨fun _ hlost => ?_, hin⟩
      have hlt := hlost.2.2.2.1
      simp at hlt
      omega
  | @byte b t hb hy' =>
    rcases w₂ with _ | ⟨a, w₂⟩
    · exact absurd (List.cons.inj hp).1 hb
    · obtain ⟨rfl, hp'⟩ := List.cons.inj hp
      refine .body (w₁ ++ [b]) w₂ (by simpa using hw) hw₂.tail ?_ (by rw [hy', hs]) hc (by simpa using hp')
        ⟨by simp [hl.read], by simp [hl.written]⟩ ?_
      · rw [← hf, bracketFours_byte hb]
      · exact eachTurn_items.mpr ⟨fun _ hlost => hb (Option.some.inj hlost.2.2.1), hin⟩
  | @four a b c t hn hy' =>
    have hnot : EachTurn (LostBefore (conditional w).length)
        ((Ev.items x [.copy, .copy, .copy, .copy] (rbracket :: a :: b :: c :: t)).reverse ++
          .turn .htmlStripComment x (rbracket :: a :: b :: c :: t) d :: l) := by
      refine eachTurn_items.mpr ⟨fun _ hlost => ?_, hin⟩
      have hlt := hlost.2.2.2.1
      simp at hlt
      omega
    have hlen := congrArg List.length hl.read
    rcases w₂ with _ | ⟨e, w₃⟩
    · simp_all
    · obtain ⟨rfl, hp'⟩ := List.cons.inj hp
      rcases Nat.lt_or_ge w₃.length 3 with hshort | hlong
      · refine .overshot (hf.symm.trans (bracketFours_short hshort)) ?_ (.inr ⟨by rw [hy', hs], ?_⟩)
        · apply not_behind_turn (by simp)
          · exact fun hb => absurd hb.read_le (Nat.not_le_of_lt hread)
          · exact .inr (by simp [hs])
        · rw [hcond]
          simp at hlen ⊢
          omega
      · rcases w₃ with _ | ⟨e₁, _ | ⟨e₂, _ | ⟨e₃, w₃⟩⟩⟩
        · simp at hlong
        · simp at hlong
        · simp at hlong
        · have hfour : a :: b :: c :: (t ++ fut) = e₁ :: e₂ :: e₃ :: (w₃ ++ (lit "]-->" ++ q)) := hp'
          simp only [List.cons.injEq] at hfour
          obtain ⟨rfl, rfl, rfl, hp'⟩ := hfour
          refine .body (w₁ ++ [rbracket, a, b, c]) w₃ (by simpa using hw) hw₂.tail.tail.tail.tail ?_
            (by rw [hy', hs]) hc (by simpa using hp') ⟨by simp [hl.read], by simp [hl.written]⟩ hnot
          rw [← hf, bracketFours_four]
  | @miss t ht hn hy' =>
    refine .lost ⟨[], x.state.top, rbracket, .cacheCall (lit "]-->") x.cache.length (rbracket :: t) ::
      .turn .htmlStripComment x (rbracket :: t) d :: l, rfl, hread⟩ fun hall => ?_
    exact (eachTurn_items.mp hall).1 hread ⟨rfl, hs, rfl, Nat.succ_lt_succ ht, hn⟩
  | holds _ _ hy' => exact absurd (hy.symm.trans hy'.cache) (by simp)

theorem IePhase.turn (h : IePhase w q x u fut l) (hrule : HtmlRule x r u es y nxt)
    (hw : EndsFirst (lit "]-->") w) (hy : y.cache = []) :
    IePhase w q y (u.drop (Ev.takes es)) fut ((Ev.items x es u).reverse ++ .turn r x u d :: l) := by
  have hturns : ∀ r x' u' d, Item.turn r x' u' d ∉ (Ev.items x es u).reverse :=
    fun r x' u' d hmem => Ev.turn_notMem_items x x' r u' d es u (List.mem_reverse.mp hmem)
  have hread : (consumed l).length ≤
      (consumed ((Ev.items x es u).reverse ++ .turn r x u d :: l)).length := by
    rw [consumed_append, consumed_cons, List.length_append]
    exact Nat.le_add_left _ _
  cases h with
  | opening hs hc hp hl hin =>
    have hne : x.state.top ≠ .htmlCommentIe := by
      intro he
      rw [he] at hs
      exact absurd hs (by decide)
    have hturn : LostBefore (conditional w).length r x u d l := LostBefore.of_top hne
    have hpage : u ++ fut = lit "<!--[if" ++ (w ++ (lit "]-->" ++ q)) := by
      rw [hp, conditional]
      simp
    rcases hrule.ieOpens hs hpage with ⟨l', rfl, hst⟩ | ⟨hnil, hcache, -⟩
    · have hin' : EachTurn (LostBefore (conditional w).length)
          ((Ev.items x (l'.map .stack) u).reverse ++ .turn r x u d :: l) := eachTurn_items.mpr ⟨hturn, hin⟩
      have htrace : consumed ((Ev.items x (l'.map .stack) u).reverse ++ .turn r x u d :: l) = [] ∧
          emitted ((Ev.items x (l'.map .stack) u).reverse ++ .turn r x u d :: l) = [] := by
        simp [hl]
      rcases hst with hst | hst
      · exact .opening hst (by simp [hy]) (by simpa using hp) htrace hin'
      · refine .body [] (lit "<!--[if" ++ w) rfl (endsFirst_opened hw) (bracketFours_opened w) hst
          (by simp [hy]) ?_ ⟨htrace.1, htrace.2⟩ hin'
        rw [Ev.takes_stacks, List.drop_zero, hpage, List.append_assoc]
    · exact absurd (hcache.symm.trans hy) hnil
  | body w₁ w₂ hw' hw₂ hf hs hc hp hl hin =>
    exact .inside hw' hw₂ hf hs hp hl hin (hrule.ieTurn hs) hy
  | closed hf hs hc hp hl hin =>
    have hturn : LostBefore (conditional w).length r x u d l := LostBefore.of_top (by simp [hs])
    have hin' : EachTurn (LostBefore (conditional w).length)
        ((Ev.items x es u).reverse ++ .turn r x u d :: l) := eachTurn_items.mpr ⟨hturn, hin⟩
    by_cases hr : r = .htmlStripBuffer
    · subst hr
      refine .passed hf ?_ ⟨_, _, x, u, d, l, rfl, hs, hl⟩ hin'
      rw [← hp]
      exact List.append_ne_nil_of_left_ne_nil (hrule.text_ne hs) fut
    · obtain ⟨rfl, hst⟩ := hrule.back hs hr
      exact .closed hf hst hy hp ⟨hl.read, hl.written⟩ hin'
  | passed hf hq hl hin =>
    have happ := hl.append ((Ev.items x es u).reverse ++ [.turn r x u d])
    rw [List.append_assoc] at happ
    exact .passed hf hq happ (eachTurn_items.mpr ⟨LostBefore.of_read hl.read_le, hin⟩)
  | lost hl hin =>
    have happ := hl.append ((Ev.items x es u).reverse ++ [.turn r x u d])
    rw [List.append_assoc] at happ
    exact .lost happ fun hall => hin (eachTurn_items.mp hall).2
  | overshot hf hl hp =>
    have htext : (conditional w).length < (consumed l).length ∨ x.state.top ≠ .text :=
      hp.imp_right fun h => by simp [h.1]
    refine .overshot hf (not_behind_turn hturns hl htext) ?_
    rcases hp with hp | ⟨hs, hp⟩
    · exact .inl (Nat.lt_of_lt_of_le hp hread)
    · have hlt := Nat.lt_of_lt_of_le hp (Nat.add_le_add_right hread 4)
      cases hrule.ieTurn hs with
      | close hy' => exact .inl (by simp; omega)
      | call _ hy' | four _ hy' | miss _ _ hy' | byte _ hy' => exact .inr ⟨by rw [hy', hs], hlt⟩
      | holds _ _ hy' => exact absurd (hy.symm.trans hy'.cache) (by simp)

/-- What holding back all unread bytes makes of the phase. -/
theorem IePhase.hold (h : IePhase w q x u fut l) {a : List UInt8}
    (hrule : HtmlRule x r u (Ev.holds a u) y .again) (hy : x.Held u y) :
    IePhase w q y u fut (.cacheCall a 0 u :: .turn r x u d :: l) := by
  have hcalls : ∀ r' x' u' d, Item.turn r' x' u' d ∉ [Item.cacheCall a 0 u] := by simp
  cases h with
  | opening hs _ hp hl hin =>
    have hne : x.state.top ≠ .htmlCommentIe := by
      intro he
      rw [he] at hs
      exact absurd hs (by decide)
    have hpage : u ++ fut = lit "<!--[if" ++ (w ++ (lit "]-->" ++ q)) := by
      rw [hp, conditional]
      simp
    rcases hrule.ieOpens hs hpage with ⟨l', hes, -⟩ | ⟨-, -, hlt, -⟩
    · exact absurd hes (Ev.holds_ne_stacks a u l')
    · refine .opening (by rwa [hy.state]) (by rwa [hy.cache]) hp (by simpa using hl) ?_
      exact eachTurn_held.mpr ⟨LostBefore.of_top hne, hin⟩
  | body w₁ w₂ hw' hw₂ hf hs _ hp hl hin =>
    have hturn := hrule.ieTurn hs
    generalize hes : Ev.holds a u = es at hturn
    cases hturn with
    | holds ht hpre _ =>
      refine .body w₁ w₂ hw' hw₂ hf (by rwa [hy.state]) (by rw [hy.cache]; exact Nat.succ_lt_succ ht) hp
        ⟨hl.read, hl.written⟩ ?_
      exact eachTurn_held.mpr ⟨fun _ hlost => hlost.2.2.2.2 hpre, hin⟩
    | @miss t _ hn _ =>
      have hnil : t = [] := by
        have hlen := congrArg List.length hes
        simpa [Ev.holds] using hlen
      subst hnil
      exact absurd ⟨lit "-->", rfl⟩ hn
    | call | close | four | byte => cases hes
  | closed hf hs _ hp hl hin =>
    have hturn : LostBefore (conditional w).length r x u d l := LostBefore.of_top (by simp [hs])
    by_cases hr : r = .htmlStripBuffer
    · subst hr
      refine .passed hf ?_ ⟨[.cacheCall a 0 u], _, x, u, d, l, rfl, hs, hl⟩ (eachTurn_held.mpr ⟨hturn, hin⟩)
      rw [← hp]
      exact List.append_ne_nil_of_left_ne_nil (hrule.text_ne hs) fut
    · exact absurd (hrule.back hs hr).1 (List.cons_ne_nil _ _)
  | passed hf hq hl hin =>
    exact .passed hf hq (hl.append [.cacheCall a 0 u, .turn r x u d])
      (eachTurn_held.mpr ⟨LostBefore.of_read hl.read_le, hin⟩)
  | lost hl hin =>
    exact .lost (hl.append [.cacheCall a 0 u, .turn r x u d]) fun hall => hin (eachTurn_held.mp hall).2
  | overshot hf hl hp =>
    have htext : (conditional w).length < (consumed l).length ∨ x.state.top ≠ .text :=
      hp.imp_right fun h => by simp [h.1]
    exact .overshot hf (not_behind_turn hcalls hl htext) (by rwa [hy.state])

end Phases

/-- Passages that begin with a conditional comment. -/
theorem iePassage {w : List UInt8} (q : List UInt8) (hw : EndsFirst (lit "]-->") w) :
    Passage htmlMachine (fun x page => x.state.top = .text ∧ page = conditional w ++ q)
      fun _ _ c u fut l => IePhase w q c u fut l where
  start h _ hc := .opening (by simp [h.1, ieOpening]) (by simp [hc]) h.2 ⟨rfl, rfl⟩ eachTurn_nil
  next {x c page u buf fut l} h := by
    cases h with
    | opening hs hc hp hl hin =>
      exact .opening hs (by simp) (by simpa using hp) hl ((eachTurn_cons (by simp)).mpr hin)
    | body w₁ w₂ hw' hw₂ hf hs hc hp hl hin =>
      exact .body w₁ w₂ hw' hw₂ hf hs (by simp) (by simpa using hp) ⟨hl.read, hl.written⟩
        ((eachTurn_cons (by simp)).mpr hin)
    | closed hf hs hc hp hl hin =>
      exact .closed hf hs rfl (by simpa using hp) ⟨hl.read, hl.written⟩ ((eachTurn_cons (by simp)).mpr hin)
    | passed hf hq hl hin => exact .passed hf hq (hl.append [.buffer]) ((eachTurn_cons (by simp)).mpr hin)
    | lost hl hin => exact .lost (hl.append [.buffer]) fun hall => hin ((eachTurn_cons (by simp)).mp hall)
    | overshot hf hl hp =>
      exact .overshot hf (fun hb => hl (hb.of_cons (by simp))) hp
  turn {x c y page u fut l r r' d es nxt k k'} old h hc hy _ hrule _ := by
    obtain ⟨p₁, p₂, hend⟩ := nxt.ended_eq r' (d + (emitted (Ev.items c es u)).length)
      (emitted ((Ev.items c es u).reverse ++ .turn r c u d :: l) ++ old) y
    exact (h.turn hrule hw hy).of_eq (by rw [hend]) (by rw [hend])
  hold {x c y page u fut l r d} a old h hc _ hrule hy := by
    obtain ⟨p₁, p₂, hend⟩ := Next.again.ended_eq r d (emitted l ++ old) y
    exact (h.hold hrule hy).of_eq (by rw [hend]) (by rw [hend])
  done {x c page u fut l r d} old h := by
    obtain ⟨p₁, p₂, hend⟩ := Next.again.ended_eq r d (emitted l ++ old) c
    exact h.of_eq (by rw [hend]) (by rw [hend])

/-- A conditional comment has been written as it was, and after it the page `q` is read in the text
state; at the end of the page, the minifier is left in that state. -/
def Survives (w : List UInt8) (s : Session) (newer : List Item) : List UInt8 → Prop
  | [] => s.ctx.state.top = .text ∧ s.ctx.cache = [] ∧ Verbatim (conditional w) newer
  | _ => BehindVerbatim (conditional w) newer

/-- A conditional comment that the text state comes upon survives just when the `]` of its body go in
fours and none of them is passed over at the end of a buffer. -/
theorem conditional_survives_iff {cap : Option ℕ} {bufs : List (List UInt8)} {s : Session}
    (h : feedAll Flat cap .html .start bufs = .ok s) {newer older : List Item} {r : Routine} {x : Ctx}
    {u w q : List UInt8} {d : ℕ} (htr : s.trace = newer ++ .turn r x u d :: older)
    (hs : x.state.top = .text) (hpage : (consumed newer).reverse ++ s.ctx.cache = conditional w ++ q)
    (hw : EndsFirst (lit "]-->") w) : Survives w s (newer ++ [.turn r x u d]) q ↔
      bracketFours w = true ∧
        EachTurn (LostBefore (conditional w).length) (newer ++ [.turn r x u d]) := by
  have hpassage : Passage (machine .html) _ _ := iePassage q hw
  have hphase : IePhase w q s.ctx s.ctx.cache [] (newer ++ [.turn r x u d]) :=
    hpassage.session h htr hpage ⟨hs, rfl⟩
  cases hphase with
  | opening _ hc hp =>
    have hlen := congrArg List.length hp
    simp [conditional] at hlen
    omega
  | body w₁ w₂ _ _ _ _ hc hp =>
    have hlen := congrArg List.length hp
    simp at hlen
    omega
  | closed hf hst hc hp hl hin =>
    rw [hc] at hp
    subst hp
    exact iff_of_true ⟨hst, hc, hl⟩ ⟨hf, hin⟩
  | passed hf hq hl hin =>
    rcases q with _ | ⟨b, q⟩
    · exact absurd rfl hq
    · exact iff_of_true hl ⟨hf, hin⟩
  | lost hl hin =>
    refine iff_of_false (fun hsurvives => ?_) fun hand => hin hand.2
    rcases q with _ | ⟨b, q⟩
    · exact hl.not_verbatim hsurvives.2.2
    · exact hl.not_behind hsurvives
  | overshot hf hl hp =>
    refine iff_of_false (fun hsurvives => ?_) (by simp [hf])
    rcases q with _ | ⟨b, q⟩
    · rcases hp with hp | ⟨hst, -⟩
      · rw [hsurvives.2.2.read, List.length_reverse] at hp
        exact absurd hp (Nat.lt_irrefl _)
      · exact absurd (hst.symm.trans hsurvives.1) (by decide)
    · exact hl hsurvives

/-- The page `<!--[if a]>b<!]-->q`, cut behind the second `<`. -/
theorem conditional_survives_iff_cut : ∃ s newer,
    feedAll Flat none .html .start [lit "<!--[if a]>b<", lit "!]-->q"] = .ok s ∧
      Survives (lit " a]>b<!") s newer (lit "q") := by
  obtain ⟨s, newer, older, hs, htr, hf⟩ : ∃ s newer older,
      feedAll Flat none .html .start [lit "<!--[if a]>b<", lit "!]-->q"] = .ok s ∧
        s.trace = newer ++ .turn .htmlStripBuffer Ctx.zero (lit "<!--[if a]>b<") 0 :: older ∧
        ((consumed newer).reverse ++ s.ctx.cache, decide (EachTurn (LostBefore (conditional (lit " a]>b<!")).length)
          (newer ++ [.turn .htmlStripBuffer Ctx.zero (lit "<!--[if a]>b<") 0]))) =
          (conditional (lit " a]>b<!") ++ lit "q", true) :=
    exists_turn (n := 46) (f := fun s newer => ((consumed newer).reverse ++ s.ctx.cache,
      decide (EachTurn (LostBefore (conditional (lit " a]>b<!")).length)
        (newer ++ [.turn .htmlStripBuffer Ctx.zero (lit "<!--[if a]>b<") 0])))) (by decide +kernel)
  obtain ⟨hpage, hturns⟩ := Prod.mk.inj hf
  have hw : EndsFirst (lit "]--" ++ [gt]) (lit " a]>b<!") := .of_notInfix (by decide +kernel)
  have hsurvives := (conditional_survives_iff hs htr rfl hpage hw).mpr ⟨by decide +kernel, of_decide_eq_true hturns⟩
  exact ⟨s, _, hs, hsurvives⟩

/-- In the page `<!--[if]>ab]-->`, cut behind the first `>`, the first `]` is lost. -/
theorem conditional_lost : ¬ ∀ (bufs : List (List UInt8)) (s : Session) (newer older : List Item)
    (r : Routine) (x : Ctx) (u w q : List UInt8) (d : ℕ), feedAll Flat none .html .start bufs = .ok s →
      s.trace = newer ++ .turn r x u d :: older → x.state.top = .text →
        (consumed newer).reverse ++ s.ctx.cache = conditional w ++ q → EndsFirst (lit "]-->") w →
          Survives w s (newer ++ [.turn r x u d]) q := by
  intro h
  obtain ⟨s, newer, older, hs, htr, hf⟩ : ∃ s newer older,
      feedAll Flat none .html .start [lit "<!--[if]>", lit "ab]-->"] = .ok s ∧
        s.trace = newer ++ .turn .htmlStripBuffer Ctx.zero (lit "<!--[if]>") 0 :: older ∧
        ((consumed newer).reverse ++ s.ctx.cache, (emitted newer).length) =
          (conditional (lit "]>ab") ++ [], 14) :=
    exists_turn (n := 40) (f := fun s newer => ((consumed newer).reverse ++ s.ctx.cache,
      (emitted newer).length)) (by decide)
  obtain ⟨hpage, hlen⟩ := Prod.mk.inj hf
  have hw : EndsFirst (lit "]--" ++ [gt]) (lit "]>ab") := .of_notInfix (by decide)
  have hsurvives : Survives (lit "]>ab") s (newer ++ [.turn .htmlStripBuffer Ctx.zero (lit "<!--[if]>") 0]) [] :=
    h _ s newer older _ _ _ _ _ _ hs htr rfl hpage hw
  have hlength := congrArg List.length hsurvives.2.2.written
  have hbody : (lit "]>ab").length = 4 := by decide
  simp [conditional, hlen, hbody] at hlength

end NginB.Minify
