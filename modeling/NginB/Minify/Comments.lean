import NginB.Minify.Passage
import NginB.Minify.Reader
import NginB.Program.Occurrence

/-! # Where an ordinary comment ends

`html_state_comment_skip` passes over three bytes at once where it meets a `-` with two more bytes
behind it in the buffer. A comment ends at its first `-->` just when none of these steps runs into
it; otherwise bytes of the page behind it are passed over with the comment.
-/
namespace NginB.Minify
open NginB.Program Relation Ascii

def comment (w : List UInt8) : List UInt8 := lit "<!--" ++ (w ++ lit "-->")

/-- In a comment of `n` bytes, no iteration in front of the closing `-->` passes over a `-` and the two
bytes behind it where the body has fewer than three bytes left. -/
def DashKept (n : ℕ) (r : Routine) (x : Ctx) (u : List UInt8) (_ : ℕ) (older : List Item) : Prop :=
  r = .htmlStripComment → x.state.top = .htmlCommentSkip → u.head? = some dash → 3 ≤ u.length →
    (consumed older).length + 3 < n → (consumed older).length + 6 ≤ n

instance (n : ℕ) (r : Routine) (x : Ctx) (u : List UInt8) (d : ℕ) (older : List Item) :
    Decidable (DashKept n r x u d older) := inferInstanceAs (Decidable (_ → _))

/-- The text state reads on behind items of which `P` holds. -/
def InTextBehind (P : List Item → Prop) (l : List Item) : Prop :=
  ∃ after r y u d mid, l = after ++ .turn r y u d :: mid ∧ y.state.top = .text ∧ P mid

section Behind
variable {P : List Item → Prop} {c : List UInt8} {l : List Item} {r : Routine} {x : Ctx} {u : List UInt8} {d : ℕ}

theorem InTextBehind.append (h : InTextBehind P l) (l' : List Item) : InTextBehind P (l' ++ l) := by
  obtain ⟨after, r, y, u, d, mid, rfl, hy, hp⟩ := h
  exact ⟨l' ++ after, r, y, u, d, mid, by rw [List.append_assoc], hy, hp⟩

theorem InTextBehind.read_le (h : InTextBehind P l) (hP : ∀ {m}, P m → consumed m = c.reverse) :
    c.length ≤ (consumed l).length := by
  obtain ⟨after, r, y, u, d, mid, rfl, -, hp⟩ := h
  have hlen := congrArg List.length (hP hp)
  rw [List.length_reverse] at hlen
  rw [consumed_append, consumed_cons, List.length_append, List.length_append, hlen]
  omega

theorem InTextBehind.of_cons {i : Item} (hi : ∀ r x u d, i ≠ .turn r x u d)
    (h : InTextBehind P (i :: l)) : InTextBehind P l := by
  obtain ⟨after, r', y, u', d', mid, he, hy, hp⟩ := h
  rcases after with _ | ⟨j, after⟩
  · exact absurd (List.cons.inj he).1 (hi r' y u' d')
  · exact ⟨after, r', y, u', d', mid, (List.cons.inj he).2, hy, hp⟩

theorem InTextBehind.of_turn {l' : List Item} (hl : ∀ r x u d, Item.turn r x u d ∉ l')
    (h : InTextBehind P (l' ++ .turn r x u d :: l)) : x.state.top = .text ∧ P l ∨ InTextBehind P l := by
  obtain ⟨after, r', y, u', d', mid, he, hy, hp⟩ := h
  rcases turn_split hl he with ⟨rfl, hturn⟩ | ⟨m, rfl, rfl⟩
  · have htail := (List.cons.inj (List.append_cancel_left he)).2
    cases hturn
    rw [htail]
    exact .inl ⟨hy, hp⟩
  · exact .inr ⟨m, r', y, u', d', mid, rfl, hy, hp⟩

/-- Behind the bytes `c`, or in a step that runs over their end, the text state does not come to what
is after them. -/
theorem not_inTextBehind_turn {l' : List Item} (hl : ∀ r x u d, Item.turn r x u d ∉ l')
    (hP : ∀ {m}, P m → consumed m = c.reverse) (h : ¬ InTextBehind P l)
    (hp : c.length < (consumed l).length ∨ x.state.top ≠ .text) :
    ¬ InTextBehind P (l' ++ .turn r x u d :: l) := by
  intro hb
  rcases hb.of_turn hl with ⟨hs, hl'⟩ | hb
  · rcases hp with hp | hp
    · rw [hP hl', List.length_reverse] at hp
      exact absurd hp (Nat.lt_irrefl _)
    · exact hp hs
  · exact h hb

end Behind

/-- The items read the bytes `c` and write nothing. -/
structure Removed (c : List UInt8) (l : List Item) : Prop where
  read : consumed l = c.reverse
  silent : emitted l = []

inductive SkipTurn (x y : Ctx) : Routine → List UInt8 → List Ev → Prop
  | call {r u} (hr : r ≠ .htmlStripComment) (hy : y.state = x.state) : SkipTurn x y r u []
  | close {t} (hy : y.state.top = .text) : SkipTurn x y .htmlStripComment (lit "-->" ++ t)
      [.skip, .skip, .skip, .stack (htmlStack .text)]
  | three {a b t} (hn : [a, b] ≠ [dash, gt]) (hy : y.state = x.state) :
      SkipTurn x y .htmlStripComment (dash :: a :: b :: t) [.skip, .skip, .skip]
  | miss {t} (ht : t.length < 2) (hn : ¬ dash :: t <+: lit "-->") (hy : y.state = x.state) :
      SkipTurn x y .htmlStripComment (dash :: t) [.call (lit "-->"), .skip]
  | byte {b t} (hb : b ≠ dash) (hy : y.state = x.state) : SkipTurn x y .htmlStripComment (b :: t) [.skip]
  | holds {t} (ht : t.length < 2) (hy : x.Held (dash :: t) y) :
      SkipTurn x y .htmlStripComment (dash :: t) (Ev.holds (lit "-->") (dash :: t))

def commentOpening : List MinifyState := [.text, .htmlTagBang, .htmlComment]

section Rules
variable {x y : Ctx} {r : Routine} {u fut w q : List UInt8} {es : List Ev} {nxt : Next}

theorem HtmlRule.skipTurn (h : HtmlRule x r u es y nxt) (hs : x.state.top = .htmlCommentSkip) :
    SkipTurn x y r u es := by
  cases h
  case skipClose => exact .close (by simp)
  case skipThree hn => exact .three hn rfl
  case skipHold ht hc => exact .holds ht .plain
  case skipMiss ht hc =>
    refine .miss ht (fun hp => ?_) rfl
    rw [cacheable_of_le hp] at hc
    cases hc
  case skipByte hb => exact .byte hb rfl
  case callTag | callComment => exact .call (by decide) rfl
  all_goals simp_all

/-- Before a comment nothing is read; the bytes of its opening may be held back, and they are passed over
together. -/
theorem HtmlRule.commentOpens (h : HtmlRule x r u es y nxt) (hs : x.state.top ∈ commentOpening)
    (hif : ¬ lit "[if" <+: w) (hu : u ++ fut = lit "<!--" ++ (w ++ (lit "-->" ++ q))) :
    (∃ l : List StateStack, es = l.map .stack ∧ y.state.top ∈ commentOpening) ∨
    (∃ t, u = lit "<!--" ++ t ∧ u.drop (Ev.takes es) = t ∧ y.state.top = .htmlCommentSkip ∧
      consumed (Ev.items x es u).reverse = (lit "<!--").reverse ∧ emitted (Ev.items x es u).reverse = []) ∨
    u ≠ [] ∧ y.cache = u ∧ u.length < 7 ∧ y.state = x.state := by
  have hs' := hs
  simp only [commentOpening, List.mem_cons, List.not_mem_nil, or_false] at hs
  cases h
  case callTag | callComment => exact .inl ⟨[], rfl, hs'⟩
  case nameLeave hs' | commentLeave hs' => exact .inl ⟨[], rfl, by simp [commentOpening, hs']⟩
  case textBang => exact .inl ⟨[htmlStack .htmlTagBang], rfl, by simp [commentOpening]⟩
  case bangComment => exact .inl ⟨[htmlStack .htmlComment], rfl, by simp [commentOpening]⟩
  case commentPlain b t _ _ => exact .inr (.inl ⟨b :: t, rfl, by simp, by simp, by simp, by simp⟩)
  case commentOther a b t _ _ =>
    exact .inr (.inl ⟨lbracket :: a :: b :: t, rfl, by simp, by simp, by simp, by simp⟩)
  case commentMiss t _ _ _ => exact .inr (.inl ⟨lbracket :: t, rfl, by simp, by simp, by simp, by simp⟩)
  case commentIf t _ =>
    refine absurd ?_ hif
    rcases w with _ | ⟨a, _ | ⟨b, _ | ⟨c, w⟩⟩⟩
    all_goals simp_all
  case textHold | textHoldBang | bangHoldDash | commentHold =>
    exact .inr (.inr ⟨by simp, rfl, by simp, rfl⟩)
  case commentHoldIf ht _ => exact .inr (.inr ⟨by simp, rfl, by simp; omega, rfl⟩)
  case tagLeave hs'' =>
    have htext : x.state.top = .text := by
      rcases List.mem_pair.mp hs'' with hs'' | hs''
      · exact hs''
      · simp [hs''] at hs
    exact .inl ⟨[], rfl, by simp [commentOpening, htext]⟩
  case callTagname hs'' =>
    simp only [List.mem_cons, List.not_mem_nil, or_false] at hs''
    rcases hs'' with hs'' | hs'' | hs'' <;> simp [hs''] at hs
  all_goals simp_all

theorem HtmlRule.back (h : HtmlRule x r u es y nxt) (hs : x.state.top = .text)
    (hr : r ≠ .htmlStripBuffer) : es = [] ∧ y.state.top = .text := by
  cases h
  case nameLeave | commentLeave | tagLeave => exact ⟨rfl, hs⟩
  all_goals simp_all

/-- In the text state the buffer loop reads a byte. -/
theorem HtmlRule.text_ne (h : HtmlRule x .htmlStripBuffer u es y nxt) (hs : x.state.top = .text) :
    u ≠ [] := by
  cases h
  case callTag => simp_all
  all_goals simp

end Rules

inductive CommentPhase (w q : List UInt8) (x : Ctx) (u fut : List UInt8) (l : List Item) : Prop
  | opening (hs : x.state.top ∈ commentOpening) (hc : x.cache.length < 7) (hp : u ++ fut = comment w ++ q)
      (hl : Removed [] l) (hin : EachTurn (DashKept (comment w).length) l)
  | body (w₁ w₂ : List UInt8) (hw : lit "<!--" ++ w = w₁ ++ w₂) (hw₂ : EndsFirst (lit "-->") w₂)
      (hs : x.state.top = .htmlCommentSkip) (hc : x.cache.length < 3) (hp : u ++ fut = w₂ ++ (lit "-->" ++ q))
      (hl : Removed w₁ l) (hin : EachTurn (DashKept (comment w).length) l)
  | closed (hs : x.state.top = .text) (hc : x.cache = []) (hp : u ++ fut = q) (hl : Removed (comment w) l)
      (hin : EachTurn (DashKept (comment w).length) l)
  | passed (hq : q ≠ []) (hl : InTextBehind (Removed (comment w)) l)
      (hin : EachTurn (DashKept (comment w).length) l)
  | overshot (hl : ¬ InTextBehind (Removed (comment w)) l) (hin : ¬ EachTurn (DashKept (comment w).length) l)
      (hp : (comment w).length < (consumed l).length ∨
        x.state.top = .htmlCommentSkip ∧ (comment w).length < (consumed l).length + 3)

section Phases
variable {x y : Ctx} {r : Routine} {u fut w q : List UInt8} {es : List Ev} {nxt : Next} {l : List Item} {d : ℕ}

theorem CommentPhase.of_eq (h : CommentPhase w q x u fut l) (hs : y.state = x.state) (hc : y.cache = x.cache) :
    CommentPhase w q y u fut l := by
  cases h with
  | opening hs' hc' hp hl hin => exact .opening (by rwa [hs]) (by rwa [hc]) hp hl hin
  | body w₁ w₂ hw hw₂ hs' hc' hp hl hin => exact .body w₁ w₂ hw hw₂ (by rwa [hs]) (by rwa [hc]) hp hl hin
  | closed hs' hc' hp hl hin => exact .closed (by rwa [hs]) (by rwa [hc]) hp hl hin
  | passed hq hl hin => exact .passed hq hl hin
  | overshot hl hin hp => exact .overshot hl hin (by rwa [hs])

/-- An iteration outside the bodies of comments. -/
theorem DashKept.of_top {n : ℕ} (hs : x.state.top ≠ .htmlCommentSkip) : DashKept n r x u d l :=
  fun _ hskip => absurd hskip hs

/-- An iteration behind the comment, or at its closing. -/
theorem DashKept.of_read {n : ℕ} (hn : n ≤ (consumed l).length + 3) : DashKept n r x u d l :=
  fun _ _ _ _ hlt => absurd hlt (Nat.not_lt_of_le hn)

/-- An iteration that does not pass over three bytes at a `-`. -/
theorem DashKept.of_short {n : ℕ} (h : u.head? = some dash → u.length < 3) : DashKept n r x u d l :=
  fun _ _ hhead hlen => absurd (h hhead) (Nat.not_lt_of_le hlen)

theorem ne_skip_of_opening {st : MinifyState} (h : st ∈ commentOpening) : st ≠ .htmlCommentSkip := by
  rintro rfl
  exact absurd h (by decide)

/-- What an iteration in the body makes of the phase. -/
theorem CommentPhase.inside {w₁ w₂ : List UInt8} (hw : lit "<!--" ++ w = w₁ ++ w₂)
    (hw₂ : EndsFirst (lit "-->") w₂) (hs : x.state.top = .htmlCommentSkip)
    (hp : u ++ fut = w₂ ++ (lit "-->" ++ q)) (hl : Removed w₁ l)
    (hin : EachTurn (DashKept (comment w).length) l) (hturn : SkipTurn x y r u es) (hy : y.cache = []) :
    CommentPhase w q y (u.drop (Ev.takes es)) fut ((Ev.items x es u).reverse ++ .turn r x u d :: l) := by
  have hc : y.cache.length < 3 := by simp [hy]
  have hcomment : comment w = w₁ ++ (w₂ ++ lit "-->") := by
    rw [comment, ← List.append_assoc, hw, List.append_assoc]
  have hlen : (comment w).length = (consumed l).length + (w₂.length + 3) := by
    rw [hcomment, hl.read]
    simp
  cases hturn with
  | call hr hy' =>
    refine .body w₁ w₂ hw hw₂ (by rw [hy', hs]) hc hp ⟨hl.read, hl.silent⟩ ?_
    exact eachTurn_items.mpr ⟨fun hr' => absurd hr' hr, hin⟩
  | @close t hy' =>
    have hnil : w₂ = [] := hw₂.eq_nil ⟨t ++ fut, by rw [← hp, List.append_assoc]⟩
    subst hnil
    refine .closed hy' hy (by simpa using hp) ⟨?_, ?_⟩ (eachTurn_items.mpr ⟨.of_read ?_, hin⟩)
    · simp [hcomment, hl.read]
    · simp [hl.silent]
    · simp only [List.length_nil] at hlen
      omega
  | @byte b t hb hy' =>
    rcases w₂ with _ | ⟨a, w₂⟩
    · exact absurd (List.cons.inj hp).1 hb
    · obtain ⟨rfl, hp'⟩ := List.cons.inj hp
      refine .body (w₁ ++ [b]) w₂ (by simpa using hw) hw₂.tail (by rw [hy', hs]) hc (by simpa using hp')
        ⟨by simp [hl.read], by simp [hl.silent]⟩ (eachTurn_items.mpr ⟨.of_short fun hhead => ?_, hin⟩)
      exact absurd (Option.some.inj hhead) hb
  | @three a b t hn hy' =>
    rcases w₂ with _ | ⟨e, w₃⟩
    · simp_all
    · obtain ⟨rfl, hp'⟩ := List.cons.inj hp
      rcases Nat.lt_or_ge w₃.length 2 with hshort | hlong
      · simp only [List.length_cons] at hlen
        refine .overshot (not_inTextBehind_turn (by simp) Removed.read ?_ (.inr (by simp [hs])))
          (fun hall => ?_) (.inr ⟨by rw [hy', hs], ?_⟩)
        · intro hb
          have hle := hb.read_le Removed.read
          omega
        · have hkept := (eachTurn_items.mp hall).1 rfl hs rfl (by simp) (by omega)
          omega
        · simp
          omega
      · rcases w₃ with _ | ⟨e₁, _ | ⟨e₂, w₃⟩⟩
        · simp at hlong
        · simp at hlong
        · have hthree : a :: b :: (t ++ fut) = e₁ :: e₂ :: (w₃ ++ (lit "-->" ++ q)) := hp'
          simp only [List.cons.injEq] at hthree
          obtain ⟨rfl, rfl, hp'⟩ := hthree
          simp only [List.length_cons] at hlen
          refine .body (w₁ ++ [dash, a, b]) w₃ (by simpa using hw) hw₂.tail.tail.tail (by rw [hy', hs]) hc
            (by simpa using hp') ⟨by simp [hl.read], by simp [hl.silent]⟩
            (eachTurn_items.mpr ⟨fun _ _ _ _ _ => ?_, hin⟩)
          omega
  | @miss t ht hn hy' =>
    rcases w₂ with _ | ⟨e, w₂⟩
    · exact absurd (List.prefix_of_prefix_length_le ⟨fut, hp⟩ (List.prefix_append _ q) (by simp; omega)) hn
    · obtain ⟨rfl, hp'⟩ := List.cons.inj hp
      refine .body (w₁ ++ [dash]) w₂ (by simpa using hw) hw₂.tail (by rw [hy', hs]) hc (by simpa using hp')
        ⟨by simp [hl.read], by simp [hl.silent]⟩ (eachTurn_items.mpr ⟨.of_short fun _ => ?_, hin⟩)
      simp
      omega
  | holds _ hy' => exact absurd (hy.symm.trans hy'.cache) (by simp)

theorem comment_append (w q : List UInt8) : comment w ++ q = lit "<!--" ++ (w ++ (lit "-->" ++ q)) := by
  simp [comment]

theorem CommentPhase.turn (h : CommentPhase w q x u fut l) (hrule : HtmlRule x r u es y nxt)
    (hif : ¬ lit "[if" <+: w) (hw : EndsFirst (lit "-->") w) (hy : y.cache = []) :
    CommentPhase w q y (u.drop (Ev.takes es)) fut ((Ev.items x es u).reverse ++ .turn r x u d :: l) := by
  have hturns : ∀ r x' u' d, Item.turn r x' u' d ∉ (Ev.items x es u).reverse :=
    fun r x' u' d hmem => Ev.turn_notMem_items x x' r u' d es u (List.mem_reverse.mp hmem)
  have hread : (consumed l).length ≤
      (consumed ((Ev.items x es u).reverse ++ .turn r x u d :: l)).length := by
    rw [consumed_append, consumed_cons, List.length_append]
    exact Nat.le_add_left _ _
  cases h with
  | opening hs hc hp hl hin =>
    have hin' : EachTurn (DashKept (comment w).length) ((Ev.items x es u).reverse ++ .turn r x u d :: l) :=
      eachTurn_items.mpr ⟨.of_top (ne_skip_of_opening hs), hin⟩
    have hpage := hp.trans (comment_append w q)
    rcases hrule.commentOpens hs hif hpage with ⟨l', rfl, hst⟩ | ⟨t, rfl, hdrop, hst, hr, he⟩ | ⟨hnil, hcache, -⟩
    · exact .opening hst (by simp [hy]) (by simpa using hp) ⟨by simp [hl.read], by simp [hl.silent]⟩ hin'
    · refine .body (lit "<!--") w rfl hw hst (by simp [hy]) ?_ ⟨?_, ?_⟩ hin'
      · rw [hdrop]
        simpa using hpage
      · rw [consumed_append, hr, consumed_cons, hl.read]
        simp
      · rw [emitted_append, he, emitted_cons, hl.silent]
        rfl
    · exact absurd (hcache.symm.trans hy) hnil
  | body w₁ w₂ hw' hw₂ hs hc hp hl hin => exact .inside hw' hw₂ hs hp hl hin (hrule.skipTurn hs) hy
  | closed hs hc hp hl hin =>
    have hin' : EachTurn (DashKept (comment w).length) ((Ev.items x es u).reverse ++ .turn r x u d :: l) :=
      eachTurn_items.mpr ⟨.of_top (by simp [hs]), hin⟩
    by_cases hr : r = .htmlStripBuffer
    · subst hr
      refine .passed ?_ ⟨_, _, x, u, d, l, rfl, hs, hl⟩ hin'
      rw [← hp]
      exact List.append_ne_nil_of_left_ne_nil (hrule.text_ne hs) fut
    · obtain ⟨rfl, hst⟩ := hrule.back hs hr
      exact .closed hst hy hp ⟨hl.read, hl.silent⟩ hin'
  | passed hq hl hin =>
    have happ := hl.append ((Ev.items x es u).reverse ++ [.turn r x u d])
    rw [List.append_assoc] at happ
    refine .passed hq happ (eachTurn_items.mpr ⟨.of_read ?_, hin⟩)
    exact Nat.le_add_right_of_le (hl.read_le Removed.read)
  | overshot hl hin hp =>
    have htext : (comment w).length < (consumed l).length ∨ x.state.top ≠ .text :=
      hp.imp_right fun h => by simp [h.1]
    refine .overshot (not_inTextBehind_turn hturns Removed.read hl htext)
      (fun hall => hin (eachTurn_items.mp hall).2) ?_
    rcases hp with hp | ⟨hs, hp⟩
    · exact .inl (Nat.lt_of_lt_of_le hp hread)
    · have hlt := Nat.lt_of_lt_of_le hp (Nat.add_le_add_right hread 3)
      cases hrule.skipTurn hs with
      | close hy' => exact .inl (by simp; omega)
      | call _ hy' | three _ hy' | miss _ _ hy' | byte _ hy' => exact .inr ⟨by rw [hy', hs], hlt⟩
      | holds _ hy' => exact absurd (hy.symm.trans hy'.cache) (by simp)

/-- What holding back all unread bytes makes of the phase. -/
theorem CommentPhase.hold (h : CommentPhase w q x u fut l) {a : List UInt8}
    (hrule : HtmlRule x r u (Ev.holds a u) y .again) (hif : ¬ lit "[if" <+: w) (hy : x.Held u y) :
    CommentPhase w q y u fut (.cacheCall a 0 u :: .turn r x u d :: l) := by
  have hcalls : ∀ r' x' u' d', Item.turn r' x' u' d' ∉ [Item.cacheCall a 0 u] := by simp
  cases h with
  | opening hs _ hp hl hin =>
    have hpage := hp.trans (comment_append w q)
    rcases hrule.commentOpens hs hif hpage with ⟨l', hes, -⟩ | ⟨t, rfl, hdrop, hst, -⟩ | ⟨-, -, hlt, -⟩
    · exact absurd hes (Ev.holds_ne_stacks a u l')
    · exact absurd (hy.state ▸ hst) (ne_skip_of_opening hs)
    · refine .opening (by rwa [hy.state]) (by rwa [hy.cache]) hp ⟨hl.read, hl.silent⟩ ?_
      exact eachTurn_held.mpr ⟨.of_top (ne_skip_of_opening hs), hin⟩
  | body w₁ w₂ hw' hw₂ hs _ hp hl hin =>
    have hturn := hrule.skipTurn hs
    generalize hes : Ev.holds a u = es at hturn
    cases hturn with
    | @holds t ht _ =>
      refine .body w₁ w₂ hw' hw₂ (by rwa [hy.state]) (by rw [hy.cache]; exact Nat.succ_lt_succ ht) hp
        ⟨hl.read, hl.silent⟩ (eachTurn_held.mpr ⟨.of_short fun _ => ?_, hin⟩)
      exact Nat.succ_lt_succ ht
    | @miss t ht hn _ =>
      refine .body w₁ w₂ hw' hw₂ (by rwa [hy.state]) (by rw [hy.cache]; exact Nat.succ_lt_succ ht) hp
        ⟨hl.read, hl.silent⟩ (eachTurn_held.mpr ⟨.of_short fun _ => ?_, hin⟩)
      exact Nat.succ_lt_succ ht
    | call | close | three | byte => cases hes
  | closed hs _ hp hl hin =>
    have hturn : DashKept (comment w).length r x u d l := .of_top (by simp [hs])
    by_cases hr : r = .htmlStripBuffer
    · subst hr
      refine .passed ?_ ⟨[.cacheCall a 0 u], _, x, u, d, l, rfl, hs, hl⟩ (eachTurn_held.mpr ⟨hturn, hin⟩)
      rw [← hp]
      exact List.append_ne_nil_of_left_ne_nil (hrule.text_ne hs) fut
    · exact absurd (hrule.back hs hr).1 (List.cons_ne_nil _ _)
  | passed hq hl hin =>
    refine .passed hq (hl.append [.cacheCall a 0 u, .turn r x u d]) (eachTurn_held.mpr ⟨.of_read ?_, hin⟩)
    exact Nat.le_add_right_of_le (hl.read_le Removed.read)
  | overshot hl hin hp =>
    have htext : (comment w).length < (consumed l).length ∨ x.state.top ≠ .text :=
      hp.imp_right fun h => by simp [h.1]
    exact .overshot (not_inTextBehind_turn hcalls Removed.read hl htext)
      (fun hall => hin (eachTurn_held.mp hall).2) (by rwa [hy.state])

end Phases

/-- Passages that begin with an ordinary comment. -/
theorem commentPassage {w : List UInt8} (q : List UInt8) (hif : ¬ lit "[if" <+: w)
    (hw : EndsFirst (lit "-->") w) :
    Passage htmlMachine (fun x page => x.state.top = .text ∧ page = comment w ++ q)
      fun _ _ c u fut l => CommentPhase w q c u fut l where
  start h _ hc :=
    .opening (by simp [commentOpening, h.1]) (by simp [hc]) h.2 ⟨rfl, rfl⟩ eachTurn_nil
  next {x c page u buf fut l} h := by
    cases h with
    | opening hs hc hp hl hin =>
      exact .opening hs (by simp) (by simpa using hp) ⟨hl.read, hl.silent⟩ ((eachTurn_cons (by simp)).mpr hin)
    | body w₁ w₂ hw' hw₂ hs hc hp hl hin =>
      exact .body w₁ w₂ hw' hw₂ hs (by simp) (by simpa using hp) ⟨hl.read, hl.silent⟩
        ((eachTurn_cons (by simp)).mpr hin)
    | closed hs hc hp hl hin =>
      exact .closed hs rfl (by simpa using hp) ⟨hl.read, hl.silent⟩ ((eachTurn_cons (by simp)).mpr hin)
    | passed hq hl hin => exact .passed hq (hl.append [.buffer]) ((eachTurn_cons (by simp)).mpr hin)
    | overshot hl hin hp =>
      exact .overshot (fun hb => hl (hb.of_cons (by simp))) (fun hall => hin ((eachTurn_cons (by simp)).mp hall)) hp
  turn {x c y page u fut l r r' d es nxt k k'} old h hc hy _ hrule _ := by
    obtain ⟨p₁, p₂, hend⟩ := nxt.ended_eq r' (d + (emitted (Ev.items c es u)).length)
      (emitted ((Ev.items c es u).reverse ++ .turn r c u d :: l) ++ old) y
    exact (h.turn hrule hif hw hy).of_eq (by rw [hend]) (by rw [hend])
  hold {x c y page u fut l r d} a old h hc _ hrule hy := by
    obtain ⟨p₁, p₂, hend⟩ := Next.again.ended_eq r d (emitted l ++ old) y
    exact (h.hold hrule hif hy).of_eq (by rw [hend]) (by rw [hend])
  done {x c page u fut l r d} old h := by
    obtain ⟨p₁, p₂, hend⟩ := Next.again.ended_eq r d (emitted l ++ old) c
    exact h.of_eq (by rw [hend]) (by rw [hend])

/-- Nothing of the bytes `c` has been written, and after them the page `q` is read in the text state; at
the end of the page, the minifier is left in that state. -/
def ReadsOn (c : List UInt8) (s : Session) (newer : List Item) : List UInt8 → Prop
  | [] => s.ctx.state.top = .text ∧ s.ctx.cache = [] ∧ Removed c newer
  | _ => InTextBehind (Removed c) newer

/-- An ordinary comment that the text state comes upon, wherever the buffers cut it, is passed over up to
its first `-->` and no further just when no iteration passes over three bytes at a `-` that is one of the
last two bytes of the body. -/
theorem comment_ends_iff {cap : Option ℕ} {bufs : List (List UInt8)} {s : Session}
    (h : feedAll Flat cap .html .start bufs = .ok s) {newer older : List Item} {r : Routine} {x : Ctx}
    {u w q : List UInt8} {d : ℕ} (htr : s.trace = newer ++ .turn r x u d :: older)
    (hs : x.state.top = .text) (hpage : (consumed newer).reverse ++ s.ctx.cache = comment w ++ q)
    (hif : ¬ lit "[if" <+: w) (hw : EndsFirst (lit "-->") w) :
    ReadsOn (comment w) s (newer ++ [.turn r x u d]) q ↔
      EachTurn (DashKept (comment w).length) (newer ++ [.turn r x u d]) := by
  have hpassage : Passage (machine .html) _ _ := commentPassage q hif hw
  have hphase : CommentPhase w q s.ctx s.ctx.cache [] (newer ++ [.turn r x u d]) :=
    hpassage.session h htr hpage ⟨hs, rfl⟩
  cases hphase with
  | opening _ hc hp =>
    have hlen := congrArg List.length hp
    simp [comment] at hlen
    omega
  | body w₁ w₂ _ _ _ hc hp =>
    have hlen := congrArg List.length hp
    simp at hlen
    omega
  | closed hst hc hp hl hin =>
    rw [hc] at hp
    subst hp
    exact iff_of_true ⟨hst, hc, hl⟩ hin
  | passed hq hl hin =>
    rcases q with _ | ⟨b, q⟩
    · exact absurd rfl hq
    · exact iff_of_true hl hin
  | overshot hl hin hp =>
    refine iff_of_false (fun hreads => ?_) hin
    rcases q with _ | ⟨b, q⟩
    · rcases hp with hp | ⟨hst, -⟩
      · rw [hreads.2.2.read, List.length_reverse] at hp
        exact absurd hp (Nat.lt_irrefl _)
      · exact absurd (hst.symm.trans hreads.1) (by decide)
    · exact hl hreads

/-- The page `<!---a-->q`, cut behind the `a`: the `-` of the body is alone with one byte behind it. -/
theorem comment_ends_iff_cut : ∃ s newer, feedAll Flat none .html .start [lit "<!---a", lit "-->q"] = .ok s ∧
    ReadsOn (comment (lit "-a")) s newer (lit "q") := by
  obtain ⟨s, newer, older, hs, htr, hf⟩ : ∃ s newer older,
      feedAll Flat none .html .start [lit "<!---a", lit "-->q"] = .ok s ∧
        s.trace = newer ++ .turn .htmlStripBuffer Ctx.zero (lit "<!---a") 0 :: older ∧
        ((consumed newer).reverse ++ s.ctx.cache, decide (EachTurn (DashKept (comment (lit "-a")).length)
          (newer ++ [.turn .htmlStripBuffer Ctx.zero (lit "<!---a") 0]))) = (comment (lit "-a") ++ lit "q", true) :=
    exists_turn (n := 29) (f := fun s newer => ((consumed newer).reverse ++ s.ctx.cache,
      decide (EachTurn (DashKept (comment (lit "-a")).length)
        (newer ++ [.turn .htmlStripBuffer Ctx.zero (lit "<!---a") 0])))) (by decide +kernel)
  obtain ⟨hpage, hturns⟩ := Prod.mk.inj hf
  have hw : EndsFirst (lit "--" ++ [gt]) (lit "-a") := .of_notInfix (by decide)
  exact ⟨s, _, hs, (comment_ends_iff hs htr rfl hpage (by decide) hw).mpr (of_decide_eq_true hturns)⟩

/-- In the page `<!----->` the `-` of the comment takes two bytes of the closing `-->` with it. -/
theorem comment_runs_on : ¬ ∀ (bufs : List (List UInt8)) (s : Session) (newer older : List Item)
    (r : Routine) (x : Ctx) (u w q : List UInt8) (d : ℕ), feedAll Flat none .html .start bufs = .ok s →
      s.trace = newer ++ .turn r x u d :: older → x.state.top = .text →
        (consumed newer).reverse ++ s.ctx.cache = comment w ++ q → ¬ lit "[if" <+: w →
          EndsFirst (lit "-->") w → ReadsOn (comment w) s (newer ++ [.turn r x u d]) q := by
  intro h
  obtain ⟨s, newer, older, hs, htr, hf⟩ : ∃ s newer older,
      feedAll Flat none .html .start [lit "<!----->"] = .ok s ∧
        s.trace = newer ++ .turn .htmlStripBuffer Ctx.zero (lit "<!----->") 0 :: older ∧
        ((consumed newer).reverse ++ s.ctx.cache, s.ctx.state.top) = (comment [dash] ++ [], .htmlCommentSkip) :=
    exists_turn (n := 18) (f := fun s newer => ((consumed newer).reverse ++ s.ctx.cache, s.ctx.state.top))
      (by decide +kernel)
  obtain ⟨hpage, hskip⟩ := Prod.mk.inj hf
  have hw : EndsFirst (lit "--" ++ [gt]) [dash] := .of_notInfix (by decide)
  have hreads := h _ s newer older _ _ _ _ _ _ hs htr rfl hpage (by decide) hw
  exact absurd (hskip.symm.trans hreads.1) (by decide)

end NginB.Minify
