import NginB.Minify.Elements
import NginB.Minify.Selection
import NginB.Minify.TextSpaces

/-! # What is left out of tags

Behind a tag that the text state comes upon, the bytes that the minifier may leave out are told by what
the tags before them have led to: spaces where there is one before, and in the text white space.
-/
namespace NginB.Minify
open NginB.Program Relation Ascii

/-- The byte `b` may be left out behind the bytes `read`, of which `out` has been written; the newest
bytes come first. -/
def TagScan.MayDrop (s : TagScan) (read out : List UInt8) (b : UInt8) : Prop :=
  match s.mode with
  | .text => b = lf ∨ b = cr ∨ b = tab ∨ b = lt ∨ b = space ∧ out.head? = some space
  | .attrs => b = space ∧ read.head? = some space
  | .opened => b = space ∨ b = bang
  | .endName => b = space
  | .bang => True
  | _ => False

def tagsRead (s₀ : TagScan) (l : List Item) : TagScan := (consumed l).reverse.foldl readTag s₀

/-- Nothing is left out of the page but what may be, and nothing is changed. -/
def DropsAsRead (s₀ : TagScan) : List Item → Prop
  | [] => True
  | .emit _ b c :: l => c = b ∧ DropsAsRead s₀ l
  | .skip _ b :: l => (tagsRead s₀ l).MayDrop (consumed l) (emitted l) b ∧ DropsAsRead s₀ l
  | _ :: l => DropsAsRead s₀ l

/-- What has been written when the first `n` bytes are read, newest first. -/
def writtenTo (n : ℕ) : List Item → List UInt8
  | [] => []
  | i :: l => if n ≤ (consumed l).length then writtenTo n l else i.emitted ++ writtenTo n l

section Written
variable {n : ℕ} {l : List Item} {i : Item} {s₀ : TagScan} {b : UInt8} {w w' : List UInt8}

theorem Item.emitted_nil (h : i.consumed = []) : i.emitted = [] := by
  cases i with
  | emit => exact absurd h (List.cons_ne_nil _ _)
  | _ => rfl

theorem writtenTo_cons_le (h : n ≤ (consumed l).length) : writtenTo n (i :: l) = writtenTo n l := if_pos h

theorem writtenTo_all (h : (consumed l).length ≤ n) : writtenTo n l = emitted l := by
  induction l with
  | nil => rfl
  | cons i l ih =>
    rw [consumed_cons, List.length_append] at h
    rw [writtenTo, emitted_cons, ih (by omega)]
    split
    next hle =>
      have hnil : i.consumed = [] := List.eq_nil_of_length_eq_zero (by omega)
      rw [Item.emitted_nil hnil]
      rfl
    next => rfl

/-- As long as a byte more is read without it, an item does not matter. -/
theorem writtenTo_skip (h : (consumed l).reverse = w ++ b :: w') :
    writtenTo (w.length + 1) (i :: l) = writtenTo (w.length + 1) l ∧
      writtenTo w.length (i :: l) = writtenTo w.length l := by
  have hlen := congrArg List.length h
  simp only [List.length_reverse, List.length_append, List.length_cons] at hlen
  exact ⟨writtenTo_cons_le (by omega), writtenTo_cons_le (by omega)⟩

theorem writtenTo_last (h : (consumed l).reverse = w) :
    writtenTo (w.length + 1) (i :: l) = i.emitted ++ writtenTo w.length (i :: l) ∧
      writtenTo w.length (i :: l) = emitted l := by
  have hlen : (consumed l).length = w.length := by rw [← h, List.length_reverse]
  have hall := writtenTo_all (Nat.le_of_eq hlen)
  have hall' := writtenTo_all (n := w.length + 1) (l := l) (by omega)
  rw [writtenTo_cons_le (Nat.le_of_eq hlen.symm), hall]
  exact ⟨by rw [writtenTo, if_neg (by omega), hall'], rfl⟩

/-- A byte that is read is written, or it may be left out. -/
theorem DropsAsRead.written (hl : DropsAsRead s₀ l) (h : (consumed l).reverse = w ++ b :: w') :
    writtenTo (w.length + 1) l = b :: writtenTo w.length l ∨
      writtenTo (w.length + 1) l = writtenTo w.length l ∧
        (w.foldl readTag s₀).MayDrop w.reverse (writtenTo w.length l) b := by
  induction l generalizing w' with
  | nil => simp at h
  | cons i l ih =>
    have hrest : DropsAsRead s₀ l := by
      cases i with
      | emit | skip => exact hl.2
      | _ => exact hl
    have hreads : i.consumed = [] ∨ ∃ a, i.consumed = [a] := by
      cases i with
      | emit | skip => exact .inr ⟨_, rfl⟩
      | _ => exact .inl rfl
    rw [consumed_cons, List.reverse_append] at h
    rcases hreads with hnil | ⟨a, ha⟩
    · rw [hnil, List.reverse_nil, List.append_nil] at h
      rw [(writtenTo_skip h).1, (writtenTo_skip h).2]
      exact ih hrest h
    · rw [ha, List.reverse_singleton] at h
      rcases List.eq_nil_or_concat w' with rfl | ⟨v, c, rfl⟩
      · obtain ⟨hw, hb⟩ := List.append_inj' h rfl
        obtain rfl : a = b := (List.cons.inj hb).1
        rw [(writtenTo_last hw).1, (writtenTo_last hw).2]
        cases i with
        | emit st b' c =>
          obtain ⟨rfl, -⟩ := hl
          exact .inl (congrArg (· ++ emitted l) ha)
        | skip st b' =>
          obtain rfl : b' = a := (List.cons.inj ha).1
          refine .inr ⟨rfl, ?_⟩
          rw [← hw, List.reverse_reverse]
          exact hl.1
        | _ => cases ha
      · rw [List.concat_eq_append, ← List.cons_append, ← List.append_assoc] at h
        have hpre := (List.append_inj' h rfl).1
        rw [(writtenTo_skip hpre).1, (writtenTo_skip hpre).2]
        exact ih hrest hpre

end Written

section Rules
variable {s₀ : TagScan} {x y : Ctx} {r : Routine} {u : List UInt8} {es : List Ev} {nxt : Next} {l : List Item}
  {d : ℕ}

@[simp] theorem tagsRead_turn : tagsRead s₀ (.turn r x u d :: l) = tagsRead s₀ l := rfl

@[simp] theorem tagsRead_cacheCall {a rest : List UInt8} {k : ℕ} :
    tagsRead s₀ (.cacheCall a k rest :: l) = tagsRead s₀ l := rfl

@[simp] theorem tagsRead_skip {st : MinifyState} {b : UInt8} :
    tagsRead s₀ (.skip st b :: l) = readTag (tagsRead s₀ l) b := by
  simp [tagsRead, List.foldl_append]

theorem tagsRead_items (h : Ev.takes es ≤ u.length) :
    tagsRead s₀ ((Ev.items x es u).reverse ++ .turn r x u d :: l) =
      (u.take (Ev.takes es)).foldl readTag (tagsRead s₀ l) := by
  rw [tagsRead, consumed_append, consumed_reverse, Ev.consumed_items _ _ _ h, List.reverse_append,
    List.reverse_reverse, List.foldl_append]
  rfl

theorem drops_copies (hskip : .skip ∉ es) (hput : ∀ c, .put c ∉ es) :
    ∀ (u : List UInt8) (l : List Item), DropsAsRead s₀ l → DropsAsRead s₀ ((Ev.items x es u).reverse ++ l) := by
  induction es with
  | nil => exact fun _ _ h => h
  | cons e es ih =>
    intro u l h
    simp only [List.mem_cons, not_or] at hskip hput
    have ih' := ih hskip.2 fun c => (hput c).2
    cases e with
    | skip => exact absurd rfl hskip.1
    | put c => exact absurd rfl (hput c).1
    | copy | tag | stack | call =>
      rw [Ev.items, List.reverse_cons, List.append_assoc]
      apply ih'
      first | exact ⟨rfl, h⟩ | exact h

theorem drops_gone (hput : ∀ c, .put c ∉ es) : ∀ (u : List UInt8) (l : List Item),
    (tagsRead s₀ l).mode = .bang → DropsAsRead s₀ l → DropsAsRead s₀ ((Ev.items x es u).reverse ++ l) := by
  induction es with
  | nil => exact fun _ _ _ h => h
  | cons e es ih =>
    intro u l hm h
    simp only [List.mem_cons, not_or] at hput
    have ih' := ih fun c => (hput c).2
    have hread : ∀ b, (readTag (tagsRead s₀ l) b).mode = .bang := fun b => by simp [readTag, hm]
    cases e with
    | put c => exact absurd rfl (hput c).1
    | skip | copy | tag | stack | call =>
      rw [Ev.items, List.reverse_cons, List.append_assoc]
      apply ih'
      · first | exact hm | (simp only [tagsRead, List.cons_append, List.nil_append, consumed_cons, Item.consumed,
          List.reverse_cons, List.foldl_append, List.foldl_cons, List.foldl_nil]; exact hread _)
      · first | exact ⟨by simp [TagScan.MayDrop, hm], h⟩ | exact ⟨rfl, h⟩ | exact h

/-- What `pre_char` tells of a space that is ahead. -/
structure SpaceTold (s : TagScan) (x : Ctx) (u : List UInt8) (l : List Item) : Prop where
  text : u.head? = some space → x.state.top = .text → s.mode = .text → x.preChar = space →
    (emitted l).head? = some space
  attrs : u.head? = some space → x.state.top = .htmlTagatt → x.preChar = space → (consumed l).head? = some space

/-- What an iteration leaves out may be left out. -/
theorem HtmlRule.drops (h : HtmlRule x r u es y nxt) (hy : y.cache = [])
    (hs : (tagsRead s₀ l).mode = .bang ∨ (tagsRead s₀ l).Follows x u)
    (htold : (tagsRead s₀ l).mode ≠ .bang → SpaceTold (tagsRead s₀ l) x u l) (hl : DropsAsRead s₀ l) :
    DropsAsRead s₀ ((Ev.items x es u).reverse ++ .turn r x u d :: l) := by
  have hturn : DropsAsRead s₀ (.turn r x u d :: l) := hl
  by_cases hm : (tagsRead s₀ l).mode = .bang
  · exact drops_gone h.no_put u _ hm hturn
  replace hs := hs.resolve_left hm
  replace htold := htold hm
  by_cases hskip : .skip ∈ es
  · cases h
    case attSpace t hs' hp =>
      simp only [TagScan.Follows, hs'] at hs
      have hlast := htold.attrs rfl hs' hp
      rcases hs with ⟨-, hm⟩ | ⟨-, -, hpre⟩
      · exact ⟨by simp [TagScan.MayDrop, hm, hlast], hturn⟩
      · simp at hpre
    case endSpace t hs' =>
      simp only [TagScan.Follows, hs'] at hs
      exact ⟨by simp [TagScan.MayDrop, hs.2], hturn⟩
    case tagSpace t hs' =>
      simp only [TagScan.Follows, hs'] at hs
      rcases hs.2 with hm | ⟨-, hpre⟩
      · exact ⟨by simp [TagScan.MayDrop, hm], hturn⟩
      · simp at hpre
    case textBreak b t hs' hb =>
      simp only [TagScan.Follows, hs'] at hs
      rcases hs.2 with hm | ⟨-, hpre⟩
      · have hdrop : (tagsRead s₀ l).MayDrop (consumed l) (emitted l) b := by
          simp only [TagScan.MayDrop, hm]
          tauto
        exact ⟨hdrop, hturn⟩
      · have hlt : b = lt := (List.cons_prefix_cons.mp hpre).1.symm
        rw [hlt] at hb
        exact absurd hb (by decide)
    case textSpace t hs' hp =>
      simp only [TagScan.Follows, hs'] at hs
      rcases hs.2 with hm | ⟨-, hpre⟩
      · have hlast := htold.text rfl hs' hm hp
        exact ⟨by simp [TagScan.MayDrop, hm, hlast], hturn⟩
      · simp at hpre
    case commentPlain hs' _ | commentOther hs' _ | commentMiss hs' _ _ =>
      simp only [TagScan.Follows, hs'] at hs
      simp [DropsAsRead, TagScan.MayDrop, readTag, hs.1, hl]
    case endGt => split at hskip <;> simp at hskip
    case ieMiss | skipClose | skipThree | skipMiss | skipByte => simp_all [TagScan.Follows]
    case attHold | commentHold | commentHoldIf | ieHold | skipHold | bangHoldDash | bangHoldCdata | cdataHold |
        textHoldBang | textHold | elementHold => simp at hy
    all_goals simp at hskip
  · exact drops_copies hskip h.no_put u _ hturn

inductive PreTurn (x y : Ctx) : Routine → List UInt8 → List Ev → Next → Prop
  | quiet {r : Routine} {u : List UInt8} {nxt : Next} (hst : y.state.top = x.state.top) (hp : y.preChar = x.preChar ∨ y.preChar = nul) :
      PreTurn x y r u [] nxt
  | skips {r : Routine} {b : UInt8} {t : List UInt8} (hst : y.state.top = x.state.top)
      (hp : y.preChar = x.preChar) (hb : b = space ∨ x.state.top = .text) (hlt : b ≠ lt) : PreTurn x y r (b :: t) [.skip] .again
  | writes {r : Routine} {u : List UInt8} {es : List Ev} {b : UInt8} (hr : r.refreshes = true)
      (hno : y.nochangePre = false) (hout : (emitted (Ev.items x es u).reverse).head? = some b)
      (hread : (consumed (Ev.items x es u).reverse).head? = some b) : PreTurn x y r u es .again

theorem HtmlRule.preTurn {s : TagScan} (h : HtmlRule x r u es y nxt) (hy : y.cache = []) (hs : s.Follows x u)
    (hlive : x.state.top ∈ liveStates → x.nochangePre = false)
    (hm : ((u.take (Ev.takes es)).foldl readTag s).mode ≠ .bang)
    (hst : ((u.take (Ev.takes es)).foldl readTag s).mode = .text ∧ y.state.top = .text ∨ y.state.top = .htmlTagatt) :
    PreTurn x y r u es nxt := by
  cases h
  case nameGt hs' =>
    exact .writes (b := gt) rfl (by simpa using hlive (by simp [hs', liveStates])) (by simp) (by simp)
  case nameBlank b t hs' hb =>
    exact .writes (b := b) rfl (by simpa using hlive (by simp [hs', liveStates])) (by simp) (by simp)
  case attGt hs' =>
    exact .writes (b := gt) rfl (hlive (by simp [hs', liveStates])) (by simp) (by simp)
  case attSpace hs' hp => exact .skips rfl rfl (.inl rfl) (by decide)
  case attClose hs' => exact .writes (b := slash) rfl (hlive (by simp [hs', liveStates])) (by simp) (by simp)
  case attSlash b t hs' hb =>
    exact .writes (b := b) rfl (hlive (by simp [hs', liveStates])) (by simp) (by simp)
  case attByte b t hs' hb hp =>
    exact .writes (b := b) rfl (hlive (by simp [hs', liveStates])) (by simp) (by simp)
  case endGt hs' =>
    refine .writes (b := gt) rfl (by simpa using hlive (by simp [hs', liveStates])) ?_ ?_ <;> split <;> simp
  case nameLeave | commentLeave | tagLeave | callTag | callComment => exact .quiet rfl (.inl rfl)
  case callTagname => exact .quiet rfl (.inr rfl)
  case textBreak hs' hb => exact .skips rfl rfl (.inr hs') (by rcases hb with rfl | rfl | rfl <;> decide)
  case textSpace hs' _ => exact .skips rfl rfl (.inr hs') (by decide)
  case textByte b t _ _ _ => exact .writes (b := b) rfl rfl (by simp) (by simp)
  case bangNine t hs' _ _ =>
    simp only [TagScan.Follows, hs'] at hs
    have hgone := TagScan.foldl_lt_bang (v := lbracket :: t.take 6) hs.1
    exact absurd (congrArg TagScan.mode hgone) (by simpa using hm)
  all_goals simp_all [TagScan.Follows]

end Rules

/-- What `pre_char` tells in attributes: a space that has been read last. -/
structure AttsTold (x : Ctx) (l : List Item) : Prop where
  pre : x.preChar = space → (consumed l).head? = some space
  out : (emitted l).head? = some space → (consumed l).head? = some space

inductive OutPhase (s₀ : TagScan) (page : List UInt8) (x : Ctx) (u fut : List UInt8) (l : List Item) : Prop
  | opening (hs : x.state.top = .text) (hp : u ++ fut = page) (hl : consumed l = [] ∧ emitted l = [])
  | inside (hw : emitted l ≠ []) (hlive : x.state.top ∈ liveStates → x.nochangePre = false)
      (htext : (tagsRead s₀ l).mode = .text → x.state.top = .text → x.preChar = space →
        (emitted l).head? = some space)
      (hatts : (tagsRead s₀ l).mode ≠ .bang → x.state.top = .htmlTagatt → AttsTold x l)

section Phases
variable {s₀ : TagScan} {x y : Ctx} {r : Routine} {u fut page : List UInt8} {es : List Ev} {nxt : Next} {l : List Item}
  {d : ℕ}

theorem OutPhase.of_eq (h : OutPhase s₀ page x u fut l) (old : List UInt8) (hst : y.state.top = x.state.top)
    (hno : y.nochangePre = x.nochangePre) (hpre : y.preChar = x.preChar ∨ y.preChar = (emitted l ++ old).headD 0) :
    OutPhase s₀ page y u fut l := by
  cases h with
  | opening hs hp hl => exact .opening (hst.trans hs) hp hl
  | inside hw hlive htext hatts =>
    have hnew : y.preChar = x.preChar ∨ (emitted l).head? = some y.preChar := by
      refine hpre.imp_right fun hp => ?_
      obtain ⟨b, w, hout⟩ := List.exists_cons_of_ne_nil hw
      rw [hp, hout]
      rfl
    refine .inside hw (by rw [hst, hno]; exact hlive) (fun hm hs hsp => ?_) fun hm hs => ⟨fun hsp => ?_, ?_⟩
    · rcases hnew with hp | hhead
      · exact htext hm (hst.symm.trans hs) (hp.symm.trans hsp)
      · rw [hhead, hsp]
    · have htold := hatts hm (hst.symm.trans hs)
      rcases hnew with hp | hhead
      · exact htold.pre (hp.symm.trans hsp)
      · exact htold.out (by rw [hhead, hsp])
    · exact (hatts hm (hst.symm.trans hs)).out

theorem HtmlRule.openTag {c : UInt8} {w : List UInt8} (h : HtmlRule x r u es y nxt) (hy : y.cache = [])
    (hs : x.state.top = .text) (hp : u ++ fut = lt :: c :: w) (hc : c ≠ bang) :
    es = [] ∧ y = x ∨ ∃ t, u = lt :: t ∧ es = [.copy, .stack (htmlStack .htmlTag)] ∧ nxt = .again ∧
      y.state.top = .htmlTag ∧ y.nochangePre = false := by
  cases h
  case textTag b t _ _ => exact .inr ⟨_, rfl, rfl, rfl, by simp, rfl⟩
  case nameLeave | commentLeave | tagLeave => exact .inl ⟨rfl, rfl⟩
  all_goals simp_all

/-- The last byte that an iteration has written and read is told by `pre_char`. -/
theorem PreTurn.written {b : UInt8} {r' : Routine} {k k' : List Routine} (hgo : Next.again.Goes r k r' k')
    (hr : r.refreshes = true) (hno : y.nochangePre = false)
    (hout : (emitted (Ev.items x es u).reverse).head? = some b) (old : List UInt8) :
    (Next.again.ended r' (d + (emitted (Ev.items x es u)).length)
      (emitted ((Ev.items x es u).reverse ++ .turn r x u d :: l) ++ old) y).preChar = b := by
  obtain ⟨w, hw⟩ := List.head?_eq_some_iff.mp hout
  have hlen := congrArg List.length hw
  rw [emitted_reverse, List.length_reverse, List.length_cons] at hlen
  cases hgo
  rw [Next.ended_refreshed hr hno (by omega), emitted_append, hw]
  rfl

/-- Where nothing is written, `pre_char` stays or is brought up to date. -/
theorem space_of_silent {p : UInt8} {old : List UInt8} (hw : emitted l ≠ []) (hp : p = space)
    (hpre : (p = x.preChar ∨ p = nul) ∨ p = (emitted l ++ old).headD 0) :
    x.preChar = space ∨ (emitted l).head? = some space := by
  subst hp
  rcases hpre with (hpre | hpre) | hpre
  · exact .inl hpre.symm
  · exact absurd hpre (by decide)
  · obtain ⟨b, w, hout⟩ := List.exists_cons_of_ne_nil hw
    rw [hout] at hpre ⊢
    exact .inr (congrArg some hpre.symm)

theorem OutPhase.turn {c : UInt8} {w : List UInt8} {r' : Routine} {k k' : List Routine}
    (h : OutPhase s₀ (lt :: c :: w) x u fut l) (hc : c ≠ bang) (htags : TagState s₀ x u l)
    (hrule : HtmlRule x r u es y nxt) (hgo : nxt.Goes r k r' k') (hy : y.cache = []) (old : List UInt8) :
    OutPhase s₀ (lt :: c :: w) (nxt.ended r' (d + (emitted (Ev.items x es u)).length)
        (emitted ((Ev.items x es u).reverse ++ .turn r x u d :: l) ++ old) y) (u.drop (Ev.takes es)) fut
      ((Ev.items x es u).reverse ++ .turn r x u d :: l) := by
  have hst := nxt.ended_state r' (d + (emitted (Ev.items x es u)).length)
    (emitted ((Ev.items x es u).reverse ++ .turn r x u d :: l) ++ old) y
  have hno := nxt.ended_nochangePre r' (d + (emitted (Ev.items x es u)).length)
    (emitted ((Ev.items x es u).reverse ++ .turn r x u d :: l) ++ old) y
  have hpre := nxt.ended_pre r' (d + (emitted (Ev.items x es u)).length)
    (emitted ((Ev.items x es u).reverse ++ .turn r x u d :: l) ++ old) y
  cases h with
  | opening hs hp hl =>
    rcases hrule.openTag hy hs hp hc with ⟨rfl, rfl⟩ | ⟨t, rfl, rfl, rfl, htag, hno'⟩
    · exact .opening (by rw [hst]; exact hs) hp hl
    · refine .inside (by simp) (fun _ => by rw [hno, hno']) (fun _ htext => ?_) fun _ hatt => ?_
      · rw [hst, htag] at htext
        cases htext
      · rw [hst, htag] at hatt
        cases hatt
  | inside hw hlive htext hatts =>
    have hread : tagsRead s₀ ((Ev.items x es u).reverse ++ .turn r x u d :: l) =
        (u.take (Ev.takes es)).foldl readTag (tagsRead s₀ l) := tagsRead_items hrule.takes_le
    have hturn : (tagsRead s₀ ((Ev.items x es u).reverse ++ .turn r x u d :: l)).mode ≠ .bang →
        (tagsRead s₀ ((Ev.items x es u).reverse ++ .turn r x u d :: l)).mode = .text ∧ y.state.top = .text ∨
          y.state.top = .htmlTagatt → (tagsRead s₀ l).Follows x u ∧ PreTurn x y r u es nxt := by
      intro hm hst
      rw [hread] at hm hst
      rcases htags.follows with hgone | hs
      · exact absurd (congrArg TagScan.mode (TagScan.foldl_bang hgone)) (fun h => hm (h.trans hgone))
      · exact ⟨hs, hrule.preTurn hy hs hlive hm hst⟩
    refine .inside ?_ (fun hlives => ?_) (fun hm hs hsp => ?_) fun hm hs => ?_
    · rw [emitted_append, emitted_cons]
      exact List.append_ne_nil_of_right_ne_nil _ hw
    · rw [hst] at hlives
      rw [hno]
      exact hrule.live_kept hlive hlives
    · rw [hst] at hs
      obtain ⟨hfollows, hpt⟩ := hturn (by rw [hm]; decide) (.inl ⟨hm, hs⟩)
      cases hpt with
      | quiet hst' hp =>
        rcases space_of_silent hw hsp (hpre.imp_left fun h => hp.imp h.trans h.trans) with hx | hlast
        · exact htext hm (hst'.symm.trans hs) hx
        · exact hlast
      | @skips b t hst' hp hb hlt =>
        have htop : x.state.top = .text := hst'.symm.trans hs
        simp only [TagScan.Follows, htop] at hfollows
        rcases hfollows.2 with hm' | ⟨-, hend⟩
        · rcases space_of_silent hw hsp (hpre.imp_left fun h => .inl (h.trans hp)) with hx | hlast
          · exact htext hm' htop hx
          · exact hlast
        · exact absurd (List.cons_prefix_cons.mp hend).1.symm hlt
      | writes hr hno' hout hread' =>
        rw [PreTurn.written hgo hr hno' hout] at hsp
        rw [emitted_append, List.head?_append, hout, hsp]
        rfl
    · rw [hst] at hs
      obtain ⟨hfollows, hpt⟩ := hturn hm (.inr hs)
      cases hpt with
      | quiet hst' hp =>
        have htold := hatts hm (hst'.symm.trans hs)
        refine ⟨fun hsp => ?_, htold.out⟩
        exact (space_of_silent hw hsp (hpre.imp_left fun h => hp.imp h.trans h.trans)).elim htold.pre htold.out
      | @skips b t hst' hp hb hlt =>
        obtain rfl : b = space := hb.resolve_right (by rw [← hst', hs]; decide)
        exact ⟨fun _ => rfl, fun _ => rfl⟩
      | @writes _ _ b hr hno' hout hread' =>
        have hcons : (consumed ((Ev.items x es u).reverse ++ .turn r x u d :: l)).head? = some b := by
          rw [consumed_append, List.head?_append, hread']
          rfl
        constructor
        · intro hsp
          rw [PreTurn.written hgo hr hno' hout] at hsp
          rw [hcons, hsp]
        · intro hsp
          rw [emitted_append, List.head?_append, hout] at hsp
          rw [hcons]
          exact hsp

/-- What holding back all unread bytes makes of the phase. -/
theorem OutPhase.hold (h : OutPhase s₀ page x u fut l) {a : List UInt8} (hy : x.Held u y) :
    OutPhase s₀ page y u fut (.cacheCall a 0 u :: .turn r x u d :: l) := by
  have hpre : y.preChar = x.preChar := by cases hy <;> rfl
  cases h with
  | opening hs hp hl => exact .opening (by rw [hy.state, hs]) hp hl
  | inside hw hlive htext hatts =>
    refine .inside hw (fun hlives => ?_) (fun hm hs hsp => ?_) fun hm hs => ⟨fun hsp => ?_, ?_⟩
    · cases hy with
      | plain => exact hlive hlives
      | text => rfl
    · exact htext hm (by rwa [← hy.state]) (hpre.symm.trans hsp)
    · exact (hatts hm (by rwa [← hy.state])).pre (hpre.symm.trans hsp)
    · exact (hatts hm (by rwa [← hy.state])).out

theorem OutPhase.told {c : UInt8} {w : List UInt8} (h : OutPhase s₀ (lt :: c :: w) x u fut l)
    (hm : (tagsRead s₀ l).mode ≠ .bang) : SpaceTold (tagsRead s₀ l) x u l := by
  cases h with
  | opening hs hp hl =>
    have hnot : u.head? ≠ some space := by
      intro hu
      obtain ⟨t, rfl⟩ := List.head?_eq_some_iff.mp hu
      exact absurd (List.cons.inj hp).1 (by decide)
    exact ⟨fun hu => absurd hu hnot, fun hu => absurd hu hnot⟩
  | inside hw hlive htext hatts =>
    exact ⟨fun _ hs hm' hsp => htext hm' hs hsp, fun _ hs hsp => (hatts hm hs).pre hsp⟩

/-- Bytes that begin a token like `-->` hold no `>`. -/
theorem gt_notMem_of_cacheable {tok v : List UInt8} (h : cacheable tok v = true) (htok : gt ∉ tok.dropLast)
    (hv : v.length < tok.length) : gt ∉ v := by
  induction v generalizing tok with
  | nil => exact List.not_mem_nil
  | cons b v ih =>
    rcases tok with _ | ⟨a, _ | ⟨a', tok⟩⟩
    · cases h
    · exact absurd hv (by simp)
    · rw [cacheable, Bool.and_eq_true, decide_eq_true_iff] at h
      rw [List.dropLast_cons_of_ne_nil (List.cons_ne_nil _ _), List.mem_cons, not_or] at htok
      intro hmem
      rcases List.mem_cons.mp hmem with rfl | hmem
      · exact htok.1 (toLower_eq (by decide) h.1.symm).symm
      · exact ih h.2 htok.2 (Nat.lt_of_succ_lt_succ hv) hmem

theorem HtmlRule.held_gt {a : List UInt8} (h : HtmlRule x r u (Ev.holds a u) y nxt) (hx : x.cache = [])
    (hy : y.cache = u) : gt ∉ u := by
  generalize hes : Ev.holds a u = es at h
  cases h
  case commentHoldIf | ieHold | skipHold | bangHoldCdata | cdataHold =>
    apply gt_notMem_of_cacheable (by assumption)
    · decide
    · simp
      omega
  case attHold | commentHold | bangHoldDash | textHoldBang | textHold | elementHold => decide
  case endGt => split at hes <;> cases hes
  case bangCdata | bangNine | commentMiss | ieMiss | skipMiss | cdataMiss | bangAbort => simp_all [Ev.holds]
  all_goals cases hes

end Phases

structure TagOutput (s₀ : TagScan) (page : List UInt8) (x : Ctx) (u fut : List UInt8) (l : List Item) : Prop where
  tags : TagState s₀ x u l
  phase : OutPhase s₀ page x u fut l
  drops : DropsAsRead s₀ l
  free : gt ∉ x.cache

/-- A page that begins with a tag, and not with `<!`. -/
def OpensTag (page : List UInt8) : Prop := ∃ c w, page = lt :: c :: w ∧ c ≠ bang

/-- Passages that begin with a tag in a text state. -/
theorem outputPassage : Passage htmlMachine (fun x page => x.Named ∧ x.state.top = .text ∧ OpensTag page)
    fun x page c u fut l => OpensTag page ∧
      TagOutput ⟨.text, x.tagcache.name, x.tagendcache.name⟩ page c u fut l where
  start {x r u fut} h _ hc := by
    refine ⟨h.2.2, .start h.1 h.2.1 hc u, .opening h.2.1 rfl ⟨rfl, rfl⟩, trivial, ?_⟩
    rw [hc]
    exact List.not_mem_nil
  next {x c page u buf fut l} h := by
    obtain ⟨hopens, htags, hphase, hdrops, -⟩ := h
    refine ⟨hopens, htags.next buf, ?_, hdrops, List.not_mem_nil⟩
    cases hphase with
    | opening hs hp hl => exact .opening hs (by rw [List.append_assoc]; exact hp) hl
    | inside hw hlive htext hatts =>
      exact .inside hw hlive htext fun hm hs => ⟨(hatts hm hs).pre, (hatts hm hs).out⟩
  turn {x c y page u fut l r r' d es nxt k k'} old h hc hy _ hrule hgo := by
    obtain ⟨⟨b, w, rfl, hb⟩, htags, hphase, hdrops, -⟩ := h
    have hrule' : HtmlRule c r u es y nxt := hrule
    refine ⟨⟨b, w, rfl, hb⟩, (htags.turn hrule' hy).ended .., hphase.turn hb htags hrule' hgo hy old, ?_, ?_⟩
    · exact hrule'.drops hy htags.follows hphase.told hdrops
    · rw [Next.ended_cache, hy]
      exact List.not_mem_nil
  hold {x c y page u fut l r d} a old h hc _ hrule hy := by
    obtain ⟨hopens, htags, hphase, hdrops, -⟩ := h
    have hrule' : HtmlRule c r u (Ev.holds a u) y .again := hrule
    refine ⟨hopens, (htags.hold hc hrule' hy).ended .., ?_, hdrops, ?_⟩
    · exact (hphase.hold hy).of_eq old (congrArg _ (Next.ended_state ..)) (Next.ended_nochangePre ..) (Next.ended_pre ..)
    · rw [Next.ended_cache, hy.cache]
      exact hrule'.held_gt hc hy.cache
  done {x c page u fut l r d} old h := by
    obtain ⟨hopens, htags, hphase, hdrops, hfree⟩ := h
    refine ⟨hopens, htags.ended .., ?_, hdrops, ?_⟩
    · exact hphase.of_eq old (congrArg _ (Next.ended_state ..)) (Next.ended_nochangePre ..) (Next.ended_pre ..)
    · rwa [Next.ended_cache]

end NginB.Minify
