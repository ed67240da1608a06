import NginB.Minify.ConditionalComments

/-! # CDATA sections

`html_state_cdata` copies three bytes at once where it meets a `]` with two more bytes behind it in
the buffer. A section is passed through in any case; it ends where it should just when none of these
steps runs into the closing `]]>`.
-/
namespace NginB.Minify
open NginB.Program Relation Ascii

def cdata (w : List UInt8) : List UInt8 := lit "<![CDATA[" ++ (w ++ lit "]]>")

/-- In a section of `n` bytes, no iteration in front of the closing `]]>` copies a `]` and the two bytes
behind it where the content has fewer than three bytes left. -/
def EndKept (n : ℕ) (r : Routine) (x : Ctx) (u : List UInt8) (_ : ℕ) (older : List Item) : Prop :=
  r = .htmlStripTag → x.state.top = .htmlCdata → u.head? = some rbracket → 3 ≤ u.length →
    (consumed older).length + 3 < n → (consumed older).length + 6 ≤ n

instance (n : ℕ) (r : Routine) (x : Ctx) (u : List UInt8) (d : ℕ) (older : List Item) :
    Decidable (EndKept n r x u d older) := inferInstanceAs (Decidable (_ → _))

inductive CdataTurn (x y : Ctx) : Routine → List UInt8 → List Ev → Prop
  | call {r u} (hr : r ≠ .htmlStripTag) (hy : y.state = x.state) : CdataTurn x y r u []
  | close {t} (hy : y.state.top = .text) : CdataTurn x y .htmlStripTag (lit "]]>" ++ t)
      [.copy, .copy, .copy, .stack (htmlStack .text)]
  | three {a b t} (hn : [a, b] ≠ [rbracket, gt]) (hy : y.state = x.state) :
      CdataTurn x y .htmlStripTag (rbracket :: a :: b :: t) [.copy, .copy, .copy]
  | miss {t} (ht : t.length < 2) (hn : ¬ rbracket :: t <+: lit "]]>") (hy : y.state = x.state) :
      CdataTurn x y .htmlStripTag (rbracket :: t) [.call (lit "]]>"), .copy]
  | byte {b t} (hb : b ≠ rbracket) (hy : y.state = x.state) : CdataTurn x y .htmlStripTag (b :: t) [.copy]
  | holds {t} (ht : t.length < 2) (hy : x.Held (rbracket :: t) y) :
      CdataTurn x y .htmlStripTag (rbracket :: t) (Ev.holds (lit "]]>") (rbracket :: t))

section Rules
variable {x y : Ctx} {r : Routine} {u fut q : List UInt8} {es : List Ev} {nxt : Next}

theorem HtmlRule.cdataTurn (h : HtmlRule x r u es y nxt) (hs : x.state.top = .htmlCdata) :
    CdataTurn x y r u es := by
  cases h
  case cdataClose => exact .close (by simp)
  case cdataThree hn => exact .three hn rfl
  case cdataHold ht hc => exact .holds ht .plain
  case cdataMiss ht hc =>
    refine .miss ht (fun hp => ?_) rfl
    rw [cacheable_of_le hp] at hc
    cases hc
  case cdataByte hb => exact .byte hb rfl
  case callTag => exact .call (by decide) rfl
  all_goals simp_all

/-- Before a CDATA section nothing is read; the bytes of its opening may be held back, and they are copied
together. -/
theorem HtmlRule.cdataOpens (h : HtmlRule x r u es y nxt)
    (hs : x.state.top = .text ∨ x.state.top = .htmlTagBang) (hu : u ++ fut = lit "<![CDATA[" ++ q) :
    (∃ l : List StateStack, es = l.map .stack ∧ (y.state.top = .text ∨ y.state.top = .htmlTagBang)) ∨
    (∃ t l, u = lit "<![CDATA[" ++ t ∧ es = List.replicate 9 .copy ++ List.map .stack l ∧
      y.state.top = .htmlCdata) ∨
    u ≠ [] ∧ y.cache = u ∧ u.length < 9 ∧ y.state = x.state := by
  cases h
  case callTag => exact .inl ⟨[], rfl, hs⟩
  case nameLeave hs' | commentLeave hs' => exact .inl ⟨[], rfl, .inl hs'⟩
  case textBang => exact .inl ⟨[htmlStack .htmlTagBang], rfl, .inr (by simp)⟩
  case bangCdata t hs' =>
    exact .inr (.inl ⟨t, [htmlStack .text, htmlStack .htmlCdata], rfl, rfl, by simp⟩)
  case textHold | textHoldBang => exact .inr (.inr ⟨by simp, rfl, by simp, rfl⟩)
  case bangHoldCdata ht _ => exact .inr (.inr ⟨by simp, rfl, by simp; omega, rfl⟩)
  case bangNine t _ ht hn =>
    have hopening : (lit "<![CDATA[" ++ q).take 9 = lit "<![CDATA[" := List.take_left' (by decide)
    have htake := congrArg (List.take 9) hu
    rw [List.take_append_of_le_length (by simp; omega), hopening] at htake
    exact absurd htake hn
  case bangAbort t _ ht hc =>
    have hpre : lit "<!" ++ lbracket :: t <+: lit "<![CDATA[" :=
      List.prefix_of_prefix_length_le ⟨fut, hu⟩ (List.prefix_append _ q) (by simp; omega)
    rw [cacheable_of_le hpre] at hc
    cases hc
  case tagLeave hs' =>
    have htext : x.state.top = .text := by
      rcases List.mem_pair.mp hs' with hs' | hs'
      · exact hs'
      · simp [hs'] at hs
    exact .inl ⟨[], rfl, .inl htext⟩
  case callTagname hs' | callComment hs' =>
    simp only [List.mem_cons, List.not_mem_nil, or_false] at hs'
    rcases hs' with hs' | hs' | hs' <;> simp [hs'] at hs
  all_goals simp_all

end Rules

inductive CdataPhase (w q : List UInt8) (x : Ctx) (u fut : List UInt8) (l : List Item) : Prop
  | opening (hs : x.state.top = .text ∨ x.state.top = .htmlTagBang) (hc : x.cache.length < 9)
      (hp : u ++ fut = cdata w ++ q) (hl : consumed l = [] ∧ emitted l = [])
      (hin : EachTurn (EndKept (cdata w).length) l)
  | body (w₁ w₂ : List UInt8) (hw : lit "<![CDATA[" ++ w = w₁ ++ w₂) (hw₂ : EndsFirst (lit "]]>") w₂)
      (hs : x.state.top = .htmlCdata) (hc : x.cache.length < 3) (hp : u ++ fut = w₂ ++ (lit "]]>" ++ q))
      (hl : Verbatim w₁ l) (hin : EachTurn (EndKept (cdata w).length) l)
  | closed (hs : x.state.top = .text) (hc : x.cache = []) (hp : u ++ fut = q) (hl : Verbatim (cdata w) l)
      (hin : EachTurn (EndKept (cdata w).length) l)
  | passed (hq : q ≠ []) (hl : BehindVerbatim (cdata w) l) (hin : EachTurn (EndKept (cdata w).length) l)
  | overshot (hl : ¬ BehindVerbatim (cdata w) l) (hin : ¬ EachTurn (EndKept (cdata w).length) l)
      (hp : (cdata w).length < (consumed l).length ∨
        x.state.top = .htmlCdata ∧ (cdata w).length < (consumed l).length + 3)

section Phases
variable {x y : Ctx} {r : Routine} {u fut w q : List UInt8} {es : List Ev} {nxt : Next} {l : List Item} {d : ℕ}

theorem CdataPhase.of_eq (h : CdataPhase w q x u fut l) (hs : y.state = x.state) (hc : y.cache = x.cache) :
    CdataPhase w q y u fut l := by
  cases h with
  | opening hs' hc' hp hl hin => exact .opening (by rwa [hs]) (by rwa [hc]) hp hl hin
  | body w₁ w₂ hw hw₂ hs' hc' hp hl hin => exact .body w₁ w₂ hw hw₂ (by rwa [hs]) (by rwa [hc]) hp hl hin
  | closed hs' hc' hp hl hin => exact .closed (by rwa [hs]) (by rwa [hc]) hp hl hin
  | passed hq hl hin => exact .passed hq hl hin
  | overshot hl hin hp => exact .overshot hl hin (by rwa [hs])

theorem EndKept.of_top {n : ℕ} (hs : x.state.top ≠ .htmlCdata) : EndKept n r x u d l :=
  fun _ hcdata => absurd hcdata hs

/-- An iteration behind the section, or at its closing. -/
theorem EndKept.of_read {n : ℕ} (hn : n ≤ (consumed l).length + 3) : EndKept n r x u d l :=
  fun _ _ _ _ hlt => absurd hlt (Nat.not_lt_of_le hn)

/-- An iteration that does not copy three bytes at a `]`. -/
theorem EndKept.of_short {n : ℕ} (h : u.head? = some rbracket → u.length < 3) : EndKept n r x u d l :=
  fun _ _ hhead hlen => absurd (h hhead) (Nat.not_lt_of_le hlen)

/-- What an iteration in the section makes of the phase. -/
theorem CdataPhase.inside {w₁ w₂ : List UInt8} (hw : lit "<![CDATA[" ++ w = w₁ ++ w₂)
    (hw₂ : EndsFirst (lit "]]>") w₂) (hs : x.state.top = .htmlCdata)
    (hp : u ++ fut = w₂ ++ (lit "]]>" ++ q)) (hl : Verbatim w₁ l)
    (hin : EachTurn (EndKept (cdata w).length) l) (hturn : CdataTurn x y r u es) (hy : y.cache = []) :
    CdataPhase w q y (u.drop (Ev.takes es)) fut ((Ev.items x es u).reverse ++ .turn r x u d :: l) := by
  have hc : y.cache.length < 3 := by simp [hy]
  have hcdata : cdata w = w₁ ++ (w₂ ++ lit "]]>") := by
    rw [cdata, ← List.append_assoc, hw, List.append_assoc]
  have hlen : (cdata w).length = (consumed l).length + (w₂.length + 3) := by
    rw [hcdata, hl.read]
    simp
  cases hturn with
  | call hr hy' =>
    refine .body w₁ w₂ hw hw₂ (by rw [hy', hs]) hc hp ⟨hl.read, hl.written⟩ ?_
    exact eachTurn_items.mpr ⟨fun hr' => absurd hr' hr, hin⟩
  | @close t hy' =>
    have hnil : w₂ = [] := hw₂.eq_nil ⟨t ++ fut, by rw [← hp, List.append_assoc]⟩
    subst hnil
    refine .closed hy' hy (by simpa using hp) ⟨?_, ?_⟩ (eachTurn_items.mpr ⟨.of_read ?_, hin⟩)
    · simp [hcdata, hl.read]
    · simp [hcdata, hl.written]
    · simp only [List.length_nil] at hlen
      omega
  | @byte b t hb hy' =>
    rcases w₂ with _ | ⟨a, w₂⟩
    · exact absurd (List.cons.inj hp).1 hb
    · obtain ⟨rfl, hp'⟩ := List.cons.inj hp
      refine .body (w₁ ++ [b]) w₂ (by simpa using hw) hw₂.tail (by rw [hy', hs]) hc (by simpa using hp')
        ⟨by simp [hl.read], by simp [hl.written]⟩ (eachTurn_items.mpr ⟨.of_short fun hhead => ?_, hin⟩)
      exact absurd (Option.some.inj hhead) hb
  | @three a b t hn hy' =>
    rcases w₂ with _ | ⟨e, w₃⟩
    · simp_all
    · obtain ⟨rfl, hp'⟩ := List.cons.inj hp
      rcases Nat.lt_or_ge w₃.length 2 with hshort | hlong
      · simp only [List.length_cons] at hlen
        refine .overshot (not_behind_turn (by simp) ?_ (.inr (by simp [hs]))) (fun hall => ?_) (.inr ⟨by rw [hy', hs], ?_⟩)
        · intro hb
          have hle := hb.read_le
          omega
        · have hkept := (eachTurn_items.mp hall).1 rfl hs rfl (by simp) (by omega)
          omega
        · simp
          omega
      · rcases w₃ with _ | ⟨e₁, _ | ⟨e₂, w₃⟩⟩
        · simp at hlong
        · simp at hlong
        · have hthree : a :: b :: (t ++ fut) = e₁ :: e₂ :: (w₃ ++ (lit "]]>" ++ q)) := hp'
          simp only [List.cons.injEq] at hthree
          obtain ⟨rfl, rfl, hp'⟩ := hthree
          simp only [List.length_cons] at hlen
          refine .body (w₁ ++ [rbracket, a, b]) w₃ (by simpa using hw) hw₂.tail.tail.tail (by rw [hy', hs]) hc
            (by simpa using hp') ⟨by simp [hl.read], by simp [hl.written]⟩
            (eachTurn_items.mpr ⟨fun _ _ _ _ _ => ?_, hin⟩)
          omega
  | @miss t ht hn hy' =>
    rcases w₂ with _ | ⟨e, w₂⟩
    · exact absurd (List.prefix_of_prefix_length_le ⟨fut, hp⟩ (List.prefix_append _ q) (by simp; omega)) hn
    · obtain ⟨rfl, hp'⟩ := List.cons.inj hp
      refine .body (w₁ ++ [rbracket]) w₂ (by simpa using hw) hw₂.tail (by rw [hy', hs]) hc (by simpa using hp')
        ⟨by simp [hl.read], by simp [hl.written]⟩ (eachTurn_items.mpr ⟨.of_short fun _ => ?_, hin⟩)
      simp
      omega
  | holds _ hy' => exact absurd (hy.symm.trans hy'.cache) (by simp)

theorem CdataPhase.turn (h : CdataPhase w q x u fut l) (hrule : HtmlRule x r u es y nxt)
    (hw : EndsFirst (lit "]]>") w) (hy : y.cache = []) :
    CdataPhase w q y (u.drop (Ev.takes es)) fut ((Ev.items x es u).reverse ++ .turn r x u d :: l) := by
  have hturns : ∀ r x' u' d, Item.turn r x' u' d ∉ (Ev.items x es u).reverse :=
    fun r x' u' d hmem => Ev.turn_notMem_items x x' r u' d es u (List.mem_reverse.mp hmem)
  have hread : (consumed l).length ≤
      (consumed ((Ev.items x es u).reverse ++ .turn r x u d :: l)).length := by
    rw [consumed_append, consumed_cons, List.length_append]
    exact Nat.le_add_left _ _
  cases h with
  | opening hs hc hp hl hin =>
    have hne : x.state.top ≠ .htmlCdata := by
      rcases hs with hs | hs <;> simp [hs]
    have hin' : EachTurn (EndKept (cdata w).length) ((Ev.items x es u).reverse ++ .turn r x u d :: l) :=
      eachTurn_items.mpr ⟨.of_top hne, hin⟩
    have hpage : u ++ fut = lit "<![CDATA[" ++ (w ++ (lit "]]>" ++ q)) := by
      rw [hp, cdata]
      simp
    rcases hrule.cdataOpens hs hpage with ⟨l', rfl, hst⟩ | ⟨t, l', rfl, rfl, hst⟩ | ⟨hnil, hcache, -⟩
    · exact .opening hst (by simp [hy]) (by simpa using hp) (by simp [hl]) hin'
    · have hrest : t ++ fut = w ++ (lit "]]>" ++ q) := by simpa using hpage
      have hitems : consumed (Ev.items x (List.replicate 9 .copy ++ l'.map .stack) (lit "<![CDATA[" ++ t)).reverse =
            (lit "<![CDATA[").reverse ∧
          emitted (Ev.items x (List.replicate 9 .copy ++ l'.map .stack) (lit "<![CDATA[" ++ t)).reverse =
            (lit "<![CDATA[").reverse := by
        rw [Ev.items_append, Ev.items_stacks, Ev.items_replicate_copy _ _ _ (by simp),
          List.take_left' (by decide), List.reverse_append, consumed_append, emitted_append]
        simp
      refine .body (lit "<![CDATA[") w rfl hw hst (by simp [hy]) ?_ ⟨?_, ?_⟩ hin'
      · rw [Ev.takes_append, Ev.takes_stacks, Ev.takes_replicate_copy, Nat.add_zero, List.drop_left' (by decide)]
        exact hrest
      · rw [consumed_append, hitems.1, consumed_cons, hl.1]
        simp
      · rw [emitted_append, hitems.2, emitted_cons, hl.2]
        simp
    · exact absurd (hcache.symm.trans hy) hnil
  | body w₁ w₂ hw' hw₂ hs hc hp hl hin => exact .inside hw' hw₂ hs hp hl hin (hrule.cdataTurn hs) hy
  | closed hs hc hp hl hin =>
    have hin' : EachTurn (EndKept (cdata w).length) ((Ev.items x es u).reverse ++ .turn r x u d :: l) :=
      eachTurn_items.mpr ⟨.of_top (by simp [hs]), hin⟩
    by_cases hr : r = .htmlStripBuffer
    · subst hr
      refine .passed ?_ ⟨_, _, x, u, d, l, rfl, hs, hl⟩ hin'
      rw [← hp]
      exact List.append_ne_nil_of_left_ne_nil (hrule.text_ne hs) fut
    · obtain ⟨rfl, hst⟩ := hrule.back hs hr
      exact .closed hst hy hp ⟨hl.read, hl.written⟩ hin'
  | passed hq hl hin =>
    have happ := hl.append ((Ev.items x es u).reverse ++ [.turn r x u d])
    rw [List.append_assoc] at happ
    refine .passed hq happ (eachTurn_items.mpr ⟨.of_read ?_, hin⟩)
    exact Nat.le_add_right_of_le hl.read_le
  | overshot hl hin hp =>
    have htext : (cdata w).length < (consumed l).length ∨ x.state.top ≠ .text :=
      hp.imp_right fun h => by simp [h.1]
    refine .overshot (not_behind_turn hturns hl htext) (fun hall => hin (eachTurn_items.mp hall).2) ?_
    rcases hp with hp | ⟨hs, hp⟩
    · exact .inl (Nat.lt_of_lt_of_le hp hread)
    · have hlt := Nat.lt_of_lt_of_le hp (Nat.add_le_add_right hread 3)
      cases hrule.cdataTurn hs with
      | close hy' => exact .inl (by simp; omega)
      | call _ hy' | three _ hy' | miss _ _ hy' | byte _ hy' => exact .inr ⟨by rw [hy', hs], hlt⟩
      | holds _ hy' => exact absurd (hy.symm.trans hy'.cache) (by simp)

/-- What holding back all unread bytes makes of the phase. -/
theorem CdataPhase.hold (h : CdataPhase w q x u fut l) {a : List UInt8}
    (hrule : HtmlRule x r u (Ev.holds a u) y .again) (hy : x.Held u y) :
    CdataPhase w q y u fut (.cacheCall a 0 u :: .turn r x u d :: l) := by
  have hcalls : ∀ r' x' u' d', Item.turn r' x' u' d' ∉ [Item.cacheCall a 0 u] := by simp
  cases h with
  | opening hs _ hp hl hin =>
    have hne : x.state.top ≠ .htmlCdata := by
      rcases hs with hs | hs <;> simp [hs]
    have hpage : u ++ fut = lit "<![CDATA[" ++ (w ++ (lit "]]>" ++ q)) := by
      rw [hp, cdata]
      simp
    rcases hrule.cdataOpens hs hpage with ⟨l', hes, -⟩ | ⟨t, l', -, hes, -⟩ | ⟨-, -, hlt, -⟩
    · exact absurd hes (Ev.holds_ne_stacks a u l')
    · cases hes
    · refine .opening (by rwa [hy.state]) (by rwa [hy.cache]) hp (by simpa using hl) ?_
      exact eachTurn_held.mpr ⟨.of_top hne, hin⟩
  | body w₁ w₂ hw' hw₂ hs _ hp hl hin =>
    have hturn := hrule.cdataTurn hs
    generalize hes : Ev.holds a u = es at hturn
    cases hturn with
    | @holds t ht _ =>
      refine .body w₁ w₂ hw' hw₂ (by rwa [hy.state]) (by rw [hy.cache]; exact Nat.succ_lt_succ ht) hp
        ⟨hl.read, hl.written⟩ (eachTurn_held.mpr ⟨.of_short fun _ => ?_, hin⟩)
      exact Nat.succ_lt_succ ht
    | miss => simp [Ev.holds, List.replicate_succ] at hes
    | call | close | three | byte => cases hes
  | closed hs _ hp hl hin =>
    have hturn : EndKept (cdata w).length r x u d l := .of_top (by simp [hs])
    by_cases hr : r = .htmlStripBuffer
    · subst hr
      refine .passed ?_ ⟨[.cacheCall a 0 u], _, x, u, d, l, rfl, hs, hl⟩ (eachTurn_held.mpr ⟨hturn, hin⟩)
      rw [← hp]
      exact List.append_ne_nil_of_left_ne_nil (hrule.text_ne hs) fut
    · exact absurd (hrule.back hs hr).1 (List.cons_ne_nil _ _)
  | passed hq hl hin =>
    refine .passed hq (hl.append [.cacheCall a 0 u, .turn r x u d]) (eachTurn_held.mpr ⟨.of_read ?_, hin⟩)
    exact Nat.le_add_right_of_le hl.read_le
  | overshot hl hin hp =>
    have htext : (cdata w).length < (consumed l).length ∨ x.state.top ≠ .text :=
      hp.imp_right fun h => by simp [h.1]
    exact .overshot (not_behind_turn hcalls hl htext) (fun hall => hin (eachTurn_held.mp hall).2)
      (by rwa [hy.state])

end Phases

theorem cdataPassage {w : List UInt8} (q : List UInt8) (hw : EndsFirst (lit "]]>") w) :
    Passage htmlMachine (fun x page => x.state.top = .text ∧ page = cdata w ++ q)
      fun _ _ c u fut l => CdataPhase w q c u fut l where
  start h _ hc := .opening (.inl h.1) (by simp [hc]) h.2 ⟨rfl, rfl⟩ eachTurn_nil
  next {x c page u buf fut l} h := by
    cases h with
    | opening hs hc hp hl hin =>
      exact .opening hs (by simp) (by simpa using hp) hl ((eachTurn_cons (by simp)).mpr hin)
    | body w₁ w₂ hw' hw₂ hs hc hp hl hin =>
      exact .body w₁ w₂ hw' hw₂ hs (by simp) (by simpa using hp) ⟨hl.read, hl.written⟩
        ((eachTurn_cons (by simp)).mpr hin)
    | closed hs hc hp hl hin =>
      exact .closed hs rfl (by simpa using hp) ⟨hl.read, hl.written⟩ ((eachTurn_cons (by simp)).mpr hin)
    | passed hq hl hin => exact .passed hq (hl.append [.buffer]) ((eachTurn_cons (by simp)).mpr hin)
    | overshot hl hin hp =>
      exact .overshot (fun hb => hl (hb.of_cons (by simp))) (fun hall => hin ((eachTurn_cons (by simp)).mp hall)) hp
  turn {x c y page u fut l r r' d es nxt k k'} old h hc hy _ hrule _ := by
    obtain ⟨p₁, p₂, hend⟩ := nxt.ended_eq r' (d + (emitted (Ev.items c es u)).length)
      (emitted ((Ev.items c es u).reverse ++ .turn r c u d :: l) ++ old) y
    exact (h.turn hrule hw hy).of_eq (by rw [hend]) (by rw [hend])
  hold {x c y page u fut l r d} a old h hc _ hrule hy := by
    obtain ⟨p₁, p₂, hend⟩ := Next.again.ended_eq r d (emitted l ++ old) y
    exact (h.hold hrule hy).of_eq (by rw [hend]) (by rw [hend])
  done {x c page u fut l r d} old h := by
    obtain ⟨p₁, p₂, hend⟩ := Next.again.ended_eq r d (emitted l ++ old) c
    exact h.of_eq (by rw [hend]) (by rw [hend])

/-- The bytes `c` have been written as they were, and after them the page `q` is read in the text state; at
the end of the page, the minifier is left in that state. -/
def PassedThrough (c : List UInt8) (s : Session) (newer : List Item) : List UInt8 → Prop
  | [] => s.ctx.state.top = .text ∧ s.ctx.cache = [] ∧ Verbatim c newer
  | _ => BehindVerbatim c newer

/-- A CDATA section that the text state comes upon is passed through and left at its end just when no
iteration copies three bytes at a `]` that is one of the last two bytes of the content. -/
theorem cdata_passed_iff {cap : Option ℕ} {bufs : List (List UInt8)} {s : Session}
    (h : feedAll Flat cap .html .start bufs = .ok s) {newer older : List Item} {r : Routine} {x : Ctx}
    {u w q : List UInt8} {d : ℕ} (htr : s.trace = newer ++ .turn r x u d :: older)
    (hs : x.state.top = .text) (hpage : (consumed newer).reverse ++ s.ctx.cache = cdata w ++ q)
    (hw : EndsFirst (lit "]]>") w) : PassedThrough (cdata w) s (newer ++ [.turn r x u d]) q ↔
      EachTurn (EndKept (cdata w).length) (newer ++ [.turn r x u d]) := by
  have hpassage : Passage (machine .html) _ _ := cdataPassage q hw
  have hphase : CdataPhase w q s.ctx s.ctx.cache [] (newer ++ [.turn r x u d]) :=
    hpassage.session h htr hpage ⟨hs, rfl⟩
  cases hphase with
  | opening _ hc hp =>
    have hlen := congrArg List.length hp
    simp [cdata] at hlen
    omega
  | body w₁ w₂ _ _ _ hc hp =>
    have hlen := congrArg List.length hp
    simp at hlen
    omega
  | closed hst hc hp hl hin =>
    rw [hc] at hp
    subst hp
    exact iff_of_true ⟨hst, hc, hl⟩ hin
  | passed hq hl hin =>
    rcases q with _ | ⟨b, q⟩
    · exact absurd rfl hq
    · exact iff_of_true hl hin
  | overshot hl hin hp =>
    refine iff_of_false (fun hpassed => ?_) hin
    rcases q with _ | ⟨b, q⟩
    · rcases hp with hp | ⟨hst, -⟩
      · rw [hpassed.2.2.read, List.length_reverse] at hp
        exact absurd hp (Nat.lt_irrefl _)
      · exact absurd (hst.symm.trans hpassed.1) (by decide)
    · exact hl hpassed

/-- The page `<![CDATA[]a]]>`, cut behind the `a`. -/
theorem cdata_passed_cut : ∃ s newer, feedAll Flat none .html .start [lit "<![CDATA[]a", lit "]]>"] = .ok s ∧
    PassedThrough (cdata (lit "]a")) s newer [] := by
  obtain ⟨s, newer, older, hs, htr, hf⟩ : ∃ s newer older,
      feedAll Flat none .html .start [lit "<![CDATA[]a", lit "]]>"] = .ok s ∧
        s.trace = newer ++ .turn .htmlStripBuffer Ctx.zero (lit "<![CDATA[]a") 0 :: older ∧
        ((consumed newer).reverse ++ s.ctx.cache, decide (EachTurn (EndKept (cdata (lit "]a")).length)
          (newer ++ [.turn .htmlStripBuffer Ctx.zero (lit "<![CDATA[]a") 0]))) = (cdata (lit "]a") ++ [], true) :=
    exists_turn (n := 26) (f := fun s newer => ((consumed newer).reverse ++ s.ctx.cache,
      decide (EachTurn (EndKept (cdata (lit "]a")).length)
        (newer ++ [.turn .htmlStripBuffer Ctx.zero (lit "<![CDATA[]a") 0])))) (by decide +kernel)
  obtain ⟨hpage, hturns⟩ := Prod.mk.inj hf
  have hw : EndsFirst (lit "]]" ++ [gt]) (lit "]a") := .of_notInfix (by decide)
  exact ⟨s, _, hs, (cdata_passed_iff hs htr rfl hpage hw).mpr (of_decide_eq_true hturns)⟩

/-- In the page `<![CDATA[]]]>` the first `]` is copied with the two behind it. -/
theorem cdata_not_left : ¬ ∀ (bufs : List (List UInt8)) (s : Session) (newer older : List Item)
    (r : Routine) (x : Ctx) (u w q : List UInt8) (d : ℕ), feedAll Flat none .html .start bufs = .ok s →
      s.trace = newer ++ .turn r x u d :: older → x.state.top = .text →
        (consumed newer).reverse ++ s.ctx.cache = cdata w ++ q → EndsFirst (lit "]]>") w →
          PassedThrough (cdata w) s (newer ++ [.turn r x u d]) q := by
  intro h
  obtain ⟨s, newer, older, hs, htr, hf⟩ : ∃ s newer older,
      feedAll Flat none .html .start [lit "<![CDATA[]]]>"] = .ok s ∧
        s.trace = newer ++ .turn .htmlStripBuffer Ctx.zero (lit "<![CDATA[]]]>") 0 :: older ∧
        ((consumed newer).reverse ++ s.ctx.cache, s.ctx.state.top) = (cdata [rbracket] ++ [], .htmlCdata) :=
    exists_turn (n := 20) (f := fun s newer => ((consumed newer).reverse ++ s.ctx.cache, s.ctx.state.top))
      (by decide +kernel)
  obtain ⟨hpage, hcdata⟩ := Prod.mk.inj hf
  have hw : EndsFirst (lit "]]" ++ [gt]) [rbracket] := .of_notInfix (by decide)
  have hpassed := h _ s newer older _ _ _ _ _ _ hs htr rfl hpage hw
  exact absurd (hcdata.symm.trans hpassed.1) (by decide)

end NginB.Minify
