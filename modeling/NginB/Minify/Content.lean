import NginB.Minify.Comments
import Mathlib.Data.List.GetD

/-! # Elements whose content is copied

In `html_state_skip` the minifier copies what it reads, and leaves the state for every `</`.
It comes back behind an end tag with another name, provided that the end tag has a name at all;
on the way it copies everything but spaces.
-/
namespace NginB.Minify
open NginB.Program Relation Ascii

/-- Whether the content that is left passes: bytes other than `<`, a `<` with the byte behind it,
and whole end tags with a name and without a space. With `some named` it begins within an end tag,
behind a first byte of its name or in front of it; `next` is the byte behind the content. -/
def contentPasses (next : Option UInt8) : Option Bool → List UInt8 → Bool
  | none, [] => true
  | none, b :: w =>
    if b = lt then
      match w with
      | [] => next ≠ none ∧ next ≠ some slash
      | a :: w' => contentPasses next (if a = slash then some false else none) w'
    else contentPasses next none w
  | some _, [] => false
  | some named, b :: w =>
    if b = space then false
    else if b = gt then named && contentPasses next none w
    else contentPasses next (some true) w

/-- No `</` of the content is followed by the name, in any letter case. -/
def EndTagFree (name w : List UInt8) : Prop :=
  ∀ u v, w = u ++ lit "</" ++ v → ¬ name.map toLower <+: v.map toLower

/-- All bytes read have been written unchanged, the content first, and at most one byte more. -/
def Copied (w : List UInt8) (l : List Item) : Prop :=
  emitted l = consumed l ∧ w <+: (consumed l).reverse ∧ (consumed l).length ≤ w.length + 1

/-- The content has been copied, and `html_state_skip` of the same element comes next. -/
def StillInside (name w : List UInt8) (x : Ctx) (l : List Item) : Prop :=
  x.state.top = .htmlSkip ∧ x.tagcache.name = name ∧ Copied w l

section Names

theorem strncasecmpEq_map {u : List UInt8} (v : List UInt8) : ∀ {tag : List UInt8}, 0 ∉ tag →
    tag.length = u.length → strncasecmpEq (u ++ v) tag u.length = true →
    u.map toLower = tag.map toLower := by
  induction u with
  | nil =>
    intro tag _ hlen _
    rw [List.eq_nil_of_length_eq_zero hlen]
  | cons a u ih =>
    intro tag h0 hlen h
    rcases tag with _ | ⟨b, tag⟩
    · exact absurd hlen (Nat.succ_ne_zero _).symm
    · obtain ⟨hb, htag⟩ := not_or.mp (mt List.mem_cons.mpr h0)
      by_cases hlower : toLower a = toLower b
      · by_cases ha : a = 0
        · subst ha
          exact absurd (toLower_eq (.inl (by decide)) hlower).symm hb
        · have hrest : strncasecmpEq (u ++ v) tag u.length = true := by
            simpa [strncasecmpEq, hlower, ha] using h
          rw [List.map_cons, List.map_cons, hlower, ih htag (Nat.succ.inj hlen) hrest]
      · simp [strncasecmpEq, hlower] at h

theorem NameCache.skipIndex_nonneg {t : NameCache} (h : 0 ≤ t.skipIndex) :
    t.name.map toLower ∈ htmlSkipTag := by
  unfold NameCache.skipIndex at h
  split at h
  · next i hi =>
    obtain ⟨hlt, hp, -⟩ := List.findIdx?_eq_some_iff_getElem.mp hi
    obtain ⟨hlen, heq⟩ := Bool.and_eq_true_iff.mp hp
    have hmem : htmlSkipTag[i] ∈ htmlSkipTag := List.getElem_mem hlt
    have hplain : ∀ tag ∈ htmlSkipTag, 0 ∉ tag ∧ tag.map toLower = tag := by decide
    obtain ⟨h0, hlower⟩ := hplain _ hmem
    rw [strncasecmpEq_map t.stale h0 (of_decide_eq_true hlen).symm heq, hlower]
    exact hmem
  · exact absurd h (by decide)

/-- A name that is the beginning of another one byte for byte. -/
theorem NameCache.memcmpEq_prefix {t u : NameCache} (h0 : 0 ∉ t.name)
    (h : t.memcmpEq u.close t.len = true) : t.name <+: u.name := by
  have hread : ∀ i < t.name.length, t.name.getD i 0 = u.close.read i := by
    intro i hi
    have he := List.all_eq_true.mp h i (List.mem_range.mpr hi)
    rw [← of_decide_eq_true he, NameCache.read, List.getD_append _ _ _ _ hi]
  have hle : t.name.length ≤ u.name.length := by
    by_contra hlt
    have he := hread u.name.length (by omega)
    rw [NameCache.read, NameCache.close, List.getD_append_right _ _ _ _ (Nat.le_refl _)] at he
    refine h0 ?_
    rw [Nat.sub_self, List.getD_cons_zero, List.getD_eq_getElem _ _ (by omega)] at he
    rw [← he]
    exact List.getElem_mem _
  rw [List.prefix_iff_eq_take]
  apply List.ext_getElem
  · rw [List.length_take]
    omega
  · intro i hi hi'
    have hlt : i < u.name.length := by omega
    have he := hread i hi
    rw [NameCache.read, NameCache.close, List.getD_append _ _ _ _ hlt,
      List.getD_eq_getElem _ _ hi, List.getD_eq_getElem _ _ hlt] at he
    rw [he, List.getElem_take]

end Names

/-- What the tag-name caches hold: between tags, the name of the element, if it is one of
`html_skip_tag`, and no name of an end tag. -/
structure Ctx.Named (x : Ctx) : Prop where
  name : x.state.top ≠ .htmlTagname → x.tagcache.name = [] ∨ x.tagcache.name.map toLower ∈ htmlSkipTag
  element : x.state.top = .htmlSkip → x.tagcache.name ≠ []
  endName : x.state.top ≠ .htmlTagnameEnd → x.tagendcache.name = []

theorem Ctx.Named.nul {x : Ctx} (h : x.Named) (hs : x.state.top = .htmlSkip) :
    0 ∉ x.tagcache.name := by
  intro hmem
  have hplain : ∀ tag ∈ htmlSkipTag, toLower 0 ∉ tag := by decide
  rcases h.name (by simp [hs]) with hnil | hskip
  · exact absurd hnil (h.element hs)
  · exact hplain _ hskip (List.mem_map_of_mem hmem)

theorem Ctx.Named.of_eq {x y : Ctx} (h : x.Named) (hs : y.state.top = x.state.top)
    (ht : y.tagcache = x.tagcache) (hu : y.tagendcache = x.tagendcache) : y.Named := by
  obtain ⟨h1, h2, h3⟩ := h
  constructor <;> simp only [hs, ht, hu] <;> assumption

section Rules
variable {x y : Ctx} {r : Routine} {rest : List UInt8} {es : List Ev} {nxt : Next}

theorem Ctx.Named.nameGt (h : x.Named) (hs : x.state.top = .htmlTagname) : x.nameGt.Named := by
  have hend := h.endName (by simp [hs])
  unfold Ctx.nameGt
  split
  · next hskip =>
    have hmem := NameCache.skipIndex_nonneg hskip
    refine ⟨fun _ => .inr hmem, fun _ hnil => ?_, fun _ => hend⟩
    have hne : [] ∉ htmlSkipTag := by decide
    rw [show x.tagcache.close.name = [] from hnil] at hmem
    exact hne hmem
  · exact ⟨fun _ => .inl rfl, by simp, fun _ => hend⟩

theorem Ctx.Named.nameBlank (h : x.Named) (hs : x.state.top = .htmlTagname) : x.nameBlank.Named := by
  have hend := h.endName (by simp [hs])
  unfold Ctx.nameBlank
  split
  · exact ⟨fun _ => .inl rfl, by simp, fun _ => hend⟩
  · next hskip =>
    have hmem := NameCache.skipIndex_nonneg (Int.not_lt.mp hskip)
    exact ⟨fun _ => .inr hmem, by simp, fun _ => hend⟩

theorem Ctx.Named.attGt (h : x.Named) (hs : x.state.top = .htmlTagatt) : x.attGt.Named := by
  have hname := h.name (by simp [hs])
  have hend := h.endName (by simp [hs])
  unfold Ctx.attGt
  split
  · next hlen => exact ⟨fun _ => hname, fun _ hnil => hlen (by simpa [NameCache.len] using hnil), fun _ => hend⟩
  · exact ⟨fun _ => hname, by simp, fun _ => hend⟩

theorem Ctx.Named.endGt (h : x.Named) (hs : x.state.top = .htmlTagnameEnd) : x.endGt.Named := by
  have hname := h.name (by simp [hs])
  unfold Ctx.endGt
  split_ifs with hlen heq
  · exact ⟨fun _ => .inl rfl, by simp, fun _ => rfl⟩
  · refine ⟨fun _ => hname, fun _ hnil => heq ?_, fun _ => rfl⟩
    have hzero : x.tagcache.len = 0 := by
      rw [NameCache.len, show x.tagcache.name = [] from hnil, List.length_nil]
    rw [hzero]
    rfl
  · exact ⟨fun _ => hname, by simp, fun _ => by simpa [NameCache.len] using hlen⟩

theorem HtmlRule.named (h : HtmlRule x r rest es y nxt) (hx : x.Named) : y.Named := by
  have ⟨hname, helement, hend⟩ := hx
  cases h
  case nameGt hs => exact hx.nameGt hs
  case nameBlank hs _ => exact hx.nameBlank hs
  case attGt hs => exact hx.attGt hs
  case endGt hs => exact hx.endGt hs
  all_goals constructor <;> simp_all

end Rules

/-- Of the content, `w'` has not been read yet, and what has been read has been written. -/
structure Copying (w w' : List UInt8) (l : List Item) : Prop where
  same : emitted l = consumed l
  split : (consumed l).reverse ++ w' = w

theorem Copying.step {w w' w'' : List UInt8} {l m : List Item} (h : Copying w w' l)
    (hm : emitted m = consumed m) (hw : w' = (consumed m).reverse ++ w'') :
    Copying w w'' (m ++ l) where
  same := by rw [emitted_append, consumed_append, hm, h.same]
  split := by rw [consumed_append, List.reverse_append, List.append_assoc, ← hw, h.split]

theorem Copying.whole {w : List UInt8} {l : List Item} (h : Copying w [] l) : Copied w l := by
  have hsplit : (consumed l).reverse = w := by rw [← h.split, List.append_nil]
  refine ⟨h.same, ⟨[], by rw [List.append_nil, hsplit]⟩, ?_⟩
  rw [← hsplit, List.length_reverse]
  exact Nat.le_succ _

/-- A step that writes the last byte of the content and the byte behind it. -/
theorem Copying.beyond {w w' : List UInt8} {l m : List Item} {b : UInt8} (h : Copying w w' l)
    (hm : emitted m = consumed m) (hw : (consumed m).reverse = w' ++ [b]) : Copied w (m ++ l) := by
  have hsplit : (consumed (m ++ l)).reverse = w ++ [b] := by
    rw [consumed_append, List.reverse_append, hw, ← List.append_assoc, h.split]
  refine ⟨by rw [emitted_append, consumed_append, hm, h.same], ⟨[b], hsplit.symm⟩, ?_⟩
  rw [← List.length_reverse, hsplit, List.length_append]
  exact Nat.le_refl _

/-- An iteration that finds the minifier in the element with its content copied. -/
def Passed (name w : List UInt8) (newer : List Item) : Prop :=
  ∃ later mid x u d, newer = later ++ .turn .htmlStripBuffer x u d :: mid ∧ StillInside name w x mid

theorem Passed.append {name w : List UInt8} {newer : List Item} (h : Passed name w newer)
    (l : List Item) : Passed name w (l ++ newer) := by
  obtain ⟨later, mid, x, u, d, rfl, hx⟩ := h
  exact ⟨l ++ later, mid, x, u, d, by rw [List.append_assoc], hx⟩

/-- Two contexts with the same state, the same bytes held back and the same names. -/
structure Ctx.Alike (x y : Ctx) : Prop where
  state : y.state = x.state
  cache : y.cache = x.cache
  tagcache : y.tagcache = x.tagcache
  tagendcache : y.tagendcache = x.tagendcache

inductive ContentPhase (name w : List UInt8) (next : Option UInt8) (x : Ctx)
    (pending : List UInt8) (newer : List Item) : Prop
  | inside (w' : List UInt8) (hs : x.state.top = .htmlSkip) (hn : x.tagcache.name = name)
      (he : x.tagendcache.name = []) (hc : x.cache = [] ∨ pending = [lt]) (hcopy : Copying w w' newer)
      (hpass : contentPasses next none w' = true)
  | whole (h : StillInside name w x newer)
  | leaving (w' : List UInt8) (hs : x.state.top = .text) (hn : x.tagcache.name = name)
      (he : x.tagendcache.name = []) (hc : x.cache = []) (hp : lit "</" <+: pending)
      (hcopy : Copying w (lt :: slash :: w') newer) (hpass : contentPasses next (some false) w' = true)
      (hfree : ¬ name.map toLower <+: w'.map toLower)
  | tag (w' : List UInt8) (hs : x.state.top = .htmlTag) (hn : x.tagcache.name = name)
      (he : x.tagendcache.name = []) (hc : x.cache = []) (hcopy : Copying w (slash :: w') newer)
      (hpass : contentPasses next (some false) w' = true)
      (hfree : ¬ name.map toLower <+: w'.map toLower)
  | ending (w' : List UInt8) (hs : x.state.top = .htmlTagnameEnd) (hn : x.tagcache.name = name)
      (hc : x.cache = []) (hcopy : Copying w w' newer)
      (hpass : contentPasses next (some (x.tagendcache.name ≠ [])) w' = true)
      (hfree : ¬ name.map toLower <+: (x.tagendcache.name ++ w').map toLower)
  | passed (h : Passed name w newer)

section Phases
variable {x y : Ctx} {r : Routine} {pending name w w' q : List UInt8} {es : List Ev} {nxt : Next}
  {next : Option UInt8} {newer l : List Item} {d : ℕ}

/-- What is pending is the beginning of what has not been read. -/
theorem Copying.left (h : Copying w w' newer)
    (hpre : (consumed newer).reverse ++ pending <+: w ++ q) : pending <+: w' ++ q := by
  rw [← h.split, List.append_assoc] at hpre
  exact (List.prefix_append_right_inj _).mp hpre

theorem ContentPhase.of_eq (h : ContentPhase name w next x pending newer) (hxy : x.Alike y) :
    ContentPhase name w next y pending newer := by
  obtain ⟨hs, hc, ht, hu⟩ := hxy
  cases h with
  | inside w' hs' hn he hc' hcopy hpass =>
    exact .inside w' (by rwa [hs]) (by rwa [ht]) (by rwa [hu]) (by rwa [hc]) hcopy hpass
  | whole h => exact .whole ⟨by rw [hs, h.1], by rw [ht, h.2.1], h.2.2⟩
  | leaving w' hs' hn he hc' hp hcopy hpass hfree =>
    exact .leaving w' (by rwa [hs]) (by rwa [ht]) (by rwa [hu]) (by rwa [hc]) hp hcopy hpass hfree
  | tag w' hs' hn he hc' hcopy hpass hfree =>
    exact .tag w' (by rwa [hs]) (by rwa [ht]) (by rwa [hu]) (by rwa [hc]) hcopy hpass hfree
  | ending w' hs' hn hc' hcopy hpass hfree =>
    exact .ending w' (by rwa [hs]) (by rwa [ht]) (by rwa [hc]) hcopy (by rwa [hu]) (by rwa [hu])
  | passed h => exact .passed h

theorem ContentPhase.silent (h : ContentPhase name w next x pending newer) (hc : consumed l = [])
    (he : emitted l = []) : ContentPhase name w next x pending (l ++ newer) := by
  have hstep : ∀ {w' : List UInt8}, Copying w w' newer → Copying w w' (l ++ newer) := by
    intro w' hcopy
    exact hcopy.step (he.trans hc.symm) (by rw [hc]; rfl)
  cases h with
  | inside w' hs hn he hc hcopy hpass => exact .inside w' hs hn he hc (hstep hcopy) hpass
  | whole h =>
    obtain ⟨hs, hn, hsame, hpre, hle⟩ := h
    exact .whole ⟨hs, hn, by simp [hsame, hc, he], by simpa [hc] using hpre, by simpa [hc] using hle⟩
  | leaving w' hs hn he hc hp hcopy hpass hfree =>
    exact .leaving w' hs hn he hc hp (hstep hcopy) hpass hfree
  | tag w' hs hn he hc hcopy hpass hfree => exact .tag w' hs hn he hc (hstep hcopy) hpass hfree
  | ending w' hs hn hc hcopy hpass hfree => exact .ending w' hs hn hc (hstep hcopy) hpass hfree
  | passed h => exact .passed (h.append l)

theorem ContentPhase.idle (h : ContentPhase name w next x pending newer) (hxy : x.Alike y) :
    ContentPhase name w next y (pending.drop (Ev.takes []))
      ((Ev.items x [] pending).reverse ++ .turn r x pending d :: newer) :=
  (h.silent (l := [.turn r x pending d]) rfl rfl).of_eq hxy

inductive ElementTurn : List UInt8 → List Ev → MinifyState → Prop
  | leave {t} : ElementTurn (lt :: slash :: t) [.stack (htmlStack .text)] .text
  | pair {b t} (hb : b ≠ slash) : ElementTurn (lt :: b :: t) [.copy, .copy] .htmlSkip
  | byte {b t} (hb : b ≠ lt) : ElementTurn (b :: t) [.copy] .htmlSkip

theorem HtmlRule.element (h : HtmlRule x r pending es y nxt) (hs : x.state.top = .htmlSkip)
    (hy : y.cache = []) : r ≠ .htmlStripBuffer ∧ es = [] ∧ x.Alike y ∨
      r = .htmlStripBuffer ∧ ElementTurn pending es y.state.top ∧ y.tagcache = x.tagcache ∧
        y.tagendcache = x.tagendcache := by
  cases h
  case nameSkip | tagSkip => exact .inl ⟨nofun, rfl, rfl, rfl, rfl, rfl⟩
  case elementEnd => exact .inr ⟨rfl, .leave, rfl, rfl⟩
  case elementPair hb => exact .inr ⟨rfl, hs ▸ .pair hb, rfl, rfl⟩
  case elementByte hb => exact .inr ⟨rfl, hs ▸ .byte hb, rfl, rfl⟩
  case elementHold => exact absurd hy (List.cons_ne_nil _ _)
  all_goals simp_all

/-- The `<` of an end tag is copied in the text state. -/
theorem HtmlRule.endOpening (h : HtmlRule x r pending es y nxt) (hs : x.state.top = .text)
    (hp : lit "</" <+: pending) : es = [] ∧ x.Alike y ∨
      ∃ t, pending = lt :: slash :: t ∧ es = [.copy, .stack (htmlStack .htmlTag)] ∧
        y.state.top = .htmlTag ∧ y.tagcache = x.tagcache ∧ y.tagendcache = x.tagendcache := by
  obtain ⟨t, ht⟩ := hp
  rw [lit_endOpen, List.cons_append, List.cons_append, List.nil_append] at ht
  subst ht
  cases h
  case nameLeave | commentLeave | tagLeave => exact .inl ⟨rfl, rfl, rfl, rfl, rfl⟩
  case textTag => exact .inr ⟨t, rfl, rfl, rfl, rfl, rfl⟩
  all_goals simp_all

/-- The `/` of an end tag is copied in front of its name. -/
theorem HtmlRule.endSlash (h : HtmlRule x r pending es y nxt) (hs : x.state.top = .htmlTag)
    (hp : pending <+: slash :: w) : es = [] ∧ x.Alike y ∨
      ∃ t, pending = slash :: t ∧ es = [.copy, .stack (htmlStack .htmlTagnameEnd)] ∧
        y.state.top = .htmlTagnameEnd ∧ y.tagcache = x.tagcache ∧ y.tagendcache = x.tagendcache := by
  cases h
  case callTag => exact .inl ⟨rfl, rfl, rfl, rfl, rfl⟩
  case tagSlash t _ => exact .inr ⟨t, rfl, rfl, rfl, rfl, rfl⟩
  case tagSpace | tagName => simp_all [List.cons_prefix_cons]
  all_goals simp_all

/-- What an iteration does in the name of an end tag, of which `u` has been read, in the element
`name`. -/
inductive EndTurn (name u : List UInt8) : List UInt8 → List Ev → MinifyState → List UInt8 → Prop
  | space {t} : EndTurn name u (space :: t) [.skip] .htmlTagnameEnd u
  | nameless {t s st u'} (hu : u = []) : EndTurn name u (gt :: t) [.copy, .stack s] st u'
  | own {t i s st u'} (hu : name <+: u) : EndTurn name u (gt :: t) [.copy, .tag i, .stack s] st u'
  | other {t i s} (hu : u ≠ []) : EndTurn name u (gt :: t) [.copy, .tag i, .stack s] .htmlSkip []
  | name {b t i} (hb : b ≠ Ascii.space ∧ b ≠ gt) :
      EndTurn name u (b :: t) [.tag i, .copy] .htmlTagnameEnd (u ++ [b])

theorem HtmlRule.endTurn (h : HtmlRule x r pending es y nxt) (hs : x.state.top = .htmlTagnameEnd)
    (hne : x.tagcache.name ≠ []) (h0 : 0 ∉ x.tagcache.name) : es = [] ∧ x.Alike y ∨
      EndTurn x.tagcache.name x.tagendcache.name pending es y.state.top y.tagendcache.name ∧
        (y.state.top ≠ .text → y.tagcache = x.tagcache) := by
  cases h
  case callTag | callTagname => exact .inl ⟨rfl, rfl, rfl, rfl, rfl⟩
  case endSpace => exact .inr ⟨hs ▸ .space, fun _ => rfl⟩
  case endName hb hl => exact .inr ⟨hs ▸ .name hb, fun _ => rfl⟩
  case endByte hl => exact absurd (List.eq_nil_of_length_eq_zero hl) hne
  case endGt t _ =>
    right
    unfold Ctx.endGt
    split_ifs with hlen heq
    · exact ⟨.own (NameCache.memcmpEq_prefix h0 heq), by simp⟩
    · exact ⟨.other fun hnil => hlen (congrArg List.length hnil), fun _ => rfl⟩
    · exact ⟨.nameless (List.eq_nil_of_length_eq_zero (not_not.mp hlen)), fun _ => rfl⟩
  all_goals simp_all

theorem contentPasses_byte {b : UInt8} (hb : b ≠ lt) (w : List UInt8) :
    contentPasses next none (b :: w) = contentPasses next none w := by
  rw [contentPasses.eq_def]
  exact if_neg hb

/-- What an iteration makes of the content of an element. -/
theorem ContentPhase.element (hcopy : Copying w w' newer) (hn : x.tagcache.name = name)
    (he : x.tagendcache.name = []) (hpass : contentPasses q.head? none w' = true)
    (hfree : EndTagFree name w) (hpend : pending <+: w' ++ q) (hne : w' ≠ [])
    (h : ElementTurn pending es y.state.top) (hy : y.cache = []) (ht : y.tagcache = x.tagcache)
    (hu : y.tagendcache = x.tagendcache) :
    ContentPhase name w q.head? y (pending.drop (Ev.takes es))
      ((Ev.items x es pending).reverse ++ newer) := by
  rw [← ht] at hn
  rw [← hu] at he
  generalize hst : y.state.top = st at h
  obtain ⟨b, w', rfl⟩ := List.exists_cons_of_ne_nil hne
  cases h with
  | byte hb =>
    obtain rfl := (List.cons_prefix_cons.mp hpend).1
    rw [contentPasses_byte hb] at hpass
    exact .inside w' hst hn he (.inl hy) (hcopy.step rfl rfl) hpass
  | @pair c t hc =>
    have htail := (List.cons_prefix_cons.mp hpend).2
    obtain rfl := (List.cons_prefix_cons.mp hpend).1
    rcases w' with _ | ⟨a, w'⟩
    · exact .whole ⟨hst, hn, hcopy.beyond rfl rfl⟩
    · obtain rfl := (List.cons_prefix_cons.mp htail).1
      refine .inside w' hst hn he (.inl hy) (hcopy.step rfl rfl) ?_
      simpa [contentPasses, hc] using hpass
  | @leave t =>
    have htail := (List.cons_prefix_cons.mp hpend).2
    obtain rfl := (List.cons_prefix_cons.mp hpend).1
    rcases w' with _ | ⟨a, w'⟩
    · obtain ⟨q, rfl⟩ := htail
      simp [contentPasses] at hpass
    · obtain rfl := (List.cons_prefix_cons.mp htail).1
      refine .leaving w' hst hn he hy ⟨t, rfl⟩ (hcopy.step rfl rfl) ?_ ?_
      · simpa [contentPasses] using hpass
      · refine hfree (consumed newer).reverse w' ?_
        rw [lit_endOpen, List.append_assoc]
        exact hcopy.split.symm

/-- What an iteration makes of the name of an end tag. -/
theorem ContentPhase.endTag (hcopy : Copying w w' newer)
    (hpass : contentPasses q.head? (some (x.tagendcache.name ≠ [])) w' = true)
    (hfree : ¬ name.map toLower <+: (x.tagendcache.name ++ w').map toLower)
    (hpend : pending <+: w' ++ q)
    (h : EndTurn name x.tagendcache.name pending es y.state.top y.tagendcache.name)
    (hn : y.state.top ≠ .text → y.tagcache.name = name) (hy : y.cache = []) :
    ContentPhase name w q.head? y (pending.drop (Ev.takes es))
      ((Ev.items x es pending).reverse ++ newer) := by
  rcases w' with _ | ⟨a, w'⟩
  · simp [contentPasses] at hpass
  · generalize hst : y.state.top = st at h hn
    generalize hu : y.tagendcache.name = u at h
    cases h with
    | space =>
      obtain rfl := (List.cons_prefix_cons.mp hpend).1
      simp [contentPasses] at hpass
    | nameless hnil =>
      obtain rfl := (List.cons_prefix_cons.mp hpend).1
      simp [contentPasses, hnil] at hpass
    | own hown =>
      refine absurd (List.IsPrefix.map toLower ?_) hfree
      exact hown.trans (List.prefix_append _ _)
    | other hne =>
      obtain rfl := (List.cons_prefix_cons.mp hpend).1
      refine .inside w' hst (hn (by simp)) hu (.inl hy) (hcopy.step rfl rfl) ?_
      simpa [contentPasses, hne] using hpass
    | name hb =>
      obtain rfl := (List.cons_prefix_cons.mp hpend).1
      refine .ending w' hst (hn (by simp)) hy (hcopy.step rfl rfl) ?_ ?_
      · simpa [contentPasses, hb, hu] using hpass
      · simpa [hu] using hfree

theorem ContentPhase.turn (h : ContentPhase name w q.head? x pending newer)
    (hrule : HtmlRule x r pending es y nxt) (hfree : EndTagFree name w) (hne : name ≠ [])
    (h0 : 0 ∉ name) (hpre : (consumed newer).reverse ++ pending <+: w ++ q) (hy : y.cache = []) :
    ContentPhase name w q.head? y (pending.drop (Ev.takes es))
      ((Ev.items x es pending).reverse ++ .turn r x pending d :: newer) := by
  have hstep : ∀ {w' : List UInt8}, Copying w w' newer →
      Copying w w' (.turn r x pending d :: newer) := fun hcopy => hcopy.step (m := [_]) rfl rfl
  cases h with
  | inside w' hs hn he hc hcopy hpass =>
    rcases hrule.element hs hy with ⟨-, rfl, hxy⟩ | ⟨rfl, hturn, ht, hu⟩
    · exact ContentPhase.idle (.inside w' hs hn he hc hcopy hpass) hxy
    · by_cases hw : w' = []
      · subst hw
        exact .passed ⟨_, newer, x, pending, d, rfl, hs, hn, hcopy.whole⟩
      · exact .element (hstep hcopy) hn he hpass hfree (hcopy.left hpre) hw hturn hy ht hu
  | whole h =>
    rcases hrule.element h.1 hy with ⟨-, rfl, hxy⟩ | ⟨rfl, -⟩
    · exact ContentPhase.idle (.whole h) hxy
    · exact .passed ⟨_, newer, x, pending, d, rfl, h⟩
  | leaving w' hs hn he hc hp hcopy hpass hleft =>
    rcases hrule.endOpening hs hp with ⟨rfl, hxy⟩ | ⟨t, rfl, rfl, hst, ht, hu⟩
    · exact ContentPhase.idle (.leaving w' hs hn he hc hp hcopy hpass hleft) hxy
    · exact .tag w' hst (by rw [ht, hn]) (by rw [hu, he]) hy ((hstep hcopy).step rfl rfl) hpass hleft
  | tag w' hs hn he hc hcopy hpass hleft =>
    rcases hrule.endSlash hs (hcopy.left hpre) with ⟨rfl, hxy⟩ | ⟨t, rfl, rfl, hst, ht, hu⟩
    · exact ContentPhase.idle (.tag w' hs hn he hc hcopy hpass hleft) hxy
    · refine .ending w' hst (by rw [ht, hn]) hy ((hstep hcopy).step rfl rfl) ?_ ?_
      · rw [hu, he]
        exact hpass
      · rw [hu, he]
        exact hleft
  | ending w' hs hn hc hcopy hpass hleft =>
    subst hn
    rcases hrule.endTurn hs hne h0 with ⟨rfl, hxy⟩ | ⟨hturn, ht⟩
    · exact ContentPhase.idle (.ending w' hs rfl hc hcopy hpass hleft) hxy
    · exact .endTag (hstep hcopy) hpass hleft (hcopy.left hpre) hturn
        (fun hst => congrArg NameCache.name (ht hst)) hy
  | passed h =>
    refine .passed ?_
    have happ := h.append ((Ev.items x es pending).reverse ++ [.turn r x pending d])
    rwa [List.append_assoc] at happ

theorem HtmlRule.elementHeld {a : List UInt8} (h : HtmlRule x r pending (Ev.holds a pending) y nxt)
    (hs : x.state.top = .htmlSkip) : pending = [lt] := by
  generalize hes : Ev.holds a pending = es at h
  cases h
  case elementHold => rfl
  case nameSkip | tagSkip | elementEnd | elementPair | elementByte => cases hes
  all_goals simp_all

/-- What holding back all unread bytes makes of the phase. -/
theorem ContentPhase.hold {a : List UInt8} (h : ContentPhase name w q.head? x pending newer)
    (hrule : HtmlRule x r pending (Ev.holds a pending) y nxt) (hne : name ≠ []) (h0 : 0 ∉ name)
    (hpre : (consumed newer).reverse ++ pending <+: w ++ q) (hy : x.Held pending y) :
    ContentPhase name w q.head? y pending
      (.cacheCall a 0 pending :: .turn r x pending d :: newer) := by
  have ht : y.tagcache = x.tagcache := by cases hy <;> rfl
  have hu : y.tagendcache = x.tagendcache := by cases hy <;> rfl
  have hholds : Ev.holds a pending ≠ [] := List.cons_ne_nil _ _
  cases h with
  | inside w' hs hn he hc hcopy hpass =>
    refine .inside w' (by rw [hy.state, hs]) (by rw [ht, hn]) (by rw [hu, he])
      (.inr (hrule.elementHeld hs)) ?_ hpass
    exact hcopy.step (m := [.cacheCall a 0 pending, .turn r x pending d]) rfl rfl
  | whole h => exact .whole ⟨by rw [hy.state, h.1], by rw [ht, h.2.1], h.2.2⟩
  | leaving w' hs hn he hc hp hcopy hpass hleft =>
    rcases hrule.endOpening hs hp with ⟨hes, -⟩ | ⟨t, -, hes, -⟩
    · exact absurd hes hholds
    · cases hes
  | tag w' hs hn he hc hcopy hpass hleft =>
    rcases hrule.endSlash hs (hcopy.left hpre) with ⟨hes, -⟩ | ⟨t, -, hes, -⟩
    · exact absurd hes hholds
    · cases hes
  | ending w' hs hn hc hcopy hpass hleft =>
    subst hn
    rcases hrule.endTurn hs hne h0 with ⟨hes, -⟩ | ⟨hturn, -⟩
    · exact absurd hes hholds
    · generalize hes : Ev.holds a pending = es at hturn
      generalize y.tagendcache.name = u at hturn
      generalize y.state.top = st at hturn
      cases hturn <;> cases hes
  | passed h => exact .passed (h.append [.cacheCall a 0 pending, .turn r x pending d])

theorem ContentPhase.handOver (h : ContentPhase name w next x pending newer) (buf : List UInt8) :
    ContentPhase name w next (x.hold []) (pending ++ buf) (.buffer :: newer) := by
  have hstep : ∀ {w' : List UInt8}, Copying w w' newer → Copying w w' (.buffer :: newer) :=
    fun hcopy => hcopy.step (m := [.buffer]) rfl rfl
  cases h with
  | inside w' hs hn he hc hcopy hpass => exact .inside w' hs hn he (.inl rfl) (hstep hcopy) hpass
  | whole h => exact .whole h
  | leaving w' hs hn he hc hp hcopy hpass hleft =>
    exact .leaving w' hs hn he rfl (hp.trans (List.prefix_append _ _)) (hstep hcopy) hpass hleft
  | tag w' hs hn he hc hcopy hpass hleft => exact .tag w' hs hn he rfl (hstep hcopy) hpass hleft
  | ending w' hs hn hc hcopy hpass hleft => exact .ending w' hs hn rfl (hstep hcopy) hpass hleft
  | passed h => exact .passed (h.append [.buffer])

end Phases

structure ContentInv (v : View) : Prop where
  named : v.ctx.Named
  turns : ∀ r x u d, Item.turn r x u d ∈ v.trace → x.Named
  phase : ∀ newer older x u w q d, v.trace = newer ++ .turn .htmlStripBuffer x u d :: older →
    x.state.top = .htmlSkip → EndTagFree x.tagcache.name w → contentPasses q.head? none w = true →
      (consumed newer).reverse ++ v.pending <+: w ++ q →
        ContentPhase x.tagcache.name w q.head? v.ctx v.pending
          (newer ++ [.turn .htmlStripBuffer x u d])

theorem Ctx.Named.ended {x : Ctx} (h : x.Named) (nxt : Next) (r : Routine) (d : ℕ)
    (out : List UInt8) : (nxt.ended r d out x).Named := by
  obtain ⟨p, q, he⟩ := nxt.ended_eq r d out x
  rw [he]
  exact h.of_eq rfl rfl rfl

theorem Ctx.alike_ended (x : Ctx) (nxt : Next) (r : Routine) (d : ℕ) (out : List UInt8) :
    x.Alike (nxt.ended r d out x) := by
  obtain ⟨p, q, he⟩ := nxt.ended_eq r d out x
  rw [he]
  exact ⟨rfl, rfl, rfl, rfl⟩

theorem contentInv : TraceInv htmlMachine ContentInv where
  start := ⟨⟨fun _ => .inl rfl, nofun, fun _ => rfl⟩, by simp, by simp⟩
  next {v} buf _ h _ := by
    refine ⟨h.named.of_eq rfl rfl rfl, by simpa using h.turns, ?_⟩
    intro newer older x u w q d he hs hfree hpass hpre
    rcases newer with _ | ⟨i, newer⟩
    · cases he
    · have htr := (List.cons.inj he).2
      obtain rfl := (List.cons.inj he).1
      refine (h.phase newer older x u w q d htr hs hfree hpass ?_).handOver buf
      refine (List.prefix_append _ buf).trans ?_
      rw [List.append_assoc]
      exact hpre
  turn {v es y nxt k k' r' n tr} hv h hc hy hrule hgo hk hd htr := by
    have hrule' : HtmlRule v.ctx v.r v.pending es y nxt := hrule
    have hnot : ∀ r x u d, Item.turn r x u d ∉ (Ev.items v.ctx es v.pending).reverse :=
      fun r x u d hmem => Ev.turn_notMem_items v.ctx x r u d es v.pending (List.mem_reverse.mp hmem)
    have hread : (consumed (Ev.items v.ctx es v.pending).reverse).reverse ++
        v.pending.drop (Ev.takes es) = v.pending := by
      rw [consumed_reverse, List.reverse_reverse, Ev.consumed_items _ _ _ hrule'.takes_le,
        List.take_append_drop]
    subst htr
    refine ⟨(hrule'.named h.named).ended _ _ _ _, ?_, ?_⟩
    · intro r x u d hmem
      rcases List.mem_append.mp hmem with hmem | hmem
      · exact absurd hmem (hnot r x u d)
      · rcases List.mem_cons.mp hmem with he | hmem
        · cases he
          exact h.named
        · exact h.turns r x u d hmem
    · intro newer older x u w q d he hs hfree hpass hpre
      refine ContentPhase.of_eq ?_ (Ctx.alike_ended y nxt r' _ _)
      rcases turn_split hnot he with ⟨rfl, hturn⟩ | ⟨m, rfl, htr⟩
      · injection hturn with hr hx hu hd
        subst hx hu hd
        rw [hr] at hrule'
        rw [hread] at hpre
        have hphase : ContentPhase v.ctx.tagcache.name w q.head? v.ctx v.pending [] :=
          .inside w hs rfl (h.named.endName (by simp [hs])) (.inl hc) ⟨rfl, rfl⟩ hpass
        exact hphase.turn hrule' hfree (h.named.element hs) (h.named.nul hs) hpre hy
      · have hx : x.Named := h.turns _ x u d (by rw [htr]; exact List.mem_append_right _ List.mem_cons_self)
        have hpre' : (consumed m).reverse ++ v.pending <+: w ++ q := by
          rw [consumed_append, List.reverse_append, List.append_assoc, hread] at hpre
          exact hpre
        have hphase := ContentPhase.turn (r := v.r) (d := v.dstlen)
          (h.phase m older x u w q d htr hs hfree hpass hpre') hrule' hfree (hx.element hs) (hx.nul hs)
          (by simpa using hpre') hy
        rwa [List.append_assoc]
  hold {v y} a hv h hc hrule hy := by
    have hrule' : HtmlRule v.ctx v.r v.pending (Ev.holds a v.pending) y .again := hrule
    have hnamed : y.Named := by
      cases hy <;> exact h.named.of_eq rfl rfl rfl
    refine ⟨hnamed.ended .again v.r v.dstlen (emitted v.trace), ?_, ?_⟩
    · intro r x u d hmem
      rcases List.mem_cons.mp hmem with he | hmem
      · cases he
      · rcases List.mem_cons.mp hmem with he | hmem
        · cases he
          exact h.named
        · exact h.turns r x u d hmem
    · intro newer older x u w q d he hs hfree hpass hpre
      refine ContentPhase.of_eq ?_ (Ctx.alike_ended y .again v.r v.dstlen (emitted v.trace))
      rcases turn_split (l := [.cacheCall a 0 v.pending]) (by simp) he with ⟨rfl, hturn⟩ | ⟨m, rfl, htr⟩
      · injection hturn with hr hx hu hd
        subst hx hu hd
        rw [hr] at hrule'
        have hphase : ContentPhase v.ctx.tagcache.name w q.head? v.ctx v.pending [] :=
          .inside w hs rfl (h.named.endName (by simp [hs])) (.inl hc) ⟨rfl, rfl⟩ hpass
        exact hphase.hold hrule' (h.named.element hs) (h.named.nul hs) hpre hy
      · have hx : x.Named := h.turns _ x u d (by rw [htr]; exact List.mem_append_right _ List.mem_cons_self)
        exact ContentPhase.hold (h.phase m older x u w q d htr hs hfree hpass hpre) hrule'
          (hx.element hs) (hx.nul hs) (by simpa using hpre) hy
  done {v k r'} _ h _ := by
    refine ⟨h.named.ended .again r' v.dstlen (emitted v.trace), h.turns, ?_⟩
    intro newer older x u w q d he hs hfree hpass hpre
    exact (h.phase newer older x u w q d he hs hfree hpass hpre).of_eq
      (Ctx.alike_ended v.ctx .again r' v.dstlen (emitted v.trace))

/-- The end of the content comes up while the minifier is in the element, in an iteration or at
the end of what there is. -/
def EndsInside (name w : List UInt8) (s : Session) (newer : List Item) : Prop :=
  Passed name w newer ∨ StillInside name w s.ctx newer

/-- Content without an end tag of its element is copied, in any buffers, when it has no end tags
but such as have a name and no space. -/
theorem content_copied {cap : Option ℕ} {bufs : List (List UInt8)} {s : Session}
    (h : feedAll Flat cap .html .start bufs = .ok s) {newer older : List Item} {x : Ctx}
    {u w q : List UInt8} {d : ℕ} (htr : s.trace = newer ++ .turn .htmlStripBuffer x u d :: older)
    (hs : x.state.top = .htmlSkip) (hpage : bufs.flatten = (consumed older).reverse ++ (w ++ q))
    (hfree : EndTagFree x.tagcache.name w) (hpass : contentPasses q.head? none w = true) :
    EndsInside x.tagcache.name w s (newer ++ [.turn .htmlStripBuffer x u d]) := by
  obtain ⟨c, hreach, hnil, rfl, -⟩ := feedAll_ok h
  have hpending : c.pending = c.ctx.cache := by rw [Conf.pending, hnil, List.append_nil]
  have htr' : c.settled = newer ++ .turn .htmlStripBuffer x u d :: older := htr
  have hread : (consumed newer).reverse ++ c.pending = w ++ q := by
    have hsplit : (consumed c.settled).reverse ++ c.pending = bufs.flatten := hreach.split
    rw [htr', hpage, consumed_append, List.reverse_append, List.append_assoc] at hsplit
    exact List.append_cancel_left hsplit
  have hphase := (contentInv.reach hreach).phase newer older x u w q d htr' hs hfree hpass
    (by rw [← hread]; exact List.prefix_refl _)
  have hleft : ∀ {w' : List UInt8},
      Copying w w' (newer ++ [.turn .htmlStripBuffer x u d]) → c.pending = w' ++ q := by
    intro w' hcopy
    have hsplit : (consumed newer).reverse ++ w' = w := by simpa using hcopy.split
    rw [← hsplit, List.append_assoc] at hread
    exact List.append_cancel_left hread
  cases hphase with
  | inside w' hst hn he hc hcopy hp =>
    have hrest := hleft hcopy
    rcases w' with _ | ⟨b, w'⟩
    · exact .inr ⟨hst, hn, hcopy.whole⟩
    · rcases hc with hc | hc
      · exact absurd (hrest.symm.trans (hpending.trans hc)) (List.cons_ne_nil _ _)
      · -- a `<` at the end of the page is held back
        have hlt : b :: w' ++ q = [lt] := hrest.symm.trans hc
        obtain ⟨rfl, hnil'⟩ := List.cons.inj hlt
        obtain ⟨rfl, rfl⟩ := List.append_eq_nil_iff.mp hnil'
        cases hp
  | whole h => exact .inr h
  | leaving w' hst hn he hc hp hcopy hp' hf =>
    exact absurd ((hleft hcopy).symm.trans (hpending.trans hc)) (List.cons_ne_nil _ _)
  | tag w' hst hn he hc hcopy hp hf =>
    exact absurd ((hleft hcopy).symm.trans (hpending.trans hc)) (List.cons_ne_nil _ _)
  | ending w' hst hn hc hcopy hp hf =>
    rcases w' with _ | ⟨b, w'⟩
    · cases hp
    · exact absurd ((hleft hcopy).symm.trans (hpending.trans hc)) (List.cons_ne_nil _ _)
  | passed h => exact .inl h

theorem endTagFree_of_once {name w : List UInt8} (h : ¬ name.map toLower <:+: w.map toLower) :
    EndTagFree name w := by
  rintro u v rfl hpre
  refine h (hpre.isInfix.trans ?_)
  rw [List.map_append]
  exact (List.suffix_append _ _).isInfix

/-- The name of the element, and the page in front of it, of the iteration with `n` items behind it. -/
def elementAt (n : ℕ) (s : Session) : Option (List UInt8 × List UInt8) :=
  match s.trace[n]? with
  | some (.turn .htmlStripBuffer x _ _) =>
    if x.state.top = .htmlSkip then
      some (x.tagcache.name, (consumed (s.trace.drop (n + 1))).reverse)
    else none
  | _ => none

/-- Whether `html_state_skip` comes up in an item. -/
def Item.isElement : Item → Bool
  | .turn _ x _ _ => x.state.top = .htmlSkip
  | _ => false

theorem exists_element (page name before : List UInt8) {n : ℕ} {b : Bool × Bool}
    (h : (feedAll Stream none .html .start [page]).map (fun s => (elementAt n s,
      decide (s.ctx.state.top = .htmlSkip), (s.trace.take n).any Item.isElement)) =
        .ok (some (name, before), b)) :
    ∃ s newer older x u d, feedAll Flat none .html .start [page] = .ok s ∧
      s.trace = newer ++ .turn .htmlStripBuffer x u d :: older ∧ x.state.top = .htmlSkip ∧
      x.tagcache.name = name ∧ (consumed older).reverse = before ∧
      (decide (s.ctx.state.top = .htmlSkip), newer.any Item.isElement) = b := by
  obtain ⟨t, -, -, hrun⟩ := feedAll_reach .html [page]
  rw [hrun] at h
  injection h with h
  obtain ⟨helement, hb⟩ := Prod.mk.inj h
  unfold elementAt at helement
  split at helement
  · next x u d hturn =>
    obtain ⟨hlt, hget⟩ := List.getElem?_eq_some_iff.mp hturn
    split at helement
    · next hs =>
      injection helement with helement
      obtain ⟨hname, hbefore⟩ := Prod.mk.inj helement
      refine ⟨t.session, t.session.trace.take n, t.session.trace.drop (n + 1), x, u, d, ?_, ?_, hs,
        hname, hbefore, hb⟩
      · rw [feedAll_flat, hrun]
      · rw [← hget, ← List.drop_eq_getElem_cons hlt, List.take_append_drop]
    · cases helement
  · cases helement

theorem content_copied_b : ∃ s newer x u d,
    feedAll Flat none .html .start [lit "<pre>a</b>"] = .ok s ∧
      EndsInside (lit "pre") (lit "a</b>") s (newer ++ [.turn .htmlStripBuffer x u d]) := by
  obtain ⟨s, newer, older, x, u, d, hs, htr, hx, hname, hbefore, -⟩ :=
    exists_element (lit "<pre>a</b>") (lit "pre") (lit "<pre>") (n := 18) (b := (true, true))
      (by decide +kernel)
  have hpage : [lit "<pre>a</b>"].flatten = (consumed older).reverse ++ (lit "a</b>" ++ []) := by
    rw [hbefore]
    decide
  have hfree : EndTagFree x.tagcache.name (lit "a</b>") := by
    rw [hname]
    exact endTagFree_of_once (by decide)
  rw [← hname]
  exact ⟨s, newer, x, u, d, hs, content_copied hs htr hx hpage hfree (by decide)⟩

/-- The content `</>` of an element ends it. -/
theorem nameless_end_tag : ¬ ∀ (bufs : List (List UInt8)) (s : Session) (newer older : List Item)
    (x : Ctx) (u w q : List UInt8) (d : ℕ), feedAll Flat none .html .start bufs = .ok s →
      s.trace = newer ++ .turn .htmlStripBuffer x u d :: older → x.state.top = .htmlSkip →
        bufs.flatten = (consumed older).reverse ++ (w ++ q) → EndTagFree x.tagcache.name w →
          EndsInside x.tagcache.name w s (newer ++ [.turn .htmlStripBuffer x u d]) := by
  intro h
  obtain ⟨s, newer, older, x, u, d, hs, htr, hx, hname, hbefore, hb⟩ :=
    exists_element (lit "<pre></>") (lit "pre") (lit "<pre>") (n := 12) (b := (false, false))
      (by decide +kernel)
  obtain ⟨hend, hany⟩ := Prod.mk.inj hb
  have hpage : [lit "<pre></>"].flatten = (consumed older).reverse ++ (lit "</>" ++ []) := by
    rw [hbefore]
    decide
  have hfree : EndTagFree x.tagcache.name (lit "</>") := by
    rw [hname]
    exact endTagFree_of_once (by decide)
  rcases h _ s newer older x u _ _ d hs htr hx hpage hfree with ⟨later, mid, y, v, e, he, hy⟩ | hy
  · rcases List.eq_nil_or_concat mid with rfl | ⟨mid, i, rfl⟩
    · exact absurd hy.2.2.2.1 (by decide)
    · rw [List.concat_eq_append, ← List.cons_append, ← List.append_assoc] at he
      have hmem : Item.turn .htmlStripBuffer y v e ∈ newer := by
        rw [(List.append_inj' he rfl).1]
        exact List.mem_append_right _ List.mem_cons_self
      have htrue : newer.any Item.isElement = true :=
        List.any_eq_true.mpr ⟨_, hmem, decide_eq_true hy.1⟩
      rw [hany] at htrue
      cases htrue
  · exact absurd hy.1 (of_decide_eq_false hend)

end NginB.Minify
