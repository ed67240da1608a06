import NginB.Minify.TagOutput

/-! # Values of attributes

The attributes of a tag are read without regard to quotes: a space behind a space may be left out of a
value, and the first `>` ends the tag, after which a value is read as text or as content.
-/
namespace NginB.Minify
open NginB.Program Ascii

/-- A start tag with the value of one of its attributes; `before` are the attributes in front of it, and
its own name. -/
structure ValueTag where
  name : List UInt8
  before : List UInt8
  quote : UInt8
  value : List UInt8
  after : List UInt8
  name_ne : name ≠ []
  name_plain : ∀ b ∈ name, ¬ Delimits b
  name_head : name.head? ≠ some bang
  quote_mem : quote = dquote ∨ quote = squote
  value_free : quote ∉ value

namespace ValueTag

def front (t : ValueTag) : List UInt8 := lt :: (t.name ++ space :: (t.before ++ [t.quote]))

def bytes (t : ValueTag) : List UInt8 := t.front ++ (t.value ++ t.quote :: (t.after ++ [gt]))

/-- The bytes of the value are read, and nothing is done but that some of them, which may be, are left out. -/
def DropsOnly (t : ValueTag) (l : List Item) : Prop :=
  (t.front ++ t.value).length ≤ (consumed l).length ∧ ∀ w b w', t.value = w ++ b :: w' →
    writtenTo ((t.front ++ w).length + 1) l = b :: writtenTo (t.front ++ w).length l ∨
      writtenTo ((t.front ++ w).length + 1) l = writtenTo (t.front ++ w).length l ∧
        (scanTags (t.front ++ w)).MayDrop (t.front ++ w).reverse (writtenTo (t.front ++ w).length l) b

/-- The value is read and written unchanged. -/
def Unchanged (t : ValueTag) (l : List Item) : Prop :=
  (t.front ++ t.value).length ≤ (consumed l).length ∧
    writtenTo (t.front ++ t.value).length l = t.value.reverse ++ writtenTo t.front.length l

instance (t : ValueTag) (l : List Item) : Decidable (t.Unchanged l) := inferInstanceAs (Decidable (_ ∧ _))

/-- The value has no two spaces next to each other, and what of it is not read as attributes is content
of an element, or text without white space but spaces and without `<`. -/
structure Tidy (t : ValueTag) : Prop where
  spaces : ¬ [space, space] <:+: t.value
  behind : ∀ w b w', t.value = w ++ b :: w' → gt ∈ t.front ++ w →
    (scanTags (t.front ++ w)).mode ∈ [TagMode.inside, .insideOpened] ∨
      (scanTags (t.front ++ w)).mode = .text ∧ b ∉ [lf, cr, tab, lt]

end ValueTag

section Scans
variable {t : ValueTag} {n e w : List UInt8}

/-- In front of the first `>` the tag is read as attributes. -/
theorem foldl_attrs_mode {s : TagScan} (hs : s.mode = .attrs ∨ s.mode = .slash) (hw : gt ∉ w) :
    (w.foldl readTag s).mode = .attrs ∨ (w.foldl readTag s).mode = .slash := by
  induction w generalizing s with
  | nil => exact hs
  | cons b w ih =>
    obtain ⟨hb, hw⟩ := List.ne_and_not_mem_of_not_mem_cons hw
    rw [List.foldl_cons]
    apply ih _ hw
    rcases hs with hs | hs
    · by_cases hslash : b = slash <;> simp [readTag, hs, Ne.symm hb, hslash]
    · simp [readTag, hs, Ne.symm hb]

/-- What a tag leads to does not depend on what comes before it. -/
theorem ValueTag.foldl_eq (hw : lt :: t.name <+: w) : w.foldl readTag ⟨.text, n, e⟩ = scanTags w := by
  obtain ⟨v, rfl⟩ := hw
  rw [scanTags_append, scanTags, List.foldl_append, foldl_opened_name t.name_ne t.name_plain t.name_head,
    foldl_opened_name t.name_ne t.name_plain t.name_head]

theorem ValueTag.scan_attrs {v : List UInt8} (hv : gt ∉ v) :
    (scanTags (lt :: (t.name ++ space :: v))).mode = .attrs ∨ (scanTags (lt :: (t.name ++ space :: v))).mode = .slash := by
  have hblank : (readTag ⟨.name, t.name, []⟩ space).mode = .attrs := by simp [readTag, readName]
  rw [← List.cons_append, scanTags_append, scanTags, foldl_opened_name t.name_ne t.name_plain t.name_head,
    List.foldl_cons]
  exact foldl_attrs_mode (.inl hblank) hv

end Scans

section Values
variable {t : ValueTag} {n e v : List UInt8} {l : List Item}

theorem ValueTag.front_eq : t.front = lt :: (t.name ++ space :: t.before) ++ [t.quote] := by
  simp [front]

theorem ValueTag.name_prefix (w : List UInt8) : lt :: t.name <+: t.front ++ w :=
  ⟨space :: (t.before ++ [t.quote]) ++ w, by simp [front]⟩

theorem ValueTag.dropsOnly (hdrops : DropsAsRead ⟨.text, n, e⟩ l)
    (hread : (consumed l).reverse = t.front ++ (t.value ++ v)) : t.DropsOnly l := by
  constructor
  · have hlen := congrArg List.length hread
    simp only [List.length_reverse, List.length_append] at hlen ⊢
    omega
  · intro w b w' hw
    have hsplit : (consumed l).reverse = (t.front ++ w) ++ b :: (w' ++ v) := by
      rw [hread, hw]
      simp
    have hwritten := hdrops.written hsplit
    rwa [t.foldl_eq (t.name_prefix w)] at hwritten

theorem ValueTag.quote_written (hdrops : DropsAsRead ⟨.text, n, e⟩ l)
    (hread : (consumed l).reverse = t.front ++ (t.value ++ v)) :
    (writtenTo t.front.length l).head? = some t.quote ∨ (scanTags t.front).mode = .bang := by
  have hsplit : (consumed l).reverse = lt :: (t.name ++ space :: t.before) ++ t.quote :: (t.value ++ v) := by
    rw [hread, front_eq]
    simp
  have hscan : (lt :: (t.name ++ space :: t.before)).foldl readTag ⟨.text, n, e⟩ =
      scanTags (lt :: (t.name ++ space :: t.before)) := t.foldl_eq ⟨space :: t.before, rfl⟩
  have hlen : t.front.length = (lt :: (t.name ++ space :: t.before)).length + 1 := by
    rw [front_eq, List.length_append]
    rfl
  rw [hlen]
  rcases hdrops.written hsplit with hout | ⟨-, hmay⟩
  · exact .inl (by rw [hout]; rfl)
  · right
    rw [hscan] at hmay
    rw [front_eq, scanTags_append, List.foldl_cons, List.foldl_nil]
    revert hmay
    generalize scanTags (lt :: (t.name ++ space :: t.before)) = s
    rcases t.quote_mem with hq | hq <;> rcases s with ⟨_ | _⟩ <;> simp [TagScan.MayDrop, readTag, hq]

/-- Behind the quote or a byte of a tidy value there is no second space. -/
theorem ValueTag.Tidy.single (htidy : t.Tidy) {w w' out : List UInt8} (hw : t.value = w ++ space :: w')
    (hout : out.head? = some t.quote) : (w.reverse ++ out).head? ≠ some space := by
  intro hspace
  rcases List.eq_nil_or_concat w with rfl | ⟨w₀, c, rfl⟩
  · rw [List.reverse_nil, List.nil_append, hout, Option.some.injEq] at hspace
    rcases t.quote_mem with hq | hq <;> rw [hq] at hspace <;> exact absurd hspace (by decide)
  · rw [List.concat_eq_append, List.reverse_append] at hspace
    obtain rfl : c = space := by simpa using hspace
    exact htidy.spaces ⟨w₀, w', by simp [hw]⟩

theorem ValueTag.Tidy.not_mayDrop (htidy : t.Tidy) {w w' out : List UInt8} {b : UInt8} (hw : t.value = w ++ b :: w')
    (hout : out.head? = some t.quote ∨ (scanTags t.front).mode = .bang) :
    ¬ (scanTags (t.front ++ w)).MayDrop (t.front ++ w).reverse (w.reverse ++ out) b := by
  intro hmay
  by_cases hgt : gt ∈ t.front ++ w
  · rcases htidy.behind w b w' hw hgt with hm | ⟨hm, hb⟩
    · rcases List.mem_pair.mp hm with hm | hm <;> simp [TagScan.MayDrop, hm] at hmay
    · simp only [List.mem_cons, List.not_mem_nil, or_false, not_or] at hb
      simp only [TagScan.MayDrop, hm, hb, false_or] at hmay
      obtain ⟨rfl, hspace⟩ := hmay
      rcases hout with hout | hbang
      · exact htidy.single hw hout hspace
      · rw [scanTags_append, TagScan.foldl_bang hbang, hbang] at hm
        cases hm
  · have hfront : t.front ++ w = lt :: (t.name ++ space :: (t.before ++ [t.quote] ++ w)) := by simp [front]
    have hv : gt ∉ t.before ++ [t.quote] ++ w := by
      intro hmem
      rw [hfront] at hgt
      exact hgt (List.mem_cons_of_mem _ (List.mem_append_right _ (List.mem_cons_of_mem _ hmem)))
    have hscan := t.scan_attrs hv
    rw [← hfront] at hscan
    rcases hscan with hm | hm
    · simp only [TagScan.MayDrop, hm] at hmay
      obtain ⟨rfl, hspace⟩ := hmay
      rw [List.reverse_append] at hspace
      exact htidy.single hw (by simp [front]) hspace
    · simp [TagScan.MayDrop, hm] at hmay

theorem ValueTag.unchanged (htidy : t.Tidy) (hdrops : DropsAsRead ⟨.text, n, e⟩ l)
    (hread : (consumed l).reverse = t.front ++ (t.value ++ v)) : t.Unchanged l := by
  have honly := dropsOnly hdrops hread
  refine ⟨honly.1, ?_⟩
  have hwritten : ∀ w w', t.value = w ++ w' →
      writtenTo (t.front ++ w).length l = w.reverse ++ writtenTo t.front.length l := by
    intro w
    induction w using List.reverseRecOn with
    | nil =>
      intro w' _
      rw [List.append_nil]
      rfl
    | append_singleton w b ih =>
      intro w' hw
      have hw' : t.value = w ++ b :: w' := by simpa using hw
      have hout := ih (b :: w') hw'
      have hlen : (t.front ++ (w ++ [b])).length = (t.front ++ w).length + 1 := by simp; omega
      rw [hlen, List.reverse_append]
      rcases honly.2 w b w' hw' with hkept | ⟨-, hmay⟩
      · rw [hkept, hout]
        rfl
      · rw [hout] at hmay
        exact absurd hmay (htidy.not_mayDrop hw' (quote_written hdrops hread))
  exact hwritten t.value [] (List.append_nil _).symm

/-- In front of the first `>` a value need only be free of two spaces. -/
theorem ValueTag.tidy_of_attrs (hspaces : ¬ [space, space] <:+: t.value) (hgt : gt ∉ t.front ++ t.value) :
    t.Tidy where
  spaces := hspaces
  behind w b w' hw hmem := by
    refine absurd ?_ hgt
    rw [hw, ← List.append_assoc]
    exact List.mem_append_left _ hmem

end Values

/-- Of a value in a start tag that the text state comes upon, nothing is left out but what may be, and a
tidy value is written unchanged. -/
theorem value_kept {cap : Option ℕ} {bufs : List (List UInt8)} {s : Session}
    (h : feedAll Flat cap .html .start bufs = .ok s) {newer older : List Item} {r : Routine} {x : Ctx}
    {u q : List UInt8} {d : ℕ} {t : ValueTag} (htr : s.trace = newer ++ .turn r x u d :: older)
    (hs : x.state.top = .text) (hpage : (consumed newer).reverse ++ s.ctx.cache = t.bytes ++ q) :
    t.DropsOnly (newer ++ [.turn r x u d]) ∧ (t.Tidy → t.Unchanged (newer ++ [.turn r x u d])) := by
  have hopens : OpensTag (t.bytes ++ q) := by
    obtain ⟨c, w, hname⟩ := List.exists_cons_of_ne_nil t.name_ne
    have hhead := t.name_head
    rw [hname, List.head?_cons, Ne, Option.some.injEq] at hhead
    exact ⟨c, _, by rw [ValueTag.bytes, ValueTag.front, hname]; rfl, hhead⟩
  have hpassage : Passage (machine .html) _ _ := outputPassage
  obtain ⟨-, houtput⟩ := hpassage.session h htr hpage ⟨named_of_turn h htr, hs, hopens⟩
  have hsplit : (consumed (newer ++ [.turn r x u d])).reverse ++ s.ctx.cache =
      (t.front ++ t.value) ++ (t.quote :: (t.after ++ gt :: q)) := by
    rw [consumed_append]
    simpa [ValueTag.bytes] using hpage
  obtain ⟨v, hread⟩ : ∃ v, (consumed (newer ++ [.turn r x u d])).reverse = t.front ++ (t.value ++ v) := by
    rcases List.append_eq_append_iff.mp hsplit with ⟨k, -, hcache⟩ | ⟨k, hread, -⟩
    · refine absurd ?_ houtput.free
      rw [hcache]
      simp
    · exact ⟨k, by rw [hread, List.append_assoc]⟩
  exact ⟨t.dropsOnly houtput.drops hread, fun htidy => t.unchanged htidy houtput.drops hread⟩

/-- The page `<a b="c / d">`, cut in front of the slash. -/
theorem value_kept_cut : ∃ (s : Session) (newer : List Item) (t : ValueTag),
    feedAll Flat none .html .start [lit "<a b=\"c ", lit "/ d\">"] = .ok s ∧ t.value = lit "c / d" ∧ t.Unchanged newer := by
  let t : ValueTag := ⟨lit "a", lit "b=", dquote, lit "c / d", [], by decide +kernel, by decide +kernel, by decide +kernel, .inl rfl,
    by decide +kernel⟩
  obtain ⟨s, newer, older, hs, htr, hpage⟩ : ∃ s newer older,
      feedAll Flat none .html .start [lit "<a b=\"c ", lit "/ d\">"] = .ok s ∧
        s.trace = newer ++ .turn .htmlStripBuffer Ctx.zero (lit "<a b=\"c ") 0 :: older ∧
        (consumed newer).reverse ++ s.ctx.cache = t.bytes ++ [] :=
    exists_turn (n := 37) (f := fun s newer => (consumed newer).reverse ++ s.ctx.cache) (by decide +kernel)
  have hspaces : ¬ [space, space] <:+: t.value := by decide
  have hgt : gt ∉ t.front ++ t.value := by decide
  exact ⟨s, _, t, hs, rfl, (value_kept hs htr rfl hpage).2 (t.tidy_of_attrs hspaces hgt)⟩

/-- In the page `<a b="c  d">` the second space of the value is left out. -/
theorem spaces_not_kept : ¬ ∀ (bufs : List (List UInt8)) (s : Session) (newer older : List Item) (r : Routine)
    (x : Ctx) (u q : List UInt8) (d : ℕ) (t : ValueTag), feedAll Flat none .html .start bufs = .ok s →
      s.trace = newer ++ .turn r x u d :: older → x.state.top = .text →
        (consumed newer).reverse ++ s.ctx.cache = t.bytes ++ q → t.Unchanged (newer ++ [.turn r x u d]) := by
  intro h
  let t : ValueTag := ⟨lit "a", lit "b=", dquote, lit "c  d", [], by decide +kernel, by decide +kernel, by decide +kernel, .inl rfl,
    by decide +kernel⟩
  obtain ⟨s, newer, older, hs, htr, hf⟩ : ∃ s newer older,
      feedAll Flat none .html .start [lit "<a b=\"c  d\">"] = .ok s ∧
        s.trace = newer ++ .turn .htmlStripBuffer Ctx.zero (lit "<a b=\"c  d\">") 0 :: older ∧
        ((consumed newer).reverse ++ s.ctx.cache,
          decide (t.Unchanged (newer ++ [.turn .htmlStripBuffer Ctx.zero (lit "<a b=\"c  d\">") 0]))) =
            (t.bytes ++ [], false) :=
    exists_turn (n := 33) (f := fun s newer => ((consumed newer).reverse ++ s.ctx.cache,
      decide (t.Unchanged (newer ++ [.turn .htmlStripBuffer Ctx.zero (lit "<a b=\"c  d\">") 0])))) (by decide +kernel)
  obtain ⟨hpage, hkept⟩ := Prod.mk.inj hf
  exact of_decide_eq_false hkept (h _ s newer older _ _ _ _ _ t hs htr rfl hpage)

/-- Cut between the two spaces, the value is written with both. -/
example : ∃ s, feedAll Flat none .html .start [lit "<a b=\"c ", lit " d\">"] = .ok s ∧
    (emitted s.trace).reverse = lit "<a b=\"c  d\">" := exists_run (by decide +kernel)

end NginB.Minify
