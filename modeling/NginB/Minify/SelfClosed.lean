import NginB.Minify.Elements

/-! # Self-closed tags

A `/>` ends a tag of one of the names without an element behind it, if the slash is neither the
byte that ends the name nor the second one of a pair.
-/
namespace NginB.Minify
open NginB.Program Ascii

def selfClosed (name a : List UInt8) : List UInt8 := lt :: (name ++ a ++ [slash, gt])

/-- The minifier is in the text state behind `w`, and no name of an element is kept. -/
def LeftFor (w : List UInt8) (s : Session) (newer : List Item) : Prop :=
  (ctxBehind w.length s.ctx newer).state.top = .text ∧ (ctxBehind w.length s.ctx newer).tagcache.name = []

/-- The slashes that end the attributes are read in pairs, and one is there to close the tag. -/
def SlashLeft (a : List UInt8) : Prop := a ≠ [] ∧ Even (a.rtakeWhile (· = slash)).length

instance (a : List UInt8) : Decidable (SlashLeft a) := inferInstanceAs (Decidable (_ ∧ _))

section Scans
variable {name a n e : List UInt8}

/-- The names that are skipped have no byte that ends a name and no `!`. -/
theorem IsSkipTag.plain (h : IsSkipTag name) : ∀ b ∈ name, ¬ Delimits b ∧ b ≠ bang := by
  have hplain : ∀ tag ∈ htmlSkipTag, ∀ c ∈ gt :: slash :: space :: tab :: cr :: lf :: [bang],
      toLower c ∉ tag := by decide +kernel
  intro b hb
  have hnot : b ∉ gt :: slash :: space :: tab :: cr :: lf :: [bang] :=
    fun hmem => hplain _ h b hmem (List.mem_map_of_mem hb)
  constructor
  · intro hdelim
    exact hnot (List.mem_append_left [bang] hdelim)
  · rintro rfl
    exact hnot (by decide)

theorem IsSkipTag.ne_nil (h : IsSkipTag name) : name ≠ [] := by
  rintro rfl
  revert h
  decide

theorem IsSkipTag.foldl_opened (h : IsSkipTag name) : (lt :: name).foldl readTag ⟨.text, n, e⟩ = ⟨.name, name, []⟩ :=
  foldl_opened_name h.ne_nil (fun b hb => (h.plain b hb).1)
    fun hhead => (h.plain bang (List.mem_of_head? hhead)).2 rfl

theorem rtakeWhile_space (r : List UInt8) :
    (space :: r).rtakeWhile (· = slash) = r.rtakeWhile (· = slash) := by
  induction r using List.reverseRecOn with
  | nil => rfl
  | append_singleton r b ih =>
    rw [← List.cons_append]
    by_cases hb : b = slash
    · rw [List.rtakeWhile_concat_pos _ _ _ (by simpa using hb), List.rtakeWhile_concat_pos _ _ _ (by simpa using hb), ih]
    · rw [List.rtakeWhile_concat_neg _ _ _ (by simpa using hb), List.rtakeWhile_concat_neg _ _ _ (by simpa using hb)]

/-- A tag closes itself just when a slash is left in front of its `>`. -/
theorem foldl_selfClosed (h : IsSkipTag name) (ha : a = [] ∨ a.head? = some space) (hgt : gt ∉ a) :
    (selfClosed name a).foldl readTag ⟨.text, n, e⟩ =
      if SlashLeft a then ⟨.text, [], []⟩ else ⟨.inside, name, []⟩ := by
  have hsplit : selfClosed name a = (lt :: name) ++ (a ++ [slash, gt]) := by simp [selfClosed]
  have hblank : ∀ b ∈ [space, slash], readTag ⟨.name, name, []⟩ b = ⟨.attrs, name, []⟩ := by
    intro b hb
    rcases List.mem_pair.mp hb with rfl | rfl <;> simp [readTag, readName, h]
  rw [hsplit, List.foldl_append, h.foldl_opened]
  rcases a with _ | ⟨b, r⟩
  · have hnot : ¬ SlashLeft [] := fun hleft => hleft.1 rfl
    rw [if_neg hnot, List.nil_append, List.foldl_cons, hblank slash (by decide)]
    simp [readTag, h.ne_nil]
  · obtain rfl : b = space := by simpa using ha
    have hr : gt ∉ r := fun hmem => hgt (List.mem_cons_of_mem _ hmem)
    have hopen : gt ∉ r ++ [slash] := by simp [hr]
    have hleft : SlashLeft (space :: r) ↔ Odd ((r ++ [slash]).rtakeWhile (· = slash)).length := by
      rw [SlashLeft, rtakeWhile_space, List.rtakeWhile_concat_pos _ _ _ (by simp), List.length_append,
        List.length_singleton, Nat.odd_add_one, Nat.not_odd_iff_even]
      exact and_iff_right (List.cons_ne_nil _ _)
    have hrest : r ++ [slash, gt] = (r ++ [slash]) ++ [gt] := by simp
    rw [List.cons_append, List.foldl_cons, hblank space (by decide), hrest, List.foldl_append, foldl_attrs hopen]
    by_cases hodd : Odd ((r ++ [slash]).rtakeWhile (· = slash)).length
    · rw [if_pos hodd, if_pos (hleft.mpr hodd)]
      simp [readTag]
    · rw [if_neg hodd, if_neg (mt hleft.mp hodd)]
      simp [readTag, h.ne_nil]

end Scans

/-- A self-closed tag that the text state comes upon is left for the text just when a slash is left in
front of its `>`. -/
theorem self_closed_iff {cap : Option ℕ} {bufs : List (List UInt8)} {s : Session}
    (h : feedAll Flat cap .html .start bufs = .ok s) {newer older : List Item} {r : Routine} {x : Ctx}
    {u name a q : List UInt8} {d : ℕ} (htr : s.trace = newer ++ .turn r x u d :: older) (hs : x.state.top = .text)
    (hpage : (consumed newer).reverse ++ s.ctx.cache = selfClosed name a ++ q) (hname : IsSkipTag name)
    (ha : a = [] ∨ a.head? = some space) (hgt : gt ∉ a) :
    LeftFor (selfClosed name a) s (newer ++ [.turn r x u d]) ↔ SlashLeft a := by
  have hpassage : Passage (machine .html) _ _ := tagPassage
  have hstate : TagState ⟨.text, x.tagcache.name, x.tagendcache.name⟩ s.ctx s.ctx.cache (newer ++ [.turn r x u d]) :=
    hpassage.session h htr hpage ⟨named_of_turn h htr, hs⟩
  have hread : (consumed (newer ++ [.turn r x u d])).reverse ++ s.ctx.cache = selfClosed name a ++ q := by
    rw [← hpage, consumed_append]
    simp
  have hscan := foldl_selfClosed (n := x.tagcache.name) (e := x.tagendcache.name) hname ha hgt
  by_cases hleft : SlashLeft a
  · rw [if_pos hleft] at hscan
    have hsettles : ((selfClosed name a).foldl readTag _).mode.settles = some .text := congrArg (·.mode.settles) hscan
    have hbehind := hstate.behind_eq hread hsettles
    rw [hscan] at hbehind
    exact iff_of_true ⟨hbehind.1, hbehind.2.1⟩ hleft
  · rw [if_neg hleft] at hscan
    have hsettles : ((selfClosed name a).foldl readTag _).mode.settles = some .htmlSkip :=
      congrArg (·.mode.settles) hscan
    have hbehind := hstate.behind_eq hread hsettles
    refine iff_of_false (fun hfor => ?_) hleft
    rw [hfor.1] at hbehind
    exact absurd hbehind.1 (by decide)

/-- The page `<pre />`, cut behind the slash. -/
theorem self_closed_cut : ∃ s newer, feedAll Flat none .html .start [lit "<pre /", lit ">"] = .ok s ∧
    LeftFor (selfClosed (lit "pre") [space]) s newer := by
  obtain ⟨s, newer, older, hs, htr, hpage⟩ : ∃ s newer older,
      feedAll Flat none .html .start [lit "<pre /", lit ">"] = .ok s ∧
        s.trace = newer ++ .turn .htmlStripBuffer Ctx.zero (lit "<pre /") 0 :: older ∧
        (consumed newer).reverse ++ s.ctx.cache = selfClosed (lit "pre") [space] ++ [] :=
    exists_turn (n := 30) (f := fun s newer => (consumed newer).reverse ++ s.ctx.cache) (by decide +kernel)
  have hgt : gt ∉ [space] := by decide
  have hleft : SlashLeft [space] := ⟨List.cons_ne_nil _ _, by decide⟩
  exact ⟨s, _, hs, (self_closed_iff hs htr rfl hpage (by decide) (.inr rfl) hgt).mpr hleft⟩

/-- In the page `<pre/>` the slash ends the name. -/
theorem slash_not_left : ¬ ∀ (bufs : List (List UInt8)) (s : Session) (newer older : List Item)
    (r : Routine) (x : Ctx) (u name a q : List UInt8) (d : ℕ), feedAll Flat none .html .start bufs = .ok s →
      s.trace = newer ++ .turn r x u d :: older → x.state.top = .text →
        (consumed newer).reverse ++ s.ctx.cache = selfClosed name a ++ q → IsSkipTag name →
          (a = [] ∨ a.head? = some space) → gt ∉ a →
            LeftFor (selfClosed name a) s (newer ++ [.turn r x u d]) := by
  intro h
  obtain ⟨s, newer, older, hs, htr, hf⟩ : ∃ s newer older,
      feedAll Flat none .html .start [lit "<pre/>"] = .ok s ∧
        s.trace = newer ++ .turn .htmlStripBuffer Ctx.zero (lit "<pre/>") 0 :: older ∧
        ((consumed newer).reverse ++ s.ctx.cache,
          (ctxBehind 6 s.ctx (newer ++ [.turn .htmlStripBuffer Ctx.zero (lit "<pre/>") 0])).state.top) =
            (selfClosed (lit "pre") [] ++ [], .htmlSkip) :=
    exists_turn (n := 23) (f := fun s newer => ((consumed newer).reverse ++ s.ctx.cache,
      (ctxBehind 6 s.ctx (newer ++ [.turn .htmlStripBuffer Ctx.zero (lit "<pre/>") 0])).state.top)) (by decide +kernel)
  obtain ⟨hpage, hskip⟩ := Prod.mk.inj hf
  have hleft := h _ s newer older _ _ _ _ _ _ _ hs htr rfl hpage (by decide) (.inl rfl) List.not_mem_nil
  have htext : (ctxBehind 6 s.ctx _).state.top = MinifyState.text := hleft.1
  rw [hskip] at htext
  cases htext

end NginB.Minify
