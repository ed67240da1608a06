import NginB.Minify.Passage
import NginB.Program.Occurrence

/-! # Block comments

The CSS and the JavaScript minifier take a block comment off the page up to the first `*/`,
wherever the buffers end, and go on in the state in which they came upon it.
-/
namespace NginB.Minify
open NginB.Program Relation Ascii

def blockPlain : FileType → List MinifyState
  | .html => []
  | .css => [.text, .cssBrace]
  | .js => [.text]

def blockState : FileType → MinifyState
  | .html => .htmlCommentSkip
  | .css => .cssComment
  | .js => .jsComment

/-- A block comment with the body `w`, and the page after it. -/
def blockThen (w q : List UInt8) : List UInt8 := lit "/*" ++ (w ++ (lit "*/" ++ q))

inductive PlainTurn (type : FileType) (x y : Ctx) : List UInt8 → List Ev → Prop
  | none {u} (hy : y.state = x.state) : PlainTurn type x y u []
  | opens {t} (hy : y.state = x.state.push (blockState type)) :
      PlainTurn type x y (lit "/*" ++ t) [.skip, .skip, .stack (x.state.push (blockState type))]
  | holds (hy : x.Held [slash] y) : PlainTurn type x y [slash] (Ev.holds (lit "/") [slash])
  | other {b t es} (hb : b ≠ slash) : PlainTurn type x y (b :: t) es
  | pair {b t es} (hb : b ≠ star) : PlainTurn type x y (slash :: b :: t) es

inductive BlockTurn (s : StateStack) (x y : Ctx) : List UInt8 → List Ev → Prop
  | none {u} (hy : y.state = x.state) : BlockTurn s x y u []
  | closes {t} (hy : y.state = s) : BlockTurn s x y (lit "*/" ++ t) [.skip, .skip, .stack s]
  | star {b t} (hb : b ≠ slash) (hy : y.state = x.state) : BlockTurn s x y (star :: b :: t) [.skip]
  | byte {b t} (hb : b ≠ star) (hy : y.state = x.state) : BlockTurn s x y (b :: t) [.skip]
  | holds (hy : x.Held [star] y) : BlockTurn s x y [star] (Ev.holds (lit "*") [star])

section Rules
variable {x y : Ctx} {r : Routine} {u : List UInt8} {es : List Ev} {nxt : Next} {d : ℕ} {type : FileType}
  {s : StateStack}

theorem CssRule.plainTurn (h : CssRule x r u es y nxt) (hs : x.state.top ∈ blockPlain .css) :
    PlainTurn .css x y u es := by
  have hs' : x.state.top = .text ∨ x.state.top = .cssBrace := List.mem_pair.mp hs
  cases h
  case braceComment | textComment => exact .opens rfl
  case braceHold => exact .holds .plain
  case textHold hs => exact .holds (.text hs)
  case commentLeave | quoteLeave | braceLeave | callBrace => exact .none rfl
  case braceSlash hb | textSlash hb => exact .pair hb
  case braceClose | textOpen => exact .other (by decide)
  case braceByte hb _ _ => exact .other hb.2
  case textByte hb _ _ => exact .other hb.2.2
  case braceBlank hb => exact .other (by rcases hb with ⟨rfl, -⟩ | rfl | rfl | rfl <;> decide)
  case braceQuote hb | textQuote hb | textBlankDrop hb _ | textBlank hb _ | textBreak hb =>
    exact .other (by rcases hb with rfl | rfl <;> decide)
  all_goals simp_all

theorem JsRule.plainTurn (h : JsRule d x r u es y nxt) (hs : x.state.top ∈ blockPlain .js) :
    PlainTurn .js x y u es := by
  have hs' : x.state.top = .text := List.mem_singleton.mp hs
  cases h
  case textComment hs =>
    have hpush : (⟨.jsComment, [.text]⟩ : StateStack) = x.state.push .jsComment := by rw [hs]; rfl
    rw [hpush]
    exact .opens rfl
  case textHold => exact .holds (.text hs')
  case commentLeave | quoteLeave => exact .none rfl
  case textSlash hb => exact .pair hb.1
  case textLine => exact .pair (by decide)
  case textBreak | textBreakDrop | textReturn => exact .other (by decide)
  case textByte hb _ _ => exact .other hb.1
  case textBlank hb _ => exact .other (by rcases hb with rfl | rfl <;> decide)
  case textQuote hb => exact .other (by rcases hb with rfl | rfl | rfl <;> decide)
  case callComment hs => rcases List.mem_pair.mp hs with hs | hs <;> simp_all
  all_goals simp_all

theorem rule_plainTurn (h : (machine type).rule d x r u es y nxt) (hs : x.state.top ∈ blockPlain type) :
    PlainTurn type x y u es := by
  cases type with
  | html => exact absurd hs List.not_mem_nil
  | css => exact CssRule.plainTurn h hs
  | js => exact JsRule.plainTurn h hs

theorem CssRule.blockTurn (h : CssRule x r u es y nxt) (hs : x.state = s.push .cssComment) :
    BlockTurn s x y u es := by
  have htop : x.state.top = .cssComment := by rw [hs]; rfl
  cases h
  case commentClose =>
    have hpop : x.state.pop = s := by rw [hs]; rfl
    rw [hpop]
    exact .closes hpop
  case commentStar hb => exact .star hb rfl
  case commentHold => exact .holds .plain
  case commentByte hb => exact .byte hb rfl
  case braceCallComment | callComment => exact .none rfl
  all_goals simp_all

theorem JsRule.blockTurn (h : JsRule d x r u es y nxt) (hs : x.state = s.push .jsComment)
    (hplain : s.top = .text) : BlockTurn s x y u es := by
  have htop : x.state.top = .jsComment := by rw [hs]; rfl
  cases h
  case commentClose hs' =>
    have hpop : (⟨.text, []⟩ : StateStack) = s := congrArg StateStack.pop (hs'.symm.trans hs)
    rw [hpop]
    exact .closes rfl
  case commentStar hb => exact .star hb rfl
  case commentHold => exact .holds .plain
  case commentByte hb => exact .byte hb rfl
  case callComment => exact .none rfl
  all_goals simp_all

theorem rule_blockTurn (h : (machine type).rule d x r u es y nxt) (hplain : s.top ∈ blockPlain type)
    (hs : x.state = s.push (blockState type)) : BlockTurn s x y u es := by
  cases type with
  | html => exact absurd hplain List.not_mem_nil
  | css => exact CssRule.blockTurn h hs
  | js => exact JsRule.blockTurn h hs (List.mem_singleton.mp hplain)

end Rules

def readings (l : List Item) : List Item := l.filter fun i => i.consumed ≠ []

@[simp] theorem readings_nil : readings [] = [] := rfl

@[simp] theorem readings_cons (i : Item) (l : List Item) :
    readings (i :: l) = if i.consumed ≠ [] then i :: readings l else readings l := by
  cases i <;> rfl

@[simp] theorem readings_append (l l' : List Item) : readings (l ++ l') = readings l ++ readings l' :=
  List.filter_append ..

theorem emitted_readings (l : List Item) : emitted (readings l) = emitted l := by
  induction l with
  | nil => rfl
  | cons i l ih => cases i <;> simp [ih]

/-- A block comment with the body `w` is passed over, from the state `st` and back to it: its bytes
are the only ones that the items `l` read, and they write none. -/
structure Gone (type : FileType) (st : MinifyState) (w : List UInt8) (l : List Item) : Prop where
  silent : emitted l = []
  read : (readings l).reverse = (lit "/*").map (.skip st) ++ (w ++ lit "*/").map (.skip (blockState type))

theorem Gone.of_read {type : FileType} {st : MinifyState} {w : List UInt8} {l : List Item}
    (h : (readings l).reverse = (lit "/*").map (.skip st) ++ (w ++ lit "*/").map (.skip (blockState type))) :
    Gone type st w l := by
  refine ⟨?_, h⟩
  have hskip := emitted_skips (blockState type) (w ++ lit "*/")
  rw [← emitted_readings, ← List.reverse_reverse (readings l), h, List.reverse_append, emitted_append,
    hskip, emitted_skips]
  rfl

/-- The minifier is back on the stack of `x` behind a block comment with the body `w`. -/
def BehindBlock (type : FileType) (x : Ctx) (w : List UInt8) (l : List Item) : Prop :=
  ∃ after r y u d mid, l = after ++ .turn r y u d :: mid ∧ y.state = x.state ∧
    Gone type x.state.top w mid

inductive BlockPhase (type : FileType) (w q : List UInt8) (x c : Ctx) (u fut : List UInt8)
    (l : List Item) : Prop
  | opening (hs : c.state = x.state) (hc : c.cache = [] ∨ c.cache = [slash])
      (hp : u ++ fut = blockThen w q) (hl : readings l = [])
  | inside (w₁ w₂ : List UInt8) (hw : w = w₁ ++ w₂) (hw₂ : EndsFirst (lit "*/") w₂)
      (hs : c.state = x.state.push (blockState type)) (hc : c.cache = [] ∨ c.cache = [star])
      (hp : u ++ fut = w₂ ++ (lit "*/" ++ q))
      (hl : (readings l).reverse = (lit "/*").map (.skip x.state.top) ++ w₁.map (.skip (blockState type)))
  | closed (hs : c.state = x.state) (hc : c.cache = []) (hp : u ++ fut = q)
      (hg : Gone type x.state.top w l)
  | passed (hq : q ≠ []) (h : BehindBlock type x w l)

section Phases
variable {type : FileType} {w q : List UInt8} {x c y : Ctx} {r : Routine} {u fut : List UInt8} {es : List Ev}
  {nxt : Next} {l : List Item} {d : ℕ}

theorem BehindBlock.append (h : BehindBlock type x w l) (l' : List Item) :
    BehindBlock type x w (l' ++ l) := by
  obtain ⟨after, r, y, u, d, mid, rfl, hy, hg⟩ := h
  exact ⟨l' ++ after, r, y, u, d, mid, by rw [List.append_assoc], hy, hg⟩

theorem BlockPhase.of_eq (h : BlockPhase type w q x c u fut l) (hs : y.state = c.state)
    (hc : y.cache = c.cache) : BlockPhase type w q x y u fut l := by
  cases h with
  | opening hs' hc' hp hl => exact .opening (hs.trans hs') (by rwa [hc]) hp hl
  | inside w₁ w₂ hw hw₂ hs' hc' hp hl =>
    exact .inside w₁ w₂ hw hw₂ (hs.trans hs') (by rwa [hc]) hp hl
  | closed hs' hc' hp hg => exact .closed (hs.trans hs') (hc.trans hc') hp hg
  | passed hq h => exact .passed hq h

theorem BlockPhase.turn (h : BlockPhase type w q x c u fut l) (hplain : x.state.top ∈ blockPlain type)
    (hw : EndsFirst (lit "*/") w) (hrule : (machine type).rule d c r u es y nxt) (hy : y.cache = []) :
    BlockPhase type w q x y (u.drop (Ev.takes es)) fut
      ((Ev.items c es u).reverse ++ .turn r c u d :: l) := by
  cases h with
  | opening hs hc hp hl =>
    have hturn := rule_plainTurn hrule (by rwa [hs])
    cases hturn with
    | none hs' => exact .opening (hs'.trans hs) (.inl hy) hp (by simpa using hl)
    | @opens t hs' =>
      have ht : t ++ fut = w ++ (lit "*/" ++ q) := by simpa [blockThen] using hp
      refine .inside [] w rfl hw (by rw [hs', hs]) (.inl hy) (by simpa using ht) ?_
      simp [hl, hs]
    | holds hy' => exact absurd (hy.symm.trans hy'.cache) (by decide)
    | other hb => exact absurd (List.cons.inj hp).1 hb
    | pair hb => exact absurd (List.cons.inj (List.cons.inj hp).2).1 hb
  | inside w₁ w₂ hw' hw₂ hs hc hp hl =>
    have hturn := rule_blockTurn hrule hplain hs
    have htop : c.state.top = blockState type := by rw [hs]; rfl
    cases hturn with
    | none hs' => exact .inside w₁ w₂ hw' hw₂ (hs'.trans hs) (.inl hy) hp (by simpa using hl)
    | @closes t hs' =>
      have hnil : w₂ = [] := hw₂.eq_nil ⟨t ++ fut, by rw [← hp, List.append_assoc]⟩
      subst hnil
      refine .closed hs' hy (by simpa using hp) (Gone.of_read ?_)
      simp [hl, hw', htop]
    | @star b t hb hs' =>
      rcases w₂ with _ | ⟨a, w₂⟩
      · simp_all
      · obtain ⟨rfl, hp'⟩ := List.cons.inj hp
        refine .inside (w₁ ++ [42]) w₂ (by rw [hw', List.append_assoc]; rfl) hw₂.tail (hs'.trans hs)
          (.inl hy) hp' ?_
        simp [hl, htop]
    | @byte b t hb hs' =>
      rcases w₂ with _ | ⟨a, w₂⟩
      · simp_all
      · obtain ⟨rfl, hp'⟩ := List.cons.inj hp
        refine .inside (w₁ ++ [b]) w₂ (by rw [hw', List.append_assoc]; rfl) hw₂.tail (hs'.trans hs)
          (.inl hy) hp' ?_
        simp [hl, htop]
    | holds hy' => exact absurd (hy.symm.trans hy'.cache) (by decide)
  | closed hs hc hp hg =>
    have hturn := rule_plainTurn hrule (by rwa [hs])
    have hpassed (hne : u ≠ []) : BlockPhase type w q x y (u.drop (Ev.takes es)) fut
        ((Ev.items c es u).reverse ++ .turn r c u d :: l) := by
      refine .passed ?_ ⟨_, r, c, u, d, l, rfl, hs, hg⟩
      rw [← hp]
      exact List.append_ne_nil_of_left_ne_nil hne fut
    cases hturn with
    | none hs' => exact .closed (hs'.trans hs) hy hp (Gone.of_read (by simpa using hg.read))
    | opens | holds | other | pair => exact hpassed (by simp)
  | passed hq hb =>
    have happ := hb.append ((Ev.items c es u).reverse ++ [.turn r c u d])
    rw [List.append_assoc] at happ
    exact .passed hq happ

/-- What holding back all unread bytes makes of the phase. -/
theorem BlockPhase.hold (h : BlockPhase type w q x c u fut l) (hplain : x.state.top ∈ blockPlain type)
    {a : List UInt8} (hrule : (machine type).rule d c r u (Ev.holds a u) y nxt) :
    BlockPhase type w q x y u fut (.cacheCall a 0 u :: .turn r c u d :: l) := by
  generalize hes : Ev.holds a u = es at hrule
  cases h with
  | opening hs hc hp hl =>
    have hturn := rule_plainTurn hrule (by rwa [hs])
    cases hturn with
    | holds hy' => exact .opening (hy'.state.trans hs) (.inr hy'.cache) hp (by simpa using hl)
    | other hb => exact absurd (List.cons.inj hp).1 hb
    | pair hb => exact absurd (List.cons.inj (List.cons.inj hp).2).1 hb
    | none | opens => cases hes
  | inside w₁ w₂ hw' hw₂ hs hc hp hl =>
    have hturn := rule_blockTurn hrule hplain hs
    cases hturn with
    | holds hy' =>
      exact .inside w₁ w₂ hw' hw₂ (hy'.state.trans hs) (.inr hy'.cache) hp (by simpa using hl)
    | none | closes | star | byte => cases hes
  | closed hs hc hp hg =>
    have hturn := rule_plainTurn hrule (by rwa [hs])
    have hpassed (hne : u ≠ []) :
        BlockPhase type w q x y u fut (.cacheCall a 0 u :: .turn r c u d :: l) := by
      refine .passed ?_ ⟨[.cacheCall a 0 u], r, c, u, d, l, rfl, hs, hg⟩
      rw [← hp]
      exact List.append_ne_nil_of_left_ne_nil hne fut
    cases hturn with
    | none => cases hes
    | opens | holds | other | pair => exact hpassed (by simp)
  | passed hq hb => exact .passed hq (hb.append [.cacheCall a 0 u, .turn r c u d])

end Phases

theorem blockPassage (type : FileType) {w q : List UInt8} (hw : EndsFirst (lit "*/") w) :
    Passage (machine type) (fun x page => x.state.top ∈ blockPlain type ∧ page = blockThen w q)
      fun x _ c u fut l => x.state.top ∈ blockPlain type ∧ BlockPhase type w q x c u fut l where
  start h _ hc := ⟨h.1, .opening rfl (.inl hc) h.2 rfl⟩
  next {x c page u buf fut l} h := by
    obtain ⟨hplain, hphase⟩ := h
    refine ⟨hplain, ?_⟩
    cases hphase with
    | opening hs hc hp hl => exact .opening hs (.inl rfl) (by simpa using hp) (by simpa using hl)
    | inside w₁ w₂ hw hw₂ hs hc hp hl =>
      exact .inside w₁ w₂ hw hw₂ hs (.inl rfl) (by simpa using hp) (by simpa using hl)
    | closed hs hc hp hg =>
      exact .closed hs rfl (by simpa using hp) (Gone.of_read (by simpa using hg.read))
    | passed hq hb => exact .passed hq (hb.append [.buffer])
  turn {x c y page u fut l r r' d es nxt k k'} old h hc hy _ hrule _ := by
    obtain ⟨hplain, hphase⟩ := h
    obtain ⟨p₁, p₂, hend⟩ := nxt.ended_eq r' (d + (emitted (Ev.items c es u)).length)
      (emitted ((Ev.items c es u).reverse ++ .turn r c u d :: l) ++ old) y
    exact ⟨hplain, (hphase.turn hplain hw hrule hy).of_eq (by rw [hend]) (by rw [hend])⟩
  hold {x c y page u fut l r d} a old h hc _ hrule _ := by
    obtain ⟨hplain, hphase⟩ := h
    obtain ⟨p₁, p₂, hend⟩ := Next.again.ended_eq r d (emitted l ++ old) y
    exact ⟨hplain, (hphase.hold hplain hrule).of_eq (by rw [hend]) (by rw [hend])⟩
  done {x c page u fut l r d} old h := by
    obtain ⟨hplain, hphase⟩ := h
    obtain ⟨p₁, p₂, hend⟩ := Next.again.ended_eq r d (emitted l ++ old) c
    exact ⟨hplain, hphase.of_eq (by rw [hend]) (by rw [hend])⟩

/-- After a block comment the page `q` is read on the stack of `x`; at the end of the page, the
minifier is left on it. -/
def BehindComment (type : FileType) (x : Ctx) (w : List UInt8) (s : Session) (newer : List Item) :
    List UInt8 → Prop
  | [] => s.ctx.state = x.state ∧ s.ctx.cache = [] ∧ Gone type x.state.top w newer
  | _ => BehindBlock type x w newer

/-- A block comment of a CSS page outside strings, or of JavaScript text, is removed: no byte of it
is written, and right after its `*/` the state stack is the one before its `/*`. -/
theorem block_comment_removed {cap : Option ℕ} {type : FileType} {bufs : List (List UInt8)} {s : Session}
    (h : feedAll Flat cap type .start bufs = .ok s) {newer older : List Item} {r : Routine} {x : Ctx}
    {u w q : List UInt8} {d : ℕ} (htr : s.trace = newer ++ .turn r x u d :: older)
    (hs : x.state.top ∈ blockPlain type)
    (hpage : (consumed newer).reverse ++ s.ctx.cache = blockThen w q) (hw : EndsFirst (lit "*/") w) :
    BehindComment type x w s (newer ++ [.turn r x u d]) q := by
  obtain ⟨-, hphase⟩ := (blockPassage type hw).session h htr hpage ⟨hs, rfl⟩
  cases hphase with
  | opening _ hc hp =>
    rw [List.append_nil] at hp
    rcases hc with hc | hc <;> simp [hc, blockThen] at hp
  | inside w₁ w₂ _ _ _ hc hp =>
    rw [List.append_nil] at hp
    have hlen := congrArg List.length hp
    rcases hc with hc | hc <;> simp [hc] at hlen
    all_goals omega
  | closed hst hc hp hg =>
    rw [List.append_nil, hc] at hp
    rw [← hp]
    exact ⟨hst, hc, hg⟩
  | passed hq hb =>
    cases q with
    | nil => exact absurd rfl hq
    | cons b q => exact hb

/-- The style sheet `/*a*/b`, of which the first buffer has no more than the `/`. -/
theorem block_comment_removed_a : ∃ s newer,
    feedAll Flat none .css .start [lit "/", lit "*a*/b"] = .ok s ∧
      BehindComment .css Ctx.zero (lit "a") s (newer ++ [.turn .cssStripBuffer Ctx.zero (lit "/") 0])
        (lit "b") := by
  obtain ⟨s, newer, older, hs, htr, hpage⟩ : ∃ s newer older,
      feedAll Flat none .css .start [lit "/", lit "*a*/b"] = .ok s ∧
        s.trace = newer ++ .turn .cssStripBuffer Ctx.zero (lit "/") 0 :: older ∧
        (consumed newer).reverse ++ s.ctx.cache = blockThen (lit "a") (lit "b") :=
    exists_turn (n := 16) (by decide)
  have hw : EndsFirst ([star] ++ [slash]) (lit "a") := .of_notInfix (by decide)
  exact ⟨s, newer, hs, block_comment_removed hs htr (by decide) hpage hw⟩

end NginB.Minify
