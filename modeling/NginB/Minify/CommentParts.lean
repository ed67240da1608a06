import NginB.Minify.Acts
import NginB.Minify.Adjacency
import NginB.Minify.Blanks
import NginB.Minify.BlockComments
import NginB.Minify.Comments

/-! # The parts of a response

What a minifier has done to a response falls into three kinds of parts: comments that it has passed
over from their beginning to their end, blanks that it has passed over one by one, and bytes that it
has written.
-/
namespace NginB.Minify
open NginB.Program Relation Ascii

def insideStates : List MinifyState := [.htmlCommentSkip, .cssComment, .jsComment, .jsCommentLine]

/-- Outside comments no more than a blank is passed over, and a byte is copied or is a blank written for
a blank. -/
def Item.OutsideComment : Item → Prop
  | .skip st b => st ∉ insideStates ∧ isBlank b = true
  | .emit _ b c => c = b ∨ isBlank b = true ∧ isBlank c = true
  | _ => True

/-- The items pass over `opening` in state `st` and then over `body` in state `st'`, and do no more. -/
def Passes (st : MinifyState) (opening : List UInt8) (st' : MinifyState) (body : List UInt8)
    (m : List Item) : Prop :=
  (readings m).reverse = opening.map (.skip st) ++ body.map (.skip st')

theorem consumed_readings (l : List Item) : consumed (readings l) = consumed l := by
  induction l with
  | nil => rfl
  | cons i l ih => cases i <;> simp [ih]

section Passes
variable {st st' : MinifyState} {opening body l : List UInt8} {m n : List Item}

theorem Passes.eq_reverse (h : Passes st opening st' body m) :
    readings m = (body.map (.skip st')).reverse ++ (opening.map (.skip st)).reverse := by
  rw [← List.reverse_reverse (readings m), show (readings m).reverse = _ from h, List.reverse_append]

theorem Passes.silent (h : Passes st opening st' body m) : emitted m = [] := by
  rw [← emitted_readings, h.eq_reverse, emitted_append, emitted_skips, emitted_skips]
  rfl

theorem Passes.read (h : Passes st opening st' body m) : (consumed m).reverse = opening ++ body := by
  rw [← consumed_readings, h.eq_reverse, consumed_append, consumed_skips, consumed_skips,
    List.reverse_append, List.reverse_reverse, List.reverse_reverse]

theorem Passes.append (h : Passes st opening st' body m) (hn : readings n = (l.map (.skip st')).reverse) :
    Passes st opening st' (body ++ l) (n ++ m) := by
  have hm : (readings m).reverse = _ := h
  rw [Passes, readings_append, List.reverse_append, hm, hn, List.reverse_reverse, List.append_assoc,
    List.map_append]

theorem Passes.quiet (h : Passes st opening st' body m) (hn : readings n = []) :
    Passes st opening st' body (n ++ m) := by
  have happ := h.append (l := []) hn
  rwa [List.append_nil] at happ

end Passes

/-- A comment that is passed over as a whole and leaves nothing behind. -/
inductive Strips : FileType → List Item → Prop
  | page {w m} (hw : EndsFirst (lit "-->") w)
      (hm : Passes .htmlComment (lit "<!--") .htmlCommentSkip (w ++ lit "-->") m) : Strips .html m
  | block {type st w m} (hst : st ∈ blockPlain type) (hw : EndsFirst (lit "*/") w) (hm : Gone type st w m) :
      Strips type m

theorem Strips.silent {type : FileType} {m : List Item} (h : Strips type m) : emitted m = [] := by
  cases h with
  | page _ hm => exact hm.silent
  | block _ _ hm => exact hm.silent

/-- A trace that falls into such parts; for the LF that ends a line comment a space is written. -/
inductive Parts (type : FileType) : List Item → Prop
  | nil : Parts type []
  | item {i tr} (hi : i.OutsideComment) (h : Parts type tr) : Parts type (i :: tr)
  | comment {m tr} (hm : Strips type m) (h : Parts type tr) : Parts type (m ++ tr)
  | line {w m tr} (ht : type = .js) (hw : lf ∉ w) (hm : Passes .text (lit "//") .jsCommentLine w m)
      (h : Parts type tr) : Parts type (.emit .jsCommentLine lf space :: (m ++ tr))

/-- The minifier is inside a comment that began with the items `m`; the page goes on with `ahead`. -/
inductive Inside : FileType → Ctx → List UInt8 → List Item → Prop
  | page {x : Ctx} {ahead w m} (hs : x.state.top = .htmlCommentSkip) (hw : BeginsNowhere (lit "-->") w ahead)
      (hm : Passes .htmlComment (lit "<!--") .htmlCommentSkip w m) : Inside .html x ahead m
  | block {type} {x : Ctx} {ahead w m} {s : StateStack} (hplain : s.top ∈ blockPlain type)
      (hs : x.state = s.push (blockState type)) (hw : BeginsNowhere (lit "*/") w ahead) (hm : Passes s.top (lit "/*") (blockState type) w m) :
      Inside type x ahead m
  | line {x : Ctx} {ahead w m} (hs : x.state.top = .jsCommentLine) (hw : lf ∉ w)
      (hm : Passes .text (lit "//") .jsCommentLine w m) : Inside .js x ahead m

inductive PartsStage (type : FileType) (x : Ctx) (ahead : List UInt8) (tr : List Item) : Prop
  | outside (hs : x.state.top ∉ insideStates) (h : Parts type tr)
  | inside {m tr'} (htr : tr = m ++ tr') (hm : Inside type x ahead m) (h : Parts type tr')

def Item.KeepsBracket : Item → Prop
  | .turn r x u d => x.state.top = .htmlCommentIe → act r x u d ≠ .drops
  | _ => True

/-- In the page `text`, the iteration does not pass over a `-` together with one or two bytes behind it
at which a `-->` begins. -/
def EndSeen (text : List UInt8) (r : Routine) (x : Ctx) (u : List UInt8) (_ : ℕ) (older : List Item) : Prop :=
  r = .htmlStripComment → x.state.top = .htmlCommentSkip → u.head? = some dash → 3 ≤ u.length →
    ∀ k ∈ [1, 2], ¬ lit "-->" <+: text.drop ((consumed older).length + k)

section Parts
variable {type : FileType} {x y : Ctx} {u ahead : List UInt8} {l m tr : List Item}

theorem Parts.append (h : Parts type tr) (hl : ∀ i ∈ l, i.OutsideComment) : Parts type (l ++ tr) := by
  induction l with
  | nil => exact h
  | cons i l ih =>
    obtain ⟨hi, hl⟩ := List.forall_mem_cons.mp hl
    exact .item hi (ih hl)

theorem Inside.silent (h : Inside type x ahead m) : emitted m = [] := by
  cases h with
  | page _ _ hm => exact hm.silent
  | block _ _ _ hm => exact hm.silent
  | line _ _ hm => exact hm.silent

theorem Inside.of_eq (h : Inside type x ahead m) (hs : y.state = x.state) : Inside type y ahead m := by
  cases h with
  | page hs' hw hm => exact .page (by rwa [hs]) hw hm
  | block hplain hs' hw hm => exact .block hplain (hs.trans hs') hw hm
  | line hs' hw hm => exact .line (by rwa [hs]) hw hm

theorem PartsStage.of_eq (h : PartsStage type x ahead tr) (hs : y.state = x.state) :
    PartsStage type y ahead tr := by
  cases h with
  | outside hs' h => exact .outside (by rwa [hs]) h
  | inside htr hm h => exact .inside htr (hm.of_eq hs) h

theorem Inside.quiet {i : Item} (h : Inside type x ahead m) (hi : i.consumed = []) :
    Inside type x ahead (i :: m) := by
  have hread : readings [i] = [] := by cases i <;> simp_all
  cases h with
  | page hs hw hm => exact .page hs hw (hm.quiet hread)
  | block hplain hs hw hm => exact .block hplain hs hw (hm.quiet hread)
  | line hs hw hm => exact .line hs hw (hm.quiet hread)

theorem PartsStage.quiet {i : Item} (h : PartsStage type x ahead tr) (hi : i.consumed = []) :
    PartsStage type x ahead (i :: tr) := by
  cases h with
  | outside hs h =>
    refine .outside hs (.item ?_ h)
    cases i <;> trivial
  | inside htr hm h => exact .inside (by rw [htr]; rfl) (hm.quiet hi) h

/-- A byte is written before or after items that write nothing. -/
theorem silent_split {st : MinifyState} {b c : UInt8} {tr' : List Item} (hm : emitted m = [])
    (h : l ++ .emit st b c :: tr = m ++ tr') : ∃ l', l = m ++ l' ∧ tr' = l' ++ .emit st b c :: tr := by
  rcases List.append_eq_append_iff.mp h with ⟨n, hn, he⟩ | ⟨n, hn, he⟩
  · rcases n with _ | ⟨i, n⟩
    · refine ⟨[], ?_, he.symm⟩
      simpa using hn.symm
    · obtain ⟨rfl, -⟩ := List.cons.inj he
      rw [hn, emitted_append, emitted_cons] at hm
      simp at hm
  · exact ⟨n, hn, he⟩

/-- The parts of all that has been done when a byte has been written. -/
theorem Parts.of_emit {st : MinifyState} {b c : UInt8} (h : Parts type (l ++ .emit st b c :: tr)) :
    Parts type (.emit st b c :: tr) := by
  generalize hwhole : l ++ Item.emit st b c :: tr = whole at h
  induction h generalizing l with
  | nil => simp at hwhole
  | item hi h ih =>
    rcases l with _ | ⟨j, l⟩
    · rw [← List.nil_append (Item.emit st b c :: tr), hwhole]
      exact .item hi h
    · exact ih (List.cons.inj hwhole).2
  | comment hm h ih =>
    obtain ⟨l', -, hl'⟩ := silent_split hm.silent hwhole
    exact ih hl'.symm
  | line ht hw hm h ih =>
    rcases l with _ | ⟨j, l⟩
    · rw [← List.nil_append (Item.emit st b c :: tr), hwhole]
      exact .line ht hw hm h
    · obtain ⟨l', -, hl'⟩ := silent_split hm.silent (List.cons.inj hwhole).2
      exact ih hl'.symm

/-- The parts of all that has been done before a byte other than a space was written. -/
theorem Parts.before_emit {st : MinifyState} {b c : UInt8} (h : Parts type (.emit st b c :: tr)) (hc : c ≠ space) :
    Parts type tr := by
  generalize hwhole : Item.emit st b c :: tr = whole at h
  induction h with
  | nil => cases hwhole
  | item hi h ih =>
    obtain ⟨-, rfl⟩ := List.cons.inj hwhole
    exact h
  | comment hm h ih =>
    obtain ⟨l', hl, hl'⟩ := silent_split (l := []) hm.silent hwhole
    obtain ⟨-, rfl⟩ := List.append_eq_nil_iff.mp hl.symm
    exact ih hl'.symm
  | line => exact absurd (Item.emit.inj (List.cons.inj hwhole).1).2.2 hc

/-- The parts of all that has been done when a byte has been written, wherever the minifier is now. -/
theorem PartsStage.of_emit {st : MinifyState} {b c : UInt8}
    (h : PartsStage type x ahead (l ++ .emit st b c :: tr)) : Parts type (.emit st b c :: tr) := by
  cases h with
  | outside _ h => exact h.of_emit
  | inside htr hm h =>
    obtain ⟨l', -, rfl⟩ := silent_split hm.silent htr
    exact h.of_emit

end Parts

section Rules
variable {x y : Ctx} {r : Routine} {u : List UInt8} {es : List Ev} {nxt : Next} {d : ℕ}

inductive OutsideTurn (type : FileType) (x y : Ctx) : List UInt8 → List Ev → Prop
  | plain {v vs} (hi : ∀ i ∈ Ev.items x vs v, i.OutsideComment) (hy : y.state.top ∉ insideStates) :
      OutsideTurn type x y v vs
  | page {t vs} (ht : type = .html) (hy : y.state.top = .htmlCommentSkip)
      (hread : readings (Ev.items x vs (lit "<!--" ++ t)).reverse =
        ((lit "<!--").map (.skip .htmlComment)).reverse) : OutsideTurn type x y (lit "<!--" ++ t) vs
  | block {t} (hs : x.state.top ∈ blockPlain type) (hy : y.state = x.state.push (blockState type)) :
      OutsideTurn type x y (lit "/*" ++ t) [.skip, .skip, .stack (x.state.push (blockState type))]
  | line {t} (ht : type = .js) (hs : x.state.top = .text) (hy : y.state.top = .jsCommentLine) :
      OutsideTurn type x y (lit "//" ++ t) [.skip, .skip, .stack y.state]

theorem HtmlRule.outsideTurn (h : HtmlRule x r u es y nxt) (hy : y.cache = [])
    (hs : x.state.top ∉ insideStates) (hact : x.state.top = .htmlCommentIe → NginB.Minify.act r x u d ≠ .drops) :
    OutsideTurn .html x y u es := by
  cases h
  case nameGt =>
    obtain ⟨st, t, hst, he⟩ := x.nameGt_eq
    rcases List.mem_pair.mp hst with rfl | rfl <;>
      exact .plain (by simp [Item.OutsideComment]) (by simp [he, insideStates])
  case nameBlank =>
    obtain ⟨t, he⟩ := x.nameBlank_eq
    exact .plain (by simp [Item.OutsideComment]) (by simp [he, insideStates])
  case attGt =>
    obtain ⟨st, hst, he⟩ := x.attGt_eq
    rcases List.mem_pair.mp hst with rfl | rfl <;>
      exact .plain (by simp [Item.OutsideComment]) (by simp [he, insideStates])
  case endGt =>
    obtain ⟨st, t, u, hst, he⟩ := x.endGt_eq
    rcases List.mem_pair.mp hst with rfl | rfl <;>
      exact .plain (by split <;> simp [Item.OutsideComment]) (by simp [he, insideStates])
  case textBreak hs' hb =>
    exact .plain (by rcases hb with rfl | rfl | rfl <;> simp [Item.OutsideComment, hs', insideStates, isBlank]) hs
  case ieMiss t hs' ht hc =>
    have hdrops : NginB.Minify.act .htmlStripComment x (rbracket :: t) d = .drops := by
      simp only [NginB.Minify.act, htmlCommentAct, hs', waits_of_miss hc]
      simp
      omega
    exact absurd hdrops (hact hs')
  case commentPlain b t hs' _ =>
    exact .page (t := b :: t) rfl rfl (by simp [hs'])
  case commentOther a b t hs' _ =>
    exact .page (t := lbracket :: a :: b :: t) rfl rfl (by simp [hs'])
  case commentMiss t hs' _ _ =>
    exact .page (t := lbracket :: t) rfl rfl (by simp [hs'])
  all_goals first
    | exact absurd hy (List.cons_ne_nil _ _)
    | exact .plain (by simp_all [Item.OutsideComment, isBlank, insideStates]) (by simp_all [insideStates])

theorem CssRule.outsideTurn (h : CssRule x r u es y nxt) (hy : y.cache = []) (hx : x.state ∈ cssStacks)
    (hs : x.state.top ∉ insideStates) : OutsideTurn .css x y u es := by
  have hpop : x.state.top = .cssQuote → x.state.pop.top ∉ insideStates := by
    generalize x.state = s at hx
    revert hx
    revert s
    decide
  cases h
  case textComment hs' | braceComment hs' => exact .block (by simp [hs', blockPlain]) rfl
  case quoteClose hs' _ => exact .plain (by simp [Item.OutsideComment]) (hpop hs')
  case braceBlank hs' hb =>
    exact .plain (by rcases hb with ⟨rfl, -⟩ | rfl | rfl | rfl <;> simp [Item.OutsideComment, hs', insideStates, isBlank]) hs
  case textBlankDrop hs' hb _ | textBreak hs' hb =>
    exact .plain (by rcases hb with rfl | rfl <;> simp [Item.OutsideComment, hs', insideStates, isBlank]) hs
  all_goals first
    | exact absurd hy (List.cons_ne_nil _ _)
    | exact .plain (by simp_all [Item.OutsideComment, insideStates]) (by simp_all [insideStates])

theorem JsRule.outsideTurn (h : JsRule d x r u es y nxt) (hy : y.cache = [])
    (hs : x.state.top ∉ insideStates) : OutsideTurn .js x y u es := by
  cases h
  case textComment hs' =>
    have hpush : (⟨.jsComment, [.text]⟩ : StateStack) = x.state.push .jsComment := by rw [hs']; rfl
    rw [hpush]
    exact .block (by simp [hs', blockPlain]) rfl
  case textLine hs' => exact .line rfl (by rw [hs']) rfl
  case textBlank hs' hb _ =>
    exact .plain (by rcases hb with rfl | rfl <;> simp [Item.OutsideComment, hs', insideStates, isBlank]) hs
  all_goals first
    | exact absurd hy (List.cons_ne_nil _ _)
    | exact .plain (by simp_all [Item.OutsideComment, isBlank, insideStates]) (by simp_all [insideStates])

theorem JsRule.lineTurn (h : JsRule d x r u es y nxt) (hy : y.cache = []) (hs : x.state.top = .jsCommentLine) :
    es = [] ∧ y.state = x.state ∨
    (∃ b t, u = b :: t ∧ b ≠ lf ∧ es = [.skip] ∧ y.state = x.state) ∨
    ∃ t, u = lf :: t ∧ es = [.put space, .stack y.state] ∧ y.state.top = .text := by
  cases h
  case lineByte b t _ hb => exact .inr (.inl ⟨b, t, rfl, hb, rfl, rfl⟩)
  case lineEnd t _ => exact .inr (.inr ⟨t, rfl, rfl, rfl⟩)
  case callComment => exact .inl ⟨rfl, rfl⟩
  all_goals simp_all

end Rules

section Stages
variable {type : FileType} {x y : Ctx} {r : Routine} {u fut text : List UInt8} {es : List Ev} {nxt : Next}
  {m tr : List Item} {d : ℕ}

theorem readings_turn (l : List Item) : readings (l ++ [.turn r x u d]) = readings l := by
  rw [readings_append]
  exact List.append_nil _

theorem Parts.turn (h : Parts type tr) (hturn : OutsideTurn type x y u es) :
    PartsStage type y (u.drop (Ev.takes es) ++ fut) ((Ev.items x es u).reverse ++ .turn r x u d :: tr) := by
  have hold : Parts type (.turn r x u d :: tr) := .item trivial h
  cases hturn with
  | plain hi hy => exact .outside hy (hold.append fun i hmem => hi i (List.mem_reverse.mp hmem))
  | @page t vs ht hy hread =>
    subst ht
    refine .inside rfl (.page (w := []) hy (.nil _ _) ?_) hold
    rw [Passes, hread]
    simp
  | @block t hs hy =>
    refine .inside (m := [_, _, _]) rfl (.block (w := []) hs hy (.nil _ _) ?_) hold
    simp [Passes]
  | @line t ht hs hy =>
    subst ht
    refine .inside (m := [_, _, _]) rfl (.line (w := []) hy List.not_mem_nil ?_) hold
    simp [Passes, hs]

/-- An iteration inside a comment that passes over the bytes `l` and stays inside. -/
theorem Passes.turn {st st' : MinifyState} {opening body l : List UInt8} (h : Passes st opening st' body m)
    (hn : readings (Ev.items x es u).reverse = (l.map (.skip st')).reverse) :
    Passes st opening st' (body ++ l) ((Ev.items x es u).reverse ++ .turn r x u d :: m) := by
  have happ := h.append (n := (Ev.items x es u).reverse ++ [.turn r x u d]) ((readings_turn _).trans hn)
  rwa [List.append_assoc] at happ

theorem Inside.page_turn {w : List UInt8} (htr : Parts .html tr) (hs : x.state.top = .htmlCommentSkip)
    (hw : BeginsNowhere (lit "-->") w (u ++ fut)) (hm : Passes .htmlComment (lit "<!--") .htmlCommentSkip w m)
    (hturn : SkipTurn x y r u es) (hy : y.cache = [])
    (hend : EndSeen ((consumed (m ++ tr)).reverse ++ (u ++ fut)) r x u d (m ++ tr)) :
    PartsStage .html y (u.drop (Ev.takes es) ++ fut)
      ((Ev.items x es u).reverse ++ .turn r x u d :: (m ++ tr)) := by
  rw [← List.cons_append, ← List.append_assoc]
  -- the bytes `l` of the body are read, and `-->` does not begin at one of them
  have hstay (l t : List UInt8) (hu : u = l ++ t) (htakes : Ev.takes es = l.length) (hst : y.state = x.state)
      (hread : readings (Ev.items x es u).reverse = (l.map (.skip .htmlCommentSkip)).reverse)
      (hl : BeginsNowhere (lit "-->") l (t ++ fut)) : PartsStage .html y (u.drop (Ev.takes es) ++ fut)
        (((Ev.items x es u).reverse ++ .turn r x u d :: m) ++ tr) := by
    refine .inside rfl (.page (by rw [hst, hs]) ?_ (hm.turn hread)) htr
    rw [htakes, hu, List.drop_left]
    rw [hu, List.append_assoc] at hw
    exact hw.append hl
  cases hturn with
  | call hr hy' => exact hstay [] u rfl rfl hy' rfl (.nil _ _)
  | @close t hy' =>
    have hfirst : EndsFirst (lit "-->") w := BeginsNowhere.endsFirst (q := t ++ fut) (by simpa using hw)
    refine .outside (by simp [hy', insideStates]) (.comment (.page hfirst (hm.turn (l := lit "-->") ?_)) htr)
    simp [hs]
  | @three a b t hn hy' =>
    refine hstay [dash, a, b] t rfl rfl hy' (by simp [hs]) fun k hk => ?_
    have hseen := hend rfl hs rfl (by simp)
    rcases k with _ | k
    · intro hp
      have hclose : [dash, dash, gt] <+: dash :: a :: b :: (t ++ fut) := hp
      simp only [List.cons_prefix_cons] at hclose
      exact hn (by rw [← hclose.2.1, ← hclose.2.2.1])
    · have hmem : k + 1 ∈ [1, 2] := by
        simp only [List.length_cons, List.length_nil] at hk
        simp
        omega
      have hat := hseen (k + 1) hmem
      rw [← List.length_reverse, List.drop_length_add_append] at hat
      exact hat
  | @miss t ht hn hy' =>
    refine hstay [dash] t rfl rfl hy' (by simp [hs]) (.singleton fun hp => hn ?_)
    exact List.prefix_of_prefix_length_le (List.prefix_append (dash :: t) fut) hp (by simp; omega)
  | @byte b t hb hy' =>
    refine hstay [b] t rfl rfl hy' (by simp [hs]) (.singleton fun hp => hb ?_)
    exact (List.cons_prefix_cons.mp hp).1.symm
  | holds _ hy' => exact absurd (hy.symm.trans hy'.cache) (by simp)

theorem Inside.block_turn {w : List UInt8} {s : StateStack} (htr : Parts type tr)
    (hplain : s.top ∈ blockPlain type) (hs : x.state = s.push (blockState type))
    (hw : BeginsNowhere (lit "*/") w (u ++ fut)) (hm : Passes s.top (lit "/*") (blockState type) w m)
    (hturn : BlockTurn s x y u es) (hy : y.cache = []) :
    PartsStage type y (u.drop (Ev.takes es) ++ fut)
      ((Ev.items x es u).reverse ++ .turn r x u d :: (m ++ tr)) := by
  have htop : x.state.top = blockState type := by rw [hs]; rfl
  rw [← List.cons_append, ← List.append_assoc]
  have hstay (l t : List UInt8) (hu : u = l ++ t) (htakes : Ev.takes es = l.length) (hst : y.state = x.state)
      (hread : readings (Ev.items x es u).reverse = (l.map (.skip (blockState type))).reverse)
      (hl : BeginsNowhere (lit "*/") l (t ++ fut)) : PartsStage type y (u.drop (Ev.takes es) ++ fut)
        (((Ev.items x es u).reverse ++ .turn r x u d :: m) ++ tr) := by
    refine .inside rfl (.block hplain (hst.trans hs) ?_ (hm.turn hread)) htr
    rw [htakes, hu, List.drop_left]
    rw [hu, List.append_assoc] at hw
    exact hw.append hl
  cases hturn with
  | none hy' => exact hstay [] u rfl rfl hy' rfl (.nil _ _)
  | @closes t hy' =>
    have hfirst : EndsFirst (lit "*/") w := BeginsNowhere.endsFirst (q := t ++ fut) (by simpa using hw)
    have hgone : Gone type s.top w ((Ev.items x [.skip, .skip, .stack s] (lit "*/" ++ t)).reverse ++
        .turn r x (lit "*/" ++ t) d :: m) := Gone.of_read (hm.turn (l := lit "*/") (by simp [htop]))
    have hout : s.top ∉ insideStates := by
      revert hplain
      generalize s.top = st
      revert st
      cases type <;> decide
    exact .outside (by rwa [hy']) (.comment (.block hplain hfirst hgone) htr)
  | @star b t hb hy' =>
    refine hstay [star] (b :: t) rfl rfl hy' (by simp [htop]) (.singleton fun hp => hb ?_)
    exact (List.cons_prefix_cons.mp (List.cons_prefix_cons.mp hp).2).1.symm
  | @byte b t hb hy' =>
    refine hstay [b] t rfl rfl hy' (by simp [htop]) (.singleton fun hp => hb ?_)
    exact (List.cons_prefix_cons.mp hp).1.symm
  | holds hy' => exact absurd (hy.symm.trans hy'.cache) (by simp)

theorem Inside.line_turn {w : List UInt8} (htr : Parts .js tr) (hs : x.state.top = .jsCommentLine)
    (hw : lf ∉ w) (hm : Passes .text (lit "//") .jsCommentLine w m) (hrule : JsRule d x r u es y nxt)
    (hy : y.cache = []) : PartsStage .js y (u.drop (Ev.takes es) ++ fut)
      ((Ev.items x es u).reverse ++ .turn r x u d :: (m ++ tr)) := by
  rcases hrule.lineTurn hy hs with ⟨rfl, hst⟩ | ⟨b, t, rfl, hb, rfl, hst⟩ | ⟨t, rfl, rfl, hst⟩
  · exact .inside (m := .turn r x u d :: m) rfl (.line (by rw [hst, hs]) hw (hm.quiet (n := [_]) rfl)) htr
  · refine .inside (m := .skip _ b :: .turn r x (b :: t) d :: m) rfl (.line (w := w ++ [b]) (by rw [hst, hs]) ?_ ?_) htr
    · simp [hw, Ne.symm hb]
    · exact hm.append (n := [_, _]) (by simp [hs])
  · have hpassed : Passes .text (lit "//") .jsCommentLine w (.turn r x (lf :: t) d :: m) := hm.quiet (n := [_]) rfl
    have hline : Parts .js (.emit .jsCommentLine lf space :: (.turn r x (lf :: t) d :: m ++ tr)) :=
      .line rfl hw hpassed htr
    refine .outside (by simp [hst, insideStates]) (.item (i := .stack y.state) trivial ?_)
    rw [← hs] at hline
    exact hline

/-- No iteration on the page `text` drops a bracket of a conditional comment or passes over the beginning of
the `-->` of an ordinary one. -/
def SeesEnds (type : FileType) (text : List UInt8) (tr : List Item) : Prop :=
  type = .html → (∀ i ∈ tr, i.KeepsBracket) ∧ EachTurn (EndSeen text) tr

theorem SeesEnds.of_cons {i : Item} (h : SeesEnds type text (i :: tr)) (hi : ∀ r x u d, i ≠ .turn r x u d) :
    SeesEnds type text tr := by
  intro ht
  obtain ⟨hk, hs⟩ := h ht
  exact ⟨(List.forall_mem_cons.mp hk).2, (eachTurn_cons hi).mp hs⟩

theorem SeesEnds.of_turn (h : SeesEnds type text ((Ev.items x es u).reverse ++ .turn r x u d :: tr)) :
    SeesEnds type text tr ∧ (type = .html → EndSeen text r x u d tr ∧
      (x.state.top = .htmlCommentIe → act r x u d ≠ .drops)) := by
  have hsplit (ht : type = .html) := h ht
  constructor
  · intro ht
    obtain ⟨hk, hs⟩ := hsplit ht
    obtain ⟨-, hk⟩ := List.forall_mem_append.mp hk
    exact ⟨(List.forall_mem_cons.mp hk).2, (eachTurn_items.mp hs).2⟩
  · intro ht
    obtain ⟨hk, hs⟩ := hsplit ht
    obtain ⟨-, hk⟩ := List.forall_mem_append.mp hk
    exact ⟨(eachTurn_items.mp hs).1, (List.forall_mem_cons.mp hk).1⟩

theorem PartsStage.turn (h : PartsStage type x (u ++ fut) tr) (hrule : (machine type).rule d x r u es y nxt)
    (hfit : (machine type).Fit r x u) (hy : y.cache = [])
    (hend : type = .html → EndSeen ((consumed tr).reverse ++ (u ++ fut)) r x u d tr ∧
      (x.state.top = .htmlCommentIe → act r x u d ≠ .drops)) :
    PartsStage type y (u.drop (Ev.takes es) ++ fut) ((Ev.items x es u).reverse ++ .turn r x u d :: tr) := by
  cases h with
  | outside hs h =>
    refine h.turn ?_
    cases type with
    | html => exact HtmlRule.outsideTurn hrule hy hs (hend rfl).2
    | css => exact CssRule.outsideTurn hrule hy (cssStates_subset (CssFit.stack hfit)) hs
    | js => exact JsRule.outsideTurn hrule hy hs
  | inside htr hm h =>
    subst htr
    cases hm with
    | page hs hw hm => exact Inside.page_turn h hs hw hm (HtmlRule.skipTurn hrule hs) hy (hend rfl).1
    | block hplain hs hw hm => exact Inside.block_turn h hplain hs hw hm (rule_blockTurn hrule hplain hs) hy
    | line hs hw hm => exact Inside.line_turn h hs hw hm hrule hy

end Stages

/-- Every response falls into its parts, however it goes on. -/
theorem partsInv (type : FileType) : TraceInv (machine type) fun v => ∀ fut,
    SeesEnds type ((consumed v.trace).reverse ++ (v.pending ++ fut)) v.trace →
      PartsStage type v.ctx (v.pending ++ fut) v.trace where
  start _ _ := .outside (by simp [Ctx.zero, insideStates]) .nil
  next {v} buf _ h _ fut hends := by
    rw [List.append_assoc] at hends ⊢
    exact ((h (buf ++ fut) (hends.of_cons (by simp))).quiet (i := .buffer) rfl).of_eq rfl
  turn {v es y nxt k k' r' d tr} hv h hc hy hrule hgo hk hd htr fut hends := by
    subst htr
    have htext : (consumed ((Ev.items v.ctx es v.pending).reverse ++
          .turn v.r v.ctx v.pending v.dstlen :: v.trace)).reverse ++ (v.pending.drop (Ev.takes es) ++ fut) =
        (consumed v.trace).reverse ++ (v.pending ++ fut) := by
      rw [consumed_append, List.reverse_append, consumed_reverse, List.reverse_reverse,
        Ev.consumed_items _ _ _ ((machine type).takes_le hrule), consumed_cons, List.append_assoc,
        ← List.append_assoc (List.take _ _), List.take_append_drop]
      rfl
    rw [htext] at hends
    obtain ⟨hold, hturn⟩ := hends.of_turn
    obtain ⟨p, q, he⟩ := nxt.ended_eq r' d (emitted ((Ev.items v.ctx es v.pending).reverse ++
      .turn v.r v.ctx v.pending v.dstlen :: v.trace)) y
    exact ((h fut hold).turn hrule (hv.fit hc) hy hturn).of_eq (by rw [he])
  hold {v y} a hv h hc hrule hy fut hends := by
    have hturns : SeesEnds type ((consumed v.trace).reverse ++ (v.pending ++ fut))
        (.turn v.r v.ctx v.pending v.dstlen :: v.trace) := hends.of_cons (by simp)
    have hitems : SeesEnds type ((consumed v.trace).reverse ++ (v.pending ++ fut))
        ((Ev.items v.ctx [] v.pending).reverse ++ .turn v.r v.ctx v.pending v.dstlen :: v.trace) := hturns
    have hold := hitems.of_turn.1
    refine (((h fut hold).quiet (i := .turn ..) rfl).quiet (i := .cacheCall ..) rfl).of_eq ?_
    rw [Next.ended_state, hy.state]
  done {v k r'} _ h _ fut hends := (h fut hends).of_eq (Next.ended_state ..)

theorem feedAll_parts {cap : Option ℕ} {type : FileType} {bufs : List (List UInt8)} {s : Session}
    (h : feedAll Flat cap type .start bufs = .ok s)
    (hends : SeesEnds type ((consumed s.trace).reverse ++ s.ctx.cache) s.trace) :
    PartsStage type s.ctx s.ctx.cache s.trace := by
  obtain ⟨c, hreach, hnil, rfl, -⟩ := feedAll_ok h
  have hpending : c.pending = c.ctx.cache := by rw [Conf.pending, hnil, List.append_nil]
  have hparts := (partsInv type).reach hreach []
  simp only [At.view, hpending, List.append_nil] at hparts
  exact hparts hends

/-- What stands in the input between two bytes that the output has next to each other, newest first:
block comments, and bytes that are passed over one by one, of which `dropped` holds. -/
inductive Gap (type : FileType) (dropped : MinifyState → UInt8 → List Item → Prop) : List Item → Prop
  | nil : Gap type dropped []
  | quiet {i gap} (hi : i.consumed = []) (h : Gap type dropped gap) : Gap type dropped (i :: gap)
  | drop {st b gap} (hd : dropped st b gap) (h : Gap type dropped gap) :
      Gap type dropped (.skip st b :: gap)
  | comment {st w m gap} (hst : st ∈ blockPlain type) (hw : EndsFirst (lit "*/") w) (hm : Gone type st w m)
      (h : Gap type dropped gap) : Gap type dropped (m ++ gap)

section Gaps
variable {type : FileType} {dropped : MinifyState → UInt8 → List Item → Prop} {gap older : List Item}

/-- Between two bytes that are written there are block comments and blanks. -/
theorem Parts.between (htype : type ≠ .html) {st : MinifyState} {b c : UInt8}
    (h : Parts type (gap ++ .emit st b c :: older)) (hgap : emitted gap = [])
    (hd : ∀ newer st b l, gap = newer ++ .skip st b :: l → st ∉ insideStates → isBlank b = true →
      dropped st b l) : Gap type dropped gap := by
  generalize hwhole : gap ++ Item.emit st b c :: older = whole at h
  induction h generalizing gap with
  | nil => simp at hwhole
  | @item i tr hi h ih =>
    rcases gap with _ | ⟨j, gap⟩
    · exact .nil
    · obtain ⟨rfl, htail⟩ := List.cons.inj hwhole
      rw [emitted_cons] at hgap
      have hsilent := List.append_eq_nil_iff.mp hgap
      have hrest : Gap type dropped gap :=
        ih hsilent.2 (fun newer st b l he => hd (j :: newer) st b l (by rw [he]; rfl)) htail
      cases j with
      | skip st b => exact .drop (hd [] st b gap rfl hi.1 hi.2) hrest
      | emit => simp at hsilent
      | _ => exact .quiet rfl hrest
  | comment hm h ih =>
    obtain ⟨gap', rfl, hl'⟩ := silent_split hm.silent hwhole
    rw [emitted_append] at hgap
    have hrest : Gap type dropped gap' := by
      refine ih (List.append_eq_nil_iff.mp hgap).2 (fun newer st b l he => ?_) hl'.symm
      exact hd (_ ++ newer) st b l (by rw [he, List.append_assoc])
    cases hm with
    | page => exact absurd rfl htype
    | block hst hw hm => exact .comment hst hw hm hrest
  | line =>
    rcases gap with _ | ⟨j, gap⟩
    · exact .nil
    · obtain ⟨rfl, -⟩ := List.cons.inj hwhole
      simp at hgap

end Gaps

end NginB.Minify
