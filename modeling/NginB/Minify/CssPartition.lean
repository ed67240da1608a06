import NginB.Minify.Pages

/-! # Style sheets that are cut into buffers

The reader of a whole style sheet compares a blank with the last byte written, and from a comment
in a rule block on with the last byte before it. `CssCutFree` names the iterations in which the
minifier compares it with another byte.
-/
namespace NginB.Minify
open NginB.Program Relation Ascii

structure CssReader where
  st : StateStack
  quote : UInt8
  /-- the byte that a blank is compared with -/
  pre : UInt8
  /-- `pre` stays as it is -/
  frozen : Bool
  /-- newest first -/
  out : List UInt8
  deriving DecidableEq

@[simp] def Blank (b : UInt8) : Prop := b = space ∨ b = tab

instance (b : UInt8) : Decidable (Blank b) := inferInstanceAs (Decidable (_ ∨ _))

namespace CssReader
variable (m : CssReader)

def start : CssReader := ⟨⟨.text, []⟩, 0, 0, false, []⟩

@[simp] def write (bytes : List UInt8) (st : StateStack) : CssReader :=
  { m with
    st := st, out := bytes.reverse ++ m.out
    pre := if m.frozen then m.pre else (bytes.reverse ++ m.out).headD 0 }

@[simp] def freeze (f : Bool) : CssReader := { m with frozen := f }

abbrev Move := Option (CssReader × List UInt8)

def text (b : UInt8) (t : List UInt8) : Move :=
  if Blank b ∧ Blank m.pre ∨ b = lf ∨ b = cr then some ((m.freeze false).write [] m.st, t)
  else if b = slash then
    match t with
    | [] => none
    | c :: t' =>
      if c = star then some (((m.freeze false).write [] (m.st.push .cssComment)).freeze true, t')
      else some ((m.freeze false).write [b, c] m.st, t')
  else if b = dquote ∨ b = squote then
    some ({ (m.freeze false).write [b] (m.st.push .cssQuote) with quote := b }, t)
  else if b = lbrace then some ((m.freeze false).write [b] (m.st.push .cssBrace), t)
  else some ((m.freeze false).write [b] m.st, t)

def brace (b : UInt8) (t : List UInt8) : Move :=
  if b = rbrace then some (m.write [b] ⟨.text, []⟩, t)
  else if (b = space ∧ m.pre = space) ∨ b = lf ∨ b = cr ∨ b = tab then some (m.write [] m.st, t)
  else if b = slash then
    match t with
    | [] => none
    | c :: t' =>
      if c = star then some ((m.write [] (m.st.push .cssComment)).freeze true, t')
      else some (m.write [b, c] m.st, t')
  else if b = dquote ∨ b = squote then
    some ({ m.write [b] (m.st.push .cssQuote) with quote := b }, t)
  else some (m.write [b] m.st, t)

def quoted (b : UInt8) (t : List UInt8) : Move :=
  if b = backslash then
    match t with
    | [] => none
    | c :: t' => some (m.write [b, c] m.st, t')
  else if m.quote = b then some (m.write [b] m.st.pop, t)
  else some (m.write [b] m.st, t)

def comment (b : UInt8) (t : List UInt8) : Move :=
  if b = star then
    match t with
    | [] => none
    | c :: t' =>
      if c = slash then some ({ m.freeze true with st := m.st.pop }, t') else some (m.freeze true, t)
  else some (m.freeze true, t)

@[simp] def step : List UInt8 → Move
  | [] => none
  | b :: t =>
    match m.st.top with
    | .text => m.text b t
    | .cssBrace => m.brace b t
    | .cssQuote => m.quoted b t
    | .cssComment => m.comment b t
    | _ => none

end CssReader

/-- An iteration that does as it does wherever the style sheet is cut. -/
structure CssCutFree (r : Routine) (x : Ctx) (u : List UInt8) (d : ℕ) (rest out : List UInt8) : Prop where
  /-- a quote of a rule block that goes on in another buffer does not freeze `pre_char` -/
  quote : r = .cssStripBuffer → x.state = ⟨.cssQuote, [.cssBrace, .text]⟩ → x.nochangePre = true
  /-- `pre_char` is not older than the `}` of a rule block -/
  text : r = .cssStripBuffer → x.state.top = .text → x.nochangePre = false →
    Blank (u.headD 0) → Blank x.preChar → out.head? ≠ some rbrace
  comment : r = .cssStripBuffer → x.state.top = .text → lit "/*" <+: u → d = 0 → Blank x.preChar →
    out.head? ≠ some rbrace

set_option synthInstance.maxSize 1000 in
instance (r : Routine) (x : Ctx) (u : List UInt8) (d : ℕ) (rest out : List UInt8) :
    Decidable (CssCutFree r x u d rest out) :=
  decidable_of_iff (_ ∧ _ ∧ _) ⟨fun ⟨hq, ht, hc⟩ => ⟨hq, ht, hc⟩, fun h => ⟨h.quote, h.text, h.comment⟩⟩

@[simp] def Ctx.cssReader (x : Ctx) (pre : UInt8) (frozen : Bool) (out : List UInt8) : CssReader :=
  ⟨x.state, x.quoteChar, pre, frozen, out⟩

/-- Neither byte is a blank where they differ. -/
def SameBlank (p q : UInt8) : Prop := p = q ∨ ¬ Blank p ∧ ¬ Blank q

theorem SameBlank.iff {p q : UInt8} (h : SameBlank p q) : Blank p ↔ Blank q := by
  rcases h with rfl | ⟨hp, hq⟩
  · exact Iff.rfl
  · exact iff_of_false hp hq

/-- What `pre_char` and `nochange_pre` tell of the reader in each state. -/
structure CssCoupled (r : Routine) (x : Ctx) (d : ℕ) (rest out : List UInt8) (pre : UInt8)
    (frozen : Bool) : Prop where
  text : x.state ∈ [⟨.text, []⟩, ⟨.cssComment, [.text]⟩] →
    SameBlank x.preChar (out.headD 0) ∨ out.head? = some rbrace
  textPre : x.state.top = .text → (r = .cssStripBuffer → rest.head? ≠ some slash) →
    SameBlank x.preChar pre ∨
      r = .cssStripBuffer ∧ d = 0 ∧ x.nochangePre = false ∧ pre = rbrace ∧ out.head? = some rbrace
  leaving : x.state.top = .text → r ≠ .cssStripBuffer →
    x.nochangePre = true ∨ x.preChar = out.headD 0
  textComment : x.state = ⟨.cssComment, [.text]⟩ → SameBlank x.preChar pre ∧
    (r ≠ .cssStripBuffer → x.nochangePre = true)
  textQuote : x.state = ⟨.cssQuote, [.text]⟩ → x.preChar = x.quoteChar ∧ frozen = false ∧
    (r ≠ .cssStripBuffer → x.nochangePre = true)
  brace : x.state = ⟨.cssBrace, [.text]⟩ → frozen = x.nochangePre ∧
    (frozen = false → pre = out.headD 0) ∧
      (x.preChar = pre ∨ r = .cssStripQuote ∧ frozen = false ∧ d ≠ 0)
  braceComment : x.state = ⟨.cssComment, [.cssBrace, .text]⟩ → frozen = true ∧ x.preChar = pre ∧
    (x.nochangePre = true ∨ r ≠ .cssStripComment ∧ pre = out.headD 0)
  braceQuote : x.state = ⟨.cssQuote, [.cssBrace, .text]⟩ → frozen = x.nochangePre ∧
    (frozen = true → x.preChar = pre) ∧
      (frozen = false → pre = out.headD 0 ∧ (r ≠ .cssStripBuffer → d ≠ 0))

@[simp] def frozenNext (x y : Ctx) (nxt : Next) (frozen : Bool) : Bool :=
  if nxt ≠ .again then frozen
  else if x.state.top = .cssComment ∨ y.state.top = .cssComment then true
  else if x.state.top = .text then false
  else frozen

@[simp] def preNext (x : Ctx) (nxt : Next) (pre : UInt8) (frozen : Bool) (out' : List UInt8) : UInt8 :=
  if nxt ≠ .again ∨ x.state.top = .cssComment ∨ x.state.top ≠ .text ∧ frozen = true then pre
  else out'.headD 0

theorem cssStacks_brace {s : StateStack} (h : s ∈ cssStacks) (hs : s.top = .cssBrace) :
    s = ⟨.cssBrace, [.text]⟩ := by
  revert hs
  revert h
  revert s
  decide

theorem cssStacks_text {s : StateStack} (h : s ∈ cssStacks) (hs : s.top = .text) : s = ⟨.text, []⟩ := by
  revert hs
  revert h
  revert s
  decide

theorem cssStacks_quote {s : StateStack} (h : s ∈ cssStacks) (hs : s.top = .cssQuote) :
    s = ⟨.cssQuote, [.text]⟩ ∨ s = ⟨.cssQuote, [.cssBrace, .text]⟩ := by
  revert hs
  revert h
  revert s
  decide

theorem cssStacks_comment {s : StateStack} (h : s ∈ cssStacks) (hs : s.top = .cssComment) :
    s = ⟨.cssComment, [.text]⟩ ∨ s = ⟨.cssComment, [.cssBrace, .text]⟩ := by
  revert hs
  revert h
  revert s
  decide

section Rules
variable {x y : Ctx} {r : Routine} {u fut : List UInt8} {es : List Ev} {nxt : Next} {d d' : ℕ}
  {out out' : List UInt8} {pre : UInt8} {frozen : Bool}

theorem CssRule.reads (h : CssRule x r u es y nxt) (hcut : CssCutFree r x u d (u ++ fut) out)
    (hx : CssCoupled r x d (u ++ fut) out pre frozen) (hst : x.state ∈ cssStacks) (hy : y.cache = [])
    (hout : out' = (emitted (Ev.items x es u)).reverse ++ out) :
    ReflTransGen (Moves CssReader.step) (x.cssReader pre frozen out, u ++ fut)
      (y.cssReader (preNext x nxt pre frozen out') (frozenNext x y nxt frozen) out',
        u.drop (Ev.takes es) ++ fut) := by
  subst hout
  cases h
  case commentClose hs =>
    refine .single ?_
    simp [CssReader.comment, hs]
  case commentStar hs hb =>
    refine .single ?_
    simp [CssReader.comment, hs, hb]
  case commentByte hs hb =>
    refine .single ?_
    simp [CssReader.comment, hs, hb]
  case commentLeave | quoteLeave | braceCallQuote | braceCallComment | braceLeave | callComment
    | callQuote | callBrace => simpa using .refl
  case quoteEscape hs =>
    refine .single ?_
    simp [CssReader.quoted, hs]
  case quoteClose hs hq =>
    have hpop := (cssStacks_pop hst (.inl hs)).2.2
    have hne : x.state.pop.top ≠ .cssComment := by
      rcases List.mem_pair.mp hpop with hp | hp <;> simp [hp]
    refine .single ?_
    simp [CssReader.quoted, hs, hq, hne]
  case quoteByte hs hb =>
    refine .single ?_
    simp [CssReader.quoted, hs, hb, Ne.symm hb.2]
  case braceClose hs =>
    refine .single ?_
    simp [CssReader.brace, hs]
  case braceBlank hs hb =>
    have hpre := (hx.brace (cssStacks_brace hst hs)).2.2.resolve_right (by simp)
    rw [hpre] at hb
    refine .single ?_
    simp [CssReader.brace, hs, hb]
    rcases hb with ⟨rfl, -⟩ | rfl | rfl | rfl <;> simp
  case braceComment hs =>
    refine .single ?_
    simp [CssReader.brace, hs]
  case braceSlash hs hb =>
    refine .single ?_
    simp [CssReader.brace, hs, hb]
  case braceQuote hs hb =>
    refine .single ?_
    rcases hb with rfl | rfl <;> simp [CssReader.brace, hs]
  case braceByte hs hb hq hp =>
    have hpre := (hx.brace (cssStacks_brace hst hs)).2.2.resolve_right (by simp)
    rw [hpre] at hp
    refine .single ?_
    simp [CssReader.brace, hs, hb, hq, hp]
  case textBlankDrop hs hb hp =>
    have hblank : pre = space ∨ pre = tab := by
      rcases hx.textPre hs (by rcases hb with rfl | rfl <;> simp) with hsame | ⟨-, -, hno, -, hlast⟩
      · exact hsame.iff.mp hp
      · exact absurd hlast (hcut.text rfl hs hno hb hp)
    refine .single ?_
    rcases hb with rfl | rfl <;> simp [CssReader.text, hs, hblank]
  case textBlank hs hb hp =>
    have hblank : ¬ (pre = space ∨ pre = tab) := by
      rcases hx.textPre hs (by rcases hb with rfl | rfl <;> simp) with hsame | ⟨-, -, -, rfl, -⟩
      · exact fun hb => hp (hsame.iff.mpr hb)
      · decide
    refine .single ?_
    rcases hb with rfl | rfl <;> simp only [not_or] at hblank <;> simp [CssReader.text, hs, hblank]
  case textComment hs =>
    refine .single ?_
    simp [CssReader.text, hs]
  case textSlash hs hb =>
    refine .single ?_
    simp [CssReader.text, hs, hb]
  case textQuote hs hb =>
    refine .single ?_
    rcases hb with rfl | rfl <;> simp [CssReader.text, hs]
  case textOpen hs =>
    refine .single ?_
    simp [CssReader.text, hs]
  case textBreak hs hb =>
    refine .single ?_
    rcases hb with rfl | rfl <;> simp [CssReader.text, hs]
  case textByte hs hb hq hn =>
    refine .single ?_
    simp [CssReader.text, hs, hb, hq, hn]
  all_goals simp at hy

theorem ended_preChar (hr : r.refreshes = true) (hn : ∀ r', nxt ≠ .call r') :
    (nxt.ended r d out y).preChar =
      if y.nochangePre = true ∨ d = 0 then y.preChar else out.headD 0 := by
  unfold Next.ended Ctx.refreshed
  split
  · next r' => exact absurd rfl (hn r')
  · rw [if_pos hr]
    split <;> rfl

theorem CssCoupled.left {rest : List UInt8} {r' : Routine} (hx : CssCoupled r x d rest out pre frozen)
    (hn : ∀ r', nxt ≠ .call r') (hr : r ≠ .cssStripBuffer)
    (hr' : r' = .cssStripBuffer ∨ r' = .cssStripBrace) :
    CssCoupled r' (nxt.ended r' d out x) d rest out pre frozen := by
  have hpre : (nxt.ended r' d out x).preChar =
      if x.nochangePre = true ∨ d = 0 then x.preChar else out.headD 0 :=
    ended_preChar (by rcases hr' with rfl | rfl <;> rfl) hn
  have hkeep : x.nochangePre = true ∨ x.preChar = out.headD 0 →
      (nxt.ended r' d out x).preChar = x.preChar := by
    rintro (hno | hlast)
    · rw [hpre, if_pos (.inl hno)]
    · rw [hpre, ← hlast, ite_self]
  have hne : r' ≠ .cssStripComment := by rcases hr' with rfl | rfl <;> decide
  constructor
  all_goals
    intro h
    rw [Next.ended_state] at h
  · rw [hpre]
    split
    · exact hx.text h
    · exact .inl (.inl rfl)
  · intro _
    rw [hkeep (hx.leaving h hr)]
    exact .inl ((hx.textPre h fun hr'' => absurd hr'' hr).resolve_right fun hs => hr hs.1)
  · intro _
    rw [Next.ended_nochangePre, hkeep (hx.leaving h hr)]
    exact hx.leaving h hr
  · obtain ⟨hsame, hno⟩ := hx.textComment h
    rw [Next.ended_nochangePre, hkeep (.inl (hno hr))]
    exact ⟨hsame, fun _ => hno hr⟩
  · obtain ⟨hq, hf, hno⟩ := hx.textQuote h
    rw [Next.ended_nochangePre, hkeep (.inl (hno hr)), Next.ended_quoteChar]
    exact ⟨hq, hf, fun _ => hno hr⟩
  · obtain ⟨hf, hlast, heq⟩ := hx.brace h
    rw [Next.ended_nochangePre]
    refine ⟨hf, hlast, .inl ?_⟩
    rcases heq with heq | ⟨-, hfrozen, h0⟩
    · rw [hkeep ?_, heq]
      cases frozen with
      | true => exact .inl hf.symm
      | false => exact .inr (heq.trans (hlast rfl))
    · rw [hpre, if_neg (by simp [← hf, hfrozen, h0]), hlast hfrozen]
  · obtain ⟨hf, heq, hno⟩ := hx.braceComment h
    rw [Next.ended_nochangePre, hkeep (hno.imp_right fun hs => heq.trans hs.2)]
    exact ⟨hf, heq, hno.imp_right fun hs => ⟨hne, hs.2⟩⟩
  · obtain ⟨hf, heq, hlast⟩ := hx.braceQuote h
    rw [Next.ended_nochangePre]
    refine ⟨hf, fun ht => ?_, fun ht => ⟨(hlast ht).1, fun _ => (hlast ht).2 hr⟩⟩
    rw [hkeep (.inl (hf.symm.trans ht))]
    exact heq ht

theorem CssCoupled.fresh {rest : List UInt8} (hno : y.nochangePre = false)
    (hst : y.state ∈ [⟨.text, []⟩, ⟨.cssComment, [.text]⟩, ⟨.cssQuote, [.text]⟩, ⟨.cssBrace, [.text]⟩])
    (hq : y.state = ⟨.cssQuote, [.text]⟩ → d ≠ 0 ∧ y.quoteChar = out.headD 0)
    (hb : y.state = ⟨.cssBrace, [.text]⟩ → d ≠ 0)
    (h0 : d = 0 → SameBlank y.preChar (out.headD 0) ∨
      out.head? = some rbrace ∧ y.state ≠ ⟨.cssComment, [.text]⟩) :
    CssCoupled .cssStripBuffer (Next.again.ended .cssStripBuffer d out y) d rest out (out.headD 0)
      (decide (y.state.top = .cssComment)) := by
  have hpre : (Next.again.ended .cssStripBuffer d out y).preChar =
      if d = 0 then y.preChar else out.headD 0 := by
    rw [ended_preChar rfl (by simp)]
    simp [hno]
  constructor
  all_goals
    intro h
    rw [Next.ended_state] at h
  · rw [hpre]
    split
    next hd => exact (h0 hd).imp_right fun hs => hs.1
    next => exact .inl (.inl rfl)
  · intro _
    rw [hpre, Next.ended_nochangePre]
    split
    next hd =>
      refine (h0 hd).imp_right fun hs => ⟨rfl, hd, hno, ?_, hs.1⟩
      rw [List.headD_eq_head?_getD, hs.1]
      rfl
    next => exact .inl (.inl rfl)
  · intro hr
    exact absurd rfl hr
  · rw [hpre]
    refine ⟨?_, fun hr => absurd rfl hr⟩
    split
    next hd => exact (h0 hd).resolve_right fun hs => hs.2 h
    next => exact .inl rfl
  · obtain ⟨hd, hquote⟩ := hq h
    rw [hpre, if_neg hd, Next.ended_quoteChar]
    exact ⟨hquote.symm, by simp [h], fun hr => absurd rfl hr⟩
  · rw [hpre, if_neg (hb h), Next.ended_nochangePre, hno]
    exact ⟨by simp [h], fun _ => rfl, .inl rfl⟩
  · simp [h] at hst
  · simp [h] at hst

theorem CssRule.text_next (h : CssRule x .cssStripBuffer u es y .again)
    (hcut : CssCutFree .cssStripBuffer x u d (u ++ fut) out)
    (hx : CssCoupled .cssStripBuffer x d (u ++ fut) out pre frozen) (hst : x.state ∈ cssStacks)
    (hy : y.cache = []) (hout : out' = (emitted (Ev.items x es u)).reverse ++ out)
    (hd' : d' = d + (emitted (Ev.items x es u)).length) :
    CssCoupled .cssStripBuffer (Next.again.ended .cssStripBuffer d' out' y) d'
      (u.drop (Ev.takes es) ++ fut) out' (preNext x .again pre frozen out')
      (frozenNext x y .again frozen) := by
  have htop : x.state.top = .text := by cases h <;> assumption
  have hst' := cssStacks_text hst htop
  have hpre : preNext x .again pre frozen out' = out'.headD 0 := by simp [htop]
  have hfrozen : frozenNext x y .again frozen = decide (y.state.top = .cssComment) := by
    by_cases hc : y.state.top = .cssComment <;> simp [htop, hc]
  rw [hpre, hfrozen]
  have hlast := hx.text (by simp [hst'])
  cases h
  case textBlankDrop | textBreak =>
    obtain rfl : out' = out := hout
    apply CssCoupled.fresh rfl
    · simp [hst']
    · simp [hst']
    · simp [hst']
    · intro _
      exact hlast.imp_right fun hl => ⟨hl, by simp [hst']⟩
  case textComment =>
    obtain rfl : out' = out := hout
    apply CssCoupled.fresh rfl
    · simp [hst']
    · simp [hst']
    · simp [hst']
    · intro hd0
      refine .inl ?_
      rcases hlast with hl | hl
      · exact hl
      · by_cases hb : Blank x.preChar
        · exact absurd hl (hcut.comment rfl htop (by simp) (hd'.symm.trans hd0) hb)
        · refine .inr ⟨hb, ?_⟩
          rw [List.headD_eq_head?_getD, hl]
          decide
  case textBlank | textSlash | textByte =>
    apply CssCoupled.fresh rfl
    · simp [hst']
    · simp [hst']
    · simp [hst']
    · intro h0
      exact absurd (hd'.symm.trans h0) (by simp)
  case textQuote =>
    apply CssCoupled.fresh rfl
    · simp [hst']
    · simp [hout, hd']
    · simp [hst']
    · intro h0
      exact absurd (hd'.symm.trans h0) (by simp)
  case textOpen =>
    apply CssCoupled.fresh rfl
    · simp [hst']
    · simp [hst']
    · simp [hd']
    · intro h0
      exact absurd (hd'.symm.trans h0) (by simp)
  case textHold => cases hy

theorem CssCoupled.block {rest : List UInt8} (hno : x.nochangePre = frozen) (heq : x.preChar = pre)
    (hlast : frozen = false → pre = out.headD 0)
    (hst : x.state ∈ [⟨.text, []⟩, ⟨.cssBrace, [.text]⟩, ⟨.cssComment, [.cssBrace, .text]⟩,
      ⟨.cssQuote, [.cssBrace, .text]⟩])
    (ht : x.state = ⟨.text, []⟩ → out.head? = some rbrace)
    (hq : x.state = ⟨.cssQuote, [.cssBrace, .text]⟩ → d ≠ 0) :
    CssCoupled .cssStripBrace x d rest out pre (frozen || decide (x.state.top = .cssComment)) := by
  constructor
  all_goals intro h
  · refine .inr (ht ?_)
    rcases List.mem_pair.mp h with h | h
    · exact h
    · simp [h] at hst
  · intro _
    exact .inl (.inl heq)
  · intro _
    cases frozen with
    | true => exact .inl hno
    | false => exact .inr (heq.trans (hlast rfl))
  · simp [h] at hst
  · simp [h] at hst
  · rw [decide_eq_false (by simp [h]), Bool.or_false]
    exact ⟨hno.symm, hlast, .inl heq⟩
  · refine ⟨by simp [h], heq, ?_⟩
    cases frozen with
    | true => exact .inl hno
    | false => exact .inr ⟨by simp, hlast rfl⟩
  · rw [decide_eq_false (by simp [h]), Bool.or_false]
    exact ⟨hno.symm, fun _ => heq, fun hf => ⟨hlast hf, fun _ => hq h⟩⟩

theorem CssRule.brace_next (h : CssRule x .cssStripBrace u es y .again)
    (hx : CssCoupled .cssStripBrace x d (u ++ fut) out pre frozen) (hst : x.state ∈ cssStacks)
    (hy : y.cache = []) (hout : out' = (emitted (Ev.items x es u)).reverse ++ out)
    (hd' : d' = d + (emitted (Ev.items x es u)).length) :
    CssCoupled .cssStripBrace (Next.again.ended .cssStripBrace d' out' y) d'
      (u.drop (Ev.takes es) ++ fut) out' (preNext x .again pre frozen out')
      (frozenNext x y .again frozen) := by
  have htop : x.state.top = .cssBrace := by cases h <;> assumption
  have hst' := cssStacks_brace hst htop
  obtain ⟨hno, hlast, heq⟩ := hx.brace hst'
  have heq := heq.resolve_right (by simp)
  have hpre : preNext x .again pre frozen out' = if frozen = true then pre else out'.headD 0 := by
    simp [htop]
  have hfrozen : frozenNext x y .again frozen = (frozen || decide (y.state.top = .cssComment)) := by
    by_cases hc : y.state.top = .cssComment <;> simp [htop, hc]
  have hy' : y.nochangePre = x.nochangePre ∧ y.preChar = x.preChar := by cases h <;> exact ⟨rfl, rfl⟩
  have hended : (Next.again.ended .cssStripBrace d' out' y).preChar =
      if frozen = true then pre else out'.headD 0 := by
    rw [ended_preChar rfl (by simp), hy'.1, hy'.2, ← hno, heq]
    cases frozen with
    | true => rfl
    | false =>
      by_cases h0 : d' = 0
      · have hnil : emitted (Ev.items x es u) = [] := List.eq_nil_of_length_eq_zero (by omega)
        rw [if_pos (.inr h0), hout, hnil]
        exact hlast rfl
      · rw [if_neg (by simp [h0])]
        rfl
  have hfresh : frozen = false → (if frozen = true then pre else out'.headD 0) = out'.headD 0 := by
    rintro rfl
    rfl
  rw [hpre, hfrozen, ← Next.ended_state .again .cssStripBrace d' out' y]
  apply CssCoupled.block
  · rw [Next.ended_nochangePre, hy'.1, hno]
  · exact hended
  · exact hfresh
  · rw [Next.ended_state]
    cases h <;> simp_all
  · rw [Next.ended_state]
    cases h <;> simp_all
  · rw [Next.ended_state]
    cases h <;> simp_all

theorem CssRule.quote_next (h : CssRule x .cssStripQuote u es y .again)
    (hx : CssCoupled .cssStripQuote x d (u ++ fut) out pre frozen) (hst : x.state ∈ cssStacks)
    (hy : y.cache = []) (hout : out' = (emitted (Ev.items x es u)).reverse ++ out)
    (hd' : d' = d + (emitted (Ev.items x es u)).length) :
    CssCoupled .cssStripQuote (Next.again.ended .cssStripQuote d' out' y) d'
      (u.drop (Ev.takes es) ++ fut) out' (preNext x .again pre frozen out')
      (frozenNext x y .again frozen) := by
  have htop : x.state.top = .cssQuote := by cases h <;> assumption
  have hpre : preNext x .again pre frozen out' = if frozen = true then pre else out'.headD 0 := by
    simp [htop]
  have hpop := (cssStacks_pop hst (.inl htop)).2.2
  have hne : y.state.top ≠ .cssComment := by
    cases h
    case quoteClose => rcases List.mem_pair.mp hpop with hp | hp <;> simp [hp]
    all_goals simp [htop]
  have hfrozen : frozenNext x y .again frozen = frozen := by simp [htop, hne]
  rw [hpre, hfrozen, show Next.again.ended .cssStripQuote d' out' y = y from rfl]
  have hd0 : d' ≠ 0 := by
    cases h
    case quoteHold => cases hy
    all_goals simp [hd']
  have hsame : y.nochangePre = x.nochangePre ∧ y.preChar = x.preChar ∧ y.quoteChar = x.quoteChar := by
    cases h <;> exact ⟨rfl, rfl, rfl⟩
  have hclose : y.state = x.state ∨ y.state = x.state.pop ∧ out'.headD 0 = x.quoteChar := by
    cases h
    case quoteClose => exact .inr ⟨rfl, by simp [hout]⟩
    all_goals exact .inl rfl
  obtain ⟨hno, hchar, hquote⟩ := hsame
  rcases cssStacks_quote hst htop with hs | hs
  · obtain ⟨hq, hf, hfreeze⟩ := hx.textQuote hs
    have hfreeze' : y.nochangePre = true := hno.trans (hfreeze (by simp))
    rcases hclose with hstate | ⟨hstate, hlast⟩
    · rw [hs] at hstate
      constructor
      case textQuote => exact fun _ => ⟨by rw [hchar, hquote, hq], hf, fun _ => hfreeze'⟩
      all_goals simp [hstate]
    · rw [hs] at hstate
      have heq : y.preChar = out'.headD 0 := by rw [hchar, hq, hlast]
      constructor
      case text => exact fun _ => .inl (.inl heq)
      case textPre => exact fun _ _ => .inl (.inl (by rw [heq, hf]; rfl))
      case leaving => exact fun _ _ => .inl hfreeze'
      all_goals simp [hstate]
  · obtain ⟨hf, hfrozen, -⟩ := hx.braceQuote hs
    have hf' : frozen = y.nochangePre := hf.trans hno.symm
    have hkeep : frozen = true → y.preChar = if frozen = true then pre else out'.headD 0 := by
      intro ht
      rw [if_pos ht, hchar, hfrozen ht]
    have hlive : frozen = false → (if frozen = true then pre else out'.headD 0) = out'.headD 0 := by
      rintro rfl
      rfl
    rcases hclose with hstate | ⟨hstate, -⟩
    · rw [hs] at hstate
      constructor
      case braceQuote => exact fun _ => ⟨hf', hkeep, fun ht => ⟨hlive ht, fun _ => hd0⟩⟩
      all_goals simp [hstate]
    · rw [hs] at hstate
      constructor
      case brace =>
        refine fun _ => ⟨hf', hlive, ?_⟩
        cases frozen with
        | true => exact .inl (hkeep rfl)
        | false => exact .inr ⟨rfl, rfl, hd0⟩
      all_goals simp [hstate]

theorem CssRule.comment_next (h : CssRule x .cssStripComment u es y .again)
    (hx : CssCoupled .cssStripComment x d (u ++ fut) out pre frozen) (hst : x.state ∈ cssStacks)
    (hy : y.cache = []) (hout : out' = (emitted (Ev.items x es u)).reverse ++ out) :
    CssCoupled .cssStripComment (Next.again.ended .cssStripComment d' out' y) d'
      (u.drop (Ev.takes es) ++ fut) out' (preNext x .again pre frozen out')
      (frozenNext x y .again frozen) := by
  have htop : x.state.top = .cssComment := by cases h <;> assumption
  have hpre : preNext x .again pre frozen out' = pre := by simp [htop]
  have hfrozen : frozenNext x y .again frozen = true := by simp [htop]
  rw [hpre, hfrozen, show Next.again.ended .cssStripComment d' out' y = y from rfl]
  have hnil : out' = out := by
    cases h
    case commentHold => cases hy
    all_goals simpa using hout
  have hsame : y.nochangePre = x.nochangePre ∧ y.preChar = x.preChar := by
    cases h <;> exact ⟨rfl, rfl⟩
  have hclose : y.state = x.state ∨ y.state = x.state.pop := by
    cases h
    case commentClose => exact .inr rfl
    all_goals exact .inl rfl
  obtain ⟨hno, hchar⟩ := hsame
  subst hnil
  rcases cssStacks_comment hst htop with hs | hs
  · obtain ⟨hsame, hfreeze⟩ := hx.textComment hs
    have hlast := hx.text (by simp [hs])
    rw [← hchar] at hsame hlast
    have hfreeze' : y.nochangePre = true := hno.trans (hfreeze (by simp))
    rcases hclose with hstate | hstate
    all_goals
      rw [hs] at hstate
      constructor
      case text => exact fun _ => hlast
      case textPre => exact fun _ _ => .inl hsame
      case leaving => exact fun _ _ => .inl hfreeze'
      case textComment => exact fun _ => ⟨hsame, fun _ => hfreeze'⟩
      all_goals simp [hstate]
  · obtain ⟨-, heq, hfreeze⟩ := hx.braceComment hs
    have hfreeze' : y.nochangePre = true := hno.trans (hfreeze.resolve_right fun hr => hr.1 rfl)
    have heq' : y.preChar = pre := hchar.trans heq
    rcases hclose with hstate | hstate
    all_goals
      rw [hs] at hstate
      constructor
      case brace => exact fun _ => ⟨hfreeze'.symm, fun hf => (nomatch hf), .inl heq'⟩
      case braceComment => exact fun _ => ⟨rfl, heq', .inl hfreeze'⟩
      all_goals simp [hstate]

theorem CssRule.call_next {r' : Routine} (h : CssRule x r u es y (.call r'))
    (hcut : CssCutFree r x u d (u ++ fut) out) (hx : CssCoupled r x d (u ++ fut) out pre frozen)
    (hst : x.state ∈ cssStacks) :
    CssCoupled r' y d (u.drop (Ev.takes es) ++ fut) out pre frozen := by
  cases h
  case braceCallQuote hs =>
    rcases cssStacks_quote hst hs with hstate | hstate
    · obtain ⟨hq, hf, hno⟩ := hx.textQuote hstate
      constructor
      case textQuote => exact fun _ => ⟨hq, hf, fun _ => hno (by simp)⟩
      all_goals simp [hstate]
    · obtain ⟨hf, heq, hlast⟩ := hx.braceQuote hstate
      constructor
      case braceQuote => exact fun _ => ⟨hf, heq, fun ht => ⟨(hlast ht).1, fun _ => (hlast ht).2 (by simp)⟩⟩
      all_goals simp [hstate]
  case callQuote hs =>
    rcases cssStacks_quote hst hs with hstate | hstate
    · obtain ⟨hq, hf, -⟩ := hx.textQuote hstate
      constructor
      case textQuote => exact fun _ => ⟨hq, hf, fun _ => rfl⟩
      all_goals simp [hstate]
    · obtain ⟨hf, heq, -⟩ := hx.braceQuote hstate
      have hno := hf.trans (hcut.quote rfl hstate)
      constructor
      case braceQuote => exact fun _ => ⟨hno, heq, fun ht => absurd (ht.symm.trans hno) Bool.false_ne_true⟩
      all_goals simp [hstate]
  case braceCallComment hs | callComment hs =>
    rcases cssStacks_comment hst hs with hstate | hstate
    · obtain ⟨hsame, -⟩ := hx.textComment hstate
      constructor
      case text => exact fun _ => hx.text (by simp [hstate])
      case textComment => exact fun _ => ⟨hsame, fun _ => rfl⟩
      all_goals simp [hstate]
    · obtain ⟨hf, heq, -⟩ := hx.braceComment hstate
      constructor
      case braceComment => exact fun _ => ⟨hf, heq, .inl rfl⟩
      all_goals simp [hstate]
  case callBrace hs =>
    have hstate := cssStacks_brace hst hs
    obtain ⟨hf, hlast, heq⟩ := hx.brace hstate
    have heq := heq.resolve_right (by simp)
    constructor
    case brace => exact fun _ => ⟨hf, hlast, .inl heq⟩
    all_goals simp [hstate]

/-- Where bytes are held back, the reader waits too. -/
theorem CssRule.stuck (h : CssRule x r u es y nxt) (hc : x.cache = []) (hy : y.cache ≠ []) :
    (x.cssReader pre frozen out).step u = none := by
  cases h
  case commentHold hs => simp [CssReader.comment, hs]
  case quoteHold hs => simp [CssReader.quoted, hs]
  case braceHold hs => simp [CssReader.brace, hs]
  case textHold hs => simp [CssReader.text, hs]
  all_goals exact absurd hc hy

theorem CssRule.hold_next (h : CssRule x r u es y .again)
    (hx : CssCoupled r x d (u ++ fut) out pre frozen) (hst : x.state ∈ cssStacks) (hc : x.cache = [])
    (hy : y.cache ≠ []) :
    CssCoupled r (Next.again.ended r d out y) d (u ++ fut) out pre frozen := by
  cases h
  case commentHold | quoteHold =>
    exact ⟨hx.text, hx.textPre, hx.leaving, hx.textComment, hx.textQuote, hx.brace, hx.braceComment,
      hx.braceQuote⟩
  case braceHold hs =>
    have hstate := cssStacks_brace hst hs
    obtain ⟨hf, hlast, heq⟩ := hx.brace hstate
    have heq := heq.resolve_right (by simp)
    constructor
    case brace =>
      intro _
      refine ⟨by simpa using hf, hlast, .inl ?_⟩
      rw [ended_preChar rfl (by simp)]
      split
      next => exact heq
      next hno =>
        rw [not_or] at hno
        exact (hlast (hf.trans (Bool.eq_false_iff.mpr hno.1))).symm
    all_goals simp [hstate]
  case textHold hs =>
    have hstate := cssStacks_text hst hs
    have hlast := hx.text (by simp [hstate])
    constructor
    case text =>
      intro _
      rw [ended_preChar rfl (by simp)]
      split
      next => exact hlast
      next => exact .inl (.inl rfl)
    all_goals simp [hstate]
  all_goals exact absurd hc hy

end Rules

@[simp] theorem ended_cssReader (nxt : Next) (r : Routine) (d : ℕ) (out w : List UInt8) (x : Ctx)
    (pre : UInt8) (frozen : Bool) :
    (nxt.ended r d out x).cssReader pre frozen w = x.cssReader pre frozen w := by
  obtain ⟨p, q, he⟩ := nxt.ended_eq r d out x
  rw [he]
  rfl

theorem CssRule.ne_nil {x y : Ctx} {r : Routine} {u : List UInt8} {es : List Ev} {nxt : Next}
    (h : CssRule x r u es y nxt) (hes : es ≠ []) : u ≠ [] := by
  cases h <;> simp_all

/-- Only the text loop and the brace loop wait for another loop. -/
theorem cssCallers_waits {r r' : Routine} {k : List Routine} (hk : (r' :: k) ∈ cssCallers r) :
    r ≠ .cssStripBuffer ∧ (r' = .cssStripBuffer ∨ r' = .cssStripBrace) := by
  cases r <;> simp [cssCallers] at hk
  case cssStripBrace => exact ⟨by decide, .inl hk.1⟩
  case cssStripQuote | cssStripComment => exact ⟨by decide, hk.imp (fun h => h.1) fun h => h.1⟩

theorem CssRule.next {x y : Ctx} {r r' : Routine} {u fut : List UInt8} {es : List Ev} {nxt : Next}
    {d d' : ℕ} {out out' : List UInt8} {pre : UInt8} {frozen : Bool} {k k' : List Routine}
    (h : CssRule x r u es y nxt)
    (hcut : CssCutFree r x u d (u ++ fut) out) (hx : CssCoupled r x d (u ++ fut) out pre frozen)
    (hst : x.state ∈ cssStacks) (hy : y.cache = []) (hgo : nxt.Goes r k r' k')
    (hk : k ∈ cssCallers r) (hd : d ≤ out.length)
    (hout : out' = (emitted (Ev.items x es u)).reverse ++ out)
    (hd' : d' = d + (emitted (Ev.items x es u)).length) :
    CssCoupled r' (nxt.ended r' d' out' y) d' (u.drop (Ev.takes es) ++ fut) out'
      (preNext x nxt pre frozen out') (frozenNext x y nxt frozen) := by
  cases hgo with
  | again =>
    cases r with
    | cssStripBuffer => exact h.text_next hcut hx hst hy hout hd'
    | cssStripBrace => exact h.brace_next hx hst hy hout hd'
    | cssStripQuote => exact h.quote_next hx hst hy hout hd'
    | cssStripComment => exact h.comment_next hx hst hy hout
    | _ => cases h
  | call =>
    have hnil : out' = out ∧ d' = d := by
      subst hout hd'
      cases h <;> exact ⟨rfl, rfl⟩
    obtain ⟨rfl, rfl⟩ := hnil
    exact h.call_next hcut hx hst
  | leave =>
    have hnil : out' = out ∧ d' = d ∧ Ev.takes es = 0 := by
      subst hout hd'
      cases h <;> exact ⟨rfl, rfl, rfl⟩
    obtain ⟨rfl, rfl, htakes⟩ := hnil
    obtain ⟨rfl, hr⟩ := h.leaves
    rw [htakes]
    exact hx.left (by simp) hr (cssCallers_waits hk).2

theorem cssAlong : Along cssMachine CssReader.step CssReader.start CssCutFree
    (fun r x d rest out m => ∃ pre frozen, m = x.cssReader pre frozen out ∧
      CssCoupled r x d rest out pre frozen) where
  start rest := by
    refine ⟨0, false, rfl, ?_⟩
    constructor
    case text => exact fun _ => .inl (.inl rfl)
    case textPre => exact fun _ _ => .inl (.inl rfl)
    all_goals simp [Ctx.zero, cssMachine]
  next := by
    rintro x d rest out m ⟨pre, frozen, rfl, hx⟩
    refine ⟨pre, frozen, rfl, hx.text, fun ht hs => ?_, hx.leaving, hx.textComment, hx.textQuote,
      fun hs => ?_, hx.braceComment, fun hs => ?_⟩
    · exact (hx.textPre ht hs).imp_right fun h => ⟨h.1, rfl, h.2.2⟩
    · obtain ⟨hf, hlast, heq⟩ := hx.brace hs
      exact ⟨hf, hlast, .inl (heq.resolve_right fun h => nomatch h.1)⟩
    · obtain ⟨hf, heq, hlast⟩ := hx.braceQuote hs
      exact ⟨hf, heq, fun ht => ⟨(hlast ht).1, fun hr => absurd rfl hr⟩⟩
  turn := by
    rintro x r u es y nxt k k' r' d d' out out' fut m hrule hf hy hgo hk hcut ⟨pre, frozen, rfl, hx⟩ hd hout hd'
    have hrule' : CssRule x r u es y nxt := hrule
    have hst := cssStates_subset hf.stack
    have hnext := hrule'.next hcut hx hst hy hgo hk hd hout hd'
    exact ⟨_, hrule'.reads hcut hx hst hy hout, _, _, (ended_cssReader _ _ _ _ _ _ _ _).symm, hnext⟩
  hold := by
    rintro x r u a y d out fut m hrule hf hc hy ⟨pre, frozen, rfl, hx⟩ hd
    have hrule' : CssRule x r u (Ev.holds a u) y .again := hrule
    have hst := cssStates_subset hf.stack
    have hne : y.cache ≠ [] := by
      rw [hy.cache]
      exact hrule'.ne_nil (by simp [Ev.holds])
    refine ⟨hrule'.stuck hc hne, pre, frozen, ?_, hrule'.hold_next hx hst hc hne⟩
    rw [ended_cssReader]
    cases hy <;> rfl
  done := by
    rintro x r r' k d rest out m ⟨pre, frozen, rfl, hx⟩ hk hd
    obtain ⟨hr, hr'⟩ := cssCallers_waits hk
    exact ⟨pre, frozen, (ended_cssReader _ _ _ _ _ _ _ _).symm, hx.left (by simp) hr hr'⟩


def CssCutFreeRun (rest : List UInt8) (tr : List Item) : Prop := CutRun CssCutFree rest tr

/-- A response in which every iteration is `CssCutFree` does not depend on where the style sheet
is cut. -/
theorem css_cut_anywhere {cap cap' : Option ℕ} {bufs bufs' : List (List UInt8)} {s s' : Session}
    (h : feedAll Flat cap .css .start bufs = .ok s) (h' : feedAll Flat cap' .css .start bufs' = .ok s')
    (hpage : bufs.flatten = bufs'.flatten) (hcut : CssCutFreeRun s.ctx.cache s.trace)
    (hcut' : CssCutFreeRun s'.ctx.cache s'.trace) : s.out = s'.out ∧ s.ctx.cache = s'.ctx.cache := by
  obtain ⟨hcache, m, d, d', ⟨pre, frozen, hm, -⟩, pre', frozen', hm', -⟩ :=
    feedAll_reads_same .css cssAlong (fun _ => rfl) h h' hpage hcut hcut'
  have hout : s.out.reverse = s'.out.reverse := congrArg CssReader.out (hm.symm.trans hm')
  exact ⟨List.reverse_injective hout, hcache⟩

theorem css_cut_anywhere_block : ∃ s s', feedAll Flat none .css .start [lit "a\x7bb  c\x7d"] = .ok s ∧
    feedAll Flat none .css .start [lit "a\x7bb ", lit " c\x7d"] = .ok s' ∧
      s.out = s'.out ∧ s.ctx.cache = s'.ctx.cache := by
  obtain ⟨s, hs, -, -, hcut⟩ := exists_cut .css CssCutFree [lit "a\x7bb  c\x7d"] (lit "a\x7bb c\x7d") [] true
    (by decide +kernel)
  obtain ⟨s', hs', -, -, hcut'⟩ := exists_cut .css CssCutFree [lit "a\x7bb ", lit " c\x7d"] (lit "a\x7bb c\x7d") []
    true (by decide +kernel)
  exact ⟨s, s', hs, hs', css_cut_anywhere hs hs' (by decide) (hcut.mpr rfl) (hcut'.mpr rfl)⟩

/-- A quote of a rule block that goes on in the next buffer freezes `pre_char` for the block. -/
theorem css_cut_matters : ¬ ∀ (bufs bufs' : List (List UInt8)) (s s' : Session),
    feedAll Flat none .css .start bufs = .ok s → feedAll Flat none .css .start bufs' = .ok s' →
      bufs.flatten = bufs'.flatten → s.out = s'.out ∧ s.ctx.cache = s'.ctx.cache := by
  intro h
  obtain ⟨s, hs, hout, -⟩ := exists_cut .css CssCutFree [lit "\x7b'a'  b\x7d"] (lit "\x7b'a' b\x7d") [] true
    (by decide +kernel)
  obtain ⟨s', hs', hout', -⟩ := exists_cut .css CssCutFree [lit "\x7b'a", lit "'  b\x7d"] (lit "\x7b'a'  b\x7d") []
    false (by decide +kernel)
  have heq := (h _ _ s s' hs hs' (by decide)).1
  rw [hout, hout'] at heq
  exact absurd heq (by decide)

end NginB.Minify
