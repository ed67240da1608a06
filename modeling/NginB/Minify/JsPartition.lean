import NginB.Minify.Pages

/-! # Scripts that are cut into buffers

The reader of a whole script writes no white space. The minifier moves along with it wherever the
script is cut: `pre_char`, `nochange_pre` and `dstlen` decide about white space only.
-/
namespace NginB.Minify
open NginB.Program Relation Ascii

structure JsReader where
  st : StateStack
  quote : UInt8
  /-- newest first, without white space -/
  out : List UInt8
  deriving DecidableEq

namespace JsReader
variable (m : JsReader)

def start : JsReader := ⟨⟨.text, []⟩, 0, []⟩

@[simp] def write (bytes : List UInt8) (st : StateStack) : JsReader :=
  { m with st := st, out := solid bytes.reverse ++ m.out }

abbrev Move := Option (JsReader × List UInt8)

def text (b : UInt8) (t : List UInt8) : Move :=
  if b = slash then
    match t with
    | [] => none
    | c :: t' =>
      if c = star then some (m.write [] (m.st.push .jsComment), t')
      else if c = slash then some (m.write [] (m.st.push .jsCommentLine), t')
      else some (m.write [b, c] m.st, t')
  else if b = dquote ∨ b = squote ∨ b = lbracket then
    some ({ m.write [b] (m.st.push .jsQuote) with quote := if b = lbracket then rbracket else b }, t)
  else some (m.write [b] m.st, t)

def quoted (b : UInt8) (t : List UInt8) : Move :=
  if b = backslash then
    match t with
    | [] => none
    | c :: t' => some (m.write [b, c] m.st, t')
  else if m.quote = b then some (m.write [b] m.st.pop, t)
  else some (m.write [b] m.st, t)

def comment (b : UInt8) (t : List UInt8) : Move :=
  if b = star then
    match t with
    | [] => none
    | c :: t' => if c = slash then some (m.write [] m.st.pop, t') else some (m, t)
  else some (m, t)

def commentLine (b : UInt8) (t : List UInt8) : Move :=
  if b = lf then some (m.write [] m.st.pop, t) else some (m, t)

@[simp] def step : List UInt8 → Move
  | [] => none
  | b :: t =>
    match m.st.top with
    | .text => m.text b t
    | .jsQuote => m.quoted b t
    | .jsComment => m.comment b t
    | .jsCommentLine => m.commentLine b t
    | _ => none

end JsReader

@[simp] def Ctx.jsReader (x : Ctx) (out : List UInt8) : JsReader := ⟨x.state, x.quoteChar, solid out⟩

@[simp] theorem ended_jsReader (nxt : Next) (r : Routine) (d : ℕ) (out w : List UInt8) (x : Ctx) :
    (nxt.ended r d out x).jsReader w = x.jsReader w := by
  obtain ⟨p, q, he⟩ := nxt.ended_eq r d out x
  rw [he]
  rfl

section Rules
variable {x y : Ctx} {r : Routine} {u fut : List UInt8} {es : List Ev} {nxt : Next} {d : ℕ}
  {out out' : List UInt8}

theorem JsRule.reads (h : JsRule d x r u es y nxt) (hy : y.cache = [])
    (hout : out' = (emitted (Ev.items x es u)).reverse ++ out) :
    ReflTransGen (Moves JsReader.step) (x.jsReader out, u ++ fut)
      (y.jsReader out', u.drop (Ev.takes es) ++ fut) := by
  subst hout
  cases h
  case commentClose | commentStar | commentByte =>
    apply ReflTransGen.single
    simp [JsReader.comment, *]
  case lineEnd | lineByte =>
    apply ReflTransGen.single
    simp [JsReader.commentLine, solid, *]
  case commentLeave | quoteLeave | callComment | callQuote => simpa using .refl
  case quoteEscape hs =>
    apply ReflTransGen.single
    simp [JsReader.quoted, hs, solid, List.filter_cons]
    split <;> rfl
  case quoteClose hs hq =>
    apply ReflTransGen.single
    simp [JsReader.quoted, hs, hq, solid, List.filter_cons]
    split <;> rfl
  case quoteByte hs hb =>
    apply ReflTransGen.single
    simp [JsReader.quoted, hs, hb, Ne.symm hb.2, solid, List.filter_cons]
    split <;> rfl
  -- white space is read without being written, wherever it is dropped
  case textBlank hs hb _ =>
    apply ReflTransGen.single
    rcases hb with rfl | rfl <;> simp [JsReader.text, hs, solid]
  case textBreakDrop hs _ | textReturn hs =>
    apply ReflTransGen.single
    simp [JsReader.text, hs, solid]
  case textBreak hs _ =>
    apply ReflTransGen.single
    simp [JsReader.text, hs, solid]
  case textComment hs | textLine hs =>
    apply ReflTransGen.single
    simp [JsReader.text, hs]
  case textSlash hs hb =>
    apply ReflTransGen.single
    simp [JsReader.text, hs, hb, solid, List.filter_cons]
    split <;> rfl
  case textQuote hs hb =>
    apply ReflTransGen.single
    rcases hb with rfl | rfl | rfl <;> simp [JsReader.text, hs, solid]
  case textByte hs hb hq _ =>
    apply ReflTransGen.single
    simp [JsReader.text, hs, hb, hq, solid, List.filter_cons]
    split <;> rfl
  all_goals simp at hy

/-- Where bytes are held back, the reader waits too. -/
theorem JsRule.stuck (h : JsRule d x r u es y nxt) (hc : x.cache = []) (hy : y.cache ≠ []) :
    (x.jsReader out).step u = none := by
  cases h
  case commentHold hs => simp [JsReader.comment, hs]
  case quoteHold hs => simp [JsReader.quoted, hs]
  case textHold hs => simp [JsReader.text, hs]
  all_goals exact absurd hc hy

theorem JsRule.ne_nil (h : JsRule d x r u es y nxt) (hes : es ≠ []) : u ≠ [] := by
  cases h <;> simp_all

end Rules

theorem jsAlong : Along jsMachine JsReader.step JsReader.start (fun _ _ _ _ _ _ => True)
    (fun _ x _ _ out m => m = x.jsReader out) where
  start rest := rfl
  next := by
    rintro x d rest out m rfl
    rfl
  turn := by
    rintro x r u es y nxt k k' r' d d' out out' fut m hrule hf hy hgo hk - rfl hd hout hd'
    have hrule' : JsRule d x r u es y nxt := hrule
    exact ⟨_, hrule'.reads hy hout, (ended_jsReader _ _ _ _ _ _).symm⟩
  hold := by
    rintro x r u a y d out fut m hrule hf hc hy rfl hd
    have hrule' : JsRule d x r u (Ev.holds a u) y .again := hrule
    have hne : y.cache ≠ [] := by
      rw [hy.cache]
      exact hrule'.ne_nil (by simp [Ev.holds])
    refine ⟨hrule'.stuck hc hne, ?_⟩
    rw [ended_jsReader]
    cases hy <;> rfl
  done := by
    rintro x r r' k d rest out m rfl hk hd
    exact (ended_jsReader _ _ _ _ _ _).symm

/-- Wherever a script is cut, the minifier ends in the same state, with the same bytes held back,
and has written the same up to white space. -/
theorem js_cut_anywhere {cap cap' : Option ℕ} {bufs bufs' : List (List UInt8)} {s s' : Session}
    (h : feedAll Flat cap .js .start bufs = .ok s) (h' : feedAll Flat cap' .js .start bufs' = .ok s')
    (hpage : bufs.flatten = bufs'.flatten) :
    s.ctx.state = s'.ctx.state ∧ (s.ctx.state.top = .jsQuote → s.ctx.quoteChar = s'.ctx.quoteChar) ∧
      s.ctx.cache = s'.ctx.cache ∧ solid s.out = solid s'.out := by
  obtain ⟨hcache, m, d, d', hm, hm'⟩ := feedAll_reads_same .js jsAlong (fun _ => rfl) h h' hpage
    (cutRun_true _ _) (cutRun_true _ _)
  have hreader := hm.symm.trans hm'
  have hout : solid s.out.reverse = solid s'.out.reverse := congrArg JsReader.out hreader
  rw [solid_reverse, solid_reverse] at hout
  exact ⟨congrArg JsReader.st hreader, fun _ => congrArg JsReader.quote hreader, hcache,
    List.reverse_injective hout⟩

theorem js_cut_anywhere_slash : ∃ s s', feedAll Flat none .js .start [lit "a /b/ c"] = .ok s ∧
    feedAll Flat none .js .start [lit "a ", [], lit "/", lit "b/ c"] = .ok s' ∧
      s.ctx.state = s'.ctx.state ∧ s.ctx.cache = s'.ctx.cache ∧ solid s.out = solid s'.out := by
  obtain ⟨s, hs, -⟩ := exists_cut .js (fun _ _ _ _ _ _ => True) [lit "a /b/ c"] (lit "a /b/ c") [] true
    (by decide +kernel)
  obtain ⟨s', hs', -⟩ := exists_cut .js (fun _ _ _ _ _ _ => True) [lit "a ", [], lit "/", lit "b/ c"]
    (lit "a /b/ c") [] true (by decide +kernel)
  obtain ⟨hst, -, hcache, hout⟩ := js_cut_anywhere hs hs' (by decide)
  exact ⟨s, s', hs, hs', hst, hcache, hout⟩

end NginB.Minify
