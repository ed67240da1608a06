import NginB.Minify.Selection

/-! # Outside comments only blanks are dropped

On an input without the bytes that open a comment, a minifier stays in the states of
its plain text, and there it passes over nothing but spaces, TABs, CRs and LFs.
-/
namespace NginB.Minify
open NginB.Program Relation Ascii

/-- The input does not open a comment, nor, in HTML, any other markup declaration. -/
def CommentFree : FileType → List UInt8 → Prop
  | .html, s => ¬ lit "<!" <:+: s
  | .css, s => ¬ lit "/*" <:+: s
  | .js, s => ¬ lit "/*" <:+: s ∧ ¬ lit "//" <:+: s

theorem CommentFree.of_infix {type : FileType} {s t : List UInt8} (h : CommentFree type s)
    (ht : t <:+: s) : CommentFree type t := by
  cases type with
  | html | css => exact fun hl => h (hl.trans ht)
  | js => exact ⟨fun hl => h.1 (hl.trans ht), fun hl => h.2 (hl.trans ht)⟩

/-- The states outside comments, which are also those that a comment-free input reaches. -/
def plainStates : FileType → List MinifyState
  | .html => [.text, .htmlSkip, .htmlTag, .htmlTagname, .htmlTagatt, .htmlTagnameEnd]
  | .css => [.text, .cssQuote, .cssBrace]
  | .js => [.text, .jsQuote]

def KeepsText : Item → Prop
  | .skip _ b => isBlank b = true
  | .emit _ b c => c = b
  | _ => True

section Rules
variable {x y : Ctx} {r : Routine} {rest : List UInt8} {es : List Ev} {nxt : Next} {d : ℕ}

theorem HtmlRule.plain (h : HtmlRule x r rest es y nxt) (hx : x.state.top ∈ plainStates .html)
    (hr : CommentFree .html rest) (hy : y.cache = []) :
    y.state.top ∈ plainStates .html ∧ ∀ i ∈ Ev.items x es rest, KeepsText i := by
  cases h
  case nameGt =>
    obtain ⟨st, t, hst, he⟩ := x.nameGt_eq
    rcases List.mem_pair.mp hst with rfl | rfl <;> simp [he, plainStates, KeepsText]
  case nameBlank =>
    obtain ⟨t, he⟩ := x.nameBlank_eq
    simp [he, plainStates, KeepsText]
  case attGt =>
    obtain ⟨st, hst, he⟩ := x.attGt_eq
    rcases List.mem_pair.mp hst with rfl | rfl <;> simp [he, plainStates, KeepsText]
  case endGt =>
    obtain ⟨st, t, u, hst, he⟩ := x.endGt_eq
    rcases List.mem_pair.mp hst with rfl | rfl <;> split <;> simp [he, plainStates, KeepsText]
  case textBreak hs hb =>
    rcases hb with rfl | rfl | rfl <;> simp [hs, plainStates, KeepsText, isBlank]
  case textBang b t hs => exact absurd ⟨[], b :: t, rfl⟩ hr
  all_goals simp_all [plainStates, KeepsText, isBlank]

theorem CssRule.plain (h : CssRule x r rest es y nxt) (hx : x.state.top ∈ plainStates .css)
    (hs : x.state ∈ cssStacks) (hr : CommentFree .css rest) (hy : y.cache = []) :
    y.state.top ∈ plainStates .css ∧ ∀ i ∈ Ev.items x es rest, KeepsText i := by
  cases h
  case quoteClose hq hc =>
    have hpop := (cssStacks_pop hs (.inl hq)).2.2
    refine ⟨?_, by simp [KeepsText]⟩
    rcases List.mem_pair.mp hpop with hp | hp <;> simp [hp, plainStates]
  case braceComment t hb => exact absurd ⟨[], t, rfl⟩ hr
  case textComment t ht => exact absurd ⟨[], t, rfl⟩ hr
  case braceBlank ht hb =>
    rcases hb with ⟨rfl, -⟩ | rfl | rfl | rfl <;> simp [ht, plainStates, KeepsText, isBlank]
  case textBlankDrop ht hb hp =>
    rcases hb with rfl | rfl <;> simp [ht, plainStates, KeepsText, isBlank]
  case textBreak ht hb => rcases hb with rfl | rfl <;> simp [ht, plainStates, KeepsText, isBlank]
  all_goals simp_all [plainStates, KeepsText]

theorem JsRule.plain (h : JsRule d x r rest es y nxt) (hx : x.state.top ∈ plainStates .js)
    (hr : CommentFree .js rest) (hy : y.cache = []) :
    y.state.top ∈ plainStates .js ∧ ∀ i ∈ Ev.items x es rest, KeepsText i := by
  cases h
  case textComment t ht => exact absurd ⟨[], t, rfl⟩ hr.1
  case textLine t ht => exact absurd ⟨[], t, rfl⟩ hr.2
  case textBlank ht hb hp => rcases hb with rfl | rfl <;> simp [ht, plainStates, KeepsText, isBlank]
  case callComment hs => rcases List.mem_pair.mp hs with hs | hs <;> simp [hs, plainStates] at hx
  all_goals simp_all [plainStates, KeepsText, isBlank]

end Rules

/-- On a comment-free input every byte is copied or is a blank passed over. -/
theorem keepsText (type : FileType) : TraceInv (machine type) fun v => CommentFree type v.input →
    v.ctx.state.top ∈ plainStates type ∧ ∀ i ∈ v.trace, KeepsText i where
  start _ := by cases type <;> exact ⟨by decide, by simp⟩
  next buf _ h _ hfree := by
    obtain ⟨hs, hi⟩ := h (hfree.of_infix (List.infix_append' [] _ buf))
    exact ⟨hs, List.forall_mem_cons.mpr ⟨trivial, hi⟩⟩
  turn {v es y nxt k k' r' n tr} hv h hc hy hrule hgo _ _ htr hfree := by
    subst htr
    obtain ⟨hs, hi⟩ := h hfree
    have hpending : CommentFree type v.pending :=
      hfree.of_infix ⟨_, [], by rw [List.append_nil]; exact hv.split⟩
    have hplain : y.state.top ∈ plainStates type ∧
        ∀ i ∈ Ev.items v.ctx es v.pending, KeepsText i := by
      cases type with
      | html => exact HtmlRule.plain hrule hs hpending hy
      | css =>
        have hfit : CssFit _ _ _ := hv.fit hc
        exact CssRule.plain hrule hs (cssStates_subset hfit.stack) hpending hy
      | js => exact JsRule.plain hrule hs hpending hy
    refine ⟨by rw [Next.ended_state]; exact hplain.1, fun i hmem => ?_⟩
    rcases List.mem_append.mp hmem with hmem | hmem
    · exact hplain.2 i (List.mem_reverse.mp hmem)
    · exact List.forall_mem_cons.mpr ⟨trivial, hi⟩ i hmem
  hold {v y} a _ h _ _ hy hfree := by
    obtain ⟨hs, hi⟩ := h hfree
    refine ⟨?_, List.forall_mem_cons.mpr ⟨trivial, List.forall_mem_cons.mpr ⟨trivial, hi⟩⟩⟩
    rw [Next.ended_state, hy.state]
    exact hs
  done _ h _ hfree := by
    rw [Next.ended_state]
    exact h hfree

/-- A trace that keeps the text consumes and writes the same bytes, up to blanks. -/
theorem filter_eq_of_keepsText {tr : List Item} (h : ∀ i ∈ tr, KeepsText i) :
    (consumed tr).filter (fun b => !isBlank b) = (emitted tr).filter fun b => !isBlank b := by
  induction tr with
  | nil => rfl
  | cons i tr ih =>
    have htail := ih fun j hj => h j (List.mem_cons_of_mem i hj)
    have hi := h i List.mem_cons_self
    rw [consumed_cons, emitted_cons, List.filter_append, List.filter_append, htail]
    congr 1
    cases i with
    | skip st b =>
      have hb : isBlank b = true := hi
      simp [hb]
    | emit st b c =>
      have hb : c = b := hi
      rw [hb]
      rfl
    | buffer | turn | cacheCall | tagWrite | stack => rfl

/-- On a comment-free input the minifiers delete nothing but blanks, wherever it is cut. -/
theorem only_blanks_dropped (type : FileType) (bufs : List (List UInt8))
    (hfree : CommentFree type bufs.flatten) : ∃ s, feedAll Flat none type .start bufs = .ok s ∧
      (s.out ++ s.ctx.cache).filter (fun b => !isBlank b) =
        bufs.flatten.filter fun b => !isBlank b := by
  obtain ⟨c, hreach, hnil, hrun⟩ := feedAll_reach type bufs
  obtain ⟨-, hkeeps⟩ := (keepsText type).reach hreach hfree
  have hsplit : (consumed c.settled).reverse ++ c.ctx.cache = bufs.flatten := by
    rw [← hreach.split]
    simp only [Conf.pending, hnil, List.append_nil]
  have hfilter : (consumed c.settled).filter (fun b => !isBlank b) =
      (emitted c.settled).filter fun b => !isBlank b := filter_eq_of_keepsText hkeeps
  refine ⟨c.session, by rw [feedAll_flat, hrun], ?_⟩
  rw [← hsplit, List.filter_append, List.filter_append, List.filter_reverse, hfilter,
    ← List.filter_reverse]
  rfl

theorem only_blanks_dropped_css : CommentFree .css [lit "a  ", lit " b"].flatten ∧
    ∃ s, feedAll Flat none .css .start [lit "a  ", lit " b"] = .ok s ∧
      (s.out ++ s.ctx.cache).filter (fun b => !isBlank b) =
        [lit "a  ", lit " b"].flatten.filter fun b => !isBlank b := by
  have hfree : ¬ lit "/*" <:+: [lit "a  ", lit " b"].flatten := by decide
  exact ⟨hfree, only_blanks_dropped .css _ hfree⟩

end NginB.Minify
