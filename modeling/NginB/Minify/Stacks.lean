import NginB.Minify.Safety

/-! # The state stack

`CTX_PUSH_STATE` and `CTX_POP_STATE` do not check the stack. Every stack that one of them or
`CTX_SET_STATE` leaves behind is one of a few shapes, with states of its file type only.
-/
namespace NginB.Minify
open NginB.Program Relation

namespace FileType

def states : FileType → List MinifyState
  | .html =>
    [.text, .abort, .htmlSkip, .htmlTag, .htmlTagBang, .htmlCdata, .htmlTagname, .htmlTagatt,
      .htmlTagnameEnd, .htmlComment, .htmlCommentIe, .htmlCommentSkip]
  | .css => [.text, .cssComment, .cssQuote, .cssBrace]
  | .js => [.text, .jsComment, .jsCommentLine, .jsQuote]

def maxSspos : FileType → ℕ
  | .html | .css => 2
  | .js => 1

/-- The states that the `*_strip_buffer` function of a file type has a `case` for. -/
def topCases : FileType → List MinifyState
  | .html =>
    [.abort, .text, .htmlSkip, .htmlTag, .htmlTagBang, .htmlCdata, .htmlTagname, .htmlTagatt,
      .htmlTagnameEnd, .htmlComment, .htmlCommentIe, .htmlCommentSkip]
  | .css => [.abort, .text, .cssComment, .cssQuote, .cssBrace]
  | .js => [.abort, .text, .jsComment, .jsCommentLine, .jsQuote]

end FileType

def FileType.stacks : FileType → List StateStack
  | .html => states .html |>.map htmlStack
  | .css => cssStacks
  | .js => jsStates .jsStripBuffer

structure StackFits (type : FileType) (s : StateStack) : Prop where
  sspos : s.sspos ≤ type.maxSspos
  top : s.top ∈ type.states
  below : ∀ st ∈ s.below, st ∈ type.states

theorem stackFits_of_mem {type : FileType} {s : StateStack} (h : s ∈ type.stacks) :
    StackFits type s := by
  have hall : ∀ s ∈ type.stacks,
      s.sspos ≤ type.maxSspos ∧ s.top ∈ type.states ∧ ∀ st ∈ s.below, st ∈ type.states := by
    cases type <;> decide
  obtain ⟨hpos, htop, hbelow⟩ := hall s h
  exact ⟨hpos, htop, hbelow⟩

theorem topCases_of_mem {type : FileType} {st : MinifyState} (h : st ∈ type.states) :
    st ∈ type.topCases := by
  revert h
  revert st
  cases type <;> decide

theorem htmlStack_mem {st : MinifyState} (h : st ∈ FileType.states .html) :
    htmlStack st ∈ FileType.stacks .html :=
  List.mem_map_of_mem h

theorem Ev.stack_mem_items {x : Ctx} {s : StateStack} {es : List Ev} : ∀ {rest : List UInt8},
    Item.stack s ∈ Ev.items x es rest → Ev.stack s ∈ es := by
  induction es with
  | nil => exact fun h => absurd h List.not_mem_nil
  | cons e es ih =>
    intro rest h
    cases e with
    | stack s' =>
      rcases List.mem_cons.mp h with he | h
      · cases he
        exact List.mem_cons_self
      · exact List.mem_cons_of_mem _ (ih h)
    | skip | copy | put | tag | call =>
      rcases List.mem_cons.mp h with he | h
      · cases he
      · exact List.mem_cons_of_mem _ (ih h)

section Rules
variable {x y : Ctx} {r : Routine} {rest : List UInt8} {es : List Ev} {nxt : Next} {d : ℕ}
  {s : StateStack}

theorem stack_notMem_holds (c : List UInt8) : Ev.stack s ∉ Ev.holds c rest := by
  simp [Ev.holds]

theorem HtmlRule.stack_mem (h : HtmlRule x r rest es y nxt) (hs : Ev.stack s ∈ es) :
    s ∈ FileType.stacks .html := by
  have hnamed : ∀ st, st ∈ [MinifyState.htmlSkip, .text] → htmlStack st ∈ FileType.stacks .html := by
    decide
  cases h
  case nameGt =>
    obtain ⟨st, t, hst, he⟩ := x.nameGt_eq
    simp only [he, List.mem_cons, List.not_mem_nil, reduceCtorEq, false_or, or_false,
      Ev.stack.injEq] at hs
    rw [hs]
    exact hnamed st hst
  case attGt =>
    obtain ⟨st, hst, he⟩ := x.attGt_eq
    simp only [he, List.mem_cons, List.not_mem_nil, reduceCtorEq, false_or, or_false,
      Ev.stack.injEq] at hs
    rw [hs]
    exact hnamed st hst
  case endGt =>
    obtain ⟨st, t, u, hst, he⟩ := x.endGt_eq
    have hs' : s = htmlStack st := by
      split at hs <;> simpa [he] using hs
    rw [hs']
    exact hnamed st hst
  case attHold | commentHold | commentHoldIf | ieHold | skipHold | bangHoldDash | bangHoldCdata
    | cdataHold | textHoldBang | textHold | elementHold =>
    exact absurd hs (stack_notMem_holds _)
  case nameBlank | commentIf | commentPlain | commentOther | commentMiss | bangTag | bangDash
    | bangCdata =>
    simp at hs
    rcases hs with rfl | rfl
    · decide
    · decide
  all_goals simp at hs
  all_goals subst hs; decide

theorem CssRule.stack_mem (h : CssRule x r rest es y nxt) (hx : x.state ∈ cssStacks)
    (hs : Ev.stack s ∈ es) : s ∈ FileType.stacks .css := by
  cases h
  case commentHold | quoteHold | braceHold | textHold => exact absurd hs (stack_notMem_holds _)
  case commentClose hst =>
    obtain rfl : s = x.state.pop := by simpa using hs
    exact (cssStacks_pop hx (.inr hst)).1
  case quoteClose hst _ =>
    obtain rfl : s = x.state.pop := by simpa using hs
    exact (cssStacks_pop hx (.inl hst)).1
  case braceClose =>
    obtain rfl : s = ⟨.text, []⟩ := by simpa using hs
    exact List.mem_cons_self
  case braceComment hst =>
    obtain rfl : s = x.state.push .cssComment := by simpa using hs
    exact (cssStacks_push _ hx (.inr ⟨hst, by decide⟩)).1
  case braceQuote hst _ =>
    obtain rfl : s = x.state.push .cssQuote := by simpa using hs
    exact (cssStacks_push _ hx (.inr ⟨hst, by decide⟩)).1
  case textComment hst =>
    obtain rfl : s = x.state.push .cssComment := by simpa using hs
    exact (cssStacks_push _ hx (.inl ⟨hst, by decide⟩)).1
  case textQuote hst _ =>
    obtain rfl : s = x.state.push .cssQuote := by simpa using hs
    exact (cssStacks_push _ hx (.inl ⟨hst, by decide⟩)).1
  case textOpen hst =>
    obtain rfl : s = x.state.push .cssBrace := by simpa using hs
    exact (cssStacks_push _ hx (.inl ⟨hst, by decide⟩)).1
  all_goals simp at hs

theorem JsRule.stack_mem (h : JsRule d x r rest es y nxt) (hs : Ev.stack s ∈ es) :
    s ∈ FileType.stacks .js := by
  cases h
  case commentHold | quoteHold | textHold => exact absurd hs (stack_notMem_holds _)
  all_goals simp at hs
  all_goals subst hs; decide

end Rules

/-- The stack of a context in which a loop may start an iteration. -/
theorem stack_of_fit {type : FileType} {r : Routine} {x : Ctx} {u : List UInt8}
    (h : (machine type).Fit r x u) : x.state ∈ type.stacks := by
  cases type with
  | html =>
    have hfit : HtmlFit r x u := h
    rw [hfit.stack]
    refine htmlStack_mem ?_
    have hall : ∀ r : Routine, ∀ st ∈ htmlStates r, st ∈ FileType.states .html := by
      intro r
      cases r <;> decide
    exact hall r _ hfit.top
  | css => exact cssStates_subset (CssFit.stack h)
  | js =>
    have hall : ∀ r : Routine, ∀ s ∈ jsStates r, s ∈ FileType.stacks .js := by
      intro r
      cases r <;> decide
    exact hall r _ (JsFit.stack h)

theorem rule_stacks {type : FileType} {d : ℕ} {x y : Ctx} {r : Routine} {rest : List UInt8}
    {es : List Ev} {nxt : Next} {s : StateStack} (h : (machine type).rule d x r rest es y nxt)
    (hf : (machine type).Fit r x rest) (hs : Ev.stack s ∈ es) : s ∈ type.stacks := by
  cases type with
  | html => exact HtmlRule.stack_mem h hs
  | css =>
    have hstack : x.state ∈ FileType.stacks .css := stack_of_fit hf
    exact CssRule.stack_mem h hstack hs
  | js => exact JsRule.stack_mem h hs

/-- Every stack operation leaves a stack of the file type. -/
theorem stacks_fit (type : FileType) : TraceInv (machine type) fun v =>
    ∀ s, Item.stack s ∈ v.trace → s ∈ type.stacks where
  start := by simp
  next buf _ h _ := by simpa using h
  turn {v es y nxt k k' r' n tr} hv h hc _ hrule _ _ _ htr s hmem := by
    subst htr
    rcases List.mem_append.mp hmem with hmem | hmem
    · exact rule_stacks hrule (hv.fit hc) (Ev.stack_mem_items (List.mem_reverse.mp hmem))
    · rcases List.mem_cons.mp hmem with he | hmem
      · cases he
      · exact h s hmem
  hold {v y} a hv h hc _ _ s hmem := by
    rcases List.mem_cons.mp hmem with he | hmem
    · cases he
    · rcases List.mem_cons.mp hmem with he | hmem
      · cases he
      · exact h s hmem
  done _ h _ := h

/-- After every stack operation `sspos` is within the bound of the file type, and the stack
holds only states of that type: `minify_state_abort` is one for HTML only. Every iteration of
the buffer loop starts in a state that it has a `case` for. -/
theorem stack_well_formed (cap : Option ℕ) (type : FileType) (bufs : List (List UInt8)) :
    match feedAll Flat cap type .start bufs with
    | .ok s => StackFits type s.ctx.state ∧ (∀ st, .stack st ∈ s.trace → StackFits type st) ∧
        ∀ r x u d, .turn r x u d ∈ s.trace → StackFits type x.state ∧
          (r = (machine type).top → x.state.top ∈ type.topCases)
    | .error e => e.isOverflow = true ∧ cap ≠ none := by
  rcases feedAll_ends cap type bufs with ⟨s, hs⟩ | ⟨n, e, rfl, he, herr⟩
  · rw [hs]
    obtain ⟨c, hreach, -, rfl, -⟩ := feedAll_ok hs
    have hturns := turns_fit.reach hreach
    have hstacks := (stacks_fit type).reach hreach
    refine ⟨stackFits_of_mem (stack_of_fit hreach.good.fit), fun st hst => ?_, fun r x u d hmem => ?_⟩
    · exact stackFits_of_mem (hstacks st hst)
    · have hfits := stackFits_of_mem (stack_of_fit (hturns r x u d hmem).1)
      exact ⟨hfits, fun _ => topCases_of_mem hfits.top⟩
  · rw [herr]
    exact ⟨he, Option.some_ne_none n⟩

end NginB.Minify
