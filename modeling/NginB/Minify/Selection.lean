import NginB.Minify.Safety
import Mathlib.Data.List.Forall2

/-! # The output is a selection of the input

What a minifier has written is taken from what it has read for good, in order and
without repetition, and what it holds back is the end of its input.
-/
namespace NginB.Minify
open NginB.Program Relation Ascii

/-- The trace `tr` of a minifier, oldest item first, reads `read` and selects `out` from it. -/
inductive Selects (type : FileType) : List Item → List UInt8 → List UInt8 → Prop
  | nil : Selects type [] [] []
  | skip {st b tr read out} (h : Selects type tr read out) :
      Selects type (.skip st b :: tr) (b :: read) out
  | copy {st b tr read out} (h : Selects type tr read out) :
      Selects type (.emit st b b :: tr) (b :: read) (b :: out)
  /-- the line feed that ends a `//` comment -/
  | lineEnd {tr read out} (ht : type = .js) (h : Selects type tr read out) :
      Selects type (.emit .jsCommentLine lf space :: tr) (lf :: read) (space :: out)
  | quiet {i tr read out} (hc : i.consumed = []) (h : Selects type tr read out) :
      Selects type (i :: tr) read out

theorem Selects.sublist {type : FileType} {tr : List Item} {read out : List UInt8}
    (h : Selects type tr read out) :
    List.SublistForall₂ (fun c b => c = b ∨ type = .js ∧ b = lf ∧ c = space) out read := by
  induction h with
  | nil => exact .nil
  | skip _ ih => exact ih.cons_right
  | copy _ ih => exact .cons (.inl rfl) ih
  | lineEnd ht _ ih => exact .cons (.inr ⟨ht, rfl, rfl⟩) ih
  | quiet _ _ ih => exact ih

/-- What is written is what was read, but for the end of a `//` comment. -/
def Faithful (type : FileType) : Item → Prop
  | .emit st b c => c = b ∨ type = .js ∧ st = .jsCommentLine ∧ b = lf ∧ c = space
  | _ => True

theorem selects_of_faithful {type : FileType} {tr : List Item} (h : ∀ i ∈ tr, Faithful type i) :
    Selects type tr (consumed tr) (emitted tr) := by
  induction tr with
  | nil => exact .nil
  | cons i tr ih =>
    have htail := ih fun j hj => h j (List.mem_cons_of_mem i hj)
    have hi := h i List.mem_cons_self
    cases i with
    | emit st b c =>
      rcases hi with rfl | ⟨ht, rfl, rfl, rfl⟩
      · exact .copy htail
      · exact .lineEnd ht htail
    | skip st b => exact .skip htail
    | buffer | turn | cacheCall | tagWrite | stack => exact .quiet rfl htail

theorem Ev.items_copied {x : Ctx} {es : List Ev} (hes : ∀ c, Ev.put c ∉ es) : ∀ rest : List UInt8,
    ∀ i ∈ Ev.items x es rest, ∀ st b c, i = .emit st b c → c = b := by
  induction es with
  | nil => exact fun rest i hi => (List.not_mem_nil hi).elim
  | cons e es ih =>
    have htail := ih fun c hc => hes c (List.mem_cons_of_mem e hc)
    intro rest i hi st b c he
    cases e with
    | put a => exact absurd List.mem_cons_self (hes a)
    | skip | copy | tag | call | stack =>
      rcases List.mem_cons.mp hi with rfl | hi
      · cases he
        try rfl
      · exact htail _ i hi st b c he

section Rules
variable {x y : Ctx} {r : Routine} {rest : List UInt8} {es : List Ev} {nxt : Next} {d : ℕ}

theorem HtmlRule.no_put (h : HtmlRule x r rest es y nxt) (c : UInt8) : Ev.put c ∉ es := by
  cases h
  case endGt => split <;> simp
  all_goals simp [Ev.holds]

theorem CssRule.no_put (h : CssRule x r rest es y nxt) (c : UInt8) : Ev.put c ∉ es := by
  cases h <;> simp [Ev.holds]

theorem JsRule.put_or (h : JsRule d x r rest es y nxt) : (∀ c, Ev.put c ∉ es) ∨
    x.state.top = .jsCommentLine ∧ (∃ s, es = [.put space, .stack s]) ∧ ∃ t, rest = lf :: t := by
  cases h
  case lineEnd t hs => exact .inr ⟨by rw [hs], ⟨_, rfl⟩, t, rfl⟩
  all_goals exact .inl (by simp [Ev.holds])

theorem rule_faithful {type : FileType} (h : (machine type).rule d x r rest es y nxt) :
    ∀ i ∈ Ev.items x es rest, Faithful type i := by
  have hcopied : (∀ c, Ev.put c ∉ es) → ∀ i ∈ Ev.items x es rest, Faithful type i := by
    intro hput i hi
    cases i with
    | emit st b c => exact .inl (Ev.items_copied hput rest _ hi st b c rfl)
    | _ => trivial
  cases type with
  | html => exact hcopied (HtmlRule.no_put h)
  | css => exact hcopied (CssRule.no_put h)
  | js =>
    rcases JsRule.put_or h with hput | ⟨hs, ⟨s, rfl⟩, t, rfl⟩
    · exact hcopied hput
    · intro i hi
      rcases List.mem_pair.mp hi with rfl | rfl
      · exact .inr ⟨rfl, hs, rfl, rfl⟩
      · trivial

end Rules

theorem faithful (type : FileType) : TraceInv (machine type) fun v => ∀ i ∈ v.trace, Faithful type i where
  start := by simp
  next buf _ h _ := List.forall_mem_cons.mpr ⟨trivial, h⟩
  turn _ h _ _ hrule _ _ _ htr i hi := by
    subst htr
    rcases List.mem_append.mp hi with hi | hi
    · exact rule_faithful hrule i (List.mem_reverse.mp hi)
    · exact List.forall_mem_cons.mpr ⟨trivial, h⟩ i hi
  hold _ _ h _ _ _ := List.forall_mem_cons.mpr ⟨trivial, List.forall_mem_cons.mpr ⟨trivial, h⟩⟩
  done _ h _ := h

/-- What is held back is the end of the input, and what has been written is selected from
the input before it. -/
theorem no_byte_lost (type : FileType) (bufs : List (List UInt8)) : ∃ s read,
    feedAll Flat none type .start bufs = .ok s ∧ bufs.flatten = read ++ s.ctx.cache ∧
      Selects type s.trace.reverse read s.out ∧
      List.SublistForall₂ (fun c b => c = b ∨ type = .js ∧ b = lf ∧ c = space) s.out read := by
  obtain ⟨c, hreach, hnil, hrun⟩ := feedAll_reach type bufs
  have hsplit := hreach.split
  have hfaithful := (faithful type).reach hreach
  have hselects : Selects type c.settled.reverse (consumed c.settled).reverse (emitted c.settled).reverse := by
    rw [← consumed_reverse, ← emitted_reverse]
    exact selects_of_faithful fun i hi => hfaithful i (List.mem_reverse.mp hi)
  refine ⟨c.session, (consumed c.settled).reverse, by rw [feedAll_flat, hrun], ?_, hselects,
    hselects.sublist⟩
  rw [← hsplit]
  simp only [Conf.pending, hnil, List.append_nil]
  rfl

end NginB.Minify
