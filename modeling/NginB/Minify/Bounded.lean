import NginB.Minify.InPlace
import NginB.Minify.Reach

/-! # Tag-name caches of a fixed length

A minifier whose tag-name caches hold `n` bytes goes with the unbounded one until the
first write at an index from `n` on, where it stops.
-/
namespace NginB.Minify
open NginB.Program

/-- Every write to a tag-name cache lies within the first `n` bytes. -/
def WritesBelow (n : ℕ) (trace : List Item) : Prop := ∀ i, Item.tagWrite i ∈ trace → i < n

theorem WritesBelow.cons {n : ℕ} {trace : List Item} {i : Item} (h : WritesBelow n trace)
    (hi : ∀ k, i = .tagWrite k → k < n) : WritesBelow n (i :: trace) := by
  intro k hmem
  rcases List.mem_cons.mp hmem with he | hmem
  · exact hi k he.symm
  · exact h k hmem

theorem WritesBelow.tail {n : ℕ} {trace : List Item} {i : Item} (h : WritesBelow n (i :: trace)) :
    WritesBelow n trace := fun k hmem => h k (List.mem_cons_of_mem i hmem)

section Primitives
variable {B : Type} (n : ℕ)

def boundTerms (B : Type) (n : ℕ) : Terms (Conf B) (Conf B) Fault where
  rel s t := s = t ∧ WritesBelow n t.trace
  excess e := e.isOverflow = true
  lost t := ¬ WritesBelow n t.trace

theorem boundTerms_read {α : Type} (f : Conf B → α) :
    Agree (boundTerms B n) (do return f (← get) : Prog (Conf B) Fault α) (do return f (← get)) :=
  agree_read fun _ _ h => congrArg f h.1

theorem boundTerms_modify {f : Conf B → Conf B}
    (hf : ∀ c, ∃ l : List Item, (f c).trace = l ++ c.trace ∧ ∀ k, Item.tagWrite k ∉ l) :
    Agree (boundTerms B n) (modify f : Prog (Conf B) Fault PUnit) (modify f) := by
  refine agree_modify (fun s t h => ⟨congrArg f h.1, ?_⟩) fun t hl h => hl ?_
  · obtain ⟨l, he, hl⟩ := hf t
    intro k hmem
    rw [he] at hmem
    rcases List.mem_append.mp hmem with hmem | hmem
    · exact absurd hmem (hl k)
    · exact h.2 k hmem
  · obtain ⟨l, he, -⟩ := hf t
    intro k hmem
    exact h k (by rw [he]; exact List.mem_append_right l hmem)

theorem boundTerms_modifyIf {p : Conf B → Prop} [DecidablePred p] {e : Fault} {f : Conf B → Conf B}
    (hf : ∀ c, ∃ l : List Item, (f c).trace = l ++ c.trace ∧ ∀ k, Item.tagWrite k ∉ l) :
    Agree (boundTerms B n) (modifyIf p e f) (modifyIf p e f) := by
  refine agree_modifyIf (fun s t h => by rw [h.1]) (fun s t h _ => ⟨congrArg f h.1, ?_⟩)
    fun t hl h => hl ?_
  · obtain ⟨l, he, hl⟩ := hf t
    intro k hmem
    rw [he] at hmem
    rcases List.mem_append.mp hmem with hmem | hmem
    · exact absurd hmem (hl k)
    · exact h.2 k hmem
  · obtain ⟨l, he, -⟩ := hf t
    intro k hmem
    exact h k (by rw [he]; exact List.mem_append_right l hmem)

theorem boundTerms_readIf {α : Type} {p : Conf B → Prop} [DecidablePred p] {e : Fault}
    (f : Conf B → α) : Agree (boundTerms B n) (readIf p e f) (readIf p e f) :=
  agree_readIf (fun s t h => by rw [h.1]) fun s t h _ => by rw [h.1]

variable [Buffer B]

/-- The primitives with caches of `n` bytes and with unbounded caches. -/
theorem PrimAgree.ofBound : PrimAgree (boundTerms B n) (some n) none where
  getCtx := boundTerms_read n _
  count := boundTerms_read n _
  dstlen := boundTerms_read n _
  rposAt k := boundTerms_readIf n _
  rposIs a := boundTerms_readIf n _
  literalAt a i := boundTerms_readIf n _
  visit r := boundTerms_modify n fun c => ⟨[.turn r c.ctx (unread c.buf) (Buffer.dstlen c.buf)], rfl,
    by simp⟩
  cacheCall a := boundTerms_modify n fun c => ⟨[.cacheCall a c.ctx.cache.length (unread c.buf)], rfl,
    by simp⟩
  incRpos := boundTerms_modifyIf n fun c => ⟨[.skip c.ctx.state.top (Buffer.rposAt c.buf 0)], rfl,
    by simp⟩
  copyChar a := boundTerms_modifyIf n fun c => ⟨[.emit c.ctx.state.top (Buffer.rposAt c.buf 0) a], rfl,
    by simp⟩
  refreshPre := boundTerms_modify n fun c => ⟨[], by
    unfold Conf.refreshPre
    split
    · rfl
    · split
      · rfl
      · split <;> rfl, by simp⟩
  modifyCtx f := boundTerms_modify n fun c => ⟨[], rfl, by simp⟩
  modifyCtxIf e f := boundTerms_modifyIf n fun c => ⟨[], rfl, by simp⟩
  setStack f := boundTerms_modify n fun c => ⟨[.stack (f c.ctx.state)], rfl, by simp⟩
  setStackIf e f := boundTerms_modifyIf n fun c => ⟨[.stack (f c.ctx.state)], rfl, by simp⟩
  tagWrite i f hover := by
    refine agree_modifyIf_excess hover (fun _ => rfl) (fun s t h hi => ⟨congrArg _ h.1, ?_⟩)
      (fun s t h hi hw => hi ?_) fun t hl h => hl h.tail
    · refine h.2.cons fun k hk => ?_
      cases hk
      simpa [inRange] using hi
    · have hlt := hw i List.mem_cons_self
      simpa [inRange] using hlt

/-- A bounded minifier goes with the unbounded one or stops at a write out of range. -/
theorem stripBuffer_bounded (fuel : ℕ) (type : FileType) (c : Conf B) (hc : WritesBelow n c.trace) :
    ResultAgree (boundTerms B n) ((stripBuffer (some n) fuel type).run c)
      ((stripBuffer none fuel type).run c) :=
  ((PrimAgree.ofBound n).stripBuffer fuel type).run c c ⟨rfl, hc⟩

theorem stripBuffer_bounded_ok {fuel : ℕ} {type : FileType} {c t : Conf B}
    (hc : WritesBelow n c.trace) (ht : (stripBuffer none fuel type).run c = .ok ((), t)) :
    WritesBelow n t.trace ∧ (stripBuffer (some n) fuel type).run c = .ok ((), t) ∨
      ¬ WritesBelow n t.trace ∧ ∃ e, e.isOverflow = true ∧
        (stripBuffer (some n) fuel type).run c = .error e := by
  have hagree := stripBuffer_bounded n fuel type c hc
  rw [ht] at hagree
  rcases hs : (stripBuffer (some n) fuel type).run c with e | ⟨⟨⟩, s⟩
  · rw [hs] at hagree
    exact .inr ⟨hagree.2, e, hagree.1, rfl⟩
  · rw [hs] at hagree
    obtain ⟨-, rfl, hw⟩ := hagree
    exact .inl ⟨hw, rfl⟩

end Primitives

section Sessions
variable {M : Machine} {bufs : List (List UInt8)} {c : Conf Stream} (n : ℕ)

theorem Conf.HeldLast.writesBelow (h : c.HeldLast) :
    WritesBelow n c.trace ↔ WritesBelow n c.settled := by
  obtain ⟨st, he⟩ := h.settled
  constructor
  · intro hw k hmem
    exact hw k (by rw [he]; exact List.mem_append_right _ hmem)
  · intro hw k hmem
    rw [he] at hmem
    rcases List.mem_append.mp hmem with hmem | hmem
    · simp at hmem
    · exact hw k hmem

/-- A bounded response goes with the unbounded one or stops at a write out of range. -/
theorem feedAll_bounded (type : FileType) (bufs : List (List UInt8)) {s : Session}
    (hs : feedAll Stream none type .start bufs = .ok s) :
    WritesBelow n s.trace ∧ feedAll Stream (some n) type .start bufs = .ok s ∨
      ¬ WritesBelow n s.trace ∧ ∃ e, e.isOverflow = true ∧
        feedAll Stream (some n) type .start bufs = .error e := by
  induction bufs using List.reverseRecOn generalizing s with
  | nil =>
    cases hs
    exact .inl ⟨fun k hmem => (List.not_mem_nil hmem).elim, rfl⟩
  | append_singleton bufs buf ih =>
    obtain ⟨c, hreach, hnil, hrun⟩ := feedAll_reach type bufs
    obtain ⟨t, ht, htnil, hfeed, hback⟩ := feed_reach type hreach hnil buf
    have hlen : c.session.ctx.cache.length = c.ctx.cache.length := rfl
    have hone : feed Stream none type c.session buf = .ok t.session := by
      rw [feed, hlen, hfeed, ← hback]
      rfl
    rw [feedAll_concat, hrun, except_ok_bind, hone] at hs
    cases hs
    obtain ⟨older, htraced⟩ := ht.traced
    have hsettled : WritesBelow n t.trace ↔ WritesBelow n t.settled := htraced.held.writesBelow n
    have hhand : (c.session.handOver Stream buf).trace = .buffer :: c.settled := rfl
    rcases ih hrun with ⟨hw, hok⟩ | ⟨hw, e, he, herr⟩
    · have hw' : WritesBelow n (c.session.handOver Stream buf).trace := by
        rw [hhand]
        exact WritesBelow.cons hw fun k hk => by cases hk
      rcases stripBuffer_bounded_ok n hw' hfeed with ⟨hwt, hrun'⟩ | ⟨hwt, e, he, hrun'⟩
      · refine .inl ⟨hsettled.mp hwt, ?_⟩
        rw [feedAll_concat, hok, except_ok_bind, feed, hlen, hrun', ← hback]
        rfl
      · refine .inr ⟨fun h => hwt (hsettled.mpr h), e, he, ?_⟩
        rw [feedAll_concat, hok, except_ok_bind, feed, hlen, hrun']
        rfl
    · refine .inr ⟨fun h => ?_, e, he, ?_⟩
      · refine ((PrimAgree.ofBound n).stripBuffer _ type).keeps _ _ _ (fun hw' => hw ?_) hfeed
          (hsettled.mpr h)
        rw [hhand] at hw'
        exact hw'.tail
      · rw [feedAll_concat, herr]
        rfl

end Sessions

end NginB.Minify
