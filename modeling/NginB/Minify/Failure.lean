import NginB.Minify.CommentParts
import NginB.Minify.Nonempty
import NginB.Program.Interleave

/-! # When there is no memory

Where `ngx_palloc` fails, the rest of the chain overtakes the bytes held back, and the minifier does
not see it. What a response forwards is the page in its order while nothing but blanks does so.
-/
namespace NginB.Minify
open NginB.Program Ascii

/-- Nothing but blanks overtakes bytes that are held back, and a special buffer does not cost any. -/
def Visit.Orderly : Visit → Prop
  | .read x false _ _ => x.cache = []
  | .read _ true _ _ => True
  | .failed _ _ raw => ∀ b ∈ raw, isBlank b = true

/-- A comment of a file of this type, from its beginning to its first end. -/
inductive IsComment : Option FileType → List UInt8 → Prop
  | page {w} (hw : EndsFirst (lit "-->") w) : IsComment (some .html) (comment w)
  | block {type w} (ht : type ∈ [some FileType.css, some .js]) (hw : EndsFirst (lit "*/") w) :
      IsComment type (lit "/*" ++ (w ++ lit "*/"))

inductive Unended : Option FileType → List UInt8 → Prop
  | page {w} (hw : ¬ lit "-->" <:+: w) : Unended (some .html) (lit "<!--" ++ w)
  | block {type w} (ht : type ∈ [some FileType.css, some .js]) (hw : ¬ lit "*/" <:+: w) :
      Unended type (lit "/*" ++ w)
  | line {w} (hw : lf ∉ w) : Unended (some .js) (lit "//" ++ w)

/-- Without some of its comments the file is `text`; the LF that ends a line comment stays. -/
inductive Uncommented (type : Option FileType) : List UInt8 → List UInt8 → Prop
  | nil : Uncommented type [] []
  | byte {file text} (b : UInt8) (h : Uncommented type file text) : Uncommented type (file ++ [b]) (text ++ [b])
  | comment {file text c} (hc : IsComment type c) (h : Uncommented type file text) :
      Uncommented type (file ++ c) text
  | line {file text w} (ht : type = some .js) (hw : lf ∉ w) (h : Uncommented type file text) :
      Uncommented type (file ++ (lit "//" ++ w ++ [lf])) (text ++ [lf])

/-- The same for the beginning of a file, which may end inside a comment. -/
inductive CutOut (type : Option FileType) : List UInt8 → List UInt8 → Prop
  | whole {file text} (h : Uncommented type file text) : CutOut type file text
  | unended {file text c} (hc : Unended type c) (h : Uncommented type file text) : CutOut type (file ++ c) text

section Texts
variable {type : FileType} {tr : List Item} {x : Ctx} {ahead : List UInt8}

theorem blockPlain_types {st : MinifyState} (h : st ∈ blockPlain type) :
    some type ∈ [some FileType.css, some .js] := by
  cases type with
  | html => exact absurd h List.not_mem_nil
  | css | js => decide

/-- The bytes that have been read are those that have been written, and comments and blanks. -/
theorem Parts.uncommented (h : Parts type tr) : ∃ text, Uncommented (some type) (consumed tr).reverse text ∧
    solid text = solid (emitted tr).reverse := by
  induction h with
  | nil => exact ⟨[], .nil, rfl⟩
  | @item i tr hi h ih =>
    obtain ⟨text, hread, htext⟩ := ih
    cases i with
    | skip st b =>
      have hnil : solid [b] = [] := solid_eq_nil (by simpa using hi.2)
      refine ⟨text ++ [b], by simpa using hread.byte b, ?_⟩
      rw [solid_append, htext, hnil, List.append_nil]
      rfl
    | emit st b c =>
      have hsame : solid [b] = solid [c] := by
        rcases hi with rfl | ⟨hb, hc⟩
        · rfl
        · rw [solid_eq_nil (by simpa using hb), solid_eq_nil (by simpa using hc)]
      refine ⟨text ++ [b], by simpa using hread.byte b, ?_⟩
      rw [solid_append, htext, hsame, ← solid_append]
      simp
    | buffer | turn | cacheCall | tagWrite | stack => exact ⟨text, hread, htext⟩
  | comment hm h ih =>
    obtain ⟨text, hread, htext⟩ := ih
    refine ⟨text, ?_, ?_⟩
    · rw [consumed_append, List.reverse_append]
      cases hm with
      | page hw hm =>
        rw [hm.read]
        exact .comment (.page hw) hread
      | block hst hw hm =>
        rw [Passes.read hm.read]
        exact .comment (.block (blockPlain_types hst) hw) hread
    · rw [emitted_append, hm.silent, List.nil_append, htext]
  | line ht hw hm h ih =>
    obtain ⟨text, hread, htext⟩ := ih
    have hlf : solid [lf] = solid [space] := rfl
    refine ⟨text ++ [lf], ?_, ?_⟩
    · have hline := hread.line (congrArg some ht) hw
      rw [← hm.read, ← List.append_assoc, ← List.reverse_append, ← consumed_append] at hline
      simpa using hline
    · rw [solid_append, htext, hlf, ← solid_append, emitted_cons, emitted_append, hm.silent]
      simp

theorem Inside.unended {m : List Item} (h : Inside type x ahead m) :
    Unended (some type) (consumed m).reverse := by
  cases h with
  | page _ hw hm =>
    rw [hm.read]
    exact .page (hw.not_isInfix (by decide))
  | block hplain _ hw hm =>
    rw [hm.read]
    exact .block (blockPlain_types hplain) (hw.not_isInfix (by decide))
  | line _ hw hm =>
    rw [hm.read]
    exact .line hw

theorem PartsStage.cutOut (h : PartsStage type x ahead tr) : ∃ text,
    CutOut (some type) (consumed tr).reverse text ∧ solid text = solid (emitted tr).reverse := by
  cases h with
  | outside _ h =>
    obtain ⟨text, hread, htext⟩ := h.uncommented
    exact ⟨text, .whole hread, htext⟩
  | inside htr hm h =>
    obtain ⟨text, hread, htext⟩ := h.uncommented
    refine ⟨text, ?_, ?_⟩
    · rw [htr, consumed_append, List.reverse_append]
      exact .unended hm.unended hread
    · rw [htr, emitted_append, hm.silent, List.nil_append, htext]

end Texts

theorem Uncommented.refl (type : Option FileType) (file : List UInt8) : Uncommented type file file := by
  induction file using List.reverseRecOn with
  | nil => exact .nil
  | append_singleton file b ih => exact ih.byte b

/-- The bytes `out` that are forwarded, followed by those held back, are the page in its order, but for blanks
and for comments that are cut out. -/
def PageKept (type : Option FileType) (page out cache : List UInt8) : Prop :=
  ∃ blanks read text, (∀ b ∈ blanks, isBlank b = true) ∧ Interleave blanks (read ++ cache) page ∧
    CutOut type read text ∧ solid text = solid out

/-- What a stage has come to with the bytes `page`, of which it has forwarded `out`. -/
structure Stage.Keeps (cap : Option ℕ) (type : FileType) (s : Stage) (page out : List UInt8) : Prop where
  resumes : s.session.ctx.Resumes type
  within : Within cap s.session.trace
  parts : ∀ fut, SeesEnds type ((consumed s.session.trace).reverse ++ (s.session.ctx.cache ++ fut))
    s.session.trace → PartsStage type s.session.ctx (s.session.ctx.cache ++ fut) s.session.trace
  page : ∃ blanks, (∀ b ∈ blanks, isBlank b = true) ∧
    Interleave blanks ((consumed s.session.trace).reverse ++ s.session.ctx.cache) page
  out : solid out = solid (emitted s.session.trace).reverse

section Run
variable {cap : Option ℕ} {palloc : ℕ → Bool} {type : FileType} {r : Request} {s t : Stage}
  {u v : Session} {a b : Arrival} {as outs : List Arrival} {page out : List UInt8}

theorem Stage.keeps_start (cap : Option ℕ) (type : FileType) : Stage.start.Keeps cap type [] [] where
  resumes := Ctx.resumes_zero type
  within _ _ _ hmem := (List.not_mem_nil hmem).elim
  parts _ _ := .outside (by decide) .nil
  page := ⟨[], by simp, .nil⟩
  out := rfl

/-- A session reads a buffer of data by the rules. -/
theorem Session.read_data {ro : Bool} {l : List UInt8} (hu : u.ctx.Resumes type)
    (hw : Within cap u.trace) (h : u.read cap type (.data ro l) = .ok (v, b)) : ∃ t : Conf Stream,
      Stripped type u.ctx u.trace l t ∧ Within cap t.settled ∧ v.ctx = t.ctx ∧ v.trace = t.settled ∧
        b.bytes = t.buf.out.reverse := by
  rw [Session.read] at h
  rcases hfeed : feed Stream cap type u l with e | w
  · rw [hfeed] at h
    cases h
  · rw [hfeed] at h
    cases h
    obtain ⟨t, hstripped, hwithin, rfl⟩ := feed_stripped hu hw hfeed
    exact ⟨t, hstripped, hwithin, rfl, rfl, List.drop_left⟩

theorem Stage.Keeps.read (h : s.Keeps cap type page out)
    (hread : s.session.read cap type a = .ok (u, b)) (ha : a.inMemory = false → s.session.ctx.cache = [])
    (n : ℕ) (visits : List Visit) :
    Stage.Keeps cap type ⟨u, n, visits⟩ (page ++ a.bytes) (out ++ b.bytes) := by
  obtain ⟨blanks, hblank, hpage⟩ := h.page
  cases a with
  | data ro l =>
    obtain ⟨t, hstripped, hwithin, hctx, htrace, hbytes⟩ := Session.read_data h.resumes h.within hread
    refine ⟨?_, ?_, ?_, ⟨blanks, hblank, ?_⟩, ?_⟩
    · simp only [hctx]
      exact hstripped.resumes
    · simp only [htrace]
      exact hwithin
    · simp only [hctx, htrace]
      refine hstripped.keeps (partsInv type) fun fut hends => ?_
      simp only [consumed_cons, List.append_assoc] at hends ⊢
      exact ((h.parts (l ++ fut) (hends.of_cons (by simp))).quiet (i := .buffer) rfl).of_eq rfl
    · have hread : (consumed t.settled).reverse ++ t.ctx.cache =
          (consumed s.session.trace).reverse ++ s.session.ctx.cache ++ l := by
        rw [hstripped.settled, consumed_append, consumed_cons, List.reverse_append, List.append_assoc,
          List.append_assoc, ← hstripped.consumed]
        rfl
      simp only [hctx, htrace]
      rw [hread]
      have happ := hpage.append (.only_right l)
      rw [List.append_nil] at happ
      exact happ
    · have hemitted : emitted t.settled = t.buf.out ++ emitted s.session.trace := by
        rw [hstripped.settled, emitted_append, emitted_cons, hstripped.emitted]
        rfl
      simp only [htrace]
      rw [hemitted, solid_append, h.out, hbytes, List.reverse_append, solid_append]
  | special =>
    cases hread
    have hc := ha rfl
    refine ⟨?_, ?_, ?_, ⟨blanks, hblank, ?_⟩, ?_⟩
    · exact h.resumes.lose (.inl hc)
    · exact fun n hn => (h.within n hn).cons fun k hk => nomatch hk
    · intro fut hends
      have hparts := h.parts fut
      rw [hc] at hparts
      exact ((hparts (hends.of_cons (by simp))).quiet (i := .buffer) rfl).of_eq rfl
    · change Interleave blanks ((consumed s.session.trace).reverse ++ []) (page ++ [])
      rw [hc] at hpage
      rw [List.append_nil page]
      exact hpage
    · rw [Arrival.bytes, List.append_nil]
      exact h.out

theorem Stage.Keeps.deliver (h : s.Keeps cap type page out)
    (hrun : NginB.Minify.deliver cap palloc type s as = .ok (t, outs)) (hv : ∀ v ∈ t.visits, v.Orderly) :
    t.Keeps cap type (page ++ as.flatMap Arrival.bytes) (out ++ outs.flatMap Arrival.bytes) := by
  induction as generalizing s outs page out with
  | nil =>
    cases hrun
    rw [List.flatMap_nil, List.append_nil, List.append_nil]
    exact h
  | cons a as ih =>
    rcases deliver_cons hrun with ⟨-, -, rfl, rfl⟩ | ⟨-, u, b, outs', rfl, hread, hrest⟩
    · have hraw : ∀ b ∈ (a :: as).flatMap Arrival.bytes, isBlank b = true := hv _ List.mem_cons_self
      obtain ⟨blanks, hblank, hpage⟩ := h.page
      refine ⟨h.resumes, h.within, h.parts, ⟨blanks ++ (a :: as).flatMap Arrival.bytes, ?_, ?_⟩, ?_⟩
      · exact List.forall_mem_append.mpr ⟨hblank, hraw⟩
      · have happ := hpage.append (.only_left ((a :: as).flatMap Arrival.bytes))
        rw [List.append_nil] at happ
        exact happ
      · rw [solid_append, solid_eq_nil hraw, List.append_nil]
        exact h.out
    · have hvisit : (Visit.read s.session.ctx a.inMemory a.readOnly u.trace).Orderly :=
        hv _ ((deliver_visits hrest).subset List.mem_cons_self)
      have hcache : a.inMemory = false → s.session.ctx.cache = [] := by
        intro ha
        rw [ha] at hvisit
        exact hvisit
      have hone := h.read hread hcache (if s.session.ctx.cache = [] then s.pallocs else s.pallocs + 1)
        (.read s.session.ctx a.inMemory a.readOnly u.trace :: s.visits)
      have hall := ih hone hrest
      rw [List.append_assoc, List.append_assoc, ← List.flatMap_cons, ← List.flatMap_cons] at hall
      exact hall

theorem Stage.Keeps.deliverAll {calls outs : List (List Arrival)} (h : s.Keeps cap type page out)
    (hr : r.headerOnly = false) (htype : r.type = some type)
    (hrun : NginB.Minify.deliverAll cap palloc r s calls = .ok (t, outs))
    (hv : ∀ v ∈ t.visits, v.Orderly) :
    t.Keeps cap type (page ++ calls.flatten.flatMap Arrival.bytes)
      (out ++ outs.flatten.flatMap Arrival.bytes) := by
  induction calls generalizing s outs page out with
  | nil =>
    cases hrun
    simp only [List.flatten_nil, List.flatMap_nil, List.append_nil]
    exact h
  | cons as calls ih =>
    obtain ⟨u, os, outs', hcall, hrest, rfl⟩ := deliverAll_cons hrun
    rw [deliverCall_read hr htype] at hcall
    have hlater := deliverAll_visits hrest
    have hall := ih (h.deliver hcall fun v hmem => hv v (hlater.subset hmem)) hrest
    rw [List.append_assoc, List.append_assoc, ← List.flatMap_append, ← List.flatMap_append,
      ← List.flatten_cons, ← List.flatten_cons] at hall
    exact hall

/-- The page in its order, but for blanks and comments. -/
theorem Stage.Keeps.pageKept (h : s.Keeps cap type page out)
    (hends : SeesEnds type ((consumed s.session.trace).reverse ++ s.session.ctx.cache) s.session.trace) :
    PageKept (some type) page out s.session.ctx.cache := by
  obtain ⟨blanks, hblank, hpage⟩ := h.page
  have hparts := h.parts []
  rw [List.append_nil] at hparts
  obtain ⟨text, hread, htext⟩ := (hparts hends).cutOut
  exact ⟨blanks, _, text, hblank, hpage, hread, htext.trans h.out.symm⟩

/-- A request that is passed on is delivered as it comes. -/
theorem deliverAll_passed (hr : r.Passed) (s : Stage) (calls : List (List Arrival)) :
    NginB.Minify.deliverAll cap palloc r s calls = .ok (s, calls) := by
  induction calls with
  | nil => rfl
  | cons as calls ih =>
    rw [NginB.Minify.deliverAll, deliverCall_passed hr, except_ok_bind]
    simp only
    rw [ih]
    rfl

end Run

section Calls
variable {cap : Option ℕ} {palloc : ℕ → Bool} {r : Request} {f : Filter} {calls out : List Call}

/-- While nothing but blanks overtakes the bytes held back, no special buffer costs any of them, no bracket of
a conditional comment is dropped, and no ordinary comment is taken beyond its end, what a response forwards
and holds back is the page in its order, but for blanks and comments. -/
theorem page_kept (hcalls : ∀ c ∈ calls, c.Delivered)
    (h : respond cap palloc r .start calls = .ok (f, out)) (hv : ∀ v ∈ f.visits, v.Orderly)
    (hk : ∀ i ∈ f.trace, i.KeepsBracket)
    (hd : EachTurn (EndSeen ((consumed f.trace).reverse ++ f.ctx.cache)) f.trace) :
    PageKept r.type (calls.flatMap Call.bytes) (out.flatMap Call.bytes) f.ctx.cache := by
  obtain ⟨t, ht, hshows, -⟩ := respond_ok hcalls h
  rw [hshows.visits] at hv
  rw [hshows.trace] at hk hd
  rw [hshows.ctx] at hd ⊢
  rw [← bytes_arrivals, ← bytes_arrivals]
  rcases r.passed_or with hr | ⟨type, hr, htype⟩
  · rw [deliverAll_passed hr] at ht
    obtain ⟨rfl, hsame⟩ := Prod.mk.inj (Except.ok.inj ht)
    rw [← hsame]
    refine ⟨[], (calls.map Call.arrivals).flatten.flatMap Arrival.bytes, _, by simp, ?_,
      .whole (.refl r.type _), rfl⟩
    have hcache : Stage.start.session.ctx.cache = [] := rfl
    rw [hcache, List.append_nil]
    exact .only_right _
  · have hkeeps := (Stage.keeps_start cap type).deliverAll hr htype ht hv
    rw [List.nil_append, List.nil_append] at hkeeps
    rw [htype]
    exact hkeeps.pageKept fun _ => ⟨hk, hd⟩

end Calls

instance : DecidablePred Visit.Orderly
  | .read x false _ _ => inferInstanceAs (Decidable (x.cache = []))
  | .read _ true _ _ => .isTrue trivial
  | .failed _ _ raw => inferInstanceAs (Decidable (∀ b ∈ raw, isBlank b = true))

instance : DecidablePred Item.KeepsBracket
  | .turn r x u d => inferInstanceAs (Decidable (x.state.top = .htmlCommentIe → act r x u d ≠ .drops))
  | .buffer | .skip .. | .emit .. | .cacheCall .. | .tagWrite .. | .stack .. => .isTrue trivial

instance (text : List UInt8) (r : Routine) (x : Ctx) (u : List UInt8) (d : ℕ) (older : List Item) :
    Decidable (EndSeen text r x u d older) := inferInstanceAs (Decidable (_ → _ → _ → _ → _))

/-- The page `<b><!--a-->`, with a flush behind the `<` for which there is no memory. -/
theorem page_kept_lt_b : ∃ f out,
    respond none (fun k => k != 0) ⟨false, some .html⟩ .start
      [dataCall false (lit "<"), flushCall, dataCall false (lit "b><!--a-->")] = .ok (f, out) ∧
    PageKept (some .html)
      ([dataCall false (lit "<"), flushCall, dataCall false (lit "b><!--a-->")].flatMap Call.bytes)
      (out.flatMap Call.bytes) f.ctx.cache := by
  have hcalls : ∀ c ∈ [dataCall false (lit "<"), flushCall, dataCall false (lit "b><!--a-->")],
      c.Delivered := by simp [dataCall_delivered, flushCall_delivered]
  have hall : (deliverAll none (fun k => k != 0) ⟨false, some .html⟩ .start
      [[.data false (lit "<")], [.special], [.data false (lit "b><!--a-->")]]).map (fun p =>
        decide ((∀ v ∈ p.1.visits, v.Orderly) ∧ (∀ i ∈ p.1.session.trace, i.KeepsBracket) ∧
          EachTurn (EndSeen ((consumed p.1.session.trace).reverse ++ p.1.session.ctx.cache)) p.1.session.trace)) =
      .ok true := by decide +kernel
  obtain ⟨f, out, hf⟩ : ∃ f out, respond none (fun k => k != 0) ⟨false, some .html⟩ .start
      [dataCall false (lit "<"), flushCall, dataCall false (lit "b><!--a-->")] = .ok (f, out) := by
    refine exists_respond hcalls ?_
    simp only [List.map_cons, List.map_nil, dataCall_arrivals, flushCall_arrivals]
    decide +kernel
  obtain ⟨t, ht, hshows, -⟩ := respond_ok hcalls hf
  simp only [List.map_cons, List.map_nil, dataCall_arrivals, flushCall_arrivals] at ht
  rw [ht] at hall
  have hthree := of_decide_eq_true (Except.ok.inj hall)
  rw [← hshows.visits, ← hshows.trace, ← hshows.ctx] at hthree
  exact ⟨f, out, hf, page_kept hcalls hf hthree.1 hthree.2.1 hthree.2.2⟩

/-- Without memory for the `b>` of the page `<b>`, the `b>` is forwarded and the `<` held back. -/
theorem page_overtaken : ¬ ∀ (cap : Option ℕ) (palloc : ℕ → Bool) (r : Request) (calls out : List Call)
    (f : Filter), (∀ c ∈ calls, c.Delivered) → respond cap palloc r .start calls = .ok (f, out) →
      PageKept r.type (calls.flatMap Call.bytes) (out.flatMap Call.bytes) f.ctx.cache := by
  intro hall
  have hcalls : ∀ c ∈ [dataCall false (lit "<"), dataCall false (lit "b>")], c.Delivered := by
    simp [dataCall_delivered]
  have hends : (deliverAll none (fun _ => false) ⟨false, some .html⟩ .start
      [[.data false (lit "<")], [.data false (lit "b>")]]).map (fun p => p.1.session.ctx.cache) =
      .ok (lit "<") := by decide +kernel
  obtain ⟨f, out, hf⟩ : ∃ f out, respond none (fun _ => false) ⟨false, some .html⟩ .start
      [dataCall false (lit "<"), dataCall false (lit "b>")] = .ok (f, out) := by
    refine exists_respond hcalls ?_
    simp only [List.map_cons, List.map_nil, dataCall_arrivals]
    decide +kernel
  obtain ⟨t, ht, hshows, -⟩ := respond_ok hcalls hf
  simp only [List.map_cons, List.map_nil, dataCall_arrivals] at ht
  rw [ht] at hends
  have hcache : t.session.ctx.cache = lit "<" := Except.ok.inj hends
  obtain ⟨blanks, read, text, hblank, hpage, -⟩ := hall none _ _ _ out f hcalls hf
  -- without the blanks the page would end in the byte held back
  have hsolid := hpage.filter_eq (p := fun b => !isBlank b) fun b hb => by simp [hblank b hb]
  rw [← bytes_arrivals, hshows.ctx, hcache, List.filter_append] at hsolid
  simp only [List.map_cons, List.map_nil, dataCall_arrivals] at hsolid
  have hlast := congrArg List.getLast? hsolid
  rw [show (lit "<").filter (fun b => !isBlank b) = [lt] by decide, List.getLast?_concat] at hlast
  revert hlast
  decide

end NginB.Minify
