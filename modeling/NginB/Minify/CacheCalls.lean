import NginB.Minify.Passage

/-! # The calls of `ngx_minify_cache`

Every call is the first thing that an iteration does, with nothing held back yet and no more unread
bytes than the literal has. Where the result is not compared with -1, the bytes match.
-/
namespace NginB.Minify
open NginB.Program Ascii

inductive CacheUse
  /-- the result is dropped, and a byte is skipped for each one of the literal -/
  | ignores
  /-- as many bytes are skipped as the result says, without a test -/
  | trusts
  /-- the result is compared with -1 first -/
  | tests
  deriving DecidableEq

/-- The calls in the three minifiers, by the loop, the literal and the use of the result. -/
def cacheSites : List (Routine × List UInt8 × CacheUse) :=
  [(.htmlStripTagname, lit "/", .ignores), (.htmlStripComment, lit "<!--", .trusts),
    (.htmlStripComment, lit "<!--[if", .tests), (.htmlStripComment, lit "]-->", .tests),
    (.htmlStripComment, lit "-->", .tests), (.htmlStripTag, lit "<!--", .tests),
    (.htmlStripTag, lit "<![CDATA[", .tests), (.htmlStripTag, lit "]]>", .tests),
    (.htmlStripBuffer, lit "<!", .ignores), (.htmlStripBuffer, lit "<", .ignores),
    (.cssStripComment, lit "*", .ignores), (.cssStripQuote, lit "\\", .ignores),
    (.cssStripBrace, lit "/", .ignores), (.cssStripBuffer, lit "/", .ignores),
    (.jsStripComment, lit "*", .ignores), (.jsStripQuote, lit "\\", .ignores),
    (.jsStripBuffer, lit "/", .ignores)]

/-- The number of bytes that are skipped after a call that has returned `v`, if it is not -1. -/
def CacheUse.skips (c : List UInt8) (v : ℤ) : CacheUse → ℕ
  | .ignores => c.length
  | .trusts | .tests => v.toNat

structure CacheSite (r : Routine) (c u : List UInt8) (use : CacheUse) : Prop where
  site : (r, c, use) ∈ cacheSites
  fits : u.length ≤ c.length
  short : 0 < u.length ∧ u.length ≤ 8
  matches_of : use ≠ .tests → cacheable c u = true
  whole : use = .ignores → u.length = c.length

inductive CallsFirst (r : Routine) (u : List UInt8) (es : List Ev) : Prop
  | none (h : ∀ c, Ev.call c ∉ es)
  | first (c : List UInt8) (use : CacheUse) (es' : List Ev) (he : es = .call c :: es')
      (h : ∀ c, Ev.call c ∉ es') (hsite : CacheSite r c u use)

section Rules
variable {x y : Ctx} {r : Routine} {u : List UInt8} {es : List Ev} {nxt : Next} {d : ℕ}

theorem CallsFirst.holds {c : List UInt8} {use : CacheUse} (h : CacheSite r c u use) :
    CallsFirst r u (Ev.holds c u) := by
  apply CallsFirst.first c use _ rfl _ h
  intro c hmem
  cases List.eq_of_mem_replicate hmem

theorem CacheSite.whole_literal {c : List UInt8} {use : CacheUse} (hsite : (r, c, use) ∈ cacheSites)
    (hc : 0 < c.length ∧ c.length ≤ 8) (hm : cacheable c c = true) : CacheSite r c c use :=
  ⟨hsite, Nat.le_refl _, hc, fun _ => hm, fun _ => rfl⟩

theorem CacheSite.tested {c : List UInt8} (hsite : (r, c, .tests) ∈ cacheSites) (hfits : u.length ≤ c.length)
    (hshort : 0 < u.length ∧ u.length ≤ 8) : CacheSite r c u .tests :=
  ⟨hsite, hfits, hshort, fun h => absurd rfl h, nofun⟩

theorem HtmlRule.callsFirst (h : HtmlRule x r u es y nxt) : CallsFirst r u es := by
  cases h
  case attHold =>
    have hsite : CacheSite .htmlStripTagname (lit "/") [slash] .ignores := .whole_literal (by decide) (by decide) (by decide)
    exact .holds hsite
  case commentHold =>
    have hsite : CacheSite .htmlStripComment (lit "<!--") (lit "<!--") .trusts :=
      .whole_literal (by decide) (by decide) (by decide)
    exact .holds hsite
  case commentHoldIf t _ ht _ =>
    exact .holds (.tested (by decide) (by simp; omega) (by simp; omega))
  case commentMiss t _ ht _ =>
    exact .first _ .tests _ rfl (by simp) (.tested (by decide) (by simp; omega) (by simp; omega))
  case ieHold t _ ht _ => exact .holds (.tested (by decide) (by simp; omega) (by simp; omega))
  case ieMiss t _ ht _ =>
    exact .first _ .tests _ rfl (by simp) (.tested (by decide) (by simp; omega) (by simp; omega))
  case skipHold t _ ht _ => exact .holds (.tested (by decide) (by simp; omega) (by simp; omega))
  case skipMiss t _ ht _ =>
    exact .first _ .tests _ rfl (by simp) (.tested (by decide) (by simp; omega) (by simp; omega))
  case bangHoldDash => exact .holds (.tested (by decide) (by decide) (by decide))
  case bangHoldCdata t _ ht _ => exact .holds (.tested (by decide) (by simp; omega) (by simp; omega))
  case bangAbort t _ ht _ =>
    exact .first _ .tests _ rfl (by simp) (.tested (by decide) (by simp; omega) (by simp; omega))
  case cdataHold t _ ht _ => exact .holds (.tested (by decide) (by simp; omega) (by simp; omega))
  case cdataMiss t _ ht _ =>
    exact .first _ .tests _ rfl (by simp) (.tested (by decide) (by simp; omega) (by simp; omega))
  case textHoldBang =>
    have hsite : CacheSite .htmlStripBuffer (lit "<!") (lit "<!") .ignores :=
      .whole_literal (by decide) (by decide) (by decide)
    exact .holds hsite
  case textHold | elementHold =>
    have hsite : CacheSite .htmlStripBuffer (lit "<") [lt] .ignores :=
      .whole_literal (by decide) (by decide) (by decide)
    exact .holds hsite
  case endGt => split <;> exact .none (by simp)
  all_goals exact .none (by simp)

theorem CssRule.callsFirst (h : CssRule x r u es y nxt) : CallsFirst r u es := by
  cases h
  case commentHold =>
    have hsite : CacheSite .cssStripComment (lit "*") [star] .ignores :=
      .whole_literal (by decide) (by decide) (by decide)
    exact .holds hsite
  case quoteHold =>
    have hsite : CacheSite .cssStripQuote (lit "\\") [backslash] .ignores :=
      .whole_literal (by decide) (by decide) (by decide)
    exact .holds hsite
  case braceHold =>
    have hsite : CacheSite .cssStripBrace (lit "/") [slash] .ignores :=
      .whole_literal (by decide) (by decide) (by decide)
    exact .holds hsite
  case textHold =>
    have hsite : CacheSite .cssStripBuffer (lit "/") [slash] .ignores :=
      .whole_literal (by decide) (by decide) (by decide)
    exact .holds hsite
  all_goals exact .none (by simp)

theorem JsRule.callsFirst (h : JsRule d x r u es y nxt) : CallsFirst r u es := by
  cases h
  case commentHold =>
    have hsite : CacheSite .jsStripComment (lit "*") [star] .ignores :=
      .whole_literal (by decide) (by decide) (by decide)
    exact .holds hsite
  case quoteHold =>
    have hsite : CacheSite .jsStripQuote (lit "\\") [backslash] .ignores :=
      .whole_literal (by decide) (by decide) (by decide)
    exact .holds hsite
  case textHold =>
    have hsite : CacheSite .jsStripBuffer (lit "/") [slash] .ignores :=
      .whole_literal (by decide) (by decide) (by decide)
    exact .holds hsite
  all_goals exact .none (by simp)

theorem callsFirst_of_rule (type : FileType) (h : (machine type).rule d x r u es y nxt) : CallsFirst r u es := by
  cases type with
  | html =>
    have hrule : HtmlRule x r u es y nxt := h
    exact hrule.callsFirst
  | css =>
    have hrule : CssRule x r u es y nxt := h
    exact hrule.callsFirst
  | js =>
    have hrule : JsRule d x r u es y nxt := h
    exact hrule.callsFirst

end Rules

/-- Every call in a trace comes right behind the start of an iteration, with nothing held back. -/
def CallsKept : List Item → Prop
  | [] => True
  | .cacheCall c n u :: tr =>
    (n = 0 ∧ ∃ r x d older use, tr = .turn r x u d :: older ∧ CacheSite r c u use) ∧ CallsKept tr
  | _ :: tr => CallsKept tr

section Traces
variable {l tr newer older : List Item} {x : Ctx} {u c : List UInt8} {n : ℕ}

theorem callsKept_append (hl : ∀ c n u, Item.cacheCall c n u ∉ l) : CallsKept (l ++ tr) ↔ CallsKept tr := by
  induction l with
  | nil => exact Iff.rfl
  | cons i l ih =>
    have hrest := ih fun c n u hmem => hl c n u (List.mem_cons_of_mem i hmem)
    cases i with
    | cacheCall c n u => exact absurd List.mem_cons_self (hl c n u)
    | _ => exact hrest

theorem CallsKept.of_append (h : CallsKept (l ++ tr)) : CallsKept tr := by
  induction l with
  | nil => exact h
  | cons i l ih =>
    cases i with
    | cacheCall c n u => exact ih h.2
    | _ => exact ih h

theorem CallsKept.call (h : CallsKept (newer ++ .cacheCall c n u :: older)) :
    n = 0 ∧ ∃ r x d older' use, older = .turn r x u d :: older' ∧ CacheSite r c u use := h.of_append.1

theorem Ev.cacheCall_notMem_items {es : List Ev} (h : ∀ c, Ev.call c ∉ es) (c : List UInt8) (n : ℕ) (v : List UInt8) :
    ∀ u, Item.cacheCall c n v ∉ Ev.items x es u := by
  induction es with
  | nil => exact fun u hmem => List.not_mem_nil hmem
  | cons e es ih =>
    have hrest := ih fun c hmem => h c (List.mem_cons_of_mem e hmem)
    intro u hmem
    cases e with
    | call a => exact h a List.mem_cons_self
    | _ =>
      rcases List.mem_cons.mp hmem with he | hmem
      · cases he
      · exact hrest _ hmem

end Traces

/-- Every response keeps to the contract, and holds back eight bytes at most. -/
theorem callsInv (type : FileType) : TraceInv (machine type) fun v =>
    CallsKept v.trace ∧ v.ctx.cache.length ≤ 8 where
  start := by
    constructor
    · trivial
    · simp [Ctx.zero]
  next buf _ h _ := ⟨h.1, Nat.zero_le 8⟩
  turn {v es y nxt k k' r' d tr} _ h hc hy hrule _ _ _ htr := by
    have hturn : CallsKept (.turn v.r v.ctx v.pending v.dstlen :: v.trace) := h.1
    subst htr
    constructor
    · cases callsFirst_of_rule type hrule with
      | none hnone =>
        refine (callsKept_append fun c n u hmem => ?_).mpr hturn
        exact Ev.cacheCall_notMem_items hnone c n u _ (List.mem_reverse.mp hmem)
      | first c use es' he hnone hsite =>
        subst he
        rw [Ev.items, List.reverse_cons, List.append_assoc]
        refine (callsKept_append fun c n u hmem => ?_).mpr ?_
        · exact Ev.cacheCall_notMem_items hnone c n u _ (List.mem_reverse.mp hmem)
        · exact ⟨⟨by rw [hc]; rfl, v.r, v.ctx, v.dstlen, v.trace, use, rfl, hsite⟩, hturn⟩
    · rw [Next.ended_cache, hy]
      exact Nat.zero_le 8
  hold {v y} a _ h _ hrule hy := by
    have hturn : CallsKept (.turn v.r v.ctx v.pending v.dstlen :: v.trace) := h.1
    cases callsFirst_of_rule type hrule with
    | none hnone => exact absurd List.mem_cons_self (hnone a)
    | first c use es' he _ hsite =>
      obtain ⟨hcall, -⟩ := List.cons.inj he
      cases hcall
      constructor
      · exact ⟨⟨rfl, v.r, v.ctx, v.dstlen, v.trace, use, rfl, hsite⟩, hturn⟩
      · rw [Next.ended_cache, hy.cache]
        exact hsite.short.2
  done {v k r'} _ h _ := by
    constructor
    · exact h.1
    · rw [Next.ended_cache]
      exact h.2

/-- A call of `ngx_minify_cache(c, ctx)` in `k`, which returns `v`, and the skip behind it. -/
structure CacheCall (c : List UInt8) (use : CacheUse) (k : Conf Flat) (v : ℤ) (t : Conf Flat) : Prop where
  run : (ngxMinifyCache c).run k = .ok (v, t)
  room : v ≠ -2
  short : t.ctx.cache.length ≤ 8
  miss : v = -1 → use = .tests ∧ t.ctx.cache = []
  skipped : v ≠ -1 → ∃ t', (incRposTimes (use.skips c v)).run t = .ok ((), t') ∧ Buffer.count t'.buf = 0

theorem incRposTimes_flat (n : ℕ) : ∀ k : Conf Flat, (n : ℤ) ≤ Buffer.count k.buf →
    ∃ t, (incRposTimes n).run k = .ok ((), t) ∧ Buffer.count t.buf = Buffer.count k.buf - n := by
  induction n with
  | zero =>
    intro k _
    exact ⟨k, rfl, (Int.sub_zero _).symm⟩
  | succ n ih =>
    intro k hk
    have hpos : 0 < Buffer.count k.buf := by omega
    have hinc : (ngxMinifyIncRpos (B := Flat)).run k = .ok ((), k.incRpos) := modifyIf_run hpos
    have hcount : Buffer.count k.incRpos.buf = Buffer.count k.buf - 1 := rfl
    obtain ⟨t, ht, hleft⟩ := ih k.incRpos (by omega)
    refine ⟨t, ?_, by omega⟩
    rw [incRposTimes, bind_run hinc]
    exact ht

theorem CacheSite.call {r : Routine} {c u : List UInt8} {use : CacheUse} (h : CacheSite r c u use) {k : Conf Flat}
    (hk : k.ctx.cache = []) (hu : unread k.buf = u) : ∃ v t, CacheCall c use k v t := by
  have hrun := cache_unread_run k.trace hu hk h.fits (Nat.lt_of_le_of_lt h.short.2 (by decide))
  have hcount : Buffer.count k.buf = u.length := by
    have hlen := unread_length k.buf
    rw [hu] at hlen
    have hpos := h.short.1
    omega
  by_cases hm : cacheable c u = true
  · rw [if_pos hm] at hrun
    refine ⟨u.length, _, hrun, by omega, h.short.2, by omega, fun _ => ?_⟩
    have hskips : use.skips c u.length = u.length := by
      cases use with
      | ignores => exact (h.whole rfl).symm
      | trusts | tests => exact Int.toNat_natCast _
    rw [hskips]
    obtain ⟨t, ht, hleft⟩ := incRposTimes_flat u.length ⟨k.ctx.hold u, k.buf, _⟩ (Int.le_of_eq hcount.symm)
    refine ⟨t, ht, ?_⟩
    rw [hleft]
    exact Int.sub_eq_zero.mpr hcount
  · rw [if_neg hm] at hrun
    refine ⟨-1, _, hrun, by decide, ?_, fun _ => ⟨?_, hk⟩, fun hne => absurd rfl hne⟩
    · rw [hk]
      exact Nat.zero_le 8
    · by_contra huse
      exact hm (h.matches_of huse)

/-- `ngx_minify_cache` is only called within its contract, on any buffers. -/
theorem cache_contract {cap : Option ℕ} {type : FileType} {bufs : List (List UInt8)} {s : Session}
    (h : feedAll Flat cap type .start bufs = .ok s) :
    s.ctx.cache.length ≤ 8 ∧ ∀ newer older c n u, s.trace = newer ++ .cacheCall c n u :: older →
      n = 0 ∧ u.length ≤ c.length ∧ ∃ r x d older' use, older = .turn r x u d :: older' ∧
        (r, c, use) ∈ cacheSites ∧ ∀ k : Conf Flat, k.ctx.cache.length = n → unread k.buf = u →
          ∃ v t, CacheCall c use k v t := by
  obtain ⟨c, hreach, -, rfl, -⟩ := feedAll_ok h
  have hinv : CallsKept c.settled ∧ c.ctx.cache.length ≤ 8 := (callsInv type).reach hreach
  refine ⟨hinv.2, fun newer older a n u htr => ?_⟩
  have htr' : c.settled = newer ++ .cacheCall a n u :: older := htr
  have hkept := hinv.1
  rw [htr'] at hkept
  obtain ⟨rfl, r, x, d, older', use, rfl, hsite⟩ := hkept.call
  refine ⟨rfl, hsite.fits, r, x, d, older', use, rfl, hsite.site, fun k hk hu => ?_⟩
  exact hsite.call (List.eq_nil_of_length_eq_zero hk) hu

/-- A page that ends with `<!--[`. -/
theorem cache_contract_if : ∃ s older, feedAll Flat none .html .start [lit "a<!--["] = .ok s ∧
    s.trace = .cacheCall (lit "<!--[if") 0 (lit "<!--[") :: older ∧ ∀ k : Conf Flat, k.ctx.cache.length = 0 →
      unread k.buf = lit "<!--[" → ∃ use v t, CacheCall (lit "<!--[if") use k v t := by
  obtain ⟨s, hs, hhead⟩ : ∃ s, feedAll Flat none .html .start [lit "a<!--["] = .ok s ∧
      s.trace.head? = some (.cacheCall (lit "<!--[if") 0 (lit "<!--[")) := exists_run (by decide)
  obtain ⟨older, htr⟩ := List.head?_eq_some_iff.mp hhead
  obtain ⟨-, -, -, -, -, -, use, -, -, hcall⟩ := (cache_contract hs).2 [] older _ _ _ htr
  exact ⟨s, older, hs, htr, fun k hk hu => ⟨use, hcall k hk hu⟩⟩

end NginB.Minify
