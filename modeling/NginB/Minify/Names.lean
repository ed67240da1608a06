import NginB.Minify.Safety

/-! # Names that fit the tag-name caches

A tag-name cache is as long as the name that is being read, so whether a write stays in
bounds is a matter of how long the names of a page are.
-/
namespace NginB.Minify
open NginB.Program Relation Ascii

/-- The length of the name that is being read in state `st`, in a trace whose newest item comes
first; the bytes passed over in that state are no part of it. -/
def nameLength (st : MinifyState) : List Item → ℕ
  | [] => 0
  | .emit st' _ _ :: tr => if st' = st then nameLength st tr + 1 else 0
  | .skip st' _ :: tr => if st' = st then nameLength st tr else 0
  | _ :: tr => nameLength st tr

/-- Fewer than `n` bytes of a name have been read when an iteration reads the next one, or its
end. The name of an end tag counts while there is a name to compare it with. -/
structure NameFits (n : ℕ) (x : Ctx) (rest : List UInt8) (older : List Item) : Prop where
  name : x.state.top = .htmlTagname → nameLength .htmlTagname older < n
  endName : x.state.top = .htmlTagnameEnd → x.tagcache.len ≠ 0 → rest.head? ≠ some space →
    nameLength .htmlTagnameEnd older < n

/-- All names read in a trace fit. -/
def NamesFit (n : ℕ) : List Item → Prop
  | [] => True
  | .turn .htmlStripTagname x rest _ :: tr => NameFits n x rest tr ∧ NamesFit n tr
  | _ :: tr => NamesFit n tr

section Items
variable {n : ℕ} {tr l : List Item} {r : Routine} {x : Ctx} {rest : List UInt8} {d : ℕ}

theorem namesFit_turn : NamesFit n (.turn r x rest d :: tr) ↔
    (r = .htmlStripTagname → NameFits n x rest tr) ∧ NamesFit n tr := by
  cases r <;> simp [NamesFit]

theorem namesFit_append (hl : ∀ r x u d, Item.turn r x u d ∉ l) :
    NamesFit n (l ++ tr) ↔ NamesFit n tr := by
  induction l with
  | nil => rfl
  | cons i l ih =>
    rw [← ih fun r x u d hmem => hl r x u d (List.mem_cons_of_mem i hmem)]
    cases i with
    | turn r x u d => exact absurd List.mem_cons_self (hl r x u d)
    | _ => rfl

theorem writesBelow_append :
    WritesBelow n (l ++ tr) ↔ (∀ i, Item.tagWrite i ∈ l → i < n) ∧ WritesBelow n tr := by
  simp only [WritesBelow, List.mem_append, or_imp, forall_and]

end Items

structure NameLengths (x : Ctx) (tr : List Item) : Prop where
  idle : x.state.top ≠ .htmlTagnameEnd → x.tagendcache.len = 0
  tag : x.state.top = .htmlTag → nameLength .htmlTagname tr = 0 ∧ nameLength .htmlTagnameEnd tr = 0
  name : x.state.top = .htmlTagname → x.tagcache.len = nameLength .htmlTagname tr
  endName : x.state.top = .htmlTagnameEnd →
    x.tagendcache.len = if x.tagcache.len = 0 then 0 else nameLength .htmlTagnameEnd tr

section Rules
variable {x y : Ctx} {r : Routine} {rest : List UInt8} {es : List Ev} {nxt : Next} {tr : List Item}
  {n : ℕ}

@[simp] theorem nameLength_emit (st st' : MinifyState) (b c : UInt8) :
    nameLength st (.emit st' b c :: tr) = if st' = st then nameLength st tr + 1 else 0 := rfl

@[simp] theorem nameLength_skip (st st' : MinifyState) (b : UInt8) :
    nameLength st (.skip st' b :: tr) = if st' = st then nameLength st tr else 0 := rfl

@[simp] theorem nameLength_tag (st : MinifyState) (i : ℕ) :
    nameLength st (.tagWrite i :: tr) = nameLength st tr := rfl

@[simp] theorem nameLength_stack (st : MinifyState) (s : StateStack) :
    nameLength st (.stack s :: tr) = nameLength st tr := rfl

@[simp] theorem nameLength_call (st : MinifyState) (a : List UInt8) (m : ℕ) (u : List UInt8) :
    nameLength st (.cacheCall a m u :: tr) = nameLength st tr := rfl

theorem Ctx.endGt_len (x : Ctx) : x.endGt.tagendcache.len = 0 := by
  unfold Ctx.endGt
  split_ifs <;> simp_all [NameCache.len]

theorem HtmlRule.names (h : HtmlRule x r rest es y nxt) (hy : y.cache = [])
    (hx : NameLengths x tr) : NameLengths y ((Ev.items x es rest).reverse ++ tr) := by
  obtain ⟨hidle, htag, hname, hend⟩ := hx
  cases h
  case nameGt hs =>
    obtain ⟨st, t, hst, he⟩ := x.nameGt_eq
    rw [he]
    rcases List.mem_pair.mp hst with rfl | rfl <;>
      exact ⟨fun _ => hidle (by simp [hs]), by simp, by simp, by simp⟩
  case nameBlank hs hb =>
    obtain ⟨t, he⟩ := x.nameBlank_eq
    rw [he]
    exact ⟨fun _ => hidle (by simp [hs]), by simp, by simp, by simp⟩
  case attGt hs =>
    obtain ⟨st, hst, he⟩ := x.attGt_eq
    rw [he]
    rcases List.mem_pair.mp hst with rfl | rfl <;>
      exact ⟨fun _ => hidle (by simp [hs]), by simp, by simp, by simp⟩
  case endGt hs =>
    have hlen := x.endGt_len
    obtain ⟨st, t, u, hst, he⟩ := x.endGt_eq
    rw [he] at hlen ⊢
    rcases List.mem_pair.mp hst with rfl | rfl <;> exact ⟨fun _ => hlen, by simp, by simp, by simp⟩
  case nameByte hs hb =>
    refine ⟨fun _ => hidle (by simp [hs]), by simp [hs], fun _ => ?_, by simp [hs]⟩
    have hlen := hname hs
    simp_all [NameCache.len]
  case endName hs hb hl =>
    refine ⟨by simp [hs], by simp [hs], by simp [hs], fun _ => ?_⟩
    have hlen := hend hs
    simp_all [NameCache.len]
  case tagName hs hb =>
    obtain ⟨hzero, -⟩ := htag hs
    exact ⟨fun _ => rfl, by simp, fun _ => hzero.symm, by simp⟩
  case tagSlash hs =>
    obtain ⟨-, hzero⟩ := htag hs
    refine ⟨by simp, by simp, by simp, fun _ => ?_⟩
    have hlen := hidle (by simp [hs])
    simp_all
  all_goals first
    | exact absurd hy (List.cons_ne_nil _ _)
    | constructor <;> simp_all [List.replicate]

/-- The writes of an iteration stay in bounds just when the name fits. -/
theorem HtmlRule.writes (h : HtmlRule x r rest es y nxt) (hx : NameLengths x tr) (hn : 0 < n) :
    (∀ i, Item.tagWrite i ∈ Ev.items x es rest → i < n) ↔
      (r = .htmlStripTagname → NameFits n x rest tr) := by
  have hfits : x.state.top ≠ .htmlTagname → x.state.top ≠ .htmlTagnameEnd →
      NameFits n x rest tr := fun h1 h2 => ⟨fun h => absurd h h1, fun h => absurd h h2⟩
  cases h
  case nameGt hs | nameBlank hs _ | nameByte hs _ =>
    have hlen := hx.name hs
    refine ⟨fun h _ => ⟨fun _ => ?_, by simp [hs]⟩, fun h i hi => ?_⟩
    · rw [← hlen]
      exact h _ (by simp)
    · obtain rfl : i = x.tagcache.len := by simpa using hi
      rw [hlen]
      exact (h rfl).name hs
  case endName b t hs hb hl =>
    have hlen := hx.endName hs
    rw [if_neg hl] at hlen
    refine ⟨fun h _ => ⟨by simp [hs], fun _ _ _ => ?_⟩, fun h i hi => ?_⟩
    · rw [← hlen]
      exact h _ (by simp)
    · obtain rfl : i = x.tagendcache.len := by simpa using hi
      rw [hlen]
      exact (h rfl).endName hs hl (by simpa using hb.1)
  case endGt t hs =>
    have hlen := hx.endName hs
    refine ⟨fun h _ => ⟨by simp [hs], fun _ hl _ => ?_⟩, fun h i hi => ?_⟩
    · rw [if_neg hl] at hlen
      rw [← hlen]
      by_cases h0 : x.tagendcache.len = 0
      · rw [h0]
        exact hn
      · rw [if_pos h0] at h
        exact h _ (by simp)
    · split at hi
      · next h0 =>
        obtain rfl : i = x.tagendcache.len := by simpa using hi
        have hl : x.tagcache.len ≠ 0 := fun hl => h0 (by rw [hlen, if_pos hl])
        rw [hlen, if_neg hl]
        exact (h rfl).endName hs hl (by simp)
      · simp at hi
  case endSpace hs => exact ⟨fun _ _ => ⟨by simp [hs], by simp⟩, by simp⟩
  case endByte hs hb hl => exact ⟨fun _ _ => ⟨by simp [hs], fun _ h => absurd hl h⟩, by simp⟩
  case attSpace hs _ | attGt hs | attClose hs | attSlash hs _ | attHold hs | attByte hs _ _
    | nameSkip hs | nameLeave hs =>
    exact ⟨fun _ _ => hfits (by simp [hs]) (by simp [hs]), by simp⟩
  all_goals simp [List.replicate]

end Rules

structure NameInv (n : ℕ) (v : View) : Prop where
  lengths : NameLengths v.ctx v.trace
  writes : WritesBelow n v.trace ↔ NamesFit n v.trace

theorem NameLengths.of_eq {x y : Ctx} {tr tr' : List Item} (h : NameLengths x tr)
    (hs : y.state.top = x.state.top) (ht : y.tagcache = x.tagcache)
    (hu : y.tagendcache = x.tagendcache) (hl : ∀ st, nameLength st tr' = nameLength st tr) :
    NameLengths y tr' := by
  obtain ⟨h1, h2, h3, h4⟩ := h
  constructor <;> simp only [hs, ht, hu, hl] <;> assumption

theorem nameInv {n : ℕ} (hn : 0 < n) : TraceInv htmlMachine (NameInv n) where
  start := by
    refine ⟨⟨fun _ => rfl, by simp [Ctx.zero], by simp [Ctx.zero], by simp [Ctx.zero]⟩, ?_⟩
    simp [WritesBelow, NamesFit]
  next {v} buf _ h _ := by
    refine ⟨h.lengths.of_eq rfl rfl rfl fun _ => rfl, ?_⟩
    exact (writesBelow_append (l := [_])).trans ((and_iff_right (by simp)).trans h.writes)
  turn {v es y nxt k k' r' d tr} hv h hc hy hrule hgo hk hd htr := by
    have hrule' : HtmlRule v.ctx v.r v.pending es y nxt := hrule
    have hlengths : NameLengths v.ctx (.turn v.r v.ctx v.pending v.dstlen :: v.trace) :=
      h.lengths.of_eq rfl rfl rfl fun _ => rfl
    obtain ⟨p, q, he⟩ := nxt.ended_eq r' d (emitted tr) y
    refine ⟨?_, ?_⟩
    · rw [he, htr]
      exact (hrule'.names hy hlengths).of_eq rfl rfl rfl fun _ => rfl
    · have hnot : ∀ r x u d, Item.turn r x u d ∉ (Ev.items v.ctx es v.pending).reverse :=
        fun r x u d hmem => Ev.turn_notMem_items v.ctx x r u d es v.pending (List.mem_reverse.mp hmem)
      have hwrites := hrule'.writes h.lengths hn
      subst htr
      simp only
      rw [namesFit_append hnot, namesFit_turn, ← hwrites, ← h.writes, writesBelow_append]
      simp [WritesBelow]
  hold {v y} a hv h hc hrule hy := by
    have hrule' : HtmlRule v.ctx v.r v.pending (Ev.holds a v.pending) y .again := hrule
    have hwrites := hrule'.writes h.lengths hn
    obtain ⟨p, q, he⟩ := Next.again.ended_eq v.r v.dstlen (emitted v.trace) y
    refine ⟨?_, ?_⟩
    · rw [he]
      exact h.lengths.of_eq (congrArg _ hy.state) (by cases hy <;> rfl) (by cases hy <;> rfl) fun _ => rfl
    · have hnone : NamesFit n (.turn v.r v.ctx v.pending v.dstlen :: v.trace) ↔ NamesFit n v.trace :=
        namesFit_turn.trans (and_iff_right (hwrites.mp (by simp)))
      exact (writesBelow_append (l := [_, _])).trans
        ((and_iff_right (by simp)).trans (h.writes.trans hnone.symm))
  done {v k r'} _ h _ := by
    obtain ⟨p, q, he⟩ := Next.again.ended_eq r' v.dstlen (emitted v.trace) v.ctx
    refine ⟨?_, h.writes⟩
    rw [he]
    exact h.lengths.of_eq rfl rfl rfl fun _ => rfl

/-- The writes to the tag-name caches stay within their 64 bytes just when the names in the page
fit: the minifier never comes to the 65th byte of one, the byte that ends the name included. -/
theorem names_fit_caches (bufs : List (List UInt8)) : ∃ s,
    feedAll Flat none .html .start bufs = .ok s ∧
      ((∃ t, feedAll Flat (some ctxCacheBuflen) .html .start bufs = .ok t) ↔
        NamesFit ctxCacheBuflen s.trace) := by
  obtain ⟨c, hreach, -, hrun⟩ := feedAll_reach .html bufs
  have hinv := (nameInv (by decide : 0 < ctxCacheBuflen)).reach hreach
  have hfit : WritesBelow ctxCacheBuflen c.session.trace ↔ NamesFit ctxCacheBuflen c.session.trace :=
    hinv.writes
  rw [feedAll_flat, feedAll_flat]
  refine ⟨c.session, hrun, ?_⟩
  rw [← hfit]
  constructor
  · rintro ⟨t, ht⟩
    rcases feedAll_bounded ctxCacheBuflen .html bufs hrun with ⟨hw, -⟩ | ⟨-, e, -, herr⟩
    · exact hw
    · rw [herr] at ht
      cases ht
  · intro hw
    rcases feedAll_bounded ctxCacheBuflen .html bufs hrun with ⟨-, hok⟩ | ⟨hnot, -⟩
    · exact ⟨_, hok⟩
    · exact absurd hw hnot

/-- The end of a tag name of 64 bytes is written behind its cache. -/
theorem name_past_cache :
    ¬ ∀ bufs, ∃ t, feedAll Flat (some ctxCacheBuflen) .html .start bufs = .ok t := by
  intro h
  obtain ⟨t, ht⟩ := h [lt :: (List.replicate 64 97 ++ [gt])]
  have hnone : (feedAll Stream (some ctxCacheBuflen) .html .start
      [lt :: (List.replicate 64 97 ++ [gt])]).toOption = none := by decide +kernel
  rw [← feedAll_flat, ht] at hnone
  cases hnone

section Consumed
variable {type : FileType} {bufs : List (List UInt8)} {s : Session}

theorem CssRule.tagWrite_notMem {x y : Ctx} {r : Routine} {rest : List UInt8} {es : List Ev} {nxt : Next}
    (h : CssRule x r rest es y nxt) (i : ℕ) : Item.tagWrite i ∉ Ev.items x es rest := by
  cases h <;> simp [Ev.holds]

theorem JsRule.tagWrite_notMem {x y : Ctx} {r : Routine} {rest : List UInt8} {es : List Ev} {nxt : Next}
    {d : ℕ} (h : JsRule d x r rest es y nxt) (i : ℕ) : Item.tagWrite i ∉ Ev.items x es rest := by
  cases h <;> simp [Ev.holds]

theorem writesBelow_of_ne (ht : type ≠ .html) (n : ℕ) :
    TraceInv (machine type) fun v => WritesBelow n v.trace where
  start := by simp [WritesBelow]
  next buf _ h _ := (writesBelow_append (l := [_])).mpr ⟨by simp, h⟩
  turn {v es y nxt k k' r' d tr} hv h hc hy hrule hgo hk hd htr := by
    have hnot (i : ℕ) : Item.tagWrite i ∉ Ev.items v.ctx es v.pending := by
      cases type with
      | html => exact absurd rfl ht
      | css => exact CssRule.tagWrite_notMem hrule i
      | js => exact JsRule.tagWrite_notMem hrule i
    subst htr
    refine writesBelow_append.mpr ⟨fun i hi => absurd (List.mem_reverse.mp hi) (hnot i), ?_⟩
    exact (writesBelow_append (l := [_])).mpr ⟨by simp, h⟩
  hold a _ h _ _ _ := (writesBelow_append (l := [_, _])).mpr ⟨by simp, h⟩
  done _ h _ := h

theorem stripFlat_consumes {cap : Option ℕ} {fuel : ℕ} {x : Ctx} {mem : ℕ → UInt8} {src n : ℕ} {t : Conf Stream}
    (h : stripList cap fuel type x [] (Flat.region mem src n) = .ok ((), t)) (hnil : t.buf.rest = []) :
    ∃ c, stripFlat cap fuel type x [] mem src n src = .ok ((), c) ∧ c.buf.count = 0 ∧
      c.buf.rpos = src + n := by
  have hwithin : TurnsWithin n [] := fun _ _ _ _ hmem => (List.not_mem_nil hmem).elim
  obtain ⟨c, hc, hrel⟩ := stripFlat_ok cap fuel type _ mem src n src (Nat.le_refl n) hwithin
    (.inl (Nat.le_refl src)) h
  refine ⟨c, hc, ?_, ?_⟩
  · rw [hrel.buf.count, hnil]
    rfl
  · have hfront := hrel.buf.front
    rwa [hnil] at hfront

/-- From every context that a response has reached, the next buffer is read to its end, with `count` 0 and
`rpos` behind it, just when the names of a page fit the tag-name caches up to there; style sheets and
scripts are always read to the end. -/
theorem consumed_iff (h : feedAll Flat (some ctxCacheBuflen) type .start bufs = .ok s) (buf : List UInt8)
    {mem : ℕ → UInt8} {src n : ℕ} (hmem : Flat.region mem src n = s.ctx.cache ++ buf) {fuel : ℕ}
    (hfuel : stripFuel n ≤ fuel) :
    ∃ t, stripList none fuel type (s.ctx.hold []) (.buffer :: s.trace) (s.ctx.cache ++ buf) = .ok ((), t) ∧
      ((∃ c, stripFlat (some ctxCacheBuflen) fuel type (s.ctx.hold []) [] mem src n src = .ok ((), c) ∧
        c.buf.count = 0 ∧ c.buf.rpos = src + n) ↔ (type = .html → NamesFit ctxCacheBuflen t.trace)) := by
  have hn : s.ctx.cache.length + buf.length = n := by
    rw [← List.length_append, ← hmem]
    simp [Flat.region]
  obtain ⟨c, hreach, hnil, rfl, hwithin⟩ := feedAll_ok h
  have hnext := hreach.next buf hnil
  have hgood := hnext.good
  have hlt := (machine type).measure_lt (c := c.session.handOver Stream buf) hgood.callers
    (Nat.le_of_eq (List.length_append.trans hn))
  obtain ⟨t, hrun, htnil, hpath⟩ := stripBuffer_follows type hgood (Nat.lt_of_lt_of_le hlt hfuel)
  have ht := hnext.path hpath
  obtain ⟨older, htraced⟩ := ht.traced
  have hbelow : WritesBelow ctxCacheBuflen t.trace ↔ (type = .html → NamesFit ctxCacheBuflen t.trace) := by
    rw [htraced.held.writesBelow]
    by_cases hhtml : type = .html
    · subst hhtml
      obtain ⟨st, he⟩ := htraced.held.settled
      have hinv : NameInv ctxCacheBuflen (At.view (bufs ++ [buf]) ⟨htmlMachine.top, [], t⟩) :=
        (nameInv (by decide)).reach ht
      rw [he, namesFit_append (by simp)]
      exact hinv.writes.trans (by simp [At.view])
    · have hw := (writesBelow_of_ne hhtml ctxCacheBuflen).reach ht
      exact iff_of_true hw fun h => absurd h hhtml
  have hstart : WritesBelow ctxCacheBuflen (c.session.handOver Stream buf).trace :=
    (hwithin _ rfl).cons fun k hk => by cases hk
  refine ⟨t, hrun, ?_⟩
  rw [← hbelow]
  rcases stripBuffer_bounded_ok ctxCacheBuflen hstart hrun with ⟨hw, hok⟩ | ⟨hw, e, he, herr⟩
  · refine iff_of_true ?_ hw
    have hstrip : stripList (some ctxCacheBuflen) fuel type (c.session.ctx.hold []) (.buffer :: c.settled)
        (c.session.ctx.cache ++ buf) = .ok ((), t) := hok
    obtain ⟨t', ht', hsame⟩ := stripList_untraced hstrip []
    exact stripFlat_consumes (hmem ▸ ht') (by rw [← hsame.buf, htnil])
  · refine iff_of_false ?_ hw
    rintro ⟨p, hp, -⟩
    rcases hlist : stripList (some ctxCacheBuflen) fuel type (c.session.ctx.hold []) []
        (Flat.region mem src n) with e' | ⟨⟨⟩, t'⟩
    · have herr' := stripFlat_error _ fuel type _ mem src n src (.inl (Nat.le_refl src)) hlist
      rw [herr'] at hp
      cases hp
    · rw [hmem] at hlist
      obtain ⟨t'', ht'', -⟩ := stripList_untraced hlist (.buffer :: c.settled)
      have herr' : stripList (some ctxCacheBuflen) fuel type (c.session.ctx.hold []) (.buffer :: c.settled)
          (c.session.ctx.cache ++ buf) = .error e := herr
      rw [herr'] at ht''
      cases ht''

def loaded (buf : List UInt8) : ℕ → UInt8 := fun i => buf.getD i 0

instance (n : ℕ) (x : Ctx) (rest : List UInt8) (older : List Item) : Decidable (NameFits n x rest older) :=
  decidable_of_iff (_ ∧ _) ⟨fun h => ⟨h.1, h.2⟩, fun h => ⟨h.name, h.endName⟩⟩

instance namesFitDecidable (n : ℕ) : ∀ tr, Decidable (NamesFit n tr)
  | [] => isTrue trivial
  | .turn r x rest _ :: tr =>
    have := namesFitDecidable n tr
    decidable_of_iff ((r = .htmlStripTagname → NameFits n x rest tr) ∧ NamesFit n tr) namesFit_turn.symm
  | .buffer :: tr | .skip _ _ :: tr | .emit _ _ _ :: tr | .cacheCall _ _ _ :: tr | .tagWrite _ :: tr
  | .stack _ :: tr => namesFitDecidable n tr

/-- The page `<a b>`, of which the first buffer has no more than the `<`. -/
theorem consumed_iff_lt_a : ∃ s, feedAll Flat (some ctxCacheBuflen) .html .start [lit "<"] = .ok s ∧
    ∃ c, stripFlat (some ctxCacheBuflen) (stripFuel 5) .html (s.ctx.hold []) [] (loaded (lit "<a b>")) 0 5 0 =
      .ok ((), c) ∧ c.buf.count = 0 ∧ c.buf.rpos = 0 + 5 := by
  have hfits : ((feedAll Stream (some ctxCacheBuflen) .html .start [lit "<"]).bind fun s =>
      (stripList none (stripFuel 5) .html (s.ctx.hold []) (.buffer :: s.trace) (s.ctx.cache ++ lit "a b>")).map fun p =>
        (s.ctx.cache, decide (NamesFit ctxCacheBuflen p.2.trace))) = .ok (lit "<", true) := by decide +kernel
  rcases hs : feedAll Stream (some ctxCacheBuflen) .html .start [lit "<"] with e | s
  · rw [hs] at hfits
    cases hfits
  · rw [hs] at hfits
    have hmap : (stripList none (stripFuel 5) .html (s.ctx.hold []) (.buffer :: s.trace)
        (s.ctx.cache ++ lit "a b>")).map (fun p => (s.ctx.cache, decide (NamesFit ctxCacheBuflen p.2.trace))) =
        .ok (lit "<", true) := hfits
    have hmem (hheld : s.ctx.cache = lit "<") :
        Flat.region (loaded (lit "<a b>")) 0 5 = s.ctx.cache ++ lit "a b>" := by
      rw [hheld]
      decide
    rw [← feedAll_flat] at hs
    rcases hlist : stripList none (stripFuel 5) .html (s.ctx.hold []) (.buffer :: s.trace)
        (s.ctx.cache ++ lit "a b>") with e | ⟨⟨⟩, t⟩
    · rw [hlist] at hmap
      cases hmap
    · rw [hlist] at hmap
      obtain ⟨hheld, hnames⟩ := Prod.mk.inj (Except.ok.inj hmap)
      obtain ⟨t', ht', hiff⟩ := consumed_iff hs (lit "a b>") (hmem hheld) (Nat.le_refl _)
      rw [hlist] at ht'
      cases ht'
      exact ⟨s, hs, hiff.mpr fun _ => of_decide_eq_true hnames⟩

def longName : List UInt8 := lt :: (List.replicate 68 97 ++ lit "></b>")

/-- The end of the name of 68 bytes is never read. -/
theorem not_consumed : ¬ ∀ (type : FileType) (bufs : List (List UInt8)) (s : Session) (buf : List UInt8)
    (mem : ℕ → UInt8) (src n fuel : ℕ), feedAll Flat (some ctxCacheBuflen) type .start bufs = .ok s →
      Flat.region mem src n = s.ctx.cache ++ buf → stripFuel n ≤ fuel →
        ∃ c, stripFlat (some ctxCacheBuflen) fuel type (s.ctx.hold []) [] mem src n src = .ok ((), c) ∧
          c.buf.count = 0 ∧ c.buf.rpos = src + n := by
  intro h
  have hregion : Flat.region (loaded longName) 0 74 = longName := by decide
  obtain ⟨c, hc, -⟩ := h .html [] Session.start longName (loaded longName) 0 74 (stripFuel 74) rfl hregion
    (Nat.le_refl _)
  have hnone : (stripList (some ctxCacheBuflen) (stripFuel 74) .html (Session.start.ctx.hold []) []
      longName).toOption = none := by decide +kernel
  rcases hrun : stripList (some ctxCacheBuflen) (stripFuel 74) .html (Session.start.ctx.hold []) []
      longName with e | ⟨⟨⟩, t⟩
  · rw [← hregion] at hrun
    have herr := stripFlat_error _ _ .html _ _ 0 74 0 (.inl (Nat.le_refl 0)) hrun
    rw [herr] at hc
    cases hc
  · rw [hrun] at hnone
    cases hnone

end Consumed

end NginB.Minify
