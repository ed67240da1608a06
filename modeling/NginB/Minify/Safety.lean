import NginB.Minify.Bounded

/-! # The minifiers stay within their buffers

From every context that a response can reach, a minifier reads the next buffer to its
end: it reads no byte behind the last unread one, and it may write over the bytes it has
read. A write behind a tag-name cache is the only fault there is.
-/
namespace NginB.Minify
open NginB.Program Relation Ascii

section Untraced
variable {cap : Option ℕ} {type : FileType}

/-- Two running minifiers that differ in nothing but their traces. -/
structure Conf.Untraced (s t : Conf Stream) : Prop where
  ctx : s.ctx = t.ctx
  buf : s.buf = t.buf

theorem Conf.Untraced.refreshPre {s t : Conf Stream} (h : s.Untraced t) :
    s.refreshPre.Untraced t.refreshPre := by
  unfold Conf.refreshPre
  rw [h.ctx, h.buf]
  split
  · exact h
  · split
    · exact ⟨by simp only [Conf.modifyCtx, h.ctx], h.buf⟩
    · split
      · exact ⟨by simp only [Conf.modifyCtx, h.ctx], h.buf⟩
      · exact h

theorem PrimAgree.untraced (cap : Option ℕ) : PrimAgree (Terms.strict Conf.Untraced) cap cap where
  getCtx := agree_read fun _ _ h => h.ctx
  count := agree_read fun _ _ h => by rw [h.buf]
  dstlen := agree_read fun _ _ h => by rw [h.buf]
  rposAt k := agree_readIf (fun _ _ h => by rw [h.buf]) fun _ _ h _ => by rw [h.buf]
  rposIs a := agree_readIf (fun _ _ h => by rw [h.buf]) fun _ _ h _ => by rw [h.buf]
  literalAt a i := agree_readIf (fun _ _ _ => Iff.rfl) fun _ _ _ _ => rfl
  visit r := agree_modify (fun _ _ h => ⟨h.ctx, h.buf⟩) fun _ => id
  cacheCall a := agree_modify (fun _ _ h => ⟨h.ctx, h.buf⟩) fun _ => id
  incRpos := agree_modifyIf (fun _ _ h => by rw [h.buf])
    (fun _ _ h _ => ⟨h.ctx, congrArg Buffer.inc h.buf⟩) fun _ => id
  copyChar a := agree_modifyIf (fun _ _ h => by rw [h.buf])
    (fun _ _ h _ => ⟨h.ctx, congrArg (Buffer.put a) h.buf⟩) fun _ => id
  refreshPre := agree_modify (fun _ _ h => h.refreshPre) fun _ => id
  modifyCtx f := agree_modify (fun _ _ h => ⟨congrArg f h.ctx, h.buf⟩) fun _ => id
  modifyCtxIf e f := agree_modifyIf (fun _ _ h => by rw [h.ctx])
    (fun _ _ h _ => ⟨congrArg f h.ctx, h.buf⟩) fun _ => id
  setStack f := agree_modify (fun _ _ h => ⟨by simp only [Conf.setStack, h.ctx], h.buf⟩) fun _ => id
  setStackIf e f := agree_modifyIf (fun _ _ h => by rw [h.ctx])
    (fun _ _ h _ => ⟨by simp only [Conf.setStack, h.ctx], h.buf⟩) fun _ => id
  tagWrite i f _ := agree_modifyIf (fun _ _ _ => Iff.rfl)
    (fun _ _ h _ => ⟨congrArg f h.ctx, h.buf⟩) fun _ => id

theorem stripList_untraced {fuel : ℕ} {x : Ctx} {tr : List Item} {data : List UInt8} {t : Conf Stream}
    (h : stripList cap fuel type x tr data = .ok ((), t)) (tr' : List Item) :
    ∃ t', stripList cap fuel type x tr' data = .ok ((), t') ∧ t.Untraced t' := by
  have hsame : Conf.Untraced ⟨x, ⟨data, []⟩, tr⟩ ⟨x, ⟨data, []⟩, tr'⟩ := ⟨rfl, rfl⟩
  have hagree := ((PrimAgree.untraced cap).stripBuffer fuel type).run _ _ hsame
  unfold stripList at h ⊢
  rw [h] at hagree
  rcases hrun : (stripBuffer (B := Stream) cap fuel type).run ⟨x, ⟨data, []⟩, tr'⟩ with e | ⟨⟨⟩, t'⟩
  · rw [hrun] at hagree
    exact hagree.elim
  · rw [hrun] at hagree
    exact ⟨t', rfl, hagree.2⟩

end Untraced

def Within (cap : Option ℕ) (trace : List Item) : Prop := ∀ n, cap = some n → WritesBelow n trace

section Runs
variable {cap : Option ℕ} {type : FileType} {bufs : List (List UInt8)} {s : Session}

/-- What a response has reached is what the unbounded minifier reaches. -/
theorem feedAll_ok (h : feedAll Flat cap type .start bufs = .ok s) : ∃ c,
    Reach (machine type) bufs ⟨(machine type).top, [], c⟩ ∧ c.buf.rest = [] ∧ s = c.session ∧
      Within cap s.trace := by
  rw [feedAll_flat] at h
  obtain ⟨c, hreach, hnil, hrun⟩ := feedAll_reach type bufs
  refine ⟨c, hreach, hnil, ?_⟩
  cases cap with
  | none =>
    rw [hrun] at h
    cases h
    exact ⟨rfl, fun n hn => nomatch hn⟩
  | some n =>
    rcases feedAll_bounded n type bufs hrun with ⟨hw, hok⟩ | ⟨-, e, -, herr⟩
    · rw [hok] at h
      cases h
      refine ⟨rfl, fun m hm => ?_⟩
      cases hm
      exact hw
    · rw [herr] at h
      cases h

/-- A response is read to its end unless a name does not fit its cache. -/
theorem feedAll_ends (cap : Option ℕ) (type : FileType) (bufs : List (List UInt8)) :
    (∃ s, feedAll Flat cap type .start bufs = .ok s) ∨
      ∃ n e, cap = some n ∧ e.isOverflow = true ∧ feedAll Flat cap type .start bufs = .error e := by
  rw [feedAll_flat]
  obtain ⟨c, hreach, hnil, hrun⟩ := feedAll_reach type bufs
  cases cap with
  | none => exact .inl ⟨_, hrun⟩
  | some n =>
    rcases feedAll_bounded n type bufs hrun with ⟨-, hok⟩ | ⟨-, e, he, herr⟩
    · exact .inl ⟨_, hok⟩
    · exact .inr ⟨n, e, rfl, he, herr⟩

theorem stripList_ends (h : feedAll Flat cap type .start bufs = .ok s) (buf : List UInt8) {fuel : ℕ}
    (hfuel : stripFuel (s.ctx.cache.length + buf.length) ≤ fuel) :
    (∃ t, stripList cap fuel type (s.ctx.hold []) [] (s.ctx.cache ++ buf) = .ok ((), t) ∧
      t.buf.rest = []) ∨
    ∃ n e, cap = some n ∧ e.isOverflow = true ∧
      stripList cap fuel type (s.ctx.hold []) [] (s.ctx.cache ++ buf) = .error e := by
  obtain ⟨c, hreach, hnil, rfl, -⟩ := feedAll_ok h
  have hgood := (hreach.next buf hnil).good
  have hgood' : (machine type).Good ⟨(machine type).top, [],
      ⟨c.ctx.hold [], ⟨c.ctx.cache ++ buf, []⟩, []⟩⟩ := ⟨hgood.callers, hgood.fit⟩
  have hlt := (machine type).measure_lt (c := ⟨c.ctx.hold [], ⟨c.ctx.cache ++ buf, []⟩, []⟩)
    hgood.callers (Nat.le_of_eq List.length_append)
  obtain ⟨t, hrun, ht, -⟩ := stripBuffer_follows type hgood' (Nat.lt_of_lt_of_le hlt hfuel)
  cases cap with
  | none => exact .inl ⟨t, hrun, ht⟩
  | some n =>
    rcases stripBuffer_bounded_ok n (fun k hmem => (List.not_mem_nil hmem).elim) hrun with
      ⟨-, hok⟩ | ⟨-, e, he, herr⟩
    · exact .inl ⟨t, hok, ht⟩
    · exact .inr ⟨n, e, rfl, he, herr⟩

/-- Every iteration starts in a context that its loop can have, with nothing held back. -/
theorem turns_fit {M : Machine} : TraceInv M fun v =>
    ∀ r x u d, Item.turn r x u d ∈ v.trace → M.Fit r x u ∧ x.cache = [] where
  start := by simp
  next buf _ h _ := by simpa using h
  turn {v es y nxt k k' r' n tr} hv h hc _ _ _ _ _ htr r x u d hmem := by
    subst htr
    rcases List.mem_append.mp hmem with hmem | hmem
    · exact absurd (List.mem_reverse.mp hmem) (Ev.turn_notMem_items v.ctx x r u d es v.pending)
    · rcases List.mem_cons.mp hmem with he | hmem
      · cases he
        exact ⟨hv.fit hc, hc⟩
      · exact h r x u d hmem
  hold {v y} a hv h hc _ _ r x u d hmem := by
    rcases List.mem_cons.mp hmem with he | hmem
    · cases he
    · rcases List.mem_cons.mp hmem with he | hmem
      · cases he
        exact ⟨hv.fit hc, hc⟩
      · exact h r x u d hmem
  done _ h _ := h

end Runs

/-- What an iteration takes for granted of the unread bytes. -/
def Granted : Item → Prop
  | .turn _ x unread _ =>
    (x.state.top = .htmlTagBang → 2 < unread.length ∧ unread.head? = some lt) ∧
      (x.state.top = .htmlComment → 4 ≤ unread.length ∧ lit "<!--" <+: unread)
  | _ => True

theorem granted_of_fit {type : FileType} {r : Routine} {x : Ctx} {u : List UInt8} {d : ℕ}
    (h : (machine type).Fit r x u) (hx : x.cache = []) : Granted (.turn r x u d) := by
  cases type with
  | html =>
    have hl := HtmlFit.lead h
    rw [hx, List.nil_append] at hl
    constructor
    · intro hs
      rw [hs] at hl
      obtain ⟨⟨t, rfl⟩, h2⟩ := hl
      exact ⟨h2, rfl⟩
    · intro hs
      rw [hs] at hl
      obtain ⟨t, rfl⟩ := hl
      exact ⟨by simp, t, rfl⟩
  | css =>
    have htop := cssStates_top (CssFit.stack h)
    constructor <;> intro hs <;> simp [hs] at htop
  | js =>
    have htop := jsStates_top (JsFit.stack h)
    constructor <;> intro hs <;> simp [hs] at htop

/-- No minifier reads or skips a byte behind the unread ones, over- or underruns its stack or
its carry-over cache, or runs for ever, on any buffers; and the states that take bytes for
granted have them. -/
theorem no_read_past_end (cap : Option ℕ) (type : FileType) (bufs : List (List UInt8)) :
    match feedAll Flat cap type .start bufs with
    | .ok s => ∀ i ∈ s.trace, Granted i
    | .error e => e.isOverflow = true ∧ cap ≠ none := by
  rcases feedAll_ends cap type bufs with ⟨s, hs⟩ | ⟨n, e, rfl, he, herr⟩
  · rw [hs]
    obtain ⟨c, hreach, -, rfl, -⟩ := feedAll_ok hs
    have hfit := turns_fit.reach hreach
    intro i hi
    cases i with
    | turn r x u d =>
      obtain ⟨hf, hx⟩ := hfit r x u d hi
      exact granted_of_fit hf hx
    | _ => trivial
  · rw [herr]
    exact ⟨he, Option.some_ne_none n⟩

section Strip
variable {cap : Option ℕ} {type : FileType} {bufs : List (List UInt8)} {s : Session}
  {mem : ℕ → UInt8} {src n : ℕ}

/-- From every context that a response has reached, rewriting the next buffer in place does
what writing to a destination apart from it does. -/
theorem in_place_safe (h : feedAll Flat cap type .start bufs = .ok s) (buf : List UInt8)
    (hmem : Flat.region mem src n = s.ctx.cache ++ buf) {fuel : ℕ} (hfuel : stripFuel n ≤ fuel)
    {dst : ℕ} (hdst : dst + n ≤ src ∨ src + n ≤ dst) :
    (∃ p q, stripFlat cap fuel type (s.ctx.hold []) [] mem src n src = .ok ((), p) ∧
      stripFlat cap fuel type (s.ctx.hold []) [] mem src n dst = .ok ((), q) ∧
      SameRewrite mem src n p q) ∨
    ∃ m e, cap = some m ∧ e.isOverflow = true ∧
      stripFlat cap fuel type (s.ctx.hold []) [] mem src n src = .error e ∧
      stripFlat cap fuel type (s.ctx.hold []) [] mem src n dst = .error e := by
  have hn : n = s.ctx.cache.length + buf.length := by
    rw [← List.length_append, ← hmem]
    simp [Flat.region]
  have hwithin : TurnsWithin n [] := fun _ _ _ _ hmem => (List.not_mem_nil hmem).elim
  have hapart : dst ≤ src ∨ src + n ≤ dst := by omega
  rw [hn] at hfuel
  rcases stripList_ends h buf hfuel with ⟨t, ht, -⟩ | ⟨m, e, hm, he, herr⟩
  · rw [← hmem] at ht
    obtain ⟨p, hp, hrel⟩ := stripFlat_ok cap fuel type _ mem src n src (Nat.le_refl n) hwithin
      (.inl (Nat.le_refl src)) ht
    obtain ⟨q, hq, hrel'⟩ := stripFlat_ok cap fuel type _ mem src n dst (Nat.le_refl n) hwithin
      hapart ht
    exact .inl ⟨p, q, hp, hq, Stands.sameRewrite hrel hrel' hdst⟩
  · rw [← hmem] at herr
    exact .inr ⟨m, e, hm, he,
      stripFlat_error cap fuel type _ mem src n src (.inl (Nat.le_refl src)) herr,
      stripFlat_error cap fuel type _ mem src n dst hapart herr⟩

/-- The first buffer `<` of a page, at address 7 and with a destination at address 0. -/
theorem in_place_safe_lt :
    (∃ p q, stripFlat (some 64) 32 .html (Session.start.ctx.hold []) [] (fun _ => lt) 7 1 7 = .ok ((), p) ∧
      stripFlat (some 64) 32 .html (Session.start.ctx.hold []) [] (fun _ => lt) 7 1 0 = .ok ((), q) ∧
      SameRewrite (fun _ => lt) 7 1 p q) ∨
    ∃ m e, some 64 = some m ∧ e.isOverflow = true ∧
      stripFlat (some 64) 32 .html (Session.start.ctx.hold []) [] (fun _ => lt) 7 1 7 = .error e ∧
      stripFlat (some 64) 32 .html (Session.start.ctx.hold []) [] (fun _ => lt) 7 1 0 = .error e := by
  have hstart : feedAll Flat (some 64) .html .start [] = .ok Session.start := rfl
  exact in_place_safe hstart [lt] rfl (by decide) (.inl (by decide))

end Strip

end NginB.Minify
