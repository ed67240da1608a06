import NginB.Minify.Simulation

/-! # Rewriting a buffer in place

`Stands` relates memory with pointers to the list of unread and of written bytes.
It holds when the destination is the source and when it is apart from the source,
and the buffer operations respect it, so the two ways of running a minifier agree
with the same run over lists.
-/
namespace NginB.Minify
open NginB.Program

/-- Every iteration of the trace starts with no more bytes written than consumed, when the
buffer has `n` bytes. -/
def TurnsWithin (n : ℕ) (trace : List Item) : Prop :=
  ∀ r x u d, Item.turn r x u d ∈ trace → d + u.length ≤ n

theorem TurnsWithin.cons {n : ℕ} {trace : List Item} {i : Item} (h : TurnsWithin n trace)
    (hi : ∀ r x u d, i = .turn r x u d → d + u.length ≤ n) : TurnsWithin n (i :: trace) := by
  intro r x u d hmem
  rcases List.mem_cons.mp hmem with he | hmem'
  · exact hi r x u d he.symm
  · exact h r x u d hmem'

section Buffers
variable {B C : Type} [Buffer B] [Buffer C]

/-- The operations of two kinds of buffer respect `R`, under which at most `n` bytes are
unread or written. -/
structure BufferSim (n : ℕ) (R : B → C → Prop) : Prop where
  count : ∀ {b c}, R b c → Buffer.count b = Buffer.count c
  dstlen : ∀ {b c}, R b c → Buffer.dstlen b = Buffer.dstlen c
  bound : ∀ {b c}, R b c → Buffer.dstlen b + (Buffer.count b).toNat ≤ n
  rposAt : ∀ {b c} {k : ℕ}, R b c → (k : ℤ) < Buffer.count b →
    Buffer.rposAt b k = Buffer.rposAt c k
  wposBack : ∀ {b c} {k : ℕ}, R b c → 1 ≤ k → k ≤ Buffer.dstlen b →
    Buffer.wposBack b k = Buffer.wposBack c k
  inc : ∀ {b c}, R b c → 0 < Buffer.count b → R (Buffer.inc b) (Buffer.inc c)
  put : ∀ {b c} (a : UInt8), R b c → 0 < Buffer.count b → R (Buffer.put a b) (Buffer.put a c)

structure ConfRel (n : ℕ) (R : B → C → Prop) (s : Conf B) (t : Conf C) : Prop where
  ctx : s.ctx = t.ctx
  trace : s.trace = t.trace
  within : TurnsWithin n s.trace
  buf : R s.buf t.buf

variable {n : ℕ} {R : B → C → Prop}

theorem BufferSim.unread_eq (sim : BufferSim n R) {b : B} {c : C} (h : R b c) :
    unread b = unread c := by
  unfold unread
  rw [sim.count h]
  apply List.map_congr_left
  intro k hk
  have hlt := List.mem_range.mp hk
  exact sim.rposAt h (by rw [sim.count h]; omega)

theorem BufferSim.rposIs_eq (sim : BufferSim n R) {b : B} {c : C} (h : R b c) (a : List UInt8)
    (ha : (a.length : ℤ) ≤ Buffer.count b) :
    (List.range a.length).map (Buffer.rposAt b) = (List.range a.length).map (Buffer.rposAt c) := by
  apply List.map_congr_left
  intro k hk
  have hlt := List.mem_range.mp hk
  exact sim.rposAt h (by omega)

omit [Buffer B] [Buffer C] in
theorem ConfRel.modifyCtx {s : Conf B} {t : Conf C} (h : ConfRel n R s t) (f : Ctx → Ctx) :
    ConfRel n R (s.modifyCtx f) (t.modifyCtx f) :=
  ⟨congrArg f h.ctx, h.trace, h.within, h.buf⟩

omit [Buffer B] [Buffer C] in
theorem ConfRel.setStack {s : Conf B} {t : Conf C} (h : ConfRel n R s t) (f : StateStack → StateStack) :
    ConfRel n R (s.setStack f) (t.setStack f) := by
  refine ⟨?_, ?_, h.within.cons fun _ _ _ _ he => (nomatch he), h.buf⟩
  · simp only [Conf.setStack, h.ctx]
  · simp only [Conf.setStack, h.ctx, h.trace]

theorem ConfRel.refreshPre (sim : BufferSim n R) {s : Conf B} {t : Conf C} (h : ConfRel n R s t) :
    ConfRel n R s.refreshPre t.refreshPre := by
  have hd := sim.dstlen h.buf
  have hback : ∀ k, 1 ≤ k → k ≤ Buffer.dstlen s.buf →
      Buffer.wposBack s.buf k = Buffer.wposBack t.buf k := fun k => sim.wposBack h.buf
  unfold Conf.refreshPre
  rw [← h.ctx, ← hd]
  split
  · exact h
  · split
    · rename_i h2
      rw [hback 1 le_rfl (by omega), hback 2 (by omega) h2]
      exact h.modifyCtx _
    · split
      · rename_i h1
        rw [hback 1 le_rfl (by omega)]
        exact h.modifyCtx _
      · exact h

theorem PrimAgree.ofBufferSim (sim : BufferSim n R) (cap : Option ℕ) :
    PrimAgree (Terms.strict (ConfRel n R)) cap cap where
  getCtx := agree_read fun _ _ h => h.ctx
  count := agree_read fun _ _ h => sim.count h.buf
  dstlen := agree_read fun _ _ h => sim.dstlen h.buf
  rposAt k := agree_readIf (fun s t h => by rw [sim.count h.buf]) fun s t h hk => sim.rposAt h.buf hk
  rposIs a := by
    refine agree_readIf (fun s t h => by rw [sim.count h.buf]) fun s t h ha => ?_
    rw [sim.rposIs_eq h.buf a ha]
  literalAt a i := agree_readIf (fun _ _ _ => Iff.rfl) fun _ _ _ _ => rfl
  visit r := by
    refine agree_modify (fun s t h => ⟨h.ctx, ?_, ?_, h.buf⟩) fun _ => id
    · simp only [Conf.visit, h.ctx, h.trace, sim.unread_eq h.buf, sim.dstlen h.buf]
    · refine h.within.cons fun r x u d he => ?_
      cases he
      rw [unread_length]
      exact sim.bound h.buf
  cacheCall a := by
    refine agree_modify (fun s t h => ⟨h.ctx, ?_, h.within.cons fun _ _ _ _ he => ?_, h.buf⟩) fun _ => id
    · simp only [Conf.cacheCall, h.ctx, h.trace, sim.unread_eq h.buf]
    · cases he
  incRpos := by
    refine agree_modifyIf (fun s t h => by rw [sim.count h.buf]) (fun s t h hb => ?_) fun _ => id
    refine ⟨h.ctx, ?_, h.within.cons fun _ _ _ _ he => ?_, sim.inc h.buf hb⟩
    · simp only [Conf.incRpos, h.ctx, h.trace, sim.rposAt (k := 0) h.buf hb]
    · cases he
  copyChar a := by
    refine agree_modifyIf (fun s t h => by rw [sim.count h.buf]) (fun s t h hb => ?_) fun _ => id
    refine ⟨h.ctx, ?_, h.within.cons fun _ _ _ _ he => ?_, sim.put a h.buf hb⟩
    · simp only [Conf.copyChar, h.ctx, h.trace, sim.rposAt (k := 0) h.buf hb]
    · cases he
  refreshPre := agree_modify (fun _ _ h => h.refreshPre sim) fun _ => id
  modifyCtx f := agree_modify (fun _ _ h => h.modifyCtx f) fun _ => id
  modifyCtxIf e f := agree_modifyIf (fun _ _ h => by rw [h.ctx]) (fun _ _ h _ => h.modifyCtx f) fun _ => id
  setStack f := agree_modify (fun _ _ h => h.setStack f) fun _ => id
  setStackIf e f := agree_modifyIf (fun _ _ h => by rw [h.ctx]) (fun _ _ h _ => h.setStack f) fun _ => id
  tagWrite i f _ := by
    refine agree_modifyIf (fun _ _ _ => Iff.rfl) (fun s t h _ => ?_) fun _ => id
    refine ⟨congrArg f h.ctx, congrArg _ h.trace, h.within.cons fun _ _ _ _ he => ?_, h.buf⟩
    cases he

end Buffers

/-- The memory `f`, once `mem`, holds the unread and the written bytes of `s`: the destination
starts at `dst` and is never ahead of `rpos`, unless it lies behind the unread bytes, which end
at `stop`. -/
structure Stands (mem : ℕ → UInt8) (n dst stop : ℕ) (f : Flat) (s : Stream) : Prop where
  count : f.count = s.rest.length
  dstlen : f.dstlen = s.out.length
  base : f.wpos = dst + s.out.length
  total : s.out.length + s.rest.length ≤ n
  unread : ∀ k < s.rest.length, f.mem (f.rpos + k) = s.rest.getD k 0
  written : ∀ k, 1 ≤ k → k ≤ s.out.length → f.mem (f.wpos - k) = s.out.getD (k - 1) 0
  apart : f.wpos ≤ f.rpos ∨ f.rpos + s.rest.length ≤ dst
  frame : ∀ a, a < dst ∨ f.wpos ≤ a → f.mem a = mem a
  front : f.rpos + s.rest.length = stop

namespace Stands
variable {mem : ℕ → UInt8} {n dst stop : ℕ} {f : Flat} {s : Stream}

theorem exists_cons (h : Stands mem n dst stop f s) (hc : 0 < Buffer.count f) :
    ∃ b rest, s.rest = b :: rest := by
  have hlen : 0 < f.count := hc
  rw [h.count] at hlen
  exact List.exists_cons_of_length_pos (by omega)

theorem inc (h : Stands mem n dst stop f s) (hc : 0 < Buffer.count f) :
    Stands mem n dst stop (Buffer.inc f) (Buffer.inc s) := by
  rcases s with ⟨_, out⟩
  obtain ⟨b, rest, rfl⟩ := h.exists_cons hc
  have hcount := h.count
  have htotal := h.total
  have hapart := h.apart
  simp only [List.length_cons] at hcount htotal hapart
  have hfront := h.front
  simp only [List.length_cons] at hfront
  refine ⟨?_, h.dstlen, h.base, ?_, ?_, h.written, ?_, h.frame, ?_⟩
  · change f.count - 1 = (rest.length : ℤ)
    omega
  · change out.length + rest.length ≤ n
    omega
  · intro k hk
    have hk' : k + 1 < (b :: rest).length := Nat.succ_lt_succ hk
    have hbyte := h.unread (k + 1) hk'
    rw [show f.rpos + (k + 1) = f.rpos + 1 + k by omega] at hbyte
    exact hbyte
  · change f.wpos ≤ f.rpos + 1 ∨ f.rpos + 1 + rest.length ≤ dst
    omega
  · change f.rpos + 1 + rest.length = stop
    omega

theorem put (h : Stands mem n dst stop f s) (a : UInt8) (hc : 0 < Buffer.count f) :
    Stands mem n dst stop (Buffer.put a f) (Buffer.put a s) := by
  rcases s with ⟨_, out⟩
  obtain ⟨b, rest, rfl⟩ := h.exists_cons hc
  have hcount := h.count
  have hdstlen := h.dstlen
  have hbase := h.base
  have htotal := h.total
  have hapart := h.apart
  have hfront := h.front
  simp only [List.length_cons] at hcount htotal hapart hdstlen hbase hfront
  refine ⟨?_, ?_, ?_, ?_, ?_, ?_, ?_, ?_, ?_⟩
  · change f.count - 1 = (rest.length : ℤ)
    omega
  · change f.dstlen + 1 = out.length + 1
    omega
  · change f.wpos + 1 = dst + (out.length + 1)
    omega
  · change out.length + 1 + rest.length ≤ n
    omega
  · intro k hk
    change k < rest.length at hk
    have hbyte := h.unread (k + 1) (Nat.succ_lt_succ hk)
    rw [show f.rpos + (k + 1) = f.rpos + 1 + k by omega] at hbyte
    change Function.update f.mem f.wpos a (f.rpos + 1 + k) = rest.getD k 0
    rw [Function.update_of_ne (by omega), hbyte]
    rfl
  · intro k hk1 hk
    change k ≤ out.length + 1 at hk
    change Function.update f.mem f.wpos a (f.wpos + 1 - k) = (a :: out).getD (k - 1) 0
    rcases Nat.lt_or_ge 1 k with h2 | h2
    · have hbyte := h.written (k - 1) (by omega) (by simp only; omega)
      rw [Function.update_of_ne (by omega), show f.wpos + 1 - k = f.wpos - (k - 1) by omega, hbyte]
      obtain ⟨j, rfl⟩ : ∃ j, k = j + 2 := ⟨k - 2, by omega⟩
      rfl
    · obtain rfl : k = 1 := by omega
      rw [Nat.add_sub_cancel, Function.update_self]
      rfl
  · change f.wpos + 1 ≤ f.rpos + 1 ∨ f.rpos + 1 + rest.length ≤ dst
    omega
  · intro c hc
    change c < dst ∨ f.wpos + 1 ≤ c at hc
    change Function.update f.mem f.wpos a c = mem c
    rw [Function.update_of_ne (by omega)]
    exact h.frame c (by omega)
  · change f.rpos + 1 + rest.length = stop
    omega

theorem start (mem : ℕ → UInt8) {n : ℕ} (src len dst : ℕ) (hn : len ≤ n)
    (h : dst ≤ src ∨ src + len ≤ dst) : Stands mem n dst (src + len) (Flat.start mem src len dst)
      ⟨Flat.region mem src len, []⟩ := by
  have hlen : (Flat.region mem src len).length = len := by simp [Flat.region]
  refine ⟨?_, rfl, rfl, ?_, ?_, ?_, ?_, fun _ _ => rfl, ?_⟩
  · simp only [hlen, Flat.start]
  · simpa only [hlen, List.length_nil, Nat.zero_add] using hn
  · intro k hk
    rw [hlen] at hk
    simp [Flat.region, Flat.start, hk, List.getD_eq_getElem?_getD]
  · intro k hk1 hk
    rw [List.length_nil] at hk
    omega
  · simp only [hlen]
    exact h
  · simp only [hlen, Flat.start]

theorem written_eq (h : Stands mem n dst stop f s) : f.written = s.out.reverse := by
  have hbase := h.base
  have hdstlen := h.dstlen
  apply List.ext_getElem
  · simp [Flat.written, Flat.region, hdstlen]
  · intro k hk hk'
    have hlt : k < s.out.length := by simpa using hk'
    have hbyte := h.written (s.out.length - k) (by omega) (by omega)
    simp only [Flat.written, Flat.region, List.getElem_map, List.getElem_range,
      List.getElem_reverse]
    rw [show f.wpos - f.dstlen + k = f.wpos - (s.out.length - k) by omega, hbyte,
      show s.out.length - k - 1 = s.out.length - 1 - k by omega, List.getD_eq_getElem?_getD,
      List.getElem?_eq_getElem (by omega), Option.getD_some]

end Stands

/-- `Stands` is respected by the buffer operations. -/
theorem standsSim (mem : ℕ → UInt8) (n dst stop : ℕ) : BufferSim n (Stands mem n dst stop) where
  count h := h.count
  dstlen h := h.dstlen
  bound {f s} h := by
    have htotal := h.total
    change f.dstlen + f.count.toNat ≤ n
    rw [h.count, h.dstlen]
    omega
  rposAt {f s k} h hk := by
    have hlt : (k : ℤ) < f.count := hk
    rw [h.count] at hlt
    exact h.unread k (by omega)
  wposBack {f s k} h hk1 hk := by
    have hle : k ≤ f.dstlen := hk
    rw [h.dstlen] at hle
    exact h.written k hk1 hle
  inc h hc := h.inc hc
  put a h hc := h.put a hc

/-- A run of a minifier, from context `x`, over memory with the source at `src` and the
destination at `dst`. -/
def stripFlat (cap : Option ℕ) (fuel : ℕ) (type : FileType) (x : Ctx) (trace : List Item)
    (mem : ℕ → UInt8) (src n dst : ℕ) : Except Fault (Unit × Conf Flat) :=
  (stripBuffer cap fuel type).run ⟨x, Flat.start mem src n dst, trace⟩

/-- The same run over a list of bytes. -/
def stripList (cap : Option ℕ) (fuel : ℕ) (type : FileType) (x : Ctx) (trace : List Item)
    (data : List UInt8) : Except Fault (Unit × Conf Stream) :=
  (stripBuffer cap fuel type).run ⟨x, ⟨data, []⟩, trace⟩

theorem exists_turnsWithin (trace : List Item) : ∃ n, TurnsWithin n trace := by
  induction trace with
  | nil => exact ⟨0, fun _ _ _ _ hmem => (List.not_mem_nil hmem).elim⟩
  | cons i trace ih =>
    obtain ⟨n, hn⟩ := ih
    cases i with
    | turn r x u d =>
      refine ⟨max n (d + u.length), fun r' x' u' d' hmem => ?_⟩
      rcases List.mem_cons.mp hmem with he | hmem
      · cases he
        exact Nat.le_max_right _ _
      · exact Nat.le_trans (hn r' x' u' d' hmem) (Nat.le_max_left _ _)
    | _ =>
      refine ⟨n, fun r' x' u' d' hmem => ?_⟩
      rcases List.mem_cons.mp hmem with he | hmem
      · cases he
      · exact hn r' x' u' d' hmem

theorem TurnsWithin.mono {n m : ℕ} {trace : List Item} (h : TurnsWithin n trace) (hnm : n ≤ m) :
    TurnsWithin m trace := fun r x u d hmem => Nat.le_trans (h r x u d hmem) hnm

/-- A run over memory agrees with the run over lists, whether the destination is the source,
lies before it or lies behind it. -/
theorem stripFlat_agree (cap : Option ℕ) (fuel : ℕ) (type : FileType) (x : Ctx)
    {trace : List Item} (mem : ℕ → UInt8) {n : ℕ} (src len dst : ℕ) (hlen : len ≤ n)
    (htrace : TurnsWithin n trace) (h : dst ≤ src ∨ src + len ≤ dst) :
    ResultAgree (Terms.strict (ConfRel n (Stands mem n dst (src + len))))
      (stripFlat cap fuel type x trace mem src len dst)
      (stripList cap fuel type x trace (Flat.region mem src len)) :=
  ((PrimAgree.ofBufferSim (standsSim mem n dst (src + len)) cap).stripBuffer fuel type).run _ _
    ⟨rfl, rfl, htrace, Stands.start mem src len dst hlen h⟩

/-- The run over lists decides the run over memory. -/
theorem stripFlat_ok (cap : Option ℕ) (fuel : ℕ) (type : FileType) (x : Ctx)
    {trace : List Item} (mem : ℕ → UInt8) {n : ℕ} (src len dst : ℕ) (hlen : len ≤ n)
    (htrace : TurnsWithin n trace) (h : dst ≤ src ∨ src + len ≤ dst) {t : Conf Stream}
    (ht : stripList cap fuel type x trace (Flat.region mem src len) = .ok ((), t)) :
    ∃ c, stripFlat cap fuel type x trace mem src len dst = .ok ((), c) ∧
      ConfRel n (Stands mem n dst (src + len)) c t := by
  have hagree := stripFlat_agree cap fuel type x mem src len dst hlen htrace h
  rw [ht] at hagree
  rcases hc : stripFlat cap fuel type x trace mem src len dst with e | ⟨⟨⟩, c⟩
  · rw [hc] at hagree
    exact hagree.1.elim
  · rw [hc] at hagree
    exact ⟨c, rfl, hagree.2⟩

theorem stripFlat_error (cap : Option ℕ) (fuel : ℕ) (type : FileType) (x : Ctx)
    {trace : List Item} (mem : ℕ → UInt8) (src len dst : ℕ) (h : dst ≤ src ∨ src + len ≤ dst)
    {e : Fault} (he : stripList cap fuel type x trace (Flat.region mem src len) = .error e) :
    stripFlat cap fuel type x trace mem src len dst = .error e := by
  obtain ⟨n, hn⟩ := exists_turnsWithin trace
  have hagree := stripFlat_agree cap fuel type x mem src len dst (Nat.le_max_right n len)
    (hn.mono (Nat.le_max_left n len)) h
  rw [he] at hagree
  rcases hc : stripFlat cap fuel type x trace mem src len dst with e' | ⟨⟨⟩, c⟩
  · rw [hc] at hagree
    exact congrArg _ (hagree.resolve_left id)
  · rw [hc] at hagree
    exact hagree.elim

section Feed
variable (cap : Option ℕ) (type : FileType)

theorem region_load (data : List UInt8) :
    Flat.region (fun i => data.getD i 0) 0 data.length = data := by
  apply List.ext_getElem
  · simp [Flat.region]
  · intro k hk hk'
    simp only [Flat.region, List.getElem_map, List.getElem_range, Nat.zero_add,
      List.getD_eq_getElem?_getD, List.getElem?_eq_getElem hk', Option.getD_some]

theorem takeBack_eq {s : Session} {n dst stop : ℕ} {mem : ℕ → UInt8} {c : Conf Flat} {t : Conf Stream}
    (h : ConfRel n (Stands mem n dst stop) c t) : s.takeBack Flat c = s.takeBack Stream t := by
  have hwritten : Loadable.written c.buf = Loadable.written t.buf := h.buf.written_eq
  rw [Session.takeBack, Session.takeBack, h.ctx, h.trace, hwritten]

/-- Processing a buffer in place is processing it as a list. -/
theorem feed_flat (s : Session) (buf : List UInt8) :
    feed Flat cap type s buf = feed Stream cap type s buf := by
  generalize hdata : s.ctx.cache ++ buf = data
  generalize hfuel : stripFuel (s.ctx.cache.length + buf.length) = fuel
  generalize hx : ({ s.ctx with cache := [] } : Ctx) = x
  have hflat : feed Flat cap type s buf =
      (stripFlat cap fuel type x (.buffer :: s.trace) (fun i => data.getD i 0) 0 data.length 0).map
        fun r => s.takeBack Flat r.2 := by
    rw [← hdata, ← hfuel, ← hx]
    rfl
  have hlist : feed Stream cap type s buf =
      (stripList cap fuel type x (.buffer :: s.trace) data).map fun r => s.takeBack Stream r.2 := by
    rw [← hdata, ← hfuel, ← hx]
    rfl
  rw [hflat, hlist]
  rcases ht : stripList cap fuel type x (.buffer :: s.trace) data with e | ⟨⟨⟩, t⟩
  · rw [stripFlat_error cap fuel type x _ 0 data.length 0 (.inl (Nat.le_refl 0))
      (by rw [region_load, ht])]
    rfl
  · obtain ⟨n, hn⟩ := exists_turnsWithin (.buffer :: s.trace)
    obtain ⟨c, hc, hrel⟩ := stripFlat_ok cap fuel type x _ 0 data.length 0 (Nat.le_max_right n _)
      (hn.mono (Nat.le_max_left n _)) (.inl (Nat.le_refl 0)) (by rw [region_load, ht])
    rw [hc]
    exact congrArg _ (takeBack_eq hrel)

theorem feedAll_flat (s : Session) (bufs : List (List UInt8)) :
    feedAll Flat cap type s bufs = feedAll Stream cap type s bufs := by
  have hfeed : feed Flat cap type = feed Stream cap type := by
    funext s buf
    exact feed_flat cap type s buf
  rw [feedAll, hfeed, feedAll]

end Feed

/-- Two runs over the same `n` bytes at `src` that end alike, the second with its source
intact, and the first with nothing written ahead of `rpos` at any time. -/
structure SameRewrite (mem : ℕ → UInt8) (src n : ℕ) (p q : Conf Flat) : Prop where
  ctx : p.ctx = q.ctx
  trace : p.trace = q.trace
  count : p.buf.count = q.buf.count
  dstlen : p.buf.dstlen = q.buf.dstlen
  written : p.buf.written = q.buf.written
  intact : Flat.region q.buf.mem src n = Flat.region mem src n
  behind : TurnsWithin n p.trace
  dstlen_le : p.buf.dstlen + p.buf.count.toNat ≤ n

theorem Stands.sameRewrite {mem : ℕ → UInt8} {src n dst : ℕ} {p q : Conf Flat} {s : Conf Stream}
    (hp : ConfRel n (Stands mem n src (src + n)) p s)
    (hq : ConfRel n (Stands mem n dst (src + n)) q s)
    (h : dst + n ≤ src ∨ src + n ≤ dst) : SameRewrite mem src n p q where
  ctx := hp.ctx.trans hq.ctx.symm
  trace := hp.trace.trans hq.trace.symm
  count := hp.buf.count.trans hq.buf.count.symm
  dstlen := hp.buf.dstlen.trans hq.buf.dstlen.symm
  written := hp.buf.written_eq.trans hq.buf.written_eq.symm
  intact := by
    have hbase := hq.buf.base
    have htotal := hq.buf.total
    apply List.map_congr_left
    intro k hk
    have hlt := List.mem_range.mp hk
    exact hq.buf.frame (src + k) (by omega)
  behind := hp.within
  dstlen_le := (standsSim mem n src (src + n)).bound hp.buf

end NginB.Minify
