import NginB.Minify.Arrival
import NginB.Minify.InPlace
import NginB.Minify.Stream

/-! # The body filter in memory

A chain of buffers in memory is read and forwarded as the list of what arrives with them. The
filter rewrites a buffer in place or in a new region, so it leaves the contents of all other
buffers alone, and what it forwards for one of them stays as it is until the end of the call.
-/
namespace NginB.Minify
open NginB.Program

/-- A buffer as the filters in front of this one deliver it: it has its content in memory, or
it is special and has none. -/
structure NgxBuf.Delivered (fresh : ℕ) (b : NgxBuf) : Prop where
  ordered : b.inMemory = true → b.pos ≤ b.last
  inUse : b.inMemory = true → b.region < fresh
  empty : b.inMemory = false → b.special = true ∧ b.fileLast = b.filePos

theorem NgxBuf.Delivered.mono {fresh fresh' : ℕ} {b : NgxBuf} (h : b.Delivered fresh)
    (hle : fresh ≤ fresh') : b.Delivered fresh' :=
  ⟨h.ordered, fun hm => Nat.lt_of_lt_of_le (h.inUse hm) hle, h.empty⟩

def NgxBuf.Apart (b c : NgxBuf) : Prop := b.inMemory = true → c.inMemory = true →
  b.region ≠ c.region ∨ b.last ≤ c.pos ∨ c.last ≤ b.pos

def NgxBuf.arrival (mem : Memory) (b : NgxBuf) : Arrival :=
  if b.inMemory then .data b.readOnly (b.content mem) else .special

/-- The address `a` of the region `r` is not part of any content of the chain. -/
def Outside (links : List NgxBuf) (r a : ℕ) : Prop :=
  ∀ b ∈ links, b.inMemory = true → r ≠ b.region ∨ a < b.pos ∨ b.last ≤ a

/-- The filter `g` has changed nothing of the memory of `f` but what it may: the contents of the
chain and new regions. -/
structure Framed (links : List NgxBuf) (f g : Filter) : Prop where
  fresh : f.fresh ≤ g.fresh
  same : ∀ r a, r < f.fresh → Outside links r a → g.mem r a = f.mem r a

structure Filter.Shows (f : Filter) (s : Stage) : Prop where
  ctx : f.ctx = s.session.ctx
  trace : f.trace = s.session.trace
  pallocs : f.pallocs = s.pallocs
  visits : f.visits = s.visits

section Content
variable {mem mem' : Memory} {b : NgxBuf}

theorem NgxBuf.arrival_bytes (mem : Memory) (b : NgxBuf) : (b.arrival mem).bytes = b.content mem := by
  unfold NgxBuf.arrival
  split
  · rfl
  · next h => exact (if_neg h).symm

theorem NgxBuf.arrival_inMemory (mem : Memory) (b : NgxBuf) : (b.arrival mem).inMemory = b.inMemory := by
  unfold NgxBuf.arrival
  split
  · next h => exact h.symm
  · next h => exact (Bool.eq_false_iff.mpr h).symm

theorem NgxBuf.arrival_readOnly (mem : Memory) (b : NgxBuf) : (b.arrival mem).readOnly = b.readOnly := by
  unfold NgxBuf.arrival
  split
  · rfl
  · next h =>
    have h' : b.inMemory = false := Bool.eq_false_iff.mpr h
    simp only [NgxBuf.inMemory, Bool.or_eq_false_iff] at h'
    simp [Arrival.readOnly, NgxBuf.readOnly, h'.1.2, h'.2]

theorem NgxBuf.content_congr (h : b.inMemory = true → ∀ a, b.pos ≤ a → a < b.last →
    mem' b.region a = mem b.region a) : b.content mem' = b.content mem := by
  unfold NgxBuf.content
  split
  · next hb =>
    apply List.map_congr_left
    intro k hk
    have hlt := List.mem_range.mp hk
    exact h hb (b.pos + k) (Nat.le_add_right _ _) (by omega)
  · rfl

theorem NgxBuf.arrival_congr (h : b.content mem' = b.content mem) : b.arrival mem' = b.arrival mem := by
  unfold NgxBuf.arrival
  rw [h]

theorem Flat.region_length (m : ℕ → UInt8) (a n : ℕ) : (Flat.region m a n).length = n := by
  rw [Flat.region, List.length_map, List.length_range]

theorem NgxBuf.content_length (hb : b.inMemory = true) : (b.content mem).length = b.last - b.pos := by
  rw [NgxBuf.content, if_pos hb, Flat.region_length]

end Content

def Filter.reads (f : Filter) (b : NgxBuf) : List UInt8 :=
  if b.inMemory then f.ctx.cache ++ b.content f.mem else []

/-- The buffer `c` that is processed in place of `b`, and the filter then. -/
structure Prepended (f : Filter) (b : NgxBuf) (g : Filter) (c : NgxBuf) : Prop where
  ctx : g.ctx = f.ctx.hold []
  trace : g.trace = f.trace
  visits : g.visits = f.visits
  pallocs : g.pallocs = if f.ctx.cache = [] then f.pallocs else f.pallocs + 1
  inMemory : c.inMemory = b.inMemory
  readOnly : c.readOnly = b.readOnly
  special : c.special = b.special
  size : c.size = (f.reads b).length
  bytes : Flat.region (g.mem c.region) c.pos (f.reads b).length = f.reads b
  fresh : f.fresh ≤ g.fresh
  mem : ∀ r, r < f.fresh → g.mem r = f.mem r
  place : c = b ∧ f.ctx.cache = [] ∨ c.region = f.fresh ∧ f.fresh < g.fresh ∧ f.ctx.cache ≠ []

section Loop
variable {cap : Option ℕ} {palloc : ℕ → Bool} {type : FileType} {f g : Filter} {b c : NgxBuf}
  {links : List NgxBuf} {s : Stage}

theorem NgxBuf.Delivered.size (hb : b.Delivered f.fresh) :
    b.size = ((b.content f.mem).length : ℤ) := by
  unfold NgxBuf.size
  split
  · next hm =>
    have hle := hb.ordered hm
    rw [NgxBuf.content_length hm]
    omega
  · next hm =>
    have hfile := (hb.empty (Bool.eq_false_iff.mpr hm)).2
    rw [NgxBuf.content, if_neg hm, hfile, Int.sub_self]
    rfl

theorem Filter.reads_length (f : Filter) (hb : b.inMemory = true) :
    (f.reads b).length = f.ctx.cache.length + (b.last - b.pos) := by
  rw [Filter.reads, if_pos hb, List.length_append, NgxBuf.content_length hb]

theorem prependCache_empty (hb : b.Delivered f.fresh) (hc : f.ctx.cache = []) :
    prependCache palloc f b = (f, some b) ∧ Prepended f b f b := by
  have hreads : f.reads b = b.content f.mem := by
    unfold Filter.reads NgxBuf.content
    split
    · rw [hc, List.nil_append]
    · rfl
  refine ⟨if_pos hc, (Ctx.hold_nil hc).symm, rfl, rfl, (if_pos hc).symm, rfl, rfl, rfl, ?_, ?_,
    Nat.le_refl _, fun _ _ => rfl, .inl ⟨rfl, hc⟩⟩
  · rw [hreads, hb.size]
  · rw [hreads]
    unfold NgxBuf.content
    split
    · rw [Flat.region_length]
    · rfl

theorem prependCache_fail (hc : f.ctx.cache ≠ []) (hp : palloc f.pallocs = false) :
    prependCache palloc f b = ({ f with pallocs := f.pallocs + 1 }, none) := by
  rw [prependCache, if_neg hc, if_pos hp]

theorem prependCache_held (hb : b.Delivered f.fresh) (hc : f.ctx.cache ≠ [])
    (hp : palloc f.pallocs = true) : ∃ g c, prependCache palloc f b = (g, some c) ∧
      Prepended f b g c := by
  have hnew : f.ctx.cache ++ Flat.region (f.mem b.region) b.pos b.size.toNat =
      f.ctx.cache ++ b.content f.mem := by
    rw [hb.size, Int.toNat_natCast]
    unfold NgxBuf.content
    split
    · rw [Flat.region_length]
    · rfl
  have heq : prependCache palloc f b = (f.allocate (f.ctx.cache ++ b.content f.mem),
      some (b.assign f.fresh (f.ctx.cache ++ b.content f.mem).length)) := by
    rw [prependCache, if_neg hc, if_neg (by simp [hp]), hnew]
  refine ⟨_, _, heq, rfl, rfl, rfl, (if_neg hc).symm, rfl, rfl, rfl, ?_, ?_, Nat.le_succ _, ?_,
    .inr ⟨rfl, Nat.lt_succ_self _, hc⟩⟩
  · have hmem : (b.assign f.fresh (f.ctx.cache ++ b.content f.mem).length).inMemory = b.inMemory := rfl
    unfold NgxBuf.size Filter.reads
    rw [hmem]
    split
    · exact Int.sub_zero _
    · next hm =>
      have hfile := (hb.empty (Bool.eq_false_iff.mpr hm)).2
      simp [NgxBuf.assign, hfile]
  · change Flat.region (Function.update f.mem f.fresh _ f.fresh) 0 _ = _
    rw [Function.update_self]
    unfold Filter.reads
    split
    · exact region_load _
    · rfl
  · intro r hr
    exact Function.update_of_ne (Nat.ne_of_lt hr) _ _

/-- Without bytes to read a minifier does nothing. -/
theorem stripList_nil (n : ℕ) (x : Ctx) (tr : List Item) :
    stripList cap (stripFuel n) type x tr [] = .ok ((), ⟨x, ⟨[], []⟩, tr⟩) := by
  cases type <;> rfl

/-- The filter and the buffer after the minifier has left the memory `m` of the buffer's region and
has ended as `t` does. -/
structure Processed (g : Filter) (c : NgxBuf) (t : Conf Stream) (m : ℕ → UInt8) : Prop where
  bytes : Flat.region m c.pos t.buf.out.length = t.buf.out.reverse
  same : ∀ a, a < c.pos ∨ c.pos + t.buf.out.length ≤ a → m a = g.mem c.region a

variable (cap type) in
/-- The minifier does with the buffer what a run over its bytes has done. -/
def ProcessAgrees (g : Filter) (c : NgxBuf) (data : List UInt8) : Except Fault (Unit × Conf Stream) → Prop
  | .error e => ngxMinifyProcess cap type g c = .error e
  | .ok ((), t) => t.buf.out.length ≤ data.length ∧ ∃ m, Processed g c t m ∧
      ngxMinifyProcess cap type g c = .ok ({ g with
        mem := Function.update g.mem c.region m, ctx := t.ctx
        trace := t.trace.drop t.ctx.cache.length }, { c with last := c.pos + t.buf.out.length })

theorem process_agree {data : List UInt8} (hsize : c.size = data.length)
    (hdata : Flat.region (g.mem c.region) c.pos data.length = data) :
    ProcessAgrees cap type g c data
      (stripList cap (stripFuel data.length) type g.ctx (.buffer :: g.trace) data) := by
  have hrun : ngxMinifyProcess cap type g c =
      (stripFlat cap (stripFuel data.length) type g.ctx (.buffer :: g.trace) (g.mem c.region) c.pos
        data.length c.pos).map fun r => ({ g with
          mem := Function.update g.mem c.region r.2.buf.mem, ctx := r.2.ctx
          trace := r.2.trace.drop r.2.ctx.cache.length }, { c with last := c.pos + r.2.buf.dstlen }) := by
    rw [ngxMinifyProcess, hsize, Int.toNat_natCast]
    rfl
  rcases ht : stripList cap (stripFuel data.length) type g.ctx (.buffer :: g.trace) data with e | ⟨⟨⟩, t⟩
  · rw [← hdata] at ht
    simp only [Flat.region_length] at ht
    rw [stripFlat_error cap _ type _ _ c.pos data.length c.pos (.inl (Nat.le_refl _)) ht] at hrun
    exact hrun
  · obtain ⟨n, hn⟩ := exists_turnsWithin (.buffer :: g.trace)
    have hstrip := ht
    rw [← hdata] at hstrip
    simp only [Flat.region_length] at hstrip
    obtain ⟨k, hk, hrel⟩ := stripFlat_ok cap _ type g.ctx (g.mem c.region) c.pos data.length c.pos
      (Nat.le_max_right n _) (hn.mono (Nat.le_max_left n _)) (.inl (Nat.le_refl _)) hstrip
    have hbase := hrel.buf.base
    have hdst : k.buf.dstlen = t.buf.out.length := hrel.buf.dstlen
    refine ⟨?_, k.buf.mem, ⟨?_, ?_⟩, ?_⟩
    · rcases Nat.eq_zero_or_pos data.length with hzero | hpos
      · obtain rfl := List.eq_nil_of_length_eq_zero hzero
        rw [stripList_nil] at ht
        cases ht
        exact Nat.le_refl _
      · have hfront := hrel.buf.front
        have hapart := hrel.buf.apart
        omega
    · have hwritten := hrel.buf.written_eq
      rw [Flat.written, hdst, hbase, Nat.add_sub_cancel] at hwritten
      exact hwritten
    · intro a ha
      exact hrel.buf.frame a (by rw [hbase]; exact ha)
    · rw [hrun, hk, ← hrel.ctx, ← hrel.trace, ← hdst]
      rfl

theorem feed_stripList (t : Session) (l : List UInt8) : feed Stream cap type t l =
    (stripList cap (stripFuel (t.ctx.cache ++ l).length) type (t.ctx.hold []) (.buffer :: t.trace)
      (t.ctx.cache ++ l)).map fun r => t.takeBack Stream r.2 := by
  rw [List.length_append]
  rfl

/-- A buffer `d` that is forwarded in place of `b`, and where its content is. -/
structure Forwards (f : Filter) (b : NgxBuf) (g : Filter) (d : NgxBuf) : Prop where
  framed : Framed [b] f g
  special : d.inMemory = false → d.special = true
  place : d.inMemory = true → b.inMemory = true ∧
    (d.region = b.region ∧ b.pos ≤ d.pos ∧ d.last ≤ b.last ∨ d.region = f.fresh ∧ f.fresh < g.fresh)

theorem Prepended.processed {g' : Filter} {t : Conf Stream} {m : ℕ → UInt8}
    (hb : b.Delivered f.fresh) (h : Prepended f b g c) (hm : Processed g c t m)
    (hle : t.buf.out.length ≤ (f.reads b).length) (hfresh : g'.fresh = g.fresh)
    (hmem : g'.mem = Function.update g.mem c.region m) :
    Forwards f b g' { c with last := c.pos + t.buf.out.length, inFile := false } ∧
      NgxBuf.arrival g'.mem { c with last := c.pos + t.buf.out.length, inFile := false } =
        if b.inMemory then .data b.readOnly t.buf.out.reverse else .special := by
  have hkind : NgxBuf.inMemory { c with last := c.pos + t.buf.out.length, inFile := false } = b.inMemory :=
    h.inMemory
  have hout : b.inMemory = false → t.buf.out.length = 0 := by
    intro hmem
    rw [Filter.reads, hmem] at hle
    exact Nat.le_zero.mp hle
  refine ⟨⟨⟨by rw [hfresh]; exact h.fresh, ?_⟩, ?_, ?_⟩, ?_⟩
  · intro r a hr hout'
    rw [hmem, Function.update_apply]
    split
    · next hreg =>
      subst hreg
      rcases h.place with ⟨rfl, hcache⟩ | ⟨hnew, -⟩
      · have hplace : a < c.pos ∨ c.pos + t.buf.out.length ≤ a := by
          by_cases hc : c.inMemory = true
          · have hlen := f.reads_length hc
            have hord := hb.ordered hc
            rw [hcache, List.length_nil] at hlen
            rcases hout' c List.mem_cons_self hc with hne | hlt | hge
            · exact absurd rfl hne
            · exact .inl hlt
            · exact .inr (by omega)
          · have hzero := hout (Bool.eq_false_iff.mpr hc)
            omega
        rw [hm.same a hplace, h.mem _ hr]
      · omega
    · rw [h.mem r hr]
  · intro hd
    rw [hkind] at hd
    have hspecial : c.special = true := h.special.trans (hb.empty hd).1
    simp only [NgxBuf.special, Bool.and_eq_true] at hspecial ⊢
    exact ⟨hspecial.1, rfl⟩
  · intro hd
    rw [hkind] at hd
    refine ⟨hd, ?_⟩
    rcases h.place with ⟨rfl, hcache⟩ | ⟨hnew, hlt, -⟩
    · have hlen := f.reads_length hd
      have hord := hb.ordered hd
      rw [hcache, List.length_nil] at hlen
      exact .inl ⟨rfl, Nat.le_refl _, by simp only; omega⟩
    · exact .inr ⟨hnew, by rw [hfresh]; exact hlt⟩
  · unfold NgxBuf.arrival
    rw [hkind]
    split
    · next hb' =>
      have hcontent : NgxBuf.content g'.mem { c with last := c.pos + t.buf.out.length, inFile := false } =
          t.buf.out.reverse := by
        rw [NgxBuf.content, hkind, if_pos hb', hmem]
        simp only [Function.update_self, Nat.add_sub_cancel_left]
        exact hm.bytes
      rw [hcontent]
      exact congrArg (Arrival.data · _) h.readOnly
    · rfl

variable (cap type) in
/-- A buffer that is read shows what its arrival does. -/
theorem read_agree (hs : f.Shows s) (hb : b.Delivered f.fresh)
    (hp : f.ctx.cache = [] ∨ palloc f.pallocs = true) : ∃ g c, prependCache palloc f b = (g, some c) ∧
      match s.session.read cap type (b.arrival f.mem) with
      | .error e => ngxMinifyProcess cap type g c = .error e
      | .ok (t, a) => ∃ h d, ngxMinifyProcess cap type g c = .ok (h, d) ∧
          Forwards f b h { d with inFile := false } ∧
          NgxBuf.arrival h.mem { d with inFile := false } = a ∧ h.ctx = t.ctx ∧ h.trace = t.trace ∧
          h.visits = f.visits ∧
          h.pallocs = if f.ctx.cache = [] then f.pallocs else f.pallocs + 1 := by
  obtain ⟨g, c, hpre, hprep⟩ : ∃ g c, prependCache palloc f b = (g, some c) ∧ Prepended f b g c := by
    by_cases hc : f.ctx.cache = []
    · exact ⟨f, b, prependCache_empty hb hc⟩
    · exact prependCache_held hb hc (hp.resolve_left hc)
  refine ⟨g, c, hpre, ?_⟩
  have hprocess : ProcessAgrees cap type g c (f.reads b)
      (stripList cap (stripFuel (f.reads b).length) type (f.ctx.hold []) (.buffer :: f.trace) (f.reads b)) := by
    rw [← hprep.ctx, ← hprep.trace]
    exact process_agree hprep.size hprep.bytes
  have hdone : ∀ {t : Conf Stream} {m : ℕ → UInt8}, t.buf.out.length ≤ (f.reads b).length →
      Processed g c t m → Forwards f b { g with
          mem := Function.update g.mem c.region m, ctx := t.ctx
          trace := t.trace.drop t.ctx.cache.length }
        { c with last := c.pos + t.buf.out.length, inFile := false } ∧ _ :=
    fun hle hm => hprep.processed hb hm hle rfl rfl
  unfold NgxBuf.arrival at hdone ⊢
  by_cases hmem : b.inMemory = true
  · have hreads : f.reads b = s.session.ctx.cache ++ b.content f.mem := by
      rw [Filter.reads, if_pos hmem, hs.ctx]
    rw [if_pos hmem, Session.read, feed_stripList, ← hreads, ← hs.ctx, ← hs.trace]
    rcases hrun : stripList cap (stripFuel (f.reads b).length) type (f.ctx.hold [])
        (.buffer :: f.trace) (f.reads b) with e | ⟨⟨⟩, t⟩
    · rw [hrun] at hprocess
      exact hprocess
    · rw [hrun] at hprocess
      obtain ⟨hle, m, hm, heq⟩ := hprocess
      obtain ⟨hforward, harrival⟩ := hdone hle hm
      refine ⟨_, _, heq, hforward, ?_, rfl, rfl, hprep.visits, hprep.pallocs⟩
      rw [harrival, if_pos hmem]
      exact congrArg (Arrival.data _) List.drop_left.symm
  · have hreads : f.reads b = [] := by rw [Filter.reads, if_neg hmem]
    rw [hreads, List.length_nil, stripList_nil] at hprocess
    obtain ⟨-, m, hm, heq⟩ := hprocess
    rw [if_neg hmem]
    obtain ⟨hforward, harrival⟩ := hdone (Nat.zero_le _) hm
    refine ⟨_, _, heq, hforward, ?_, ?_, ?_, hprep.visits, hprep.pallocs⟩
    · rw [harrival, if_neg hmem]
    · exact congrArg (Ctx.hold []) hs.ctx
    · exact congrArg (Item.buffer :: ·) hs.trace

theorem Framed.content {links : List NgxBuf} (h : Framed links f g) (hb : b.Delivered f.fresh)
    (hapart : ∀ c ∈ links, c.Apart b) : b.content g.mem = b.content f.mem := by
  refine NgxBuf.content_congr fun hm a ha hlt => h.same _ a (hb.inUse hm) fun c hc hcm => ?_
  rcases hapart c hc hcm hm with hne | hle | hle
  · exact .inl hne.symm
  · exact .inr (.inr (by omega))
  · exact .inr (.inl (by omega))

theorem Framed.trans {links links' : List NgxBuf} {k : Filter} (h : Framed links f g)
    (h' : Framed links' g k) : Framed (links ++ links') f k where
  fresh := Nat.le_trans h.fresh h'.fresh
  same r a hr hout := by
    rw [h'.same r a (Nat.lt_of_lt_of_le hr h.fresh) fun c hc => hout c (List.mem_append_right _ hc),
      h.same r a hr fun c hc => hout c (List.mem_append_left _ hc)]

/-- What is forwarded in place of a buffer is not changed by the buffers behind it. -/
theorem Forwards.kept {k : Filter} {d : NgxBuf} {links : List NgxBuf} (h : Forwards f b g d)
    (hb : b.Delivered f.fresh) (hd : ∀ e ∈ links, e.Delivered f.fresh) (hapart : ∀ e ∈ links, b.Apart e)
    (hk : Framed links g k) : d.arrival k.mem = d.arrival g.mem := by
  refine NgxBuf.arrival_congr (NgxBuf.content_congr fun hm a ha hlt => ?_)
  obtain ⟨hbm, hplace⟩ := h.place hm
  have hfresh := h.framed.fresh
  rcases hplace with ⟨hreg, hpos, hlast⟩ | ⟨hreg, hnew⟩
  · have huse := hb.inUse hbm
    refine hk.same _ a (by omega) fun e he hem => ?_
    rcases hapart e he hbm hem with hne | hle | hle
    · exact .inl (by rw [hreg]; exact hne)
    · exact .inr (.inl (by omega))
    · exact .inr (.inr (by omega))
  · refine hk.same _ a (by omega) fun e he hem => .inl ?_
    have huse := (hd e he).inUse hem
    omega

variable (cap palloc type) in
/-- The loop over a chain does what the delivery of its arrivals does, and what it forwards
arrives as that does. -/
theorem loop_agree (hd : ∀ b ∈ links, b.Delivered f.fresh) (hapart : links.Pairwise NgxBuf.Apart)
    (hs : f.Shows s) :
    match deliver cap palloc type s (links.map (NgxBuf.arrival f.mem)) with
    | .error e => bodyFilterLoop cap palloc type f links = .error e
    | .ok (t, as) => ∃ g out, bodyFilterLoop cap palloc type f links = .ok (g, out) ∧ g.Shows t ∧
        Framed links f g ∧ out.map (NgxBuf.arrival g.mem) = as ∧
        ∀ d ∈ out, d.inMemory = false → d.special = true := by
  induction links generalizing f s with
  | nil => exact ⟨f, [], rfl, hs, ⟨Nat.le_refl _, fun _ _ _ _ => rfl⟩, rfl, by simp⟩
  | cons b links ih =>
    obtain ⟨hb, hd⟩ := List.forall_mem_cons.mp hd
    obtain ⟨hbapart, hapart⟩ := List.pairwise_cons.mp hapart
    rw [List.map_cons, deliver, ← hs.ctx, ← hs.pallocs, ← hs.visits]
    by_cases hfail : f.ctx.cache ≠ [] ∧ palloc f.pallocs = false
    · rw [if_pos hfail, bodyFilterLoop, prependCache_fail hfail.1 hfail.2]
      refine ⟨_, _, rfl, ⟨hs.ctx, hs.trace, rfl, ?_⟩, ⟨Nat.le_refl _, fun _ _ _ _ => rfl⟩, rfl,
        List.forall_mem_cons.mpr ⟨fun hm => (hb.empty hm).1, fun e he hm => ((hd e he).empty hm).1⟩⟩
      have hraw : (b :: links).flatMap (NgxBuf.content f.mem) =
          ((b :: links).map (NgxBuf.arrival f.mem)).flatMap Arrival.bytes := by
        rw [List.flatMap_map]
        exact List.flatMap_congr fun c _ => (NgxBuf.arrival_bytes f.mem c).symm
      rw [hraw, NgxBuf.arrival_inMemory]
      rfl
    · have hp : f.ctx.cache = [] ∨ palloc f.pallocs = true := by
        rw [not_and_or, not_not, Bool.not_eq_false] at hfail
        exact hfail
      obtain ⟨g, c, hpre, hread⟩ := read_agree cap type hs hb hp
      rw [if_neg hfail, bodyFilterLoop, hpre]
      rcases hres : s.session.read cap type (b.arrival f.mem) with e | ⟨t, a⟩
      · rw [hres] at hread
        simp only [hread]
        rfl
      · rw [hres] at hread
        obtain ⟨h, d, hproc, hforward, harrival, hctx, htrace, hvisits, hpallocs⟩ := hread
        have hsame : links.map (NgxBuf.arrival h.mem) = links.map (NgxBuf.arrival f.mem) :=
          List.map_congr_left fun e he => NgxBuf.arrival_congr
            (hforward.framed.content (hd e he) (List.forall_mem_singleton.mpr (hbapart e he)))
        have hshows : Filter.Shows
            { h with visits := .read f.ctx b.inMemory b.readOnly h.trace :: h.visits }
            ⟨t, if f.ctx.cache = [] then f.pallocs else f.pallocs + 1,
              .read f.ctx b.inMemory b.readOnly t.trace :: f.visits⟩ :=
          ⟨hctx, htrace, hpallocs, by simp only [hvisits, htrace]⟩
        have hd' : ∀ e ∈ links, e.Delivered h.fresh := fun e he => (hd e he).mono hforward.framed.fresh
        have hloop := ih (f := { h with visits := .read f.ctx b.inMemory b.readOnly h.trace :: h.visits })
          hd' hapart hshows
        simp only [hsame] at hloop
        simp only [hproc, except_ok_bind, NgxBuf.arrival_inMemory, NgxBuf.arrival_readOnly]
        rcases hrest : deliver cap palloc type
          ⟨t, if f.ctx.cache = [] then f.pallocs else f.pallocs + 1,
            .read f.ctx b.inMemory b.readOnly t.trace :: f.visits⟩
          (links.map (NgxBuf.arrival f.mem)) with e | ⟨u, as⟩
        · rw [hrest] at hloop
          simp only [hloop]
          rfl
        · rw [hrest] at hloop
          obtain ⟨k, out, hk, hu, hframe, hout, hspecial⟩ := hloop
          simp only [hk]
          have hframe' : Framed links h k := ⟨hframe.fresh, hframe.same⟩
          refine ⟨k, _, rfl, hu, hforward.framed.trans hframe', ?_,
            List.forall_mem_cons.mpr ⟨hforward.special, hspecial⟩⟩
          have hkept := hforward.kept hb hd hbapart hframe'
          rw [List.map_cons, hout, hkept, harrival]

end Loop

structure Call.Delivered (c : Call) : Prop where
  links : ∀ b ∈ c.links, b.Delivered c.fresh
  apart : c.links.Pairwise NgxBuf.Apart

def Call.arrivals (c : Call) : List Arrival := c.links.map (NgxBuf.arrival c.mem)

theorem Call.arrivals_bytes (c : Call) : c.arrivals.flatMap Arrival.bytes = c.bytes := by
  rw [Call.arrivals, List.flatMap_map]
  exact List.flatMap_congr fun b _ => NgxBuf.arrival_bytes c.mem b

section Calls
variable {cap : Option ℕ} {palloc : ℕ → Bool} {r : Request} {f : Filter} {s : Stage}

variable (cap palloc r) in
theorem call_agree {c : Call} (hc : c.Delivered) (hs : f.Shows s) :
    match deliverCall cap palloc r s c.arrivals with
    | .error e => ngxHttpMinifyBodyFilter cap palloc r { f with mem := c.mem, fresh := c.fresh }
        c.links = .error e
    | .ok (t, as) => ∃ g out, ngxHttpMinifyBodyFilter cap palloc r
        { f with mem := c.mem, fresh := c.fresh } c.links = .ok (g, out) ∧ g.Shows t ∧
        Call.arrivals ⟨g.mem, g.fresh, out⟩ = as ∧ ∀ d ∈ out, d.inMemory = false → d.special = true := by
  have hspecial : ∀ b ∈ c.links, b.inMemory = false → b.special = true :=
    fun b hb hm => ((hc.links b hb).empty hm).1
  unfold deliverCall ngxHttpMinifyBodyFilter
  by_cases hskip : c.links = [] ∨ r.headerOnly = true
  · have hskip' : c.arrivals = [] ∨ r.headerOnly = true := hskip.imp_left List.map_eq_nil_iff.mpr
    rw [if_pos hskip, if_pos hskip']
    exact ⟨_, _, rfl, ⟨hs.ctx, hs.trace, hs.pallocs, hs.visits⟩, rfl, hspecial⟩
  · have hskip' : ¬ (c.arrivals = [] ∨ r.headerOnly = true) :=
      mt (Or.imp_left List.map_eq_nil_iff.mp) hskip
    rw [if_neg hskip, if_neg hskip']
    rcases r.type with _ | type
    · exact ⟨_, _, rfl, ⟨hs.ctx, hs.trace, hs.pallocs, hs.visits⟩, rfl, hspecial⟩
    · have hloop := loop_agree cap palloc type
        (f := { f with mem := c.mem, fresh := c.fresh }) hc.links hc.apart
        ⟨hs.ctx, hs.trace, hs.pallocs, hs.visits⟩
      simp only
      rw [show c.links.map (NgxBuf.arrival c.mem) = c.arrivals from rfl] at hloop
      rcases hrun : deliver cap palloc type s c.arrivals with e | ⟨t, as⟩
      · rw [hrun] at hloop
        exact hloop
      · rw [hrun] at hloop
        obtain ⟨g, out, hg, ht, -, hout, hspec⟩ := hloop
        exact ⟨g, out, hg, ht, hout, hspec⟩

variable (cap palloc r) in
/-- A response is delivered as what arrives with its calls. -/
theorem respond_agree {calls : List Call} (hcalls : ∀ c ∈ calls, c.Delivered) (hs : f.Shows s) :
    match deliverAll cap palloc r s (calls.map Call.arrivals) with
    | .error e => respond cap palloc r f calls = .error e
    | .ok (t, outs) => ∃ g out, respond cap palloc r f calls = .ok (g, out) ∧ g.Shows t ∧
        out.map Call.arrivals = outs ∧
        ∀ c ∈ out, ∀ d ∈ c.links, d.inMemory = false → d.special = true := by
  induction calls generalizing f s with
  | nil => exact ⟨f, [], rfl, hs, rfl, by simp⟩
  | cons c calls ih =>
    obtain ⟨hc, hcalls⟩ := List.forall_mem_cons.mp hcalls
    have hcall := call_agree cap palloc r hc hs
    rw [List.map_cons, deliverAll, respond]
    rcases hrun : deliverCall cap palloc r s c.arrivals with e | ⟨t, as⟩
    · rw [hrun] at hcall
      simp only [hcall]
      rfl
    · rw [hrun] at hcall
      obtain ⟨g, out, hg, ht, hout, hspec⟩ := hcall
      have hrest := ih hcalls ht
      simp only [hg, except_ok_bind]
      rcases hrun' : deliverAll cap palloc r t (calls.map Call.arrivals) with e | ⟨u, outs⟩
      · rw [hrun'] at hrest
        simp only [hrest]
        rfl
      · rw [hrun'] at hrest
        obtain ⟨h, outs', hh, hu, houts, hspecs⟩ := hrest
        simp only [hh]
        refine ⟨h, _, rfl, hu, ?_, List.forall_mem_cons.mpr ⟨hspec, hspecs⟩⟩
        rw [List.map_cons, hout, houts]

end Calls

end NginB.Minify
