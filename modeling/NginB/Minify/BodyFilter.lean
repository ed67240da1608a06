import NginB.Minify.Filter

/-! # The body filter over a chain of buffers

`ngx_http_minify_body_filter` with its buffers and its memory. The memory is made of regions,
and the pointers of a buffer are offsets into one of them; `ngx_palloc` hands out a region that
is not in use, or fails.
-/
namespace NginB.Minify
open NginB.Program

structure NgxBuf where
  region : ℕ
  start : ℕ
  pos : ℕ
  last : ℕ
  /-- `end` -/
  stop : ℕ
  filePos : ℤ
  fileLast : ℤ
  temporary : Bool
  memory : Bool
  mmap : Bool
  inFile : Bool
  flush : Bool
  sync : Bool
  lastBuf : Bool
  deriving DecidableEq

abbrev Memory := ℕ → ℕ → UInt8

namespace NgxBuf

def inMemory (b : NgxBuf) : Bool := b.temporary || b.memory || b.mmap

def readOnly (b : NgxBuf) : Bool := b.memory || b.mmap

def special (b : NgxBuf) : Bool := (b.flush || b.lastBuf || b.sync) && !b.inMemory && !b.inFile

def size (b : NgxBuf) : ℤ := if b.inMemory then b.last - b.pos else b.fileLast - b.filePos

def content (mem : Memory) (b : NgxBuf) : List UInt8 :=
  if b.inMemory then Flat.region (mem b.region) b.pos (b.last - b.pos) else []

end NgxBuf

inductive Visit
  /-- in context `x` it hands the buffer to the minifier, which leaves the trace `tr` -/
  | read (x : Ctx) (inMemory readOnly : Bool) (tr : List Item)
  /-- in context `x` it finds no memory, and forwards these bytes as they are -/
  | failed (x : Ctx) (inMemory : Bool) (raw : List UInt8)
  deriving DecidableEq

/-- The memory and what the filter keeps of a response. Like the trace, `visits` is read by
nothing, and its newest item comes first. -/
structure Filter where
  mem : Memory
  /-- the region that `ngx_palloc` hands out next -/
  fresh : ℕ
  /-- the calls of `ngx_palloc` so far -/
  pallocs : ℕ
  ctx : Ctx
  trace : List Item
  visits : List Visit

def Filter.start : Filter := ⟨fun _ _ => 0, 0, 0, Ctx.zero, [], []⟩

def NgxBuf.assign (region n : ℕ) (b : NgxBuf) : NgxBuf :=
  { b with region := region, start := 0, pos := 0, stop := n, last := n }

def Filter.allocate (newbuf : List UInt8) (f : Filter) : Filter :=
  { f with
    mem := Function.update f.mem f.fresh fun i => newbuf.getD i 0
    fresh := f.fresh + 1
    pallocs := f.pallocs + 1
    ctx := { f.ctx with cache := [] } }

section
variable (cap : Option ℕ) (palloc : ℕ → Bool) (type : FileType)

/-- The bytes held back are copied into a new buffer, with the bytes of the buffer behind them.
There is no buffer where `ngx_palloc` fails. -/
def prependCache (f : Filter) (b : NgxBuf) : Filter × Option NgxBuf :=
  if f.ctx.cache = [] then (f, some b)
  else if palloc f.pallocs = false then ({ f with pallocs := f.pallocs + 1 }, none)
  else
    let newbuf := f.ctx.cache ++ Flat.region (f.mem b.region) b.pos b.size.toNat
    (f.allocate newbuf, some (b.assign f.fresh newbuf.length))

/-- `ngx_minify_html_process`, `ngx_minify_css_process` and `ngx_minify_js_process`. -/
def ngxMinifyProcess (f : Filter) (b : NgxBuf) : Except Fault (Filter × NgxBuf) := do
  let r ← (stripBuffer cap (stripFuel b.size.toNat) type).run
    ⟨f.ctx, Flat.start (f.mem b.region) b.pos b.size b.pos, .buffer :: f.trace⟩
  return ({ f with
      mem := Function.update f.mem b.region r.2.buf.mem
      ctx := r.2.ctx
      trace := r.2.trace.drop r.2.ctx.cache.length },
    { b with last := b.pos + r.2.buf.dstlen })

def bodyFilterLoop : Filter → List NgxBuf → Except Fault (Filter × List NgxBuf)
  | f, [] => return (f, [])
  | f, b :: links =>
    match prependCache palloc f b with
    | (g, none) =>
      let raw := (b :: links).flatMap (NgxBuf.content f.mem)
      return ({ g with visits := .failed f.ctx b.inMemory raw :: g.visits }, b :: links)
    | (g, some c) => do
      let (h, d) ← ngxMinifyProcess cap type g c
      let visit := .read f.ctx b.inMemory b.readOnly h.trace
      let (k, out) ← bodyFilterLoop { h with visits := visit :: h.visits } links
      return (k, { d with inFile := false } :: out)

end

/-- What the filter reads of a request: `type` is missing where the header filter has set no
context. -/
structure Request where
  headerOnly : Bool
  type : Option FileType
  deriving DecidableEq

/-- A call of the filter: the memory as it is then, and the chain. -/
structure Call where
  mem : Memory
  fresh : ℕ
  links : List NgxBuf

namespace Call

def bytes (c : Call) : List UInt8 := c.links.flatMap (NgxBuf.content c.mem)

end Call

section
variable (cap : Option ℕ) (palloc : ℕ → Bool) (r : Request)

/-- `ngx_http_minify_body_filter`, up to the call of the next filter. -/
def ngxHttpMinifyBodyFilter (f : Filter) (links : List NgxBuf) : Except Fault (Filter × List NgxBuf) :=
  if links = [] ∨ r.headerOnly then return (f, links)
  else
    match r.type with
    | none => return (f, links)
    | some type => bodyFilterLoop cap palloc type f links

/-- A response over any number of calls, with what each of them forwards. -/
def respond : Filter → List Call → Except Fault (Filter × List Call)
  | f, [] => return (f, [])
  | f, c :: calls => do
    let (g, out) ← ngxHttpMinifyBodyFilter cap palloc r { f with mem := c.mem, fresh := c.fresh } c.links
    let (h, outs) ← respond g calls
    return (h, ⟨g.mem, g.fresh, out⟩ :: outs)

end

def Request.Passed (r : Request) : Prop := r.headerOnly = true ∨ r.type = none

theorem Request.passed_or (r : Request) :
    r.Passed ∨ ∃ type, r.headerOnly = false ∧ r.type = some type := by
  rcases hh : r.headerOnly with _ | _
  · rcases ht : r.type with _ | type
    · exact .inl (.inr ht)
    · exact .inr ⟨type, rfl, rfl⟩
  · exact .inl (.inl hh)

section Calls
variable {cap : Option ℕ} {palloc : ℕ → Bool} {type : FileType} {r : Request} {f g : Filter}
  {links : List NgxBuf} {c : Call} {calls outs : List Call}

theorem filter_passed (hr : r.Passed) (f : Filter) (links : List NgxBuf) :
    ngxHttpMinifyBodyFilter cap palloc r f links = .ok (f, links) := by
  unfold ngxHttpMinifyBodyFilter
  rcases hr with hr | hr
  · rw [if_pos (.inr hr)]
    rfl
  · rw [hr]
    split <;> rfl

theorem filter_read (hr : r.headerOnly = false) (htype : r.type = some type) (f : Filter)
    (links : List NgxBuf) :
    ngxHttpMinifyBodyFilter cap palloc r f links = bodyFilterLoop cap palloc type f links := by
  unfold ngxHttpMinifyBodyFilter
  rw [hr, htype]
  cases links <;> rfl

/-- What the filter does with the first call of a response. -/
theorem respond_cons (h : respond cap palloc r f (c :: calls) = .ok (g, outs)) : ∃ u out outs',
    ngxHttpMinifyBodyFilter cap palloc r { f with mem := c.mem, fresh := c.fresh } c.links =
      .ok (u, out) ∧ respond cap palloc r u calls = .ok (g, outs') ∧
      outs = ⟨u.mem, u.fresh, out⟩ :: outs' := by
  rw [respond] at h
  rcases hcall : ngxHttpMinifyBodyFilter cap palloc r { f with mem := c.mem, fresh := c.fresh } c.links
    with e | ⟨u, out⟩
  · rw [hcall] at h
    cases h
  · rw [hcall] at h
    simp only [except_ok_bind] at h
    rcases hrest : respond cap palloc r u calls with e | ⟨g', outs'⟩
    · rw [hrest] at h
      cases h
    · rw [hrest] at h
      cases h
      exact ⟨u, out, outs', rfl, hrest, rfl⟩

/-- A request that is passed on is forwarded as it comes. -/
theorem respond_passed (hr : r.Passed) (h : respond cap palloc r f calls = .ok (g, outs)) :
    g.visits = f.visits ∧ outs.map Call.links = calls.map Call.links := by
  induction calls generalizing f outs with
  | nil =>
    cases h
    exact ⟨rfl, rfl⟩
  | cons c calls ih =>
    obtain ⟨u, out, outs', hcall, hrest, rfl⟩ := respond_cons h
    rw [filter_passed hr] at hcall
    cases hcall
    obtain ⟨hvisits, hlinks⟩ := ih hrest
    exact ⟨hvisits, by rw [List.map_cons, hlinks, List.map_cons]⟩

end Calls

end NginB.Minify
