import NginB.Minify.Html
import NginB.Minify.Css
import NginB.Minify.Js
import Mathlib.Logic.Function.Basic

/-! # Buffers and the body filter

Two kinds of buffer: `Flat` is memory with the pointers of the C code, where
`dst` may be `src`; `Stream` is what is left to read and what has been written.
`feed` is what `ngx_http_minify_body_filter` does with one link of the chain.
Lengths have no bound here; in C they are `int`s, so a buffer and what is put in front of it are taken
to be shorter than 2^31 bytes.
-/
namespace NginB.Minify
open NginB.Program

/-- The unread bytes, and the bytes written, newest first. -/
structure Stream where
  rest : List UInt8
  out : List UInt8
  deriving DecidableEq

instance : Buffer Stream where
  count s := s.rest.length
  dstlen s := s.out.length
  rposAt s k := s.rest.getD k 0
  wposBack s k := s.out.getD (k - 1) 0
  inc s := ⟨s.rest.tail, s.out⟩
  put c s := ⟨s.rest.tail, c :: s.out⟩

/-- One byte-addressed memory and the pointers into it. -/
structure Flat where
  mem : ℕ → UInt8
  rpos : ℕ
  wpos : ℕ
  count : ℤ
  dstlen : ℕ

namespace Flat

/-- `ctx->rpos = src; ctx->wpos = dst; ctx->count = srclen; ctx->dstlen = 0;` -/
def start (mem : ℕ → UInt8) (src : ℕ) (srclen : ℤ) (dst : ℕ) : Flat := ⟨mem, src, dst, srclen, 0⟩

def region (mem : ℕ → UInt8) (a n : ℕ) : List UInt8 := (List.range n).map fun i => mem (a + i)

def written (f : Flat) : List UInt8 := region f.mem (f.wpos - f.dstlen) f.dstlen

end Flat

instance : Buffer Flat where
  count f := f.count
  dstlen f := f.dstlen
  rposAt f k := f.mem (f.rpos + k)
  wposBack f k := f.mem (f.wpos - k)
  inc f := { f with rpos := f.rpos + 1, count := f.count - 1 }
  put c f :=
    { mem := Function.update f.mem f.wpos c, rpos := f.rpos + 1, wpos := f.wpos + 1
      count := f.count - 1, dstlen := f.dstlen + 1 }

/-- A buffer whose content can be set and whose output can be taken. -/
class Loadable (B : Type) extends Buffer B where
  load : List UInt8 → B
  written : B → List UInt8

instance : Loadable Stream where
  load data := ⟨data, []⟩
  written s := s.out.reverse

/-- The `*_process` functions rewrite a buffer in place: `dst` is `src`. -/
instance : Loadable Flat where
  load data := Flat.start (fun i => data.getD i 0) 0 data.length 0
  written := Flat.written

/-- The file types `ngx_http_minify_process` has a function for. -/
inductive FileType
  | html | css | js
  deriving DecidableEq, Repr

/-- The `*_strip_buffer` function of a file type. -/
def stripBuffer {B : Type} [Buffer B] (cap : Option ℕ) (fuel : ℕ) : FileType → MinifyM B Unit
  | .html => ngxMinifyHtmlStripBuffer cap fuel
  | .css => ngxMinifyCssStripBuffer fuel
  | .js => ngxMinifyJsStripBuffer fuel

/-- Iterations that every loop gets for a buffer of `n` bytes. -/
def stripFuel (n : ℕ) : ℕ := 16 * n + 16

/-- What is known of a response between two links: the context, the bytes forwarded, and
the trace of the bytes read for good (those held back are read again). -/
structure Session where
  ctx : Ctx
  out : List UInt8
  trace : List Item
  deriving DecidableEq

def Session.start : Session := ⟨Ctx.zero, [], []⟩

section
variable (B : Type) [Loadable B] (cap : Option ℕ) (type : FileType)

/-- The minifier about to read a buffer with the held-back bytes in front of it. -/
def Session.handOver (s : Session) (buf : List UInt8) : Conf B where
  ctx := { s.ctx with cache := [] }
  buf := Loadable.load (s.ctx.cache ++ buf)
  trace := .buffer :: s.trace

def Session.takeBack (s : Session) (c : Conf B) : Session where
  ctx := c.ctx
  out := s.out ++ Loadable.written c.buf
  trace := c.trace.drop c.ctx.cache.length

/-- The loop body of `ngx_http_minify_body_filter`: the held-back bytes are put in front of
the buffer, `cachelen` is reset, and the buffer is processed. -/
def feed (s : Session) (buf : List UInt8) : Except Fault Session := do
  let r ← (stripBuffer cap (stripFuel (s.ctx.cache.length + buf.length)) type).run (s.handOver B buf)
  return s.takeBack B r.2

/-- A response given as a sequence of in-memory buffers. -/
def feedAll (s : Session) (bufs : List (List UInt8)) : Except Fault Session :=
  bufs.foldlM (feed B cap type) s

theorem feedAll_concat (s : Session) (bufs : List (List UInt8)) (buf : List UInt8) :
    feedAll B cap type s (bufs ++ [buf]) =
      (feedAll B cap type s bufs >>= fun s' => feed B cap type s' buf) := by
  have hone : ∀ s', [buf].foldlM (feed B cap type) s' = feed B cap type s' buf := by
    intro s'
    rw [List.foldlM_cons]
    exact bind_pure _
  rw [feedAll, List.foldlM_append]
  exact congrArg _ (funext hone)

end

end NginB.Minify
