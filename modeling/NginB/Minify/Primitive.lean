import Mathlib.Data.Int.Notation
import NginB.Minify.Context
import NginB.Program.Loop

/-! # Primitives of the minifiers

The minifiers are written once, over any `Buffer`: the memory that `rpos` and
`wpos` point into. A primitive whose access the C code leaves unchecked (a read
behind the last unread byte, a stack or cache index out of range) stops with a
`Fault`. Every primitive also records in the trace what it does with a byte, and
every loop records where an iteration starts; nothing reads the trace.
-/
namespace NginB.Minify
open NginB.Program

inductive Fault
  /-- `*(rpos + k)` with `k ≥ count` -/
  | readPastEnd
  /-- `++rpos` with nothing unread -/
  | skipPastEnd
  /-- `*(c + i)` behind the NUL of the literal `c` -/
  | literalPastEnd
  /-- `cache[cachelen]` -/
  | cacheRange
  /-- `state[++sspos]` -/
  | stackTop
  /-- `--sspos` at the bottom -/
  | stackBottom
  /-- `tagcache[tagcachelen]` -/
  | tagcacheRange
  /-- `tagendcache[tagendcachelen]` -/
  | tagendcacheRange
  /-- not a fault of the code: the model's fuel is spent -/
  | outOfFuel
  deriving DecidableEq

def Fault.isOverflow : Fault → Bool
  | .tagcacheRange | .tagendcacheRange => true
  | _ => false

/-- A buffer being stripped: the memory and the fields `count`, `dstlen`, `rpos`, `wpos`. -/
class Buffer (B : Type) where
  count : B → ℤ
  dstlen : B → ℕ
  /-- `*(rpos + k)` -/
  rposAt : B → ℕ → UInt8
  /-- `*(wpos - k)` -/
  wposBack : B → ℕ → UInt8
  /-- `++rpos; --count;` -/
  inc : B → B
  /-- `*wpos++ = c; ++dstlen; ++rpos; --count;` -/
  put : UInt8 → B → B

/-- The loops of the three minifiers, each named after its function. -/
inductive Routine
  | htmlStripBuffer | htmlStripTag | htmlStripTagname | htmlStripComment
  | cssStripBuffer | cssStripBrace | cssStripQuote | cssStripComment
  | jsStripBuffer | jsStripQuote | jsStripComment
  deriving DecidableEq, Repr

inductive Item
  /-- a buffer, with the held-back bytes in front, is handed to the minifier -/
  | buffer
  /-- a loop starts an iteration with these bytes unread -/
  | turn (r : Routine) (ctx : Ctx) (unread : List UInt8) (dstlen : ℕ)
  /-- a byte is passed over in state `st` -/
  | skip (st : MinifyState) (b : UInt8)
  /-- the byte `b` is consumed and `c` is written in state `st` -/
  | emit (st : MinifyState) (b c : UInt8)
  /-- `ngx_minify_cache` is called -/
  | cacheCall (c : List UInt8) (cachelen : ℕ) (unread : List UInt8)
  /-- a `CTX_TAG*` macro writes at this index of its cache -/
  | tagWrite (i : ℕ)
  /-- a `CTX_*_STATE` macro leaves this state stack -/
  | stack (s : StateStack)
  deriving DecidableEq

/-- A running minifier. The trace is kept newest first. -/
structure Conf (B : Type) where
  ctx : Ctx
  buf : B
  trace : List Item

abbrev MinifyM (B : Type) := Prog (Conf B) Fault

variable {B : Type} [Buffer B]

def unread (b : B) : List UInt8 := (List.range (Buffer.count b).toNat).map (Buffer.rposAt b)

theorem unread_length (b : B) : (unread b).length = (Buffer.count b).toNat := by
  simp [unread]

namespace Conf

@[simp] def modifyCtx (f : Ctx → Ctx) (c : Conf B) : Conf B := { c with ctx := f c.ctx }

def visit (r : Routine) (c : Conf B) : Conf B :=
  { c with trace := .turn r c.ctx (unread c.buf) (Buffer.dstlen c.buf) :: c.trace }

def incRpos (c : Conf B) : Conf B :=
  { c with buf := Buffer.inc c.buf, trace := .skip c.ctx.state.top (Buffer.rposAt c.buf 0) :: c.trace }

def copyChar (a : UInt8) (c : Conf B) : Conf B :=
  { c with
    buf := Buffer.put a c.buf
    trace := .emit c.ctx.state.top (Buffer.rposAt c.buf 0) a :: c.trace }

@[simp] def tagWrite (i : ℕ) (f : Ctx → Ctx) (c : Conf B) : Conf B :=
  { c with ctx := f c.ctx, trace := .tagWrite i :: c.trace }

@[simp] def setStack (f : StateStack → StateStack) (c : Conf B) : Conf B :=
  { c with ctx := { c.ctx with state := f c.ctx.state }, trace := .stack (f c.ctx.state) :: c.trace }

def cacheCall (a : List UInt8) (c : Conf B) : Conf B :=
  { c with trace := .cacheCall a c.ctx.cache.length (unread c.buf) :: c.trace }

/-- `pre_char` and `pre_char2` become the last two bytes written, unless `nochange_pre`. -/
def refreshPre (c : Conf B) : Conf B :=
  if c.ctx.nochangePre then c
  else if 2 ≤ Buffer.dstlen c.buf then
    c.modifyCtx fun x =>
      { x with preChar := Buffer.wposBack c.buf 1, preChar2 := Buffer.wposBack c.buf 2 }
  else if Buffer.dstlen c.buf = 1 then
    c.modifyCtx fun x => { x with preChar := Buffer.wposBack c.buf 1, preChar2 := 0 }
  else c

end Conf

def getCtx : MinifyM B Ctx := do return (← get).ctx
def count : MinifyM B ℤ := do return Buffer.count (← get).buf
def dstlen : MinifyM B ℕ := do return Buffer.dstlen (← get).buf

/-- `while (ctx->count)` -/
def countNonzero : MinifyM B Bool := do return (← count) ≠ 0

/-- `while (ctx->count > 0)` -/
def countPositive : MinifyM B Bool := do return 0 < (← count)

def modifyCtx (f : Ctx → Ctx) : MinifyM B Unit := modify (·.modifyCtx f)

def visit (r : Routine) : MinifyM B Unit := modify (·.visit r)

/-- `*(ctx->rpos + k)` -/
def rposAt (k : ℕ) : MinifyM B UInt8 :=
  readIf (fun c => (k : ℤ) < Buffer.count c.buf) .readPastEnd fun c => Buffer.rposAt c.buf k

/-- `!memcmp(ctx->rpos, s, strlen(s))` -/
def rposIs (s : List UInt8) : MinifyM B Bool :=
  readIf (fun c => (s.length : ℤ) ≤ Buffer.count c.buf) .readPastEnd
    fun c => (List.range s.length).map (Buffer.rposAt c.buf) = s

def ngxMinifyIncRpos : MinifyM B Unit :=
  modifyIf (fun c => 0 < Buffer.count c.buf) .skipPastEnd Conf.incRpos

def ngxMinifyCopyChar (a : UInt8) : MinifyM B Unit :=
  modifyIf (fun c => 0 < Buffer.count c.buf) .skipPastEnd (Conf.copyChar a)

def ngxMinifyCopyRpos : MinifyM B Unit := do
  let a ← rposAt 0
  ngxMinifyCopyChar a

def incRposTimes : ℕ → MinifyM B Unit
  | 0 => pure ()
  | n + 1 => do ngxMinifyIncRpos; incRposTimes n

def copyRposTimes : ℕ → MinifyM B Unit
  | 0 => pure ()
  | n + 1 => do ngxMinifyCopyRpos; copyRposTimes n

/-- `for (; i < ctx->count; ++i) ngx_minify_copy_rpos(ctx);`, which lowers its own bound. -/
def copyRposBelowCount (i : ℤ) : ℕ → MinifyM B Unit
  | 0 => throw .outOfFuel
  | fuel + 1 => do
    if i < (← count) then
      ngxMinifyCopyRpos
      copyRposBelowCount (i + 1) fuel
    else pure ()

/-- The update of `pre_char` and `pre_char2` at the end of an iteration. -/
def refreshPre : MinifyM B Unit := modify Conf.refreshPre

def ctxState : MinifyM B MinifyState := do return (← getCtx).state.top

def ctxPushState (s : MinifyState) : MinifyM B Unit :=
  modifyIf (fun c => c.ctx.state.sspos + 1 < ctxStateStack) .stackTop
    (Conf.setStack (StateStack.push s))

def ctxPopState : MinifyM B Unit :=
  modifyIf (fun c => c.ctx.state.below ≠ []) .stackBottom
    (Conf.setStack StateStack.pop)

def ctxSetState (s : MinifyState) : MinifyM B Unit := modify (Conf.setStack fun _ => ⟨s, []⟩)

/-- Whether index `i` lies inside a tag-name cache; `none` stands for unbounded caches. -/
def inRange (cap : Option ℕ) (i : ℕ) : Bool :=
  match cap with
  | some n => i < n
  | none => true

def ctxTagcacheClear : MinifyM B Unit := modifyCtx fun x => { x with tagcache := x.tagcache.clear }

/-- A write at index `i` of a tag-name cache, which becomes the update `f`. -/
def tagWrite (cap : Option ℕ) (fault : Fault) (i : ℕ) (f : Ctx → Ctx) : MinifyM B Unit :=
  modifyIf (fun _ => inRange cap i = true) fault (Conf.tagWrite i f)

def ctxTagcacheAdd (cap : Option ℕ) (a : UInt8) : MinifyM B Unit := do
  tagWrite cap .tagcacheRange (← getCtx).tagcache.len
    fun x => { x with tagcache := x.tagcache.add a }

def ctxTagcacheClose (cap : Option ℕ) : MinifyM B Unit := do
  tagWrite cap .tagcacheRange (← getCtx).tagcache.len
    fun x => { x with tagcache := x.tagcache.close }

def ctxTagendcacheClear : MinifyM B Unit :=
  modifyCtx fun x => { x with tagendcache := x.tagendcache.clear }

def ctxTagendcacheAdd (cap : Option ℕ) (a : UInt8) : MinifyM B Unit := do
  tagWrite cap .tagendcacheRange (← getCtx).tagendcache.len
    fun x => { x with tagendcache := x.tagendcache.add a }

def ctxTagendcacheClose (cap : Option ℕ) : MinifyM B Unit := do
  tagWrite cap .tagendcacheRange (← getCtx).tagendcache.len
    fun x => { x with tagendcache := x.tagendcache.close }

/-- `ctx->cache[ctx->cachelen++] = a` -/
def cacheAdd (a : UInt8) : MinifyM B Unit :=
  modifyIf (fun c => c.ctx.cache.length < ctxCacheBuflen) .cacheRange
    (Conf.modifyCtx fun x => { x with cache := x.cache ++ [a] })

/-- `*(c + i)` for a literal `c` with its terminating NUL. -/
def literalAt (c : List UInt8) (i : ℕ) : MinifyM B UInt8 :=
  readIf (fun _ => i ≤ c.length) .literalPastEnd fun _ => c.getD i 0

/-- The loop of `ngx_minify_cache` from index `i` on, with `n` bytes to go. -/
def cacheFrom (c : List UInt8) (i : ℕ) : ℕ → MinifyM B ℤ
  | 0 => return i
  | n + 1 => do
    let a ← literalAt c i
    let b ← rposAt i
    if toLower a = toLower b then
      cacheAdd b
      if ctxCacheBuflen ≤ (← getCtx).cache.length then return -2
      else cacheFrom c (i + 1) n
    else
      modifyCtx fun x => { x with cache := x.cache.take (x.cache.length - i) }
      return -1

def ngxMinifyCache (c : List UInt8) : MinifyM B ℤ := do
  modify (Conf.cacheCall c)
  cacheFrom c 0 (← count).toNat

end NginB.Minify
