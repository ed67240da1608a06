import NginB.Minify.Byte

/-! # The minify context

`Ctx` holds what `ngx_minify_ctx_t` keeps from one buffer to the next. The fields
that point into the buffer at hand (`rpos`, `wpos`, `count`, `dstlen`) belong to
the buffer's own model.
-/
namespace NginB.Minify

inductive MinifyState
  | text | abort
  | htmlSkip | htmlTag | htmlTagBang | htmlComment | htmlCommentIe | htmlCommentSkip
  | htmlTagname | htmlTagatt | htmlTagnameEnd | htmlCdata
  | cssComment | cssQuote | cssBrace
  | jsSkip | jsComment | jsCommentLine | jsQuote
  deriving DecidableEq, Repr

abbrev ctxCacheBuflen : Nat := 64

abbrev ctxStateStack : Nat := 8

/-- The live part of the state stack, `state[0..sspos]`, from `state[sspos]` downwards.
The stack is never empty between two operations. -/
structure StateStack where
  top : MinifyState
  below : List MinifyState
  deriving DecidableEq

namespace StateStack

def sspos (s : StateStack) : Nat := s.below.length

@[simp] def push (st : MinifyState) (s : StateStack) : StateStack := ⟨st, s.top :: s.below⟩

/-- The stack below its top; the bottom has none. -/
def pop (s : StateStack) : StateStack :=
  match s.below with
  | st :: below => ⟨st, below⟩
  | [] => s

@[simp] theorem pop_mk (st : MinifyState) (t : MinifyState) (below : List MinifyState) :
    pop ⟨st, t :: below⟩ = ⟨t, below⟩ := rfl

end StateStack

/-- A tag-name cache: the bytes below its length, then what the array holds above it. -/
structure NameCache where
  name : List UInt8
  stale : List UInt8
  deriving DecidableEq

namespace NameCache

def len (t : NameCache) : Nat := t.name.length

/-- `cache[len++] = a` -/
def add (t : NameCache) (a : UInt8) : NameCache := ⟨t.name ++ [a], t.stale.tail⟩

/-- `cache[len] = '\0'` -/
def close (t : NameCache) : NameCache := ⟨t.name, 0 :: t.stale.tail⟩

/-- `len = 0` -/
def clear (t : NameCache) : NameCache := ⟨[], t.name ++ t.stale⟩

/-- The array, zero where it was never written. -/
def read (t : NameCache) (i : Nat) : UInt8 := (t.name ++ t.stale).getD i 0

@[simp] theorem add_name (t : NameCache) (a : UInt8) : (t.add a).name = t.name ++ [a] := rfl
@[simp] theorem close_name (t : NameCache) : t.close.name = t.name := rfl
@[simp] theorem clear_name (t : NameCache) : t.clear.name = [] := rfl

/-- `!memcmp(t, u, n)` -/
def memcmpEq (t u : NameCache) (n : Nat) : Bool :=
  (List.range n).all fun i => t.read i = u.read i

end NameCache

structure Ctx where
  state : StateStack
  quoteChar : UInt8
  preChar : UInt8
  preChar2 : UInt8
  nochangePre : Bool
  cache : List UInt8
  tagcache : NameCache
  tagendcache : NameCache
  deriving DecidableEq

/-- The context as `ngx_pcalloc` returns it. -/
def Ctx.zero : Ctx where
  state := ⟨.text, []⟩
  quoteChar := 0
  preChar := 0
  preChar2 := 0
  nochangePre := false
  cache := []
  tagcache := ⟨[], []⟩
  tagendcache := ⟨[], []⟩

def htmlSkipTag : List (List UInt8) := [lit "pre", lit "script", lit "style"]

/-- The index in `html_skip_tag` of a name in any letter case, or -1. -/
def NameCache.skipIndex (t : NameCache) : Int :=
  match htmlSkipTag.findIdx? (fun tag => t.len = tag.length &&
      strncasecmpEq (t.name ++ t.stale) tag t.len) with
  | some i => i
  | none => -1

def ngxMinifyGetSkipTagname (ctx : Ctx) : Int := ctx.tagcache.skipIndex

end NginB.Minify
