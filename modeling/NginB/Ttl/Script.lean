import NginB.Lua.Number
import NginB.Minify.Byte

/-! # The TTL script

`ttl.lua` runs on the headers of a response. `filter_unit` holds the four header filters and
what they return; `get_filter` makes an iterator over it, which the script calls until a filter
returns 0 or the table ends.
-/
namespace NginB.Ttl
open NginB.Lua
open NginB.Minify (lit)

abbrev Bytes := List UInt8

/-- What the script asks of nginx: the time, and dates read from and written as bytes. -/
structure Ngx (N : Type) where
  time : N
  httpTime : N → Bytes
  parseHttpTime : Bytes → Option N

/-- The single-valued response headers that the script reads and writes. -/
structure Headers where
  setCookie : Option Bytes
  cacheControl : Option Bytes
  expires : Option Bytes
  deriving DecidableEq

section
variable {N : Type} [LuaNumber N]

def setAqbTtl (ngx : Ngx N) (aqbMaxAge aqbExpires : N) (header : Headers) : Headers :=
  { header with
    cacheControl := some (lit "public, max-age=" ++ LuaNumber.tostring aqbMaxAge)
    expires := some (ngx.httpTime aqbExpires) }

def filterSetCookie (setCookie : Option Bytes) : N := if setCookie.isSome then 0 else 1

/-- `no_cache_filter`, each pattern after its `^`. -/
def noCacheFilter : List (List PatItem) :=
  [literal (lit "private"), literal (lit "no-store"), literal (lit "no-cache")]

def filterCacheControl (cacheControl : Option Bytes) : N :=
  match cacheControl with
  | none => -1
  | some s => if noCacheFilter.any fun v => (find v s).isSome then 0 else 1

/-- `^.-max%-age=(%-?%d+)`, after its `^`. -/
def maxAgePattern : List PatItem := .lazy .any :: (literal (lit "max-age=") ++ numeralItems)

def firstCapture : List Capture → Option Bytes
  | .closed text :: _ => some text
  | _ => none

def getMaxAge (cacheControl : Option Bytes) : N :=
  match cacheControl with
  | none => -1
  | some s =>
    let maxAge := (find maxAgePattern s).bind firstCapture
    match maxAge.bind LuaNumber.tonumber with
    | none => -1
    | some age => if 0 < age then age else 0

def getExpiresTime (ngx : Ngx N) (expires : Option Bytes) : N :=
  match expires with
  | none => -1
  | some s => (ngx.parseHttpTime s).getD 0

/-- An entry of `filter_unit`: a filter, its argument, and what it has returned. -/
structure FilterUnit (N : Type) where
  f : Option Bytes → N
  p : Option Bytes
  r : Option N

def filterUnit (ngx : Ngx N) (header : Headers) : List (FilterUnit N) :=
  [⟨filterSetCookie, header.setCookie, none⟩, ⟨filterCacheControl, header.cacheControl, none⟩,
    ⟨getMaxAge, header.cacheControl, none⟩, ⟨getExpiresTime ngx, header.expires, none⟩]

/-- The iterator that `get_filter` returns, with the table that it changes. -/
structure Iterator (N : Type) where
  i : ℕ
  unit : List (FilterUnit N)

def getFilter (checkType : ℕ) (unit : List (FilterUnit N)) : Iterator N :=
  ⟨if checkType = 1 then 0 else 1, unit⟩

/-- A call of the iterator. A Lua table counts from 1. -/
def Iterator.next (it : Iterator N) : Option N × Iterator N :=
  match it.unit[it.i]? with
  | none => (none, { it with i := it.i + 1 })
  | some u => (some (u.f u.p), ⟨it.i + 1, it.unit.set it.i { u with r := some (u.f u.p) }⟩)

omit [LuaNumber N] in
theorem Iterator.next_lt {it it' : Iterator N} {r : N} (h : it.next = (some r, it')) :
    it'.unit.length - it'.i < it.unit.length - it.i := by
  unfold Iterator.next at h
  split at h
  · cases h
  next hu =>
    obtain ⟨hlt, -⟩ := List.getElem?_eq_some_iff.mp hu
    cases h
    simp only [List.length_set]
    omega

/-- The `while true` loop of the script: whether a filter has returned 0, and the table. -/
def filterLoop (it : Iterator N) : Bool × List (FilterUnit N) :=
  match _h : it.next with
  | (none, it') => (false, it'.unit)
  | (some r, it') => if r = 0 then (true, it'.unit) else filterLoop it'
termination_by it.unit.length - it.i
decreasing_by exact Iterator.next_lt _h

/-- A request: the variables of the configuration and the headers of the response. -/
structure Request (N : Type) where
  aqbContentType : Option N
  aqbCacheTime : N
  upstreamCacheStatus : Option Bytes
  header : Headers

/-- Lua's `<`, which stops the script on `nil`. -/
def less (a : Option N) (b : N) : Option Bool := a.map fun a => a < b

/-- The main part of the script: the headers after it, or `none` where Lua stops it. -/
def main (ngx : Ngx N) (q : Request N) : Option Headers :=
  if 0 < q.aqbCacheTime then
    let checkType := if q.upstreamCacheStatus = some (lit "HIT") ∨
      q.upstreamCacheStatus = some (lit "EXPIRES") then 0 else 1
    let (fin, unit) := filterLoop (getFilter checkType (filterUnit ngx q.header))
    if fin then some q.header
    else
      let aqbExpireTime := ngx.time + q.aqbCacheTime
      let rCc : Option N := unit[1]?.bind (·.r)
      let rMaxAge : Option N := unit[2]?.bind (·.r)
      let rExpiresTime : Option N := unit[3]?.bind (·.r)
      let rewritten := setAqbTtl ngx q.aqbCacheTime aqbExpireTime q.header
      if rMaxAge ≠ some (-1) then
        (less rMaxAge q.aqbCacheTime).map fun shorter : Bool =>
          if shorter ∧ q.aqbContentType = some 0 then rewritten else q.header
      else if rExpiresTime ≠ some (-1) then
        (less rExpiresTime aqbExpireTime).map fun shorter : Bool =>
          if shorter ∧ q.aqbContentType = some 0 then rewritten else q.header
      else if rCc = some 1 then some rewritten
      else if q.aqbContentType = some 0 then some rewritten
      else some q.header
  else some q.header

end

end NginB.Ttl
