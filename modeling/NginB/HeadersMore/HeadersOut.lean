import Mathlib.Algebra.Group.Nat.Defs
import Mathlib.Data.Int.Notation
import Mathlib.Logic.Function.Basic
import NginB.Minify.Byte

/-! # The headers of a response

The commands of the module on `r->headers_out`, run by its header filter. A header whose hash is zero
is not sent; it stays in the list, and so do the pointers to it.
-/
namespace NginB.HeadersMore
open NginB.Minify (lit toLower strncasecmpEq)

structure TableElt where
  hash : ℕ
  key : List UInt8
  value : List UInt8
  lowcaseKey : Option (List UInt8)
  deriving DecidableEq

/-- `hash = 0` and `value.len = 0`. -/
def TableElt.deleted (e : TableElt) : TableElt := { e with hash := 0, value := [] }

/-- The fields of `ngx_http_headers_out_t` that point to a header. -/
inductive Builtin
  | server | date | contentEncoding | location | refresh | lastModified | contentRange | acceptRanges
  | wwwAuthenticate | expires | etag | contentLength
  deriving DecidableEq

/-- What the module reads and writes of a request, all but its headers of the way in. -/
structure HeadersOut where
  /-- the elements of `headers`, part behind part; they are never taken out -/
  headers : List TableElt
  /-- the indices of the headers that the fields point to -/
  builtin : Builtin → Option ℕ
  /-- the indices of the headers in the array `cache_control` of pointers -/
  cacheControl : List ℕ
  contentLengthN : ℤ
  contentType : List UInt8
  contentTypeLen : ℕ
  contentTypeHash : ℕ
  contentTypeLowcase : Option (List UInt8)
  /-- the offset of the charset in the value of the type, and its length -/
  charset : Option (ℕ × ℕ)
  status : ℕ
  /-- `r->allow_ranges` -/
  allowRanges : Bool
  /-- whether the next allocations succeed; behind the end of the list they do -/
  pool : List Bool

inductive Rc
  | ok | error | internalServerError
  deriving DecidableEq

/-- The handlers of `ngx_http_headers_more_set_handlers`. -/
inductive Handler
  | header | builtin | acceptRanges | contentLength | contentType | builtinMulti
  deriving DecidableEq

/-- `ngx_http_headers_more_header_val_t`, with a compiled value of type `υ`. -/
structure HeaderVal (υ : Type) where
  value : υ
  hash : ℕ
  key : List UInt8
  handler : Handler
  offset : Option Builtin
  wildcard : Bool

/-- `ngx_http_headers_more_cmd_t`. A list that has no elements is `NULL`. -/
structure Cmd (υ : Type) where
  types : Option (List (List UInt8))
  statuses : Option (List ℕ)
  headers : Option (List (HeaderVal υ))
  isInput : Bool

/-- `ngx_http_headers_more_set_header_t`. -/
structure SetHeader where
  name : List UInt8
  offset : Option Builtin
  handler : Handler

/-- `ngx_http_headers_more_set_handlers`, but for its last element, the handler of all other names. -/
def setHandlers : List SetHeader :=
  [⟨lit "Server", some .server, .builtin⟩,
    ⟨lit "Date", some .date, .builtin⟩,
    ⟨lit "Content-Encoding", some .contentEncoding, .builtin⟩,
    ⟨lit "Location", some .location, .builtin⟩,
    ⟨lit "Refresh", some .refresh, .builtin⟩,
    ⟨lit "Last-Modified", some .lastModified, .builtin⟩,
    ⟨lit "Content-Range", some .contentRange, .builtin⟩,
    ⟨lit "Accept-Ranges", some .acceptRanges, .acceptRanges⟩,
    ⟨lit "WWW-Authenticate", some .wwwAuthenticate, .builtin⟩,
    ⟨lit "Expires", some .expires, .builtin⟩,
    ⟨lit "E-Tag", some .etag, .builtin⟩,
    ⟨lit "Content-Length", some .contentLength, .contentLength⟩,
    ⟨lit "Content-Type", none, .contentType⟩,
    ⟨lit "Cache-Control", none, .builtinMulti⟩]

/-- The loop of `ngx_http_headers_more_parse_header` over the handlers. -/
def findHandler (key : List UInt8) : Handler × Option Builtin :=
  match setHandlers.find? fun h => key.length = h.name.length && strncasecmpEq key h.name h.name.length with
  | some h => (h.handler, h.offset)
  | none => (.header, none)

section Handlers
variable {υ : Type}

def HeaderVal.hits (hv : HeaderVal υ) (e : TableElt) : Bool :=
  (!hv.wildcard && (e.key.length = hv.key.length && strncasecmpEq e.key hv.key e.key.length)) ||
    (hv.wildcard && (hv.key.length - 1 ≤ e.key.length && strncasecmpEq e.key hv.key (hv.key.length - 1)))

/-- The loop of `ngx_http_set_header_helper` from the index `i` on: the headers, and the index of the
last one that is hit. -/
def setHeaderLoop (hv : HeaderVal υ) (value : List UInt8) (i : ℕ) (matched : Bool) :
    List TableElt → List TableElt × Option ℕ
  | [] => ([], none)
  | e :: es =>
    if hv.hits e then
      let e' := if value = [] ∨ matched then e.deleted
        else { e with value := value, hash := hv.hash }
      let (es', out) := setHeaderLoop hv value (i + 1) true es
      (e' :: es', some (out.getD i))
    else
      let (es', out) := setHeaderLoop hv value (i + 1) matched es
      (e :: es', out)

def HeadersOut.palloc (r : HeadersOut) : Bool := r.pool.headD true

def HeadersOut.allocated (r : HeadersOut) : HeadersOut := { r with pool := r.pool.tail }

/-- `*output_header = ..`. -/
def setOutput (r : HeadersOut) (outputHeader : Option Builtin) (i : ℕ) : HeadersOut :=
  match outputHeader with
  | none => r
  | some b => { r with builtin := Function.update r.builtin b (some i) }

def HeaderVal.pushed (hv : HeaderVal υ) (value : List UInt8) : TableElt :=
  ⟨if value = [] then 0 else hv.hash, hv.key, value, none⟩

def ngxHttpSetHeaderHelper (r : HeadersOut) (hv : HeaderVal υ) (value : List UInt8)
    (outputHeader : Option Builtin) (noCreate : Bool) : Rc × HeadersOut :=
  let loop := setHeaderLoop hv value 0 false r.headers
  match loop.2 with
  | some i => (.ok, setOutput { r with headers := loop.1 } outputHeader i)
  | none =>
    if (hv.wildcard ∨ noCreate) ∧ value = [] then (.ok, r)
    else if r.palloc = false then (.internalServerError, r.allocated)
    else
      let pushed := { r.allocated with headers := r.headers ++ [hv.pushed value] }
      if pushed.palloc = false then (.internalServerError, pushed.allocated)
      else
        let h := { hv.pushed value with lowcaseKey := some (hv.key.map toLower) }
        (.ok, setOutput { pushed.allocated with headers := r.headers ++ [h] } outputHeader r.headers.length)

def ngxHttpSetHeader (r : HeadersOut) (hv : HeaderVal υ) (value : List UInt8) : Rc × HeadersOut :=
  ngxHttpSetHeaderHelper r hv value none false

def ngxHttpSetBuiltinHeader (r : HeadersOut) (hv : HeaderVal υ) (value : List UInt8) : Rc × HeadersOut :=
  match hv.offset.bind r.builtin with
  | none => ngxHttpSetHeaderHelper r hv value hv.offset false
  | some i =>
    if value = [] then
      (.ok, { r with headers := r.headers.modify i fun h => { h with hash := 0, value := value } })
    else
      (.ok, { r with headers := r.headers.modify i fun h =>
        { h with hash := hv.hash, key := hv.key, value := value } })

def ngxHttpSetBuiltinMultiHeader (r : HeadersOut) (hv : HeaderVal υ) (value : List UInt8) :
    Rc × HeadersOut :=
  match r.cacheControl with
  | i :: is =>
    let hs := is.foldl (fun hs j => hs.modify j TableElt.deleted) r.headers
    (.ok, { r with headers := hs.modify i fun h =>
      { h with value := value, hash := if value = [] then 0 else hv.hash } })
  | [] =>
    -- the array has no elements yet
    if r.palloc = false then (.error, r.allocated)
    else if r.allocated.palloc = false then
      -- the array has counted a pointer that is not set: here it points behind the list
      (.error, { r.allocated.allocated with cacheControl := [r.headers.length] })
    else (.ok, { r.allocated.allocated with
      headers := r.headers ++ [⟨hv.hash, lit "Cache-Control", value, none⟩]
      cacheControl := [r.headers.length] })

/-- `while (*++p == ' ')`, from the first byte that is looked at; a NUL stands behind the value. -/
def skipSpaces (data : List UInt8) (p : ℕ) : ℕ → ℕ
  | 0 => p
  | n + 1 => if data.getD p 0 = 32 then skipSpaces data (p + 1) n else p

/-- The loop of `ngx_http_set_content_type_header` with `n` bytes to go: `content_type_len`, and the
offset and the length of the charset. -/
def contentTypeLoop (data : List UInt8) (p : ℕ) : ℕ → Option (ℕ × ℕ × ℕ)
  | 0 => none
  | n + 1 =>
    if data.length ≤ p then none
    else if data.getD p 0 ≠ 59 then contentTypeLoop data (p + 1) n
    else
      let q := skipSpaces data (p + 1) data.length
      if q = data.length then none
      else if strncasecmpEq (data.drop q) (lit "charset=") 8 = false then contentTypeLoop data (q + 1) n
      else
        let start := if data.getD (q + 8) 0 = 34 then q + 9 else q + 8
        let last := if data.getD (data.length - 1) 0 = 34 then data.length - 1 else data.length
        -- a `size_t`
        some (p, start, (last + 2 ^ 64 - start) % 2 ^ 64)

def HeadersOut.typed (r : HeadersOut) (hash : ℕ) (value : List UInt8) : HeadersOut :=
  let r := { r with
    contentTypeLen := value.length, contentType := value, contentTypeHash := hash, contentTypeLowcase := none }
  match contentTypeLoop value 0 value.length with
  | none => r
  | some (len, start, n) => { r with contentTypeLen := len, charset := some (start, n) }

def ngxHttpSetContentTypeHeader (r : HeadersOut) (hv : HeaderVal υ) (value : List UInt8) :
    Rc × HeadersOut :=
  ngxHttpSetHeaderHelper (r.typed hv.hash value) hv [] none true

def ngxHttpClearBuiltinHeader (r : HeadersOut) (hv : HeaderVal υ) : Rc × HeadersOut :=
  ngxHttpSetBuiltinHeader r hv []

def ngxHttpClearContentLengthHeader (r : HeadersOut) (hv : HeaderVal υ) : Rc × HeadersOut :=
  ngxHttpClearBuiltinHeader { r with contentLengthN := -1 } hv

/-- `ngx_http_set_content_length_header`, with `ngx_atosz`. -/
def ngxHttpSetContentLengthHeader (atosz : List UInt8 → Option ℕ) (r : HeadersOut) (hv : HeaderVal υ)
    (value : List UInt8) : Rc × HeadersOut :=
  if value = [] then ngxHttpClearContentLengthHeader r hv
  else
    match atosz value with
    | none => (.error, r)
    | some len => ngxHttpSetBuiltinHeader { r with contentLengthN := len } hv value

def ngxHttpSetAcceptRangesHeader (r : HeadersOut) (hv : HeaderVal υ) (value : List UInt8) :
    Rc × HeadersOut :=
  ngxHttpSetBuiltinHeader (if value = [] then { r with allowRanges := false } else r) hv value

/-- `h[i].handler(r, &h[i], &value)`. -/
def handle (atosz : List UInt8 → Option ℕ) (r : HeadersOut) (hv : HeaderVal υ) (value : List UInt8) :
    Rc × HeadersOut :=
  match hv.handler with
  | .header => ngxHttpSetHeader r hv value
  | .builtin => ngxHttpSetBuiltinHeader r hv value
  | .acceptRanges => ngxHttpSetAcceptRangesHeader r hv value
  | .contentLength => ngxHttpSetContentLengthHeader atosz r hv value
  | .contentType => ngxHttpSetContentTypeHeader r hv value
  | .builtinMulti => ngxHttpSetBuiltinMultiHeader r hv value

def strncmpEq : List UInt8 → List UInt8 → ℕ → Bool
  | _, _, 0 => true
  | a, b, n + 1 =>
    if a.headD 0 ≠ b.headD 0 then false
    else if a.headD 0 = 0 then true
    else strncmpEq a.tail b.tail n

def ngxHttpHeadersMoreCheckType (contentType : List UInt8) (types : List (List UInt8)) : Bool :=
  types.any fun t => contentType.length = t.length && strncmpEq contentType t t.length

def ngxHttpHeadersMoreCheckStatus (status : ℕ) (statuses : List ℕ) : Bool :=
  statuses.any fun s => status = s

/-- Whether the types and the statuses of a command let it be executed. -/
def Cmd.admits (cmd : Cmd υ) (contentType : List UInt8) (status : ℕ) : Bool :=
  (cmd.types.map (ngxHttpHeadersMoreCheckType contentType)).getD true &&
    (cmd.statuses.map (ngxHttpHeadersMoreCheckStatus status)).getD true

/-- The loop of `ngx_http_headers_more_exec_cmd`. `eval` gives the bytes of a compiled value; they end
with the NUL that `ngx_http_headers_more_parse_header` has compiled into it. -/
def execLoop (eval : HeadersOut → υ → Option (List UInt8)) (atosz : List UInt8 → Option ℕ)
    (r : HeadersOut) : List (HeaderVal υ) → Rc × HeadersOut
  | [] => (.ok, r)
  | hv :: hvs =>
    match eval r hv.value with
    | none => (.error, r)
    | some value =>
      let out := handle atosz r hv value.dropLast
      if out.1 = .ok then execLoop eval atosz out.2 hvs else (.error, out.2)

def ngxHttpHeadersMoreExecCmd (eval : HeadersOut → υ → Option (List UInt8))
    (atosz : List UInt8 → Option ℕ) (r : HeadersOut) (cmd : Cmd υ) : Rc × HeadersOut :=
  match cmd.headers with
  | none => (.ok, r)
  | some hvs =>
    if cmd.admits r.contentType r.status = false then (.ok, r) else execLoop eval atosz r hvs

/-- `ngx_http_headers_more_filter`, up to the call of the next filter. -/
def ngxHttpHeadersMoreFilter (eval : HeadersOut → υ → Option (List UInt8))
    (atosz : List UInt8 → Option ℕ) (r : HeadersOut) : List (Cmd υ) → Rc × HeadersOut
  | [] => (.ok, r)
  | cmd :: cmds =>
    if cmd.isInput then ngxHttpHeadersMoreFilter eval atosz r cmds
    else
      let out := ngxHttpHeadersMoreExecCmd eval atosz r cmd
      if out.1 = .ok then ngxHttpHeadersMoreFilter eval atosz out.2 cmds else out

end Handlers

end NginB.HeadersMore
