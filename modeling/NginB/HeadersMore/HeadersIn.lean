import NginB.HeadersMore.Configuration
import NginB.HeadersMore.HeaderList

/-! # The headers of a request

The commands of the module on `r->headers_in`. A header that is cleared is taken out of the list, and the
list is searched again from its start. Where it cannot be taken out it is set to the empty value, and that
is all.
-/
namespace NginB.HeadersMore
open NginB.Minify (lit toLower strncasecmpEq)

/-- The fields of `ngx_http_headers_in_t` that point to a header. -/
inductive BuiltinIn
  | acceptEncoding | host | connection | ifModifiedSince | userAgent | referer | contentType | range | ifRange
  | transferEncoding | expect | authorization | keepAlive | contentLength
  deriving DecidableEq

/-- The handlers of `ngx_http_headers_more_set_handlers`. -/
inductive HandlerIn
  | header | builtin | host | contentLength
  deriving DecidableEq

/-- `ngx_http_headers_more_header_val_t` of a request; what `wildcard` says is not asked. -/
structure InputVal (υ : Type) where
  value : υ
  hash : ℕ
  key : List UInt8
  handler : HandlerIn
  offset : Option BuiltinIn
  replace : Bool

/-- `ngx_http_headers_more_cmd_t` of a request. -/
structure InputCmd (υ : Type) where
  types : Option (List (List UInt8))
  headers : Option (List (InputVal υ))

/-- `ngx_http_headers_more_set_handlers`, but for its last element. -/
def setInputHandlers : List (List UInt8 × BuiltinIn × HandlerIn) :=
  [(lit "Accept-Encoding", .acceptEncoding, .builtin),
    (lit "Host", .host, .host),
    (lit "Connection", .connection, .builtin),
    (lit "If-Modified-Since", .ifModifiedSince, .builtin),
    (lit "User-Agent", .userAgent, .builtin),
    (lit "Referer", .referer, .builtin),
    (lit "Content-Type", .contentType, .builtin),
    (lit "Range", .range, .builtin),
    (lit "If-Range", .ifRange, .builtin),
    (lit "Transfer-Encoding", .transferEncoding, .builtin),
    (lit "Expect", .expect, .builtin),
    (lit "Authorization", .authorization, .builtin),
    (lit "Keep-Alive", .keepAlive, .builtin),
    (lit "Content-Length", .contentLength, .contentLength)]

/-- The loop of `ngx_http_headers_more_parse_header` over these handlers. -/
def findInputHandler (key : List UInt8) : HandlerIn × Option BuiltinIn :=
  match setInputHandlers.find? fun h => key.length = h.1.length && strncasecmpEq key h.1 h.1.length with
  | some h => (h.2.2, some h.2.1)
  | none => (.header, none)

structure HeadersIn where
  /-- the headers by their addresses -/
  mem : ℕ → TableElt
  list : HeaderList
  builtin : BuiltinIn → Option ℕ
  server : List UInt8
  contentLengthN : ℤ
  /-- whether the next removals and pushes can allocate; behind the end of the list they can -/
  pool : List Bool

def HeadersIn.update (r : HeadersIn) (a : ℕ) (f : TableElt → TableElt) : HeadersIn :=
  { r with mem := Function.update r.mem a (f (r.mem a)) }

/-- A header that is not sent any more, and the list behind the attempt to take it out. -/
def HeadersIn.removed (r : HeadersIn) (a : ℕ) (list : HeaderList) : HeadersIn :=
  { r.update a fun h => { h with hash := 0 } with list := list, pool := r.pool.tail }

/-- `*output_header = ..`. -/
def HeadersIn.output (r : HeadersIn) (outputHeader : Option BuiltinIn) (a : Option ℕ) : HeadersIn :=
  match outputHeader with
  | none => r
  | some b => { r with builtin := Function.update r.builtin b a }

/-- The loop over the parts from the part `k` on: the first header that is hit. The number of headers of a
part is not asked before its first header, but in the first part. -/
def walkParts (hit : ℕ → Bool) (isFirst : Bool) (k : ℕ) : List Part → Option (ℕ × ℕ)
  | [] => none
  | p :: ps =>
    match (List.range (if isFirst then p.nelts else max 1 p.nelts)).find? fun i => hit (p.elts + i) with
    | some i => some (k, i)
    | none => walkParts hit false (k + 1) ps

section Handlers
variable {υ : Type}

def InputVal.hits (hv : InputVal υ) (e : TableElt) : Bool :=
  e.key.length = hv.key.length && strncasecmpEq e.key hv.key e.key.length

/-- `&h[i]`. -/
def HeaderList.address (l : HeaderList) (k i : ℕ) : ℕ := ((l.parts[k]?).map Part.elts).getD 0 + i

variable (listPush : HeadersIn → Option ℕ × HeadersIn)

/-- `ngx_http_set_header_helper`, with `ngx_list_push`, and with `fuel` searches of the list. The copy of
`headers_in` to the requests around a subrequest is left out. -/
def ngxHttpSetInputHeaderHelper (r : HeadersIn) (hv : InputVal υ) (value : List UInt8)
    (outputHeader : Option BuiltinIn) : ℕ → Option (Rc × HeadersIn)
  | 0 => none
  | fuel + 1 =>
    match walkParts (fun a => hv.hits (r.mem a)) true 0 r.list.parts with
    | some (k, i) =>
      let a := r.list.address k i
      if value = [] then
        let out := ngxHttpHeadersMoreRmHeaderHelper (r.pool.headD true) r.list k i
        let r := r.removed a out.2
        if out.1 = .ok then ngxHttpSetInputHeaderHelper (r.output outputHeader none) hv value outputHeader fuel
        else some (.ok, (r.update a fun h => { h with value := value }).output outputHeader (some a))
      else some (.ok, (r.update a fun h => { h with value := value }).output outputHeader (some a))
    | none =>
      if value = [] ∨ hv.replace = true then some (.ok, r)
      else
        match listPush r with
        | (none, r) => some (.internalServerError, r)
        | (some a, r) =>
          let r := r.update a fun h => { h with hash := hv.hash, key := hv.key, value := value }
          if r.pool.headD true = false then some (.internalServerError, { r with pool := r.pool.tail })
          else
            let r := { r with pool := r.pool.tail }
            some (.ok, (r.update a fun h => { h with lowcaseKey := some (hv.key.map toLower) }).output
              outputHeader (some a))

/-- `ngx_http_set_header`. -/
def ngxHttpSetInputHeader (fuel : ℕ) (r : HeadersIn) (hv : InputVal υ) (value : List UInt8) :
    Option (Rc × HeadersIn) :=
  ngxHttpSetInputHeaderHelper listPush r hv value none fuel

/-- `ngx_http_set_builtin_header`. -/
def ngxHttpSetBuiltinInputHeader (fuel : ℕ) (r : HeadersIn) (hv : InputVal υ) (value : List UInt8) :
    Option (Rc × HeadersIn) :=
  match hv.offset.bind r.builtin with
  | none => ngxHttpSetInputHeaderHelper listPush r hv value hv.offset fuel
  | some a =>
    if value = [] then
      ngxHttpSetInputHeaderHelper listPush (r.update a fun h => { h with hash := 0, value := value }) hv value
        hv.offset fuel
    else some (.ok, r.update a fun h => { h with hash := hv.hash, value := value })

def ngxHttpSetHostHeader (fuel : ℕ) (r : HeadersIn) (hv : InputVal υ) (value : List UInt8) :
    Option (Rc × HeadersIn) :=
  ngxHttpSetBuiltinInputHeader listPush fuel { r with server := value } hv value

/-- `ngx_http_clear_builtin_header`. -/
def ngxHttpClearBuiltinInputHeader (fuel : ℕ) (r : HeadersIn) (hv : InputVal υ) : Option (Rc × HeadersIn) :=
  ngxHttpSetBuiltinInputHeader listPush fuel r hv []

/-- `ngx_http_clear_content_length_header`. -/
def ngxHttpClearContentLengthInputHeader (fuel : ℕ) (r : HeadersIn) (hv : InputVal υ) :
    Option (Rc × HeadersIn) :=
  ngxHttpClearBuiltinInputHeader listPush fuel { r with contentLengthN := -1 } hv

variable (atosz : List UInt8 → Option ℕ)

/-- `ngx_http_set_content_length_header`, with `ngx_atosz`. -/
def ngxHttpSetContentLengthInputHeader (fuel : ℕ) (r : HeadersIn) (hv : InputVal υ) (value : List UInt8) :
    Option (Rc × HeadersIn) :=
  if value = [] then ngxHttpClearContentLengthInputHeader listPush fuel r hv
  else
    match atosz value with
    | none => some (.error, r)
    | some len => ngxHttpSetBuiltinInputHeader listPush fuel { r with contentLengthN := len } hv value

/-- `h[i].handler(r, &h[i], &value)`. -/
def handleInput (fuel : ℕ) (r : HeadersIn) (hv : InputVal υ) (value : List UInt8) : Option (Rc × HeadersIn) :=
  match hv.handler with
  | .header => ngxHttpSetInputHeader listPush fuel r hv value
  | .builtin => ngxHttpSetBuiltinInputHeader listPush fuel r hv value
  | .host => ngxHttpSetHostHeader listPush fuel r hv value
  | .contentLength => ngxHttpSetContentLengthInputHeader listPush atosz fuel r hv value

/-- `ngx_http_headers_more_check_type`. -/
def ngxHttpHeadersMoreCheckInputType (r : HeadersIn) (types : List (List UInt8)) : Bool :=
  match r.builtin .contentType with
  | none => false
  | some a =>
    let actualType := (r.mem a).value
    if actualType = [] then false
    else types.any fun t => actualType.length = t.length && strncmpEq actualType t t.length

variable (eval : HeadersIn → υ → Option (List UInt8))

/-- The loop of `ngx_http_headers_more_exec_input_cmd`. -/
def execInputLoop (fuel : ℕ) (r : HeadersIn) : List (InputVal υ) → Option (Rc × HeadersIn)
  | [] => some (.ok, r)
  | hv :: hvs =>
    match eval r hv.value with
    | none => some (.error, r)
    | some value =>
      match handleInput listPush atosz fuel r hv value.dropLast with
      | none => none
      | some out => if out.1 = .ok then execInputLoop fuel out.2 hvs else some (.error, out.2)

def ngxHttpHeadersMoreExecInputCmd (fuel : ℕ) (r : HeadersIn) (cmd : InputCmd υ) : Option (Rc × HeadersIn) :=
  match cmd.headers with
  | none => some (.ok, r)
  | some hvs =>
    if (cmd.types.map (ngxHttpHeadersMoreCheckInputType r)).getD true = false then some (.ok, r)
    else execInputLoop listPush atosz eval fuel r hvs

/-- The loop of `ngx_http_headers_more_handler` over its commands, without those that are not for the request. -/
def inputCmdLoop (fuel : ℕ) (r : HeadersIn) : List (InputCmd υ) → Option (Rc × HeadersIn)
  | [] => some (.ok, r)
  | cmd :: cmds =>
    match ngxHttpHeadersMoreExecInputCmd listPush atosz eval fuel r cmd with
    | none => none
    | some out => if out.1 = .ok then inputCmdLoop fuel out.2 cmds else some out

end Handlers

section Directive
variable {υ : Type} (compile : List UInt8 → Option υ) (zero : υ) (hashKeyLc : List UInt8 → ℕ)

def HeaderArg.inputVal (replace : Bool) (h : HeaderArg υ) : InputVal υ :=
  ⟨h.value, h.hash, h.key, (findInputHandler h.key).1, (findInputHandler h.key).2, replace⟩

/-- `ngx_http_headers_more_parse_directive` of the requests. -/
def ngxHttpHeadersMoreParseInputDirective (opcode : Opcode) (args : List (List UInt8)) :
    Except ConfError (InputCmd υ) :=
  match argLoop inputOptions (fun raw => ngxHttpHeadersMoreParseHeader compile zero hashKeyLc raw opcode)
      false ⟨[], [], [], false⟩ args with
  | .error e => .error e
  | .ok a => .ok ⟨orNull a.types, orNull (a.headers.map (HeaderArg.inputVal a.replace))⟩

def ngxHttpHeadersMoreSetInputHeaders (args : List (List UInt8)) : Except ConfError (InputCmd υ) :=
  ngxHttpHeadersMoreParseInputDirective compile zero hashKeyLc .set args

def ngxHttpHeadersMoreClearInputHeaders (args : List (List UInt8)) : Except ConfError (InputCmd υ) :=
  ngxHttpHeadersMoreParseInputDirective compile zero hashKeyLc .clear args

end Directive

end NginB.HeadersMore
