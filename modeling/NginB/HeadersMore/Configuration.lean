import NginB.CacheInfo.CacheFile
import NginB.HeadersMore.HeadersOut

/-! # The directives of the module

An argument of a directive is a header, or an option that may take the argument behind it. What is
read becomes a command of the location; a location has the commands of the one around it in front of
its own.
-/
namespace NginB.HeadersMore
open NginB.Minify (lit)
open NginB.CacheInfo (isSpace)
open NginB.Lua (isDigit)

inductive ConfError
  | noKey (rawHeader : List UInt8)
  | wildcardTooShort (rawHeader : List UInt8)
  | invalidDigit (digit : UInt8) (value : List UInt8)
  | takesArgument (option : List UInt8)
  | invalidOption (arg : List UInt8)
  /-- the value cannot be compiled -/
  | invalidValue (value : List UInt8)
  deriving DecidableEq

def ConfError.text : ConfError → List UInt8
  | noKey rawHeader => lit ": no key found in the header argument: " ++ rawHeader
  | wildcardTooShort rawHeader => lit ": wildcard key to short: " ++ rawHeader
  | invalidDigit digit value => lit ": invalid digit " ++ [34, digit, 34] ++
      lit " found in the status code list " ++ 34 :: value ++ [34]
  | takesArgument option => lit ": option " ++ option ++ lit " takes an argument."
  | invalidOption arg => lit ": invalid option name: " ++ 34 :: arg ++ [34]
  | invalidValue _ => []

/-- `ngx_http_headers_more_opcode_t`. -/
inductive Opcode
  | set | clear
  deriving DecidableEq

/-- What is stored of a header argument, all but its handler. -/
structure HeaderArg (υ : Type) where
  value : υ
  hash : ℕ
  key : List UInt8
  wildcard : Bool

/-- The locals of `ngx_http_headers_more_parse_header`; the key starts with the argument. -/
structure RawHeader where
  keyLen : ℕ
  seenEndOfKey : Bool
  valueAt : ℕ
  valueLen : ℕ

/-- The loop of `ngx_http_headers_more_parse_header` from the byte `i` on. -/
def rawHeaderLoop (i : ℕ) (s : RawHeader) : List UInt8 → RawHeader
  | [] => s
  | c :: cs =>
    if s.keyLen = 0 then
      if isSpace c then rawHeaderLoop (i + 1) s cs
      else rawHeaderLoop (i + 1) { s with keyLen := 1 } cs
    else if s.seenEndOfKey = false then
      if c = 58 || isSpace c then rawHeaderLoop (i + 1) { s with seenEndOfKey := true } cs
      else rawHeaderLoop (i + 1) { s with keyLen := s.keyLen + 1 } cs
    else if s.valueLen = 0 then
      if c = 58 || isSpace c then rawHeaderLoop (i + 1) s cs
      else rawHeaderLoop (i + 1) { s with valueAt := i, valueLen := 1 } cs
    else rawHeaderLoop (i + 1) { s with valueLen := s.valueLen + 1 } cs

section Arguments
variable {υ : Type} (compile : List UInt8 → Option υ) (zero : υ) (hashKeyLc : List UInt8 → ℕ)

/-- `ngx_http_headers_more_parse_header`, with `ngx_http_compile_complex_value`, a value of zero bytes
and `ngx_hash_key_lc`. -/
def ngxHttpHeadersMoreParseHeader (rawHeader : List UInt8) (opcode : Opcode) :
    Except ConfError (HeaderArg υ) :=
  let s := rawHeaderLoop 0 ⟨0, false, 0, 0⟩ rawHeader
  if s.keyLen = 0 then .error (.noKey rawHeader)
  else
    let key := rawHeader.take s.keyLen
    let wildcard : Bool := key.getLast? = some 42
    if wildcard && key.length < 2 then .error (.wildcardTooShort rawHeader)
    else
      let value := if opcode = .clear then [] else (rawHeader.drop s.valueAt).take s.valueLen
      if value = [] then .ok ⟨zero, hashKeyLc key, key, wildcard⟩
      else
        -- the NUL is compiled too
        match compile (value ++ [0]) with
        | none => .error (.invalidValue value)
        | some v => .ok ⟨v, hashKeyLc key, key, wildcard⟩

end Arguments

/-- A loop over the words of a text that builds an element of an array from each of them. `last` is the
element that is being built, at the end of the array. -/
def wordLoop {β : Type} (step : Option β → UInt8 → Except ConfError β) (elts : List β) (last : Option β) :
    List UInt8 → Except ConfError (List β)
  | [] => .ok (elts ++ last.toList)
  | c :: cs =>
    if isSpace c then wordLoop step (elts ++ last.toList) none cs
    else
      match step last c with
      | .error e => .error e
      | .ok b => wordLoop step elts (some b) cs

/-- `ngx_http_headers_more_parse_statuses`. A status is an `ngx_uint_t`. -/
def ngxHttpHeadersMoreParseStatuses (value : List UInt8) (statuses : List ℕ) :
    Except ConfError (List ℕ) :=
  wordLoop (fun s c => if isDigit c then .ok ((s.getD 0 * 10 + (c.toNat - 48)) % 2 ^ 64)
    else .error (.invalidDigit c value)) statuses none value

def ngxHttpHeadersMoreParseTypes (value : List UInt8) (types : List (List UInt8)) :
    Except ConfError (List (List UInt8)) :=
  wordLoop (fun t c => .ok (t.getD [] ++ [c])) types none value

inductive Opt
  | types | statuses | replace
  deriving DecidableEq

structure Args (υ : Type) where
  headers : List (HeaderArg υ)
  types : List (List UInt8)
  statuses : List ℕ
  replace : Bool

section Directives
variable {υ : Type}

/-- The loop of the two `ngx_http_headers_more_parse_directive` over the arguments behind the name, with
the options that they know. -/
def argLoop (options : UInt8 → Option Opt) (parseHeader : List UInt8 → Except ConfError (HeaderArg υ))
    (ignoreNextArg : Bool) (a : Args υ) : List (List UInt8) → Except ConfError (Args υ)
  | [] => .ok a
  | arg :: args =>
    if ignoreNextArg then argLoop options parseHeader false a args
    else if arg = [] then argLoop options parseHeader false a args
    else if arg.head? ≠ some 45 then
      match parseHeader arg with
      | .error e => .error e
      | .ok h => argLoop options parseHeader false { a with headers := a.headers ++ [h] } args
    else
      match if arg.length = 2 then options (arg.getD 1 0) else none with
      | none => .error (.invalidOption arg)
      | some .replace => argLoop options parseHeader false { a with replace := true } args
      | some .types =>
        match args.head? with
        | none => .error (.takesArgument arg)
        | some value =>
          match ngxHttpHeadersMoreParseTypes value a.types with
          | .error e => .error e
          | .ok types => argLoop options parseHeader true { a with types := types } args
      | some .statuses =>
        match args.head? with
        | none => .error (.takesArgument arg)
        | some value =>
          match ngxHttpHeadersMoreParseStatuses value a.statuses with
          | .error e => .error e
          | .ok statuses => argLoop options parseHeader true { a with statuses := statuses } args

/-- `-t` and `-s`. -/
def outputOptions (c : UInt8) : Option Opt :=
  if c = 116 then some .types else if c = 115 then some .statuses else none

/-- `-t` and `-r`. -/
def inputOptions (c : UInt8) : Option Opt :=
  if c = 116 then some .types else if c = 114 then some .replace else none

def HeaderArg.outputVal (h : HeaderArg υ) : HeaderVal υ :=
  ⟨h.value, h.hash, h.key, (findHandler h.key).1, (findHandler h.key).2, h.wildcard⟩

def orNull {α : Type} (l : List α) : Option (List α) := if l.length = 0 then none else some l

variable (compile : List UInt8 → Option υ) (zero : υ) (hashKeyLc : List UInt8 → ℕ)

/-- `ngx_http_headers_more_parse_directive` of the responses: the command that is pushed. -/
def ngxHttpHeadersMoreParseDirective (opcode : Opcode) (args : List (List UInt8)) :
    Except ConfError (Cmd υ) :=
  match argLoop outputOptions (fun raw => ngxHttpHeadersMoreParseHeader compile zero hashKeyLc raw opcode)
      false ⟨[], [], [], false⟩ args with
  | .error e => .error e
  | .ok a => .ok ⟨orNull a.types, orNull a.statuses, orNull (a.headers.map HeaderArg.outputVal), false⟩

def ngxHttpHeadersMoreSetHeaders (args : List (List UInt8)) : Except ConfError (Cmd υ) :=
  ngxHttpHeadersMoreParseDirective compile zero hashKeyLc .set args

def ngxHttpHeadersMoreClearHeaders (args : List (List UInt8)) : Except ConfError (Cmd υ) :=
  ngxHttpHeadersMoreParseDirective compile zero hashKeyLc .clear args

end Directives

section Merge
variable {α : Type} (garbage : α)

/-- `cmd[conf->cmds->nelts - 1 - i] = cmd[orig_len - 1 - i]` for the first `k` values of `i`. -/
def shiftCmds (nelts origLen k : ℕ) (cmd : List α) : List α :=
  (List.range k).foldl (fun cmd i => cmd.set (nelts - 1 - i) (cmd.getD (origLen - 1 - i) garbage)) cmd

/-- `cmd[i] = prev_cmd[i]` for the first `k` values of `i`. -/
def copyCmds (prevCmd : List α) (k : ℕ) (cmd : List α) : List α :=
  (List.range k).foldl (fun cmd i => cmd.set i (prevCmd.getD i garbage)) cmd

/-- `ngx_http_headers_more_merge_loc_conf`: the commands of `conf` behind it. What is pushed has no value
yet. -/
def ngxHttpHeadersMoreMergeLocConf (prev conf : Option (List α)) : Option (List α) :=
  if (conf.getD []).length = 0 then prev
  else if (prev.getD []).length = 0 then conf
  else
    let prevCmd := prev.getD []
    let cmd := conf.getD [] ++ List.replicate prevCmd.length garbage
    some (copyCmds garbage prevCmd prevCmd.length
      (shiftCmds garbage cmd.length (conf.getD []).length (conf.getD []).length cmd))

end Merge

end NginB.HeadersMore
