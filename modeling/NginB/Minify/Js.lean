import NginB.Minify.Primitive

/-! # The JavaScript minifier

`ngx_http_minify_filter_module_js.c`. A `[` counts as an opening quote that the
first `]` closes.
-/
namespace NginB.Minify
open NginB.Program Ascii

variable {B : Type} [Buffer B]

section
variable (fuel : ℕ)

def jsStripCommentSwitch : MinifyM B Bool := do
  match ← ctxState with
  | .jsComment =>
    if (← rposAt 0) = star then
      if 2 ≤ (← count) then
        if ← rposIs (lit "*/") then
          ngxMinifyIncRpos
          ngxMinifyIncRpos
          ctxPopState
          return false
        else
          ngxMinifyIncRpos
          return false
      else
        let _ ← ngxMinifyCache (lit "*")
        ngxMinifyIncRpos
        return false
    else
      ngxMinifyIncRpos
      return false
  | .jsCommentLine =>
    if (← rposAt 0) = lf then
      ngxMinifyCopyChar space
      ctxPopState
      modifyCtx fun x => { x with preChar := lf, preChar2 := nul }
      return false
    else
      ngxMinifyIncRpos
      return false
  | _ => return true

def jsStripCommentTurn : MinifyM B Bool := do
  visit .jsStripComment
  jsStripCommentSwitch

def ngxMinifyJsStripComment : MinifyM B Unit :=
  loop .outOfFuel countNonzero jsStripCommentTurn fuel

def jsStripQuoteSwitch : MinifyM B Bool := do
  match ← ctxState with
  | .jsQuote =>
    let c ← rposAt 0
    if c = backslash then
      if 1 < (← count) then
        ngxMinifyCopyRpos
        ngxMinifyCopyRpos
        return false
      else if 1 = (← count) then
        let _ ← ngxMinifyCache (lit "\\")
        ngxMinifyIncRpos
        return false
      else return false
    else if (← getCtx).quoteChar = c then
      ngxMinifyCopyRpos
      ctxPopState
      return false
    else
      ngxMinifyCopyRpos
      return false
  | _ => return true

def jsStripQuoteTurn : MinifyM B Bool := do
  visit .jsStripQuote
  jsStripQuoteSwitch

def ngxMinifyJsStripQuote : MinifyM B Unit :=
  loop .outOfFuel countNonzero jsStripQuoteTurn fuel

/-- The bytes after which a line break separates nothing. -/
def jsBreakRedundant (p : UInt8) : Bool :=
  p = nul || p = lf || p = semicolon || p = colon || p = lbrace || p = rbrace

def jsStateText : MinifyM B Unit := do
  modifyCtx fun x => { x with nochangePre := false }
  let c ← rposAt 0
  let p := (← getCtx).preChar
  if (c = space ∧ p = lf) ∨ (c = tab ∧ p = lf) ∨ ((← dstlen) = 0 ∧ (c = space ∨ c = tab)) then
    modifyCtx fun x => { x with nochangePre := true }
    ngxMinifyIncRpos
  else if (c = space ∨ c = tab) ∧ (p = space ∨ p = tab) then
    modifyCtx fun x => { x with nochangePre := true }
    ngxMinifyIncRpos
  else if c = slash then
    if 2 ≤ (← count) then
      if ← rposIs (lit "/*") then
        ngxMinifyIncRpos
        ngxMinifyIncRpos
        ctxPushState .jsComment
      else if ← rposIs (lit "//") then
        ngxMinifyIncRpos
        ngxMinifyIncRpos
        ctxPushState .jsCommentLine
      else
        ngxMinifyCopyRpos
        ngxMinifyCopyRpos
    else
      let _ ← ngxMinifyCache (lit "/")
      ngxMinifyIncRpos
  else if c = dquote ∨ c = squote ∨ c = lbracket then
    modifyCtx fun x => { x with nochangePre := true }
    modifyCtx fun x => { x with quoteChar := if c = lbracket then rbracket else c }
    ngxMinifyCopyRpos
    ctxPushState .jsQuote
  else if c = lf then
    if ¬ jsBreakRedundant p then ngxMinifyCopyRpos
    else
      ngxMinifyIncRpos
      modifyCtx fun x => { x with preChar := lf, preChar2 := nul, nochangePre := true }
  else if c = cr then
    ngxMinifyIncRpos
    modifyCtx fun x => { x with nochangePre := true }
  else ngxMinifyCopyRpos

def jsStripBufferSwitch : MinifyM B Unit := do
  match ← ctxState with
  | .abort => ngxMinifyCopyRpos
  | .text => jsStateText
  | .jsComment | .jsCommentLine =>
    modifyCtx fun x => { x with nochangePre := true }
    ngxMinifyJsStripComment fuel
  | .jsQuote =>
    modifyCtx fun x => { x with nochangePre := true }
    ngxMinifyJsStripQuote fuel
  | _ => ctxPushState .abort

def jsStripBufferTurn : MinifyM B Bool := do
  visit .jsStripBuffer
  jsStripBufferSwitch fuel
  refreshPre
  return false

/-- `ngx_minify_js_strip_buffer`, once `rpos`, `wpos` and `count` are set. -/
def ngxMinifyJsStripBuffer : MinifyM B Unit := do
  if (← count) < 0 then ctxSetState .abort
  else loop .outOfFuel countPositive (jsStripBufferTurn fuel) fuel

end

end NginB.Minify
