import NginB.Minify.Primitive

/-! # The CSS minifier

`ngx_http_minify_filter_module_css.c`. The quote and comment loops are entered
from the text loop and, inside a rule block, from the brace loop.
-/
namespace NginB.Minify
open NginB.Program Ascii

variable {B : Type} [Buffer B]

section
variable (fuel : ℕ)

def cssStripCommentSwitch : MinifyM B Bool := do
  match ← ctxState with
  | .cssComment =>
    if (← rposAt 0) = star then
      if 2 ≤ (← count) then
        if ← rposIs (lit "*/") then
          ngxMinifyIncRpos
          ngxMinifyIncRpos
          ctxPopState
          return false
        else
          ngxMinifyIncRpos
          return false
      else
        let _ ← ngxMinifyCache (lit "*")
        ngxMinifyIncRpos
        return false
    else
      ngxMinifyIncRpos
      return false
  | _ => return true

def cssStripCommentTurn : MinifyM B Bool := do
  visit .cssStripComment
  cssStripCommentSwitch

def ngxMinifyCssStripComment : MinifyM B Unit :=
  loop .outOfFuel countNonzero cssStripCommentTurn fuel

def cssStripQuoteSwitch : MinifyM B Bool := do
  match ← ctxState with
  | .cssQuote =>
    let c ← rposAt 0
    if c = backslash then
      if 1 < (← count) then
        ngxMinifyCopyRpos
        ngxMinifyCopyRpos
        return false
      else if 1 = (← count) then
        let _ ← ngxMinifyCache (lit "\\")
        ngxMinifyIncRpos
        return false
      else return false
    else if (← getCtx).quoteChar = c then
      ngxMinifyCopyRpos
      ctxPopState
      return false
    else
      ngxMinifyCopyRpos
      return false
  | _ => return true

def cssStripQuoteTurn : MinifyM B Bool := do
  visit .cssStripQuote
  cssStripQuoteSwitch

def ngxMinifyCssStripQuote : MinifyM B Unit :=
  loop .outOfFuel countNonzero cssStripQuoteTurn fuel

def cssStateBrace : MinifyM B Unit := do
  let c ← rposAt 0
  if c = rbrace then
    ngxMinifyCopyRpos
    ctxSetState .text
  else if (c = space ∧ (← getCtx).preChar = space) ∨ c = lf ∨ c = cr ∨ c = tab then
    ngxMinifyIncRpos
  else if c = slash then
    if (lit "/*").length ≤ (← count) then
      if ← rposIs (lit "/*") then
        ngxMinifyIncRpos
        ngxMinifyIncRpos
        ctxPushState .cssComment
      else
        ngxMinifyCopyRpos
        ngxMinifyCopyRpos
    else if 1 = (← count) then
      let _ ← ngxMinifyCache (lit "/")
      ngxMinifyIncRpos
    else pure ()
  else if c = dquote ∨ c = squote then
    modifyCtx fun x => { x with quoteChar := c }
    ngxMinifyCopyRpos
    ctxPushState .cssQuote
  else ngxMinifyCopyRpos

def cssStripBraceSwitch : MinifyM B Bool := do
  match ← ctxState with
  | .cssBrace =>
    cssStateBrace
    return false
  | .cssQuote =>
    ngxMinifyCssStripQuote fuel
    return false
  | .cssComment =>
    modifyCtx fun x => { x with nochangePre := true }
    ngxMinifyCssStripComment fuel
    return false
  | _ => return true

def cssStripBraceTurn : MinifyM B Bool := do
  visit .cssStripBrace
  if ← cssStripBraceSwitch fuel then return true
  else
    refreshPre
    return false

def ngxMinifyCssStripBrace : MinifyM B Unit :=
  loop .outOfFuel countNonzero (cssStripBraceTurn fuel) fuel

def cssStateText : MinifyM B Unit := do
  modifyCtx fun x => { x with nochangePre := false }
  let c ← rposAt 0
  if c = space ∨ c = tab then
    let p := (← getCtx).preChar
    if p = space ∨ p = tab then ngxMinifyIncRpos
    else ngxMinifyCopyRpos
  else if c = slash then
    if 2 ≤ (← count) then
      if ← rposIs (lit "/*") then
        ngxMinifyIncRpos
        ngxMinifyIncRpos
        ctxPushState .cssComment
      else
        ngxMinifyCopyRpos
        ngxMinifyCopyRpos
    else
      let _ ← ngxMinifyCache (lit "/")
      ngxMinifyIncRpos
  else if c = dquote ∨ c = squote then
    modifyCtx fun x => { x with quoteChar := c }
    ngxMinifyCopyRpos
    ctxPushState .cssQuote
  else if c = lbrace then
    ngxMinifyCopyRpos
    ctxPushState .cssBrace
  else if c = lf ∨ c = cr then ngxMinifyIncRpos
  else ngxMinifyCopyRpos

def cssStripBufferSwitch : MinifyM B Unit := do
  match ← ctxState with
  | .abort => ngxMinifyCopyRpos
  | .text => cssStateText
  | .cssComment =>
    modifyCtx fun x => { x with nochangePre := true }
    ngxMinifyCssStripComment fuel
  | .cssQuote =>
    modifyCtx fun x => { x with nochangePre := true }
    ngxMinifyCssStripQuote fuel
  | .cssBrace => ngxMinifyCssStripBrace fuel
  | _ => ctxPushState .abort

def cssStripBufferTurn : MinifyM B Bool := do
  visit .cssStripBuffer
  cssStripBufferSwitch fuel
  refreshPre
  return false

/-- `ngx_minify_css_strip_buffer`, once `rpos`, `wpos` and `count` are set. -/
def ngxMinifyCssStripBuffer : MinifyM B Unit := do
  if (← count) < 0 then ctxSetState .abort
  else loop .outOfFuel countPositive (cssStripBufferTurn fuel) fuel

end

end NginB.Minify
