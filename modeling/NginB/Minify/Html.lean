import NginB.Minify.Primitive

/-! # The HTML minifier

`ngx_http_minify_filter_module_html.c`, one definition for the switch of each
loop, one for an iteration and one for the function. A switch returns the value
that `jump_loop` has after it.
-/
namespace NginB.Minify
open NginB.Program Ascii

variable {B : Type} [Buffer B]

section
variable (cap : Option ℕ) (fuel : ℕ)

def htmlStripTagnameSwitch : MinifyM B Bool := do
  match ← ctxState with
  | .htmlTagname =>
    let c ← rposAt 0
    if c = gt then
      ngxMinifyCopyRpos
      ctxTagcacheClose cap
      if 0 ≤ ngxMinifyGetSkipTagname (← getCtx) then
        ctxSetState .htmlSkip
        return false
      else
        ctxTagcacheClear
        ctxSetState .text
        return false
    else if c = space ∨ c = slash then
      ngxMinifyCopyRpos
      ctxTagcacheClose cap
      if ngxMinifyGetSkipTagname (← getCtx) < 0 then
        ctxTagcacheClear
        ctxPopState
        ctxPushState .htmlTagatt
        return false
      else
        ctxPopState
        ctxPushState .htmlTagatt
        return false
    else
      ctxTagcacheAdd cap c
      ngxMinifyCopyRpos
      return false
  | .htmlTagatt =>
    let c ← rposAt 0
    if c = space ∧ (← getCtx).preChar = space then
      ngxMinifyIncRpos
      return false
    else if c = gt then
      ngxMinifyCopyRpos
      if (← getCtx).tagcache.len ≠ 0 then
        ctxSetState .htmlSkip
        return false
      else
        ctxSetState .text
        return false
    else if c = slash then
      if 2 ≤ (← count) then
        if (← rposAt 1) = gt then
          ngxMinifyCopyRpos
          ctxTagcacheClear
          return false
        else
          ngxMinifyCopyRpos
          ngxMinifyCopyRpos
          return false
      else
        let _ ← ngxMinifyCache (lit "/")
        ngxMinifyIncRpos
        return false
    else
      ngxMinifyCopyRpos
      return false
  | .htmlTagnameEnd =>
    let c ← rposAt 0
    if c = space then
      ngxMinifyIncRpos
      return false
    else if c = gt then
      ngxMinifyCopyRpos
      if (← getCtx).tagendcache.len ≠ 0 then
        ctxTagendcacheClose cap
        let x ← getCtx
        if x.tagcache.memcmpEq x.tagendcache x.tagcache.len then
          ctxSetState .text
          ctxTagcacheClear
          ctxTagendcacheClear
          return false
        else
          ctxSetState .htmlSkip
          ctxTagendcacheClear
          return false
      else
        ctxSetState .text
        return false
    else if (← getCtx).tagcache.len ≠ 0 then
      ctxTagendcacheAdd cap c
      ngxMinifyCopyRpos
      return false
    else
      ngxMinifyCopyRpos
      return false
  | .htmlSkip =>
    modifyCtx fun x => { x with nochangePre := true }
    return true
  | _ => return true

def htmlStripTagnameTurn : MinifyM B Bool := do
  visit .htmlStripTagname
  if ← htmlStripTagnameSwitch cap then return true
  else
    refreshPre
    return false

def ngxMinifyHtmlStripTagname : MinifyM B Unit := do
  modifyCtx fun x => { x with preChar := nul, preChar2 := nul }
  loop .outOfFuel countNonzero (htmlStripTagnameTurn cap) fuel

def htmlStripCommentSwitch : MinifyM B Bool := do
  match ← ctxState with
  | .htmlComment =>
    if (← count) = (lit "<!--").length then
      let cached ← ngxMinifyCache (lit "<!--")
      incRposTimes cached.toNat
      return false
    else if (← rposAt 4) = lbracket then
      if (lit "<!--[if").length ≤ (← count) then
        if ← rposIs (lit "<!--[if") then
          ctxPopState
          ctxPushState .htmlCommentIe
          return false
        else
          incRposTimes (lit "<!--").length
          ctxPopState
          ctxPushState .htmlCommentSkip
          return false
      else
        let cached ← ngxMinifyCache (lit "<!--[if")
        if cached = -1 then
          incRposTimes (lit "<!--").length
          ctxPopState
          ctxPushState .htmlCommentSkip
          return false
        else
          incRposTimes cached.toNat
          return false
    else
      incRposTimes (lit "<!--").length
      ctxPopState
      ctxPushState .htmlCommentSkip
      return false
  | .htmlCommentIe =>
    if (← rposAt 0) = rbracket then
      if (lit "]-->").length ≤ (← count) then
        if ← rposIs (lit "]-->") then
          copyRposTimes (lit "]-->").length
          ctxSetState .text
          return false
        else
          copyRposTimes (lit "]-->").length
          return false
      else
        let cached ← ngxMinifyCache (lit "]-->")
        if cached = -1 then
          ngxMinifyIncRpos
          return false
        else
          incRposTimes cached.toNat
          return false
    else
      ngxMinifyCopyRpos
      return false
  | .htmlCommentSkip =>
    if (← rposAt 0) = dash then
      if (lit "-->").length ≤ (← count) then
        if ← rposIs (lit "-->") then
          incRposTimes (lit "-->").length
          ctxSetState .text
          return false
        else
          incRposTimes (lit "-->").length
          return false
      else
        let cached ← ngxMinifyCache (lit "-->")
        if cached = -1 then
          ngxMinifyIncRpos
          return false
        else
          incRposTimes cached.toNat
          return false
    else
      ngxMinifyIncRpos
      return false
  | _ => return true

def htmlStripCommentTurn : MinifyM B Bool := do
  visit .htmlStripComment
  htmlStripCommentSwitch

def ngxMinifyHtmlStripComment : MinifyM B Unit :=
  loop .outOfFuel countNonzero htmlStripCommentTurn fuel

def htmlStateTagBang : MinifyM B Bool := do
  if (← count) ≤ 2 then
    copyRposBelowCount 0 3
    ctxSetState .text
    return false
  else
    let c ← rposAt 2
    if c ≠ dash ∧ c ≠ lbracket then
      ngxMinifyCopyRpos
      ngxMinifyCopyRpos
      ctxPopState
      ctxPushState .htmlTag
      return false
    else if c = dash then
      if (lit "<!--").length ≤ (← count) then
        if ← rposIs (lit "<!--") then
          ctxPushState .htmlComment
          modifyCtx fun x => { x with nochangePre := true }
          return false
        else
          ngxMinifyCopyRpos
          ngxMinifyCopyRpos
          ngxMinifyCopyRpos
          ctxPopState
          ctxPushState .htmlTag
          return false
      else
        let cached ← ngxMinifyCache (lit "<!--")
        if cached = -1 then
          ctxSetState .abort
          return false
        else
          incRposTimes cached.toNat
          return false
    else if (lit "<![CDATA[").length ≤ (← count) then
      if ← rposIs (lit "<![CDATA[") then
        copyRposTimes (lit "<![CDATA[").length
        ctxPopState
        ctxPushState .htmlCdata
        return false
      else
        copyRposTimes (lit "<![CDATA[").length
        ctxSetState .text
        return false
    else
      let cached ← ngxMinifyCache (lit "<![CDATA[")
      if cached = -1 then
        ctxSetState .abort
        return false
      else
        incRposTimes cached.toNat
        return false

def htmlStripTagSwitch : MinifyM B Bool := do
  match ← ctxState with
  | .htmlTag =>
    let c ← rposAt 0
    if c = space then
      ngxMinifyIncRpos
      return false
    else if c = slash then
      ngxMinifyCopyRpos
      ctxPushState .htmlTagnameEnd
      return false
    else
      ctxPushState .htmlTagname
      ctxTagcacheClear
      ctxTagendcacheClear
      return false
  | .htmlTagBang => htmlStateTagBang
  | .htmlCdata =>
    if (← rposAt 0) = rbracket then
      if (lit "]]>").length ≤ (← count) then
        if ← rposIs (lit "]]>") then
          copyRposTimes (lit "]]>").length
          ctxSetState .text
          return false
        else
          ngxMinifyCopyRpos
          ngxMinifyCopyRpos
          ngxMinifyCopyRpos
          return false
      else
        let cached ← ngxMinifyCache (lit "]]>")
        if cached = -1 then
          ngxMinifyCopyRpos
          return false
        else
          incRposTimes cached.toNat
          return false
    else
      ngxMinifyCopyRpos
      return false
  | .htmlTagname | .htmlTagnameEnd | .htmlTagatt =>
    ngxMinifyHtmlStripTagname cap fuel
    return false
  | .htmlComment | .htmlCommentIe | .htmlCommentSkip =>
    ngxMinifyHtmlStripComment fuel
    return false
  | .htmlSkip =>
    modifyCtx fun x => { x with nochangePre := true }
    return true
  | _ => return true

def htmlStripTagTurn : MinifyM B Bool := do
  visit .htmlStripTag
  htmlStripTagSwitch cap fuel

def ngxMinifyHtmlStripTag : MinifyM B Unit :=
  loop .outOfFuel countNonzero (htmlStripTagTurn cap fuel) fuel

def htmlStateText : MinifyM B Unit := do
  modifyCtx fun x => { x with nochangePre := false }
  let c ← rposAt 0
  if c = lf ∨ c = cr ∨ c = tab then ngxMinifyIncRpos
  else if c = lt then
    if 2 ≤ (← count) then
      if (← rposAt 1) ≠ bang then
        ngxMinifyCopyRpos
        ctxPushState .htmlTag
      else if 2 < (← count) then ctxPushState .htmlTagBang
      else if 2 = (← count) then
        let _ ← ngxMinifyCache (lit "<!")
        ngxMinifyIncRpos
        ngxMinifyIncRpos
      else pure ()
    else
      let _ ← ngxMinifyCache (lit "<")
      ngxMinifyIncRpos
  else if c = space ∧ (← getCtx).preChar = space then ngxMinifyIncRpos
  else if c = space ∧ (← getCtx).preChar ≠ space then ngxMinifyCopyRpos
  else ngxMinifyCopyRpos

def htmlStateSkip : MinifyM B Unit := do
  if (← rposAt 0) = lt then
    if 2 ≤ (← count) then
      if (← rposAt 1) = slash then ctxSetState .text
      else
        ngxMinifyCopyRpos
        ngxMinifyCopyRpos
    else
      let _ ← ngxMinifyCache (lit "<")
      ngxMinifyIncRpos
  else ngxMinifyCopyRpos

def htmlStripBufferSwitch : MinifyM B Unit := do
  match ← ctxState with
  | .abort => ngxMinifyCopyRpos
  | .text => htmlStateText
  | .htmlSkip => htmlStateSkip
  | .htmlTag | .htmlTagBang | .htmlCdata | .htmlTagname | .htmlTagatt | .htmlTagnameEnd
  | .htmlComment | .htmlCommentIe | .htmlCommentSkip => ngxMinifyHtmlStripTag cap fuel
  | _ => ctxSetState .abort

def htmlStripBufferTurn : MinifyM B Bool := do
  visit .htmlStripBuffer
  htmlStripBufferSwitch cap fuel
  refreshPre
  return false

/-- `ngx_minify_html_strip_buffer`, once `rpos`, `wpos` and `count` are set. -/
def ngxMinifyHtmlStripBuffer : MinifyM B Unit := do
  if (← count) < 0 then ctxSetState .abort
  else loop .outOfFuel countPositive (htmlStripBufferTurn cap fuel) fuel

end

end NginB.Minify
