import NginB.Minify.Machine

/-! # The rules of the HTML minifier

One constructor for each way an iteration of the four loops can go in a reachable
state; the name tells the state and what the unread bytes look like.
-/
namespace NginB.Minify
open Ascii

def htmlStack : MinifyState → StateStack
  | .htmlTag => ⟨.htmlTag, [.text]⟩
  | .htmlTagBang => ⟨.htmlTagBang, [.text]⟩
  | .htmlCdata => ⟨.htmlCdata, [.text]⟩
  | .htmlTagname => ⟨.htmlTagname, [.htmlTag, .text]⟩
  | .htmlTagatt => ⟨.htmlTagatt, [.htmlTag, .text]⟩
  | .htmlTagnameEnd => ⟨.htmlTagnameEnd, [.htmlTag, .text]⟩
  | .htmlComment => ⟨.htmlComment, [.htmlTagBang, .text]⟩
  | .htmlCommentIe => ⟨.htmlCommentIe, [.htmlTagBang, .text]⟩
  | .htmlCommentSkip => ⟨.htmlCommentSkip, [.htmlTagBang, .text]⟩
  | st => ⟨st, []⟩

@[simp] theorem htmlStack_top (st : MinifyState) : (htmlStack st).top = st := by
  cases st <;> rfl

@[simp] theorem htmlStack_eval :
    htmlStack .text = ⟨.text, []⟩ ∧ htmlStack .abort = ⟨.abort, []⟩ ∧
    htmlStack .htmlSkip = ⟨.htmlSkip, []⟩ ∧
    htmlStack .htmlTag = ⟨.htmlTag, [.text]⟩ ∧
    htmlStack .htmlTagBang = ⟨.htmlTagBang, [.text]⟩ ∧
    htmlStack .htmlCdata = ⟨.htmlCdata, [.text]⟩ ∧
    htmlStack .htmlTagname = ⟨.htmlTagname, [.htmlTag, .text]⟩ ∧
    htmlStack .htmlTagatt = ⟨.htmlTagatt, [.htmlTag, .text]⟩ ∧
    htmlStack .htmlTagnameEnd = ⟨.htmlTagnameEnd, [.htmlTag, .text]⟩ ∧
    htmlStack .htmlComment = ⟨.htmlComment, [.htmlTagBang, .text]⟩ ∧
    htmlStack .htmlCommentIe = ⟨.htmlCommentIe, [.htmlTagBang, .text]⟩ ∧
    htmlStack .htmlCommentSkip = ⟨.htmlCommentSkip, [.htmlTagBang, .text]⟩ :=
  ⟨rfl, rfl, rfl, rfl, rfl, rfl, rfl, rfl, rfl, rfl, rfl, rfl⟩

namespace Ctx

@[simp] def html (st : MinifyState) (x : Ctx) : Ctx := { x with state := htmlStack st }

def nameGt (x : Ctx) : Ctx :=
  if 0 ≤ x.tagcache.close.skipIndex then
    html .htmlSkip { x with tagcache := x.tagcache.close }
  else html .text { x with tagcache := x.tagcache.close.clear }

def nameBlank (x : Ctx) : Ctx :=
  if x.tagcache.close.skipIndex < 0 then
    html .htmlTagatt { x with tagcache := x.tagcache.close.clear }
  else html .htmlTagatt { x with tagcache := x.tagcache.close }

def attGt (x : Ctx) : Ctx := html (if x.tagcache.len ≠ 0 then .htmlSkip else .text) x

def endGt (x : Ctx) : Ctx :=
  if x.tagendcache.len ≠ 0 then
    if x.tagcache.memcmpEq x.tagendcache.close x.tagcache.len then
      html .text
        { x with tagcache := x.tagcache.clear, tagendcache := x.tagendcache.close.clear }
    else html .htmlSkip { x with tagendcache := x.tagendcache.close.clear }
  else html .text x

end Ctx

inductive HtmlRule (x : Ctx) : Routine → List UInt8 → List Ev → Ctx → Next → Prop
  -- ngx_minify_html_strip_tagname
  | nameGt {t} (hs : x.state.top = .htmlTagname) :
      HtmlRule x .htmlStripTagname (gt :: t)
        [.copy, .tag x.tagcache.len, .stack x.nameGt.state] x.nameGt .again
  | nameBlank {b t} (hs : x.state.top = .htmlTagname) (hb : b = space ∨ b = slash) :
      HtmlRule x .htmlStripTagname (b :: t)
        [.copy, .tag x.tagcache.len, .stack (htmlStack .htmlTag), .stack (htmlStack .htmlTagatt)]
        x.nameBlank .again
  | nameByte {b t} (hs : x.state.top = .htmlTagname) (hb : b ≠ gt ∧ b ≠ space ∧ b ≠ slash) :
      HtmlRule x .htmlStripTagname (b :: t) [.tag x.tagcache.len, .copy]
        { x with tagcache := x.tagcache.add b } .again
  | attSpace {t} (hs : x.state.top = .htmlTagatt) (hp : x.preChar = space) :
      HtmlRule x .htmlStripTagname (space :: t) [.skip] x .again
  | attGt {t} (hs : x.state.top = .htmlTagatt) :
      HtmlRule x .htmlStripTagname (gt :: t) [.copy, .stack x.attGt.state] x.attGt .again
  | attClose {t} (hs : x.state.top = .htmlTagatt) :
      HtmlRule x .htmlStripTagname (slash :: gt :: t) [.copy]
        { x with tagcache := x.tagcache.clear } .again
  | attSlash {b t} (hs : x.state.top = .htmlTagatt) (hb : b ≠ gt) :
      HtmlRule x .htmlStripTagname (slash :: b :: t) [.copy, .copy] x .again
  | attHold (hs : x.state.top = .htmlTagatt) :
      HtmlRule x .htmlStripTagname [slash] (Ev.holds (lit "/") [slash]) (x.hold [slash]) .again
  | attByte {b t} (hs : x.state.top = .htmlTagatt) (hb : b ≠ gt ∧ b ≠ slash)
      (hp : ¬(b = space ∧ x.preChar = space)) :
      HtmlRule x .htmlStripTagname (b :: t) [.copy] x .again
  | endSpace {t} (hs : x.state.top = .htmlTagnameEnd) :
      HtmlRule x .htmlStripTagname (space :: t) [.skip] x .again
  | endGt {t} (hs : x.state.top = .htmlTagnameEnd) :
      HtmlRule x .htmlStripTagname (gt :: t)
        (if x.tagendcache.len ≠ 0 then [.copy, .tag x.tagendcache.len, .stack x.endGt.state]
          else [.copy, .stack x.endGt.state]) x.endGt .again
  | endName {b t} (hs : x.state.top = .htmlTagnameEnd) (hb : b ≠ space ∧ b ≠ gt)
      (hl : x.tagcache.len ≠ 0) :
      HtmlRule x .htmlStripTagname (b :: t) [.tag x.tagendcache.len, .copy]
        { x with tagendcache := x.tagendcache.add b } .again
  | endByte {b t} (hs : x.state.top = .htmlTagnameEnd) (hb : b ≠ space ∧ b ≠ gt)
      (hl : x.tagcache.len = 0) :
      HtmlRule x .htmlStripTagname (b :: t) [.copy] x .again
  | nameSkip {rest} (hs : x.state.top = .htmlSkip) :
      HtmlRule x .htmlStripTagname rest [] (x.freeze true) .leave
  | nameLeave {rest} (hs : x.state.top = .text) :
      HtmlRule x .htmlStripTagname rest [] x .leave
  -- ngx_minify_html_strip_comment
  | commentHold (hs : x.state.top = .htmlComment) :
      HtmlRule x .htmlStripComment (lit "<!--") (Ev.holds (lit "<!--") (lit "<!--"))
        (x.hold (lit "<!--")) .again
  | commentIf {t} (hs : x.state.top = .htmlComment) :
      HtmlRule x .htmlStripComment (lit "<!--[if" ++ t)
        [.stack (htmlStack .htmlTagBang), .stack (htmlStack .htmlCommentIe)]
        (x.html .htmlCommentIe) .again
  | commentPlain {b t} (hs : x.state.top = .htmlComment) (hb : b ≠ lbracket) :
      HtmlRule x .htmlStripComment (lit "<!--" ++ b :: t)
        [.skip, .skip, .skip, .skip, .stack (htmlStack .htmlTagBang), .stack (htmlStack .htmlCommentSkip)]
        (x.html .htmlCommentSkip) .again
  | commentOther {a b t} (hs : x.state.top = .htmlComment) (hn : [a, b] ≠ [105, 102]) :
      HtmlRule x .htmlStripComment (lit "<!--[" ++ a :: b :: t)
        [.skip, .skip, .skip, .skip, .stack (htmlStack .htmlTagBang), .stack (htmlStack .htmlCommentSkip)]
        (x.html .htmlCommentSkip) .again
  | commentHoldIf {t} (hs : x.state.top = .htmlComment) (ht : t.length < 2)
      (hc : cacheable (lit "<!--[if") (lit "<!--[" ++ t) = true) :
      HtmlRule x .htmlStripComment (lit "<!--[" ++ t) (Ev.holds (lit "<!--[if") (lit "<!--[" ++ t))
        (x.hold (lit "<!--[" ++ t)) .again
  | commentMiss {t} (hs : x.state.top = .htmlComment) (ht : t.length < 2)
      (hc : cacheable (lit "<!--[if") (lit "<!--[" ++ t) = false) :
      HtmlRule x .htmlStripComment (lit "<!--[" ++ t)
        [.call (lit "<!--[if"), .skip, .skip, .skip, .skip, .stack (htmlStack .htmlTagBang),
          .stack (htmlStack .htmlCommentSkip)] (x.html .htmlCommentSkip) .again
  | ieClose {t} (hs : x.state.top = .htmlCommentIe) :
      HtmlRule x .htmlStripComment (lit "]-->" ++ t)
        [.copy, .copy, .copy, .copy, .stack (htmlStack .text)] (x.html .text) .again
  | ieFour {a b c t} (hs : x.state.top = .htmlCommentIe) (hn : [a, b, c] ≠ lit "-->") :
      HtmlRule x .htmlStripComment (rbracket :: a :: b :: c :: t) [.copy, .copy, .copy, .copy] x
        .again
  | ieHold {t} (hs : x.state.top = .htmlCommentIe) (ht : t.length < 3)
      (hc : cacheable (lit "]-->") (rbracket :: t) = true) :
      HtmlRule x .htmlStripComment (rbracket :: t) (Ev.holds (lit "]-->") (rbracket :: t))
        (x.hold (rbracket :: t)) .again
  | ieMiss {t} (hs : x.state.top = .htmlCommentIe) (ht : t.length < 3)
      (hc : cacheable (lit "]-->") (rbracket :: t) = false) :
      HtmlRule x .htmlStripComment (rbracket :: t) [.call (lit "]-->"), .skip] x .again
  | ieByte {b t} (hs : x.state.top = .htmlCommentIe) (hb : b ≠ rbracket) :
      HtmlRule x .htmlStripComment (b :: t) [.copy] x .again
  | skipClose {t} (hs : x.state.top = .htmlCommentSkip) :
      HtmlRule x .htmlStripComment (lit "-->" ++ t)
        [.skip, .skip, .skip, .stack (htmlStack .text)] (x.html .text) .again
  | skipThree {a b t} (hs : x.state.top = .htmlCommentSkip) (hn : [a, b] ≠ [dash, gt]) :
      HtmlRule x .htmlStripComment (dash :: a :: b :: t) [.skip, .skip, .skip] x .again
  | skipHold {t} (hs : x.state.top = .htmlCommentSkip) (ht : t.length < 2)
      (hc : cacheable (lit "-->") (dash :: t) = true) :
      HtmlRule x .htmlStripComment (dash :: t) (Ev.holds (lit "-->") (dash :: t))
        (x.hold (dash :: t)) .again
  | skipMiss {t} (hs : x.state.top = .htmlCommentSkip) (ht : t.length < 2)
      (hc : cacheable (lit "-->") (dash :: t) = false) :
      HtmlRule x .htmlStripComment (dash :: t) [.call (lit "-->"), .skip] x .again
  | skipByte {b t} (hs : x.state.top = .htmlCommentSkip) (hb : b ≠ dash) :
      HtmlRule x .htmlStripComment (b :: t) [.skip] x .again
  | commentLeave {rest} (hs : x.state.top = .text) :
      HtmlRule x .htmlStripComment rest [] x .leave
  -- ngx_minify_html_strip_tag
  | tagSpace {t} (hs : x.state.top = .htmlTag) :
      HtmlRule x .htmlStripTag (space :: t) [.skip] x .again
  | tagSlash {t} (hs : x.state.top = .htmlTag) :
      HtmlRule x .htmlStripTag (slash :: t) [.copy, .stack (htmlStack .htmlTagnameEnd)]
        (x.html .htmlTagnameEnd) .again
  | tagName {b t} (hs : x.state.top = .htmlTag) (hb : b ≠ space ∧ b ≠ slash) :
      HtmlRule x .htmlStripTag (b :: t) [.stack (htmlStack .htmlTagname)]
        { x.html .htmlTagname with
          tagcache := x.tagcache.clear, tagendcache := x.tagendcache.clear } .again
  | bangTag {b t} (hs : x.state.top = .htmlTagBang) (hb : b ≠ dash ∧ b ≠ lbracket) :
      HtmlRule x .htmlStripTag (lit "<!" ++ b :: t)
        [.copy, .copy, .stack (htmlStack .text), .stack (htmlStack .htmlTag)] (x.html .htmlTag) .again
  | bangComment {t} (hs : x.state.top = .htmlTagBang) :
      HtmlRule x .htmlStripTag (lit "<!--" ++ t) [.stack (htmlStack .htmlComment)]
        ((x.html .htmlComment).freeze true) .again
  | bangDash {b t} (hs : x.state.top = .htmlTagBang) (hb : b ≠ dash) :
      HtmlRule x .htmlStripTag (lit "<!" ++ dash :: b :: t)
        [.copy, .copy, .copy, .stack (htmlStack .text), .stack (htmlStack .htmlTag)]
        (x.html .htmlTag) .again
  | bangHoldDash (hs : x.state.top = .htmlTagBang) :
      HtmlRule x .htmlStripTag (lit "<!" ++ [dash]) (Ev.holds (lit "<!--") (lit "<!" ++ [dash]))
        (x.hold (lit "<!" ++ [dash])) .again
  | bangCdata {t} (hs : x.state.top = .htmlTagBang) :
      HtmlRule x .htmlStripTag (lit "<![CDATA[" ++ t)
        (List.replicate 9 .copy ++ [.stack (htmlStack .text), .stack (htmlStack .htmlCdata)])
        (x.html .htmlCdata) .again
  | bangNine {t} (hs : x.state.top = .htmlTagBang) (ht : 6 ≤ t.length)
      (hn : (lit "<!" ++ lbracket :: t).take 9 ≠ lit "<![CDATA[") :
      HtmlRule x .htmlStripTag (lit "<!" ++ lbracket :: t)
        (List.replicate 9 .copy ++ [.stack (htmlStack .text)]) (x.html .text) .again
  | bangHoldCdata {t} (hs : x.state.top = .htmlTagBang) (ht : t.length < 6)
      (hc : cacheable (lit "<![CDATA[") (lit "<!" ++ lbracket :: t) = true) :
      HtmlRule x .htmlStripTag (lit "<!" ++ lbracket :: t)
        (Ev.holds (lit "<![CDATA[") (lit "<!" ++ lbracket :: t))
        (x.hold (lit "<!" ++ lbracket :: t)) .again
  | bangAbort {t} (hs : x.state.top = .htmlTagBang) (ht : t.length < 6)
      (hc : cacheable (lit "<![CDATA[") (lit "<!" ++ lbracket :: t) = false) :
      HtmlRule x .htmlStripTag (lit "<!" ++ lbracket :: t)
        [.call (lit "<![CDATA["), .stack (htmlStack .abort)] (x.html .abort) .again
  | cdataClose {t} (hs : x.state.top = .htmlCdata) :
      HtmlRule x .htmlStripTag (lit "]]>" ++ t)
        [.copy, .copy, .copy, .stack (htmlStack .text)] (x.html .text) .again
  | cdataThree {a b t} (hs : x.state.top = .htmlCdata) (hn : [a, b] ≠ [rbracket, gt]) :
      HtmlRule x .htmlStripTag (rbracket :: a :: b :: t) [.copy, .copy, .copy] x .again
  | cdataHold {t} (hs : x.state.top = .htmlCdata) (ht : t.length < 2)
      (hc : cacheable (lit "]]>") (rbracket :: t) = true) :
      HtmlRule x .htmlStripTag (rbracket :: t) (Ev.holds (lit "]]>") (rbracket :: t))
        (x.hold (rbracket :: t)) .again
  | cdataMiss {t} (hs : x.state.top = .htmlCdata) (ht : t.length < 2)
      (hc : cacheable (lit "]]>") (rbracket :: t) = false) :
      HtmlRule x .htmlStripTag (rbracket :: t) [.call (lit "]]>"), .copy] x .again
  | cdataByte {b t} (hs : x.state.top = .htmlCdata) (hb : b ≠ rbracket) :
      HtmlRule x .htmlStripTag (b :: t) [.copy] x .again
  | callTagname {rest}
      (hs : x.state.top ∈ [MinifyState.htmlTagname, .htmlTagnameEnd, .htmlTagatt]) :
      HtmlRule x .htmlStripTag rest [] { x with preChar := nul, preChar2 := nul }
        (.call .htmlStripTagname)
  | callComment {rest}
      (hs : x.state.top ∈ [MinifyState.htmlComment, .htmlCommentIe, .htmlCommentSkip]) :
      HtmlRule x .htmlStripTag rest [] x (.call .htmlStripComment)
  | tagSkip {rest} (hs : x.state.top = .htmlSkip) :
      HtmlRule x .htmlStripTag rest [] (x.freeze true) .leave
  | tagLeave {rest} (hs : x.state.top ∈ [MinifyState.text, .abort]) :
      HtmlRule x .htmlStripTag rest [] x .leave
  -- ngx_minify_html_strip_buffer
  | abortByte {b t} (hs : x.state.top = .abort) :
      HtmlRule x .htmlStripBuffer (b :: t) [.copy] x .again
  | textBreak {b t} (hs : x.state.top = .text) (hb : b = lf ∨ b = cr ∨ b = tab) :
      HtmlRule x .htmlStripBuffer (b :: t) [.skip] (x.freeze false) .again
  | textTag {b t} (hs : x.state.top = .text) (hb : b ≠ bang) :
      HtmlRule x .htmlStripBuffer (lt :: b :: t) [.copy, .stack (htmlStack .htmlTag)]
        ((x.html .htmlTag).freeze false) .again
  | textBang {b t} (hs : x.state.top = .text) :
      HtmlRule x .htmlStripBuffer (lit "<!" ++ b :: t) [.stack (htmlStack .htmlTagBang)]
        ((x.html .htmlTagBang).freeze false) .again
  | textHoldBang (hs : x.state.top = .text) :
      HtmlRule x .htmlStripBuffer (lit "<!") (Ev.holds (lit "<!") (lit "<!"))
        ((x.hold (lit "<!")).freeze false) .again
  | textHold (hs : x.state.top = .text) :
      HtmlRule x .htmlStripBuffer [lt] (Ev.holds (lit "<") [lt]) ((x.hold [lt]).freeze false) .again
  | textSpace {t} (hs : x.state.top = .text) (hp : x.preChar = space) :
      HtmlRule x .htmlStripBuffer (space :: t) [.skip] (x.freeze false) .again
  | textByte {b t} (hs : x.state.top = .text) (hb : b ≠ lf ∧ b ≠ cr ∧ b ≠ tab ∧ b ≠ lt)
      (hp : ¬(b = space ∧ x.preChar = space)) :
      HtmlRule x .htmlStripBuffer (b :: t) [.copy] (x.freeze false) .again
  | elementEnd {t} (hs : x.state.top = .htmlSkip) :
      HtmlRule x .htmlStripBuffer (lt :: slash :: t) [.stack (htmlStack .text)]
        (x.html .text) .again
  | elementPair {b t} (hs : x.state.top = .htmlSkip) (hb : b ≠ slash) :
      HtmlRule x .htmlStripBuffer (lt :: b :: t) [.copy, .copy] x .again
  | elementHold (hs : x.state.top = .htmlSkip) :
      HtmlRule x .htmlStripBuffer [lt] (Ev.holds (lit "<") [lt]) (x.hold [lt]) .again
  | elementByte {b t} (hs : x.state.top = .htmlSkip) (hb : b ≠ lt) :
      HtmlRule x .htmlStripBuffer (b :: t) [.copy] x .again
  | callTag {rest}
      (hs : x.state.top ∈ [MinifyState.htmlTag, .htmlTagBang, .htmlCdata, .htmlTagname,
        .htmlTagatt, .htmlTagnameEnd, .htmlComment, .htmlCommentIe, .htmlCommentSkip]) :
      HtmlRule x .htmlStripBuffer rest [] x (.call .htmlStripTag)

end NginB.Minify
