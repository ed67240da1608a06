import NginB.Minify.Stream

/-! # The HTML minifier without buffers

A reader has the whole page in front of it. It decides each byte by what follows, as far as
that is there, and by the last byte written; where it cannot decide yet it waits for more.
-/
namespace NginB.Minify
open Ascii

structure Reader where
  st : MinifyState
  /-- a space of the text would be the second one -/
  blank : Bool
  tagcache : NameCache
  tagendcache : NameCache
  /-- newest first -/
  out : List UInt8
  deriving DecidableEq

/-- The last byte written, the newest first, is a space. -/
def endsBlank : List UInt8 → Bool
  | [] => false
  | b :: _ => decide (b = space)

@[simp] theorem endsBlank_cons (b : UInt8) (out : List UInt8) :
    endsBlank (b :: out) = decide (b = space) := rfl

/-- The page has to go on before it is known whether `tok` comes here. -/
def waits (tok rest : List UInt8) : Bool := decide (rest.length < tok.length) && cacheable tok rest

section Waits
variable {tok u t : List UInt8} {b c : UInt8}

/-- A token of which as many bytes as it has are there is not waited for. -/
theorem waits_of_le (h : tok.length ≤ u.length) : waits tok u = false := by
  rw [waits, decide_eq_false (Nat.not_lt.mpr h), Bool.false_and]

theorem waits_of_miss (h : cacheable tok u = false) : waits tok u = false := by
  rw [waits, h, Bool.and_false]

theorem waits_of_hold (hlt : u.length < tok.length) (h : cacheable tok u = true) :
    waits tok u = true := by
  rw [waits, h, decide_eq_true hlt]
  rfl

/-- Only its first byte begins a token, if it is no letter. -/
theorem waits_of_ne (hc : c < 65 ∨ 90 < c ∧ c < 97) (hne : b ≠ c) : waits (c :: tok) (b :: t) = false := by
  have hlower : ¬ toLower c = toLower b := fun h => hne (toLower_eq hc h)
  refine waits_of_miss ?_
  simp [cacheable, hlower]

end Waits

def closer : MinifyState → List UInt8
  | .htmlCommentSkip => lit "-->"
  | .htmlCommentIe => lit "]-->"
  | .htmlCdata => lit "]]>"
  | _ => []

/-- The states in which `pre_char` is not updated. -/
@[simp] def inComment (st : MinifyState) : Bool :=
  decide (st ∈ [MinifyState.htmlComment, .htmlCommentIe, .htmlCommentSkip])

namespace Reader
variable (m : Reader)

def start : Reader := ⟨.text, false, ⟨[], []⟩, ⟨[], []⟩, []⟩

@[simp] def goto (st : MinifyState) : Reader := { m with st := st }

@[simp] def write (bytes : List UInt8) (st : MinifyState) : Reader :=
  { m with st := st, out := bytes.reverse ++ m.out }

abbrev Move := Option (Reader × List UInt8)

def text (b : UInt8) (t : List UInt8) : Move :=
  if b = lf ∨ b = cr ∨ b = tab then some (m, t)
  else if b = lt then
    match t with
    | [] => none
    | c :: t' =>
      if c ≠ bang then some (m.write [lt] .htmlTag, t)
      else if t' = [] then none
      else some (m.goto .htmlTagBang, b :: t)
  else if b = space ∧ m.blank = true then some (m, t)
  else some (m.write [b] .text, t)

def element (b : UInt8) (t : List UInt8) : Move :=
  if b = lt then
    match t with
    | [] => none
    | c :: t' => if c = slash then some (m.goto .text, b :: t) else some (m.write [b, c] .htmlSkip, t')
  else some (m.write [b] .htmlSkip, t)

def tag (b : UInt8) (t : List UInt8) : Move :=
  if b = space then some (m, t)
  else if b = slash then some (m.write [b] .htmlTagnameEnd, t)
  else some ({ m with
    st := .htmlTagname, tagcache := m.tagcache.clear, tagendcache := m.tagendcache.clear }, b :: t)

def tagname (b : UInt8) (t : List UInt8) : Move :=
  if b = gt then
    if 0 ≤ m.tagcache.close.skipIndex then
      some ({ m.write [b] .htmlSkip with tagcache := m.tagcache.close }, t)
    else some ({ m.write [b] .text with tagcache := m.tagcache.close.clear }, t)
  else if b = space ∨ b = slash then
    if m.tagcache.close.skipIndex < 0 then
      some ({ m.write [b] .htmlTagatt with tagcache := m.tagcache.close.clear }, t)
    else some ({ m.write [b] .htmlTagatt with tagcache := m.tagcache.close }, t)
  else some ({ m.write [b] .htmlTagname with tagcache := m.tagcache.add b }, t)

def tagatt (b : UInt8) (t : List UInt8) : Move :=
  if b = space ∧ endsBlank m.out = true then some (m, t)
  else if b = gt then some (m.write [b] (if m.tagcache.len ≠ 0 then .htmlSkip else .text), t)
  else if b = slash then
    match t with
    | [] => none
    | c :: t' =>
      if c = gt then some ({ m.write [b] .htmlTagatt with tagcache := m.tagcache.clear }, t)
      else some (m.write [b, c] .htmlTagatt, t')
  else some (m.write [b] .htmlTagatt, t)

def tagnameEnd (b : UInt8) (t : List UInt8) : Move :=
  if b = space then some (m, t)
  else if b = gt then
    if m.tagendcache.len ≠ 0 then
      if m.tagcache.memcmpEq m.tagendcache.close m.tagcache.len then
        some ({ m.write [b] .text with
          tagcache := m.tagcache.clear, tagendcache := m.tagendcache.close.clear }, t)
      else some ({ m.write [b] .htmlSkip with tagendcache := m.tagendcache.close.clear }, t)
    else some (m.write [b] .text, t)
  else if m.tagcache.len ≠ 0 then
    some ({ m.write [b] .htmlTagnameEnd with tagendcache := m.tagendcache.add b }, t)
  else some (m.write [b] .htmlTagnameEnd, t)

/-- Behind `<!`. -/
def tagBang (rest : List UInt8) : Move :=
  match rest with
  | _ :: _ :: c :: t =>
    if c = dash then
      match t with
      | [] => none
      | e :: _ =>
        if e = dash then some (m.goto .htmlComment, rest)
        else some (m.write (rest.take 3) .htmlTag, t)
    else if c = lbracket then
      if lit "<![CDATA[" <+: rest then some (m.write (rest.take 9) .htmlCdata, rest.drop 9)
      else if waits (lit "<![CDATA[") rest then none
      else if 9 ≤ rest.length then some (m.write (rest.take 9) .text, rest.drop 9)
      else some (m.goto .abort, rest)
    else some (m.write (rest.take 2) .htmlTag, c :: t)
  | _ => none

/-- Behind `<!--`. -/
def comment (rest : List UInt8) : Move :=
  if lit "<!--[if" <+: rest then some (m.goto .htmlCommentIe, rest)
  else if waits (lit "<!--[if") rest then none
  else some (m.goto .htmlCommentSkip, rest.drop 4)

def commentSkip (b : UInt8) (t : List UInt8) : Move :=
  if lit "-->" <+: b :: t then some (m.goto .text, (b :: t).drop 3)
  else if waits (lit "-->") (b :: t) then none
  else some (m, t)

def commentIe (b : UInt8) (t : List UInt8) : Move :=
  if lit "]-->" <+: b :: t then some (m.write (lit "]-->") .text, (b :: t).drop 4)
  else if waits (lit "]-->") (b :: t) then none
  else if b = rbracket ∧ t.length < 3 then some (m, t)
  else some (m.write [b] .htmlCommentIe, t)

def cdata (b : UInt8) (t : List UInt8) : Move :=
  if lit "]]>" <+: b :: t then some (m.write (lit "]]>") .text, (b :: t).drop 3)
  else if waits (lit "]]>") (b :: t) then none
  else some (m.write [b] .htmlCdata, t)

def move : List UInt8 → Move
  | [] => none
  | b :: t =>
    match m.st with
    | .abort => some (m.write [b] .abort, t)
    | .text => m.text b t
    | .htmlSkip => m.element b t
    | .htmlTag => m.tag b t
    | .htmlTagname => m.tagname b t
    | .htmlTagatt => m.tagatt b t
    | .htmlTagnameEnd => m.tagnameEnd b t
    | .htmlTagBang => m.tagBang (b :: t)
    | .htmlComment => m.comment (b :: t)
    | .htmlCommentSkip => m.commentSkip b t
    | .htmlCommentIe => m.commentIe b t
    | .htmlCdata => m.cdata b t
    | _ => none

@[simp] def step (rest : List UInt8) : Move :=
  (m.move rest).map fun p =>
    (if inComment m.st then p.1 else { p.1 with blank := endsBlank p.1.out }, p.2)

end Reader

section Waits
variable {tok u fut : List UInt8}

theorem cacheable_append (h : cacheable tok (u ++ fut) = true) : cacheable tok u = true := by
  induction u generalizing tok with
  | nil => simp [cacheable]
  | cons b u ih =>
    rcases tok with _ | ⟨a, tok⟩
    · simp [cacheable] at h
    · simp only [List.cons_append, cacheable, Bool.and_eq_true] at h ⊢
      exact ⟨h.1, ih h.2⟩

theorem cacheable_of_le (h : u <+: tok) : cacheable tok u = true := by
  induction u generalizing tok with
  | nil => simp [cacheable]
  | cons b u ih =>
    rcases tok with _ | ⟨a, tok⟩
    · simp at h
    · obtain ⟨rfl, ht⟩ := List.cons_prefix_cons.mp h
      simp [cacheable, ih ht]

/-- A token without letters is compared byte for byte. -/
theorem prefix_of_cacheable (htok : ∀ c ∈ tok, c < 65 ∨ 90 < c ∧ c < 97) (h : cacheable tok u = true) :
    u <+: tok := by
  induction u generalizing tok with
  | nil => exact List.nil_prefix
  | cons b u ih =>
    rcases tok with _ | ⟨a, tok⟩
    · simp [cacheable] at h
    · simp only [cacheable, Bool.and_eq_true, decide_eq_true_eq] at h
      have hab := toLower_eq (htok a List.mem_cons_self) h.1
      have htail := ih (fun c hc => htok c (List.mem_cons_of_mem a hc)) h.2
      exact List.cons_prefix_cons.mpr ⟨hab, htail⟩

/-- A token does not come where some bytes already differ from it. -/
theorem not_comes (fut : List UInt8) (h : cacheable tok u = false) :
    ¬ (u.length ≤ tok.length ∧ tok <+: u ++ fut) ∧ waits tok (u ++ fut) = false := by
  refine ⟨fun ⟨hlen, hp⟩ => ?_, ?_⟩
  · have hpre := List.prefix_of_prefix_length_le (List.prefix_append u fut) hp hlen
    rw [cacheable_of_le hpre] at h
    cases h
  · rw [waits, Bool.and_eq_false_iff]
    refine .inr (Bool.eq_false_iff.mpr fun hc => ?_)
    rw [cacheable_append hc] at h
    cases h

/-- A token may still come where all the bytes there are agree with it. -/
theorem comes_later (hlt : u.length < tok.length) (h : cacheable tok u = true) :
    ¬ tok <+: u ∧ waits tok u = true := by
  refine ⟨fun hp => ?_, by simp [waits, hlt, h]⟩
  have hle := hp.length_le
  omega

end Waits

end NginB.Minify
