import NginB.Minify.Byte
import NginB.Program.Eraser

/-! # The states of the strip module

`ngx_http_strip_process_buffer` reads a page byte by byte with one state. A byte is left out by
`continue`, which leaves the state as it is; every other byte is written at `writer`.
-/
namespace NginB.Strip
open NginB.Program NginB.Minify.Ascii
open NginB.Minify (isBlank)

inductive StripState
  | text | textWhitespace
  | tag | tagName | tagWhitespace
  | tagAttributeName | tagAttributeEquals | tagAttributeValue
  | tagAttributeValueDoubleQuote | tagAttributeValueSingleQuote
  | endTag | endTagName
  | comment | commentDash | commentDashDash
  | tagBang | tagBangDash | tagBangStuff
  | tagBangBracket | tagBangBracketC | tagBangBracketCd | tagBangBracketCda | tagBangBracketCdat
  | tagBangBracketCdata
  | cdata | cdataBracket | cdataBracketBracket
  | tagNameP | tagNamePr | tagNamePre
  | preformatted | preformattedAngle | preformattedAngleSlash | preformattedAngleSlashP
  | preformattedAngleSlashPr | preformattedAngleSlashPre
  | abort
  deriving DecidableEq

/-- What an iteration leaves: the state, the byte at `reader`, and whether that byte is written. -/
structure Reading where
  state : StripState
  byte : UInt8
  written : Bool
  deriving DecidableEq

/-- `break`. -/
def Reading.go (s : StripState) (b : UInt8) : Reading := ⟨s, b, true⟩

/-- `continue`. -/
def Reading.pass (s : StripState) (b : UInt8) : Reading := ⟨s, b, false⟩

@[simp] abbrev equals : UInt8 := 61

/-- A small letter or the capital of it. -/
def isLetter (c b : UInt8) : Bool := b = c || b + 32 = c

def isAlpha (b : UInt8) : Bool := 97 ≤ b && b ≤ 122 || 65 ≤ b && b ≤ 90

def isBreak (b : UInt8) : Bool := b = cr || b = lf || b = tab

open StripState Reading in
def dispatch (s : StripState) (b : UInt8) : Reading :=
  match s with
  | abort => go abort b
  | text =>
    if isBreak b then pass text b
    else if b = lt then go tag b
    else if b = space then go textWhitespace b
    else go text b
  | tag =>
    if b = bang then go tagBang b
    else if b = slash then go endTag b
    else if isLetter 112 b then go tagNameP b
    else if b = space then go tag b
    else if isAlpha b then go tagName b
    else go abort b
  | tagName =>
    if b = gt then go text b
    else if b = space then go tagWhitespace b
    else go tagName b
  | tagNameP =>
    if isLetter 114 b then go tagNamePr b
    else if b = space then go tagWhitespace b
    else if b = gt then go text b
    else go tagName b
  | tagNamePr =>
    if isLetter 101 b then go tagNamePre b
    else if b = space then go tagWhitespace b
    else if b = gt then go text b
    else go tagName b
  | tagNamePre => if b = space ∨ b = gt then go preformatted b else go tagName b
  | preformatted => if b = lt then go preformattedAngle b else go preformatted b
  | preformattedAngle => if b = slash then go preformattedAngleSlash b else go preformatted b
  | preformattedAngleSlash =>
    if isLetter 112 b then go preformattedAngleSlashP b else go preformatted b
  | preformattedAngleSlashP =>
    if isLetter 114 b then go preformattedAngleSlashPr b else go preformatted b
  | preformattedAngleSlashPr =>
    if isLetter 101 b then go preformattedAngleSlashPre b else go preformatted b
  | preformattedAngleSlashPre => if b = gt then go text b else go preformatted b
  | tagBang =>
    -- `case '['` has no `break`: the state that it sets is overwritten by that of `default`
    if b = dash then go tagBangDash b else go tagBangStuff b
  | tagBangBracket => if b = 67 then go tagBangBracketC b else go tagBangStuff b
  | tagBangBracketC => if b = 68 then go tagBangBracketCd b else go tagBangStuff b
  | tagBangBracketCd => if b = 65 then go tagBangBracketCda b else go tagBangStuff b
  | tagBangBracketCda => if b = 84 then go tagBangBracketCdat b else go tagBangStuff b
  | tagBangBracketCdat => if b = 65 then go tagBangBracketCdata b else go tagBangStuff b
  | tagBangBracketCdata => if b = lbracket then go cdata b else go tagBangStuff b
  | cdata => if b = rbracket then go cdataBracket b else go cdata b
  | cdataBracket => if b = rbracket then go cdataBracketBracket b else go cdata b
  | cdataBracketBracket =>
    -- `*reader = '>'` is an assignment, and its value is not zero
    go text gt
  | tagBangDash => if b = dash then go comment b else go tagBangStuff b
  | tagBangStuff => if b = gt then go text b else go tagBangStuff b
  | comment => if b = dash then go commentDash b else go comment b
  | commentDash => if b = dash then go commentDashDash b else go comment b
  | commentDashDash => if b = gt then go text b else go comment b
  | endTag => if b = space then pass endTag b else go endTagName b
  | endTagName => if b = gt then go text b else go endTagName b
  | tagWhitespace =>
    if b = space then pass tagWhitespace b
    else if b = gt then go text b
    else go tagAttributeName b
  | tagAttributeName =>
    if b = equals then go tagAttributeEquals b
    else if b = gt then go text b
    else if b = space then go tagWhitespace b
    else go tagAttributeName b
  | tagAttributeEquals =>
    if b = dquote then go tagAttributeValueDoubleQuote b
    else if b = squote then go tagAttributeValueSingleQuote b
    else go tagAttributeValue b
  | tagAttributeValue =>
    if b = gt then go text b
    else if b = space then go tagWhitespace b
    else go tagAttributeValue b
  | tagAttributeValueDoubleQuote =>
    if b = dquote then go tagAttributeValue b else go tagAttributeValueDoubleQuote b
  | tagAttributeValueSingleQuote =>
    if b = squote then go tagAttributeValue b else go tagAttributeValueSingleQuote b
  | textWhitespace =>
    if isBreak b ∨ b = space then pass textWhitespace b
    else if b = lt then go tag b
    else go text b

def stripper : Mealy StripState UInt8 UInt8 where
  next s b := (dispatch s b).state
  emit s b := if (dispatch s b).written then [(dispatch s b).byte] else []

/-- The states that are set anywhere but in the missed `case '['` and behind it. -/
def Live (s : StripState) : Prop :=
  s ∉ [StripState.tagBangBracket, .tagBangBracketC, .tagBangBracketCd, .tagBangBracketCda,
    .tagBangBracketCdat, .tagBangBracketCdata, .cdata, .cdataBracket, .cdataBracketBracket]

instance (s : StripState) : Decidable (Live s) := inferInstanceAs (Decidable (¬ _))

theorem isLetter_cases {c b : UInt8} (h : isLetter c b = true) : b = c ∨ b = c - 32 := by
  rw [isLetter, Bool.or_eq_true, decide_eq_true_eq, decide_eq_true_eq] at h
  rcases h with h | h
  · exact .inl h
  · rw [← h, UInt8.add_sub_cancel]
    exact .inr rfl

theorem isBlank_eq (b : UInt8) : isBlank b = (isBreak b || decide (b = space)) := by
  simp only [isBlank, isBreak, Bool.or_assoc, Bool.or_comm, Bool.or_left_comm]

section Readings
variable {s : StripState} {b : UInt8}

@[simp] theorem go_state : (Reading.go s b).state = s := rfl
@[simp] theorem go_byte : (Reading.go s b).byte = b := rfl
@[simp] theorem go_written : (Reading.go s b).written = true := rfl
@[simp] theorem pass_state : (Reading.pass s b).state = s := rfl
@[simp] theorem pass_byte : (Reading.pass s b).byte = b := rfl
@[simp] theorem pass_written : (Reading.pass s b).written = false := rfl

/-- In a live state the byte is written as it is, or it is left out and the state stays. -/
theorem dispatch_live (hs : Live s) : (∃ t, dispatch s b = .go t b ∧ Live t) ∨
    dispatch s b = .pass s b ∧ (isBreak b ∨ b = space) := by
  cases s
  case tagBangBracket | tagBangBracketC | tagBangBracketCd | tagBangBracketCda | tagBangBracketCdat
      | tagBangBracketCdata | cdata | cdataBracket | cdataBracketBracket => exact absurd hs (by decide)
  case text =>
    by_cases hb : isBreak b = true
    · exact .inr ⟨by rw [dispatch, if_pos hb], .inl hb⟩
    · rw [dispatch, if_neg hb]
      split_ifs <;> exact .inl ⟨_, rfl, by decide⟩
  case textWhitespace =>
    by_cases hb : isBreak b = true ∨ b = space
    · exact .inr ⟨by rw [dispatch, if_pos hb], hb⟩
    · rw [dispatch, if_neg hb]
      split_ifs <;> exact .inl ⟨_, rfl, by decide⟩
  case endTag =>
    by_cases hb : b = space
    · exact .inr ⟨by rw [dispatch, if_pos hb], .inr hb⟩
    · rw [dispatch, if_neg hb]
      exact .inl ⟨_, rfl, by decide⟩
  case tagWhitespace =>
    by_cases hb : b = space
    · exact .inr ⟨by rw [dispatch, if_pos hb], .inr hb⟩
    · rw [dispatch, if_neg hb]
      split_ifs <;> exact .inl ⟨_, rfl, by decide⟩
  case abort => exact .inl ⟨_, rfl, by decide⟩
  all_goals
    rw [dispatch]
    split_ifs <;> exact .inl ⟨_, rfl, by decide⟩

theorem stripper_go {t : StripState} (h : dispatch s b = .go t b) :
    stripper.next s b = t ∧ stripper.emit s b = [b] := by
  simp [stripper, h]

theorem stripper_pass (h : dispatch s b = .pass s b) :
    stripper.next s b = s ∧ stripper.emit s b = [] := by
  simp [stripper, h]

theorem blank_of_emit (hs : Live s) (h : stripper.emit s b = []) : isBreak b ∨ b = space := by
  rcases dispatch_live hs with ⟨t, ht, -⟩ | ⟨-, hb⟩
  · rw [(stripper_go ht).2] at h
    cases h
  · exact hb

theorem stripper_erases : stripper.Erases Live where
  next {s a} hs := by
    rcases dispatch_live hs with ⟨t, ht, hlive⟩ | ⟨hp, -⟩
    · rw [(stripper_go ht).1]
      exact hlive
    · rw [(stripper_pass hp).1]
      exact hs
  emit {s a} hs := by
    rcases dispatch_live hs with ⟨t, ht, -⟩ | ⟨hp, -⟩
    · exact .inl (stripper_go ht).2
    · exact .inr (stripper_pass hp).2
  idle {s a} hs he := by
    rcases dispatch_live hs with ⟨t, ht, -⟩ | ⟨hp, -⟩
    · rw [(stripper_go ht).2] at he
      cases he
    · exact (stripper_pass hp).1

end Readings

end NginB.Strip
