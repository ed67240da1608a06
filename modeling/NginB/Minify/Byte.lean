import Mathlib.Data.List.Basic

/-! # Bytes and byte literals of the minify module

A `u_char` is a `UInt8`. The characters and string literals of the C sources are
named here once; `simp` unfolds them to numerals.
-/
namespace NginB.Minify

namespace Ascii

@[simp] abbrev nul : UInt8 := 0
@[simp] abbrev tab : UInt8 := 9
@[simp] abbrev lf : UInt8 := 10
@[simp] abbrev cr : UInt8 := 13
@[simp] abbrev space : UInt8 := 32
@[simp] abbrev bang : UInt8 := 33
@[simp] abbrev dquote : UInt8 := 34
@[simp] abbrev dollar : UInt8 := 36
@[simp] abbrev squote : UInt8 := 39
@[simp] abbrev star : UInt8 := 42
@[simp] abbrev dash : UInt8 := 45
@[simp] abbrev slash : UInt8 := 47
@[simp] abbrev colon : UInt8 := 58
@[simp] abbrev semicolon : UInt8 := 59
@[simp] abbrev lt : UInt8 := 60
@[simp] abbrev gt : UInt8 := 62
@[simp] abbrev question : UInt8 := 63
@[simp] abbrev lbracket : UInt8 := 91
@[simp] abbrev backslash : UInt8 := 92
@[simp] abbrev rbracket : UInt8 := 93
@[simp] abbrev underscore : UInt8 := 95
@[simp] abbrev lbrace : UInt8 := 123
@[simp] abbrev rbrace : UInt8 := 125

end Ascii

/-- The bytes of an ASCII string literal, without its terminating NUL. -/
def lit (s : String) : List UInt8 := s.toList.map Char.toUInt8

@[simp] theorem lit_commentOpen : lit "<!--" = [60, 33, 45, 45] := by decide
@[simp] theorem lit_commentBracket : lit "<!--[" = [60, 33, 45, 45, 91] := by decide
@[simp] theorem lit_commentIf : lit "<!--[if" = [60, 33, 45, 45, 91, 105, 102] := by decide
@[simp] theorem lit_if : lit "[if" = [91, 105, 102] := by decide
@[simp] theorem lit_commentClose : lit "-->" = [45, 45, 62] := by decide
@[simp] theorem lit_commentIfClose : lit "]-->" = [93, 45, 45, 62] := by decide
@[simp] theorem lit_cdataOpen : lit "<![CDATA[" = [60, 33, 91, 67, 68, 65, 84, 65, 91] := by decide
@[simp] theorem lit_cdataClose : lit "]]>" = [93, 93, 62] := by decide
@[simp] theorem lit_markup : lit "<!" = [60, 33] := by decide
@[simp] theorem lit_marked : lit "<![" = [60, 33, 91] := by decide
@[simp] theorem lit_endOpen : lit "</" = [60, 47] := by decide
@[simp] theorem lit_lt : lit "<" = [60] := by decide
@[simp] theorem lit_slash : lit "/" = [47] := by decide
@[simp] theorem lit_star : lit "*" = [42] := by decide
@[simp] theorem lit_backslash : lit "\\" = [92] := by decide
@[simp] theorem lit_blockOpen : lit "/*" = [47, 42] := by decide
@[simp] theorem lit_blockClose : lit "*/" = [42, 47] := by decide
@[simp] theorem lit_lineOpen : lit "//" = [47, 47] := by decide
@[simp] theorem lit_pre : lit "pre" = [112, 114, 101] := by decide
@[simp] theorem lit_script : lit "script" = [115, 99, 114, 105, 112, 116] := by decide
@[simp] theorem lit_style : lit "style" = [115, 116, 121, 108, 101] := by decide

/-- `tolower` of the C locale. -/
def toLower (b : UInt8) : UInt8 := if 65 ≤ b ∧ b ≤ 90 then b + 32 else b

/-- Only a byte that is no letter is in the lower case of such a byte. -/
theorem toLower_eq {c b : UInt8} (hc : c < 65 ∨ 90 < c ∧ c < 97) (h : toLower c = toLower b) :
    b = c := by
  unfold toLower at h
  have hlt := b.toNat_lt
  rw [UInt8.lt_iff_toNat_lt, UInt8.lt_iff_toNat_lt, UInt8.lt_iff_toNat_lt] at hc
  split_ifs at h with h1 h2 h2
  all_goals
    simp only [UInt8.le_iff_toNat_le] at *
    rw [← UInt8.toNat_inj] at *
    simp only [UInt8.toNat_add, UInt8.toNat_ofNat] at *
    try omega

/-- Whether `strncasecmp` finds the first `n` bytes equal; both strings stop at a NUL. -/
def strncasecmpEq : List UInt8 → List UInt8 → Nat → Bool
  | _, _, 0 => true
  | a, b, n + 1 =>
    if toLower (a.headD 0) ≠ toLower (b.headD 0) then false
    else if a.headD 0 = 0 then true
    else strncasecmpEq a.tail b.tail n

def isBlank (b : UInt8) : Bool := b = 32 || b = 9 || b = 13 || b = 10

open Ascii in
/-- What is left of the bytes without white space. -/
def solid (bytes : List UInt8) : List UInt8 :=
  bytes.filter fun b => ¬ (b = space ∨ b = tab ∨ b = cr ∨ b = lf)

@[simp] theorem solid_nil : solid [] = [] := rfl

@[simp] theorem solid_append (l l' : List UInt8) : solid (l ++ l') = solid l ++ solid l' :=
  List.filter_append ..

@[simp] theorem solid_reverse (l : List UInt8) : solid l.reverse = (solid l).reverse :=
  List.filter_reverse

theorem solid_eq_filter (l : List UInt8) : solid l = l.filter fun b => !isBlank b := by
  refine List.filter_congr fun b _ => ?_
  rw [isBlank, ← Bool.decide_or, ← Bool.decide_or, ← Bool.decide_or, ← decide_not, decide_eq_decide]
  tauto

theorem solid_eq_nil {l : List UInt8} (h : ∀ b ∈ l, isBlank b = true) : solid l = [] := by
  rw [solid_eq_filter, List.filter_eq_nil_iff]
  intro b hb
  simp [h b hb]

end NginB.Minify
