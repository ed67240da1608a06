import NginB.Minify.Byte
import NginB.Program.Occurrence
import Mathlib.Data.List.Induction

/-! # String literals of style sheets and scripts

A reference lexer that knows no more than comments and string literals. It says which literals a
page has, and `Kept` that an output has them so far.
-/
namespace NginB.Minify
open NginB.Program Ascii

/-- The modes of the lexer: in `slash` and `star` the last byte may be the first of a comment
delimiter, in `esc` it is the backslash of an escape. -/
inductive LexMode
  | code | slash | line | block | star
  | str (q : UInt8)
  | esc (q : UInt8)
  deriving DecidableEq

def LexMode.inString : LexMode → Bool
  | .str _ | .esc _ => true
  | _ => false

def lexCode (b : UInt8) : LexMode :=
  if b = slash then .slash else if b = dquote ∨ b = squote then .str b else .code

/-- The mode after the byte `b`; `lines` tells whether there are line comments. -/
def lexStep (lines : Bool) : LexMode → UInt8 → LexMode
  | .code, b => lexCode b
  | .slash, b => if b = star then .block else if lines = true ∧ b = slash then .line else lexCode b
  | .line, b => if b = lf then .code else .line
  | .block, b => if b = star then .star else .block
  | .star, b => if b = slash then .code else if b = star then .star else .block
  | .str q, b => if b = backslash then .esc q else if b = q then .code else .str q
  | .esc q, _ => .str q

/-- What the lexer has found: the complete literals, and the one it is in. -/
structure Lexed where
  mode : LexMode
  done : List (List UInt8)
  cur : List UInt8
  deriving DecidableEq

def Lexed.read (lines : Bool) (s : Lexed) (b : UInt8) : Lexed :=
  if (lexStep lines s.mode b).inString then { s with mode := lexStep lines s.mode b, cur := s.cur ++ [b] }
  else if s.mode.inString then ⟨lexStep lines s.mode b, s.done ++ [s.cur ++ [b]], []⟩
  else { s with mode := lexStep lines s.mode b }

def lexed (lines : Bool) (input : List UInt8) : Lexed := input.foldl (Lexed.read lines) ⟨.code, [], []⟩

def stringLiterals (lines : Bool) (input : List UInt8) : List (List UInt8) := (lexed lines input).done

section Lexed
variable {lines : Bool} {s : Lexed} {b : UInt8}

@[simp] theorem lexed_nil : lexed lines [] = ⟨.code, [], []⟩ := rfl

theorem lexed_append (w w' : List UInt8) : lexed lines (w ++ w') = w'.foldl (Lexed.read lines) (lexed lines w) :=
  List.foldl_append

@[simp] theorem Lexed.read_mode : (s.read lines b).mode = lexStep lines s.mode b := by
  unfold Lexed.read
  split
  · rfl
  · split <;> rfl

@[simp] theorem lexStep_opened : lexStep lines .slash star = .block := rfl
@[simp] theorem lexStep_closed : lexStep lines .star slash = .code := rfl
@[simp] theorem lexStep_escape (q : UInt8) : lexStep lines (.str q) backslash = .esc q := rfl
@[simp] theorem lexStep_escaped (q : UInt8) : lexStep lines (.esc q) b = .str q := rfl

@[simp] theorem lexStep_quoted {q : UInt8} (hq : q ≠ backslash) : lexStep lines (.str q) q = .code := by
  rw [lexStep, if_neg hq, if_pos rfl]

theorem lexStep_byte {q : UInt8} (hb : b ≠ backslash ∧ b ≠ q) : lexStep lines (.str q) b = .str q := by
  rw [lexStep, if_neg hb.1, if_neg hb.2]

def LexMode.Sane : LexMode → Prop
  | .str q | .esc q => q = dquote ∨ q = squote
  | _ => True

theorem lexCode_sane (b : UInt8) : (lexCode b).Sane := by
  unfold lexCode
  split
  · trivial
  · split
    · assumption
    · trivial

theorem lexStep_sane {m : LexMode} (h : m.Sane) (b : UInt8) : (lexStep lines m b).Sane := by
  cases m with
  | code => exact lexCode_sane b
  | slash =>
    simp only [lexStep]
    split
    · trivial
    · split
      · trivial
      · exact lexCode_sane b
  | str q =>
    simp only [lexStep]
    split
    · exact h
    · split
      · trivial
      · exact h
  | esc q => exact h
  | line | block =>
    simp only [lexStep]
    split <;> trivial
  | star =>
    simp only [lexStep]
    split
    · trivial
    · split <;> trivial

theorem lexed_sane (lines : Bool) (input : List UInt8) : (lexed lines input).mode.Sane := by
  induction input using List.reverseRecOn with
  | nil => trivial
  | append_singleton input b ih =>
    rw [lexed_append, List.foldl_cons, List.foldl_nil, Lexed.read_mode]
    exact lexStep_sane ih b

/-- A byte that is no quote completes no literal. -/
theorem Lexed.read_done (h : s.mode.Sane) (hb : b ≠ dquote ∧ b ≠ squote) : (s.read lines b).done = s.done := by
  unfold Lexed.read
  split
  · rfl
  · split
    · rename_i hnot hin
      cases hm : s.mode with
      | str q =>
        have hq : q = dquote ∨ q = squote := by rwa [hm] at h
        have hne : b ≠ q := by
          rintro rfl
          rcases hq with hq | hq
          · exact hb.1 hq
          · exact hb.2 hq
        rw [hm] at hnot
        by_cases hback : b = backslash <;> simp_all [lexStep, LexMode.inString]
      | esc q => simp [hm, lexStep, LexMode.inString] at hnot
      | _ => simp [hm, LexMode.inString] at hin
    · rfl

end Lexed

/-- The output has the literals found so far, and the one that the lexer is in ends it. -/
structure Kept (s : Lexed) (out : List UInt8) : Prop where
  pieces : ∃ o, out = o ++ s.cur ∧ InOrder s.done o
  outside : s.mode.inString = false → s.cur = []

namespace Kept
variable {lines : Bool} {s : Lexed} {out : List UInt8}

theorem start : Kept ⟨.code, [], []⟩ [] := ⟨⟨[], rfl, trivial⟩, fun _ => rfl⟩

theorem inOrder (h : Kept s out) : InOrder s.done out := by
  obtain ⟨o, rfl, ho⟩ := h.pieces
  exact ho.append s.cur

theorem copy (h : Kept s out) (b : UInt8) : Kept (s.read lines b) (out ++ [b]) := by
  obtain ⟨o, rfl, ho⟩ := h.pieces
  unfold Lexed.read
  split
  · rename_i hin
    exact ⟨⟨o, by simp, ho⟩, fun hout => by simp [hin] at hout⟩
  · split
    · refine ⟨⟨o ++ (s.cur ++ [b]), by simp, ho.concat _⟩, fun _ => rfl⟩
    · rename_i hin
      have hcur := h.outside (by simpa using hin)
      exact ⟨⟨o ++ [b], by simp [hcur], ho.append [b]⟩, fun _ => hcur⟩

/-- A byte outside literals, for which the output gets `w`. -/
theorem pass (h : Kept s out) {b : UInt8} (hs : s.mode.inString = false)
    (hb : (lexStep lines s.mode b).inString = false) (w : List UInt8) : Kept (s.read lines b) (out ++ w) := by
  obtain ⟨o, rfl, ho⟩ := h.pieces
  have hcur := h.outside hs
  unfold Lexed.read
  rw [if_neg (by simp [hb]), if_neg (by simp [hs])]
  exact ⟨⟨o ++ w, by simp [hcur], ho.append w⟩, fun _ => hcur⟩

theorem drop (h : Kept s out) {b : UInt8} (hs : s.mode.inString = false)
    (hb : (lexStep lines s.mode b).inString = false) : Kept (s.read lines b) out := by
  have hpass := h.pass hs hb []
  rwa [List.append_nil] at hpass

/-- Two bytes outside literals that are dropped. -/
theorem drop_pair (h : Kept s out) {a b : UInt8} (hs : s.mode.inString = false)
    (ha : (lexStep lines s.mode a).inString = false)
    (hb : (lexStep lines (lexStep lines s.mode a) b).inString = false) :
    Kept ((s.read lines a).read lines b) out := by
  apply (h.drop hs ha).drop
  · rwa [Lexed.read_mode]
  · rwa [Lexed.read_mode]

end Kept

end NginB.Minify
