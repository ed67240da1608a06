import Mathlib.Data.List.Infix

/-! # Lua patterns

The matcher of `string.find` for a pattern that begins with `^`: the items of the pattern are
taken one after the other, a greedy item tries the longest run first and a lazy one the shortest.
A match yields its captures.
-/
namespace NginB.Lua

inductive CharClass
  | any | digit
  | char (c : UInt8)
  deriving DecidableEq

def isDigit (b : UInt8) : Bool := 48 ≤ b && b ≤ 57

def CharClass.accepts : CharClass → UInt8 → Bool
  | .any, _ => true
  | .digit, b => isDigit b
  | .char c, b => b = c

/-- The items of a pattern: `c`, `c?`, `c+`, `c-`, and the two ends of a capture. -/
inductive PatItem
  | single (c : CharClass)
  | opt (c : CharClass)
  | plus (c : CharClass)
  | lazy (c : CharClass)
  | openCapture | closeCapture
  deriving DecidableEq

def literal (w : List UInt8) : List PatItem := w.map fun b => .single (.char b)

/-- A capture: open, with the subject from its start on, or closed. -/
inductive Capture
  | opened (start : List UInt8)
  | closed (text : List UInt8)
  deriving DecidableEq

/-- Closes the last capture that is open; the bytes `s` are still unmatched. -/
def closeLast (s : List UInt8) : List Capture → List Capture
  | [] => []
  | .opened start :: caps => .closed (start.take (start.length - s.length)) :: caps
  | .closed text :: caps => .closed text :: closeLast s caps

section Expand
variable {β : Type} (c : CharClass) (k : List UInt8 → Option β)

/-- `max_expand`: as many bytes as there are, then one less at a time. -/
def maxExpand : List UInt8 → Option β
  | [] => k []
  | b :: t => if c.accepts b then (maxExpand t).orElse fun _ => k (b :: t) else k (b :: t)

/-- `min_expand`: no byte at first, then one more at a time. -/
def minExpand : List UInt8 → Option β
  | [] => k []
  | b :: t => (k (b :: t)).orElse fun _ => if c.accepts b then minExpand t else none

end Expand

/-- The captures, newest first, of a match of the items at the start of the subject. -/
def doMatch : List PatItem → List UInt8 → List Capture → Option (List Capture)
  | [], _, caps => some caps
  | .single c :: p, s, caps =>
    match s with
    | [] => none
    | b :: t => if c.accepts b then doMatch p t caps else none
  | .opt c :: p, s, caps =>
    match s with
    | [] => doMatch p [] caps
    | b :: t =>
      if c.accepts b then (doMatch p t caps).orElse fun _ => doMatch p (b :: t) caps
      else doMatch p (b :: t) caps
  | .plus c :: p, s, caps =>
    match s with
    | [] => none
    | b :: t => if c.accepts b then maxExpand c (fun u => doMatch p u caps) t else none
  | .lazy c :: p, s, caps => minExpand c (fun u => doMatch p u caps) s
  | .openCapture :: p, s, caps => doMatch p s (.opened s :: caps)
  | .closeCapture :: p, s, caps => doMatch p s (closeLast s caps)

/-- `string.find(s, "^" .. p)`: the captures of the match, if there is one. -/
def find (p : List PatItem) (s : List UInt8) : Option (List Capture) :=
  (doMatch p s []).map List.reverse

/-- An optional `-` and one or more digits at the start of the bytes, as many as there are. -/
def numeral (s : List UInt8) : Option (List UInt8) :=
  match s with
  | [] => none
  | b :: t =>
    if b = 45 then
      if t.takeWhile isDigit = [] then none else some (b :: t.takeWhile isDigit)
    else if (b :: t).takeWhile isDigit = [] then none
    else some ((b :: t).takeWhile isDigit)

/-- `(%-?%d+)` -/
def numeralItems : List PatItem :=
  [.openCapture, .opt (.char 45), .plus .digit, .closeCapture]

section Find
variable {β : Type} {s t w : List UInt8} {p : List PatItem} {caps : List Capture}

theorem doMatch_literal : doMatch (literal w ++ p) s caps =
    if w <+: s then doMatch p (s.drop w.length) caps else none := by
  induction w generalizing s with
  | nil => simp [literal]
  | cons b w ih =>
    have hcons : literal (b :: w) ++ p = .single (.char b) :: (literal w ++ p) := rfl
    rw [hcons]
    cases s with
    | nil => simp [doMatch]
    | cons a t =>
      simp only [doMatch, CharClass.accepts, decide_eq_true_eq, ih, List.cons_prefix_cons,
        List.length_cons, List.drop_succ_cons]
      by_cases hab : a = b
      · simp [hab]
      · simp [hab, Ne.symm hab]

/-- A pattern without special items is found where the subject begins with it. -/
theorem find_literal : (find (literal w) s).isSome = true ↔ w <+: s := by
  have hmatch : doMatch (literal w ++ []) s [] = if w <+: s then _ else none := doMatch_literal
  rw [List.append_nil] at hmatch
  rw [find, hmatch]
  by_cases h : w <+: s
  · simp [h, doMatch]
  · simp [h]

theorem minExpand_any (k : List UInt8 → Option β) : minExpand .any k s = s.tails.findSome? k := by
  induction s with
  | nil => simp [minExpand]
  | cons b t ih =>
    rw [minExpand, List.tails, List.findSome?_cons, ih]
    cases k (b :: t) <;> rfl

/-- A greedy run of digits before items that match wherever it ends. -/
theorem maxExpand_digit (k : List UInt8 → Option β) (hk : ∀ u, (k u).isSome = true) :
    maxExpand .digit k s = k (s.dropWhile isDigit) := by
  induction s with
  | nil => rfl
  | cons b t ih =>
    rw [maxExpand, ih, List.dropWhile_cons, CharClass.accepts]
    have hsome := hk (t.dropWhile isDigit)
    by_cases hb : isDigit b = true
    · rw [if_pos hb, if_pos hb]
      cases hd : k (t.dropWhile isDigit) with
      | none => simp [hd] at hsome
      | some a => rfl
    · rw [if_neg hb, if_neg hb]

theorem take_takeWhile : s.take (s.length - (s.dropWhile isDigit).length) = s.takeWhile isDigit := by
  have hsplit := List.takeWhile_append_dropWhile (p := isDigit) (l := s)
  have hlen := congrArg List.length hsplit
  rw [List.length_append] at hlen
  have hle : s.length - (s.dropWhile isDigit).length = (s.takeWhile isDigit).length := by omega
  have htake : (s.takeWhile isDigit ++ s.dropWhile isDigit).take (s.takeWhile isDigit).length =
      s.takeWhile isDigit := List.take_left' rfl
  rw [hle]
  rwa [hsplit] at htake

theorem doMatch_digits (u : List UInt8) :
    doMatch [.plus .digit, .closeCapture] s [.opened u] =
      if s.takeWhile isDigit = [] then none
      else some [.closed (u.take (u.length - (s.dropWhile isDigit).length))] := by
  cases s with
  | nil => rfl
  | cons b t =>
    have hexpand := maxExpand_digit (s := t)
      (fun v => doMatch [.closeCapture] v [.opened u]) fun v => rfl
    by_cases hb : isDigit b = true
    · rw [doMatch]
      simpa [CharClass.accepts, hb, doMatch, closeLast] using hexpand
    · simp [doMatch, CharClass.accepts, hb]

theorem doMatch_numeral (s : List UInt8) :
    doMatch numeralItems s [] = (numeral s).map fun a => [.closed a] := by
  cases s with
  | nil => rfl
  | cons b t =>
    have hdigits := doMatch_digits (s := t) (b :: t)
    have hall := doMatch_digits (s := b :: t) (b :: t)
    rw [take_takeWhile] at hall
    rw [numeralItems, doMatch, doMatch, hdigits, hall, CharClass.accepts, numeral]
    by_cases hb : b = 45
    · subst hb
      have hle : (t.dropWhile isDigit).length ≤ t.length := (List.dropWhile_sublist _).length_le
      have hlen : (45 :: t).length - (t.dropWhile isDigit).length =
          t.length - (t.dropWhile isDigit).length + 1 := by
        rw [List.length_cons]
        omega
      rw [hlen, List.take_succ_cons, take_takeWhile]
      by_cases ht : t.takeWhile isDigit = []
      · simp [ht, isDigit]
      · simp [ht]
    · by_cases ht : (b :: t).takeWhile isDigit = []
      · simp [hb, ht]
      · simp [hb, ht]

/-- `^.-w(%-?%d+)`: the capture is the numeral after the first `w` that one comes after. -/
theorem find_numeral_after : find (.lazy .any :: (literal w ++ numeralItems)) s =
    (s.tails.findSome? fun t => if w <+: t then numeral (t.drop w.length) else none).map
      fun a => [.closed a] := by
  have hstep : (fun u => doMatch (literal w ++ numeralItems) u []) = fun u =>
      (if w <+: u then numeral (u.drop w.length) else none).map fun a => [.closed a] := by
    funext u
    rw [doMatch_literal, doMatch_numeral]
    split <;> rfl
  rw [find, doMatch, minExpand_any, hstep, List.map_findSome?, List.map_findSome?]
  congr 1
  funext u
  simp [Function.comp_def, Option.map_map]

end Find

end NginB.Lua
