import Mathlib.Data.Nat.Digits.Defs
import Mathlib.Order.Defs.LinearOrder
import Mathlib.Data.Int.Order.Basic
import Mathlib.Data.List.TakeWhile
import NginB.Lua.Pattern

/-! # Lua numbers

Lua numbers are doubles. What a script relies on that compares, adds and prints numbers and
reads numerals is a linear order with these operations and a few laws; the integers have them.
-/
namespace NginB.Lua

def digitsValue (s : List UInt8) : ℕ := s.foldl (fun n b => 10 * n + (b.toNat - 48)) 0

def numeralValue : List UInt8 → ℤ
  | [] => 0
  | b :: t => if b = 45 then -(digitsValue t : ℤ) else (digitsValue (b :: t) : ℤ)

def IsNumeral (s : List UInt8) : Prop := numeral s = some s

instance (s : List UInt8) : Decidable (IsNumeral s) := inferInstanceAs (Decidable (_ = _))

class LuaNumber (N : Type) extends LinearOrder N, Zero N, One N, Neg N, Add N where
  tonumber : List UInt8 → Option N
  tostring : N → List UInt8
  neg_one_lt : (-1 : N) < 0
  one_pos : (0 : N) < 1
  /-- A numeral is read, and its sign is the sign of its value. -/
  tonumber_numeral : ∀ {s}, IsNumeral s → ∃ n, tonumber s = some n ∧ (0 < n ↔ 0 < numeralValue s)
  /-- A number is printed without commas and blanks. -/
  tostring_plain : ∀ (n : N), ∀ b ∈ tostring n, b ≠ 44 ∧ b ≠ 32 ∧ b ≠ 9
  /-- A positive number is not printed as a numeral that is not positive. -/
  tostring_pos : ∀ {n : N}, 0 < n → IsNumeral (tostring n) → 0 < numeralValue (tostring n)

theorem isNumeral_of_numeral {s a : List UInt8} (h : numeral s = some a) : IsNumeral a := by
  cases s with
  | nil => cases h
  | cons b t =>
    rw [numeral] at h
    split at h
    next hb =>
      split at h
      · cases h
      next ht =>
        cases h
        rw [IsNumeral, numeral, if_pos hb, List.takeWhile_idem, if_neg ht]
    next hb =>
      split at h
      · cases h
      next ht =>
        cases h
        rw [List.takeWhile_cons] at ht ⊢
        split at ht
        next hd =>
          rw [if_pos hd, IsNumeral, numeral, if_neg hb, List.takeWhile_cons, if_pos hd, List.takeWhile_idem]
          exact if_neg (List.cons_ne_nil _ _)
        · exact absurd rfl ht

section Decimal

def digitByte (d : ℕ) : UInt8 := UInt8.ofNat (48 + d)

def decimal (n : ℕ) : List UInt8 :=
  if n = 0 then [48] else ((Nat.digits 10 n).map digitByte).reverse

theorem digitByte_toNat {d : ℕ} (h : d < 10) : (digitByte d).toNat = 48 + d := by
  rw [digitByte, UInt8.toNat_ofNat_of_lt']
  have hsize : UInt8.size = 256 := rfl
  omega

theorem digitsValue_reverse {l : List ℕ} (h : ∀ d ∈ l, d < 10) :
    digitsValue (l.map digitByte).reverse = Nat.ofDigits 10 l := by
  rw [digitsValue, List.foldl_reverse]
  induction l with
  | nil => rfl
  | cons d l ih =>
    have hd := digitByte_toNat (h d List.mem_cons_self)
    rw [List.map_cons, List.foldr_cons, ih fun e he => h e (List.mem_cons_of_mem d he), hd,
      Nat.ofDigits_cons]
    omega

theorem digitsValue_decimal (n : ℕ) : digitsValue (decimal n) = n := by
  unfold decimal
  split
  next hn =>
    rw [hn]
    rfl
  · rw [digitsValue_reverse fun d hd => Nat.digits_lt_base (by decide) hd, Nat.ofDigits_digits]

theorem isDigit_decimal {n : ℕ} {b : UInt8} (h : b ∈ decimal n) : isDigit b = true := by
  unfold decimal at h
  split at h
  · rw [List.mem_singleton.mp h]
    rfl
  · obtain ⟨d, hd, rfl⟩ := List.mem_map.mp (List.mem_reverse.mp h)
    have hlt : d < 10 := Nat.digits_lt_base (by decide) hd
    have hall : ∀ d < 10, isDigit (digitByte d) = true := by decide
    exact hall d hlt

theorem decimal_ne_nil (n : ℕ) : decimal n ≠ [] := by
  unfold decimal
  split
  · exact List.cons_ne_nil _ _
  next hn =>
    rw [Ne, List.reverse_eq_nil_iff, List.map_eq_nil_iff]
    exact Nat.digits_ne_nil_iff_ne_zero.mpr hn

theorem decimal_cons (n : ℕ) : ∃ b t, decimal n = b :: t ∧ b ≠ 45 := by
  obtain ⟨b, t, hcons⟩ := List.exists_cons_of_ne_nil (decimal_ne_nil n)
  have hb : isDigit b = true := isDigit_decimal (by rw [hcons]; exact List.mem_cons_self)
  refine ⟨b, t, hcons, ?_⟩
  rintro rfl
  exact absurd hb (by decide)

theorem numeralValue_decimal (n : ℕ) : numeralValue (decimal n) = n := by
  obtain ⟨b, t, hcons, hb⟩ := decimal_cons n
  have hvalue := digitsValue_decimal n
  rw [hcons] at hvalue ⊢
  rw [numeralValue, if_neg hb, hvalue]

theorem isNumeral_decimal (n : ℕ) : IsNumeral (decimal n) := by
  obtain ⟨b, t, hcons, hb⟩ := decimal_cons n
  have hall : (decimal n).takeWhile isDigit = decimal n :=
    List.takeWhile_eq_self_iff.mpr fun c hc => isDigit_decimal hc
  rw [hcons] at hall ⊢
  rw [IsNumeral, numeral, if_neg hb, hall]
  exact if_neg (List.cons_ne_nil _ _)

end Decimal

/-- Numbers that are exact on the natural numbers below `10 ^ 14`: those that `%.14g`, with which
Lua prints, writes in full. -/
class ExactNumber (N : Type) extends LuaNumber N, NatCast N where
  natCast_pos : ∀ {n : ℕ}, 0 < n → n < 10 ^ 14 → (0 : N) < n
  tostring_natCast : ∀ {n : ℕ}, n < 10 ^ 14 → tostring (n : N) = decimal n
  /-- A numeral that is read compares with them as its value does. -/
  tonumber_lt : ∀ {s : List UInt8} {m : N} {n : ℕ}, n < 10 ^ 14 → IsNumeral s → tonumber s = some m →
    (m < n ↔ numeralValue s < n)
  add_nonneg : ∀ {a b : N}, 0 ≤ a → 0 ≤ b → 0 ≤ a + b

/-- The integers are read from numerals and printed in full. -/
instance : LuaNumber ℤ where
  tonumber s := if IsNumeral s then some (numeralValue s) else none
  tostring n := if n < 0 then 45 :: decimal n.natAbs else decimal n.natAbs
  neg_one_lt := by decide
  one_pos := by decide
  tonumber_numeral h := ⟨_, if_pos h, Iff.rfl⟩
  tostring_plain n b hb := by
    have hdigit : isDigit b = true ∨ b = 45 := by
      split at hb
      · exact (List.mem_cons.mp hb).symm.imp_left isDigit_decimal
      · exact .inl (isDigit_decimal hb)
    rcases hdigit with hd | rfl
    · refine ⟨?_, ?_, ?_⟩
      · rintro rfl
        exact absurd hd (by decide)
      · rintro rfl
        exact absurd hd (by decide)
      · rintro rfl
        exact absurd hd (by decide)
    · decide
  tostring_pos {n} hn _ := by
    rw [if_neg (by omega), numeralValue_decimal]
    omega

instance : ExactNumber ℤ where
  natCast n := n
  natCast_pos hn _ := Int.natCast_pos.mpr hn
  tostring_natCast {n} _ := if_neg (Int.natCast_nonneg n).not_gt
  tonumber_lt _ hs hm := by
    cases (if_pos hs).symm.trans hm
    rfl
  add_nonneg := Int.add_nonneg

end NginB.Lua
