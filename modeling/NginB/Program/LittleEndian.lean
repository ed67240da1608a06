import Mathlib.Algebra.Group.Nat.Defs
import Mathlib.Data.List.Basic

/-! # Words in memory

A word of `n` bytes stands in memory with its lowest byte first. Reading it back and writing it
again are inverse to one another, so a record that is read from bytes and written again is the bytes.
-/
namespace NginB.Program

abbrev Word (n : ℕ) := BitVec (8 * n)

def ofBytes : List UInt8 → ℕ
  | [] => 0
  | b :: t => b.toNat + 256 * ofBytes t

def toBytes : ℕ → ℕ → List UInt8
  | 0, _ => []
  | n + 1, v => UInt8.ofNat v :: toBytes n (v / 256)

/-- The word at the front of the bytes; bytes that are missing are 0. -/
def readWord (n : ℕ) (bs : List UInt8) : Word n := BitVec.ofNat _ (ofBytes (bs.take n))

def wordBytes (n : ℕ) (v : Word n) : List UInt8 := toBytes n v.toNat

section
variable {n : ℕ} {t : List UInt8}

@[simp] theorem toBytes_length (v : ℕ) : (toBytes n v).length = n := by
  induction n generalizing v with
  | zero => rfl
  | succ n ih => simp [toBytes, ih]

@[simp] theorem wordBytes_length (v : Word n) : (wordBytes n v).length = n := toBytes_length v.toNat

theorem two_pow_succ (n : ℕ) : 2 ^ (8 * (n + 1)) = 256 * 2 ^ (8 * n) := by
  rw [Nat.mul_succ, Nat.pow_add, Nat.mul_comm]

theorem ofBytes_lt (bs : List UInt8) : ofBytes bs < 2 ^ (8 * bs.length) := by
  induction bs with
  | nil => simp [ofBytes]
  | cons b t ih =>
    have hb := b.toNat_lt
    have hpow := two_pow_succ t.length
    rw [ofBytes, List.length_cons, hpow]
    omega

theorem toBytes_ofBytes (bs : List UInt8) : toBytes bs.length (ofBytes bs) = bs := by
  induction bs with
  | nil => rfl
  | cons b t ih =>
    have hb := b.toNat_lt
    have hlow : UInt8.ofNat (b.toNat + 256 * ofBytes t) = b := by
      apply UInt8.toNat_inj.mp
      rw [UInt8.toNat_ofNat']
      omega
    have hhigh : (b.toNat + 256 * ofBytes t) / 256 = ofBytes t := by omega
    rw [ofBytes, List.length_cons, toBytes, hlow, hhigh, ih]

theorem ofBytes_toBytes (v : ℕ) (hv : v < 2 ^ (8 * n)) : ofBytes (toBytes n v) = v := by
  induction n generalizing v with
  | zero =>
    rw [Nat.mul_zero, Nat.pow_zero, Nat.lt_one_iff] at hv
    rw [hv]
    rfl
  | succ n ih =>
    have hpow := two_pow_succ n
    rw [toBytes, ofBytes, ih (v / 256) (by omega), UInt8.toNat_ofNat']
    omega

/-- Reading a word and writing it again gives the bytes back. -/
theorem wordBytes_readWord {bs : List UInt8} (h : n ≤ bs.length) : wordBytes n (readWord n bs) = bs.take n := by
  have hlen : (bs.take n).length = n := List.length_take_of_le h
  have hlt : ofBytes (bs.take n) < 2 ^ (8 * n) := by
    have hofBytes := ofBytes_lt (bs.take n)
    rwa [hlen] at hofBytes
  have hback := toBytes_ofBytes (bs.take n)
  rw [wordBytes, readWord, BitVec.toNat_ofNat, Nat.mod_eq_of_lt hlt]
  rwa [hlen] at hback

theorem readWord_wordBytes (v : Word n) : readWord n (wordBytes n v ++ t) = v := by
  have htake : (wordBytes n v ++ t).take n = wordBytes n v := List.take_left' (wordBytes_length v)
  rw [readWord, htake, wordBytes, ofBytes_toBytes _ v.isLt, BitVec.ofNat_toNat, BitVec.setWidth_eq]

/-- A word that another takes the place of leaves the bytes before and behind it. -/
theorem getElem?_wordBytes (front back : List UInt8) (v w : Word n) {i : ℕ}
    (hi : i < front.length ∨ front.length + n ≤ i) :
    (front ++ (wordBytes n v ++ back))[i]? = (front ++ (wordBytes n w ++ back))[i]? := by
  rcases hi with hi | hi
  · rw [List.getElem?_append_left hi, List.getElem?_append_left hi]
  · have hbehind : ∀ u : Word n,
        (front ++ (wordBytes n u ++ back))[i]? = back[i - front.length - n]? := by
      intro u
      have hu : (wordBytes n u).length ≤ i - front.length := by
        rw [wordBytes_length]
        omega
      rw [List.getElem?_append_right (by omega), List.getElem?_append_right hu, wordBytes_length]
    rw [hbehind v, hbehind w]

theorem wordBytes_inj {v w : Word n} : wordBytes n v = wordBytes n w ↔ v = w := by
  constructor
  · intro h
    rw [← readWord_wordBytes (t := []) v, h, readWord_wordBytes]
  · intro h
    rw [h]

end

end NginB.Program
