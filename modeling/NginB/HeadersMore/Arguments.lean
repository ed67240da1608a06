import NginB.HeadersMore.Configuration
import NginB.Program.Words

/-! # The arguments of a directive

What is read from an argument. The key of a header is cut out of the argument from its first byte on,
with the length that the name has: it is the name just when the argument does not begin with white space.
-/
namespace NginB.HeadersMore
open NginB.CacheInfo (isSpace)
open NginB.Lua (isDigit digitsValue)
open NginB.Program (words words_append_cons words_solid)

/-- What ends a name, and stands between it and the value. -/
def isGap (c : UInt8) : Bool := c = 58 || isSpace c

/-- The name that is written in a header argument; its first byte may be a colon. -/
def nameText (raw : List UInt8) : List UInt8 :=
  (raw.dropWhile isSpace).take 1 ++ (raw.dropWhile isSpace).tail.takeWhile fun c => !isGap c

/-- The value that is written in a header argument, with the white space behind it. -/
def valueText (raw : List UInt8) : List UInt8 :=
  ((raw.dropWhile isSpace).tail.dropWhile fun c => !isGap c).dropWhile isGap

def RawHeader.value (s : RawHeader) (raw : List UInt8) : List UInt8 := (raw.drop s.valueAt).take s.valueLen

section Raw
variable {i : ℕ} {s : RawHeader} {u cs raw : List UInt8}

theorem loop_value (hkey : s.keyLen ≠ 0) (hseen : s.seenEndOfKey = true) (hvalue : s.valueLen ≠ 0) :
    rawHeaderLoop i s cs = { s with valueLen := s.valueLen + cs.length } := by
  induction cs generalizing i s with
  | nil => rfl
  | cons c cs ih =>
    have hrest := ih (i := i + 1) (s := { s with valueLen := s.valueLen + 1 }) hkey hseen (Nat.succ_ne_zero _)
    rw [rawHeaderLoop, if_neg hkey, if_neg (by simp [hseen]), if_neg hvalue, hrest, List.length_cons,
      Nat.add_assoc, Nat.add_comm 1]

theorem loop_gap (hkey : s.keyLen ≠ 0) (hseen : s.seenEndOfKey = true) (hvalue : s.valueLen = 0) :
    (rawHeaderLoop u.length s cs).keyLen = s.keyLen ∧
      (rawHeaderLoop u.length s cs).value (u ++ cs) = cs.dropWhile isGap := by
  induction cs generalizing u with
  | nil => exact ⟨rfl, by simp [rawHeaderLoop, RawHeader.value, hvalue]⟩
  | cons c cs ih =>
    have hstep : rawHeaderLoop u.length s (c :: cs) = if isGap c then rawHeaderLoop (u.length + 1) s cs
        else rawHeaderLoop (u.length + 1) { s with valueAt := u.length, valueLen := 1 } cs := by
      simp [rawHeaderLoop, hkey, hseen, hvalue, isGap]
    rw [hstep]
    by_cases hc : isGap c = true
    · have hrest := ih (u := u ++ [c])
      rw [List.length_append, List.length_singleton, List.append_assoc, List.singleton_append] at hrest
      rwa [if_pos hc, List.dropWhile_cons_of_pos hc]
    · rw [if_neg hc, List.dropWhile_cons_of_neg hc, loop_value (s := { s with valueAt := u.length, valueLen := 1 }) hkey hseen Nat.one_ne_zero]
      refine ⟨rfl, ?_⟩
      simp [RawHeader.value, Nat.add_comm 1]

theorem loop_key (hkey : s.keyLen ≠ 0) (hseen : s.seenEndOfKey = false) (hvalue : s.valueLen = 0) :
    (rawHeaderLoop u.length s cs).keyLen = s.keyLen + (cs.takeWhile fun c => !isGap c).length ∧
      (rawHeaderLoop u.length s cs).value (u ++ cs) = (cs.dropWhile fun c => !isGap c).dropWhile isGap := by
  induction cs generalizing u s with
  | nil => exact ⟨rfl, by simp [rawHeaderLoop, RawHeader.value, hvalue]⟩
  | cons c cs ih =>
    have hstep : rawHeaderLoop u.length s (c :: cs) =
        if isGap c then rawHeaderLoop (u.length + 1) { s with seenEndOfKey := true } cs
        else rawHeaderLoop (u.length + 1) { s with keyLen := s.keyLen + 1 } cs := by
      simp [rawHeaderLoop, hkey, hseen, isGap]
    have hlen : u.length + 1 = (u ++ [c]).length := by simp
    have happ : u ++ c :: cs = u ++ [c] ++ cs := by simp
    rw [hstep, hlen, happ]
    by_cases hc : isGap c = true
    · obtain ⟨hk, hv⟩ := @loop_gap { s with seenEndOfKey := true } (u ++ [c]) cs hkey rfl hvalue
      rw [if_pos hc, hk, hv]
      simp [hc]
    · obtain ⟨hk, hv⟩ := ih (s := { s with keyLen := s.keyLen + 1 }) (u := u ++ [c]) (Nat.succ_ne_zero _) hseen hvalue
      rw [if_neg hc, hk, hv]
      refine ⟨?_, by simp [hc]⟩
      simp [hc]
      omega

theorem rawHeader_spec (raw : List UInt8) :
    (rawHeaderLoop 0 ⟨0, false, 0, 0⟩ raw).keyLen = (nameText raw).length ∧
      (rawHeaderLoop 0 ⟨0, false, 0, 0⟩ raw).value raw = valueText raw := by
  have hfront : ∀ u cs : List UInt8,
      (rawHeaderLoop u.length ⟨0, false, 0, 0⟩ cs).keyLen = (nameText cs).length ∧
        (rawHeaderLoop u.length ⟨0, false, 0, 0⟩ cs).value (u ++ cs) = valueText cs := by
    intro u cs
    induction cs generalizing u with
    | nil => exact ⟨rfl, by simp [rawHeaderLoop, RawHeader.value, valueText]⟩
    | cons c cs ih =>
      have hlen : u.length + 1 = (u ++ [c]).length := by simp
      have happ : u ++ c :: cs = u ++ [c] ++ cs := by simp
      rw [rawHeaderLoop, if_pos rfl, hlen, happ]
      by_cases hc : isSpace c = true
      · rw [if_pos hc, nameText, valueText, List.dropWhile_cons_of_pos hc]
        exact ih _
      · obtain ⟨hk, hv⟩ := @loop_key ⟨1, false, 0, 0⟩ (u ++ [c]) cs Nat.one_ne_zero rfl rfl
        rw [if_neg hc, hk, hv, nameText, valueText, List.dropWhile_cons_of_neg hc]
        exact ⟨by simp [Nat.add_comm], rfl⟩
  simpa using hfront [] raw

/-- The bytes at the front of the argument are the name. -/
theorem take_name_iff (hne : nameText raw ≠ []) :
    raw.take (nameText raw).length = nameText raw ↔ (raw.head?).any isSpace = false := by
  cases raw with
  | nil => exact absurd rfl hne
  | cons c cs =>
    rw [List.head?_cons, Option.any_some]
    cases hc : isSpace c with
    | false =>
      refine iff_of_true ?_ rfl
      have hname : nameText (c :: cs) = c :: cs.takeWhile fun c => !isGap c := by
        rw [nameText, List.dropWhile_cons_of_neg (by simp [hc])]
        rfl
      rw [hname, List.length_cons, List.take_succ_cons]
      exact congrArg _ (List.prefix_iff_eq_take.mp (List.takeWhile_prefix _)).symm
    | true =>
      refine iff_of_false (fun h => ?_) (by simp)
      -- the name does not begin with white space
      have hhead : (nameText (c :: cs)).head? = some c := by
        rw [← h]
        cases hlen : (nameText (c :: cs)).length with
        | zero => exact absurd (List.length_eq_zero_iff.mp hlen) hne
        | succ n => rfl
      have hdrop : ((c :: cs).dropWhile isSpace).head? = some c := by
        rw [nameText] at hhead
        cases hd : (c :: cs).dropWhile isSpace with
        | nil => simp [hd] at hhead
        | cons d ds => simpa [hd] using hhead
      have hnot := List.head?_dropWhile_not isSpace (c :: cs)
      rw [hdrop] at hnot
      simp [hc] at hnot

end Raw

section Stored
variable {υ : Type} {compile : List UInt8 → Option υ} {zero : υ} {hashKeyLc : List UInt8 → ℕ}
  {raw : List UInt8} {opcode : Opcode} {h : HeaderArg υ}

/-- The value that a header argument is stored with. -/
def Compiles (compile : List UInt8 → Option υ) (zero : υ) (opcode : Opcode) (raw : List UInt8) (v : υ) : Prop :=
  if opcode = .clear ∨ valueText raw = [] then v = zero else compile (valueText raw ++ [0]) = some v

theorem short_wildcard {key : List UInt8} : (key.getLast? = some 42 && key.length < 2) = true ↔ key = [42] := by
  rcases key with _ | ⟨c, _ | ⟨d, key⟩⟩
  · simp
  · simp
  · simp

/-- What is stored of a header argument: the bytes at its front, as many as the name has. -/
structure Stored (compile : List UInt8 → Option υ) (zero : υ) (hashKeyLc : List UInt8 → ℕ) (opcode : Opcode)
    (raw : List UInt8) (h : HeaderArg υ) : Prop where
  named : nameText raw ≠ []
  key : h.key = raw.take (nameText raw).length
  long : h.key ≠ [42]
  wildcard : h.wildcard = (h.key.getLast? = some 42 : Bool)
  hash : h.hash = hashKeyLc h.key
  value : Compiles compile zero opcode raw h.value

theorem parseHeader_iff : ngxHttpHeadersMoreParseHeader compile zero hashKeyLc raw opcode = .ok h ↔
    Stored compile zero hashKeyLc opcode raw h := by
  obtain ⟨v, hash, key, wildcard⟩ := h
  obtain ⟨hlen, hvalue⟩ := rawHeader_spec raw
  rw [RawHeader.value] at hvalue
  simp only [ngxHttpHeadersMoreParseHeader, hlen, hvalue, List.length_eq_zero_iff, short_wildcard]
  by_cases hname : nameText raw = []
  · rw [if_pos hname]
    exact iff_of_false (fun h => by cases h) fun h => h.named hname
  · rw [if_neg hname]
    by_cases hshort : raw.take (nameText raw).length = [42]
    · rw [if_pos hshort]
      exact iff_of_false (fun h => by cases h) fun h => h.long (h.key.trans hshort)
    · rw [if_neg hshort]
      have hempty : (if opcode = .clear then [] else valueText raw) = [] ↔
          opcode = .clear ∨ valueText raw = [] := by
        by_cases hc : opcode = .clear <;> simp [hc]
      simp only [hempty]
      by_cases hcompile : opcode = .clear ∨ valueText raw = []
      · have hvalue : ∀ v, Compiles compile zero opcode raw v ↔ v = zero := fun v => iff_of_eq (if_pos hcompile)
        rw [if_pos hcompile]
        constructor
        · intro h
          cases h
          exact ⟨hname, rfl, hshort, rfl, rfl, (hvalue _).mpr rfl⟩
        · rintro ⟨-, hkey, -, hw, hhash, hv⟩
          dsimp only at hkey hw hhash hv
          rw [hw, hhash, hkey, (hvalue v).mp hv]
      · have hvalue : ∀ v, Compiles compile zero opcode raw v ↔ compile (valueText raw ++ [0]) = some v :=
          fun v => iff_of_eq (if_neg hcompile)
        rw [if_neg hcompile, if_neg (not_or.mp hcompile).1]
        cases hv' : compile (valueText raw ++ [0]) with
        | none =>
          refine iff_of_false (fun h => by cases h) fun h => ?_
          cases hv'.symm.trans ((hvalue v).mp h.value)
        | some v' =>
          constructor
          · intro h
            cases h
            exact ⟨hname, rfl, hshort, rfl, rfl, (hvalue _).mpr hv'⟩
          · rintro ⟨-, hkey, -, hw, hhash, hv⟩
            dsimp only at hkey hw hhash hv
            rw [hw, hhash, hkey, ← Option.some.inj (hv'.symm.trans ((hvalue v).mp hv))]

end Stored

section Words
variable {β : Type} {step : Option β → UInt8 → Except ConfError β} {bad : UInt8 → Option ConfError}
  {read : List UInt8 → β} {elts : List β} {cs w : List UInt8}

/-- A loop over the words of a text refuses the first bad byte, or reads all words. -/
theorem wordLoop_words (hbad : ∀ last c e, bad c = some e → step last c = .error e)
    (hgood : ∀ (last : Option (List UInt8)) c, bad c = none →
      step (last.map read) c = .ok (read (last.getD [] ++ [c]))) (cs : List UInt8)
    (elts : List β) (last : Option (List UInt8))
    (hlast : ∀ w, last = some w → w ≠ [] ∧ ∀ b ∈ w, isSpace b = false) :
    wordLoop step elts (last.map read) cs =
      match cs.findSome? fun c => if isSpace c then none else bad c with
      | some e => .error e
      | none => .ok (elts ++ (words isSpace (last.getD [] ++ cs)).map read) := by
  have hdone : ∀ last : Option (List UInt8), (∀ w, last = some w → w ≠ [] ∧ ∀ b ∈ w, isSpace b = false) →
      (last.map read).toList = (words isSpace (last.getD [])).map read := by
    intro last hlast
    cases last with
    | none => rfl
    | some w => rw [Option.getD_some, words_solid (hlast w rfl).1 (hlast w rfl).2]; rfl
  induction cs generalizing elts last with
  | nil => rw [wordLoop, hdone last hlast, List.append_nil]; rfl
  | cons c cs ih =>
    rw [wordLoop, List.findSome?_cons]
    by_cases hc : isSpace c = true
    · have hrest := ih (elts ++ (last.map read).toList) none fun w h => absurd h.symm (Option.some_ne_none w)
      rw [if_pos hc, if_pos hc]
      refine hrest.trans ?_
      rw [hdone last hlast, words_append_cons hc, List.map_append, List.append_assoc]
      rfl
    · rw [if_neg hc, if_neg hc]
      cases hb : bad c with
      | some e => rw [hbad _ c e hb]
      | none =>
        rw [hgood last c hb]
        have hrest := ih elts (some (last.getD [] ++ [c])) fun w h => ?_
        · rw [Option.map_some, Option.getD_some, List.append_assoc, List.singleton_append] at hrest
          exact hrest
        · obtain rfl := Option.some.inj h
          refine ⟨by simp, fun b hb' => ?_⟩
          rcases List.mem_append.mp hb' with hmem | hmem
          · cases last with
            | none => exact absurd hmem List.not_mem_nil
            | some w => exact (hlast w rfl).2 b hmem
          · rw [List.mem_singleton.mp hmem]
            exact Bool.eq_false_iff.mpr hc

theorem parseTypes_eq (value : List UInt8) (types : List (List UInt8)) :
    ngxHttpHeadersMoreParseTypes value types = .ok (types ++ words isSpace value) := by
  have h := @wordLoop_words _ (fun t c => .ok (t.getD [] ++ [c])) (fun _ => none) id (fun last c e h => absurd h.symm (Option.some_ne_none e))
    (fun last c _ => by simp) value types none fun w h => absurd h.symm (Option.some_ne_none w)
  have hnone : (value.findSome? fun c => if isSpace c then none else (none : Option ConfError)) = none := by
    simp
  rw [hnone] at h
  rw [ngxHttpHeadersMoreParseTypes]
  simpa using h

/-- A status: its digits, in an `ngx_uint_t`. -/
def statusOf (w : List UInt8) : ℕ := digitsValue w % 2 ^ 64

theorem statusOf_concat (w : List UInt8) (c : UInt8) :
    (statusOf w * 10 + (c.toNat - 48)) % 2 ^ 64 = statusOf (w ++ [c]) := by
  rw [statusOf, statusOf, digitsValue, digitsValue, List.foldl_append, List.foldl_cons, List.foldl_nil]
  omega

/-- The statuses are the words of the argument, if there are only digits. -/
theorem parseStatuses_eq (value : List UInt8) (statuses : List ℕ) :
    ngxHttpHeadersMoreParseStatuses value statuses =
      match value.find? fun c => !isSpace c && !isDigit c with
      | some c => .error (.invalidDigit c value)
      | none => .ok (statuses ++ (words isSpace value).map statusOf) := by
  have hfind : ∀ cs : List UInt8, (cs.findSome? fun c => if isSpace c then none
      else if isDigit c then none else some (ConfError.invalidDigit c value)) =
      (cs.find? fun c => !isSpace c && !isDigit c).map fun c => .invalidDigit c value := by
    intro cs
    induction cs with
    | nil => rfl
    | cons c cs ih =>
      rw [List.findSome?_cons, List.find?_cons, ih]
      cases isSpace c <;> cases isDigit c <;> rfl
  have h := @wordLoop_words _ (fun s c => if isDigit c then .ok ((s.getD 0 * 10 + (c.toNat - 48)) % 2 ^ 64)
      else .error (.invalidDigit c value))
    (fun c => if isDigit c then none else some (.invalidDigit c value)) statusOf
    (fun last c e h => ?_) (fun last c hc => ?_) value statuses none
    fun w h => absurd h.symm (Option.some_ne_none w)
  · rw [hfind] at h
    rw [ngxHttpHeadersMoreParseStatuses]
    refine h.trans ?_
    cases value.find? fun c => !isSpace c && !isDigit c <;> rfl
  · split at h
    · exact absurd h.symm (Option.some_ne_none e)
    · next hd => rw [if_neg hd, Option.some.inj h]
  · split at hc
    · next hd =>
      rw [if_pos hd]
      cases last with
      | none => simp [statusOf, digitsValue]
      | some w => exact congrArg Except.ok (statusOf_concat w c)
    · cases hc

theorem parseStatuses_iff {value : List UInt8} {statuses l : List ℕ} :
    ngxHttpHeadersMoreParseStatuses value statuses = .ok l ↔
      (∀ c ∈ value, isSpace c = true ∨ isDigit c = true) ∧ l = statuses ++ (words isSpace value).map statusOf := by
  rw [parseStatuses_eq]
  have hnone : (value.find? fun c => !isSpace c && !isDigit c) = none ↔
      ∀ c ∈ value, isSpace c = true ∨ isDigit c = true := by
    simp [List.find?_eq_none, or_iff_not_imp_left]
  cases hfind : value.find? fun c => !isSpace c && !isDigit c with
  | none =>
    rw [hfind] at hnone
    rw [Except.ok.injEq, and_iff_right (hnone.mp rfl)]
    exact eq_comm
  | some c =>
    rw [hfind] at hnone
    refine iff_of_false (fun h => by cases h) fun h => ?_
    cases hnone.mpr h.1

end Words

end NginB.HeadersMore
