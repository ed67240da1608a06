import Mathlib.Data.List.Forall2
import NginB.HeadersMore.Arguments

/-! # Reading a directive

The arguments of a directive are read as items, one or two arguments each; an empty argument is none.
What is written as a line of the configuration is read as the command that it says.
-/
namespace NginB.HeadersMore
open NginB.Minify (lit)
open NginB.CacheInfo (isSpace)
open NginB.Lua (isDigit digitsValue decimal)
open NginB.Program (words words_append_cons words_solid)

inductive Item
  | header (raw : List UInt8)
  | types (value : List UInt8)
  | statuses (value : List UInt8)
  | replace
  deriving DecidableEq

def Item.raw : Item → Option (List UInt8)
  | header raw => some raw
  | types _ | statuses _ | replace => none

def Item.typeWords : Item → List (List UInt8)
  | types value => words isSpace value
  | header _ | statuses _ | replace => []

def Item.codes : Item → List ℕ
  | statuses value => (words isSpace value).map statusOf
  | header _ | types _ | replace => []

inductive Reads (options : UInt8 → Option Opt) : List (List UInt8) → List Item → Prop
  | nil : Reads options [] []
  | empty {args items} (h : Reads options args items) : Reads options ([] :: args) items
  | header {raw args items} (hne : raw ≠ []) (hdash : raw.head? ≠ some 45) (h : Reads options args items) :
      Reads options (raw :: args) (.header raw :: items)
  | types {c value args items} (hc : options c = some .types) (h : Reads options args items) :
      Reads options ([45, c] :: value :: args) (.types value :: items)
  | statuses {c value args items} (hc : options c = some .statuses) (h : Reads options args items) :
      Reads options ([45, c] :: value :: args) (.statuses value :: items)
  | replace {c args items} (hc : options c = some .replace) (h : Reads options args items) :
      Reads options ([45, c] :: args) (.replace :: items)

section Reads
variable {options : UInt8 → Option Opt} {args : List (List UInt8)} {items : List Item} {raw : List UInt8} {c : UInt8}

theorem reads_empty : Reads options ([] :: args) items ↔ Reads options args items := by
  constructor
  · intro h
    cases h with
    | empty h => exact h
    | header hne => exact absurd rfl hne
  · exact .empty

theorem reads_header (hne : raw ≠ []) (hdash : raw.head? ≠ some 45) :
    Reads options (raw :: args) items ↔ ∃ rest, items = .header raw :: rest ∧ Reads options args rest := by
  constructor
  · intro h
    cases h with
    | empty => exact absurd rfl hne
    | header _ _ h => exact ⟨_, rfl, h⟩
    | types | statuses | replace => exact absurd rfl hdash
  · rintro ⟨rest, rfl, h⟩
    exact .header hne hdash h

theorem reads_option : Reads options ([45, c] :: args) items ↔
    (options c = some .types ∧ ∃ value behind rest, args = value :: behind ∧ items = .types value :: rest ∧
      Reads options behind rest) ∨
    (options c = some .statuses ∧ ∃ value behind rest, args = value :: behind ∧
      items = .statuses value :: rest ∧ Reads options behind rest) ∨
    (options c = some .replace ∧ ∃ rest, items = .replace :: rest ∧ Reads options args rest) := by
  constructor
  · intro h
    cases h with
    | header _ hdash => exact absurd rfl hdash
    | types hc h => exact .inl ⟨hc, _, _, _, rfl, rfl, h⟩
    | statuses hc h => exact .inr (.inl ⟨hc, _, _, _, rfl, rfl, h⟩)
    | replace hc h => exact .inr (.inr ⟨hc, _, rfl, h⟩)
  · rintro (⟨hc, value, behind, rest, rfl, rfl, h⟩ | ⟨hc, value, behind, rest, rfl, rfl, h⟩ | ⟨hc, rest, rfl, h⟩)
    · exact .types hc h
    · exact .statuses hc h
    · exact .replace hc h

theorem not_reads (hdash : raw.head? = some 45) (hlen : raw.length ≠ 2) : ¬ Reads options (raw :: args) items := by
  intro h
  cases h with
  | empty => cases hdash
  | header _ hne => exact hne hdash
  | types | statuses | replace => exact hlen rfl

theorem Reads.unique {items' : List Item} (h : Reads options args items) (h' : Reads options args items') :
    items = items' := by
  induction h generalizing items' with
  | nil =>
    cases h'
    rfl
  | empty _ ih => exact ih (reads_empty.mp h')
  | header hne hdash _ ih =>
    obtain ⟨rest, rfl, hrest⟩ := (reads_header hne hdash).mp h'
    rw [ih hrest]
  | types hc _ ih =>
    obtain ⟨-, _, _, rest, hargs, rfl, hrest⟩ | ⟨hc', -⟩ | ⟨hc', -⟩ := reads_option.mp h'
    · obtain ⟨rfl, rfl⟩ := List.cons.inj hargs
      rw [ih hrest]
    · cases hc.symm.trans hc'
    · cases hc.symm.trans hc'
  | statuses hc _ ih =>
    obtain ⟨hc', -⟩ | ⟨-, _, _, rest, hargs, rfl, hrest⟩ | ⟨hc', -⟩ := reads_option.mp h'
    · cases hc.symm.trans hc'
    · obtain ⟨rfl, rfl⟩ := List.cons.inj hargs
      rw [ih hrest]
    · cases hc.symm.trans hc'
  | replace hc _ ih =>
    obtain ⟨hc', -⟩ | ⟨hc', -⟩ | ⟨-, rest, rfl, hrest⟩ := reads_option.mp h'
    · cases hc.symm.trans hc'
    · cases hc.symm.trans hc'
    · rw [ih hrest]

/-- A header that is read is one of the arguments. -/
theorem Reads.header_mem (h : Reads options args items) (hmem : .header raw ∈ items) : raw ∈ args := by
  induction h with
  | nil => cases hmem
  | empty h ih => exact List.mem_cons_of_mem _ (ih hmem)
  | header hne hdash h ih =>
    rcases List.mem_cons.mp hmem with heq | hmem
    · cases heq
      exact List.mem_cons_self
    · exact List.mem_cons_of_mem _ (ih hmem)
  | types hc h ih =>
    rcases List.mem_cons.mp hmem with heq | hmem
    · cases heq
    · exact List.mem_cons_of_mem _ (List.mem_cons_of_mem _ (ih hmem))
  | statuses hc h ih =>
    rcases List.mem_cons.mp hmem with heq | hmem
    · cases heq
    · exact List.mem_cons_of_mem _ (List.mem_cons_of_mem _ (ih hmem))
  | replace hc h ih =>
    rcases List.mem_cons.mp hmem with heq | hmem
    · cases heq
    · exact List.mem_cons_of_mem _ (ih hmem)

end Reads

section Gathered
variable {υ : Type} {options : UInt8 → Option Opt} {parseHeader : List UInt8 → Except ConfError (HeaderArg υ)}
  {a b : Args υ} {items : List Item} {item : Item} {args : List (List UInt8)} {arg : List UInt8}

structure Gathered (parseHeader : List UInt8 → Except ConfError (HeaderArg υ)) (a : Args υ)
    (items : List Item) (b : Args υ) : Prop where
  headers : ∃ hs, List.Forall₂ (fun raw h => parseHeader raw = .ok h) (items.filterMap Item.raw) hs ∧
    b.headers = a.headers ++ hs
  types : b.types = a.types ++ items.flatMap Item.typeWords
  statuses : b.statuses = a.statuses ++ items.flatMap Item.codes
  digits : ∀ value, .statuses value ∈ items → ∀ c ∈ value, isSpace c = true ∨ isDigit c = true
  replace : b.replace = (a.replace || decide (.replace ∈ items))

theorem gathered_nil : Gathered parseHeader a [] b ↔ a = b := by
  constructor
  · rintro ⟨⟨hs, hall, hh⟩, ht, hst, -, hr⟩
    cases hall
    obtain ⟨headers, types, statuses, replace⟩ := b
    simp at hh ht hst hr
    rw [hh, ht, hst, hr]
  · rintro rfl
    exact ⟨⟨[], .nil, by simp⟩, by simp, by simp, fun value h => absurd h List.not_mem_nil, by simp⟩

theorem gathered_header {raw : List UInt8} : Gathered parseHeader a (.header raw :: items) b ↔
    ∃ h, parseHeader raw = .ok h ∧ Gathered parseHeader { a with headers := a.headers ++ [h] } items b := by
  constructor
  · rintro ⟨⟨hs, hall, hh⟩, ht, hst, hd, hr⟩
    cases hall with
    | @cons _ h _ hs hone hrest =>
      refine ⟨h, hone, ⟨hs, hrest, by simpa using hh⟩, ht, hst, fun value hmem => hd value (List.mem_cons_of_mem _ hmem), ?_⟩
      simpa using hr
  · rintro ⟨h, hone, ⟨hs, hrest, hh⟩, ht, hst, hd, hr⟩
    refine ⟨⟨h :: hs, .cons hone hrest, by simpa using hh⟩, ht, hst, fun value hmem => hd value ?_, by simpa using hr⟩
    simpa using hmem

theorem gathered_types {value : List UInt8} : Gathered parseHeader a (.types value :: items) b ↔
    Gathered parseHeader { a with types := a.types ++ words isSpace value } items b := by
  constructor
  · rintro ⟨hh, ht, hst, hd, hr⟩
    refine ⟨hh, ?_, hst, fun value hmem => hd value (List.mem_cons_of_mem _ hmem), by simpa using hr⟩
    simpa [Item.typeWords] using ht
  · rintro ⟨hh, ht, hst, hd, hr⟩
    refine ⟨hh, ?_, hst, fun value hmem => hd value (by simpa using hmem), by simpa using hr⟩
    simpa [Item.typeWords] using ht

theorem gathered_statuses {value : List UInt8} : Gathered parseHeader a (.statuses value :: items) b ↔
    (∀ c ∈ value, isSpace c = true ∨ isDigit c = true) ∧
      Gathered parseHeader { a with statuses := a.statuses ++ (words isSpace value).map statusOf } items b := by
  constructor
  · rintro ⟨hh, ht, hst, hd, hr⟩
    refine ⟨hd value List.mem_cons_self, hh, ht, ?_, fun value hmem => hd value (List.mem_cons_of_mem _ hmem),
      by simpa using hr⟩
    simpa [Item.codes] using hst
  · rintro ⟨hv, hh, ht, hst, hd, hr⟩
    refine ⟨hh, ht, ?_, fun value hmem => ?_, by simpa using hr⟩
    · simpa [Item.codes] using hst
    · rcases List.mem_cons.mp hmem with he | hmem
      · cases he
        exact hv
      · exact hd value hmem

theorem gathered_replace : Gathered parseHeader a (.replace :: items) b ↔
    Gathered parseHeader { a with replace := true } items b := by
  constructor
  · rintro ⟨hh, ht, hst, hd, hr⟩
    exact ⟨hh, ht, hst, fun value hmem => hd value (List.mem_cons_of_mem _ hmem), by simpa using hr⟩
  · rintro ⟨hh, ht, hst, hd, hr⟩
    exact ⟨hh, ht, hst, fun value hmem => hd value (by simpa using hmem), by simpa using hr⟩

theorem argLoop_option {c : UInt8} (ih : ∀ {a : Args υ} (ignore : Bool),
    argLoop options parseHeader ignore a args = .ok b ↔
      ∃ items, Reads options (if ignore then args.tail else args) items ∧ Gathered parseHeader a items b) :
    argLoop options parseHeader false a ([45, c] :: args) = .ok b ↔
      ∃ items, Reads options ([45, c] :: args) items ∧ Gathered parseHeader a items b := by
  have hdash : ¬ ([45, c] : List UInt8).head? ≠ some 45 := not_not_intro rfl
  have hlen : ([45, c] : List UInt8).length = 2 := rfl
  rw [argLoop, if_neg Bool.false_ne_true, if_neg (List.cons_ne_nil _ _), if_neg hdash]
  simp only [reads_option, hlen, if_true, List.getD_cons_succ, List.getD_cons_zero]
  cases hc : options c with
  | none =>
    refine iff_of_false (fun h => by cases h) ?_
    simp
  | some o =>
    cases o with
    | types =>
      cases args with
      | nil =>
        refine iff_of_false (fun h => by cases h) ?_
        simp
      | cons value args =>
        simp only [List.head?_cons, parseTypes_eq, ih true, if_true, List.tail_cons, reduceCtorEq,
          Option.some.injEq, false_and, or_false, true_and]
        constructor
        · rintro ⟨rest, hreads, hb⟩
          exact ⟨_, ⟨value, args, rest, rfl, rfl, hreads⟩, gathered_types.mpr hb⟩
        · rintro ⟨_, ⟨_, _, rest, hargs, rfl, hreads⟩, hb⟩
          obtain ⟨rfl, rfl⟩ := List.cons.inj hargs
          exact ⟨rest, hreads, gathered_types.mp hb⟩
    | statuses =>
      cases args with
      | nil =>
        refine iff_of_false (fun h => by cases h) ?_
        simp
      | cons value args =>
        simp only [List.head?_cons, reduceCtorEq, Option.some.injEq, false_and, false_or, or_false, true_and]
        cases hstatuses : ngxHttpHeadersMoreParseStatuses value a.statuses with
        | error e =>
          refine iff_of_false (fun h => by cases h) ?_
          rintro ⟨_, ⟨_, _, rest, hargs, rfl, -⟩, hb⟩
          obtain ⟨rfl, rfl⟩ := List.cons.inj hargs
          cases hstatuses.symm.trans (parseStatuses_iff.mpr ⟨(gathered_statuses.mp hb).1, rfl⟩)
        | ok statuses =>
          obtain ⟨hdigits, rfl⟩ := parseStatuses_iff.mp hstatuses
          simp only [ih true, if_true, List.tail_cons]
          constructor
          · rintro ⟨rest, hreads, hb⟩
            exact ⟨_, ⟨value, args, rest, rfl, rfl, hreads⟩, gathered_statuses.mpr ⟨hdigits, hb⟩⟩
          · rintro ⟨_, ⟨_, _, rest, hargs, rfl, hreads⟩, hb⟩
            obtain ⟨rfl, rfl⟩ := List.cons.inj hargs
            exact ⟨rest, hreads, (gathered_statuses.mp hb).2⟩
    | replace =>
      simp only [ih false, reduceCtorEq, Option.some.injEq, false_and, false_or, true_and]
      constructor
      · rintro ⟨rest, hreads, hb⟩
        exact ⟨_, ⟨rest, rfl, hreads⟩, gathered_replace.mpr hb⟩
      · rintro ⟨_, ⟨rest, rfl, hreads⟩, hb⟩
        exact ⟨rest, hreads, gathered_replace.mp hb⟩

/-- The loop over the arguments accepts what can be read. -/
theorem argLoop_iff (ignore : Bool) : argLoop options parseHeader ignore a args = .ok b ↔
    ∃ items, Reads options (if ignore then args.tail else args) items ∧ Gathered parseHeader a items b := by
  induction args generalizing ignore a with
  | nil =>
    have hargs : (if ignore then ([] : List (List UInt8)).tail else []) = [] := by cases ignore <;> rfl
    rw [argLoop, hargs, Except.ok.injEq, ← (gathered_nil : Gathered parseHeader a [] b ↔ a = b)]
    constructor
    · intro h
      exact ⟨[], .nil, h⟩
    · rintro ⟨items, hreads, h⟩
      cases hreads
      exact h
  | cons arg args ih =>
    cases ignore with
    | true =>
      rw [argLoop, if_pos rfl]
      exact ih false
    | false =>
      rw [if_neg Bool.false_ne_true]
      by_cases hempty : arg = []
      · rw [argLoop, if_neg Bool.false_ne_true, if_pos hempty, ih false, hempty, if_neg Bool.false_ne_true]
        simp only [reads_empty]
      · by_cases hdash : arg.head? = some 45
        · by_cases hlen : arg.length = 2
          · obtain ⟨d, c, rfl⟩ := List.length_eq_two.mp hlen
            obtain rfl : d = 45 := Option.some.inj hdash
            exact argLoop_option ih
          · rw [argLoop, if_neg Bool.false_ne_true, if_neg hempty, if_neg (not_not_intro hdash), if_neg hlen]
            refine iff_of_false (fun h => by cases h) ?_
            rintro ⟨items, hreads, -⟩
            exact not_reads hdash hlen hreads
        · rw [argLoop, if_neg Bool.false_ne_true, if_neg hempty, if_pos hdash]
          simp only [reads_header hempty hdash]
          cases hone : parseHeader arg with
          | error e =>
            refine iff_of_false (fun h => by cases h) ?_
            rintro ⟨items, ⟨rest, rfl, -⟩, hb⟩
            obtain ⟨h, hh, -⟩ := gathered_header.mp hb
            cases hone.symm.trans hh
          | ok h =>
            rw [ih false]
            constructor
            · rintro ⟨rest, hreads, hb⟩
              exact ⟨_, ⟨rest, rfl, hreads⟩, gathered_header.mpr ⟨h, hone, hb⟩⟩
            · rintro ⟨items, ⟨rest, rfl, hreads⟩, hb⟩
              obtain ⟨h', hh, hb⟩ := gathered_header.mp hb
              obtain rfl := Except.ok.inj (hone.symm.trans hh)
              exact ⟨rest, hreads, hb⟩

end Gathered

section Directive
variable {υ : Type} {compile : List UInt8 → Option υ} {zero : υ} {hashKeyLc : List UInt8 → ℕ} {opcode : Opcode}
  {args : List (List UInt8)} {items : List Item} {cmd : Cmd υ}

structure Says (compile : List UInt8 → Option υ) (zero : υ) (hashKeyLc : List UInt8 → ℕ) (opcode : Opcode)
    (items : List Item) (cmd : Cmd υ) : Prop where
  headers : ∃ hs, List.Forall₂ (Stored compile zero hashKeyLc opcode) (items.filterMap Item.raw) hs ∧
    cmd.headers = orNull (hs.map HeaderArg.outputVal)
  types : cmd.types = orNull (items.flatMap Item.typeWords)
  statuses : cmd.statuses = orNull (items.flatMap Item.codes)
  digits : ∀ value, .statuses value ∈ items → ∀ c ∈ value, isSpace c = true ∨ isDigit c = true
  isInput : cmd.isInput = false

/-- A directive is accepted just when its arguments can be read, and every header has a key and every
status only digits; the command is then the one that its items say. -/
theorem directive_iff : ngxHttpHeadersMoreParseDirective compile zero hashKeyLc opcode args = .ok cmd ↔
    ∃ items, Reads outputOptions args items ∧ Says compile zero hashKeyLc opcode items cmd := by
  let parseHeader := fun raw => ngxHttpHeadersMoreParseHeader compile zero hashKeyLc raw opcode
  have hloop : ∀ a, argLoop outputOptions parseHeader false ⟨[], [], [], false⟩ args = .ok a ↔
      ∃ items, Reads outputOptions args items ∧ Gathered parseHeader ⟨[], [], [], false⟩ items a :=
    fun a => argLoop_iff false
  have hstored : ∀ {raws hs}, List.Forall₂ (fun raw h => parseHeader raw = .ok h) raws hs ↔
      List.Forall₂ (Stored compile zero hashKeyLc opcode) raws hs := by
    intro raws hs
    simp only [parseHeader, parseHeader_iff]
  rw [ngxHttpHeadersMoreParseDirective]
  constructor
  · intro h
    cases ha : argLoop outputOptions parseHeader false ⟨[], [], [], false⟩ args with
    | error e =>
      rw [ha] at h
      cases h
    | ok a =>
      rw [ha] at h
      cases h
      obtain ⟨items, hreads, ⟨hs, hall, hh⟩, ht, hst, hd, -⟩ := (hloop a).mp ha
      refine ⟨items, hreads, ⟨hs, hstored.mp hall, ?_⟩, ?_, ?_, hd, rfl⟩
      · rw [hh, List.nil_append]
      · rw [ht, List.nil_append]
      · rw [hst, List.nil_append]
  · rintro ⟨items, hreads, ⟨hs, hall, hh⟩, ht, hst, hd, hi⟩
    have ha := (hloop ⟨hs, items.flatMap Item.typeWords, items.flatMap Item.codes, decide (.replace ∈ items)⟩).mpr
      ⟨items, hreads, ⟨hs, hstored.mpr hall, rfl⟩, rfl, rfl, hd, rfl⟩
    obtain ⟨types, statuses, headers, isInput⟩ := cmd
    rw [ha]
    dsimp only at hh ht hst hi ⊢
    rw [hh, ht, hst, hi]

/-- The headers of an accepted directive have the keys that are written just when none of their arguments
begins with white space. -/
theorem keys_iff (hcmd : ngxHttpHeadersMoreParseDirective compile zero hashKeyLc opcode args = .ok cmd)
    (hreads : Reads outputOptions args items) :
    (cmd.headers.getD []).map HeaderVal.key = (items.filterMap Item.raw).map nameText ↔
      ∀ raw ∈ items.filterMap Item.raw, (raw.head?).any isSpace = false := by
  obtain ⟨items', hreads', ⟨hs, hall, hh⟩, -⟩ := directive_iff.mp hcmd
  obtain rfl := hreads.unique hreads'
  have hkeys : (cmd.headers.getD []).map HeaderVal.key = hs.map HeaderArg.key := by
    rw [hh, orNull]
    split
    · next hnil =>
      rw [List.length_map] at hnil
      rw [List.length_eq_zero_iff.mp hnil]
      rfl
    · rw [Option.getD_some, List.map_map]
      rfl
  rw [hkeys]
  clear hkeys hh hreads hreads' hcmd
  generalize items.filterMap Item.raw = raws at hall
  induction hall with
  | nil => simp
  | @cons raw h raws hs hone _ ih =>
    rw [List.map_cons, List.map_cons, List.cons.injEq, List.forall_mem_cons, hone.key]
    exact and_congr (take_name_iff hone.named) ih

end Directive

structure Word where
  bytes : List UInt8
  ne : bytes ≠ []
  solid : ∀ b ∈ bytes, isSpace b = false

/-- A header that is written as `name: value`. -/
structure Written where
  name : List UInt8
  value : List UInt8
  ne : name ≠ []
  dash : name.head? ≠ some 45
  long : name ≠ [42]
  solid : ∀ b ∈ name, isGap b = false
  starts : (value.head?).any isGap = false

def Written.raw (w : Written) : List UInt8 := w.name ++ 58 :: 32 :: w.value

structure Line where
  headers : List Written
  types : List Word
  statuses : List ℕ
  fits : ∀ s ∈ statuses, s < 2 ^ 64

def spaced (ws : List (List UInt8)) : List UInt8 := [32].intercalate ws

def Line.args (l : Line) : List (List UInt8) :=
  (if l.types = [] then [] else [[45, 116], spaced (l.types.map Word.bytes)]) ++
    ((if l.statuses = [] then [] else [[45, 115], spaced (l.statuses.map decimal)]) ++ l.headers.map Written.raw)

def Line.items (l : Line) : List Item :=
  (if l.types = [] then [] else [.types (spaced (l.types.map Word.bytes))]) ++
    ((if l.statuses = [] then [] else [.statuses (spaced (l.statuses.map decimal))]) ++
      l.headers.map fun w => .header w.raw)

section Lines
variable {υ : Type} {compile : List UInt8 → Option υ} {zero : υ} {hashKeyLc : List UInt8 → ℕ}

theorem words_spaced {ws : List (List UInt8)} (h : ∀ w ∈ ws, w ≠ [] ∧ ∀ b ∈ w, isSpace b = false) :
    words isSpace (spaced ws) = ws := by
  induction ws with
  | nil => rfl
  | cons w ws ih =>
    obtain ⟨⟨hne, hw⟩, hrest⟩ := List.forall_mem_cons.mp h
    cases ws with
    | nil => rw [spaced, List.intercalate_singleton, words_solid hne hw]
    | cons v ws =>
      have hspace : isSpace 32 = true := by decide
      rw [spaced, List.intercalate_cons_cons, List.append_assoc, List.singleton_append, words_append_cons hspace,
        words_solid hne hw]
      exact congrArg _ (ih hrest)

theorem raw_split (w : Written) : w.raw.dropWhile isSpace = w.raw ∧ nameText w.raw = w.name ∧
    valueText w.raw = w.value := by
  obtain ⟨c, name, hname⟩ := List.exists_cons_of_ne_nil w.ne
  have hsolid := w.solid
  rw [hname, List.forall_mem_cons] at hsolid
  obtain ⟨hc, hsolid⟩ := hsolid
  have hspace : isSpace c = false := (Bool.or_eq_false_iff.mp hc).2
  have hraw : w.raw = c :: (name ++ 58 :: 32 :: w.value) := by rw [Written.raw, hname, List.cons_append]
  have hdrop : w.raw.dropWhile isSpace = w.raw := by
    rw [hraw, List.dropWhile_cons_of_neg (by simp [hspace])]
  have hcolon : isGap 58 = true := by decide
  have hblank : isGap 32 = true := by decide
  have hnot : ∀ b ∈ name, (!isGap b) = true := fun b hb => by rw [hsolid b hb]; rfl
  refine ⟨hdrop, ?_, ?_⟩
  · rw [nameText, hdrop, hraw, hname, List.take_succ_cons, List.take_zero, List.tail_cons,
      List.takeWhile_append_of_pos hnot, List.takeWhile_cons_of_neg (by simp [hcolon]), List.append_nil]
    rfl
  · rw [valueText, hdrop, hraw, List.tail_cons, List.dropWhile_append_of_pos hnot,
      List.dropWhile_cons_of_neg (by simp [hcolon]), List.dropWhile_cons_of_pos hcolon,
      List.dropWhile_cons_of_pos hblank]
    have hstarts := w.starts
    cases hv : w.value with
    | nil => rfl
    | cons d value =>
      rw [hv] at hstarts
      have hd : isGap d = false := hstarts
      rw [List.dropWhile_cons_of_neg (by simp [hd])]

theorem raw_reads (w : Written) : w.raw ≠ [] ∧ w.raw.head? ≠ some 45 ∧
    w.raw.take (nameText w.raw).length = w.name := by
  refine ⟨by simp [Written.raw, w.ne], ?_, ?_⟩
  · rw [Written.raw, List.head?_append_of_ne_nil _ w.ne]
    exact w.dash
  · rw [(raw_split w).2.1, Written.raw, List.take_left]

theorem line_reads (l : Line) : Reads outputOptions l.args l.items := by
  have hheaders : Reads outputOptions (l.headers.map Written.raw) (l.headers.map fun w => .header w.raw) := by
    induction l.headers with
    | nil => exact .nil
    | cons w ws ih => exact .header (raw_reads w).1 (raw_reads w).2.1 ih
  have hstatuses : Reads outputOptions
      ((if l.statuses = [] then [] else [[45, 115], spaced (l.statuses.map decimal)]) ++ l.headers.map Written.raw)
      ((if l.statuses = [] then [] else [.statuses (spaced (l.statuses.map decimal))]) ++
        l.headers.map fun w => .header w.raw) := by
    by_cases hs : l.statuses = []
    · rw [if_pos hs, if_pos hs]
      exact hheaders
    · rw [if_neg hs, if_neg hs]
      exact .statuses (by decide) hheaders
  rw [Line.args, Line.items]
  by_cases ht : l.types = []
  · rw [if_pos ht, if_pos ht]
    exact hstatuses
  · rw [if_neg ht, if_neg ht]
    exact .types (by decide) hstatuses

theorem items_raw (l : Line) : l.items.filterMap Item.raw = l.headers.map Written.raw := by
  have hheaders : (l.headers.map fun w => Item.header w.raw).filterMap Item.raw = l.headers.map Written.raw := by
    rw [List.filterMap_map, ← List.filterMap_eq_map]
    rfl
  have htypes : ∀ value, [Item.types value].filterMap Item.raw = [] := fun _ => rfl
  have hstatuses : ∀ value, [Item.statuses value].filterMap Item.raw = [] := fun _ => rfl
  rw [Line.items, List.filterMap_append, List.filterMap_append, hheaders]
  by_cases ht : l.types = [] <;> by_cases hs : l.statuses = [] <;> simp [ht, hs, htypes, hstatuses]

theorem items_types (l : Line) : l.items.flatMap Item.typeWords = l.types.map Word.bytes := by
  have hheaders : (l.headers.map fun w => Item.header w.raw).flatMap Item.typeWords = [] := by
    simp [Item.typeWords]
  have hwords : words isSpace (spaced (l.types.map Word.bytes)) = l.types.map Word.bytes := by
    refine words_spaced fun w hw => ?_
    obtain ⟨t, -, rfl⟩ := List.mem_map.mp hw
    exact ⟨t.ne, t.solid⟩
  rw [Line.items, List.flatMap_append, List.flatMap_append, hheaders, List.append_nil]
  by_cases ht : l.types = [] <;> by_cases hs : l.statuses = [] <;> simp_all [Item.typeWords]

theorem isSpace_of_isDigit {b : UInt8} (h : isDigit b = true) : isSpace b = false := by
  simp [isDigit, isSpace, UInt8.le_iff_toNat_le, ← UInt8.toNat_inj] at h ⊢
  omega

theorem statusOf_decimal {n : ℕ} (h : n < 2 ^ 64) : statusOf (decimal n) = n := by
  rw [statusOf, NginB.Lua.digitsValue_decimal, Nat.mod_eq_of_lt h]

theorem items_codes (l : Line) : l.items.flatMap Item.codes = l.statuses := by
  have hheaders : (l.headers.map fun w => Item.header w.raw).flatMap Item.codes = [] := by
    simp [Item.codes]
  have hwords : words isSpace (spaced (l.statuses.map decimal)) = l.statuses.map decimal := by
    refine words_spaced fun w hw => ?_
    obtain ⟨n, -, rfl⟩ := List.mem_map.mp hw
    exact ⟨NginB.Lua.decimal_ne_nil n, fun b hb => isSpace_of_isDigit (NginB.Lua.isDigit_decimal hb)⟩
  have hcodes : (l.statuses.map decimal).map statusOf = l.statuses := by
    rw [List.map_map]
    refine (List.map_congr_left fun n hn => ?_).trans (List.map_id _)
    exact statusOf_decimal (l.fits n hn)
  rw [Line.items, List.flatMap_append, List.flatMap_append, hheaders, List.append_nil]
  by_cases ht : l.types = [] <;> by_cases hs : l.statuses = [] <;> simp_all [Item.codes]

theorem mem_spaced {ws : List (List UInt8)} {c : UInt8} (h : c ∈ spaced ws) : c = 32 ∨ ∃ w ∈ ws, c ∈ w := by
  induction ws with
  | nil => cases h
  | cons w ws ih =>
    cases ws with
    | nil =>
      rw [spaced, List.intercalate_singleton] at h
      exact .inr ⟨w, List.mem_cons_self, h⟩
    | cons v ws =>
      rw [spaced, List.intercalate_cons_cons, List.mem_append, List.mem_append, List.mem_singleton] at h
      rcases h with (hw | rfl) | h
      · exact .inr ⟨w, List.mem_cons_self, hw⟩
      · exact .inl rfl
      · rcases ih h with rfl | ⟨u, hu, hc⟩
        · exact .inl rfl
        · exact .inr ⟨u, List.mem_cons_of_mem w hu, hc⟩

theorem items_digits (l : Line) : ∀ value, .statuses value ∈ l.items → ∀ c ∈ value,
    isSpace c = true ∨ isDigit c = true := by
  intro value hmem c hc
  have hvalue : value = spaced (l.statuses.map decimal) := by
    rw [Line.items, List.mem_append, List.mem_append] at hmem
    rcases hmem with hmem | hmem | hmem
    · split at hmem <;> simp at hmem
    · split at hmem
      · cases hmem
      · simpa using hmem
    · simp at hmem
  subst hvalue
  rcases mem_spaced hc with rfl | ⟨w, hw, hc⟩
  · exact .inl (by decide)
  · obtain ⟨n, -, rfl⟩ := List.mem_map.mp hw
    exact .inr (NginB.Lua.isDigit_decimal hc)

def Written.arg (hashKeyLc : List UInt8 → ℕ) (v : υ) (w : Written) : HeaderArg υ :=
  ⟨v, hashKeyLc w.name, w.name, w.name.getLast? = some 42⟩

/-- A line of the configuration is read as it is written. -/
theorem line_read (l : Line) (compiled : List UInt8 → υ)
    (hcompile : ∀ w ∈ l.headers, w.value ≠ [] → compile (w.value ++ [0]) = some (compiled w.value)) :
    ngxHttpHeadersMoreSetHeaders compile zero hashKeyLc l.args = .ok
      ⟨orNull (l.types.map Word.bytes), orNull l.statuses,
        orNull (l.headers.map fun w =>
          (w.arg hashKeyLc (if w.value = [] then zero else compiled w.value)).outputVal), false⟩ := by
  refine directive_iff.mpr ⟨l.items, line_reads l, ⟨?_, by rw [items_types], by rw [items_codes],
    items_digits l, rfl⟩⟩
  refine ⟨l.headers.map fun w => w.arg hashKeyLc (if w.value = [] then zero else compiled w.value), ?_,
    by rw [List.map_map]; rfl⟩
  rw [items_raw, List.forall₂_map_left_iff, List.forall₂_map_right_iff, List.forall₂_same]
  intro w hw
  obtain ⟨-, hname, hvalue⟩ := raw_split w
  refine ⟨by rw [hname]; exact w.ne, (raw_reads w).2.2.symm, w.long, rfl, rfl, ?_⟩
  rw [Compiles, hvalue]
  by_cases hv : w.value = []
  · rw [if_pos (.inr hv)]
    exact if_pos hv
  · rw [if_neg (by simp [hv]), hcompile w hw hv]
    exact congrArg some (if_neg hv).symm

end Lines

theorem textHtml_solid : ∀ b ∈ lit "text/html", isSpace b = false := by decide +kernel

theorem xFoo_solid : ∀ b ∈ lit "X-Foo", isGap b = false := by decide +kernel

theorem xFoo_dash : (lit "X-Foo").head? ≠ some 45 := by decide

theorem xFoo_long : lit "X-Foo" ≠ [42] := by decide

theorem a_starts : ((lit "a").head?).any isGap = false := by decide

theorem notFound_fits : ∀ s ∈ [404, 500], s < 2 ^ 64 := by decide

/-- `-t text/html -s '404 500' 'X-Foo: a'`. -/
def oneLine : Line where
  headers := [⟨lit "X-Foo", lit "a", List.cons_ne_nil _ _, xFoo_dash, xFoo_long, xFoo_solid, a_starts⟩]
  types := [⟨lit "text/html", List.cons_ne_nil _ _, textHtml_solid⟩]
  statuses := [404, 500]
  fits := notFound_fits

theorem line_read_oneLine : ngxHttpHeadersMoreSetHeaders some [] (fun _ => 1) oneLine.args = .ok
    ⟨some [lit "text/html"], some [404, 500],
      some [⟨[97, 0], 1, lit "X-Foo", .header, none, false⟩], false⟩ := by
  refine (line_read oneLine (fun v => v ++ [0]) fun _ _ _ => rfl).trans ?_
  rfl

/-- ` X-Foo: a`. -/
def spaceCmd : Cmd (List UInt8) := ⟨none, none, some [⟨[97, 0], 1, lit " X-Fo", .header, none, false⟩], false⟩

/-- The space is stored, and the last letter of the name is not. -/
theorem keys_iff_space : ngxHttpHeadersMoreSetHeaders some [] (fun _ => 1) [lit " X-Foo: a"] = .ok spaceCmd ∧
    (spaceCmd.headers.getD []).map HeaderVal.key ≠ [lit " X-Foo: a"].map nameText := by
  have hcmd : ngxHttpHeadersMoreParseDirective some [] (fun _ => 1) .set [lit " X-Foo: a"] = .ok spaceCmd := rfl
  have hreads : Reads outputOptions [lit " X-Foo: a"] [.header (lit " X-Foo: a")] :=
    .header (List.cons_ne_nil _ _) (by decide) .nil
  refine ⟨hcmd, fun h => ?_⟩
  exact absurd ((keys_iff hcmd hreads).mp h _ (List.mem_singleton_self _)) (by decide)

end NginB.HeadersMore
