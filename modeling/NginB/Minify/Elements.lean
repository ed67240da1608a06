import NginB.Minify.TagScan
import Mathlib.Algebra.Ring.Parity
import Mathlib.Data.List.DropRight

/-! # The elements whose content is kept

A page of text and tags, the element that is open behind each token by the name of its start tag,
and the tags at which the minifier finds another one.
-/
namespace NginB.Minify
open NginB.Program Ascii

def Delimits (b : UInt8) : Prop := b ∈ [gt, slash, space, tab, cr, lf]

instance (b : UInt8) : Decidable (Delimits b) := inferInstanceAs (Decidable (_ ∈ _))

structure Tag where
  name : List UInt8
  rest : List UInt8
  name_ne : name ≠ []
  name_plain : ∀ b ∈ name, ¬ Delimits b
  rest_open : gt ∉ rest
  rest_head : ∀ b ∈ rest.head?, Delimits b

def Tag.SelfClosed (t : Tag) : Prop := t.rest.getLast? = some slash

instance (t : Tag) : Decidable t.SelfClosed := inferInstanceAs (Decidable (_ = _))

inductive Token
  | text (w : List UInt8) (h : lt ∉ w)
  | start (t : Tag) (h : t.name.head? ≠ some bang)
  | close (t : Tag)

namespace Token

def bytes : Token → List UInt8
  | .text w _ => w
  | .start t _ => lt :: (t.name ++ t.rest ++ [gt])
  | .close t => lt :: slash :: (t.name ++ t.rest ++ [gt])

/-- The element that is open behind a token, if one is open before it. -/
def next : Option (List UInt8) → Token → Option (List UInt8)
  | none, .start t _ => if IsSkipTag t.name ∧ ¬ t.SelfClosed then some t.name else none
  | none, _ => none
  | some o, .close t => if t.name.map toLower = o.map toLower then none else some o
  | some o, _ => some o

end Token

def elementState (o : Option (List UInt8)) : MinifyState := if o.isSome then .htmlSkip else .text

/-- What is left behind the first `</` of some bytes, where a `<` is read with the byte behind it. -/
def endTagIn : List UInt8 → Option (List UInt8)
  | [] => none
  | b :: w =>
    if b = lt then
      match w with
      | [] => none
      | a :: w => if a = slash then some w else endTagIn w
    else endTagIn w

def unspaced (w : List UInt8) : List UInt8 := w.filter (· ≠ space)

theorem unspaced_space (w : List UInt8) : unspaced (space :: w) = unspaced w := List.filter_cons_of_neg (by simp)

theorem unspaced_cons {b : UInt8} (hb : b ≠ space) (w : List UInt8) : unspaced (b :: w) = b :: unspaced w :=
  List.filter_cons_of_pos (by simpa using hb)

namespace Token

/-- The start tag of an element has its name ended by a byte that the minifier takes for an end, and
by none that it takes for a part of a `/>` or misses one for. -/
def OpensRight (t : Tag) : Prop :=
  match t.rest with
  | [] => True
  | b :: r =>
    if b = space ∨ b = slash then t.SelfClosed → Odd (r.rtakeWhile (· = slash)).length
    else t.SelfClosed

/-- What the minifier finds behind a token is the element that is open there. -/
def Meets : Option (List UInt8) → Token → Prop
  | none, .start t _ => IsSkipTag t.name → OpensRight t
  | some o, .start t _ => ∀ e ∈ endTagIn (lt :: (t.name ++ t.rest)), unspaced e ≠ [] ∧ ¬ o <+: unspaced e
  | some o, .close t =>
    if t.name.map toLower = o.map toLower then t.name = o else ¬ o <+: unspaced (t.name ++ t.rest)
  | _, _ => True

end Token

section Scans
variable {s : TagScan} {n o e w : List UInt8}

theorem foldl_text (hs : s.mode = .text ∨ s.mode = .inside) (hw : lt ∉ w) : w.foldl readTag s = s := by
  induction w with
  | nil => rfl
  | cons b w ih =>
    obtain ⟨hb, hw⟩ := List.ne_and_not_mem_of_not_mem_cons hw
    have hread : readTag s b = s := by
      rcases hs with hs | hs <;> simp [readTag, hs, Ne.symm hb]
    rw [List.foldl_cons, hread]
    exact ih hw

theorem foldl_name (hw : ∀ b ∈ w, ¬ Delimits b) : w.foldl readTag ⟨.name, n, e⟩ = ⟨.name, n ++ w, e⟩ := by
  induction w generalizing n with
  | nil => rw [List.append_nil]; rfl
  | cons b w ih =>
    obtain ⟨hb, hw⟩ := List.forall_mem_cons.mp hw
    have hread : readTag ⟨.name, n, e⟩ b = ⟨.name, n ++ [b], e⟩ := by
      simp [Delimits] at hb
      simp [readTag, readName, hb]
    rw [List.foldl_cons, hread, ih hw, List.append_assoc]
    rfl

theorem foldl_opened_name (hne : w ≠ []) (hw : ∀ b ∈ w, ¬ Delimits b) (hbang : w.head? ≠ some bang) :
    (lt :: w).foldl readTag ⟨.text, n, e⟩ = ⟨.name, w, []⟩ := by
  have hopened : readTag ⟨.text, n, e⟩ lt = ⟨.opened, n, e⟩ := by simp [readTag]
  obtain ⟨b, v, rfl⟩ := List.exists_cons_of_ne_nil hne
  obtain ⟨hb, hv⟩ := List.forall_mem_cons.mp hw
  have hread : readTag ⟨.opened, n, e⟩ b = ⟨.name, [b], []⟩ := by
    simp [Delimits] at hb
    simp at hbang
    simp [readTag, readName, hb, hbang]
  rw [List.foldl_cons, hopened, List.foldl_cons, hread, foldl_name hv]
  rfl

/-- Slashes are read in pairs with the bytes behind them. -/
theorem foldl_attrs (hw : gt ∉ w) : w.foldl readTag ⟨.attrs, n, e⟩ =
    ⟨if Odd (w.rtakeWhile (· = slash)).length then .slash else .attrs, n, e⟩ := by
  induction w using List.reverseRecOn with
  | nil => rfl
  | append_singleton w b ih =>
    obtain ⟨hw, hb⟩ := List.forall_mem_append.mp fun c hc => (ne_of_mem_of_not_mem hc hw)
    have hgt : b ≠ gt := hb b List.mem_cons_self
    rw [List.foldl_append, ih fun h => hw gt h rfl, List.foldl_cons, List.foldl_nil]
    by_cases hslash : b = slash
    · subst hslash
      rw [List.rtakeWhile_concat_pos _ _ _ (by simp), List.length_append, List.length_singleton]
      by_cases hodd : Odd (w.rtakeWhile (· = slash)).length <;> simp [readTag, hodd, Nat.odd_add_one]
    · rw [List.rtakeWhile_concat_neg _ _ _ (by simpa using hslash)]
      split <;> simp [readTag, hgt, hslash]

/-- A tag whose name is not one of the names is left for the text. -/
theorem foldl_attrs_nil (hw : gt ∉ w) : (w ++ [gt]).foldl readTag ⟨.attrs, [], e⟩ = ⟨.text, [], e⟩ := by
  rw [List.foldl_append, foldl_attrs hw]
  split <;> simp [readTag]

/-- A name with white space in it is not one of the names. -/
theorem not_isSkipTag {b : UInt8} (hb : b ∈ [tab, cr, lf]) (hn : b ∈ n) : ¬ IsSkipTag n := by
  intro h
  have hplain : ∀ tag ∈ htmlSkipTag, ∀ b ∈ [tab, cr, lf], toLower b ∉ tag := by decide +kernel
  exact hplain _ h b hb (List.mem_map_of_mem hn)

theorem foldl_name_blank {b : UInt8} (hb : b ∈ [tab, cr, lf]) (hn : b ∈ n) (hw : gt ∉ w) :
    (w ++ [gt]).foldl readTag ⟨.name, n, e⟩ = ⟨.text, [], e⟩ := by
  induction w generalizing n with
  | nil => simp [readTag, readName, not_isSkipTag hb hn]
  | cons c w ih =>
    obtain ⟨hc, hw⟩ := List.ne_and_not_mem_of_not_mem_cons hw
    rw [List.cons_append, List.foldl_cons]
    by_cases hend : c = space ∨ c = slash
    · have hread : readTag ⟨.name, n, e⟩ c = ⟨.attrs, [], e⟩ := by
        simp [readTag, readName, Ne.symm hc, hend, not_isSkipTag hb hn]
      rw [hread]
      exact foldl_attrs_nil hw
    · have hread : readTag ⟨.name, n, e⟩ c = ⟨.name, n ++ [c], e⟩ := by
        simp [readTag, readName, Ne.symm hc, hend]
      rw [hread]
      exact ih (List.mem_append_left _ hn) hw

/-- An end tag leaves the element if what it has but spaces is nothing or begins with the name. -/
def endScan (o e : List UInt8) : TagScan :=
  if e = [] then ⟨.text, o, []⟩ else if o <+: e then ⟨.text, [], []⟩ else ⟨.inside, o, []⟩

theorem foldl_endName (ho : o ≠ []) (hw : gt ∉ w) :
    (w ++ [gt]).foldl readTag ⟨.endName, o, e⟩ = endScan o (e ++ unspaced w) := by
  induction w generalizing e with
  | nil => simp [readTag, readEndName, endScan, unspaced]
  | cons b w ih =>
    obtain ⟨hb, hw'⟩ := List.ne_and_not_mem_of_not_mem_cons hw
    rw [List.cons_append, List.foldl_cons]
    by_cases hspace : b = space
    · subst hspace
      have hread : readTag ⟨.endName, o, e⟩ space = ⟨.endName, o, e⟩ := by simp [readTag, readEndName]
      rw [hread, ih hw', unspaced_space]
    · have hread : readTag ⟨.endName, o, e⟩ b = ⟨.endName, o, e ++ [b]⟩ := by
        simp [readTag, readEndName, hspace, Ne.symm hb, ho]
      rw [hread, ih hw', unspaced_cons hspace, List.append_assoc]
      rfl

theorem foldl_endName_nil (hw : gt ∉ w) : (w ++ [gt]).foldl readTag ⟨.endName, [], []⟩ = ⟨.text, [], []⟩ := by
  induction w with
  | nil => simp [readTag, readEndName]
  | cons b w ih =>
    obtain ⟨hb, hw⟩ := List.ne_and_not_mem_of_not_mem_cons hw
    have hread : readTag ⟨.endName, [], []⟩ b = ⟨.endName, [], []⟩ := by
      simp [readTag, readEndName, Ne.symm hb]
    rw [List.cons_append, List.foldl_cons, hread]
    exact ih hw

/-- A start tag within an element is read as content, up to a `</` in it. -/
theorem foldl_inside (ho : o ≠ []) (hw : gt ∉ w) : (w ++ [gt]).foldl readTag ⟨.inside, o, []⟩ =
    match endTagIn w with
    | none => ⟨.inside, o, []⟩
    | some e => endScan o (unspaced e) := by
  fun_induction endTagIn w with
  | case1 => simp [readTag]
  | case2 => simp [readTag]
  | case3 w =>
    have hw' : gt ∉ w := fun h => hw (List.mem_cons_of_mem _ (List.mem_cons_of_mem _ h))
    have hend := foldl_endName (e := []) ho hw'
    simpa [readTag] using hend
  | case4 a w ha ih =>
    have hrest := ih fun h => hw (List.mem_cons_of_mem _ (List.mem_cons_of_mem _ h))
    simpa [readTag, ha] using hrest
  | case5 b w hb ih =>
    have hrest := ih fun h => hw (List.mem_cons_of_mem _ h)
    simpa [readTag, hb] using hrest

end Scans

/-- What a page comes to behind whose last token the element `o` is open. -/
def scanOf : Option (List UInt8) → TagScan
  | none => ⟨.text, [], []⟩
  | some o => ⟨.inside, o, []⟩

theorem scanOf_settles (o : Option (List UInt8)) : (scanOf o).mode.settles = some (elementState o) := by
  cases o <;> rfl

/-- What is read of a token: the state behind it is the one for its element if and only if the
token meets its condition, and then so are the names. -/
structure Token.Reads (o : Option (List UInt8)) (t : Token) (q : TagScan) : Prop where
  state : ∃ st, q.mode.settles = some st ∧ (st = elementState (t.next o) ↔ t.Meets o)
  scan : t.Meets o → q = scanOf (t.next o)

namespace Token
variable {o : Option (List UInt8)} {n e w : List UInt8} {t : Tag}

theorem reads_scanOf {t : Token} {p : Option (List UInt8)} (h : elementState p = elementState (t.next o) ↔ t.Meets o)
    (hp : t.Meets o → p = t.next o) : t.Reads o (scanOf p) where
  state := ⟨_, scanOf_settles p, h⟩
  scan hm := congrArg scanOf (hp hm)

/-- An odd number of slashes at the end is one at least. -/
theorem selfClosed_of_odd {b : UInt8} {r : List UInt8} (h : Odd (r.rtakeWhile (· = slash)).length) :
    (b :: r).getLast? = some slash := by
  rcases List.eq_nil_or_concat r with rfl | ⟨r, c, rfl⟩
  · exact absurd h (by simp)
  · by_cases hc : c = slash
    · rw [hc, List.concat_eq_append, ← List.cons_append, List.getLast?_concat]
    · rw [List.concat_eq_append, List.rtakeWhile_concat_neg _ _ _ (by simpa using hc)] at h
      exact absurd h (by simp)

theorem reads_start (h : t.name.head? ≠ some bang) :
    (Token.start t h).Reads none ((Token.start t h).bytes.foldl readTag (scanOf none)) := by
  have hopened : (lt :: t.name).foldl readTag (scanOf none) = ⟨.name, t.name, []⟩ :=
    foldl_opened_name t.name_ne t.name_plain h
  have hopen := t.rest_open
  have hhead := t.rest_head
  rw [Token.bytes, List.append_assoc, ← List.cons_append, List.foldl_append, hopened]
  rcases hrest : t.rest with _ | ⟨b, r⟩
  · have hscan : ([] ++ [gt]).foldl readTag ⟨.name, t.name, []⟩ =
        scanOf (if IsSkipTag t.name then some t.name else none) := by
      by_cases hskip : IsSkipTag t.name <;> simp [readTag, readName, hskip, scanOf]
    rw [hscan]
    apply reads_scanOf <;> simp [Token.next, Token.Meets, Token.OpensRight, Tag.SelfClosed, hrest]
  · rw [hrest] at hopen hhead
    obtain ⟨hgt, hr⟩ := List.ne_and_not_mem_of_not_mem_cons hopen
    rw [List.cons_append, List.foldl_cons]
    by_cases hb : b = space ∨ b = slash
    · have hread : readTag ⟨.name, t.name, []⟩ b = ⟨.attrs, if IsSkipTag t.name then t.name else [], []⟩ := by
        simp [readTag, readName, Ne.symm hgt, hb]
      rw [hread]
      by_cases hskip : IsSkipTag t.name
      · have hscan : (r ++ [gt]).foldl readTag ⟨.attrs, t.name, []⟩ =
            scanOf (if Odd (r.rtakeWhile (· = slash)).length then none else some t.name) := by
          rw [List.foldl_append, foldl_attrs hr]
          split <;> simp [readTag, scanOf, t.name_ne]
        rw [if_pos hskip, hscan]
        by_cases hodd : Odd (r.rtakeWhile (· = slash)).length
        · have hself : t.SelfClosed := by
            rw [Tag.SelfClosed, hrest]
            exact selfClosed_of_odd hodd
          rw [if_pos hodd]
          apply reads_scanOf <;> simp [Token.next, Token.Meets, Token.OpensRight, hrest, hb, hself, hodd]
        · rw [if_neg hodd]
          by_cases hself : t.SelfClosed <;> apply reads_scanOf <;>
            simp [Token.next, Token.Meets, Token.OpensRight, hrest, hb, hself, hodd, hskip, elementState]
      · rw [if_neg hskip, foldl_attrs_nil hr]
        apply reads_scanOf (p := none) <;> simp [Token.next, Token.Meets, hskip]
    · have hb' : b ∈ [tab, cr, lf] := by
        have hdelim := hhead b rfl
        simp only [Delimits, List.mem_cons, List.not_mem_nil, or_false] at hdelim ⊢
        tauto
      have hread : readTag ⟨.name, t.name, []⟩ b = ⟨.name, t.name ++ [b], []⟩ := by
        simp [readTag, readName, Ne.symm hgt, hb]
      rw [hread, foldl_name_blank hb' List.mem_concat_self hr]
      by_cases hskip : IsSkipTag t.name <;> by_cases hself : t.SelfClosed <;> apply reads_scanOf (p := none) <;>
        simp [Token.next, Token.Meets, Token.OpensRight, hrest, hb, hskip, hself, elementState]

theorem reads_text (h : lt ∉ w) : (Token.text w h).Reads o ((Token.text w h).bytes.foldl readTag (scanOf o)) := by
  have hmode : (scanOf o).mode = .text ∨ (scanOf o).mode = .inside := by
    cases o
    · exact .inl rfl
    · exact .inr rfl
  rw [Token.bytes, foldl_text hmode h]
  cases o <;> apply reads_scanOf <;> simp [Token.next, Token.Meets]

theorem Tag.open_bytes (t : Tag) : gt ∉ t.name ++ t.rest := by
  intro h
  rcases List.mem_append.mp h with h | h
  · exact t.name_plain gt h List.mem_cons_self
  · exact t.rest_open h

theorem unspaced_tag (t : Tag) : unspaced (t.name ++ t.rest) = t.name ++ unspaced t.rest := by
  have hname : unspaced t.name = t.name := by
    apply List.filter_eq_self.mpr
    intro b hb
    rw [decide_eq_true_iff]
    rintro rfl
    exact t.name_plain space hb (by simp [Delimits])
  rw [unspaced, List.filter_append]
  congr 1

theorem reads_close_none : (Token.close t).Reads none ((Token.close t).bytes.foldl readTag (scanOf none)) := by
  have hopened : readTag (readTag (scanOf none) lt) slash = ⟨.endName, [], []⟩ := by simp [readTag, scanOf]
  rw [Token.bytes, List.foldl_cons, List.foldl_cons, hopened, foldl_endName_nil (Tag.open_bytes t)]
  apply reads_scanOf (p := none) <;> simp [Token.next, Token.Meets]

/-- The end tag that an element is left at is one that begins with its name. -/
theorem endScan_eq {c : List UInt8} (he : e ≠ []) : endScan c e = scanOf (if c <+: e then none else some c) := by
  rw [endScan, if_neg he]
  split <;> rfl

theorem reads_close {c : List UInt8} (hc : c ≠ []) :
    (Token.close t).Reads (some c) ((Token.close t).bytes.foldl readTag (scanOf (some c))) := by
  have hopened : readTag (readTag (scanOf (some c)) lt) slash = ⟨.endName, c, []⟩ := by simp [readTag, scanOf]
  have hne : unspaced (t.name ++ t.rest) ≠ [] := by
    rw [unspaced_tag]
    exact List.append_ne_nil_of_left_ne_nil t.name_ne _
  rw [Token.bytes, List.foldl_cons, List.foldl_cons, hopened, foldl_endName hc (Tag.open_bytes t),
    List.nil_append, endScan_eq hne]
  by_cases hlower : t.name.map toLower = c.map toLower
  · have hpre : c <+: unspaced (t.name ++ t.rest) ↔ t.name = c := by
      have hlen : c.length = t.name.length := by
        have hlen := congrArg List.length hlower
        rw [List.length_map, List.length_map] at hlen
        exact hlen.symm
      rw [unspaced_tag]
      constructor
      · rintro ⟨v, hv⟩
        exact (List.append_inj_left hv hlen).symm
      · rintro rfl
        exact List.prefix_append _ _
    simp only [hpre]
    by_cases heq : t.name = c <;> apply reads_scanOf <;> simp [Token.next, Token.Meets, hlower, heq, elementState]
  · by_cases hpre : c <+: unspaced (t.name ++ t.rest) <;> apply reads_scanOf <;>
      simp [Token.next, Token.Meets, hlower, hpre, elementState]

theorem reads_start_inside {c : List UInt8} (hc : c ≠ []) (h : t.name.head? ≠ some bang) :
    (Token.start t h).Reads (some c) ((Token.start t h).bytes.foldl readTag (scanOf (some c))) := by
  have hopen : gt ∉ lt :: (t.name ++ t.rest) := by
    rw [List.mem_cons, not_or]
    exact ⟨by decide, Tag.open_bytes t⟩
  rw [Token.bytes, ← List.cons_append, scanOf, foldl_inside hc hopen]
  cases hend : endTagIn (lt :: (t.name ++ t.rest)) with
  | none => apply reads_scanOf (p := some c) <;> simp [Token.next, Token.Meets, hend]
  | some e =>
    by_cases he : unspaced e = []
    · have hnot : ¬ (Token.start t h).Meets (some c) := by simp [Token.Meets, hend, he]
      refine ⟨⟨.text, ?_, ?_⟩, fun hm => absurd hm hnot⟩
      · simp [endScan, he, TagMode.settles]
      · exact iff_of_false (by simp [elementState, Token.next]) hnot
    · simp only [endScan_eq he]
      by_cases hpre : c <+: unspaced e <;> apply reads_scanOf <;>
        simp [Token.next, Token.Meets, hend, he, hpre, elementState]

theorem reads (t : Token) (ho : ∀ n ∈ o, n ≠ []) : t.Reads o (t.bytes.foldl readTag (scanOf o)) := by
  cases o with
  | none =>
    cases t with
    | text w h => exact reads_text h
    | start t h => exact reads_start h
    | close t => exact reads_close_none
  | some c =>
    have hc := ho c rfl
    cases t with
    | text w h => exact reads_text h
    | start t h => exact reads_start_inside hc h
    | close t => exact reads_close hc

end Token

section Pages
variable {page ts us : List Token} {s : Session}

end Pages

def Tag.plain (name : List UInt8) (hne : name ≠ []) (h : ∀ b ∈ name, ¬ Delimits b) : Tag where
  name := name
  rest := []
  name_ne := hne
  name_plain := h
  rest_open := List.not_mem_nil
  rest_head := nofun

end NginB.Minify
