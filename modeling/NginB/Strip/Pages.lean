import Mathlib.Data.List.Chain
import NginB.Strip.Closings

/-! # Pages

A page as a list of words, gaps, tags, comments and preformatted elements, each of them well formed by
its fields. Stripping such a page tidies its gaps and the spaces in its tags, and does nothing else.
-/
namespace NginB.Strip
open NginB.Program NginB.Minify.Ascii
open NginB.Minify (lit isBlank)

/-- A byte of a name or of a value: neither a space nor a `>`. -/
def Plain (b : UInt8) : Prop := b ≠ space ∧ b ≠ gt

instance (b : UInt8) : Decidable (Plain b) := inferInstanceAs (Decidable (_ ∧ _))

inductive Value
  | plain (c : UInt8) (v : List UInt8) (hc : Plain c ∧ c ≠ dquote ∧ c ≠ squote) (hv : ∀ b ∈ v, Plain b)
  | quoted (q : UInt8) (v rest : List UInt8) (hq : q = dquote ∨ q = squote) (hv : q ∉ v)
      (hr : ∀ b ∈ rest, Plain b)

def Value.bytes : Value → List UInt8
  | .plain c v _ _ => c :: v
  | .quoted q v rest _ _ _ => q :: (v ++ (q :: rest))

structure Attribute where
  /-- the spaces in front of it, but for one -/
  spaces : ℕ
  first : UInt8
  name : List UInt8
  value : Option Value
  first_plain : Plain first
  name_plain : ∀ b ∈ name, Plain b ∧ b ≠ equals

namespace Attribute

def bytes (a : Attribute) : List UInt8 :=
  List.replicate (a.spaces + 1) space ++ (a.first :: a.name ++ (a.value.map fun v => equals :: v.bytes).getD [])

def tidy (a : Attribute) : Attribute := { a with spaces := 0 }

end Attribute

def preName : List (UInt8 → Bool) := [isLetter 112, isLetter 114, isLetter 101]

structure StartTag where
  first : UInt8
  name : List UInt8
  attributes : List Attribute
  /-- the spaces in front of the `>` -/
  spaces : ℕ
  first_alpha : isAlpha first = true
  name_plain : ∀ b ∈ name, Plain b
  not_pre : ¬ Matches preName (first :: name)

namespace StartTag

def bytes (t : StartTag) : List UInt8 :=
  lt :: (t.first :: t.name ++ (t.attributes.flatMap Attribute.bytes ++
    (List.replicate t.spaces space ++ [gt])))

def tidy (t : StartTag) : StartTag :=
  { t with attributes := t.attributes.map Attribute.tidy, spaces := min t.spaces 1 }

end StartTag

structure EndTag where
  /-- the spaces in front of the name -/
  spaces : ℕ
  first : UInt8
  name : List UInt8
  first_plain : Plain first
  name_open : gt ∉ name

namespace EndTag

def bytes (t : EndTag) : List UInt8 :=
  lit "</" ++ (List.replicate t.spaces space ++ (t.first :: t.name ++ [gt]))

def tidy (t : EndTag) : EndTag := { t with spaces := 0 }

end EndTag

theorem blank_replicate (k : ℕ) : ∀ b ∈ List.replicate k space, isBlank b = true := by
  intro b hb
  rw [List.eq_of_mem_replicate hb]
  rfl

inductive Node
  /-- bytes that are neither white space nor a `<` -/
  | word (w : List UInt8) (hne : w ≠ []) (hw : ∀ b ∈ w, isBlank b = false ∧ b ≠ lt)
  /-- white space -/
  | gap (g : List UInt8) (hg : ∀ b ∈ g, isBlank b = true)
  | start (t : StartTag)
  | close (t : EndTag)
  /-- `<!` and the bytes up to a `>`, no comment -/
  | declaration (c : UInt8) (w : List UInt8) (hc : c ≠ dash ∧ c ≠ gt) (hw : gt ∉ w)
  | comment (w : List UInt8) (hw : FirstMatch commentEnd w (lit "-->"))
      (hd : 3 ∣ (w.rtakeWhile (· = dash)).length)
  /-- a preformatted element with all its content -/
  | pre (o w e : List UInt8) (ho : Matches preStart o) (hw : FirstMatch preEnd w e)
      (hs : scan preEnd 0 w = 0)

namespace Node

def bytes : Node → List UInt8
  | word w _ _ => w
  | gap g _ => g
  | start t => t.bytes
  | close t => t.bytes
  | declaration c w _ _ => lit "<!" ++ (c :: w ++ [gt])
  | comment w _ _ => lit "<!--" ++ (w ++ lit "-->")
  | pre o w e _ _ _ => o ++ (w ++ e)

/-- A gap with a space in it becomes one space, and any other gap nothing. -/
def tidy : Node → Node
  | gap g _ => if space ∈ g then gap [space] (blank_replicate 1) else gap [] (blank_replicate 0)
  | start t => start t.tidy
  | close t => close t.tidy
  | n => n

def isGap : Node → Bool
  | gap _ _ => true
  | _ => false

end Node

/-- A list of nodes of which no two gaps are next to each other. -/
structure Page where
  nodes : List Node
  gaps : nodes.IsChain fun a b => ¬ (a.isGap = true ∧ b.isGap = true)

def Page.bytes (p : Page) : List UInt8 := p.nodes.flatMap Node.bytes

@[simp] theorem Node.tidy_isGap (n : Node) : n.tidy.isGap = n.isGap := by
  cases n with
  | gap g hg => rw [tidy]; split <;> rfl
  | _ => rfl

def Page.tidy (p : Page) : Page where
  nodes := p.nodes.map Node.tidy
  gaps := by
    rw [List.isChain_map]
    simpa using p.gaps

/-- The states in which a space ends a name or a value, and a `>` the tag. -/
def InTag (t : StripState) : Prop :=
  t ∈ [StripState.tagName, .tagNameP, .tagNamePr, .tagAttributeName, .tagAttributeValue]

section Readings
variable {s t r : StripState} {b c : UInt8} {w u : List UInt8} {q : UInt8 → Prop}

theorem reads_go (h : dispatch s b = .go t b) (hr : stripper.Reads t w r u) :
    stripper.Reads s (b :: w) r (b :: u) := by
  obtain ⟨hn, he⟩ := stripper_go h
  exact .cons hn he hr

theorem reads_loop (h : ∀ b, q b → dispatch s b = .go s b) (hw : ∀ b ∈ w, q b) :
    stripper.Reads s w s w :=
  .loop (fun b hb => stripper_go (h b hb)) hw

theorem reads_idle (h : ∀ b, q b → dispatch s b = .pass s b) (hw : ∀ b ∈ w, q b) :
    stripper.Reads s w s [] :=
  .idle (fun b hb => stripper_pass (h b hb)) hw

theorem eq_space {k : ℕ} : ∀ b ∈ List.replicate k space, b = space :=
  fun _ hb => List.eq_of_mem_replicate hb

end Readings

section Tags
variable {s t : StripState} {b c : UInt8} {w : List UInt8}

theorem InTag.on_space (h : InTag t) : dispatch t space = .go .tagWhitespace space := by
  simp only [InTag, List.mem_cons, List.not_mem_nil, or_false] at h
  rcases h with rfl | rfl | rfl | rfl | rfl <;> rfl

theorem InTag.on_gt (h : InTag t) : dispatch t gt = .go .text gt := by
  simp only [InTag, List.mem_cons, List.not_mem_nil, or_false] at h
  rcases h with rfl | rfl | rfl | rfl | rfl <;> rfl

theorem tagWhitespace_idle (k : ℕ) : stripper.Reads .tagWhitespace (List.replicate k space) .tagWhitespace [] :=
  reads_idle (q := (· = space)) (by rintro b rfl; rfl) eq_space

/-- Of the spaces behind a name or a value one is left. -/
theorem InTag.spaces (h : InTag t) (k : ℕ) :
    stripper.Reads t (List.replicate (k + 1) space) .tagWhitespace
      [space] :=
  reads_go h.on_space (tagWhitespace_idle k)

/-- The end of a tag, with the spaces in front of it. -/
theorem InTag.ends (h : InTag t) (k : ℕ) :
    stripper.Reads t (List.replicate k space ++ [gt]) .text
      (List.replicate (min k 1) space ++ [gt]) := by
  cases k with
  | zero => exact reads_go h.on_gt .nil
  | succ k =>
    rw [Nat.min_eq_right (Nat.le_add_left 1 k)]
    exact (h.spaces k).append (reads_go (t := .text) rfl .nil)

theorem tagAttributeValue_loop (hw : ∀ b ∈ w, Plain b) :
    stripper.Reads .tagAttributeValue w .tagAttributeValue w :=
  reads_loop (fun b hb => by rw [dispatch, if_neg hb.2, if_neg hb.1]) hw

theorem Value.reads (v : Value) : stripper.Reads .tagAttributeEquals v.bytes .tagAttributeValue v.bytes := by
  cases v with
  | plain c v hc hv =>
    refine reads_go ?_ (tagAttributeValue_loop hv)
    rw [dispatch, if_neg hc.2.1, if_neg hc.2.2]
  | quoted q v rest hq hv hr =>
    have hne : ∀ b ∈ v, b ≠ q := fun b hb he => hv (he ▸ hb)
    rcases hq with rfl | rfl
    · refine reads_go (t := .tagAttributeValueDoubleQuote) rfl
        (.append (t := .tagAttributeValueDoubleQuote) ?_ ?_)
      · exact reads_loop (fun b hb => by rw [dispatch, if_neg hb]) hne
      · exact reads_go (t := .tagAttributeValue) rfl (tagAttributeValue_loop hr)
    · refine reads_go (t := .tagAttributeValueSingleQuote) rfl
        (.append (t := .tagAttributeValueSingleQuote) ?_ ?_)
      · exact reads_loop (fun b hb => by rw [dispatch, if_neg hb]) hne
      · exact reads_go (t := .tagAttributeValue) rfl (tagAttributeValue_loop hr)

theorem Attribute.reads (a : Attribute) (h : InTag t) : ∃ r, InTag r ∧ stripper.Reads t a.bytes r a.tidy.bytes := by
  have hfirst : dispatch .tagWhitespace a.first = .go .tagAttributeName a.first := by
    rw [dispatch, if_neg a.first_plain.1, if_neg a.first_plain.2]
  have hname : stripper.Reads .tagAttributeName a.name .tagAttributeName a.name := by
    refine reads_loop (fun b hb => ?_) a.name_plain
    rw [dispatch, if_neg hb.2, if_neg hb.1.2, if_neg hb.1.1]
  have hfront := reads_go hfirst hname
  rw [Attribute.bytes, Attribute.bytes, Attribute.tidy]
  cases hv : a.value with
  | none =>
    refine ⟨.tagAttributeName, by simp [InTag], (h.spaces a.spaces).append ?_⟩
    simpa using hfront
  | some v =>
    refine ⟨.tagAttributeValue, by simp [InTag], (h.spaces a.spaces).append ?_⟩
    exact hfront.append (reads_go (t := .tagAttributeEquals) rfl v.reads)

theorem attributes_read (as : List Attribute) (h : InTag t) : ∃ r, InTag r ∧
    stripper.Reads t (as.flatMap Attribute.bytes) r ((as.map Attribute.tidy).flatMap Attribute.bytes) := by
  induction as generalizing t with
  | nil => exact ⟨t, h, .nil⟩
  | cons a as ih =>
    obtain ⟨r, hr, hread⟩ := a.reads h
    obtain ⟨r', hr', hrest⟩ := ih hr
    exact ⟨r', hr', hread.append hrest⟩

theorem tagName_loop (hw : ∀ b ∈ w, Plain b) : stripper.Reads .tagName w .tagName w :=
  reads_loop (fun b hb => by rw [dispatch, if_neg hb.2, if_neg hb.1]) hw

theorem dispatch_tag (h : isAlpha c = true) :
    dispatch .tag c = .go (if isLetter 112 c then .tagNameP else .tagName) c := by
  have hbang : c ≠ bang := by
    rintro rfl
    exact absurd h (by decide)
  have hslash : c ≠ slash := by
    rintro rfl
    exact absurd h (by decide)
  have hspace : c ≠ space := by
    rintro rfl
    exact absurd h (by decide)
  rw [dispatch, if_neg hbang, if_neg hslash, if_neg hspace, if_pos h]
  split <;> rfl

/-- What stands behind a `p` in a name, unless that is `pre`. -/
theorem reads_behind_p (hw : ∀ b ∈ w, Plain b)
    (hpre : ¬ Matches [isLetter 114, isLetter 101] w) : ∃ r, InTag r ∧ stripper.Reads .tagNameP w r w := by
  have hname : InTag .tagName := by simp [InTag]
  rcases w with _ | ⟨b, w⟩
  · exact ⟨.tagNameP, by simp [InTag], .nil⟩
  · rw [List.forall_mem_cons] at hw
    obtain ⟨⟨hspace, hgt⟩, hw⟩ := hw
    by_cases hb : isLetter 114 b = true
    · rcases w with _ | ⟨b', w⟩
      · exact ⟨.tagNamePr, by simp [InTag], reads_go (by rw [dispatch, if_pos hb]) .nil⟩
      · rw [List.forall_mem_cons] at hw
        obtain ⟨⟨hspace', hgt'⟩, hw⟩ := hw
        by_cases hb' : isLetter 101 b' = true
        · rcases w with _ | ⟨b'', w⟩
          · exact absurd (.cons hb (.cons hb' .nil)) hpre
          · rw [List.forall_mem_cons] at hw
            obtain ⟨⟨hspace'', hgt''⟩, hw⟩ := hw
            refine ⟨.tagName, hname, reads_go (t := .tagNamePr) (by rw [dispatch, if_pos hb])
              (reads_go (t := .tagNamePre) (by rw [dispatch, if_pos hb']) (reads_go ?_ (tagName_loop hw)))⟩
            rw [dispatch, if_neg (by simp only [not_or]; exact ⟨hspace'', hgt''⟩)]
        · refine ⟨.tagName, hname, reads_go (t := .tagNamePr) (by rw [dispatch, if_pos hb])
            (reads_go ?_ (tagName_loop hw))⟩
          rw [dispatch, if_neg hb', if_neg hspace', if_neg hgt']
    · refine ⟨.tagName, hname, reads_go ?_ (tagName_loop hw)⟩
      rw [dispatch, if_neg hb, if_neg hspace, if_neg hgt]

theorem StartTag.reads_name (t : StartTag) :
    ∃ r, InTag r ∧ stripper.Reads .tag (t.first :: t.name) r (t.first :: t.name) := by
  have hfirst := dispatch_tag t.first_alpha
  by_cases hp : isLetter 112 t.first = true
  · rw [if_pos hp] at hfirst
    obtain ⟨r, hr, hread⟩ := reads_behind_p t.name_plain fun h => t.not_pre (.cons hp h)
    exact ⟨r, hr, reads_go hfirst hread⟩
  · rw [if_neg hp] at hfirst
    exact ⟨.tagName, by simp [InTag], reads_go hfirst (tagName_loop t.name_plain)⟩

theorem StartTag.reads (t : StartTag) (h : InText s) : stripper.Reads s t.bytes .text t.tidy.bytes := by
  obtain ⟨hn, he⟩ := h.lt
  obtain ⟨r, hr, hname⟩ := t.reads_name
  obtain ⟨r', hr', has⟩ := attributes_read t.attributes hr
  exact .cons hn he (hname.append (has.append (hr'.ends t.spaces)))

theorem EndTag.reads (t : EndTag) (h : InText s) : stripper.Reads s t.bytes .text t.tidy.bytes := by
  obtain ⟨hn, he⟩ := h.lt
  have hspaces : stripper.Reads .endTag (List.replicate t.spaces space) .endTag [] :=
    reads_idle (q := (· = space)) (by rintro b rfl; rfl) eq_space
  have hfirst : dispatch .endTag t.first = .go .endTagName t.first := by
    rw [dispatch, if_neg t.first_plain.1]
  have hname : stripper.Reads .endTagName t.name .endTagName t.name :=
    reads_loop (q := (· ≠ gt)) (fun b hb => by rw [dispatch, if_neg hb])
      fun b hb he => t.name_open (he ▸ hb)
  have hend : stripper.Reads .endTagName [gt] .text [gt] := reads_go (t := .text) rfl .nil
  have hopen : stripper.Reads s (lit "</") .endTag (lit "</") :=
    .cons hn he (reads_go (t := .endTag) rfl .nil)
  exact hopen.append (hspaces.append ((reads_go hfirst hname).append hend))

end Tags

section Nodes
variable {s : StripState} {b : UInt8} {w g : List UInt8}

theorem reads_word (h : InText s) (hne : w ≠ []) (hw : ∀ b ∈ w, isBlank b = false ∧ b ≠ lt) :
    stripper.Reads s w .text w := by
  obtain ⟨b, w, rfl⟩ := List.exists_cons_of_ne_nil hne
  rw [List.forall_mem_cons] at hw
  obtain ⟨hn, he⟩ := h.solid hw.1.1 hw.1.2
  have hrest : stripper.Reads .text w .text w :=
    .loop (fun b hb => InText.solid (.inl rfl) hb.1 hb.2) hw.2
  exact .cons hn he hrest

theorem reads_gap (hg : ∀ b ∈ g, isBlank b = true) : ∃ t, InText t ∧
    stripper.Reads .text g t (if space ∈ g then [space] else []) := by
  induction g with
  | nil => exact ⟨.text, .inl rfl, .nil⟩
  | cons b g ih =>
    rw [List.forall_mem_cons] at hg
    by_cases hb : b = space
    · subst hb
      refine ⟨.textWhitespace, .inr rfl, ?_⟩
      rw [if_pos List.mem_cons_self]
      refine reads_go (t := .textWhitespace) rfl (reads_idle (fun b hb => ?_) hg.2)
      rw [isBlank_eq, Bool.or_eq_true, decide_eq_true_eq] at hb
      rw [dispatch, if_pos hb]
    · obtain ⟨t, ht, hread⟩ := ih hg.2
      have hbreak : isBreak b = true := by
        have hblank := hg.1
        rw [isBlank_eq, Bool.or_eq_true, decide_eq_true_eq] at hblank
        exact hblank.resolve_right hb
      obtain ⟨hn, he⟩ := stripper_pass (s := .text) (b := b) (by rw [dispatch, if_pos hbreak])
      refine ⟨t, ht, ?_⟩
      simp only [List.mem_cons, Ne.symm hb, false_or]
      exact .cons hn he hread

theorem Node.reads (n : Node) (h : InText s) (hgap : n.isGap = true → s = .text) : ∃ t,
    stripper.Reads s n.bytes t n.tidy.bytes ∧ InText t ∧ (n.isGap = false → t = .text) := by
  cases n with
  | word w hne hw => exact ⟨.text, reads_word h hne hw, .inl rfl, fun _ => rfl⟩
  | gap g hg =>
    obtain ⟨t, ht, hread⟩ := reads_gap hg
    refine ⟨t, ?_, ht, fun h => absurd h.symm Bool.false_ne_true⟩
    rw [hgap rfl]
    have hbytes : (Node.gap g hg).tidy.bytes = if space ∈ g then [space] else [] := by
      rw [Node.tidy]
      split <;> rfl
    rw [hbytes]
    exact hread
  | start t => exact ⟨.text, t.reads h, .inl rfl, fun _ => rfl⟩
  | close t => exact ⟨.text, t.reads h, .inl rfl, fun _ => rfl⟩
  | declaration c w hc hw =>
    refine ⟨.text, ?_, .inl rfl, fun _ => rfl⟩
    obtain ⟨hn, he⟩ := h.lt
    have hopen : stripper.Reads s (lit "<!") .tagBang (lit "<!") :=
      .cons hn he (reads_go (t := .tagBang) rfl .nil)
    have hbody : stripper.Reads .tagBangStuff w .tagBangStuff w :=
      reads_loop (q := (· ≠ gt)) (fun b hb => by rw [dispatch, if_neg hb]) fun b hb he => hw (he ▸ hb)
    have hfirst : dispatch .tagBang c = .go .tagBangStuff c := by rw [dispatch, if_neg hc.1]
    exact hopen.append ((reads_go hfirst hbody).append (reads_go (t := .text) rfl .nil))
  | comment w hw hd =>
    refine ⟨.text, ?_, .inl rfl, fun _ => rfl⟩
    obtain ⟨hopen, hopened⟩ := h.comment
    have hclear := hw.clear (by decide)
    obtain ⟨hend, hbody⟩ := commentState_follows.run_token (by decide) hclear
    rw [scan_comment_token (scan_lt hclear.of_append), scan_comment hclear.of_append,
      if_pos (Nat.dvd_iff_mod_eq_zero.mp hd)] at hend
    exact .append ⟨hopen, hopened⟩ ⟨hend, hbody⟩
  | pre o w e ho hw hs =>
    refine ⟨.text, ?_, .inl rfl, fun _ => rfl⟩
    obtain ⟨hopen, hopened⟩ := h.pre ho
    have hne : e ≠ [] := by
      rintro rfl
      exact absurd hw.token.length_eq (by decide)
    obtain ⟨hend, hbody⟩ := preState_follows.run_token hne (hw.clear hne)
    rw [scan_append, hs, scan_matches hw.token (List.prefix_refl _), ← hw.token.length_eq] at hend
    exact .append ⟨hopen, hopened⟩ ⟨hend, hbody⟩

end Nodes

end NginB.Strip
