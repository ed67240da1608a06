import NginB.Minify.Content
import NginB.Minify.Passage

/-! # Reading tags byte by byte

In a page without `<!` the state of the minifier and its tag-name caches are a function of the
bytes it has read. A byte that an iteration looks at ahead of what it reads makes the state change
before that byte is read.
-/
namespace NginB.Minify
open NginB.Program Relation Ascii

/-- What the last bytes read belong to; `bang` is for all behind a `<!`. -/
inductive TagMode
  | text | inside | opened | insideOpened | name | attrs | slash | endName | bang
  deriving DecidableEq

/-- What the page comes to; `name` is that of the start tag or of the element. -/
structure TagScan where
  mode : TagMode
  name : List UInt8
  endName : List UInt8
  deriving DecidableEq

/-- The name is one of `html_skip_tag`, in any letter case. -/
def IsSkipTag (name : List UInt8) : Prop := name.map toLower ∈ htmlSkipTag

instance (name : List UInt8) : Decidable (IsSkipTag name) := inferInstanceAs (Decidable (_ ∈ _))

def readName (name endName : List UInt8) (b : UInt8) : TagScan :=
  if b = gt then (if IsSkipTag name then ⟨.inside, name, endName⟩ else ⟨.text, [], endName⟩)
  else if b = space ∨ b = slash then ⟨.attrs, if IsSkipTag name then name else [], endName⟩
  else ⟨.name, name ++ [b], endName⟩

def readEndName (name endName : List UInt8) (b : UInt8) : TagScan :=
  if b = space then ⟨.endName, name, endName⟩
  else if b = gt then
    if endName = [] then ⟨.text, name, []⟩
    else if name <+: endName then ⟨.text, [], []⟩
    else ⟨.inside, name, []⟩
  else ⟨.endName, name, if name = [] then endName else endName ++ [b]⟩

def readTag (s : TagScan) (b : UInt8) : TagScan :=
  match s.mode with
  | .text => if b = lt then { s with mode := .opened } else s
  | .inside => if b = lt then { s with mode := .insideOpened } else s
  | .opened =>
    if b = bang then { s with mode := .bang }
    else if b = space then s
    else if b = slash then { s with mode := .endName }
    else readName [] [] b
  | .insideOpened => { s with mode := if b = slash then .endName else .inside }
  | .name => readName s.name s.endName b
  | .attrs =>
    if b = gt then { s with mode := if s.name = [] then .text else .inside }
    else if b = slash then { s with mode := .slash }
    else s
  | .slash => if b = gt then ⟨.text, [], s.endName⟩ else { s with mode := .attrs }
  | .endName => readEndName s.name s.endName b
  | .bang => s

def scanTags (page : List UInt8) : TagScan := page.foldl readTag ⟨.text, [], []⟩

/-- The state that the minifier goes on in, where it does not depend on the bytes ahead. -/
def TagMode.settles : TagMode → Option MinifyState
  | .text => some .text
  | .inside => some .htmlSkip
  | _ => none

namespace TagScan

def SameNames (s : TagScan) (x : Ctx) : Prop := x.tagcache.name = s.name ∧ x.tagendcache.name = s.endName

def Follows (s : TagScan) (x : Ctx) (u : List UInt8) : Prop :=
  match x.state.top with
  | .text => s.SameNames x ∧ (s.mode = .text ∨ s.mode = .inside ∧ lit "</" <+: u)
  | .htmlSkip => s.SameNames x ∧ s.mode = .inside
  | .htmlTag => s.SameNames x ∧ (s.mode = .opened ∨ s.mode = .insideOpened ∧ [slash] <+: u)
  | .htmlTagname => s.SameNames x ∧ s.mode = .name ∨
      s.mode = .opened ∧ TagScan.SameNames ⟨.name, [], []⟩ x ∧ u.head? ∉ [none, some space, some slash]
  | .htmlTagatt => s.SameNames x ∧ s.mode = .attrs ∨
      s.mode = .slash ∧ TagScan.SameNames ⟨.slash, [], s.endName⟩ x ∧ [gt] <+: u
  | .htmlTagnameEnd => s.SameNames x ∧ s.mode = .endName
  | .htmlTagBang | .htmlComment => s.mode = .text ∧ lit "<!" <+: u
  | .htmlCommentIe | .abort => s.mode = .text ∧ lit "<!" <+: u ∨ s.mode = .opened ∧ [bang] <+: u
  | _ => False

end TagScan

section Names
variable {t u : NameCache}

theorem Ctx.Named.nul_of {x : Ctx} (h : x.Named) (hs : x.state.top ≠ .htmlTagname) : 0 ∉ x.tagcache.name := by
  intro hmem
  have hplain : ∀ tag ∈ htmlSkipTag, toLower 0 ∉ tag := by decide
  rcases h.name hs with hnil | hskip
  · rw [hnil] at hmem
    exact List.not_mem_nil hmem
  · exact hplain _ hskip (List.mem_map_of_mem hmem)

theorem strncasecmpEq_of_map (v : List UInt8) : ∀ {w tag : List UInt8}, w.map toLower = tag.map toLower →
    strncasecmpEq (w ++ v) tag w.length = true
  | [], _, _ => by simp [strncasecmpEq]
  | a :: w, [], h => by simp at h
  | a :: w, b :: tag, h => by
    obtain ⟨hlower, hrest⟩ := List.cons.inj h
    have ih := strncasecmpEq_of_map v hrest
    simp [strncasecmpEq, hlower, ih]

/-- The search by length and by letters finds the names of `html_skip_tag`. -/
theorem NameCache.skipIndex_iff : 0 ≤ t.skipIndex ↔ IsSkipTag t.name := by
  refine ⟨NameCache.skipIndex_nonneg, fun h => ?_⟩
  unfold NameCache.skipIndex
  split
  · exact Int.natCast_nonneg _
  · next hnone =>
    have hplain : ∀ tag ∈ htmlSkipTag, tag.map toLower = tag := by decide
    have heq := strncasecmpEq_of_map t.stale (by rw [hplain _ h] : t.name.map toLower = (t.name.map toLower).map toLower)
    have hfind := List.findIdx?_eq_none_iff.mp hnone _ h
    simp [NameCache.len] at hfind
    exact absurd heq (by simpa using hfind)

/-- `memcmp` with the length of the first name asks for a beginning of the second. -/
theorem NameCache.memcmpEq_iff (h0 : 0 ∉ t.name) : t.memcmpEq u.close t.len = true ↔ t.name <+: u.name := by
  refine ⟨NameCache.memcmpEq_prefix h0, fun ⟨v, hv⟩ => ?_⟩
  apply List.all_eq_true.mpr
  intro i hi
  have hlt : i < t.name.length := List.mem_range.mp hi
  have hle : i < u.name.length := by
    rw [← hv, List.length_append]
    omega
  rw [decide_eq_true_iff, NameCache.read, NameCache.read, NameCache.close, List.getD_append _ _ _ _ hlt,
    List.getD_append _ _ _ _ hle, ← hv, List.getD_append _ _ _ _ hlt]

end Names

/-- What an iteration comes to that reads the bytes `v`, with the bytes `u` ahead of it then. -/
structure TagScan.Reaches (s : TagScan) (v : List UInt8) (y : Ctx) (u : List UInt8) : Prop where
  follows : (v.foldl readTag s).mode = .bang ∨ (v.foldl readTag s).Follows y u
  lands : v ≠ [] → ∀ st, (v.foldl readTag s).mode.settles = some st → y.state.top = st
  between : ∀ n, 0 < n → n < v.length → ((v.take n).foldl readTag s).mode.settles = none

namespace TagScan
variable {s : TagScan} {x y : Ctx} {b c : UInt8} {u v : List UInt8}

theorem foldl_bang (hs : s.mode = .bang) : v.foldl readTag s = s := by
  induction v with
  | nil => rfl
  | cons b v ih =>
    have hread : readTag s b = s := by simp [readTag, hs]
    rw [List.foldl_cons, hread, ih]

theorem reaches_gone (hs : s.mode = .bang) : s.Reaches v y u := by
  have hfold : ∀ w : List UInt8, w.foldl readTag s = s := fun w => foldl_bang hs
  constructor
  · rw [hfold]
    exact .inl hs
  · intro _ st hst
    rw [hfold, hs] at hst
    cases hst
  · intro n _ _
    rw [hfold, hs]
    rfl

theorem reaches_nil (hs : s.Follows y u) : s.Reaches [] y u where
  follows := .inr hs
  lands h := absurd rfl h
  between n _ hn := absurd hn (Nat.not_lt_zero n)

theorem reaches_byte (hs : (readTag s b).mode = .bang ∨ (readTag s b).Follows y u)
    (hst : ∀ st, (readTag s b).mode.settles = some st → y.state.top = st) : s.Reaches [b] y u where
  follows := hs
  lands _ := hst
  between _ h0 hn := absurd hn (Nat.not_lt.mpr h0)

theorem reaches_pair (hb : (readTag s b).mode.settles = none)
    (hs : (readTag (readTag s b) c).Follows y u)
    (hst : ∀ st, (readTag (readTag s b) c).mode.settles = some st → y.state.top = st) :
    s.Reaches [b, c] y u where
  follows := .inr hs
  lands _ := hst
  between n h0 hn := by
    obtain rfl : n = 1 := Nat.le_antisymm (Nat.le_of_lt_succ hn) h0
    exact hb

/-- Nothing is known behind the beginning of a `<!`. -/
theorem foldl_opened (hs : s.mode = .text) {n : ℕ} (hn : 0 < n) :
    (((lt :: bang :: v).take n).foldl readTag s).mode.settles = none := by
  have hopened : readTag s lt = { s with mode := .opened } := by simp [readTag, hs]
  have hbang : readTag { s with mode := .opened } bang = { s with mode := .bang } := rfl
  rcases n with _ | _ | n
  · exact absurd hn (Nat.lt_irrefl 0)
  · rw [List.take_succ_cons, List.take_zero, List.foldl_cons, hopened]
    rfl
  · rw [List.take_succ_cons, List.take_succ_cons, List.foldl_cons, List.foldl_cons, hopened, hbang, foldl_bang rfl]
    rfl

theorem foldl_lt_bang (hs : s.mode = .text) : (lt :: bang :: v).foldl readTag s = { s with mode := .bang } := by
  have hopened : readTag s lt = { s with mode := .opened } := by simp [readTag, hs]
  have hbang : readTag { s with mode := .opened } bang = { s with mode := .bang } := rfl
  rw [List.foldl_cons, List.foldl_cons, hopened, hbang, foldl_bang rfl]

theorem reaches_bang (hs : s.mode = .text) : s.Reaches (lt :: bang :: v) y u := by
  have hfold := foldl_lt_bang (v := v) hs
  constructor
  · rw [hfold]
    exact .inl rfl
  · intro _ st hst
    rw [hfold] at hst
    cases hst
  · intro n hn _
    exact foldl_opened hs hn

end TagScan

section Rules
variable {s : TagScan} {x y : Ctx} {r : Routine} {u : List UInt8} {es : List Ev} {nxt : Next}

theorem TagScan.Follows.of_eq (hs : s.Follows x u) (hst : y.state.top = x.state.top)
    (ht : y.tagcache.name = x.tagcache.name) (hu : y.tagendcache.name = x.tagendcache.name) : s.Follows y u := by
  unfold TagScan.Follows TagScan.SameNames at hs ⊢
  rw [hst, ht, hu]
  exact hs

theorem TagScan.reaches_of {t : TagScan} {b : UInt8} (ht : (readTag s b).mode = .bang ∨ readTag s b = t)
    (hf : t.Follows y u) (hst : ∀ st, t.mode.settles = some st → y.state.top = st) : s.Reaches [b] y u := by
  rcases ht with hm | rfl
  · refine TagScan.reaches_byte (.inl hm) fun st h => ?_
    rw [hm] at h
    cases h
  · exact TagScan.reaches_byte (.inr hf) hst

theorem TagScan.Follows.text {b : UInt8} (hs : s.Follows x (b :: u)) (hst : x.state.top = .text) (hb : b ≠ lt)
    (hst' : y.state.top = .text) (ht : y.tagcache.name = x.tagcache.name)
    (hu : y.tagendcache.name = x.tagendcache.name) : s.Reaches [b] y u := by
  simp only [TagScan.Follows, hst] at hs
  obtain ⟨hnames, hm⟩ := hs
  rcases hm with hm | ⟨-, hpre⟩
  · have hread : readTag s b = s := by simp [readTag, hm, hb]
    apply TagScan.reaches_byte
    · rw [hread]
      refine .inr ?_
      simp only [TagScan.Follows, hst', TagScan.SameNames, ht, hu]
      exact ⟨hnames, .inl hm⟩
    · intro st h
      rw [hread, hm] at h
      cases h
      exact hst'
  · exact absurd (List.cons_prefix_cons.mp hpre).1.symm hb

theorem TagScan.Follows.name {b : UInt8} (hs : s.Follows x (b :: u)) (hst : x.state.top = .htmlTagname) :
    (readTag s b).mode = .bang ∨ readTag s b = readName x.tagcache.name x.tagendcache.name b := by
  simp only [TagScan.Follows, hst] at hs
  rcases hs with ⟨⟨ht, hu⟩, hm⟩ | ⟨hm, ⟨ht, hu⟩, hb⟩
  · simp [readTag, hm, ht, hu]
  · simp only [List.head?_cons, List.mem_cons, Option.some.injEq, not_or] at hb
    by_cases hbang : b = bang
    · simp [readTag, hm, hbang]
    · simp [readTag, hm, hbang, hb, ht, hu]

theorem TagScan.Follows.attrs {b : UInt8} (hs : s.Follows x (b :: u)) (hst : x.state.top = .htmlTagatt)
    (hb : b ≠ gt ∧ b ≠ slash) (hst' : y.state.top = .htmlTagatt) (ht : y.tagcache.name = x.tagcache.name)
    (hu : y.tagendcache.name = x.tagendcache.name) : s.Reaches [b] y u := by
  simp only [TagScan.Follows, hst] at hs
  rcases hs with ⟨hnames, hm⟩ | ⟨-, -, hpre⟩
  · apply TagScan.reaches_of (t := s)
    · simp [readTag, hm, hb]
    · simp only [TagScan.Follows, hst', TagScan.SameNames, ht, hu]
      exact .inl ⟨hnames, hm⟩
    · simp [hm, TagMode.settles]
  · exact absurd (List.cons_prefix_cons.mp hpre).1.symm hb.1

/-- A byte of markup that begins with `<!`, in a state that knows nothing of it. -/
theorem TagScan.Follows.lost {b : UInt8}
    (hs : s.mode = .text ∧ lit "<!" <+: b :: u ∨ s.mode = .opened ∧ [bang] <+: b :: u)
    (hst : x.state.top ∈ [MinifyState.htmlCommentIe, .abort]) : s.Reaches [b] x u := by
  rcases hs with ⟨hm, hpre⟩ | ⟨hm, hpre⟩
  · simp at hpre
    obtain ⟨rfl, hpre⟩ := hpre
    apply TagScan.reaches_of (t := { s with mode := .opened })
    · simp [readTag, hm]
    · rcases List.mem_pair.mp hst with hst | hst <;> simp [TagScan.Follows, hst, hpre]
    · simp [TagMode.settles]
  · obtain rfl := (List.cons_prefix_cons.mp hpre).1
    apply TagScan.reaches_byte
    · simp [readTag, hm]
    · simp [readTag, hm, TagMode.settles]

theorem HtmlRule.follows_tagname (h : HtmlRule x .htmlStripTagname u es y nxt) (hx : x.Named) (hy : y.cache = [])
    (hs : s.Follows x u) : s.Reaches (u.take (Ev.takes es)) y (u.drop (Ev.takes es)) := by
  cases h
  case nameGt t hs' =>
    apply TagScan.reaches_of (hs.name hs') <;> by_cases hskip : IsSkipTag x.tagcache.name
    · have hnext := NameCache.skipIndex_iff (t := x.tagcache.close).mpr hskip
      simp [readName, hskip, Ctx.nameGt, hnext, TagScan.Follows, TagScan.SameNames]
    · have hnext := mt (NameCache.skipIndex_iff (t := x.tagcache.close)).mp hskip
      simp [readName, hskip, Ctx.nameGt, hnext, TagScan.Follows, TagScan.SameNames]
    · have hnext := NameCache.skipIndex_iff (t := x.tagcache.close).mpr hskip
      simp [readName, hskip, Ctx.nameGt, hnext, TagMode.settles]
    · have hnext := mt (NameCache.skipIndex_iff (t := x.tagcache.close)).mp hskip
      simp [readName, hskip, Ctx.nameGt, hnext, TagMode.settles]
  case nameBlank b t hs' hb =>
    have hgt : b ≠ gt := by rcases hb with rfl | rfl <;> decide
    apply TagScan.reaches_of (hs.name hs') <;> by_cases hskip : IsSkipTag x.tagcache.name
    · have hnext := NameCache.skipIndex_iff (t := x.tagcache.close).mpr hskip
      simp [readName, hgt, hb, hskip, Ctx.nameBlank, Int.not_lt.mpr hnext, TagScan.Follows, TagScan.SameNames]
    · have hnext := Int.not_le.mp (mt (NameCache.skipIndex_iff (t := x.tagcache.close)).mp hskip)
      simp [readName, hgt, hb, hskip, Ctx.nameBlank, hnext, TagScan.Follows, TagScan.SameNames]
    all_goals simp [readName, hgt, hb, TagMode.settles]
  case nameByte b t hs' hb =>
    apply TagScan.reaches_of (hs.name hs')
    · simp [readName, hb, TagScan.Follows, TagScan.SameNames, hs']
    · simp [readName, hb, TagMode.settles]
  case attSpace t hs' hp => exact hs.attrs hs' (by decide) hs' rfl rfl
  case attByte b t hs' hb hp => exact hs.attrs hs' hb hs' rfl rfl
  case attGt t hs' =>
    simp only [TagScan.Follows, hs'] at hs
    rcases hs with ⟨⟨ht, hu⟩, hm⟩ | ⟨hm, ⟨ht, hu⟩, -⟩
    · apply TagScan.reaches_of (t := { s with mode := if s.name = [] then .text else .inside })
      · simp [readTag, hm]
      · by_cases hnil : s.name = [] <;>
          simp [TagScan.Follows, TagScan.SameNames, Ctx.attGt, NameCache.len, ht, hu, hnil]
      · by_cases hnil : s.name = [] <;> simp [TagMode.settles, Ctx.attGt, NameCache.len, ht, hnil]
    · apply TagScan.reaches_of (t := ⟨.text, [], s.endName⟩)
      · simp [readTag, hm]
      · simp [TagScan.Follows, TagScan.SameNames, Ctx.attGt, NameCache.len, ht, hu]
      · simp [TagMode.settles, Ctx.attGt, NameCache.len, ht]
  case attClose t hs' =>
    simp only [TagScan.Follows, hs'] at hs
    rcases hs with ⟨⟨ht, hu⟩, hm⟩ | ⟨-, -, hpre⟩
    · apply TagScan.reaches_of (t := { s with mode := .slash })
      · simp [readTag, hm]
      · simp [TagScan.Follows, TagScan.SameNames, hs', hu]
      · simp [TagMode.settles]
    · simp at hpre
  case attSlash b t hs' hb =>
    simp only [TagScan.Follows, hs'] at hs
    rcases hs with ⟨⟨ht, hu⟩, hm⟩ | ⟨-, -, hpre⟩
    · apply TagScan.reaches_pair
      · simp [readTag, hm, TagMode.settles]
      · simp [readTag, hm, hb, TagScan.Follows, TagScan.SameNames, hs', ht, hu]
      · simp [readTag, hm, hb, TagMode.settles]
    · simp at hpre
  case endSpace t hs' =>
    simp only [TagScan.Follows, hs'] at hs
    obtain ⟨hnames, hm⟩ := hs
    apply TagScan.reaches_of (t := ⟨.endName, s.name, s.endName⟩)
    · simp [readTag, readEndName, hm]
    · simpa [TagScan.Follows, TagScan.SameNames, hs'] using hnames
    · simp [TagMode.settles]
  case endName b t hs' hb hl =>
    simp only [TagScan.Follows, hs'] at hs
    obtain ⟨⟨ht, hu⟩, hm⟩ := hs
    have hnil : s.name ≠ [] := by simpa [NameCache.len, ht] using hl
    apply TagScan.reaches_of (t := ⟨.endName, s.name, s.endName ++ [b]⟩)
    · simp [readTag, readEndName, hm, hb, hnil]
    · simp [TagScan.Follows, TagScan.SameNames, hs', ht, hu]
    · simp [TagMode.settles]
  case endByte b t hs' hb hl =>
    simp only [TagScan.Follows, hs'] at hs
    obtain ⟨⟨ht, hu⟩, hm⟩ := hs
    have hnil : s.name = [] := by simpa [NameCache.len, ht] using hl
    apply TagScan.reaches_of (t := ⟨.endName, s.name, s.endName⟩)
    · simp [readTag, readEndName, hm, hb, hnil]
    · simp [TagScan.Follows, TagScan.SameNames, hs', ht, hu]
    · simp [TagMode.settles]
  case endGt t hs' =>
    have hcmp := NameCache.memcmpEq_iff (u := x.tagendcache) (hx.nul_of (by simp [hs']))
    simp only [TagScan.Follows, hs'] at hs
    obtain ⟨⟨ht, hu⟩, hm⟩ := hs
    have hlen : x.tagendcache.len = 0 ↔ s.endName = [] := by simp [NameCache.len, hu]
    rw [ht, hu] at hcmp
    have htakes : Ev.takes (if x.tagendcache.len ≠ 0 then [.copy, .tag x.tagendcache.len, .stack x.endGt.state]
        else [.copy, .stack x.endGt.state]) = 1 := by split <;> rfl
    rw [htakes]
    apply TagScan.reaches_of (t := readEndName s.name s.endName gt)
    · simp [readTag, hm]
    all_goals
      by_cases hnil : s.endName = []
      · simp [readEndName, hnil, Ctx.endGt, hlen, hu, ht, TagScan.Follows, TagScan.SameNames, TagMode.settles]
      · by_cases hpre : s.name <+: s.endName
        · simp [readEndName, hnil, hpre, Ctx.endGt, hcmp, hlen, TagScan.Follows, TagScan.SameNames, TagMode.settles]
        · simp [readEndName, hnil, hpre, Ctx.endGt, hcmp, hlen, ht, TagScan.Follows, TagScan.SameNames,
            TagMode.settles]
  case attHold => simp at hy
  case nameSkip | nameLeave => exact TagScan.reaches_nil (hs.of_eq rfl rfl rfl)

theorem HtmlRule.follows_comment (h : HtmlRule x .htmlStripComment u es y nxt) (hy : y.cache = [])
    (hs : s.Follows x u) : s.Reaches (u.take (Ev.takes es)) y (u.drop (Ev.takes es)) := by
  cases h
  case commentPlain hs' _ | commentOther hs' _ | commentMiss hs' _ _ =>
    simp only [TagScan.Follows, hs'] at hs
    simp
    exact TagScan.reaches_bang hs.1
  case commentIf t hs' =>
    simp only [TagScan.Follows, hs'] at hs
    apply TagScan.reaches_nil
    simpa [TagScan.Follows] using hs.1
  case ieByte b t hs' hb =>
    simp only [TagScan.Follows, hs'] at hs
    exact TagScan.Follows.lost hs (by simp [hs'])
  case ieClose hs' | ieFour hs' _ | ieMiss hs' _ _ | skipClose hs' | skipThree hs' _ | skipMiss hs' _ _ |
      skipByte hs' _ => simp [TagScan.Follows, hs'] at hs
  case commentHold | commentHoldIf | ieHold | skipHold => simp at hy
  case commentLeave => exact TagScan.reaches_nil (hs.of_eq rfl rfl rfl)

theorem HtmlRule.follows_tag (h : HtmlRule x .htmlStripTag u es y nxt) (hy : y.cache = [])
    (hs : s.Follows x u) : s.Reaches (u.take (Ev.takes es)) y (u.drop (Ev.takes es)) := by
  cases h
  case tagSpace t hs' =>
    simp only [TagScan.Follows, hs'] at hs
    obtain ⟨hnames, hm | ⟨-, hpre⟩⟩ := hs
    · apply TagScan.reaches_of (t := s)
      · simp [readTag, hm]
      · simp [TagScan.Follows, hs', hnames, hm]
      · simp [hm, TagMode.settles]
    · simp at hpre
  case tagSlash t hs' =>
    simp only [TagScan.Follows, hs'] at hs
    obtain ⟨hnames, hm⟩ := hs
    apply TagScan.reaches_of (t := { s with mode := .endName })
    · rcases hm with hm | ⟨hm, -⟩ <;> simp [readTag, hm]
    · simpa [TagScan.Follows, TagScan.SameNames] using hnames
    · simp [TagMode.settles]
  case tagName b t hs' hb =>
    simp only [TagScan.Follows, hs'] at hs
    obtain ⟨hnames, hm | ⟨-, hpre⟩⟩ := hs
    · apply TagScan.reaches_nil
      simp [TagScan.Follows, TagScan.SameNames, hm, hb]
    · exact absurd (List.cons_prefix_cons.mp hpre).1.symm hb.2
  case bangTag hs' _ | bangDash hs' _ | bangCdata hs' | bangNine hs' _ _ =>
    simp only [TagScan.Follows, hs'] at hs
    simp
    exact TagScan.reaches_bang hs.1
  case bangComment t hs' =>
    simp only [TagScan.Follows, hs'] at hs
    apply TagScan.reaches_nil
    simpa [TagScan.Follows] using hs
  case bangAbort t hs' ht hc =>
    simp only [TagScan.Follows, hs'] at hs
    apply TagScan.reaches_nil
    simpa [TagScan.Follows] using hs.1
  case cdataClose hs' | cdataThree hs' _ | cdataMiss hs' _ _ | cdataByte hs' _ => simp [TagScan.Follows, hs'] at hs
  case bangHoldDash | bangHoldCdata | cdataHold => simp at hy
  case callTagname | callComment | tagSkip | tagLeave => exact TagScan.reaches_nil (hs.of_eq rfl rfl rfl)

theorem HtmlRule.follows_buffer (h : HtmlRule x .htmlStripBuffer u es y nxt) (hy : y.cache = [])
    (hs : s.Follows x u) : s.Reaches (u.take (Ev.takes es)) y (u.drop (Ev.takes es)) := by
  cases h
  case abortByte b t hs' =>
    simp only [TagScan.Follows, hs'] at hs
    exact TagScan.Follows.lost hs (by simp [hs'])
  case textBreak b t hs' hb =>
    have hne : b ≠ lt := by rcases hb with rfl | rfl | rfl <;> decide
    exact hs.text hs' hne hs' rfl rfl
  case textSpace t hs' hp => exact hs.text hs' (by decide) hs' rfl rfl
  case textByte b t hs' hb hp => exact hs.text hs' hb.2.2.2 hs' rfl rfl
  case textTag b t hs' hb =>
    simp only [TagScan.Follows, hs'] at hs
    obtain ⟨hnames, hm | ⟨hm, hpre⟩⟩ := hs
    · apply TagScan.reaches_of (t := { s with mode := .opened })
      · simp [readTag, hm]
      · simpa [TagScan.Follows, TagScan.SameNames] using hnames
      · simp [TagMode.settles]
    · apply TagScan.reaches_of (t := { s with mode := .insideOpened })
      · simp [readTag, hm]
      · simp at hpre
        simpa [TagScan.Follows, TagScan.SameNames, hpre] using hnames
      · simp [TagMode.settles]
  case textBang b t hs' =>
    simp only [TagScan.Follows, hs'] at hs
    obtain ⟨hnames, hm | ⟨-, hpre⟩⟩ := hs
    · apply TagScan.reaches_nil
      simp [TagScan.Follows, hm]
    · simp at hpre
  case elementEnd t hs' =>
    simp only [TagScan.Follows, hs'] at hs
    apply TagScan.reaches_nil
    simp only [TagScan.Follows, htmlStack_eval, Ctx.html]
    exact ⟨hs.1, .inr ⟨hs.2, t, rfl⟩⟩
  case elementPair b t hs' hb =>
    simp only [TagScan.Follows, hs'] at hs
    obtain ⟨hnames, hm⟩ := hs
    apply TagScan.reaches_pair
    · simp [readTag, hm, TagMode.settles]
    · simpa [readTag, hm, hb, TagScan.Follows, TagScan.SameNames, hs'] using hnames
    · simp [readTag, hm, hb, TagMode.settles, hs']
  case elementByte b t hs' hb =>
    simp only [TagScan.Follows, hs'] at hs
    obtain ⟨hnames, hm⟩ := hs
    apply TagScan.reaches_of (t := s)
    · simp [readTag, hm, hb]
    · simp [TagScan.Follows, hs', hnames, hm]
    · simp [hm, TagMode.settles, hs']
  case textHoldBang | textHold | elementHold => simp at hy
  case callTag => exact TagScan.reaches_nil (hs.of_eq rfl rfl rfl)

theorem HtmlRule.follows (h : HtmlRule x r u es y nxt) (hx : x.Named) (hy : y.cache = [])
    (hs : s.Follows x u) : s.Reaches (u.take (Ev.takes es)) y (u.drop (Ev.takes es)) := by
  cases r with
  | htmlStripTagname => exact h.follows_tagname hx hy hs
  | htmlStripComment => exact h.follows_comment hy hs
  | htmlStripTag => exact h.follows_tag hy hs
  | htmlStripBuffer => exact h.follows_buffer hy hs
  | _ => cases h

/-- What is held back is not the end of a tag or of the text. -/
theorem HtmlRule.follows_held {a : List UInt8} {n : ℕ} (h : HtmlRule x r u (Ev.holds a u) y nxt)
    (hx : x.cache = []) (hy : y.cache = u) (hs : s.Follows x u) (hn : 0 < n) (hu : n ≤ u.length) :
    ((u.take n).foldl readTag s).mode.settles = none := by
  generalize hes : Ev.holds a u = es at h
  have hone : n ≤ 1 → n = 1 := fun h => Nat.le_antisymm h hn
  cases h
  case commentHold hs' | commentHoldIf hs' _ _ | bangHoldDash hs' | bangHoldCdata hs' _ _ =>
    simp only [TagScan.Follows, hs'] at hs
    exact TagScan.foldl_opened hs.1 hn
  case ieHold hs' _ _ | skipHold hs' _ _ | cdataHold hs' _ _ => simp [TagScan.Follows, hs'] at hs
  case attHold hs' =>
    obtain rfl := hone hu
    simp only [TagScan.Follows, hs'] at hs
    rcases hs with ⟨-, hm⟩ | ⟨-, -, hpre⟩
    · simp [readTag, hm, TagMode.settles]
    · simp at hpre
  case textHold hs' =>
    obtain rfl := hone hu
    simp only [TagScan.Follows, hs'] at hs
    rcases hs with ⟨-, hm | ⟨-, hpre⟩⟩
    · simp [readTag, hm, TagMode.settles]
    · simp at hpre
  case textHoldBang hs' =>
    simp only [TagScan.Follows, hs'] at hs
    rcases hs with ⟨-, hm | ⟨-, hpre⟩⟩
    · exact TagScan.foldl_opened hm hn
    · simp at hpre
  case elementHold hs' =>
    obtain rfl := hone hu
    simp only [TagScan.Follows, hs'] at hs
    simp [readTag, hs.2, TagMode.settles]
  case endGt => split at hes <;> cases hes
  case bangCdata | bangNine | commentMiss | ieMiss | skipMiss | cdataMiss | bangAbort => simp_all [Ev.holds]
  all_goals cases hes

end Rules

/-- The context behind the first `n` bytes that a response has read; `c` is the one behind its trace. -/
def ctxBehind (n : ℕ) (c : Ctx) : List Item → Ctx
  | [] => c
  | .turn _ x _ _ :: tr => if n ≤ (consumed tr).length then ctxBehind n x tr else c
  | _ :: tr => ctxBehind n c tr

section Behind
variable {n : ℕ} {c : Ctx} {l tr : List Item} {r : Routine} {x : Ctx} {u : List UInt8} {d : ℕ}

theorem ctxBehind_append (hl : ∀ r x u d, Item.turn r x u d ∉ l) :
    ctxBehind n c (l ++ tr) = ctxBehind n c tr := by
  induction l with
  | nil => rfl
  | cons i l ih =>
    have hrest := ih fun r x u d hmem => hl r x u d (List.mem_cons_of_mem i hmem)
    cases i with
    | turn r x u d => exact absurd List.mem_cons_self (hl r x u d)
    | _ => exact hrest

theorem ctxBehind_turn : ctxBehind n c (.turn r x u d :: tr) =
    if n ≤ (consumed tr).length then ctxBehind n x tr else c := rfl

theorem ctxBehind_items {es : List Ev} : ctxBehind n c ((Ev.items x es u).reverse ++ .turn r x u d :: tr) =
    if n ≤ (consumed tr).length then ctxBehind n x tr else c := by
  rw [ctxBehind_append, ctxBehind_turn]
  exact fun r' x' u' d' hmem => Ev.turn_notMem_items x x' r' u' d' es u (List.mem_reverse.mp hmem)

end Behind

structure Ctx.TagsAgree (x y : Ctx) : Prop where
  state : y.state.top = x.state.top
  name : y.tagcache = x.tagcache
  endName : y.tagendcache = x.tagendcache

theorem Ctx.TagsAgree.refl (x : Ctx) : x.TagsAgree x := ⟨rfl, rfl, rfl⟩

theorem Ctx.TagsAgree.behind {x y : Ctx} (h : x.TagsAgree y) (n : ℕ) (l : List Item) :
    (ctxBehind n x l).TagsAgree (ctxBehind n y l) := by
  induction l with
  | nil => exact h
  | cons i l ih =>
    cases i with
    | turn r z u d =>
      rw [ctxBehind, ctxBehind]
      split
      · exact .refl _
      · exact h
    | _ => exact ih

/-- A settled mode tells the state and the names of the context. -/
theorem TagScan.Reaches.settled {s : TagScan} {v u : List UInt8} {y : Ctx} (h : s.Reaches v y u) (hv : v ≠ [])
    {st : MinifyState} (hst : (v.foldl readTag s).mode.settles = some st) :
    y.state.top = st ∧ (v.foldl readTag s).SameNames y := by
  have htop := h.lands hv st hst
  refine ⟨htop, ?_⟩
  rcases h.follows with hm | hs
  · rw [hm] at hst
    cases hst
  · have hcases : st = .text ∨ st = .htmlSkip := by
      generalize (v.foldl readTag s).mode = m at hst
      cases m <;> simp [TagMode.settles] at hst <;> simp [← hst]
    rcases hcases with rfl | rfl <;> simp only [TagScan.Follows, htop] at hs <;> exact hs.1

theorem TagScan.Follows.append {s : TagScan} {x : Ctx} {u : List UInt8} (h : s.Follows x u)
    (buf : List UInt8) : s.Follows x (u ++ buf) := by
  have hpre : ∀ {w : List UInt8}, w <+: u → w <+: u ++ buf := fun h => h.trans (List.prefix_append u buf)
  unfold TagScan.Follows at h ⊢
  split
  case h_1 hst | h_3 hst =>
    simp only [hst] at h
    exact ⟨h.1, h.2.imp_right fun h => ⟨h.1, hpre h.2⟩⟩
  case h_2 hst | h_6 hst =>
    simp only [hst] at h
    exact h
  case h_4 hst =>
    simp only [hst] at h
    refine h.imp_right fun h => ⟨h.1, h.2.1, ?_⟩
    rcases u with _ | ⟨b, u⟩
    · exact absurd List.mem_cons_self h.2.2
    · exact h.2.2
  case h_5 hst =>
    simp only [hst] at h
    exact h.imp_right fun h => ⟨h.1, h.2.1, hpre h.2.2⟩
  case h_7 hst | h_8 hst =>
    simp only [hst] at h
    exact ⟨h.1, hpre h.2⟩
  case h_9 hst | h_10 hst =>
    simp only [hst] at h
    exact h.imp (fun h => ⟨h.1, hpre h.2⟩) fun h => ⟨h.1, hpre h.2⟩
  case h_11 =>
    exfalso
    revert h
    split <;> simp_all

structure TagState (s₀ : TagScan) (c : Ctx) (u : List UInt8) (l : List Item) : Prop where
  named : c.Named
  follows : ((consumed l).reverse.foldl readTag s₀).mode = .bang ∨
    ((consumed l).reverse.foldl readTag s₀).Follows c u
  behind : ∀ n st, n ≤ (consumed l).length →
    (((consumed l).reverse.take n).foldl readTag s₀).mode.settles = some st →
      (ctxBehind n c l).state.top = st ∧ (((consumed l).reverse.take n).foldl readTag s₀).SameNames (ctxBehind n c l)
  held : ∀ n, 0 < n → n ≤ c.cache.length →
    (((consumed l).reverse ++ c.cache.take n).foldl readTag s₀).mode.settles = none

namespace TagState
variable {s₀ : TagScan} {x y : Ctx} {u : List UInt8} {l : List Item} {r : Routine} {d : ℕ} {es : List Ev}
  {nxt : Next}

theorem start (hx : x.Named) (hs : x.state.top = .text) (hc : x.cache = []) (u : List UInt8) :
    TagState ⟨.text, x.tagcache.name, x.tagendcache.name⟩ x u [] where
  named := hx
  follows := by
    right
    simp [TagScan.Follows, TagScan.SameNames, hs]
  behind n st _ hst := by
    simp [TagMode.settles] at hst
    simp [ctxBehind, TagScan.SameNames, hs, hst]
  held n hn hle := by
    rw [hc] at hle
    exact absurd hn (Nat.not_lt.mpr hle)

theorem of_agree (h : TagState s₀ x u l) (hy : x.TagsAgree y) (hc : y.cache = x.cache ∨ y.cache = []) :
    TagState s₀ y u l := by
  constructor
  · exact h.named.of_eq hy.state hy.name hy.endName
  · exact h.follows.imp_right fun hs => hs.of_eq hy.state (congrArg _ hy.name) (congrArg _ hy.endName)
  · intro n st hn hst
    have hbehind := hy.behind n l
    rw [TagScan.SameNames, hbehind.state, hbehind.name, hbehind.endName]
    exact h.behind n st hn hst
  · intro n hn hle
    rcases hc with hc | hc
    · rw [hc] at hle ⊢
      exact h.held n hn hle
    · rw [hc] at hle
      exact absurd hn (Nat.not_lt.mpr hle)

theorem next (h : TagState s₀ x u l) (buf : List UInt8) : TagState s₀ (x.hold []) (u ++ buf) (.buffer :: l) := by
  have hx : TagState s₀ (x.hold []) u l := h.of_agree ⟨rfl, rfl, rfl⟩ (.inr rfl)
  constructor
  · exact hx.named
  · exact hx.follows.imp_right fun hs => hs.append buf
  · exact hx.behind
  · exact hx.held

theorem turn (h : TagState s₀ x u l) (hrule : HtmlRule x r u es y nxt) (hy : y.cache = []) :
    TagState s₀ y (u.drop (Ev.takes es)) ((Ev.items x es u).reverse ++ .turn r x u d :: l) := by
  have hread : (consumed ((Ev.items x es u).reverse ++ .turn r x u d :: l)).reverse =
      (consumed l).reverse ++ u.take (Ev.takes es) := by
    rw [consumed_append, List.reverse_append, consumed_reverse, List.reverse_reverse,
      Ev.consumed_items _ _ _ hrule.takes_le]
    rfl
  have hreaches : ((consumed l).reverse.foldl readTag s₀).Reaches (u.take (Ev.takes es)) y
      (u.drop (Ev.takes es)) := by
    rcases h.follows with hm | hs
    · exact TagScan.reaches_gone hm
    · exact hrule.follows h.named hy hs
  constructor
  · exact hrule.named h.named
  · rw [hread, List.foldl_append]
    exact hreaches.follows
  · intro n st hn hst
    have hlen := congrArg List.length hread
    rw [List.length_reverse, List.length_append, List.length_reverse] at hlen
    rw [hread] at hst ⊢
    rw [ctxBehind_items]
    by_cases hle : n ≤ (consumed l).length
    · rw [if_pos hle]
      rw [List.take_append_of_le_length (by simpa using hle)] at hst ⊢
      obtain ⟨htop, hnames⟩ := h.behind n st hle hst
      exact ⟨htop, hnames⟩
    · rw [if_neg hle]
      rw [List.take_append, List.take_of_length_le (by simp; omega), List.length_reverse, List.foldl_append] at hst ⊢
      rw [hlen] at hn
      rcases Nat.lt_or_eq_of_le (show n - (consumed l).length ≤ (u.take (Ev.takes es)).length by omega)
        with hlt | heq
      · rw [hreaches.between _ (by omega) hlt] at hst
        cases hst
      · rw [heq, List.take_length] at hst ⊢
        refine hreaches.settled ?_ hst
        intro hnil
        rw [hnil, List.length_nil] at heq
        omega
  · intro n hn hle
    rw [hy] at hle
    exact absurd hn (Nat.not_lt.mpr hle)

theorem hold (h : TagState s₀ x u l) (hx : x.cache = []) {a : List UInt8}
    (hrule : HtmlRule x r u (Ev.holds a u) y .again) (hy : x.Held u y) :
    TagState s₀ y u (.cacheCall a 0 u :: .turn r x u d :: l) := by
  have hagree : x.TagsAgree y := by cases hy <;> exact ⟨rfl, rfl, rfl⟩
  constructor
  · exact h.named.of_eq hagree.state hagree.name hagree.endName
  · exact h.follows.imp_right fun hs =>
      hs.of_eq hagree.state (congrArg _ hagree.name) (congrArg _ hagree.endName)
  · intro n st hn hst
    change (ctxBehind n y (.turn r x u d :: l)).state.top = st ∧
      TagScan.SameNames _ (ctxBehind n y (.turn r x u d :: l))
    have hle : n ≤ (consumed l).length := hn
    rw [ctxBehind_turn, if_pos hle]
    exact h.behind n st hle hst
  · intro n hn hle
    rw [hy.cache] at hle ⊢
    change (((consumed l).reverse ++ _).foldl readTag s₀).mode.settles = none
    rw [List.foldl_append]
    rcases h.follows with hm | hs
    · rw [TagScan.foldl_bang hm, hm]
      rfl
    · exact hrule.follows_held hx hy.cache hs hn hle

/-- The end of an iteration changes no more than the last bytes that are known. -/
theorem ended (h : TagState s₀ x u l) (nxt : Next) (r : Routine) (d : ℕ) (out : List UInt8) :
    TagState s₀ (nxt.ended r d out x) u l := by
  obtain ⟨p, q, he⟩ := nxt.ended_eq r d out x
  rw [he]
  exact h.of_agree ⟨rfl, rfl, rfl⟩ (.inl rfl)

/-- At the end of a response, what a part of the page leads to is behind it, in any buffers. -/
theorem behind_eq (h : TagState s₀ x x.cache l) {v w : List UInt8} {st : MinifyState}
    (hpage : (consumed l).reverse ++ x.cache = v ++ w) (hst : (v.foldl readTag s₀).mode.settles = some st) :
    (ctxBehind v.length x l).state.top = st ∧ (v.foldl readTag s₀).SameNames (ctxBehind v.length x l) := by
  have hv : v = ((consumed l).reverse ++ x.cache).take v.length := by
    rw [hpage, List.take_left]
  by_cases hle : v.length ≤ (consumed l).length
  · rw [List.take_append_of_le_length (by simpa using hle)] at hv
    have hbehind := h.behind v.length st hle
    rw [← hv] at hbehind
    exact hbehind hst
  · have hlen := congrArg List.length hpage
    rw [List.length_append, List.length_append, List.length_reverse] at hlen
    rw [List.take_append, List.take_of_length_le (by simp; omega), List.length_reverse] at hv
    have hnone := h.held (v.length - (consumed l).length) (by omega) (by omega)
    rw [← hv, hst] at hnone
    cases hnone

end TagState

theorem scanTags_append (u w : List UInt8) : scanTags (u ++ w) = w.foldl readTag (scanTags u) := List.foldl_append

theorem tagPassage : Passage htmlMachine (fun x _ => x.Named ∧ x.state.top = .text)
    fun x _ c u _ l => TagState ⟨.text, x.tagcache.name, x.tagendcache.name⟩ c u l where
  start h _ hc := .start h.1 h.2 hc _
  next h := h.next _
  turn _ h _ hy _ hrule _ := (h.turn hrule hy).ended _ _ _ _
  hold _ _ h hc _ hrule hy := (h.hold hc hrule hy).ended _ _ _ _
  done _ h := h.ended _ _ _ _

theorem named_of_turn {cap : Option ℕ} {bufs : List (List UInt8)} {s : Session}
    (h : feedAll Flat cap .html .start bufs = .ok s) {newer older : List Item} {r : Routine} {x : Ctx}
    {u : List UInt8} {d : ℕ} (htr : s.trace = newer ++ .turn r x u d :: older) : x.Named := by
  obtain ⟨c, hreach, -, rfl, -⟩ := feedAll_ok h
  have hcontent : ContentInv (At.view bufs ⟨htmlMachine.top, [], c⟩) := contentInv.reach hreach
  apply hcontent.turns r x u d
  change Item.turn r x u d ∈ c.settled
  have htr' : c.settled = newer ++ .turn r x u d :: older := htr
  rw [htr']
  exact List.mem_append_right newer List.mem_cons_self

end NginB.Minify
