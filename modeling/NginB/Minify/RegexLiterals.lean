import NginB.Minify.CssPartition
import NginB.Minify.JsPartition
import NginB.Minify.Passage

/-! # Regular expression literals

The JavaScript minifier copies a slash together with the byte behind it, and reads what follows as
text: quotes and brackets open strings there, blanks and carriage returns may be dropped, and the next
slash, escaped or not, may begin a comment.
-/
namespace NginB.Minify
open NginB.Program Relation Ascii

/-- The body of a regular expression literal, or what is left of it: escaped pairs, and bytes other
than `/` and the backslash, all on one line. -/
def RegexBody : List UInt8 → Prop
  | [] => True
  | b :: t =>
    if b = backslash then
      match t with
      | [] => False
      | c :: t => c ≠ lf ∧ RegexBody t
    else b ≠ slash ∧ b ≠ lf ∧ RegexBody t

def regex (r : List UInt8) : List UInt8 := slash :: (r ++ [slash])

/-- The bytes `w` behind `p`, and the slash that ends the literal, are read as text that is copied, with
the byte `n` behind them: a slash is copied with the byte behind it. -/
def ReadAsText (n : Option UInt8) : UInt8 → List UInt8 → Prop
  | _, [] => ∃ b, n = some b ∧ b ≠ star ∧ b ≠ slash
  | p, b :: t =>
    if b = slash then
      match t with
      | [] => False
      | c :: t => c ≠ star ∧ c ≠ slash ∧ ReadAsText n c t
    else (b ≠ dquote ∧ b ≠ squote ∧ b ≠ lbracket) ∧ b ≠ cr ∧ ¬ (Blank b ∧ Blank p) ∧ ReadAsText n b t

theorem regexBody_escaped {c : UInt8} {t : List UInt8} :
    RegexBody (backslash :: c :: t) ↔ c ≠ lf ∧ RegexBody t := by
  rw [RegexBody.eq_def]
  exact Iff.of_eq (if_pos rfl)

theorem regexBody_byte {b : UInt8} {t : List UInt8} (hb : b ≠ backslash) :
    RegexBody (b :: t) ↔ b ≠ slash ∧ b ≠ lf ∧ RegexBody t := by
  rw [RegexBody.eq_def]
  exact Iff.of_eq (if_neg hb)

theorem regexBody_head {b : UInt8} {t : List UInt8} (h : RegexBody (b :: t)) : b ≠ slash := by
  by_cases hb : b = backslash
  · rw [hb]
    decide
  · exact ((regexBody_byte hb).mp h).1

theorem RegexBody.no_break : ∀ {r : List UInt8}, RegexBody r → ∀ b ∈ r, b ≠ lf
  | [], _ => by simp
  | b :: t, h => by
    by_cases hb : b = backslash
    · subst hb
      cases t with
      | nil => exact h.elim
      | cons c t =>
        rw [regexBody_escaped] at h
        exact List.forall_mem_cons.mpr ⟨by decide, List.forall_mem_cons.mpr ⟨h.1, no_break h.2⟩⟩
    · rw [regexBody_byte hb] at h
      exact List.forall_mem_cons.mpr ⟨h.2.1, no_break h.2.2⟩

theorem readAsText_pair {n : Option UInt8} {p c : UInt8} {t : List UInt8} :
    ReadAsText n p (slash :: c :: t) ↔ c ≠ star ∧ c ≠ slash ∧ ReadAsText n c t := by
  rw [ReadAsText.eq_def]
  exact Iff.of_eq (if_pos rfl)

theorem readAsText_byte {n : Option UInt8} {p b : UInt8} {t : List UInt8} (hb : b ≠ slash) :
    ReadAsText n p (b :: t) ↔
      (b ≠ dquote ∧ b ≠ squote ∧ b ≠ lbracket) ∧ b ≠ cr ∧ ¬ (Blank b ∧ Blank p) ∧ ReadAsText n b t := by
  rw [ReadAsText.eq_def]
  exact Iff.of_eq (if_neg hb)

/-- Where a comment begins the literal is not read as text. -/
theorem not_readAsText {p a : UInt8} {w q t : List UInt8} (ha : a = star ∨ a = slash)
    (h : slash :: a :: t = w ++ slash :: q) : ¬ ReadAsText q.head? p w := by
  intro hread
  rcases w with _ | ⟨b, w⟩
  · obtain ⟨-, rfl⟩ := List.cons.inj h
    obtain ⟨c, hc, hne⟩ := hread
    cases hc
    exact ha.elim hne.1 hne.2
  · obtain ⟨rfl, hrest⟩ := List.cons.inj h
    rcases w with _ | ⟨c, w⟩
    · rw [ReadAsText.eq_def] at hread
      exact hread
    · obtain ⟨rfl, -⟩ := List.cons.inj hrest
      rw [readAsText_pair] at hread
      exact ha.elim hread.1 hread.2.1

/-- The first byte of the body is copied with the slash before it, and the rest is read as text. -/
def RegexAsText (n : Option UInt8) : List UInt8 → Prop
  | [] => False
  | b :: t => ReadAsText n b t

/-- In a literal of `n` bytes, no iteration in the text comes upon a blank where nothing of the buffer has
been written. -/
def NoFirstBlank (n : ℕ) (rt : Routine) (_ : Ctx) (u : List UInt8) (d : ℕ) (older : List Item) : Prop :=
  rt = .jsStripBuffer → (consumed older).length < n → d = 0 → ∀ b ∈ u.head?, ¬ Blank b

instance (n : ℕ) (rt : Routine) (x : Ctx) (u : List UInt8) (d : ℕ) (older : List Item) :
    Decidable (NoFirstBlank n rt x u d older) := inferInstanceAs (Decidable (_ → _))

/-- The item reads no byte, or copies it in the text. -/
def Item.Plain : Item → Prop
  | .skip _ _ => False
  | .emit st b c => st = .text ∧ c = b
  | _ => True

/-- The oldest items of the trace copy just the bytes `w`, all of them in the text. -/
def CopiedAsText (w : List UInt8) (l : List Item) : Prop :=
  ∃ n m, l = n ++ m ∧ (consumed m).reverse = w ∧ ∀ i ∈ m, i.Plain

def Spoilt (n : ℕ) (l : List Item) : Prop :=
  ∃ l₁ i m, l = l₁ ++ i :: m ∧ ¬ i.Plain ∧ (consumed m).length < n

section Items
variable {l l' : List Item} {w : List UInt8} {n : ℕ}

theorem CopiedAsText.append (h : CopiedAsText w l) (l' : List Item) : CopiedAsText w (l' ++ l) := by
  obtain ⟨n, m, rfl, hread, hplain⟩ := h
  exact ⟨l' ++ n, m, (List.append_assoc _ _ _).symm, hread, hplain⟩

theorem CopiedAsText.read_le (h : CopiedAsText w l) : w.length ≤ (consumed l).length := by
  obtain ⟨n, m, rfl, rfl, -⟩ := h
  rw [consumed_append, List.length_append, List.length_reverse]
  exact Nat.le_add_left _ _

theorem Spoilt.append (h : Spoilt n l) (l' : List Item) : Spoilt n (l' ++ l) := by
  obtain ⟨l₁, i, m, rfl, hi, hm⟩ := h
  exact ⟨l' ++ l₁, i, m, (List.append_assoc _ _ _).symm, hi, hm⟩

theorem Spoilt.not_copied (h : Spoilt w.length l) : ¬ CopiedAsText w l := by
  rintro ⟨n, m', hsplit, rfl, hplain⟩
  obtain ⟨l₁, i, m, rfl, hi, hm⟩ := h
  rw [List.length_reverse] at hm
  rcases List.append_eq_append_iff.mp hsplit with ⟨k, rfl, hk⟩ | ⟨k, rfl, hk⟩
  · rcases k with _ | ⟨j, k⟩
    · obtain rfl : i :: m = m' := hk
      exact hi (hplain i List.mem_cons_self)
    · obtain ⟨rfl, rfl⟩ := List.cons.inj hk
      have hle : (consumed (k ++ m')).length < (consumed m').length := hm
      rw [consumed_append, List.length_append] at hle
      omega
  · subst hk
    exact hi (hplain i (List.mem_append_right k List.mem_cons_self))

theorem Spoilt.of_first {x : Ctx} {rt : Routine} {u : List UInt8} {d : ℕ} {i : Item} (hi : ¬ i.Plain)
    (h : (consumed l).length < n) (m : List Item) : Spoilt n ((i :: m).reverse ++ .turn rt x u d :: l) := by
  refine ⟨m.reverse, i, .turn rt x u d :: l, ?_, hi, h⟩
  rw [List.reverse_cons, List.append_assoc]
  rfl

/-- An iteration that passes over the first byte. -/
theorem spoilt_skip {x : Ctx} {rt : Routine} {d : ℕ} {es : List Ev} {b : UInt8} {t : List UInt8}
    (h : (consumed l).length < n) :
    Spoilt n ((Ev.items x (.skip :: es) (b :: t)).reverse ++ .turn rt x (b :: t) d :: l) :=
  .of_first id h _

/-- An iteration that copies the first byte, but not in the text. -/
theorem spoilt_copy {x : Ctx} {rt : Routine} {d : ℕ} {es : List Ev} {b : UInt8} {t : List UInt8}
    (hs : x.state.top ≠ .text) (h : (consumed l).length < n) :
    Spoilt n ((Ev.items x (.copy :: es) (b :: t)).reverse ++ .turn rt x (b :: t) d :: l) := by
  have hi : ¬ (Item.emit x.state.top b b).Plain := fun hi => hs hi.1
  exact .of_first hi h _

/-- An iteration that copies `k` bytes in the text. -/
theorem plain_copies {x : Ctx} {u : List UInt8} (rt : Routine) (d k : ℕ) (hs : x.state.top = .text)
    (hk : k ≤ u.length) (h : ∀ i ∈ l, i.Plain) :
    ∀ i ∈ (Ev.items x (List.replicate k .copy) u).reverse ++ .turn rt x u d :: l, i.Plain := by
  intro i hi
  rcases List.mem_append.mp hi with hi | hi
  · rw [Ev.items_replicate_copy _ _ _ hk, List.mem_reverse] at hi
    obtain ⟨b, -, rfl⟩ := List.mem_map.mp hi
    exact ⟨hs, rfl⟩
  · rcases List.mem_cons.mp hi with rfl | hi
    · trivial
    · exact h i hi

theorem emitted_of_plain (h : ∀ i ∈ l, i.Plain) : emitted l = consumed l := by
  induction l with
  | nil => rfl
  | cons i l ih =>
    rw [emitted_cons, consumed_cons, ih fun j hj => h j (List.mem_cons_of_mem i hj)]
    have hi := h i List.mem_cons_self
    cases i with
    | skip => exact hi.elim
    | emit st b c =>
      rw [Item.emitted, Item.consumed, hi.2]
    | _ => rfl

theorem CopiedAsText.written_le (h : CopiedAsText w l) : w.length ≤ (emitted l).length := by
  obtain ⟨n, m, rfl, rfl, hplain⟩ := h
  rw [emitted_append, emitted_of_plain hplain, List.length_append, List.length_reverse]
  exact Nat.le_add_left _ _

end Items

/-- How far the minifier has come in the literal with the body `r`, with the page `q` behind it. -/
inductive RegexPhase (r q : List UInt8) (x : Ctx) (u fut : List UInt8) (l : List Item) : Prop
  | opening (hs : x.state = ⟨.text, []⟩) (hc : x.cache.length ≤ 1) (hp : u ++ fut = regex r ++ q)
      (hl : consumed l = [] ∧ ∀ i ∈ l, i.Plain) (hin : EachTurn (NoFirstBlank (regex r).length) l)
  | inside (v w : List UInt8) (p : UInt8) (hr : slash :: r = v ++ p :: w) (hs : x.state = ⟨.text, []⟩)
      (hc : x.cache.length ≤ 1) (hp : u ++ fut = w ++ slash :: q)
      (hl : (consumed l).reverse = v ++ [p] ∧ ∀ i ∈ l, i.Plain)
      (hpre : x.preChar = p) (htext : ReadAsText q.head? p w ↔ RegexAsText q.head? r)
      (hin : EachTurn (NoFirstBlank (regex r).length) l)
  | quoted (hs : x.state = ⟨.jsQuote, [.text]⟩) (hl : (consumed l).length < (regex r).length)
      (htext : ¬ RegexAsText q.head? r)
  | passed (hl : CopiedAsText (regex r) l) (htext : RegexAsText q.head? r)
      (hin : EachTurn (NoFirstBlank (regex r).length) l)
  | spoilt (hl : Spoilt (regex r).length l)
      (hnot : ¬ (RegexAsText q.head? r ∧ EachTurn (NoFirstBlank (regex r).length) l))

section Phases
variable {x y : Ctx} {rt : Routine} {u fut r q : List UInt8} {es : List Ev} {nxt : Next} {l : List Item} {d : ℕ}

theorem RegexPhase.of_eq (h : RegexPhase r q x u fut l) (old : List UInt8) (hs : y.state = x.state)
    (hc : y.cache = x.cache)
    (hpre : y.preChar = x.preChar ∨ y.preChar = (emitted l ++ old).headD 0) : RegexPhase r q y u fut l := by
  cases h with
  | opening hs' hc' hp hl hin => exact .opening (by rwa [hs]) (by rwa [hc]) hp hl hin
  | inside v w p hr hs' hc' hp hl hpre' htext hin =>
    have hread : consumed l = p :: v.reverse := by
      rw [← List.reverse_reverse (consumed l), hl.1]
      simp
    refine .inside v w p hr (by rwa [hs]) (by rwa [hc]) hp hl ?_ htext hin
    rcases hpre with hpre | hpre
    · rw [hpre, hpre']
    · rw [hpre, emitted_of_plain hl.2, hread]
      rfl
  | quoted hs' hl htext => exact .quoted (by rwa [hs]) hl htext
  | passed hl htext hin => exact .passed hl htext hin
  | spoilt hl hnot => exact .spoilt hl hnot

theorem NoFirstBlank.of_head {n : ℕ} {b : UInt8} (hb : ¬ Blank b) : NoFirstBlank n rt x (b :: u) d l := by
  intro _ _ _ a ha
  cases ha
  exact hb

theorem NoFirstBlank.of_read {n : ℕ} (h : n ≤ (consumed l).length) : NoFirstBlank n rt x u d l :=
  fun _ hlt => absurd hlt (Nat.not_lt_of_le h)

theorem NoFirstBlank.of_routine {n : ℕ} (hrt : rt ≠ .jsStripBuffer) : NoFirstBlank n rt x u d l :=
  fun h => absurd h hrt

theorem JsRule.text_again (h : JsRule d x .jsStripBuffer u es y nxt) (hs : x.state = ⟨.text, []⟩) :
    nxt = .again := by
  cases h <;> first | rfl | simp_all

theorem JsRule.text_leave (h : JsRule d x rt u es y nxt) (hs : x.state = ⟨.text, []⟩)
    (hr : rt ≠ .jsStripBuffer) : es = [] ∧ y = x := by
  cases h <;> first | exact ⟨rfl, rfl⟩ | simp_all

/-- What an iteration makes of the phase where the literal has been read up to `p`. -/
theorem RegexPhase.text_turn {v w : List UInt8} {p : UInt8} (hbody : RegexBody r)
    (hr : slash :: r = v ++ p :: w) (hs : x.state = ⟨.text, []⟩) (hp : u ++ fut = w ++ slash :: q)
    (hl : (consumed l).reverse = v ++ [p] ∧ ∀ i ∈ l, i.Plain) (hpre : x.preChar = p)
    (htext : ReadAsText q.head? p w ↔ RegexAsText q.head? r)
    (hin : EachTurn (NoFirstBlank (regex r).length) l) (hrule : JsRule d x .jsStripBuffer u es y .again)
    (hy : y.cache = []) (old : List UInt8) :
    RegexPhase r q (Next.again.ended .jsStripBuffer (d + (emitted (Ev.items x es u)).length)
        (emitted ((Ev.items x es u).reverse ++ .turn .jsStripBuffer x u d :: l) ++ old) y)
      (u.drop (Ev.takes es)) fut ((Ev.items x es u).reverse ++ .turn .jsStripBuffer x u d :: l) := by
  have hread : (consumed l).length = v.length + 1 := by
    rw [← List.length_reverse, hl.1]
    simp
  have hlen : (regex r).length = v.length + 1 + (w.length + 1) := by
    have hlit := congrArg List.length hr
    simp only [List.length_cons, List.length_append] at hlit
    simp only [regex, List.length_cons, List.length_append, List.length_nil]
    omega
  have hbreak : ∀ b ∈ w, b ≠ lf := by
    intro b hb
    have hmem : b ∈ slash :: r := by
      rw [hr]
      simp [hb]
    rcases List.mem_cons.mp hmem with rfl | hmem
    · decide
    · exact hbody.no_break b hmem
  have hshort : (consumed l).length < (regex r).length := by omega
  have hlast : ∀ b ∈ slash :: r, b ≠ lf := by
    intro b hb
    rcases List.mem_cons.mp hb with rfl | hb
    · decide
    · exact hbody.no_break b hb
  have htop : x.state.top = .text := by rw [hs]
  have hcache : ∀ k o, (Next.again.ended .jsStripBuffer k o y).cache.length ≤ 1 := by
    intro k o
    simp [hy]
  cases hrule
  case textHold => simp at hy
  case textComment t _ =>
    have hnot : ¬ ReadAsText q.head? p w := not_readAsText (.inl rfl) hp
    exact .spoilt (spoilt_skip hshort) fun h => hnot (htext.mpr h.1)
  case textLine t _ =>
    have hnot : ¬ ReadAsText q.head? p w := not_readAsText (.inr rfl) hp
    exact .spoilt (spoilt_skip hshort) fun h => hnot (htext.mpr h.1)
  case textSlash b t _ hb =>
    have hhead : NoFirstBlank (regex r).length .jsStripBuffer x (slash :: b :: t) d l := .of_head (by decide)
    have hplain := plain_copies (u := slash :: b :: t) .jsStripBuffer d 2 htop (by simp) hl.2
    rcases w with _ | ⟨a, w⟩
    · -- the slash that ends the literal
      obtain ⟨-, rfl⟩ := List.cons.inj hp
      refine .passed ⟨[.emit .text b b],
        .emit .text slash slash :: .turn .jsStripBuffer x (slash :: b :: t) d :: l, ?_, ?_, ?_⟩
        (htext.mp ⟨b, rfl, hb⟩) (eachTurn_items.mpr ⟨hhead, hin⟩)
      · simp [hs]
      · simp [hl.1, regex, ← List.cons_append, hr]
      · intro i hi
        apply hplain
        simp only [Ev.items, List.replicate, htop]
        exact List.mem_cons_of_mem _ hi
    · obtain ⟨rfl, hrest⟩ := List.cons.inj hp
      rcases w with _ | ⟨c, w⟩
      · exact absurd (List.cons.inj hrest).1 hb.2
      · obtain ⟨rfl, hrest⟩ := List.cons.inj hrest
        refine .inside (v ++ [p, slash]) w b (by simp [hr]) (by simp [hs]) (hcache _ _)
          (List.cons.inj hrest).2 ⟨?_, hplain⟩ ?_ ?_
          (eachTurn_items.mpr ⟨hhead, hin⟩)
        · simp [hl.1]
        · exact (Next.ended_refreshed rfl rfl (by simp) _).trans (by simp)
        · rw [← htext, readAsText_pair, and_iff_right hb.1, and_iff_right hb.2]
  all_goals
    rcases w with _ | ⟨a, w⟩
    · have hbyte := (List.cons.inj hp).1
      simp_all
    obtain ⟨rfl, hrest⟩ := List.cons.inj hp
  case textBlank b t _ hb hp' =>
    refine .spoilt (spoilt_skip hshort) ?_
    rintro ⟨hkept, hall⟩
    have hblank := (eachTurn_items.mp hall).1 rfl hshort
    have hne : b ≠ slash := by rcases hb with rfl | rfl <;> decide
    rcases hp' with hp' | hp' | hp'
    · exact hlast p (by simp [hr]) (hpre.symm.trans hp')
    · exact hblank hp' b rfl hb
    · rw [← htext, readAsText_byte hne] at hkept
      rw [hpre] at hp'
      exact hkept.2.2.1 ⟨hb, hp'⟩
  case textQuote b t _ hb =>
    have hne : b ≠ slash := by rcases hb with rfl | rfl | rfl <;> decide
    refine .quoted (by simp) ?_ ?_
    · simp only [List.length_cons] at hlen
      simp [hread]
      omega
    · rw [← htext, readAsText_byte hne]
      rintro ⟨hq, -⟩
      rcases hb with rfl | rfl | rfl <;> simp at hq
  case textBreak | textBreakDrop => exact absurd rfl (hbreak lf List.mem_cons_self)
  case textReturn t _ =>
    refine .spoilt (spoilt_skip hshort) fun h => ?_
    have hkept := h.1
    rw [← htext, readAsText_byte (by decide)] at hkept
    exact hkept.2.1 rfl
  case textByte b t _ hb hq hp' =>
    have hblank : ¬ (Blank b ∧ Blank p) := by
      rintro ⟨hblank, hp⟩
      rw [← hpre] at hp
      exact hp' ⟨hblank, .inr (.inr hp)⟩
    refine .inside (v ++ [p]) w b (by simp [hr]) (by simp [hs]) (hcache _ _) hrest
      ⟨?_, plain_copies .jsStripBuffer d 1 htop (by simp) hl.2⟩ ?_ ?_ (eachTurn_items.mpr ⟨?_, hin⟩)
    · simp [hl.1]
    · exact (Next.ended_refreshed rfl rfl (by simp) _).trans (by simp)
    · rw [← htext, readAsText_byte hb.1, and_iff_right hq, and_iff_right hb.2.2, and_iff_right hblank]
    · intro _ _ hd a ha
      cases ha
      exact fun hblank' => hp' ⟨hblank', .inr (.inl hd)⟩

/-- What an iteration makes of the phase where nothing of the literal has been read. -/
theorem RegexPhase.opening_turn (hbody : RegexBody r) (hne : r ≠ []) (hstar : r.head? ≠ some star)
    (hs : x.state = ⟨.text, []⟩) (hp : u ++ fut = regex r ++ q) (hl : consumed l = [] ∧ ∀ i ∈ l, i.Plain)
    (hin : EachTurn (NoFirstBlank (regex r).length) l) (hrule : JsRule d x .jsStripBuffer u es y .again)
    (hy : y.cache = []) (old : List UInt8) :
    RegexPhase r q (Next.again.ended .jsStripBuffer (d + (emitted (Ev.items x es u)).length)
        (emitted ((Ev.items x es u).reverse ++ .turn .jsStripBuffer x u d :: l) ++ old) y)
      (u.drop (Ev.takes es)) fut ((Ev.items x es u).reverse ++ .turn .jsStripBuffer x u d :: l) := by
  have htop : x.state.top = .text := by rw [hs]
  have hcache : ∀ k o, (Next.again.ended .jsStripBuffer k o y).cache.length ≤ 1 := by
    intro k o
    simp [hy]
  obtain ⟨a, w, rfl⟩ := List.exists_cons_of_ne_nil hne
  have hslash : a ≠ slash := regexBody_head hbody
  cases hrule
  case textHold => simp at hy
  case textComment =>
    obtain ⟨rfl, -⟩ := List.cons.inj (List.cons.inj hp).2
    exact absurd rfl hstar
  case textLine => exact absurd (List.cons.inj (List.cons.inj hp).2).1.symm hslash
  case textSlash b t _ hb =>
    obtain ⟨rfl, hrest⟩ := List.cons.inj (List.cons.inj hp).2
    have hplain := plain_copies (u := slash :: b :: t) .jsStripBuffer d 2 htop (by simp) hl.2
    refine .inside [slash] w b rfl (by simp [hs]) (hcache _ _) ?_ ⟨?_, hplain⟩ ?_ Iff.rfl
      (eachTurn_items.mpr ⟨.of_head (by decide), hin⟩)
    · exact hrest.trans (List.append_assoc w [slash] q)
    · simp [hl.1]
    · exact (Next.ended_refreshed rfl rfl (by simp) _).trans (by simp)
  all_goals
    have hbyte := (List.cons.inj hp).1
    simp_all

/-- In a quote an iteration calls the loop of quotes, or copies bytes. -/
theorem JsRule.quoteTurn (h : JsRule d x rt u es y nxt) (hs : x.state = ⟨.jsQuote, [.text]⟩) :
    (es = [] ∧ y.state = x.state) ∨ (∃ b t es', u = b :: t ∧ es = .copy :: es') ∨ y.cache ≠ [] := by
  cases h
  case callQuote => exact .inl ⟨rfl, rfl⟩
  case quoteHold => exact .inr (.inr (by simp))
  case quoteEscape | quoteClose | quoteByte => exact .inr (.inl ⟨_, _, _, rfl, rfl⟩)
  all_goals simp_all

theorem RegexPhase.turn {rt' : Routine} {k k' : List Routine} (h : RegexPhase r q x u fut l)
    (hbody : RegexBody r) (hne : r ≠ []) (hstar : r.head? ≠ some star) (hrule : JsRule d x rt u es y nxt)
    (hgo : nxt.Goes rt k rt' k') (hy : y.cache = []) (old : List UInt8) :
    RegexPhase r q (nxt.ended rt' (d + (emitted (Ev.items x es u)).length)
        (emitted ((Ev.items x es u).reverse ++ .turn rt x u d :: l) ++ old) y)
      (u.drop (Ev.takes es)) fut ((Ev.items x es u).reverse ++ .turn rt x u d :: l) := by
  have hpre := nxt.ended_pre rt' (d + (emitted (Ev.items x es u)).length)
    (emitted ((Ev.items x es u).reverse ++ .turn rt x u d :: l) ++ old) y
  have hplain : (∀ i ∈ l, i.Plain) → ∀ i ∈ Item.turn rt x u d :: l, i.Plain :=
    fun hl => List.forall_mem_cons.mpr ⟨trivial, hl⟩
  cases h with
  | opening hs hc hp hl hin =>
    by_cases hrt : rt = .jsStripBuffer
    · subst hrt
      obtain rfl := hrule.text_again hs
      cases hgo
      exact opening_turn hbody hne hstar hs hp hl hin hrule hy old
    · obtain ⟨rfl, rfl⟩ := hrule.text_leave hs hrt
      exact RegexPhase.of_eq (.opening hs hc hp ⟨hl.1, hplain hl.2⟩
        (eachTurn_items.mpr ⟨.of_routine hrt, hin⟩)) old (Next.ended_state ..) (Next.ended_cache ..) hpre
  | inside v w p hr hs hc hp hl hpre' htext hin =>
    by_cases hrt : rt = .jsStripBuffer
    · subst hrt
      obtain rfl := hrule.text_again hs
      cases hgo
      exact text_turn hbody hr hs hp hl hpre' htext hin hrule hy old
    · obtain ⟨rfl, rfl⟩ := hrule.text_leave hs hrt
      exact RegexPhase.of_eq (.inside v w p hr hs hc hp ⟨hl.1, hplain hl.2⟩ hpre' htext
        (eachTurn_items.mpr ⟨.of_routine hrt, hin⟩)) old (Next.ended_state ..) (Next.ended_cache ..) hpre
  | quoted hs hl htext =>
    rcases hrule.quoteTurn hs with ⟨rfl, hst⟩ | ⟨b, t, es', rfl, rfl⟩ | hnil
    · exact .quoted (by rw [Next.ended_state, hst, hs]) hl htext
    · exact .spoilt (spoilt_copy (by simp [hs]) hl) fun h => htext h.1
    · exact absurd hy hnil
  | passed hl htext hin =>
    have happ := hl.append ((Ev.items x es u).reverse ++ [.turn rt x u d])
    rw [List.append_assoc] at happ
    exact .passed happ htext (eachTurn_items.mpr ⟨.of_read hl.read_le, hin⟩)
  | spoilt hl hnot =>
    have happ := hl.append ((Ev.items x es u).reverse ++ [.turn rt x u d])
    rw [List.append_assoc] at happ
    exact .spoilt happ fun h => hnot ⟨h.1, (eachTurn_items.mp h.2).2⟩

theorem JsRule.text_held {a : List UInt8} (h : JsRule d x rt u (Ev.holds a u) y .again)
    (hs : x.state = ⟨.text, []⟩) : u = [slash] := by
  generalize hes : Ev.holds a u = es at h
  cases h <;> first | rfl | simp_all [Ev.holds]

/-- What holding back all unread bytes makes of the phase. -/
theorem RegexPhase.hold (h : RegexPhase r q x u fut l) {a : List UInt8}
    (hrule : JsRule d x rt u (Ev.holds a u) y .again) (hy : x.Held u y) :
    RegexPhase r q y u fut (.cacheCall a 0 u :: .turn rt x u d :: l) := by
  have hpre' : y.preChar = x.preChar := by cases hy <;> rfl
  have hplain : (∀ i ∈ l, i.Plain) → ∀ i ∈ Item.cacheCall a 0 u :: Item.turn rt x u d :: l, i.Plain :=
    fun hl => List.forall_mem_cons.mpr ⟨trivial, List.forall_mem_cons.mpr ⟨trivial, hl⟩⟩
  cases h with
  | opening hs hc hp hl hin =>
    obtain rfl := hrule.text_held hs
    exact .opening (by rw [hy.state, hs]) (by rw [hy.cache]; exact Nat.le_refl 1) hp ⟨hl.1, hplain hl.2⟩
      (eachTurn_held.mpr ⟨.of_head (by decide), hin⟩)
  | inside v w p hr hs hc hp hl hpre htext hin =>
    obtain rfl := hrule.text_held hs
    exact .inside v w p hr (by rw [hy.state, hs]) (by rw [hy.cache]; exact Nat.le_refl 1) hp ⟨hl.1, hplain hl.2⟩
      (hpre'.trans hpre) htext (eachTurn_held.mpr ⟨.of_head (by decide), hin⟩)
  | quoted hs hl htext => exact .quoted (by rw [hy.state, hs]) hl htext
  | passed hl htext hin =>
    exact .passed (hl.append [.cacheCall a 0 u, .turn rt x u d]) htext
      (eachTurn_held.mpr ⟨.of_read hl.read_le, hin⟩)
  | spoilt hl hnot =>
    exact .spoilt (hl.append [.cacheCall a 0 u, .turn rt x u d]) fun h => hnot ⟨h.1, (eachTurn_held.mp h.2).2⟩

end Phases

/-- Passages that begin with a regular expression literal. -/
theorem regexPassage {r : List UInt8} (q : List UInt8) (hbody : RegexBody r) (hne : r ≠ [])
    (hstar : r.head? ≠ some star) : Passage jsMachine (fun x page => x.state.top = .text ∧ page = regex r ++ q)
      fun _ _ c u fut l => RegexPhase r q c u fut l where
  start {x rt u fut} h hfit hc := by
    have hall : ∀ st ∈ jsStates rt, st.top = .text → st = ⟨.text, []⟩ := by cases rt <;> decide
    have hs : x.state = ⟨.text, []⟩ := hall _ (JsFit.stack hfit) h.1
    exact .opening hs (by simp [hc]) h.2 ⟨rfl, by simp⟩ eachTurn_nil
  next {x c page u buf fut l} h := by
    have hplain : (∀ i ∈ l, i.Plain) → ∀ i ∈ Item.buffer :: l, i.Plain :=
      fun hl => List.forall_mem_cons.mpr ⟨trivial, hl⟩
    cases h with
    | opening hs hc hp hl hin =>
      exact .opening hs (by simp) (by simpa using hp) ⟨hl.1, hplain hl.2⟩ ((eachTurn_cons (by simp)).mpr hin)
    | inside v w p hr hs hc hp hl hpre htext hin =>
      exact .inside v w p hr hs (by simp) (by simpa using hp) ⟨hl.1, hplain hl.2⟩ hpre htext
        ((eachTurn_cons (by simp)).mpr hin)
    | quoted hs hl htext => exact .quoted hs hl htext
    | passed hl htext hin => exact .passed (hl.append [.buffer]) htext ((eachTurn_cons (by simp)).mpr hin)
    | spoilt hl hnot =>
      exact .spoilt (hl.append [.buffer]) fun h => hnot ⟨h.1, (eachTurn_cons (by simp)).mp h.2⟩
  turn old h _ hy _ hrule hgo := h.turn hbody hne hstar hrule hgo hy old
  hold _ old h _ _ hrule hy :=
    (h.hold hrule hy).of_eq old (Next.ended_state ..) (Next.ended_cache ..) (Next.ended_pre ..)
  done old h := h.of_eq old (Next.ended_state ..) (Next.ended_cache ..) (Next.ended_pre ..)

/-- A regular expression literal that the text state comes upon is copied in the text just when it is read
as text there, and none of its blanks is the first byte that is kept of a buffer. -/
theorem regex_copied_iff {cap : Option ℕ} {bufs : List (List UInt8)} {s : Session}
    (h : feedAll Flat cap .js .start bufs = .ok s) {newer older : List Item} {rt : Routine} {x : Ctx}
    {u r q : List UInt8} {d : ℕ} (htr : s.trace = newer ++ .turn rt x u d :: older)
    (hs : x.state.top = .text) (hpage : (consumed newer).reverse ++ s.ctx.cache = regex r ++ q)
    (hbody : RegexBody r) (hne : r ≠ []) (hstar : r.head? ≠ some star) :
    CopiedAsText (regex r) (newer ++ [.turn rt x u d]) ↔
      RegexAsText q.head? r ∧ EachTurn (NoFirstBlank (regex r).length) (newer ++ [.turn rt x u d]) := by
  have hpassage : Passage (machine .js) _ _ := regexPassage q hbody hne hstar
  have hphase : RegexPhase r q s.ctx s.ctx.cache [] (newer ++ [.turn rt x u d]) :=
    hpassage.session h htr hpage ⟨hs, rfl⟩
  cases hphase with
  | opening _ hc hp =>
    have hlen := congrArg List.length hp
    simp [regex] at hlen
    omega
  | inside v w p hr _ hc hp hl _ htext =>
    have hlen := congrArg List.length hp
    simp only [List.length_append, List.length_cons, List.length_nil] at hlen
    obtain rfl : w = [] := List.eq_nil_of_length_eq_zero (by omega)
    obtain rfl : q = [] := List.eq_nil_of_length_eq_zero (by omega)
    refine iff_of_false (fun hcopied => ?_) fun hkept => ?_
    · -- the slash that ends the literal is still held back
      have hle := hcopied.read_le
      have hread := congrArg List.length hl.1
      rw [List.length_reverse, ← hr] at hread
      simp only [hread, regex, List.length_cons, List.length_append, List.length_nil] at hle
      omega
    · obtain ⟨b, hb, -⟩ := htext.mpr hkept.1
      cases hb
  | quoted _ hl htext =>
    exact iff_of_false (fun hcopied => absurd hcopied.read_le (Nat.not_le_of_lt hl)) fun hkept => htext hkept.1
  | passed hl htext hin => exact iff_of_true hl ⟨htext, hin⟩
  | spoilt hl hnot => exact iff_of_false hl.not_copied hnot

/-- The page `=/\/a/;`, cut behind the backslash. -/
theorem regex_copied_cut : ∃ s newer, feedAll Flat none .js .start [lit "=/\\", lit "/a/;"] = .ok s ∧
    CopiedAsText (regex [backslash, slash, 97]) newer := by
  obtain ⟨s, newer, older, hs, htr, hf⟩ : ∃ s newer older,
      feedAll Flat none .js .start [lit "=/\\", lit "/a/;"] = .ok s ∧
        s.trace = newer ++ .turn .jsStripBuffer { Ctx.zero with preChar := 61 } (lit "/\\") 1 :: older ∧
        ((consumed newer).reverse ++ s.ctx.cache,
          decide (EachTurn (NoFirstBlank (regex [backslash, slash, 97]).length)
            (newer ++ [.turn .jsStripBuffer { Ctx.zero with preChar := 61 } (lit "/\\") 1]))) =
            (regex [backslash, slash, 97] ++ lit ";", true) :=
    exists_turn (n := 9) (f := fun s newer => ((consumed newer).reverse ++ s.ctx.cache,
      decide (EachTurn (NoFirstBlank (regex [backslash, slash, 97]).length)
        (newer ++ [.turn .jsStripBuffer { Ctx.zero with preChar := 61 } (lit "/\\") 1])))) (by decide +kernel)
  obtain ⟨hpage, hturns⟩ := Prod.mk.inj hf
  have hbody : RegexBody [backslash, slash, 97] := by
    rw [regexBody_escaped, regexBody_byte (by decide)]
    exact ⟨by decide, by decide, by decide, trivial⟩
  have htext : RegexAsText (lit ";").head? [backslash, slash, 97] := by
    rw [RegexAsText, readAsText_pair]
    exact ⟨by decide, by decide, _, rfl, by decide⟩
  exact ⟨s, _, hs, (regex_copied_iff hs htr rfl hpage hbody (by decide) (by decide)).mpr
    ⟨htext, of_decide_eq_true hturns⟩⟩

/-- The bytes behind which a slash begins a regular expression literal. -/
def regexBefore : List UInt8 := lit "(,=:!&|?;\x7b\x7d"

/-- In the page `=/\//;` the escaped slash and the slash that ends the literal are read as a comment. -/
theorem escaped_slash_comment : ¬ ∀ (bufs : List (List UInt8)) (s : Session) (newer older : List Item)
    (rt : Routine) (x : Ctx) (u r q : List UInt8) (d : ℕ), feedAll Flat none .js .start bufs = .ok s →
      s.trace = newer ++ .turn rt x u d :: older → x.state.top = .text →
        (∃ b ∈ regexBefore, (consumed older).head? = some b) →
          (consumed newer).reverse ++ s.ctx.cache = regex r ++ q → RegexBody r → r ≠ [] →
            r.head? ≠ some star → CopiedAsText (regex r) (newer ++ [.turn rt x u d]) := by
  intro h
  obtain ⟨s, newer, older, hs, htr, hf⟩ : ∃ s newer older,
      feedAll Flat none .js .start [lit "=/\\//;"] = .ok s ∧
        s.trace = newer ++ .turn .jsStripBuffer { Ctx.zero with preChar := 61 } (lit "/\\//;") 1 :: older ∧
        (consumed s.trace, consumed newer, s.ctx.cache, emitted newer) =
          (lit ";//\\/=", lit ";//\\/", [], lit "\\/") :=
    exists_turn (n := 9) (f := fun s newer => (consumed s.trace, consumed newer, s.ctx.cache, emitted newer))
      (by decide)
  simp only [Prod.mk.injEq] at hf
  obtain ⟨hall, hnewer, hcache, hout⟩ := hf
  have holder : consumed older = lit "=" := by
    rw [htr, consumed_append, hnewer] at hall
    exact List.append_cancel_left hall
  have hbody : RegexBody [backslash, slash] := by
    rw [regexBody_escaped]
    exact ⟨by decide, trivial⟩
  have hcopied := h _ s newer older _ _ _ _ (lit ";") _ hs htr rfl ⟨61, by decide, by rw [holder]; decide⟩
    (by rw [hnewer, hcache]; decide) hbody (by decide) (by decide)
  have hle := hcopied.written_le
  rw [emitted_append, hout] at hle
  revert hle
  decide

end NginB.Minify
