import Mathlib.Data.List.DropRight
import Mathlib.Tactic.IntervalCases
import NginB.Program.Restart
import NginB.Strip.BodyFilter

/-! # Where comments and preformatted elements end

In a comment and in a `<pre>` element everything is written, up to a `-->` and a `</pre>`. Both are
looked for byte by byte, and an attempt that fails is not looked at again: so some of these tokens
are missed, and the rest of the page is read as part of the comment or of the element.
-/
namespace NginB.Strip
open NginB.Program NginB.Minify.Ascii
open NginB.Minify (lit isBlank)

/-- `<pre` in any case, with a space or a `>` behind it. -/
def preStart : List (UInt8 → Bool) :=
  [(· = lt), isLetter 112, isLetter 114, isLetter 101, fun b => b = space || b = gt]

def preEnd : List (UInt8 → Bool) :=
  [(· = lt), (· = slash), isLetter 112, isLetter 114, isLetter 101, (· = gt)]

def preState : ℕ → StripState
  | 0 => .preformatted
  | 1 => .preformattedAngle
  | 2 => .preformattedAngleSlash
  | 3 => .preformattedAngleSlashP
  | 4 => .preformattedAngleSlashPr
  | 5 => .preformattedAngleSlashPre
  | _ => .text

def commentEnd : List (UInt8 → Bool) := [(· = dash), (· = dash), (· = gt)]

def commentState : ℕ → StripState
  | 0 => .comment
  | 1 => .commentDash
  | 2 => .commentDashDash
  | _ => .text

/-- The states of the reader are those of a matcher, and it writes all that it reads. -/
def Follows (tok : List (UInt8 → Bool)) (st : ℕ → StripState) : Prop :=
  ∀ k < tok.length, ∀ b, dispatch (st k) b = .go (st (advance tok k b)) b

theorem preState_follows : Follows preEnd preState := by
  intro k hk b
  have hk : k < 6 := hk
  interval_cases k
  all_goals
    simp only [preState, dispatch, advance, preEnd, List.getElem?_cons_zero, List.getElem?_cons_succ,
      Option.any_some, decide_eq_true_eq]
    split_ifs with hb <;> simp [hb]

theorem commentState_follows : Follows commentEnd commentState := by
  intro k hk b
  have hk : k < 3 := hk
  interval_cases k
  all_goals
    simp only [commentState, dispatch, advance, commentEnd, List.getElem?_cons_zero,
      List.getElem?_cons_succ, Option.any_some, decide_eq_true_eq]
    split_ifs with hb <;> simp [hb]

section Runs
variable {tok : List (UInt8 → Bool)} {st : ℕ → StripState} {w e : List UInt8} {b : UInt8}

theorem Follows.concat (hst : Follows tok st) (hlt : scan tok 0 w < tok.length)
    (hw : stripper.run (st 0) w = st (scan tok 0 w) ∧ stripper.out (st 0) w = w) (b : UInt8) :
    stripper.run (st 0) (w ++ [b]) = st (scan tok 0 (w ++ [b])) ∧
      stripper.out (st 0) (w ++ [b]) = w ++ [b] := by
  obtain ⟨hnext, hemit⟩ := stripper_go (hst _ hlt b)
  rw [Mealy.run_append, Mealy.out_append, hw.1, hw.2, scan_append]
  exact ⟨hnext, by rw [Mealy.out_cons, Mealy.out_nil, hemit, List.append_nil]⟩

theorem Follows.run (hst : Follows tok st) (h : Clear tok w) :
    stripper.run (st 0) w = st (scan tok 0 w) ∧ stripper.out (st 0) w = w := by
  induction w using List.reverseRecOn with
  | nil => exact ⟨rfl, rfl⟩
  | append_singleton w b ih => exact hst.concat (scan_lt h.of_append) (ih h.of_append) b

/-- A text that ends with the token and does not have it before. -/
theorem Follows.run_token (hst : Follows tok st) (hne : e ≠ []) (h : Clear tok (w ++ e.dropLast)) :
    stripper.run (st 0) (w ++ e) = st (scan tok 0 (w ++ e)) ∧ stripper.out (st 0) (w ++ e) = w ++ e := by
  have he : w ++ e = w ++ e.dropLast ++ [e.getLast hne] := by
    rw [List.append_assoc, List.dropLast_append_getLast]
  rw [he]
  exact hst.concat (scan_lt h) (hst.run h) (e.getLast hne)

end Runs

section Comments
variable {w : List UInt8}

/-- Of a run of dashes every third one ends an attempt. -/
theorem scan_comment (h : Clear commentEnd w) :
    scan commentEnd 0 w = (w.rtakeWhile (· = dash)).length % 3 := by
  induction w using List.reverseRecOn with
  | nil => rfl
  | append_singleton w b ih =>
    have hscan := ih h.of_append
    have hlt : scan commentEnd 0 w < 3 := scan_lt h.of_append
    have hfound : advance commentEnd (scan commentEnd 0 w) b < 3 := by
      have hall := scan_lt h
      rw [scan_append] at hall
      exact hall
    rw [scan_append, scan_cons, scan_nil]
    by_cases hb : b = dash
    · rw [List.rtakeWhile_concat_pos _ _ _ (by simpa using hb), List.length_append,
        List.length_singleton, Nat.add_mod, ← hscan]
      generalize scan commentEnd 0 w = k at hlt ⊢
      interval_cases k <;> simp [advance, commentEnd, hb]
    · rw [List.rtakeWhile_concat_neg _ _ _ (by simpa using hb)]
      generalize scan commentEnd 0 w = k at hlt hfound ⊢
      interval_cases k
      · simpa [advance, commentEnd] using hb
      · simpa [advance, commentEnd] using hb
      · have hgt : b ≠ gt := by
          rintro rfl
          exact absurd hfound (by decide)
        simpa [advance, commentEnd] using hgt

/-- The token is found where no attempt is going on. -/
theorem scan_comment_token (hlt : scan commentEnd 0 w < 3) :
    scan commentEnd 0 (w ++ lit "-->") = if scan commentEnd 0 w = 0 then 3 else 0 := by
  rw [scan_append]
  generalize scan commentEnd 0 w = k at hlt ⊢
  interval_cases k <;> decide

end Comments

def InText (s : StripState) : Prop := s = .text ∨ s = .textWhitespace

section Openings
variable {s : StripState} {o : List UInt8} {b : UInt8}

theorem InText.live (h : InText s) : Live s := by
  rcases h with rfl | rfl <;> decide

theorem InText.lt (h : InText s) : stripper.next s lt = .tag ∧ stripper.emit s lt = [lt] := by
  rcases h with rfl | rfl <;> exact ⟨rfl, rfl⟩

theorem InText.solid (h : InText s) (hb : isBlank b = false) (hlt : b ≠ Minify.Ascii.lt) :
    stripper.next s b = .text ∧ stripper.emit s b = [b] := by
  rw [isBlank_eq, Bool.or_eq_false_iff, decide_eq_false_iff_not] at hb
  have hbreak : ¬ isBreak b = true := by simp [hb.1]
  rcases h with rfl | rfl
  · exact stripper_go (by rw [dispatch, if_neg hbreak, if_neg hlt, if_neg hb.2])
  · exact stripper_go (by rw [dispatch, if_neg (by simp [hb.1, hb.2]), if_neg hlt])

theorem InText.comment (h : InText s) :
    stripper.run s (lit "<!--") = .comment ∧ stripper.out s (lit "<!--") = lit "<!--" := by
  rcases h with rfl | rfl <;> exact ⟨rfl, rfl⟩

theorem InText.pre (h : InText s) (ho : Matches preStart o) :
    stripper.run s o = .preformatted ∧ stripper.out s o = o := by
  simp only [Matches, preStart, List.forall₂_cons_left_iff, List.forall₂_nil_left_iff, Bool.or_eq_true,
    decide_eq_true_eq] at ho
  obtain ⟨_, _, rfl, ⟨p, _, hp, ⟨r, _, hr, ⟨e, _, he, ⟨c, _, hc, rfl, rfl⟩, rfl⟩, rfl⟩, rfl⟩, rfl⟩ := ho
  rcases h with rfl | rfl <;> rcases isLetter_cases hp with rfl | rfl <;>
    rcases isLetter_cases hr with rfl | rfl <;> rcases isLetter_cases he with rfl | rfl <;>
    rcases hc with rfl | rfl <;> exact ⟨rfl, rfl⟩

end Openings

section Responses
variable {calls : List Call} {p o w e u : List UInt8} {ps : List (List UInt8)}

/-- A comment is written as it is, and it ends at its first `-->` just when the number of dashes in
front of that is a multiple of three. Otherwise it goes on behind that `-->`. -/
theorem comment_left_iff (hd : ∀ c ∈ calls, c.Delivered) (hp : InText (stripper.run .text p))
    (hpage : page calls = p ++ (lit "<!--" ++ (w ++ lit "-->")))
    (hw : FirstMatch commentEnd w (lit "-->")) :
    ∃ s outs, respond (some .text) calls = (some s, outs) ∧
      page outs = stripper.out .text p ++ (lit "<!--" ++ (w ++ lit "-->")) ∧
      (s = .text ↔ 3 ∣ (w.rtakeWhile (· = dash)).length) ∧ (s ≠ .text → s = .comment) := by
  obtain ⟨outs, hrun, hout, -⟩ := respond_some .text hd
  obtain ⟨hopen, hopened⟩ := hp.comment
  have hne : lit "-->" ≠ [] := by decide
  have hclear := hw.clear hne
  obtain ⟨hend, hbody⟩ := commentState_follows.run_token hne hclear
  have hlt : scan commentEnd 0 w < 3 := scan_lt hclear.of_append
  rw [scan_comment_token hlt, scan_comment hclear.of_append] at hend
  refine ⟨_, outs, hrun, ?_, ?_⟩
  · rw [hout, hpage, Mealy.out_append_append, hopened, hopen]
    exact congrArg _ (congrArg _ hbody)
  · have hstate : stripper.run .text (page calls) =
        commentState (if (w.rtakeWhile (· = dash)).length % 3 = 0 then 3 else 0) := by
      rw [hpage, Mealy.run_append, Mealy.run_append, hopen]
      exact hend
    rw [hstate, Nat.dvd_iff_mod_eq_zero]
    split
    · next h0 => exact ⟨iff_of_true rfl h0, fun hne => absurd rfl hne⟩
    · next h0 => exact ⟨iff_of_false (by decide) h0, fun _ => rfl⟩

/-- One dash in front of its `-->`, and the comment runs on. -/
theorem comment_left_iff_dash : ∃ outs,
    respond (some .text) [Call.holding (lit "a<!--b--->")] = (some .comment, outs) := by
  have hd : ∀ c ∈ [Call.holding (lit "a<!--b--->")], c.Delivered := by
    simpa using Call.holding_delivered (lit "a<!--b--->")
  have ht : Matches commentEnd (lit "-->") := .cons rfl (.cons rfl (.cons rfl .nil))
  have hw : FirstMatch commentEnd (lit "b-") (lit "-->") := .of_last ht rfl (by decide +kernel)
  have hpage : page [Call.holding (lit "a<!--b--->")] = lit "a" ++ (lit "<!--" ++ (lit "b-" ++ lit "-->")) :=
    page_holding [lit "a<!--b--->"]
  obtain ⟨s, outs, hrun, -, hiff, hs⟩ := comment_left_iff hd (.inl rfl) hpage hw
  have hne : s ≠ .text := fun h => absurd (hiff.mp h) (by decide)
  rw [hs hne] at hrun
  exact ⟨outs, hrun⟩

/-- A `<pre>` element is written as it is. Its content is some text that does not end with a part of an
end tag, and parts of end tags behind it; it ends at its first end tag just when the number of these
parts is even. Otherwise its content goes on behind that tag. -/
theorem pre_left_iff (hd : ∀ c ∈ calls, c.Delivered) (hp : InText (stripper.run .text p))
    (hpage : page calls = p ++ (o ++ (w ++ e))) (ho : Matches preStart o) (hw : FirstMatch preEnd w e)
    (hparts : w = u ++ ps.flatten) (hps : ∀ q ∈ ps, Piece preEnd q)
    (hu : ∀ v q, u = v ++ q → ¬ Piece preEnd q) :
    ∃ s outs, respond (some .text) calls = (some s, outs) ∧
      page outs = stripper.out .text p ++ (o ++ (w ++ e)) ∧
      (s = .text ↔ Even ps.length) ∧ (s ≠ .text → s = .preformatted) := by
  obtain ⟨outs, hrun, hout, -⟩ := respond_some .text hd
  obtain ⟨hopen, hopened⟩ := hp.pre ho
  have hne : e ≠ [] := by
    rintro rfl
    exact absurd hw.token.length_eq (by decide)
  have hclear := hw.clear hne
  obtain ⟨hend, hbody⟩ := preState_follows.run_token hne hclear
  have hhead : ∀ a, decide (a = lt) = true → ∀ d ∈ preEnd.tail, d a = false := by
    intro a ha
    rw [decide_eq_true_eq] at ha
    subst ha
    simp only [preEnd, List.tail_cons, List.forall_mem_cons]
    exact ⟨rfl, rfl, rfl, rfl, rfl, fun _ hd => absurd hd List.not_mem_nil⟩
  have hscan : scan preEnd 0 w = 0 ↔ Even ps.length := by
    rw [hparts, scan_append, scan_eq_zero (w := u) (hparts ▸ hclear.of_append).of_append hu]
    exact (scan_flatten hhead hps).1
  have htoken := scan_token hhead hw.token (scan_lt hclear.of_append)
  refine ⟨_, outs, hrun, ?_, ?_⟩
  · rw [hout, hpage, Mealy.out_append_append, hopened, hopen]
    exact congrArg _ (congrArg _ hbody)
  · have hstate : stripper.run .text (page calls) = preState (if scan preEnd 0 w = 0 then 6 else 0) := by
      rw [hpage, Mealy.run_append, Mealy.run_append, hopen]
      exact hend.trans (congrArg preState htoken)
    rw [hstate, ← hscan]
    split
    · next h0 => exact ⟨iff_of_true rfl h0, fun hne => absurd rfl hne⟩
    · next h0 => exact ⟨iff_of_false (by decide) h0, fun _ => rfl⟩

/-- One `<` in front of its end tag, and the element runs on. -/
theorem pre_left_iff_angle : ∃ outs,
    respond (some .text) [Call.holding (lit "<pre>b<</pre>")] = (some .preformatted, outs) := by
  have hd : ∀ c ∈ [Call.holding (lit "<pre>b<</pre>")], c.Delivered := by
    simpa using Call.holding_delivered (lit "<pre>b<</pre>")
  have ho : Matches preStart (lit "<pre>") :=
    .cons rfl (.cons rfl (.cons rfl (.cons rfl (.cons rfl .nil))))
  have ht : Matches preEnd (lit "</pre>") :=
    .cons rfl (.cons rfl (.cons rfl (.cons rfl (.cons rfl (.cons rfl .nil)))))
  have hw : FirstMatch preEnd (lit "b<") (lit "</pre>") := .of_last ht rfl (by decide +kernel)
  have hps : ∀ q ∈ [lit "<"], Piece preEnd q := by
    intro q hq
    obtain rfl := List.mem_singleton.mp hq
    exact ⟨by decide, by decide, .cons rfl .nil⟩
  have hu : ∀ v q, lit "b" = v ++ q → ¬ Piece preEnd q := by
    intro v q he hq
    rcases List.append_eq_singleton_iff.mp he.symm with ⟨-, rfl⟩ | ⟨-, rfl⟩
    · obtain ⟨a, v, hav, ha, -⟩ := hq.cons
      obtain ⟨rfl, -⟩ := List.cons.inj hav
      exact absurd ha (by decide)
    · exact hq.ne_nil rfl
  have hpage : page [Call.holding (lit "<pre>b<</pre>")] = [] ++ (lit "<pre>" ++ (lit "b<" ++ lit "</pre>")) :=
    page_holding [lit "<pre>b<</pre>"]
  have hparts : lit "b<" = lit "b" ++ [lit "<"].flatten := rfl
  obtain ⟨s, outs, hrun, -, hiff, hs⟩ := pre_left_iff hd (.inl rfl) hpage ho hw hparts hps hu
  have hne : s ≠ .text := fun h => absurd (hiff.mp h) (by decide)
  rw [hs hne] at hrun
  exact ⟨outs, hrun⟩

end Responses

end NginB.Strip
