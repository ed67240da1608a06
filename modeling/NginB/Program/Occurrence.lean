import Mathlib.Data.List.Basic

/-! # Occurrences in a text

A text that ends with a token and does not have it before, and pieces that a text has one behind the
other.
-/
namespace NginB.Program

variable {α : Type*}

/-- In `w ++ tok` the token occurs at the end and nowhere before. -/
def EndsFirst (tok w : List α) : Prop := ∀ u v, w ++ tok = u ++ (tok ++ v) → v = []

namespace EndsFirst
variable {tok w q : List α} {b : α}

theorem tail (h : EndsFirst tok (b :: w)) : EndsFirst tok w := by
  intro u v he
  refine h (b :: u) v ?_
  rw [List.cons_append, he]
  rfl

/-- A byte in front with which the token does not begin. -/
theorem cons (h : EndsFirst tok w) (hb : tok.head? ≠ some b) (hne : tok ≠ []) : EndsFirst tok (b :: w) := by
  intro u v he
  rcases u with _ | ⟨a, u⟩
  · obtain ⟨c, tok, rfl⟩ := List.exists_cons_of_ne_nil hne
    obtain ⟨rfl, -⟩ := List.cons.inj he
    exact absurd rfl hb
  · exact h u v (List.cons.inj he).2

/-- The token comes first only where the text before it is empty. -/
theorem eq_nil (h : EndsFirst tok w) (hp : tok <+: w ++ (tok ++ q)) : w = [] := by
  have hlen : tok.length ≤ (w ++ tok).length := by
    rw [List.length_append]
    exact Nat.le_add_left _ _
  rw [← List.append_assoc] at hp
  obtain ⟨v, hv⟩ := List.prefix_of_prefix_length_le hp (List.prefix_append _ q) hlen
  have hnil := h [] v hv.symm
  rw [hnil, List.append_nil] at hv
  have hl := congrArg List.length hv
  rw [List.length_append] at hl
  exact List.eq_nil_of_length_eq_zero (by omega)

/-- A token that does not occur before its last byte does not end before it. -/
theorem of_notInfix {c : α} (h : ¬ tok ++ [c] <:+: w ++ tok) : EndsFirst (tok ++ [c]) w := by
  intro u v he
  rcases List.eq_nil_or_concat v with hv | ⟨v, b, rfl⟩
  · exact hv
  · refine absurd ⟨u, v, ?_⟩ h
    rw [List.concat_eq_append, ← List.append_assoc, ← List.append_assoc, ← List.append_assoc] at he
    have he' := (List.append_inj' he rfl).1
    rw [he', ← List.append_assoc]

end EndsFirst

/-- The token begins nowhere in `w`, behind which the text goes on with `ahead`. -/
def BeginsNowhere (tok w ahead : List α) : Prop := ∀ k < w.length, ¬ tok <+: (w ++ ahead).drop k

namespace BeginsNowhere
variable {tok w ahead l : List α}

theorem nil (tok ahead : List α) : BeginsNowhere tok [] ahead := fun k hk => absurd hk (Nat.not_lt_zero k)

/-- More of the text, in which the token does not begin either. -/
theorem append (h : BeginsNowhere tok w (l ++ ahead)) (hl : BeginsNowhere tok l ahead) :
    BeginsNowhere tok (w ++ l) ahead := by
  intro k hk hp
  rw [List.append_assoc] at hp
  rcases Nat.lt_or_ge k w.length with hlt | hge
  · exact h k hlt hp
  · rw [List.drop_append, List.drop_eq_nil_of_le hge, List.nil_append] at hp
    rw [List.length_append] at hk
    exact hl (k - w.length) (by omega) hp

theorem singleton {b : α} (h : ¬ tok <+: b :: ahead) : BeginsNowhere tok [b] ahead := by
  intro k hk
  obtain rfl : k = 0 := by simpa using hk
  exact h

/-- Where the token comes next, it ends there first. -/
theorem endsFirst {q : List α} (h : BeginsNowhere tok w (tok ++ q)) : EndsFirst tok w := by
  intro u v he
  by_contra hv
  have hlen := congrArg List.length he
  simp only [List.length_append] at hlen
  have hpos := List.length_pos_of_ne_nil hv
  refine h u.length (by omega) ⟨v ++ q, ?_⟩
  rw [← List.append_assoc w, he]
  simp

theorem not_isInfix (h : BeginsNowhere tok w ahead) (hne : tok ≠ []) : ¬ tok <:+: w := by
  rintro ⟨u, v, rfl⟩
  have hpos := List.length_pos_of_ne_nil hne
  refine h u.length (by simp; omega) ⟨v ++ ahead, ?_⟩
  simp

end BeginsNowhere

/-- The pieces occur in the text one behind the other. -/
def InOrder : List (List α) → List α → Prop
  | [], _ => True
  | p :: ps, text => ∃ before after, text = before ++ (p ++ after) ∧ InOrder ps after

namespace InOrder
variable {p text : List α} {ps : List (List α)}

theorem append (h : InOrder ps text) (more : List α) : InOrder ps (text ++ more) := by
  induction ps generalizing text with
  | nil => trivial
  | cons p ps ih =>
    obtain ⟨before, after, rfl, hafter⟩ := h
    exact ⟨before, after ++ more, by simp, ih hafter⟩

theorem concat (h : InOrder ps text) (p : List α) : InOrder (ps ++ [p]) (text ++ p) := by
  induction ps generalizing text with
  | nil => exact ⟨text, [], by simp, trivial⟩
  | cons p' ps ih =>
    obtain ⟨before, after, rfl, hafter⟩ := h
    exact ⟨before, after ++ p, by simp, ih hafter⟩

theorem isInfix (h : InOrder (p :: ps) text) : p <:+: text := by
  obtain ⟨before, after, rfl, -⟩ := h
  exact ⟨before, after, List.append_assoc ..⟩

end InOrder

end NginB.Program
