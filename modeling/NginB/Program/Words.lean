import Mathlib.Data.List.Basic

/-! # Words of a text

The words of a text are its maximal runs of elements that are not blank. A squeezer drops blanks
other than a separator, and separators next to one that it has kept; it keeps the words of a text
just when a separator is in every gap between them.
-/
namespace NginB.Program

variable {α : Type*}

/-- The maximal runs of elements that are not blank, in order. -/
def words (blank : α → Bool) (s : List α) : List (List α) :=
  (s.splitOnP blank).filter fun w => !w.isEmpty

section Words
variable {blank : α → Bool} {s t g : List α} {a b c : α}

theorem words_append_cons (hc : blank c = true) :
    words blank (s ++ c :: t) = words blank s ++ words blank t := by
  rw [words, List.splitOnP_append_cons s t hc, List.filter_append]
  rfl

theorem words_solid (hs : s ≠ []) (h : ∀ b ∈ s, blank b = false) : words blank s = [s] := by
  cases s with
  | nil => exact absurd rfl hs
  | cons b s => rw [words, List.splitOnP_eq_singleton h]; rfl

theorem words_concat_blank (hc : blank c = true) : words blank (s ++ [c]) = words blank s := by
  rw [words_append_cons hc]
  exact List.append_nil _

theorem words_append_blanks (hg : ∀ b ∈ g, blank b = true) : words blank (s ++ g) = words blank s := by
  induction g generalizing s with
  | nil => rw [List.append_nil]
  | cons c g ih =>
    rw [List.append_cons, ih fun b hb => hg b (List.mem_cons_of_mem c hb),
      words_concat_blank (hg c List.mem_cons_self)]

theorem words_gap (hg : ∀ c ∈ g, blank c = true) (hne : g ≠ []) (hb : blank b = false) :
    words blank (s ++ g ++ [b]) = words blank (s ++ g) ++ [[b]] := by
  rcases List.eq_nil_or_concat g with rfl | ⟨g, c, rfl⟩
  · exact absurd rfl hne
  · have hc : blank c = true := hg c (by simp)
    have hword : words blank [b] = [[b]] := words_solid (List.cons_ne_nil b []) (by simpa using hb)
    rw [List.concat_eq_append, ← List.append_assoc, words_concat_blank hc, List.append_assoc (s ++ g),
      List.singleton_append, words_append_cons hc, hword]

theorem exists_last_blank (s : List α) : (∀ b ∈ s, blank b = false) ∨
    ∃ u c v, s = u ++ c :: v ∧ blank c = true ∧ ∀ b ∈ v, blank b = false := by
  induction s with
  | nil => exact .inl fun b hb => absurd hb List.not_mem_nil
  | cons a s ih =>
    rcases ih with hs | ⟨u, c, v, rfl, hc, hv⟩
    · cases ha : blank a with
      | true => exact .inr ⟨[], a, s, rfl, ha, hs⟩
      | false => exact .inl (List.forall_mem_cons.mpr ⟨ha, hs⟩)
    · exact .inr ⟨a :: u, c, v, rfl, hc, hv⟩

/-- An element that is not blank lengthens the word that it follows. -/
theorem words_concat_solid (ha : blank a = false) (hb : blank b = false) : ∃ ws w,
    words blank (s ++ [a]) = ws ++ [w] ∧ words blank (s ++ [a] ++ [b]) = ws ++ [w ++ [b]] := by
  have hword (v : List α) (hv : ∀ b ∈ v, blank b = false) : words blank (v ++ [a]) = [v ++ [a]] ∧
      words blank (v ++ [a] ++ [b]) = [v ++ [a] ++ [b]] := by
    have h₁ : ∀ c ∈ v ++ [a], blank c = false := by simpa [or_imp, forall_and] using ⟨hv, ha⟩
    have h₂ : ∀ c ∈ v ++ [a] ++ [b], blank c = false := by
      simpa [or_imp, forall_and] using ⟨hv, ha, hb⟩
    exact ⟨words_solid (by simp) h₁, words_solid (by simp) h₂⟩
  rcases @exists_last_blank α blank s with hs | ⟨u, c, v, rfl, hc, hv⟩
  · obtain ⟨h₁, h₂⟩ := hword s hs
    exact ⟨[], s ++ [a], h₁, h₂⟩
  · obtain ⟨h₁, h₂⟩ := hword v hv
    refine ⟨words blank u, v ++ [a], ?_, ?_⟩
    · rw [List.append_assoc, List.cons_append, words_append_cons hc, h₁]
    · rw [List.append_assoc, List.append_assoc, List.cons_append, words_append_cons hc,
        ← List.append_assoc, h₂]

end Words

/-- Every gap between two words of the text has a separator. -/
def Separated (blank : α → Bool) (sp : α) (s : List α) : Prop :=
  ∀ u a g b v, s = u ++ a :: (g ++ b :: v) → blank a = false → blank b = false →
    (∀ c ∈ g, blank c = true) → g ≠ [] → sp ∈ g

section Separated
variable {blank : α → Bool} {sp : α} {s u v g h : List α} {a b c : α}

/-- What follows the last element that is not blank. -/
theorem last_gap_unique (he : u ++ a :: g = v ++ c :: h) (ha : blank a = false) (hc : blank c = false)
    (hg : ∀ b ∈ g, blank b = true) (hh : ∀ b ∈ h, blank b = true) : g = h := by
  rcases List.append_eq_append_iff.mp he with ⟨k, -, hk⟩ | ⟨k, -, hk⟩
  · cases k with
    | nil => exact (List.cons.inj hk).2
    | cons d k =>
      have hmem : c ∈ g := by rw [(List.cons.inj hk).2]; simp
      exact absurd (hg c hmem) (by simp [hc])
  · cases k with
    | nil => exact ((List.cons.inj hk).2).symm
    | cons d k =>
      have hmem : a ∈ h := by rw [(List.cons.inj hk).2]; simp
      exact absurd (hh a hmem) (by simp [ha])

theorem Separated.of_append (hs : Separated blank sp (s ++ v)) : Separated blank sp s := by
  intro u a g b w he
  refine hs u a g b (w ++ v) ?_
  rw [he]
  simp

theorem separated_concat_blank (hb : blank b = true) :
    Separated blank sp (s ++ [b]) ↔ Separated blank sp s := by
  constructor
  · exact Separated.of_append
  · intro hs u a g c v he ha hc hg hne
    rcases List.eq_nil_or_concat v with rfl | ⟨v, d, rfl⟩
    · rw [← List.cons_append, ← List.append_assoc] at he
      obtain rfl : b = c := List.singleton_inj.mp (List.append_inj' he rfl).2
      exact absurd hb (by simp [hc])
    · refine hs u a g c v ?_ ha hc hg hne
      have he' : s ++ [b] = u ++ a :: (g ++ c :: v) ++ [d] := by rw [he]; simp
      exact (List.append_inj' he' rfl).1

theorem separated_concat_solid (ha : blank a = false) (hb : blank b = false)
    (hg : ∀ c ∈ g, blank c = true) : Separated blank sp (u ++ a :: g ++ [b]) ↔
      Separated blank sp (u ++ a :: g) ∧ (g = [] ∨ sp ∈ g) := by
  constructor
  · intro hs
    refine ⟨hs.of_append, ?_⟩
    rw [or_iff_not_imp_left]
    exact hs u a g b [] (by simp) ha hb hg
  · rintro ⟨hs, hsp⟩ u' a' g' c v he ha' hc hg' hne
    rcases List.eq_nil_or_concat v with rfl | ⟨v, d, rfl⟩
    · rw [← List.cons_append, ← List.append_assoc] at he
      obtain rfl := last_gap_unique (List.append_inj' he rfl).1 ha ha' hg hg'
      exact hsp.resolve_left hne
    · refine hs u' a' g' c v ?_ ha' hc hg' hne
      have he' : u ++ a :: g ++ [b] = u' ++ a' :: (g' ++ c :: v) ++ [d] := by rw [he]; simp
      exact (List.append_inj' he' rfl).1

theorem separated_blanks (hs : ∀ c ∈ s, blank c = true) : Separated blank sp (s ++ [b]) := by
  intro u a g c v he ha
  have hmem : a ∈ s := by
    rcases List.eq_nil_or_concat v with rfl | ⟨v, d, rfl⟩
    · rw [← List.cons_append, ← List.append_assoc] at he
      rw [(List.append_inj' he rfl).1]
      simp
    · have he' : s ++ [b] = u ++ a :: (g ++ c :: v) ++ [d] := by rw [he]; simp
      rw [(List.append_inj' he' rfl).1]
      simp
  exact absurd (hs a hmem) (by simp [ha])

end Separated

/-- A text and what is left of it: blanks are dropped that are no separators or stand behind one
that is kept; what happens to a separator at the very beginning is left open. -/
inductive Squeezes (blank : α → Bool) (sp : α) : List α → List α → Prop
  | nil : Squeezes blank sp [] []
  | solid {s o b} (h : Squeezes blank sp s o) (hb : blank b = false) :
      Squeezes blank sp (s ++ [b]) (o ++ [b])
  | drop {s o b} (h : Squeezes blank sp s o) (hb : blank b = true)
      (ho : b ≠ sp ∨ o = [] ∨ o.getLast? = some sp) : Squeezes blank sp (s ++ [b]) o
  | keep {s o} (h : Squeezes blank sp s o) (hs : blank sp = true) (ho : o.getLast? ≠ some sp) :
      Squeezes blank sp (s ++ [sp]) (o ++ [sp])

inductive Squeezed (blank : α → Bool) (sp : α) (s o : List α) : Prop
  | blank (hs : ∀ b ∈ s, blank b = true) (ho : ∀ b ∈ o, blank b = true)
  | word {u e a g k} (hs : s = u ++ a :: g) (ho : o = e ++ a :: k) (ha : blank a = false)
      (hg : ∀ b ∈ g, blank b = true) (hk : ∀ b ∈ k, blank b = true) (hsp : k = [] ↔ sp ∉ g)

namespace Squeezes
variable {blank : α → Bool} {sp : α} {s o : List α}

theorem squeezed (h : Squeezes blank sp s o) (hsp : blank sp = true) : Squeezed blank sp s o := by
  induction h with
  | nil => exact .blank (by simp) (by simp)
  | @solid s o b _ hb _ => exact .word rfl rfl hb (by simp) (by simp) (by simp)
  | @drop s o b _ hb ho ih =>
    cases ih with
    | blank hs ho' => exact .blank (by simpa [or_imp, forall_and] using ⟨hs, hb⟩) ho'
    | @word u e a g k hs ho' ha hg hk hiff =>
      refine .word (u := u) (g := g ++ [b]) (by rw [hs]; simp) ho' ha
        (by simpa [or_imp, forall_and] using ⟨hg, hb⟩) hk ?_
      rcases ho with hne | hnil | hlast
      · rw [hiff]
        simp [Ne.symm hne]
      · rw [hnil] at ho'
        exact absurd ho' (by simp)
      · have hk' : k ≠ [] := by
          rintro rfl
          rw [ho', List.getLast?_append] at hlast
          obtain rfl : a = sp := by simpa using hlast
          simp [hsp] at ha
        have hmem : sp ∈ g := by
          by_contra hg'
          exact hk' (hiff.mpr hg')
        exact iff_of_false hk' (by simp [hmem])
  | @keep s o _ _ ho ih =>
    cases ih with
    | blank hs ho' =>
      exact .blank (by simpa [or_imp, forall_and] using ⟨hs, hsp⟩)
        (by simpa [or_imp, forall_and] using ⟨ho', hsp⟩)
    | @word u e a g k hs ho' ha hg hk hiff =>
      refine .word (u := u) (e := e) (g := g ++ [sp]) (k := k ++ [sp]) (by rw [hs]; simp)
        (by rw [ho']; simp) ha (by simpa [or_imp, forall_and] using ⟨hg, hsp⟩)
        (by simpa [or_imp, forall_and] using ⟨hk, hsp⟩) ?_
      simp

theorem words_cases (h : Squeezes blank sp s o) (hsp : blank sp = true) :
    Separated blank sp s ∧ words blank o = words blank s ∨
      ¬ Separated blank sp s ∧ (words blank o).length < (words blank s).length := by
  induction h with
  | nil => exact .inl ⟨fun u a g b v he => by simp at he, rfl⟩
  | @drop s o b _ hb ho ih =>
    rwa [separated_concat_blank hb, words_concat_blank hb]
  | @keep s o _ _ ho ih =>
    rwa [separated_concat_blank hsp, words_concat_blank hsp, words_concat_blank hsp]
  | @solid s o b h hb ih =>
    cases h.squeezed hsp with
    | blank hs ho =>
      have hword : words blank [b] = [[b]] := words_solid (List.cons_ne_nil b []) (by simpa using hb)
      have hstart {s : List α} (hs : ∀ b ∈ s, blank b = true) : words blank (s ++ [b]) = [[b]] := by
        rcases List.eq_nil_or_concat s with rfl | ⟨t, c, rfl⟩
        · exact hword
        · rw [List.concat_eq_append] at hs ⊢
          have hgap := words_gap (s := []) hs (by simp) hb
          have hnil := words_append_blanks (s := []) hs
          rw [List.nil_append] at hgap hnil
          rw [hgap, hnil]
          rfl
      exact .inl ⟨separated_blanks hs, by rw [hstart hs, hstart ho]⟩
    | @word u e a g k hs ho ha hg hk hiff =>
      subst hs ho
      have hnew {v h : List α} (hh : ∀ c ∈ h, blank c = true) (hne : h ≠ []) :
          words blank (v ++ a :: h ++ [b]) = words blank (v ++ a :: h) ++ [[b]] := by
        rw [List.append_cons v a h]
        exact words_gap hh hne hb
      rw [separated_concat_solid ha hb hg]
      by_cases hk' : k = []
      · obtain ⟨ws, w, hw, hwb⟩ := words_concat_solid (s := e) ha hb
        by_cases hg' : g = []
        · subst hk' hg'
          obtain ⟨vs, v, hv, hvb⟩ := words_concat_solid (s := u) ha hb
          rw [hw, hv] at ih
          rw [hwb, hvb]
          rcases ih with ⟨hs, he⟩ | ⟨hs, hlt⟩
          · obtain ⟨rfl, hlast⟩ := List.append_inj' he rfl
            obtain rfl := List.singleton_inj.mp hlast
            exact .inl ⟨⟨hs, .inl rfl⟩, rfl⟩
          · exact .inr ⟨fun hs' => hs hs'.1, by simpa using hlt⟩
        · have hgap : sp ∉ g := hiff.mp hk'
          have hle : (words blank (e ++ a :: k)).length ≤ (words blank (u ++ a :: g)).length := by
            rcases ih with ⟨-, he⟩ | ⟨-, hlt⟩
            · exact Nat.le_of_eq (congrArg List.length he)
            · exact Nat.le_of_lt hlt
          refine .inr ⟨fun hs' => hgap (hs'.2.resolve_left hg'), ?_⟩
          subst hk'
          rw [hw] at hle
          rw [hwb, hnew hg hg']
          simp only [List.length_append, List.length_singleton] at hle ⊢
          omega
      · have hmem : sp ∈ g := by
          by_contra hg'
          exact hk' (hiff.mpr hg')
        have hg' : g ≠ [] := List.ne_nil_of_mem hmem
        rw [hnew hg hg', hnew hk hk']
        rcases ih with ⟨hs, he⟩ | ⟨hs, hlt⟩
        · exact .inl ⟨⟨hs, .inr hmem⟩, by rw [he]⟩
        · exact .inr ⟨fun hs' => hs hs'.1, by simpa using hlt⟩

theorem words_iff (h : Squeezes blank sp s o) (hsp : blank sp = true) :
    words blank o = words blank s ↔ Separated blank sp s := by
  rcases h.words_cases hsp with ⟨hs, he⟩ | ⟨hs, hlt⟩
  · exact iff_of_true he hs
  · exact iff_of_false (fun he => absurd (congrArg List.length he) (Nat.ne_of_lt hlt)) hs

end Squeezes

end NginB.Program
