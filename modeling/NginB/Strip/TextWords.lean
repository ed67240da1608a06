import Mathlib.Data.List.Chain
import NginB.Program.Words
import NginB.Strip.Closings

/-! # The words of the text

In the text every run of white space is left out but for its first space. So the words of a text are
kept apart only by spaces: two words with line breaks and tabs between them are joined.
-/
namespace NginB.Strip
open NginB.Program NginB.Minify.Ascii
open NginB.Minify (lit isBlank)

/-- What the reader has made of a text, with the state behind it. -/
structure Tidied (s : StripState) (t o : List UInt8) : Prop where
  inText : InText s
  squeezes : Squeezes isBlank space t o
  text : s = .text → o.getLast? ≠ some space
  white : s = .textWhitespace → o = [] ∨ o.getLast? = some space
  single : o.IsChain fun a b => ¬ (a = space ∧ b = space)
  noBreak : ∀ b ∈ o, isBreak b = false

namespace Tidied
variable {s : StripState} {t o : List UInt8} {b : UInt8}

theorem nil (h : InText s) : Tidied s [] [] where
  inText := h
  squeezes := .nil
  text _ := by simp
  white _ := .inl rfl
  single := .nil
  noBreak _ hb := absurd hb List.not_mem_nil

theorem getLast_concat (o : List UInt8) (b : UInt8) : (o ++ [b]).getLast? = some b :=
  List.getLast?_concat

theorem chain_concat (h : o.IsChain fun a b => ¬ (a = space ∧ b = space))
    (hb : b = space → o.getLast? ≠ some space) :
    (o ++ [b]).IsChain fun a b => ¬ (a = space ∧ b = space) := by
  refine List.isChain_append.mpr ⟨h, .singleton b, ?_⟩
  rintro a ha c hc ⟨rfl, rfl⟩
  exact hb (Option.some.inj hc) ha

/-- A byte that is neither white space nor a `<`. -/
theorem solid (h : Tidied s t o) (hb : isBlank b = false) : Tidied .text (t ++ [b]) (o ++ [b]) := by
  have hne : b ≠ space := by
    rintro rfl
    exact absurd hb (by decide)
  have hbreak : isBreak b = false := by
    rw [isBlank_eq, Bool.or_eq_false_iff] at hb
    exact hb.1
  refine ⟨.inl rfl, h.squeezes.solid hb, fun _ => ?_, fun h => absurd h (by decide),
    chain_concat h.single fun he => absurd he hne, ?_⟩
  · rw [getLast_concat]
    exact fun he => hne (Option.some.inj he)
  · simpa [or_imp, forall_and, hbreak] using h.noBreak

theorem drop (h : Tidied s t o) (hb : isBlank b = true) (ho : b = space → s = .textWhitespace) :
    Tidied s (t ++ [b]) o := by
  refine ⟨h.inText, h.squeezes.drop hb ?_, h.text, h.white, h.single, h.noBreak⟩
  by_cases he : b = space
  · exact .inr (h.white (ho he))
  · exact .inl he

theorem keep (h : Tidied .text t o) : Tidied .textWhitespace (t ++ [space]) (o ++ [space]) := by
  refine ⟨.inr rfl, h.squeezes.keep rfl (h.text rfl), fun h => absurd h (by decide),
    fun _ => .inr (getLast_concat o space), chain_concat h.single fun _ => h.text rfl, ?_⟩
  simpa [or_imp, forall_and] using ⟨h.noBreak, rfl⟩

theorem step (h : Tidied s t o) (hb : b ≠ lt) :
    Tidied (stripper.next s b) (t ++ [b]) (o ++ stripper.emit s b) := by
  by_cases hblank : isBlank b = true
  · have hcases := hblank
    rw [isBlank_eq, Bool.or_eq_true, decide_eq_true_eq] at hcases
    rcases h.inText with rfl | rfl
    · by_cases hbreak : isBreak b = true
      · obtain ⟨hn, he⟩ := stripper_pass (s := .text) (b := b) (by rw [dispatch, if_pos hbreak])
        have hne : b ≠ space := by
          rintro rfl
          exact absurd hbreak (by decide)
        rw [hn, he, List.append_nil]
        exact h.drop hblank fun hs => absurd hs hne
      · obtain rfl := hcases.resolve_left hbreak
        exact h.keep
    · obtain ⟨hn, he⟩ := stripper_pass (s := .textWhitespace) (b := b) (by rw [dispatch, if_pos hcases])
      rw [hn, he, List.append_nil]
      exact h.drop hblank fun _ => rfl
  · have hsolid := Bool.eq_false_iff.mpr hblank
    obtain ⟨hn, he⟩ := h.inText.solid hsolid hb
    rw [hn, he]
    exact h.solid hsolid

end Tidied

theorem tidied {s : StripState} {t : List UInt8} (hs : InText s) (ht : lt ∉ t) :
    Tidied (stripper.run s t) t (stripper.out s t) := by
  induction t using List.reverseRecOn with
  | nil => exact .nil hs
  | append_singleton t b ih =>
    rw [List.mem_append, List.mem_singleton, not_or] at ht
    rw [Mealy.run_append, Mealy.out_append, Mealy.run_cons, Mealy.run_nil, Mealy.out_cons, Mealy.out_nil,
      List.append_nil]
    exact (ih ht.1).step (Ne.symm ht.2)

section Responses
variable {calls : List Call} {p t q : List UInt8}

/-- A text without a `<` in a page, wherever the page is cut: what is written for it has no two spaces
next to each other and no other white space, and it has the words of the text just when every white
space between two of them has a space. -/
theorem text_words_left_iff (hd : ∀ c ∈ calls, c.Delivered) (hp : InText (stripper.run .text p))
    (ht : lt ∉ t) (hpage : page calls = p ++ (t ++ q)) :
    ∃ s outs o, respond (some .text) calls = (some s, outs) ∧
      page outs = stripper.out .text p ++ (o ++ stripper.out (stripper.run .text (p ++ t)) q) ∧
      InText (stripper.run .text (p ++ t)) ∧ (o.IsChain fun a b => ¬ (a = space ∧ b = space)) ∧
      (∀ b ∈ o, isBlank b = true → b = space) ∧
      (words isBlank o = words isBlank t ↔ Separated isBlank space t) := by
  obtain ⟨outs, hrun, hout, -⟩ := respond_some .text hd
  have htidy := tidied hp ht
  rw [← Mealy.run_append] at htidy
  refine ⟨_, outs, _, hrun, ?_, htidy.inText, htidy.single, fun b hb hblank => ?_,
    htidy.squeezes.words_iff rfl⟩
  · rw [hout, hpage, Mealy.out_append_append, Mealy.run_append]
  · rw [isBlank_eq, htidy.noBreak b hb, Bool.false_or, decide_eq_true_eq] at hblank
    exact hblank

/-- Two words with a line break between them are joined. -/
theorem text_words_left_iff_break : ∃ s outs o,
    respond (some .text) [Call.holding (97 :: lf :: lit "b<")] = (some s, outs) ∧
      page outs = o ++ lit "<" ∧ words isBlank o ≠ [lit "a", lit "b"] := by
  have hd : ∀ c ∈ [Call.holding (97 :: lf :: lit "b<")], c.Delivered := by
    simpa using Call.holding_delivered (97 :: lf :: lit "b<")
  have hpage : page [Call.holding (97 :: lf :: lit "b<")] = [] ++ (97 :: lf :: lit "b" ++ lit "<") :=
    page_holding [97 :: lf :: lit "b<"]
  have hnot : ¬ Separated isBlank space (97 :: lf :: lit "b") := fun h =>
    absurd (h [] 97 [lf] 98 [] rfl rfl rfl (by decide +kernel) (by decide)) (by decide)
  obtain ⟨s, outs, o, hrun, hout, -, -, -, hwords⟩ :=
    text_words_left_iff hd (.inl rfl) (by decide) hpage
  exact ⟨s, outs, o, hrun, hout, fun he => hnot (hwords.mp he)⟩

end Responses

end NginB.Strip
