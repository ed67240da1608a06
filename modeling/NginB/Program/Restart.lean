import Mathlib.Algebra.Ring.Parity
import Mathlib.Data.List.Forall2
import Mathlib.Data.List.Induction

/-! # Matching without going back

A token is a list of letter classes. The matcher counts how many letters of it have come; at a letter
that does not fit it begins anew behind that letter, so it can miss a token whose first letter it has
taken for the end of an attempt.
-/
namespace NginB.Program

variable {α : Type*}

def Matches (cs : List (α → Bool)) (w : List α) : Prop := List.Forall₂ (fun c a => c a = true) cs w

/-- One letter more, with `k` letters of the token before it. -/
def advance (tok : List (α → Bool)) (k : ℕ) (a : α) : ℕ := if (tok[k]?).any (· a) then k + 1 else 0

def scan (tok : List (α → Bool)) (k : ℕ) (w : List α) : ℕ := w.foldl (advance tok) k

/-- The token does not stand in the text. -/
def Clear (tok : List (α → Bool)) (w : List α) : Prop := ∀ u v x, w = u ++ (v ++ x) → ¬ Matches tok v

/-- In `w ++ e` the token stands at the end, as `e`, and nowhere before. -/
structure FirstMatch (tok : List (α → Bool)) (w e : List α) : Prop where
  token : Matches tok e
  first : ∀ u v x, w ++ e = u ++ (v ++ x) → Matches tok v → x = []

/-- A front of the token, but not all of it. -/
structure Piece (tok : List (α → Bool)) (p : List α) : Prop where
  ne_nil : p ≠ []
  short : p.length < tok.length
  front : Matches (tok.take p.length) p

section Scan
variable {tok : List (α → Bool)} {c : α → Bool} {cs : List (α → Bool)} {k : ℕ} {a : α} {u v w e p : List α}
  {ps : List (List α)}

@[simp] theorem scan_nil : scan tok k [] = k := rfl
@[simp] theorem scan_cons : scan tok k (a :: w) = scan tok (advance tok k a) w := rfl

theorem scan_append : scan tok k (u ++ w) = scan tok (scan tok k u) w := List.foldl_append

theorem advance_fits (h : tok[k]? = some c) (ha : c a = true) : advance tok k a = k + 1 := by
  rw [advance, h, Option.any_some, if_pos ha]

theorem advance_misses (h : tok[k]? = some c) (ha : c a = false) : advance tok k a = 0 := by
  rw [advance, h, Option.any_some, ha, if_neg Bool.false_ne_true]

theorem advance_le : advance tok k a ≤ tok.length := by
  rw [advance]
  split
  · next h =>
    rw [Option.any_eq_true] at h
    obtain ⟨c, hc, -⟩ := h
    exact (List.getElem?_eq_some_iff.mp hc).1
  · exact Nat.zero_le _

theorem Clear.of_append (h : Clear tok (u ++ w)) : Clear tok u := by
  rintro u' v x rfl
  exact h u' v (x ++ w) (by simp)

theorem FirstMatch.clear (h : FirstMatch tok w e) (hne : e ≠ []) : Clear tok (w ++ e.dropLast) := by
  intro u v x he hv
  have hx := h.first u v (x ++ [e.getLast hne]) (by
    rw [← List.append_assoc v, ← List.append_assoc u, ← he, List.append_assoc,
      List.dropLast_append_getLast]) hv
  simp at hx

/-- A token stands only at the end where no letter before that fits the last class of it. -/
theorem FirstMatch.of_last (he : Matches tok e) (hc : tok.getLast? = some c)
    (h : ∀ a ∈ w ++ e.dropLast, c a = false) : FirstMatch tok w e := by
  obtain ⟨cs, rfl⟩ := List.getLast?_eq_some_iff.mp hc
  refine ⟨he, fun u v x heq hv => ?_⟩
  have hdrop := List.forall₂_drop cs.length hv
  rw [List.drop_left] at hdrop
  obtain ⟨a, _, ha, hnil, hlast⟩ := List.forall₂_cons_left_iff.mp hdrop
  obtain rfl := List.forall₂_nil_left_iff.mp hnil
  have hne : e ≠ [] := by
    rintro rfl
    exact absurd he.length_eq (by simp)
  by_contra hx
  have hmem : a ∈ (u ++ (v ++ x)).dropLast := by
    rw [List.dropLast_append_of_ne_nil (by simp [hx]), List.dropLast_append_of_ne_nil hx]
    have hv' : a ∈ v := List.mem_of_mem_drop (hlast ▸ List.mem_singleton.mpr rfl : a ∈ v.drop cs.length)
    exact List.mem_append_right _ (List.mem_append_left _ hv')
  rw [← heq, List.dropLast_append_of_ne_nil hne] at hmem
  rw [h a hmem] at ha
  cases ha

/-- As many letters as have been counted do fit. -/
theorem matches_scan (tok : List (α → Bool)) (w : List α) :
    ∃ u v, w = u ++ v ∧ Matches (tok.take (scan tok 0 w)) v := by
  induction w using List.reverseRecOn with
  | nil => exact ⟨[], [], rfl, .nil⟩
  | append_singleton w a ih =>
    obtain ⟨u, v, rfl, hv⟩ := ih
    rw [scan_append, scan_cons, scan_nil, advance]
    split
    · next h =>
      rw [Option.any_eq_true] at h
      obtain ⟨c, hc, ha⟩ := h
      refine ⟨u, v ++ [a], by rw [List.append_assoc], ?_⟩
      rw [List.take_add_one, hc]
      exact List.rel_append hv (.cons ha .nil)
    · exact ⟨u ++ v ++ [a], [], by rw [List.append_nil], .nil⟩

/-- The matcher does not come to the end of a token that is not there. -/
theorem scan_lt (h : Clear tok w) : scan tok 0 w < tok.length := by
  have hle : scan tok 0 w ≤ tok.length := by
    rcases List.eq_nil_or_concat w with rfl | ⟨w, a, rfl⟩
    · exact Nat.zero_le _
    · rw [List.concat_eq_append, scan_append, scan_cons, scan_nil]
      exact advance_le
  refine lt_of_le_of_ne hle fun heq => ?_
  obtain ⟨u, v, rfl, hv⟩ := matches_scan tok w
  rw [heq, List.take_length] at hv
  exact h u v [] (by rw [List.append_nil]) hv

theorem scan_matches (h : Matches cs v) (hp : cs <+: tok.drop k) : scan tok k v = k + v.length := by
  induction h generalizing k with
  | nil => rfl
  | @cons c a cs v ha hv ih =>
    obtain ⟨rest, hrest⟩ := hp
    have hget : tok[k]? = some c := by
      have hhead := congrArg List.head? hrest
      rw [List.head?_drop] at hhead
      exact hhead.symm
    have hdrop : cs <+: tok.drop (k + 1) := by
      refine ⟨rest, ?_⟩
      have htail := congrArg List.tail hrest
      rw [List.tail_drop] at htail
      exact htail
    rw [scan_cons, advance_fits hget ha, ih hdrop, List.length_cons]
    omega

/-- A text that does not end with a piece of the token. -/
theorem scan_eq_zero (h : Clear tok w) (hend : ∀ u p, w = u ++ p → ¬ Piece tok p) :
    scan tok 0 w = 0 := by
  have hlt := scan_lt h
  obtain ⟨u, v, rfl, hv⟩ := matches_scan tok w
  have hlen : v.length = scan tok 0 (u ++ v) := by
    rw [← hv.length_eq, List.length_take]
    omega
  by_contra hpos
  refine hend u v rfl ⟨?_, by omega, by rw [hlen]; exact hv⟩
  rintro rfl
  exact hpos hlen.symm

end Scan

section Headed
variable {c : α → Bool} {cs ds : List (α → Bool)} {k : ℕ} {a : α} {u v w e p : List α} {ps : List (List α)}

/-- Letters of the token behind its first one do not begin an attempt. -/
theorem scan_tail (hhead : ∀ a, c a = true → ∀ d ∈ cs, d a = false) (h : Matches ds v)
    (hds : ∀ d ∈ ds, d ∈ cs) : scan (c :: cs) 0 v = 0 := by
  induction h with
  | nil => rfl
  | @cons d a ds v ha hv ih =>
    have hc : c a = false := by
      by_contra hne
      rw [hhead a (Bool.of_not_eq_false hne) d (hds d List.mem_cons_self)] at ha
      cases ha
    rw [scan_cons, advance_misses (c := c) rfl hc]
    exact ih fun d hd => hds d (List.mem_cons_of_mem _ hd)

/-- In the middle of an attempt the first letter of the token ends it, and the token is missed. -/
theorem scan_missed (hhead : ∀ a, c a = true → ∀ d ∈ cs, d a = false) (ha : c a = true) (h : Matches ds v)
    (hds : ∀ d ∈ ds, d ∈ cs) (hk : k < cs.length) : scan (c :: cs) (k + 1) (a :: v) = 0 := by
  obtain ⟨d, hd⟩ : ∃ d, cs[k]? = some d := ⟨_, List.getElem?_eq_getElem hk⟩
  have hmiss : d a = false := hhead a ha d (List.mem_of_getElem? hd)
  have hget : (c :: cs)[k + 1]? = some d := by
    rw [List.getElem?_cons_succ]
    exact hd
  rw [scan_cons, advance_misses hget hmiss]
  exact scan_tail hhead h hds

theorem Piece.cons (h : Piece (c :: cs) p) : ∃ a v, p = a :: v ∧ c a = true ∧
    Matches (cs.take v.length) v ∧ v.length < cs.length := by
  obtain ⟨hne, hshort, hfront⟩ := h
  cases p with
  | nil => exact absurd rfl hne
  | cons a v =>
    rw [List.length_cons, List.take_succ_cons] at hfront
    obtain ⟨ha, hv⟩ := List.forall₂_cons.mp hfront
    exact ⟨a, v, rfl, ha, hv, Nat.lt_of_succ_lt_succ hshort⟩

theorem scan_piece (hhead : ∀ a, c a = true → ∀ d ∈ cs, d a = false) (h : Piece (c :: cs) p) :
    scan (c :: cs) 0 p = p.length ∧ ∀ k < cs.length, scan (c :: cs) (k + 1) p = 0 := by
  constructor
  · rw [scan_matches h.front (List.take_prefix _ _), Nat.zero_add]
  · obtain ⟨a, v, rfl, ha, hv, -⟩ := h.cons
    exact fun k hk => scan_missed hhead ha hv (fun d hd => List.mem_of_mem_take hd) hk

/-- Of pieces one behind the other every second one is missed. -/
theorem scan_flatten (hhead : ∀ a, c a = true → ∀ d ∈ cs, d a = false)
    (hps : ∀ p ∈ ps, Piece (c :: cs) p) :
    (scan (c :: cs) 0 ps.flatten = 0 ↔ Even ps.length) ∧
      ∀ k < cs.length, (scan (c :: cs) (k + 1) ps.flatten = 0 ↔ ¬ Even ps.length) := by
  induction ps with
  | nil => simp
  | cons p ps ih =>
    rw [List.forall_mem_cons] at hps
    obtain ⟨hzero, hpos⟩ := ih hps.2
    obtain ⟨hfirst, hmiss⟩ := scan_piece hhead hps.1
    obtain ⟨a, v, rfl, -, -, hlt⟩ := hps.1.cons
    rw [List.flatten_cons, List.length_cons, Nat.even_add_one]
    constructor
    · rw [scan_append, hfirst, List.length_cons]
      exact hpos _ hlt
    · intro k hk
      rw [scan_append, hmiss k hk, not_not]
      exact hzero

/-- The token is found where no attempt is going on. -/
theorem scan_token (hhead : ∀ a, c a = true → ∀ d ∈ cs, d a = false) (he : Matches (c :: cs) e)
    (hlt : scan (c :: cs) 0 w < (c :: cs).length) :
    scan (c :: cs) 0 (w ++ e) = if scan (c :: cs) 0 w = 0 then (c :: cs).length else 0 := by
  have hlen := he.length_eq
  rw [scan_append]
  split
  · next h0 => rw [h0, scan_matches he (List.prefix_refl _), hlen, Nat.zero_add]
  · next h0 =>
    obtain ⟨k, hk⟩ := Nat.exists_eq_succ_of_ne_zero h0
    obtain ⟨a, v, ha, hv, rfl⟩ := List.forall₂_cons_left_iff.mp he
    rw [hk]
    exact scan_missed hhead ha hv (fun _ hd => hd) (by rw [hk] at hlt; exact Nat.lt_of_succ_lt_succ hlt)

end Headed

end NginB.Program
