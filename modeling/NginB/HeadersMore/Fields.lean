import NginB.HeadersMore.HeadersOut

/-! # The fields of a response

What is sent of a list of headers: for each name the values of the headers that have it, in their order,
without those that have been deleted. A command of the module is an update of such a table.
-/
namespace NginB.HeadersMore
open NginB.Minify (lit toLower strncasecmpEq)

def lower (name : List UInt8) : List UInt8 := name.map toLower

def TableElt.name (e : TableElt) : List UInt8 := lower e.key

def TableElt.sent (e : TableElt) (k : List UInt8) : List (List UInt8) :=
  if e.hash ≠ 0 ∧ e.name = k then [e.value] else []

def fields (hs : List TableElt) (k : List UInt8) : List (List UInt8) := hs.flatMap fun e => e.sent k

def HeaderVal.covers {υ : Type} (hv : HeaderVal υ) (k : List UInt8) : Prop :=
  if hv.wildcard then (lower hv.key).dropLast <+: k else k = lower hv.key

instance {υ : Type} (hv : HeaderVal υ) (k : List UInt8) : Decidable (hv.covers k) :=
  inferInstanceAs (Decidable (if hv.wildcard = true then (lower hv.key).dropLast <+: k else k = lower hv.key))

def single (value : List UInt8) : List (List UInt8) := if value = [] then [] else [value]

section Sent
variable {e : TableElt} {es hs hs' : List TableElt} {k : List UInt8} {i : ℕ} {f : TableElt → TableElt}

@[simp] theorem fields_nil : fields [] k = [] := rfl

@[simp] theorem fields_cons : fields (e :: es) k = e.sent k ++ fields es k := List.flatMap_cons

@[simp] theorem fields_append : fields (hs ++ hs') k = fields hs k ++ fields hs' k := List.flatMap_append

theorem sent_deleted (h : e.hash = 0) : e.sent k = [] := if_neg fun hk => hk.1 h

theorem sent_other (h : e.name ≠ k) : e.sent k = [] := if_neg fun hk => h hk.2

theorem fields_eq_nil (h : ∀ e ∈ hs, e.name = k → e.hash = 0) : fields hs k = [] := by
  refine List.flatMap_eq_nil_iff.mpr fun e he => ?_
  by_cases hk : e.name = k
  · exact sent_deleted (h e he hk)
  · exact sent_other hk

/-- A header that keeps its name and is sent with a value, or is deleted. -/
theorem sent_single {value : List UInt8} (hk : e.name = k) (hv : e.value = value)
    (hh : e.hash = 0 ↔ value = []) : e.sent k = single value := by
  rw [TableElt.sent, single, hv]
  by_cases h : value = []
  · rw [if_pos h, if_neg fun hne => hne.1 (hh.mpr h)]
  · rw [if_neg h, if_pos ⟨fun h0 => h (hh.mp h0), hk⟩]

theorem modify_split (h : hs[i]? = some e) : ∃ pre post, hs = pre ++ e :: post ∧ pre.length = i ∧
    ∀ f : TableElt → TableElt, hs.modify i f = pre ++ f e :: post := by
  obtain ⟨hi, he⟩ := List.getElem?_eq_some_iff.mp h
  refine ⟨hs.take i, hs.drop (i + 1), ?_, List.length_take_of_le (Nat.le_of_lt hi), fun f => ?_⟩
  · rw [← he, List.getElem_cons_drop, List.take_append_drop]
  · rw [List.modify_eq_take_cons_drop hi, he]

/-- The headers around one of them stand at other places. -/
theorem exists_index {e' : TableElt} {pre post : List TableElt} (hhs : hs = pre ++ e :: post)
    (he' : e' ∈ pre ++ post) : ∃ j, hs[j]? = some e' ∧ j ≠ pre.length := by
  rw [hhs]
  rcases List.mem_append.mp he' with hmem | hmem
  · obtain ⟨j, hj⟩ := List.getElem?_of_mem hmem
    have hlt := (List.getElem?_eq_some_iff.mp hj).1
    exact ⟨j, by rw [List.getElem?_append_left hlt, hj], Nat.ne_of_lt hlt⟩
  · obtain ⟨j, hj⟩ := List.getElem?_of_mem hmem
    refine ⟨pre.length + (j + 1), ?_, by omega⟩
    rw [List.getElem?_append_right (Nat.le_add_right _ _), Nat.add_sub_cancel_left, List.getElem?_cons_succ, hj]

/-- Two lists of which the same is sent, place by place. -/
theorem fields_congr (h : ∀ j : ℕ, (hs'[j]?).map (·.sent k) = (hs[j]?).map (·.sent k)) :
    fields hs' k = fields hs k := by
  rw [fields, fields, List.flatMap_def, List.flatMap_def]
  refine congrArg List.flatten (List.ext_getElem? fun j => ?_)
  rw [List.getElem?_map, List.getElem?_map, h]

theorem fields_modify_ne (h : hs[i]? = some e) (he : e.name ≠ k) (hf : (f e).name ≠ k) :
    fields (hs.modify i f) k = fields hs k := by
  obtain ⟨pre, post, hhs, -, hmod⟩ := modify_split h
  rw [hmod, hhs]
  simp [sent_other he, sent_other hf]

end Sent

section Names

/-- Names without a NUL are compared letter by letter. -/
theorem strncasecmpEq_take {n : ℕ} : ∀ {a b : List UInt8}, 0 ∉ b → n ≤ a.length → n ≤ b.length →
    (strncasecmpEq a b n = true ↔ lower (a.take n) = lower (b.take n)) := by
  induction n with
  | zero => simp [strncasecmpEq]
  | succ n ih =>
    intro a b h0 ha hb
    obtain ⟨x, a, rfl⟩ := List.exists_cons_of_length_pos (Nat.lt_of_lt_of_le (Nat.succ_pos n) ha)
    obtain ⟨y, b, rfl⟩ := List.exists_cons_of_length_pos (Nat.lt_of_lt_of_le (Nat.succ_pos n) hb)
    obtain ⟨hy, h0⟩ := not_or.mp (mt List.mem_cons.mpr h0)
    have hrest := ih h0 (Nat.le_of_succ_le_succ ha) (Nat.le_of_succ_le_succ hb)
    rw [strncasecmpEq, lower, lower, List.take_succ_cons, List.take_succ_cons, List.map_cons, List.map_cons,
      List.cons.injEq, List.headD_cons, List.headD_cons, List.tail_cons, List.tail_cons]
    by_cases hxy : toLower x = toLower y
    · have hx : x ≠ 0 := by
        rintro rfl
        exact hy (Minify.toLower_eq (.inl (by decide)) hxy).symm
      rw [if_neg (not_not_intro hxy), if_neg hx, hrest]
      exact (and_iff_right hxy).symm
    · rw [if_pos hxy]
      exact iff_of_false Bool.false_ne_true fun h => hxy h.1

theorem strncasecmpEq_iff {a b : List UInt8} (h0 : 0 ∉ b) :
    (a.length = b.length && strncasecmpEq a b b.length) = true ↔ lower a = lower b := by
  rw [Bool.and_eq_true, decide_eq_true_eq]
  constructor
  · rintro ⟨hlen, h⟩
    have hlower := (strncasecmpEq_take h0 (Nat.le_of_eq hlen.symm) (Nat.le_refl _)).mp h
    rwa [← hlen, List.take_length, hlen, List.take_length] at hlower
  · intro h
    have hlen : a.length = b.length := by simpa [lower] using congrArg List.length h
    refine ⟨hlen, (strncasecmpEq_take h0 (Nat.le_of_eq hlen.symm) (Nat.le_refl _)).mpr ?_⟩
    rw [← hlen, List.take_length, hlen, List.take_length, h]

variable {υ : Type} {hv : HeaderVal υ} {e : TableElt}

theorem hits_iff (h0 : 0 ∉ hv.key) : hv.hits e = true ↔ hv.covers e.name := by
  rw [HeaderVal.hits, HeaderVal.covers, TableElt.name]
  cases hv.wildcard with
  | false =>
    have heq := strncasecmpEq_iff (a := e.key) h0
    by_cases hlen : e.key.length = hv.key.length
    · simpa [hlen] using heq
    · have hne : lower e.key ≠ lower hv.key := fun h => hlen (by simpa [lower] using congrArg List.length h)
      simp [hlen, hne]
  | true =>
    have hdrop : (lower hv.key).dropLast = lower (hv.key.take (hv.key.length - 1)) := by
      rw [lower, ← List.map_dropLast, List.dropLast_eq_take, lower]
    by_cases hlen : hv.key.length - 1 ≤ e.key.length
    · have heq := strncasecmpEq_take (a := e.key) h0 hlen (Nat.sub_le _ 1)
      have hpre : (lower hv.key).dropLast <+: lower e.key ↔
          lower (e.key.take (hv.key.length - 1)) = lower (hv.key.take (hv.key.length - 1)) := by
        rw [hdrop, List.prefix_iff_eq_take, lower, lower, lower, List.length_map, ← List.map_take,
          List.length_take_of_le (Nat.sub_le _ 1)]
        exact eq_comm
      simp [hlen, heq, hpre]
    · have hnot : ¬ (lower hv.key).dropLast <+: lower e.key := by
        intro h
        have hle := h.length_le
        simp [lower] at hle
        omega
      simp [hlen, hnot]

end Names

section Loops
variable {υ : Type} {hv : HeaderVal υ} {value k : List UInt8} {i j : ℕ} {m : Bool} {e : TableElt}
  {es : List TableElt}

def HeaderVal.rewrite (hv : HeaderVal υ) (value : List UInt8) (matched : Bool) (e : TableElt) : TableElt :=
  if value = [] ∨ matched then e.deleted
  else { e with value := value, hash := hv.hash }

theorem loop_hit (h : hv.hits e = true) : setHeaderLoop hv value i m (e :: es) =
    (hv.rewrite value m e :: (setHeaderLoop hv value (i + 1) true es).1,
      some ((setHeaderLoop hv value (i + 1) true es).2.getD i)) := by
  rw [setHeaderLoop, if_pos h]
  rfl

theorem loop_miss (h : ¬ hv.hits e = true) : setHeaderLoop hv value i m (e :: es) =
    (e :: (setHeaderLoop hv value (i + 1) m es).1, (setHeaderLoop hv value (i + 1) m es).2) := by
  rw [setHeaderLoop, if_neg h]

theorem rewrite_name : (hv.rewrite value m e).name = e.name := by
  rw [HeaderVal.rewrite]
  split <;> rfl

theorem rewrite_deleted (h : value = [] ∨ m = true) : (hv.rewrite value m e).hash = 0 := by
  rw [HeaderVal.rewrite, if_pos h, TableElt.deleted]

theorem loop_names (hv : HeaderVal υ) (value : List UInt8) (i : ℕ) (m : Bool) (es : List TableElt) :
    (setHeaderLoop hv value i m es).1.map TableElt.name = es.map TableElt.name := by
  induction es generalizing i m with
  | nil => rfl
  | cons e es ih =>
    by_cases h : hv.hits e = true
    · rw [loop_hit h, List.map_cons, List.map_cons, rewrite_name, ih]
    · rw [loop_miss h, List.map_cons, List.map_cons, ih]

theorem loop_none (hout : (setHeaderLoop hv value i m es).2 = none) :
    (setHeaderLoop hv value i m es).1 = es ∧ ∀ e ∈ es, ¬ hv.hits e = true := by
  induction es generalizing i with
  | nil => exact ⟨rfl, fun e he => absurd he List.not_mem_nil⟩
  | cons e es ih =>
    by_cases h : hv.hits e = true
    · rw [loop_hit h] at hout
      cases hout
    · rw [loop_miss h] at hout ⊢
      obtain ⟨hsame, hmiss⟩ := ih hout
      exact ⟨congrArg _ hsame, List.forall_mem_cons.mpr ⟨h, hmiss⟩⟩

theorem getElem?_shift {e' : TableElt} (hle : i + 1 ≤ j) (h : es[j - (i + 1)]? = some e') :
    (e :: es)[j - i]? = some e' := by
  have hsub : j - i = j - (i + 1) + 1 := by omega
  rw [hsub, List.getElem?_cons_succ, h]

theorem loop_some (hout : (setHeaderLoop hv value i m es).2 = some j) :
    i ≤ j ∧ ∃ e, es[j - i]? = some e ∧ hv.hits e = true := by
  induction es generalizing i m with
  | nil => cases hout
  | cons e es ih =>
    by_cases h : hv.hits e = true
    · rw [loop_hit h] at hout
      cases hrest : (setHeaderLoop hv value (i + 1) true es).2 with
      | none =>
        rw [hrest] at hout
        obtain rfl : i = j := Option.some.inj hout
        exact ⟨Nat.le_refl i, e, by rw [Nat.sub_self]; rfl, h⟩
      | some j' =>
        rw [hrest] at hout
        obtain rfl : j' = j := Option.some.inj hout
        obtain ⟨hle, e', hget, he'⟩ := ih hrest
        exact ⟨Nat.le_of_succ_le hle, e', getElem?_shift hle hget, he'⟩
    · rw [loop_miss h] at hout
      obtain ⟨hle, e', hget, he'⟩ := ih hout
      exact ⟨Nat.le_of_succ_le hle, e', getElem?_shift hle hget, he'⟩

theorem name_ne_of_hits (h0 : 0 ∉ hv.key) (h : hv.hits e = true) (hk : ¬ hv.covers k) : e.name ≠ k := by
  rintro rfl
  exact hk ((hits_iff h0).mp h)

theorem name_ne_of_misses (h0 : 0 ∉ hv.key) (h : ¬ hv.hits e = true) (hk : hv.covers k) : e.name ≠ k := by
  rintro rfl
  exact h ((hits_iff h0).mpr hk)

theorem loop_deleted (h0 : 0 ∉ hv.key) (hm : value = [] ∨ m = true) :
    fields (setHeaderLoop hv value i m es).1 k = if hv.covers k then [] else fields es k := by
  induction es generalizing i m with
  | nil => simp [setHeaderLoop]
  | cons e es ih =>
    by_cases h : hv.hits e = true
    · rw [loop_hit h, fields_cons, fields_cons, sent_deleted (rewrite_deleted hm), List.nil_append,
        ih (.inr rfl)]
      split
      · rfl
      · next hk => rw [sent_other (name_ne_of_hits h0 h hk), List.nil_append]
    · rw [loop_miss h, fields_cons, fields_cons, ih hm]
      split
      · next hk => rw [sent_other (name_ne_of_misses h0 h hk), List.nil_append]
      · rfl

/-- Where a value is to be sent: the first header that is hit gets it. -/
theorem loop_set (h0 : 0 ∉ hv.key) (hhash : hv.hash ≠ 0) (hw : hv.wildcard = false) (hv' : value ≠ [])
    (hout : (setHeaderLoop hv value i false es).2 ≠ none) :
    fields (setHeaderLoop hv value i false es).1 k = if hv.covers k then [value] else fields es k := by
  induction es generalizing i with
  | nil => exact absurd rfl hout
  | cons e es ih =>
    by_cases h : hv.hits e = true
    · have hname := (hits_iff h0).mp h
      rw [HeaderVal.covers, hw, if_neg Bool.false_ne_true] at hname
      have hrewrite : hv.rewrite value false e = { e with value := value, hash := hv.hash } := by
        rw [HeaderVal.rewrite, if_neg (by simpa using hv')]
      rw [loop_hit h, fields_cons, fields_cons, loop_deleted h0 (.inr rfl), hrewrite]
      by_cases hk : hv.covers k
      · have hk' := hk
        rw [HeaderVal.covers, hw, if_neg Bool.false_ne_true] at hk'
        have hsent : TableElt.sent { e with value := value, hash := hv.hash } k = single value :=
          sent_single (hname.trans hk'.symm) rfl (iff_of_false hhash hv')
        rw [if_pos hk, if_pos hk, hsent, single, if_neg hv', List.append_nil]
      · have hne := name_ne_of_hits h0 h hk
        have hne' : TableElt.name { e with value := value, hash := hv.hash } ≠ k := hne
        rw [if_neg hk, if_neg hk, sent_other hne, sent_other hne']
    · rw [loop_miss h] at hout
      rw [loop_miss h, fields_cons, fields_cons, ih hout]
      split
      · next hk => rw [sent_other (name_ne_of_misses h0 h hk), List.nil_append]
      · rfl

end Loops

end NginB.HeadersMore
