import Mathlib.Data.List.GetD
import NginB.HeadersMore.Commands

/-! # The type and its charset

`Content-Type` is no header of the list. Its value is the type of the response up to the parameter `charset`,
and what stands behind that is the charset, without quotes around it.
-/
namespace NginB.HeadersMore
open NginB.Minify (lit toLower strncasecmpEq)

structure Param where
  spaces : ℕ
  first : UInt8
  rest : List UInt8
  starts : first ≠ 32 ∧ first ≠ 59
  free : 59 ∉ rest
  other : lower ((first :: rest).take 8) ≠ lit "charset="

def Param.bytes (q : Param) : List UInt8 := 59 :: (List.replicate q.spaces 32 ++ q.first :: q.rest)

/-- A type with its parameters, the first of them that is a charset at the end. -/
structure Typed where
  type : List UInt8
  params : List Param
  spaces : ℕ
  name : List UInt8
  charset : List UInt8
  free : 59 ∉ type
  named : lower name = lit "charset="

def Typed.front (t : Typed) : List UInt8 := t.type ++ t.params.flatMap Param.bytes

def Typed.value (t : Typed) : List UInt8 :=
  t.front ++ 59 :: (List.replicate t.spaces 32 ++ (t.name ++ t.charset))

/-- A charset without a quote in front of it, and without one behind it. -/
def unquote (charset : List UInt8) : List UInt8 :=
  let rest := if charset.head? = some 34 then charset.tail else charset
  if rest.getLast? = some 34 then rest.dropLast else rest

section Loop
variable {data w rest : List UInt8} {c : UInt8} {p k n : ℕ} {out : Option (ℕ × ℕ × ℕ)}

theorem drop_cons (h : data.drop p = c :: rest) :
    p < data.length ∧ data.getD p 0 = c ∧ data.drop (p + 1) = rest := by
  have hlt : p < data.length := by
    rw [← List.drop_eq_nil_iff.not.trans Nat.not_le, h]
    exact List.cons_ne_nil c rest
  rw [List.drop_eq_getElem_cons hlt, List.cons.injEq] at h
  rw [List.getD_eq_getElem _ _ hlt]
  exact ⟨hlt, h⟩

theorem drop_behind (h : data.drop p = w ++ rest) : data.drop (p + w.length) = rest := by
  rw [← List.drop_drop, h, List.drop_left]

theorem skipSpaces_drop (h : data.drop p = List.replicate k 32 ++ c :: rest) (hc : c ≠ 32) (hk : k ≤ n) :
    skipSpaces data p n = p + k := by
  induction k generalizing p n with
  | zero =>
    cases n with
    | zero => rfl
    | succ n => rw [skipSpaces, (drop_cons h).2.1, if_neg hc, Nat.add_zero]
  | succ k ih =>
    obtain ⟨n, rfl⟩ := Nat.exists_eq_add_one_of_ne_zero (Nat.ne_of_gt (Nat.lt_of_lt_of_le (Nat.succ_pos k) hk))
    rw [List.replicate_succ, List.cons_append] at h
    obtain ⟨-, hspace, hnext⟩ := drop_cons h
    rw [skipSpaces, hspace, if_pos rfl, ih hnext (Nat.le_of_succ_le_succ hk)]
    omega

def Finds (data : List UInt8) (p : ℕ) (out : Option (ℕ × ℕ × ℕ)) : Prop :=
  ∀ n, data.length ≤ p + n → contentTypeLoop data p n = out

theorem finds_text (hw : 59 ∉ w) (h : data.drop p = w ++ rest) (hrest : Finds data (p + w.length) out) :
    Finds data p out := by
  induction w generalizing p with
  | nil => exact hrest
  | cons b w ih =>
    rw [List.mem_cons, not_or] at hw
    intro n hn
    obtain ⟨hlt, hget, hnext⟩ := drop_cons h
    obtain ⟨n, rfl⟩ := Nat.exists_eq_add_one_of_ne_zero (n := n) (by omega)
    have hb : b ≠ 59 := Ne.symm hw.1
    rw [contentTypeLoop, if_neg (Nat.not_le.mpr hlt), hget, if_pos hb]
    refine ih hw.2 hnext ?_ n (by omega)
    rwa [Nat.add_assoc, Nat.add_comm 1, ← List.length_cons (a := b)]

theorem loop_semicolon (h : data.drop p = 59 :: (List.replicate k 32 ++ c :: rest)) (hc : c ≠ 32) :
    contentTypeLoop data p (n + 1) =
      if strncasecmpEq (data.drop (p + 1 + k)) (lit "charset=") 8 = false then contentTypeLoop data (p + 1 + k + 1) n
      else
        let start := if data.getD (p + 1 + k + 8) 0 = 34 then p + 1 + k + 9 else p + 1 + k + 8
        let last := if data.getD (data.length - 1) 0 = 34 then data.length - 1 else data.length
        some (p, start, (last + 2 ^ 64 - start) % 2 ^ 64) := by
  obtain ⟨hlt, hget, hnext⟩ := drop_cons h
  have hlen := congrArg List.length hnext
  rw [List.length_drop, List.length_append, List.length_replicate, List.length_cons] at hlen
  have hne : ¬ p + 1 + k = data.length := by omega
  rw [contentTypeLoop, if_neg (Nat.not_le.mpr hlt), hget, if_neg (not_not_intro rfl),
    skipSpaces_drop hnext hc (by omega)]
  simp only [if_neg hne]

theorem charset_bytes : lower (lit "charset=") = lit "charset=" ∧ (lit "charset=").length = 8 ∧
    0 ∉ lit "charset=" ∧ 59 ∉ lit "charset=" := by decide

/-- `charset=` is compared in any case of its letters. -/
theorem charsetEq_iff {a : List UInt8} (ha : 8 ≤ a.length) :
    strncasecmpEq a (lit "charset=") 8 = true ↔ lower (a.take 8) = lit "charset=" := by
  obtain ⟨hlower, hlen, h0, -⟩ := charset_bytes
  have htake : (lit "charset=").take 8 = lit "charset=" := List.take_of_length_le (Nat.le_of_eq hlen)
  rw [strncasecmpEq_take h0 ha (Nat.le_of_eq hlen.symm), htake, hlower]

theorem mem_lower {a : List UInt8} {b : UInt8} (h : b ∈ a) : toLower b ∈ lower a := List.mem_map_of_mem h

theorem finds_param (q : Param) (h : data.drop p = q.bytes ++ 59 :: rest) (hlen : 7 ≤ rest.length)
    (hrest : Finds data (p + q.bytes.length) out) : Finds data p out := by
  have hsplit : data.drop p = 59 :: (List.replicate q.spaces 32 ++ q.first :: (q.rest ++ 59 :: rest)) := by
    rw [h, Param.bytes]
    simp
  have hlength : q.bytes.length = 1 + q.spaces + 1 + q.rest.length := by
    rw [Param.bytes, List.length_cons, List.length_append, List.length_replicate, List.length_cons]
    omega
  obtain ⟨hlt, -, hnext⟩ := drop_cons hsplit
  have hfirst : data.drop (p + 1 + q.spaces) = q.first :: (q.rest ++ 59 :: rest) := by
    have hdrop := drop_behind hnext
    rwa [List.length_replicate] at hdrop
  have hother : strncasecmpEq (data.drop (p + 1 + q.spaces)) (lit "charset=") 8 = false := by
    rw [hfirst, ← List.cons_append, ← Bool.not_eq_true, charsetEq_iff (by simp; omega)]
    intro heq
    by_cases hlong : 8 ≤ (q.first :: q.rest).length
    · rw [List.take_append_of_le_length hlong] at heq
      exact q.other heq
    · -- there is a `;` among the bytes that are compared
      have hmem : (59 : UInt8) ∈ ((q.first :: q.rest) ++ 59 :: rest).take 8 := by
        obtain ⟨m, hm⟩ := Nat.exists_eq_add_one_of_ne_zero (n := 8 - (q.first :: q.rest).length) (by omega)
        rw [List.take_append, hm, List.take_succ_cons]
        exact List.mem_append_right _ List.mem_cons_self
      exact charset_bytes.2.2.2 (heq ▸ mem_lower hmem)
  intro n hn
  obtain ⟨n, rfl⟩ := Nat.exists_eq_add_one_of_ne_zero (n := n) (by omega)
  rw [loop_semicolon hsplit q.starts.1, if_pos hother]
  obtain ⟨-, -, hbehind⟩ := drop_cons hfirst
  refine finds_text q.free hbehind ?_ n (by omega)
  have hpos : p + 1 + q.spaces + 1 + q.rest.length = p + q.bytes.length := by omega
  rwa [hpos]

theorem finds_params (params : List Param) (h : data.drop p = params.flatMap Param.bytes ++ 59 :: rest)
    (hlen : 7 ≤ rest.length) (hrest : Finds data (p + (params.flatMap Param.bytes).length) out) :
    Finds data p out := by
  induction params generalizing p with
  | nil => exact hrest
  | cons q params ih =>
    rw [List.flatMap_cons, List.append_assoc] at h
    rw [List.flatMap_cons, List.length_append, ← Nat.add_assoc] at hrest
    have hnext := ih (drop_behind h) hrest
    cases params with
    | nil => exact finds_param q h hlen hnext
    | cons q' params =>
      have hsemicolon : (q' :: params).flatMap Param.bytes ++ 59 :: rest =
          59 :: ((List.replicate q'.spaces 32 ++ q'.first :: q'.rest) ++ (params.flatMap Param.bytes ++ 59 :: rest)) := by
        rw [List.flatMap_cons, List.append_assoc]
        rfl
      rw [hsemicolon] at h
      exact finds_param q h (by simp; omega) hnext

end Loop

section Typed
variable {υ : Type} {hv : HeaderVal υ} {value : List UInt8} {o : Option Builtin} {noCreate : Bool}

theorem Typed.value_eq (t : Typed) :
    t.value = (t.front ++ 59 :: (List.replicate t.spaces 32 ++ t.name)) ++ t.charset := by
  simp [Typed.value]

theorem Typed.name_length (t : Typed) : t.name.length = 8 := by
  have hlen := congrArg List.length t.named
  rwa [lower, List.length_map] at hlen

/-- The last byte of the value is that of the charset, or no quote. -/
theorem Typed.last_quote (t : Typed) : t.value.getD (t.value.length - 1) 0 = 34 ↔ t.charset.getLast? = some 34 := by
  have hne : t.value ≠ [] := by rw [Typed.value]; simp
  have hlast : t.value.getLast? = some (t.value.getD (t.value.length - 1) 0) := by
    have hlt : t.value.length - 1 < t.value.length := Nat.sub_one_lt (Nat.ne_of_gt (List.length_pos_iff.mpr hne))
    rw [List.getLast?_eq_getElem?, List.getD_eq_getElem _ _ hlt, List.getElem?_eq_getElem hlt]
  rw [← Option.some.injEq, ← hlast, t.value_eq]
  rcases List.eq_nil_or_concat t.charset with hnil | ⟨front, c, hc⟩
  · -- the last byte of `charset=` is no quote
    obtain ⟨name, b, hb⟩ := (List.eq_nil_or_concat t.name).resolve_left
      (List.ne_nil_of_length_pos (by rw [t.name_length]; decide))
    rw [List.concat_eq_append] at hb
    have hnamed := congrArg List.getLast? t.named
    rw [hb, lower, List.map_append, List.map_singleton, List.getLast?_concat] at hnamed
    have hquote : b ≠ 34 := by
      rintro rfl
      exact absurd hnamed (by decide)
    rw [hnil, hb, List.append_nil, List.append_cons, ← List.append_assoc, ← List.append_assoc, List.getLast?_concat]
    simpa using hquote
  · rw [hc, List.concat_eq_append, ← List.append_assoc, List.getLast?_concat, List.getLast?_concat]

theorem loop_typed (t : Typed) : contentTypeLoop t.value 0 t.value.length =
    let first := t.value.length - t.charset.length
    let start := if t.charset.head? = some 34 then first + 1 else first
    let last := if t.charset.getLast? = some 34 then t.value.length - 1 else t.value.length
    some (t.front.length, start, (last + 2 ^ 64 - start) % 2 ^ 64) := by
  have hlength : t.value.length = t.front.length + 1 + t.spaces + 8 + t.charset.length := by
    rw [t.value_eq, List.length_append, List.length_append, List.length_cons, List.length_append,
      List.length_replicate, t.name_length]
    omega
  have hstart : t.value.drop 0 = t.type ++ (t.params.flatMap Param.bytes ++
      59 :: (List.replicate t.spaces 32 ++ (t.name ++ t.charset))) := by
    rw [List.drop_zero, Typed.value, Typed.front, List.append_assoc]
  have hbehind := drop_behind hstart
  have hsemicolon := drop_behind hbehind
  have hfront : 0 + t.type.length + (t.params.flatMap Param.bytes).length = t.front.length := by
    rw [Typed.front, List.length_append, Nat.zero_add]
  rw [hfront] at hsemicolon
  refine finds_text t.free hstart (finds_params t.params hbehind ?_ ?_) _ (Nat.le_add_left _ _)
  · rw [List.length_append, List.length_append, t.name_length]
    omega
  rw [hfront]
  obtain ⟨b, name, hb⟩ := List.exists_cons_of_ne_nil
    (List.ne_nil_of_length_pos (by rw [t.name_length]; decide) : t.name ≠ [])
  have hspace : b ≠ 32 := by
    have hnamed := congrArg List.head? t.named
    rw [hb, lower, List.map_cons, List.head?_cons] at hnamed
    rintro rfl
    exact absurd hnamed (by decide)
  obtain ⟨hlt, -, hnext⟩ := drop_cons hsemicolon
  have hname : t.value.drop (t.front.length + 1 + t.spaces) = t.name ++ t.charset := by
    have hdrop := drop_behind hnext
    rwa [List.length_replicate] at hdrop
  have hcharset : t.value.drop (t.front.length + 1 + t.spaces + 8) = t.charset := by
    have hdrop := drop_behind hname
    rwa [t.name_length] at hdrop
  have heq : ¬ strncasecmpEq (t.value.drop (t.front.length + 1 + t.spaces)) (lit "charset=") 8 = false := by
    rw [hname, Bool.not_eq_false, charsetEq_iff (by rw [List.length_append, t.name_length]; omega),
      List.take_left' t.name_length, t.named]
  have hquote : t.value.getD (t.front.length + 1 + t.spaces + 8) 0 = 34 ↔ t.charset.head? = some 34 := by
    cases hc : t.charset with
    | nil =>
      rw [List.getD_eq_default _ _ (by rw [hlength, hc]; exact Nat.le_refl _)]
      decide
    | cons c rest =>
      rw [(drop_cons (hcharset.trans hc)).2.1]
      simp
  have hfirst : t.value.length - t.charset.length = t.front.length + 1 + t.spaces + 8 := by omega
  intro n hn
  obtain ⟨n, rfl⟩ := Nat.exists_eq_add_one_of_ne_zero (n := n) (by omega)
  rw [hb, List.cons_append] at hsemicolon
  rw [loop_semicolon hsemicolon hspace, if_neg heq, hfirst]
  simp only [hquote, t.last_quote]

theorem helper_typed (r : HeadersOut) (hv : HeaderVal υ) (value : List UInt8) (o : Option Builtin)
    (noCreate : Bool) :
    (ngxHttpSetHeaderHelper r hv value o noCreate).2.contentType = r.contentType ∧
      (ngxHttpSetHeaderHelper r hv value o noCreate).2.contentTypeLen = r.contentTypeLen ∧
      (ngxHttpSetHeaderHelper r hv value o noCreate).2.charset = r.charset := by
  have h := helped r hv value o noCreate
  generalize ngxHttpSetHeaderHelper r hv value o noCreate = out at h
  cases h with
  | found | pushed => cases o <;> exact ⟨rfl, rfl, rfl⟩
  | nothing | unpushed | nameless => exact ⟨rfl, rfl, rfl⟩

theorem getLast_tail {rest : List UInt8} (h : rest ≠ []) (c : UInt8) : (c :: rest).getLast? = rest.getLast? := by
  rw [List.getLast?_eq_some_getLast h, List.getLast?_eq_some_getLast (List.cons_ne_nil c rest), List.getLast_cons h]

/-- The bytes of a value between the quotes around its charset. -/
theorem slice_unquote {data charset : List UInt8} (h : data.drop (data.length - charset.length) = charset)
    (hle : charset.length ≤ data.length) (hne : charset ≠ [34]) :
    let first := data.length - charset.length
    let start := if charset.head? = some 34 then first + 1 else first
    let last := if charset.getLast? = some 34 then data.length - 1 else data.length
    start ≤ last ∧ last ≤ data.length ∧ (data.drop start).take (last - start) = unquote charset := by
  intro first start last
  obtain ⟨body, hbody, hdrop, hlength, hlast⟩ : ∃ body,
      (if charset.head? = some 34 then charset.tail else charset) = body ∧ data.drop start = body ∧
        start + body.length = data.length ∧ (charset.getLast? = some 34 ↔ body.getLast? = some 34) := by
    by_cases hhead : charset.head? = some 34
    · obtain ⟨rest, rfl⟩ := List.head?_eq_some_iff.mp hhead
      have hrest : rest ≠ [] := fun hnil => hne (by rw [hnil])
      rw [List.length_cons] at hle
      refine ⟨rest, if_pos hhead, ?_, ?_, by rw [getLast_tail hrest]⟩
      · simp only [start, if_pos hhead]
        exact (drop_cons h).2.2
      · simp only [start, if_pos hhead, first, List.length_cons]
        omega
    · refine ⟨charset, if_neg hhead, ?_, ?_, Iff.rfl⟩
      · simp only [start, if_neg hhead]
        exact h
      · simp only [start, if_neg hhead, first]
        omega
  rw [hdrop, unquote]
  simp only [hbody]
  by_cases hquote : body.getLast? = some 34
  · have hpos : 0 < body.length := List.length_pos_of_ne_nil (by rintro rfl; cases hquote)
    have hstop : last = data.length - 1 := if_pos (hlast.mpr hquote)
    have hn : last - start = body.length - 1 := by omega
    rw [if_pos hquote, hn, ← List.dropLast_eq_take]
    exact ⟨by omega, by omega, rfl⟩
  · have hstop : last = data.length := if_neg (mt hlast.mp hquote)
    have hn : last - start = body.length := by omega
    rw [if_neg hquote, hn, List.take_length]
    exact ⟨by omega, by omega, rfl⟩

/-- The value of `Content-Type` is cut in front of its charset, and the charset is what stands there, without
quotes around it; but where that is a single quote, its end is in front of its start. -/
theorem charset_read_iff (r : HeadersOut) (hv : HeaderVal υ) (t : Typed) (hlen : t.value.length < 2 ^ 64) :
    ∃ start n, (ngxHttpSetContentTypeHeader r hv t.value).2.contentType = t.value ∧
      (ngxHttpSetContentTypeHeader r hv t.value).2.contentTypeLen = t.front.length ∧
      (ngxHttpSetContentTypeHeader r hv t.value).2.charset = some (start, n) ∧
      (t.value.drop start).take n = unquote t.charset ∧
      (start + n ≤ t.value.length ↔ t.charset ≠ [34]) := by
  obtain ⟨htype, hfront, hcharset⟩ := helper_typed (r.typed hv.hash t.value) hv [] none true
  have hloop := loop_typed t
  have hle : t.charset.length ≤ t.value.length := by
    rw [t.value_eq, List.length_append]
    exact Nat.le_add_left _ _
  have hdrop : t.value.drop (t.value.length - t.charset.length) = t.charset := by
    have hpos : t.value.length - t.charset.length =
        (t.front ++ 59 :: (List.replicate t.spaces 32 ++ t.name)).length := by
      rw [t.value_eq, List.length_append, Nat.add_sub_cancel]
    rw [hpos, t.value_eq, List.drop_left]
  dsimp only at hloop
  generalize hstart : (if t.charset.head? = some 34 then t.value.length - t.charset.length + 1
    else t.value.length - t.charset.length) = start at hloop
  generalize hlast : (if t.charset.getLast? = some 34 then t.value.length - 1 else t.value.length) = last at hloop
  have hfields : (r.typed hv.hash t.value).contentType = t.value ∧
      (r.typed hv.hash t.value).contentTypeLen = t.front.length ∧
      (r.typed hv.hash t.value).charset = some (start, (last + 2 ^ 64 - start) % 2 ^ 64) := by
    rw [HeadersOut.typed, hloop]
    exact ⟨rfl, rfl, rfl⟩
  refine ⟨start, _, htype.trans hfields.1, hfront.trans hfields.2.1, hcharset.trans hfields.2.2, ?_⟩
  by_cases hne : t.charset = [34]
  · have hone : t.charset.length = 1 := by rw [hne]; rfl
    have hstart' : start = t.value.length := by
      rw [← hstart, hne, if_pos (by rfl), List.length_singleton]
      omega
    have hlast' : last = t.value.length - 1 := by rw [← hlast, hne, if_pos (by rfl)]
    have hn : (last + 2 ^ 64 - start) % 2 ^ 64 = 2 ^ 64 - 1 := by
      rw [Nat.mod_eq_of_lt (by omega)]
      omega
    rw [hn, hstart', List.drop_length, List.take_nil, hne]
    exact ⟨rfl, iff_of_false (by omega) fun h => h rfl⟩
  · obtain ⟨hin, hout, hslice⟩ := slice_unquote hdrop hle hne
    rw [hstart, hlast] at hin hslice
    rw [hlast] at hout
    have hn : (last + 2 ^ 64 - start) % 2 ^ 64 = last - start := by
      have hsum : last + 2 ^ 64 - start = last - start + 2 ^ 64 := by omega
      rw [hsum, Nat.add_mod_right, Nat.mod_eq_of_lt (by omega)]
    rw [hn]
    exact ⟨hslice, iff_of_true (by omega) hne⟩

end Typed

theorem textHtml_free : 59 ∉ lit "text/html" := by decide

/-- `text/html; charset="`. -/
def quoteTyped : Typed where
  type := lit "text/html"
  params := []
  spaces := 1
  name := lit "charset="
  charset := [34]
  free := textHtml_free
  named := charset_bytes.1

def contentTypeVal : HeaderVal (List UInt8) := ⟨quoteTyped.value ++ [0], 1, lit "Content-Type", .contentType, none, false⟩

theorem charset_read_iff_quote : ∃ start n,
    (ngxHttpSetContentTypeHeader (.of []) contentTypeVal quoteTyped.value).2.charset = some (start, n) ∧
      ¬ start + n ≤ quoteTyped.value.length := by
  obtain ⟨start, n, -, -, hcharset, -, hiff⟩ := charset_read_iff (.of []) contentTypeVal quoteTyped (by decide)
  exact ⟨start, n, hcharset, fun h => hiff.mp h rfl⟩

end NginB.HeadersMore
