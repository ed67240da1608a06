import Mathlib.Data.List.DropRight
import NginB.Ttl.Script

/-! # Responses that may not be made public

What `Cache-Control` says is read here as a list of directives, in any order and letter case. The
script looks at the first bytes of the header and at the first `max-age=` only.
-/
namespace NginB.Ttl
open NginB.Lua
open NginB.Minify (lit toLower)

def isWs (b : UInt8) : Bool := b = 32 || b = 9

/-- The directives between the commas of a `Cache-Control` value, without the blanks around them. -/
def directives (cc : Bytes) : List Bytes :=
  (cc.splitOn 44).map fun d => (d.dropWhile isWs).rdropWhile isWs

/-- The name of a directive, in lower case: what comes before a `=`. -/
def directiveName (d : Bytes) : Bytes := (d.takeWhile (· ≠ 61)).map toLower

def directiveValue (d : Bytes) : Bytes := (d.dropWhile (· ≠ 61)).tail

/-- The names of the directives that forbid a public cache to keep the response. -/
def forbidding : List Bytes := [lit "private", lit "no-store", lit "no-cache"]

/-- One of the directives forbids to keep the response, or gives it no time. -/
def Forbids (cc : Bytes) : Prop := ∃ d ∈ directives cc, directiveName d ∈ forbidding ∨
  directiveName d = lit "max-age" ∧ IsNumeral (directiveValue d) ∧ numeralValue (directiveValue d) ≤ 0

/-- The two cache statuses with which `Set-Cookie` is not looked at. -/
def exempt : List Bytes := [lit "HIT", lit "EXPIRES"]

/-- The numeral after the first `max-age=` that one comes after. -/
def firstMaxAge (cc : Bytes) : Option Bytes :=
  cc.tails.findSome? fun t => if lit "max-age=" <+: t then numeral (t.drop (lit "max-age=").length) else none

section Conditions
variable {N : Type} [LuaNumber N] (ngx : Ngx N) (q : Request N)

/-- The response came with a cookie, from a status that is not exempt. -/
def SetsCookie : Prop :=
  q.header.setCookie.isSome = true ∧ ∀ st ∈ exempt, q.upstreamCacheStatus ≠ some st

def Uncacheable : Prop :=
  (∃ cc, q.header.cacheControl = some cc ∧ Forbids cc) ∨
    (∃ e, q.header.expires = some e ∧ ngx.parseHttpTime e = none) ∨ SetsCookie q

/-- A filter of the script sees that it may not: `Cache-Control` begins with one of the three names,
in lower case, or the first `max-age=` with a numeral is not positive. -/
def Seen : Prop :=
  SetsCookie q ∨
    (∃ cc, q.header.cacheControl = some cc ∧ ((∃ w ∈ forbidding, w <+: cc) ∨
      ∃ a, firstMaxAge cc = some a ∧ numeralValue a ≤ 0)) ∨
    ∃ e, q.header.expires = some e ∧ (ngx.parseHttpTime e = none ∨ ngx.parseHttpTime e = some 0)

/-- The response states a time that is not shorter than the one of the script, or it is a page: by
the first `max-age=` with a numeral or, without one, by `Expires`. -/
def Lasts : Prop :=
  match q.header.cacheControl.bind firstMaxAge with
  | some a => ∃ n, LuaNumber.tonumber a = some n ∧ ¬(n < q.aqbCacheTime ∧ q.aqbContentType = some 0)
  | none => ∃ t, q.header.expires.bind ngx.parseHttpTime = some t ∧ t ≠ -1 ∧
      ¬(t < ngx.time + q.aqbCacheTime ∧ q.aqbContentType = some 0)

end Conditions

section Filters
variable {N : Type} [LuaNumber N]

theorem one_ne_zero : (1 : N) ≠ 0 := ne_of_gt LuaNumber.one_pos
theorem neg_one_ne_zero : (-1 : N) ≠ 0 := ne_of_lt LuaNumber.neg_one_lt

theorem filterSetCookie_eq_zero {c : Option Bytes} :
    filterSetCookie (N := N) c = 0 ↔ c.isSome = true := by
  unfold filterSetCookie
  split
  next h => simp [h]
  next h => simp [h, one_ne_zero]

theorem noCacheFilter_any {s : Bytes} :
    (noCacheFilter.any fun v => (find v s).isSome) = true ↔ ∃ w ∈ forbidding, w <+: s := by
  simp only [noCacheFilter, forbidding, List.any_cons, List.any_nil, Bool.or_false, Bool.or_eq_true,
    find_literal, List.exists_mem_cons_iff, List.not_mem_nil, false_and, exists_false, or_false]

theorem filterCacheControl_some (s : Bytes) :
    filterCacheControl (N := N) (some s) = 0 ∧ (∃ w ∈ forbidding, w <+: s) ∨
      filterCacheControl (N := N) (some s) = 1 ∧ ¬ ∃ w ∈ forbidding, w <+: s := by
  unfold filterCacheControl
  by_cases h : ∃ w ∈ forbidding, w <+: s
  · exact .inl ⟨if_pos (noCacheFilter_any.mpr h), h⟩
  · exact .inr ⟨if_neg (mt noCacheFilter_any.mp h), h⟩

theorem firstMaxAge_isNumeral {cc a : Bytes} (h : firstMaxAge cc = some a) : IsNumeral a := by
  obtain ⟨t, -, ht⟩ := List.exists_of_findSome?_eq_some h
  split at ht
  · exact isNumeral_of_numeral ht
  · cases ht

theorem getMaxAge_some (s : Bytes) : getMaxAge (N := N) (some s) =
    match (firstMaxAge s).bind LuaNumber.tonumber with
    | none => -1
    | some age => if 0 < age then age else 0 := by
  have hcapture : (find maxAgePattern s).bind firstCapture = firstMaxAge s := by
    rw [maxAgePattern, find_numeral_after]
    unfold firstMaxAge
    cases s.tails.findSome? _ <;> rfl
  rw [← hcapture]
  rfl

/-- What `get_max_age` makes of the first `max-age=` with a numeral. -/
theorem getMaxAge_of_first {s a : Bytes} (h : firstMaxAge s = some a) :
    ∃ n : N, LuaNumber.tonumber a = some n ∧ (0 < n ↔ 0 < numeralValue a) ∧
      getMaxAge (some s) = if 0 < n then n else 0 := by
  obtain ⟨n, hn, hpos⟩ := LuaNumber.tonumber_numeral (N := N) (firstMaxAge_isNumeral h)
  refine ⟨n, hn, hpos, ?_⟩
  rw [getMaxAge_some, h, Option.bind_some, hn]

theorem getMaxAge_of_none {s : Bytes} (h : firstMaxAge s = none) : getMaxAge (N := N) (some s) = -1 := by
  rw [getMaxAge_some, h]
  rfl

end Filters

section Loop
variable {N : Type} [LuaNumber N] (ngx : Ngx N)

theorem filterLoop_eq (i : ℕ) (unit : List (FilterUnit N)) : filterLoop ⟨i, unit⟩ =
    match unit[i]? with
    | none => (false, unit)
    | some u =>
      if u.f u.p = 0 then (true, unit.set i { u with r := some (u.f u.p) })
      else filterLoop ⟨i + 1, unit.set i { u with r := some (u.f u.p) }⟩ := by
  have hnext : (⟨i, unit⟩ : Iterator N).next = match unit[i]? with
      | none => (none, ⟨i + 1, unit⟩)
      | some u => (some (u.f u.p), ⟨i + 1, unit.set i { u with r := some (u.f u.p) }⟩) := rfl
  rw [filterLoop]
  cases hu : unit[i]? with
  | none =>
    rw [hu] at hnext
    split
    next hn =>
      rw [hnext] at hn
      cases hn
      rfl
    next hn =>
      rw [hnext] at hn
      cases hn
  | some u =>
    rw [hu] at hnext
    split
    next hn =>
      rw [hnext] at hn
      cases hn
    next hn =>
      rw [hnext] at hn
      cases hn
      rfl

/-- The loop stops where a filter returns 0, and else every filter has left what it returns. -/
theorem filterLoop_spec (n : ℕ) : ∀ (i : ℕ) (unit : List (FilterUnit N)), unit.length - i = n →
    (filterLoop ⟨i, unit⟩).1 = (unit.drop i).any (fun u => u.f u.p = 0) ∧
      (∀ j < i, (filterLoop ⟨i, unit⟩).2[j]? = unit[j]?) ∧
      ((filterLoop ⟨i, unit⟩).1 = false → ∀ j, i ≤ j →
        (filterLoop ⟨i, unit⟩).2[j]?.bind (·.r) = unit[j]?.map fun u => u.f u.p) := by
  induction n with
  | zero =>
    intro i unit hn
    have hnone : unit[i]? = none := List.getElem?_eq_none_iff.mpr (by omega)
    rw [filterLoop_eq, hnone, List.drop_eq_nil_of_le (by omega)]
    refine ⟨rfl, fun j _ => rfl, fun _ j hj => ?_⟩
    have hj' : unit[j]? = none := List.getElem?_eq_none_iff.mpr (by omega)
    simp only [hj', Option.bind_none, Option.map_none]
  | succ n ih =>
    intro i unit hn
    have hlt : i < unit.length := by omega
    have hsome : unit[i]? = some unit[i] := List.getElem?_eq_getElem hlt
    obtain ⟨h₁, h₂, h₃⟩ := ih (i + 1)
      (unit.set i { unit[i] with r := some (unit[i].f unit[i].p) }) (by rw [List.length_set]; omega)
    rw [filterLoop_eq, hsome, List.drop_eq_getElem_cons hlt, List.any_cons]
    by_cases hz : unit[i].f unit[i].p = 0
    · simp only [if_pos hz, decide_eq_true hz, Bool.true_or, true_and, reduceCtorEq, false_implies,
        and_true]
      intro j hj
      rw [List.getElem?_set_ne (by omega)]
    · simp only [if_neg hz, decide_eq_false hz, Bool.false_or]
      rw [List.drop_set_of_lt (Nat.lt_succ_self i)] at h₁
      refine ⟨h₁, fun j hj => ?_, fun hfin j hj => ?_⟩
      · rw [h₂ j (by omega), List.getElem?_set_ne (by omega)]
      · rcases Nat.eq_or_lt_of_le hj with rfl | hj
        · rw [h₂ i (Nat.lt_succ_self i), List.getElem?_set_self hlt, hsome]
          rfl
        · rw [h₃ hfin j hj, List.getElem?_set_ne (by omega)]

/-- The loop over the filters of a request: whether one of them returns 0, and else what the last
three return. -/
theorem filterLoop_units (c : ℕ) (h : Headers) :
    ((filterLoop (getFilter c (filterUnit ngx h))).1 = true ↔
      c = 1 ∧ h.setCookie.isSome = true ∨ filterCacheControl (N := N) h.cacheControl = 0 ∨
        getMaxAge (N := N) h.cacheControl = 0 ∨ getExpiresTime ngx h.expires = 0) ∧
    ((filterLoop (getFilter c (filterUnit ngx h))).1 = false →
      (filterLoop (getFilter c (filterUnit ngx h))).2[1]?.bind (·.r) =
          some (filterCacheControl h.cacheControl) ∧
        (filterLoop (getFilter c (filterUnit ngx h))).2[2]?.bind (·.r) =
          some (getMaxAge h.cacheControl) ∧
        (filterLoop (getFilter c (filterUnit ngx h))).2[3]?.bind (·.r) =
          some (getExpiresTime ngx h.expires)) := by
  have hstart : getFilter c (filterUnit ngx h) = ⟨if c = 1 then 0 else 1, filterUnit ngx h⟩ := rfl
  obtain ⟨h₁, -, h₃⟩ := filterLoop_spec _ (if c = 1 then 0 else 1) (filterUnit ngx h) rfl
  rw [← hstart] at h₁ h₃
  have hle : (if c = 1 then 0 else 1) ≤ 1 := by split <;> omega
  refine ⟨?_, fun hfin => ⟨h₃ hfin 1 hle, h₃ hfin 2 (by omega), h₃ hfin 3 (by omega)⟩⟩
  rw [h₁]
  split
  next hc => simp [filterUnit, hc, filterSetCookie_eq_zero]
  next hc => simp [filterUnit, hc]

end Loop

section Main
variable {N : Type} [LuaNumber N] {ngx : Ngx N} {q : Request N}

theorem filterCacheControl_eq_zero {cc : Option Bytes} : filterCacheControl (N := N) cc = 0 ↔
    ∃ s, cc = some s ∧ ∃ w ∈ forbidding, w <+: s := by
  cases cc with
  | none => simp [filterCacheControl, neg_one_ne_zero]
  | some s =>
    rcases filterCacheControl_some (N := N) s with ⟨he, hw⟩ | ⟨he, hw⟩
    · exact iff_of_true he ⟨s, rfl, hw⟩
    · refine iff_of_false (fun h => one_ne_zero (he.symm.trans h)) ?_
      rintro ⟨s', hs, hw'⟩
      cases hs
      exact hw hw'

theorem getMaxAge_eq_zero {cc : Option Bytes} : getMaxAge (N := N) cc = 0 ↔
    ∃ s, cc = some s ∧ ∃ a, firstMaxAge s = some a ∧ numeralValue a ≤ 0 := by
  cases cc with
  | none => simp [getMaxAge, neg_one_ne_zero]
  | some s =>
    cases ha : firstMaxAge s with
    | none =>
      rw [getMaxAge_of_none ha]
      simp [ha, neg_one_ne_zero]
    | some a =>
      obtain ⟨n, -, hpos, he⟩ := getMaxAge_of_first (N := N) ha
      rw [he]
      by_cases hn : 0 < n
      · have hv := hpos.mp hn
        simp [hn, ha, ne_of_gt hn, hv]
      · have hv : numeralValue a ≤ 0 := not_lt.mp fun h => hn (hpos.mpr h)
        simp [hn, ha, hv]

theorem getExpiresTime_eq_zero {e : Option Bytes} : getExpiresTime ngx e = 0 ↔
    ∃ s, e = some s ∧ (ngx.parseHttpTime s = none ∨ ngx.parseHttpTime s = some 0) := by
  cases e with
  | none => simp [getExpiresTime, neg_one_ne_zero]
  | some s => cases ht : ngx.parseHttpTime s <;> simp [getExpiresTime, ht]

def checkType (q : Request N) : ℕ :=
  if q.upstreamCacheStatus = some (lit "HIT") ∨ q.upstreamCacheStatus = some (lit "EXPIRES") then 0 else 1

omit [LuaNumber N] in
theorem setsCookie_iff : SetsCookie q ↔ checkType q = 1 ∧ q.header.setCookie.isSome = true := by
  unfold SetsCookie checkType exempt
  by_cases h : q.upstreamCacheStatus = some (lit "HIT") ∨ q.upstreamCacheStatus = some (lit "EXPIRES")
  · rw [if_pos h]
    refine iff_of_false (fun hs => ?_) (fun hs => absurd hs.1 (by decide))
    rcases h with h | h
    · exact hs.2 _ List.mem_cons_self h
    · exact hs.2 _ (List.mem_cons_of_mem _ List.mem_cons_self) h
  · rw [if_neg h]
    rw [not_or] at h
    simp [h.1, h.2]

/-- The loop over the filters ends with `fin` set just where a filter sees the reason. -/
theorem fin_iff : (filterLoop (getFilter (checkType q) (filterUnit ngx q.header))).1 = true ↔
    Seen ngx q := by
  rw [(filterLoop_units ngx (checkType q) q.header).1, Seen, setsCookie_iff,
    filterCacheControl_eq_zero, getMaxAge_eq_zero, getExpiresTime_eq_zero]
  simp only [and_or_left, exists_or, or_assoc]

theorem main_of_seen (h : Seen ngx q) : main ngx q = some q.header := by
  unfold main
  split
  · change (if (filterLoop (getFilter (checkType q) (filterUnit ngx q.header))).1 = true then _ else _) = _
    exact if_pos (fin_iff.mpr h)
  · rfl

/-- What the script does where no filter sees a reason, on the results of the filters. -/
theorem main_of_not_seen (hpos : 0 < q.aqbCacheTime) (h : ¬ Seen ngx q) : main ngx q =
    if getMaxAge (N := N) q.header.cacheControl ≠ -1 then
      some (if getMaxAge q.header.cacheControl < q.aqbCacheTime ∧ q.aqbContentType = some 0 then
        setAqbTtl ngx q.aqbCacheTime (ngx.time + q.aqbCacheTime) q.header else q.header)
    else if getExpiresTime ngx q.header.expires ≠ -1 then
      some (if getExpiresTime ngx q.header.expires < ngx.time + q.aqbCacheTime ∧
        q.aqbContentType = some 0 then
        setAqbTtl ngx q.aqbCacheTime (ngx.time + q.aqbCacheTime) q.header else q.header)
    else if filterCacheControl (N := N) q.header.cacheControl = 1 then
      some (setAqbTtl ngx q.aqbCacheTime (ngx.time + q.aqbCacheTime) q.header)
    else if q.aqbContentType = some 0 then
      some (setAqbTtl ngx q.aqbCacheTime (ngx.time + q.aqbCacheTime) q.header)
    else some q.header := by
  have hfin := Bool.eq_false_iff.mpr (mt fin_iff.mp h)
  obtain ⟨h1, h2, h3⟩ := (filterLoop_units ngx (checkType q) q.header).2 hfin
  rw [checkType] at hfin h1 h2 h3
  rw [main, if_pos hpos]
  simp only [hfin, h1, h2, h3, less, Option.map_some, ne_eq, Option.some.injEq, decide_eq_true_eq,
    Bool.false_eq_true, if_false]

def rewritten (ngx : Ngx N) (q : Request N) : Headers :=
  setAqbTtl ngx q.aqbCacheTime (ngx.time + q.aqbCacheTime) q.header

/-- Where no filter sees a reason and there is a `Cache-Control`, the script keeps the headers just
when the time that they state lasts. -/
theorem main_of_control (hpos : 0 < q.aqbCacheTime) (h : ¬ Seen ngx q) {s : Bytes}
    (hs : q.header.cacheControl = some s) :
    Lasts ngx q ∧ main ngx q = some q.header ∨
      ¬ Lasts ngx q ∧ main ngx q = some (rewritten ngx q) := by
  have hmain := main_of_not_seen hpos h
  have hone : filterCacheControl (N := N) q.header.cacheControl = 1 := by
    rw [hs]
    refine ((filterCacheControl_some s).resolve_left fun hzero => h ?_).1
    exact .inr (.inl ⟨s, hs, .inl hzero.2⟩)
  rw [Lasts]
  cases ha : firstMaxAge s with
  | some a =>
    obtain ⟨n, hn, hsign, hage⟩ := getMaxAge_of_first (N := N) ha
    have hvalue : 0 < numeralValue a := not_le.mp fun hle => h (.inr (.inl ⟨s, hs, .inr ⟨a, ha, hle⟩⟩))
    have hn0 : 0 < n := hsign.mpr hvalue
    have hne : n ≠ -1 := ne_of_gt (lt_trans LuaNumber.neg_one_lt hn0)
    rw [if_pos hn0, ← hs] at hage
    rw [hage, if_pos hne] at hmain
    rw [hmain, hs, Option.bind_some, ha]
    by_cases hlt : n < q.aqbCacheTime ∧ q.aqbContentType = some 0
    · refine .inr ⟨?_, by rw [if_pos hlt, rewritten]⟩
      rintro ⟨m, hm, hnot⟩
      cases hn.symm.trans hm
      exact hnot hlt
    · exact .inl ⟨⟨n, hn, hlt⟩, by rw [if_neg hlt]⟩
  | none =>
    have hage := getMaxAge_of_none (N := N) ha
    rw [← hs] at hage
    rw [hage, if_neg (not_not.mpr rfl), hone] at hmain
    rw [hmain, hs, Option.bind_some, ha]
    cases he : q.header.expires with
    | none =>
      refine .inr ⟨?_, ?_⟩
      · rintro ⟨t, ht, -⟩
        cases ht
      · rw [getExpiresTime, if_neg (not_not.mpr rfl), if_pos rfl, rewritten]
    | some e =>
      cases ht : ngx.parseHttpTime e with
      | none => exact absurd (.inr (.inr ⟨e, he, .inl ht⟩)) h
      | some t =>
        have htime : getExpiresTime ngx (some e) = t := by rw [getExpiresTime, ht, Option.getD_some]
        rw [htime, Option.bind_some, ht]
        by_cases hneg : t = -1
        · refine .inr ⟨?_, by rw [if_neg (not_not.mpr hneg), if_pos rfl, rewritten]⟩
          rintro ⟨u, hu, hne, -⟩
          cases hu
          exact hne hneg
        · rw [if_pos hneg]
          by_cases hlt : t < ngx.time + q.aqbCacheTime ∧ q.aqbContentType = some 0
          · refine .inr ⟨?_, by rw [if_pos hlt, rewritten]⟩
            rintro ⟨u, hu, -, hnot⟩
            cases hu
            exact hnot hlt
          · exact .inl ⟨⟨t, rfl, hneg, hlt⟩, by rw [if_neg hlt]⟩

/-- What the script writes into `Cache-Control` does not forbid to keep the response. -/
theorem not_forbids_written {n : N} (hn : 0 < n) :
    ¬ Forbids (lit "public, max-age=" ++ LuaNumber.tostring n) := by
  have hplain := LuaNumber.tostring_plain n
  have hws : ∀ b ∈ lit "max-age=" ++ LuaNumber.tostring n, isWs b = false := by
    intro b hb
    have hname : ∀ b ∈ lit "max-age=", isWs b = false := by decide +kernel
    rcases List.mem_append.mp hb with hb | hb
    · exact hname b hb
    · simp [isWs, (hplain b hb).2]
  have hlit : lit "public, max-age=" ++ LuaNumber.tostring n =
      lit "public" ++ 44 :: (32 :: (lit "max-age=" ++ LuaNumber.tostring n)) := rfl
  have hcomma : (44 : UInt8) ∉ 32 :: (lit "max-age=" ++ LuaNumber.tostring n) := by
    intro hmem
    rcases List.mem_cons.mp hmem with he | hmem
    · exact absurd he (by decide)
    · rcases List.mem_append.mp hmem with hmem | hmem
      · exact absurd hmem (by decide)
      · exact (hplain 44 hmem).1 rfl
  have hdirectives : directives (lit "public, max-age=" ++ LuaNumber.tostring n) =
      [lit "public", lit "max-age=" ++ LuaNumber.tostring n] := by
    rw [hlit, directives, List.splitOn_append_cons_self_of_not_mem (by decide),
      List.splitOn_eq_singleton hcomma]
    have hdrop : (32 :: (lit "max-age=" ++ LuaNumber.tostring n)).dropWhile isWs =
        lit "max-age=" ++ LuaNumber.tostring n := rfl
    have hrdrop : (lit "max-age=" ++ LuaNumber.tostring n).rdropWhile isWs =
        lit "max-age=" ++ LuaNumber.tostring n := by
      refine List.rdropWhile_eq_self_iff.mpr fun hne => ?_
      simp [hws _ (List.getLast_mem hne)]
    rw [List.map_cons, List.map_cons, hdrop, hrdrop]
    rfl
  rintro ⟨d, hd, hname⟩
  rw [hdirectives] at hd
  rcases List.mem_pair.mp hd with rfl | rfl
  · revert hname
    decide
  · have hn1 : directiveName (lit "max-age=" ++ LuaNumber.tostring n) = lit "max-age" := rfl
    have hv : directiveValue (lit "max-age=" ++ LuaNumber.tostring n) = LuaNumber.tostring n := rfl
    rw [hn1, hv] at hname
    rcases hname with hname | ⟨-, hnum, hle⟩
    · exact absurd hname (by decide)
    · exact absurd (LuaNumber.tostring_pos hn hnum) (not_lt.mpr hle)

/-- A response that may not be made public keeps its `Cache-Control` and `Expires` just when a filter
sees the reason, or what it states lasts. -/
theorem uncacheable_kept_iff (hpos : 0 < q.aqbCacheTime) (h : Uncacheable ngx q) :
    main ngx q = some q.header ↔ Seen ngx q ∨ Lasts ngx q := by
  by_cases hseen : Seen ngx q
  · exact iff_of_true (main_of_seen hseen) (.inl hseen)
  · rcases h with ⟨s, hs, hforbids⟩ | ⟨e, he, ht⟩ | hcookie
    · rcases main_of_control hpos hseen hs with ⟨hlasts, hmain⟩ | ⟨hlasts, hmain⟩
      · exact iff_of_true hmain (.inr hlasts)
      · refine iff_of_false (fun hkept => ?_) fun hor => hor.elim hseen hlasts
        have hheader : rewritten ngx q = q.header := Option.some.inj (hmain.symm.trans hkept)
        have hcontrol := congrArg Headers.cacheControl hheader
        rw [hs] at hcontrol
        have hwritten := Option.some.inj hcontrol
        rw [← hwritten] at hforbids
        exact not_forbids_written hpos hforbids
    · exact absurd (.inr (.inr ⟨e, he, .inl ht⟩)) hseen
    · exact absurd (.inl hcookie) hseen

end Main

/-- A static file with `Cache-Control: public, no-cache`, and 60 seconds configured. -/
def noCacheSecond : Request ℤ where
  aqbContentType := some 0
  aqbCacheTime := 60
  upstreamCacheStatus := none
  header := ⟨none, some (lit "public, no-cache"), none⟩

/-- An nginx whose clock stands at 0 and that reads no date. -/
def stopped : Ngx ℤ := ⟨0, fun _ => lit "Thu, 01 Jan 1970 00:01:00 GMT", fun _ => none⟩

theorem noCacheSecond_uncacheable : Uncacheable stopped noCacheSecond :=
  .inl ⟨lit "public, no-cache", rfl, lit "no-cache", by decide, .inl (by decide)⟩

theorem uncacheable_kept_iff_no_cache : main stopped noCacheSecond = some noCacheSecond.header ↔
    Seen stopped noCacheSecond ∨ Lasts stopped noCacheSecond :=
  uncacheable_kept_iff (by decide) noCacheSecond_uncacheable

/-- The second directive is not looked at, and the response is made public. -/
theorem no_cache_made_public : ¬ ∀ q : Request ℤ, 0 < q.aqbCacheTime → Uncacheable stopped q →
    main stopped q = some q.header := by
  intro h
  have hkept := h noCacheSecond (by decide) noCacheSecond_uncacheable
  have hfirst : firstMaxAge (lit "public, no-cache") = none := by decide
  have hnames : ¬ ∃ w ∈ forbidding, w <+: lit "public, no-cache" := by decide
  have hunseen : ¬ Seen stopped noCacheSecond := by
    rintro (hcookie | ⟨cc, hcc, hreason⟩ | ⟨e, he, -⟩)
    · exact absurd hcookie.1 (by decide)
    · cases hcc
      rcases hreason with hname | ⟨a, ha, -⟩
      · exact hnames hname
      · rw [hfirst] at ha
        cases ha
    · cases he
  rcases main_of_control (by decide) hunseen (s := lit "public, no-cache") rfl with
    ⟨hlasts, -⟩ | ⟨-, hmain⟩
  · have hnone : noCacheSecond.header.cacheControl.bind firstMaxAge = none := hfirst
    rw [Lasts, hnone] at hlasts
    obtain ⟨t, ht, -⟩ := hlasts
    cases ht
  · have hheader := Option.some.inj (hkept.symm.trans hmain)
    exact absurd (congrArg Headers.expires hheader) (by decide)

end NginB.Ttl
