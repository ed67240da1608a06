import NginB.Ttl.Uncacheable

/-! # The lifetime that the script writes

The script replaces a lifetime by a longer one only, and what it has written it leaves as it is: a
second pass reads its own `max-age`, which is not shorter.
-/
namespace NginB.Ttl
open NginB.Lua
open NginB.Minify (lit)

/-- The lifetime of the response ends before that of `k` seconds from now: the first `max-age=` with
a numeral, or else the time in `Expires`, if any. -/
def EndsBefore {N : Type} [ExactNumber N] (ngx : Ngx N) (header : Headers) (k : ℕ) : Prop :=
  match header.cacheControl.bind firstMaxAge with
  | some a => numeralValue a < k
  | none => ∀ t, header.expires.bind ngx.parseHttpTime = some t → t < ngx.time + (k : N)

/-- The value that the script writes into `Cache-Control` for `k` seconds. -/
def publicMaxAge (k : ℕ) : Bytes := lit "public, max-age=" ++ decimal k

theorem firstMaxAge_cons {b : UInt8} {t : Bytes} (hb : b ≠ 109) :
    firstMaxAge (b :: t) = firstMaxAge t := by
  have hhead : ¬ lit "max-age=" <+: b :: t := by
    intro h
    have hlit : lit "max-age=" = 109 :: lit "ax-age=" := rfl
    rw [hlit, List.cons_prefix_cons] at h
    exact hb h.1.symm
  rw [firstMaxAge, List.tails, List.findSome?_cons, if_neg hhead]
  rfl

/-- The script reads back the number that it writes. -/
theorem firstMaxAge_publicMaxAge (k : ℕ) : firstMaxAge (publicMaxAge k) = some (decimal k) := by
  have hskip : ∀ (w t : Bytes), (109 : UInt8) ∉ w → firstMaxAge (w ++ t) = firstMaxAge t := by
    intro w t
    induction w with
    | nil => exact fun _ => rfl
    | cons b w ih =>
      intro hw
      rw [List.mem_cons, not_or] at hw
      rw [List.cons_append, firstMaxAge_cons (Ne.symm hw.1), ih hw.2]
  have hsplit : publicMaxAge k = lit "public, " ++ (109 :: (lit "ax-age=" ++ decimal k)) := rfl
  have hname : lit "max-age=" <+: 109 :: (lit "ax-age=" ++ decimal k) := ⟨decimal k, rfl⟩
  have hdrop : (109 :: (lit "ax-age=" ++ decimal k)).drop (lit "max-age=").length = decimal k := rfl
  have hnumeral : numeral (decimal k) = some (decimal k) := isNumeral_decimal k
  rw [hsplit, hskip _ _ (by decide), firstMaxAge, List.tails, List.findSome?_cons, if_pos hname, hdrop,
    hnumeral]

section Rewrites
variable {N : Type} [ExactNumber N] {ngx : Ngx N} {q : Request N} {k : ℕ}

theorem rewritten_eq (hq : q.aqbCacheTime = k) (hk : k < 10 ^ 14) : rewritten ngx q =
    { q.header with
      cacheControl := some (publicMaxAge k)
      expires := some (ngx.httpTime (ngx.time + (k : N))) } := by
  rw [rewritten, setAqbTtl, hq, ExactNumber.tostring_natCast hk]
  rfl

/-- What `get_max_age` returns for a response that no filter stops at. -/
theorem getMaxAge_of_not_seen (h : ¬ Seen ngx q) :
    (∃ a, ∃ n : N, q.header.cacheControl.bind firstMaxAge = some a ∧ LuaNumber.tonumber a = some n ∧
      0 < n ∧ getMaxAge (N := N) q.header.cacheControl = n) ∨
    q.header.cacheControl.bind firstMaxAge = none ∧ getMaxAge (N := N) q.header.cacheControl = -1 := by
  cases hs : q.header.cacheControl with
  | none => exact .inr ⟨rfl, rfl⟩
  | some s =>
    rw [Option.bind_some]
    cases ha : firstMaxAge s with
    | none => exact .inr ⟨rfl, getMaxAge_of_none ha⟩
    | some a =>
      obtain ⟨n, hn, hsign, hage⟩ := getMaxAge_of_first (N := N) ha
      have hvalue : 0 < numeralValue a := not_le.mp fun hle => h (.inr (.inl ⟨s, hs, .inr ⟨a, ha, hle⟩⟩))
      have hpos : 0 < n := hsign.mpr hvalue
      exact .inl ⟨a, n, rfl, hn, hpos, by rw [hage, if_pos hpos]⟩

theorem getExpiresTime_of_parsed {e : Option Bytes} {t : N} (h : e.bind ngx.parseHttpTime = some t) :
    getExpiresTime ngx e = t := by
  obtain ⟨s, rfl, hs⟩ := Option.bind_eq_some_iff.mp h
  rw [getExpiresTime, hs, Option.getD_some]

/-- Where the script changes the headers it writes its own lifetime, and the old one ends before it. -/
theorem main_changed (hclock : 0 ≤ ngx.time) (hq : q.aqbCacheTime = k) (hk : 0 < k) (hlt : k < 10 ^ 14)
    {h : Headers} (hmain : main ngx q = some h) (hne : h ≠ q.header) :
    h = rewritten ngx q ∧ EndsBefore ngx q.header k := by
  have hpos : (0 : N) < k := ExactNumber.natCast_pos hk hlt
  have hunseen : ¬ Seen ngx q := by
    intro hseen
    rw [main_of_seen hseen] at hmain
    cases hmain
    exact hne rfl
  have hkept : ¬ main ngx q = some q.header := fun hkept => hne (Option.some.inj (hmain.symm.trans hkept))
  rw [main_of_not_seen (by rwa [hq]) hunseen] at hmain hkept
  rw [EndsBefore]
  rcases getMaxAge_of_not_seen hunseen with ⟨a, n, ha, hn, hn0, hage⟩ | ⟨ha, hage⟩
  · have hmark : n ≠ -1 := ne_of_gt (lt_trans LuaNumber.neg_one_lt hn0)
    obtain ⟨s, hs, hfirst⟩ := Option.bind_eq_some_iff.mp ha
    rw [hage, if_pos hmark] at hmain hkept
    rw [ha]
    split at hmain
    next hshorter =>
      cases hmain
      rw [hq] at hshorter
      exact ⟨rfl, (ExactNumber.tonumber_lt hlt (firstMaxAge_isNumeral hfirst) hn).mp hshorter.1⟩
    next hlong => exact absurd (by rw [if_neg hlong]) hkept
  · rw [hage, if_neg (not_not.mpr rfl)] at hmain hkept
    rw [ha]
    by_cases hmark : getExpiresTime ngx q.header.expires = -1
    · -- no date, or one that is the mark itself, which the clock is past
      refine ⟨?_, fun t ht => ?_⟩
      · rw [if_neg (not_not.mpr hmark)] at hmain hkept
        split at hmain
        · exact (Option.some.inj hmain).symm
        next hcc =>
          split at hmain
          · exact (Option.some.inj hmain).symm
          · exact absurd hmain.symm (by simp [hne])
      · rw [← getExpiresTime_of_parsed ht, hmark]
        exact lt_of_lt_of_le LuaNumber.neg_one_lt (ExactNumber.add_nonneg hclock hpos.le)
    · rw [if_pos hmark] at hmain hkept
      split at hmain
      next hshorter =>
        cases hmain
        refine ⟨rfl, fun t ht => ?_⟩
        rw [← getExpiresTime_of_parsed ht, ← hq]
        exact hshorter.1
      next hlong => exact absurd (by rw [if_neg hlong]) hkept

/-- The script leaves the lifetime that it writes as it is, at any time and for any status. -/
theorem main_of_publicMaxAge (hq : q.aqbCacheTime = k) (hk : 0 < k) (hlt : k < 10 ^ 14)
    (hcc : q.header.cacheControl = some (publicMaxAge k)) : main ngx q = some q.header := by
  by_cases hseen : Seen ngx q
  · exact main_of_seen hseen
  · have hpos : (0 : N) < k := ExactNumber.natCast_pos hk hlt
    have hfirst : q.header.cacheControl.bind firstMaxAge = some (decimal k) := by
      rw [hcc]
      exact firstMaxAge_publicMaxAge k
    rcases getMaxAge_of_not_seen hseen with ⟨a, n, ha, hn, hn0, hage⟩ | ⟨ha, -⟩
    · have hmark : n ≠ -1 := ne_of_gt (lt_trans LuaNumber.neg_one_lt hn0)
      have hnot : ¬ n < q.aqbCacheTime := by
        cases hfirst.symm.trans ha
        rw [hq, ExactNumber.tonumber_lt hlt (isNumeral_decimal k) hn, numeralValue_decimal]
        exact lt_irrefl _
      rw [main_of_not_seen (by rwa [hq]) hseen, hage, if_pos hmark, if_neg fun h => hnot h.1]
    · cases hfirst.symm.trans ha

/-- Where the script changes the headers it writes `max-age` and `Expires` for `k` seconds from now,
and the lifetime that the response had ends before; and run again, at any time, it leaves what it has
written. -/
theorem lifetime_extended (hclock : 0 ≤ ngx.time) (hq : q.aqbCacheTime = k) (hk : 0 < k) (hlt : k < 10 ^ 14)
    {h : Headers} (hmain : main ngx q = some h) (hne : h ≠ q.header) :
    (h = { q.header with
        cacheControl := some (publicMaxAge k)
        expires := some (ngx.httpTime (ngx.time + (k : N))) } ∧
      (firstMaxAge (publicMaxAge k)).map numeralValue = some (k : ℤ) ∧ EndsBefore ngx q.header k) ∧
    ∀ (ngx' : Ngx N) (q' : Request N), q'.aqbCacheTime = k → q'.header = h → main ngx' q' = some h := by
  obtain ⟨hh, hbefore⟩ := main_changed hclock hq hk hlt hmain hne
  rw [rewritten_eq hq hlt] at hh
  refine ⟨⟨hh, ?_, hbefore⟩, ?_⟩
  · rw [firstMaxAge_publicMaxAge, Option.map_some, numeralValue_decimal]
  · intro ngx' q' hq' hh'
    rw [← hh']
    apply main_of_publicMaxAge hq' hk hlt
    rw [hh', hh]

end Rewrites

/-- A static file that may be kept for 30 seconds, and 60 seconds configured. -/
def halfMinute : Request ℤ where
  aqbContentType := some 0
  aqbCacheTime := 60
  upstreamCacheStatus := none
  header := ⟨none, some (lit "public, max-age=30"), none⟩

theorem main_halfMinute : main stopped halfMinute = some (rewritten stopped halfMinute) := by
  have hfirst : firstMaxAge (lit "public, max-age=30") = some (lit "30") := by decide
  have hvalue : numeralValue (lit "30") = 30 := by decide
  have hnames : ¬ ∃ w ∈ forbidding, w <+: lit "public, max-age=30" := by decide
  have hunseen : ¬ Seen stopped halfMinute := by
    rintro (hcookie | ⟨cc, hcc, hreason⟩ | ⟨e, he, -⟩)
    · exact absurd hcookie.1 (by decide)
    · cases hcc
      rcases hreason with hname | ⟨a, ha, hle⟩
      · exact hnames hname
      · cases hfirst.symm.trans ha
        rw [hvalue] at hle
        exact absurd hle (by decide)
    · cases he
  have hnot : ¬ Lasts stopped halfMinute := by
    have hbind : halfMinute.header.cacheControl.bind firstMaxAge = some (lit "30") := hfirst
    rw [Lasts, hbind]
    rintro ⟨n, hn, hlong⟩
    have hread : (LuaNumber.tonumber (lit "30") : Option ℤ) = some 30 := by decide
    cases hread.symm.trans hn
    exact hlong (by decide)
  rcases main_of_control (by decide) hunseen (s := lit "public, max-age=30") rfl with
    ⟨hlasts, -⟩ | ⟨-, hmain⟩
  · exact absurd hlasts hnot
  · exact hmain

theorem lifetime_extended_halfMinute : EndsBefore stopped halfMinute.header 60 ∧
    main stopped { halfMinute with header := rewritten stopped halfMinute } =
      some (rewritten stopped halfMinute) := by
  have h := lifetime_extended (k := 60) (by decide) rfl (by decide) (by decide) main_halfMinute (by decide)
  exact ⟨h.1.2.2, h.2 stopped { halfMinute with header := rewritten stopped halfMinute } rfl rfl⟩

end NginB.Ttl
