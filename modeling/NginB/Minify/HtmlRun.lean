import NginB.Minify.HtmlRule

/-! # The HTML minifier follows its rules

Every rule is what the code does: the iteration of the loop, executed on bytes that
look as the rule says, ends in the context of the rule with the events of the rule.
-/
namespace NginB.Minify
open NginB.Program Ascii

theorem length_bang (t : List UInt8) : (lit "<!" ++ lbracket :: t).length = t.length + 3 := by
  simp [Nat.add_assoc]

section Rules
variable {x y : Ctx} {rest out : List UInt8} {tr : List Item} {es : List Ev} {nxt : Next}

/-- A call of `ngx_minify_cache` that holds the unread bytes back, and the skips over them. -/
theorem holdOr_run {c : List UInt8} (onMiss : MinifyM Stream Bool) (hc : x.cache = [])
    (hlen : rest.length ≤ c.length) (h64 : c.length < 64) (h : cacheable c rest = true) :
    (do
      let cached ← ngxMinifyCache c
      if cached = -1 then onMiss
      else
        incRposTimes cached.toNat
        return false : MinifyM Stream Bool).run ⟨x, ⟨rest, out⟩, tr⟩ =
      .ok (false, ⟨x.hold rest, ⟨[], out⟩,
        (rest.map (.skip x.state.top)).reverse ++ .cacheCall c x.cache.length rest :: tr⟩) := by
  have hne : ¬ (rest.length : ℤ) = -1 := by omega
  rw [bind_run (cache_hold_run hc hlen h64 h), if_neg hne, Int.toNat_natCast,
    bind_run (incRposTimes_run _ _ _ (Nat.le_refl _))]
  simp

/-- A call of `ngx_minify_cache` that holds nothing back. -/
theorem missOr_run {c : List UInt8} (onMiss : MinifyM Stream Bool) (hc : x.cache = [])
    (hlen : rest.length ≤ c.length) (h64 : c.length < 64) (h : cacheable c rest = false) :
    (do
      let cached ← ngxMinifyCache c
      if cached = -1 then onMiss
      else
        incRposTimes cached.toNat
        return false : MinifyM Stream Bool).run ⟨x, ⟨rest, out⟩, tr⟩ =
      onMiss.run ⟨x, ⟨rest, out⟩, .cacheCall c x.cache.length rest :: tr⟩ := by
  rw [bind_run (cache_miss_run hc hlen h64 h), if_pos rfl]

theorem HtmlRule.tagname_run (h : HtmlRule x .htmlStripTagname rest es y nxt)
    (hx : x.state = htmlStack x.state.top) (hc : x.cache = []) :
    (htmlStripTagnameTurn none).run ⟨x, ⟨rest, out⟩, tr⟩ =
      .ok (decide (nxt = .leave), if nxt = .leave then
        Conf.turned ⟨x, ⟨rest, out⟩, tr⟩ .htmlStripTagname es y
      else Routine.finish .htmlStripTagname (Conf.turned ⟨x, ⟨rest, out⟩, tr⟩ .htmlStripTagname es y)) := by
  unfold htmlStripTagnameTurn htmlStripTagnameSwitch Conf.turned Routine.finish Routine.refreshes
  cases h with
  | nameGt hs =>
    by_cases hk : 0 ≤ x.tagcache.close.skipIndex
    · simp [hs, ctxTagcacheClose, Ctx.nameGt, hk, ngxMinifyGetSkipTagname]
    · simp [hs, ctxTagcacheClose, ctxTagcacheClear, Ctx.nameGt, hk, ngxMinifyGetSkipTagname]
  | nameBlank hs hb =>
    rw [hs] at hx
    by_cases hk : x.tagcache.close.skipIndex < 0
    · rcases hb with rfl | rfl <;>
        simp [hx, ctxTagcacheClose, ctxTagcacheClear, Ctx.nameBlank, hk, ngxMinifyGetSkipTagname]
    · rcases hb with rfl | rfl <;>
        simp [hx, ctxTagcacheClose, ctxTagcacheClear, Ctx.nameBlank, hk, ngxMinifyGetSkipTagname]
  | nameByte hs hb =>
    rcases hb with ⟨h1, h2, h3⟩
    simp [hs, h1, h2, h3, ctxTagcacheAdd]
  | attSpace hs hp => simp [hs, hp]
  | attGt hs =>
    by_cases hl : x.tagcache.len = 0
    · simp [hs, hl, Ctx.attGt]
    · simp [hs, hl, Ctx.attGt]
  | @attClose t hs =>
    have h2 : (2 : ℤ) ≤ t.length + 1 + 1 := by omega
    simp [hs, h2, ctxTagcacheClear]
  | @attSlash b t hs hb =>
    have h2 : (2 : ℤ) ≤ t.length + 1 + 1 := by omega
    simp [hs, h2, hb]
  | attHold hs =>
    simp [hs, hc, cache_hold_run, cacheable]
  | attByte hs hb hp => simp [hs, hb, hp]
  | endSpace hs => simp [hs]
  | endGt hs =>
    by_cases hl : x.tagendcache.len = 0
    · simp [hs, hl, Ctx.endGt]
    · by_cases hm : x.tagcache.memcmpEq x.tagendcache.close x.tagcache.len = true
      · simp [hs, hl, hm, Ctx.endGt, ctxTagendcacheClose, ctxTagcacheClear, ctxTagendcacheClear]
      · simp [hs, hl, hm, Ctx.endGt, ctxTagendcacheClose, ctxTagendcacheClear]
  | endName hs hb hl => simp [hs, hb, hl, ctxTagendcacheAdd]
  | endByte hs hb hl => simp [hs, hb, hl]
  | nameSkip hs => simp [hs]
  | nameLeave hs => simp [hs]

theorem HtmlRule.comment_run (h : HtmlRule x .htmlStripComment rest es y nxt)
    (hx : x.state = htmlStack x.state.top) (hc : x.cache = []) :
    (htmlStripCommentTurn (B := Stream)).run ⟨x, ⟨rest, out⟩, tr⟩ =
      .ok (decide (nxt = .leave), Conf.turned ⟨x, ⟨rest, out⟩, tr⟩ .htmlStripComment es y) := by
  unfold htmlStripCommentTurn htmlStripCommentSwitch Conf.turned
  rw [bind_run (visit_run _), bind_run (ctxState_run _)]
  cases h with
  | commentHold hs =>
    simp [hs, hc, cache_hold_run, cacheable]
  | @commentIf t hs =>
    rw [hs] at hx
    have h4 : (t.length : ℤ) + 1 + 1 + 1 + 1 + 1 + 1 + 1 ≠ 4 := by omega
    have h7 : (7 : ℤ) ≤ t.length + 1 + 1 + 1 + 1 + 1 + 1 + 1 := by omega
    simp [hx, h4, h7]
  | @commentPlain b t hs hb =>
    rw [hs] at hx
    have h4 : (t.length : ℤ) + 1 + 1 + 1 + 1 + 1 ≠ 4 := by omega
    simp [hx, h4, hb]
  | @commentOther a b t hs hn =>
    rw [hs] at hx
    have h4 : (t.length : ℤ) + 1 + 1 + 1 + 1 + 1 + 1 + 1 ≠ 4 := by omega
    have h7 : (7 : ℤ) ≤ t.length + 1 + 1 + 1 + 1 + 1 + 1 + 1 := by omega
    have hn' : ¬ (a = 105 ∧ b = 102) := by simpa using hn
    simp [hx, h4, h7, hn']
  | @commentHoldIf t hs ht hcb =>
    have hb : (lit "<!--[" ++ t).getD 4 0 = lbracket := by simp
    have h4 : ¬ ((lit "<!--[" ++ t).length : ℤ) = (lit "<!--").length := by simp; omega
    have h7 : ¬ ((lit "<!--[if").length : ℤ) ≤ (lit "<!--[" ++ t).length := by simp; omega
    simp only [hs]
    rw [bind_run (count_run _), if_neg h4]
    rw [bind_run (rposAt_run (show 4 < (lit "<!--[" ++ t).length by simp)), if_pos hb,
      bind_run (count_run _), if_neg h7,
      holdOr_run _ hc (by simp; omega) (by decide) hcb]
    simp [hs]
  | @commentMiss t hs ht hcb =>
    have hb : (lit "<!--[" ++ t).getD 4 0 = lbracket := by simp
    have h4 : ¬ ((lit "<!--[" ++ t).length : ℤ) = (lit "<!--").length := by simp; omega
    have h7 : ¬ ((lit "<!--[if").length : ℤ) ≤ (lit "<!--[" ++ t).length := by simp; omega
    have hst := hx
    rw [hs] at hst
    simp only [hs]
    rw [bind_run (count_run _), if_neg h4]
    rw [bind_run (rposAt_run (show 4 < (lit "<!--[" ++ t).length by simp)), if_pos hb,
      bind_run (count_run _), if_neg h7, missOr_run _ hc (by simp; omega) (by decide) hcb]
    simp [hst]
  | @ieClose t hs =>
    have h4 : (4 : ℤ) ≤ t.length + 1 + 1 + 1 + 1 := by omega
    simp [hs, h4]
  | @ieFour a b c t hs hn =>
    have h4 : (4 : ℤ) ≤ t.length + 1 + 1 + 1 + 1 := by omega
    have hn' : ¬ (a = 45 ∧ b = 45 ∧ c = 62) := by simpa using hn
    simp [hs, h4, hn']
  | @ieHold t hs ht hcb =>
    have h4 : ¬ ((lit "]-->").length : ℤ) ≤ (rbracket :: t).length := by simp; omega
    simp only [hs]
    rw [bind_run (rposAt_zero_run _), if_pos rfl, bind_run (count_run _), if_neg h4,
      holdOr_run _ hc (by simp; omega) (by decide) hcb]
    simp [hs]
  | @ieMiss t hs ht hcb =>
    have h4 : ¬ ((lit "]-->").length : ℤ) ≤ (rbracket :: t).length := by simp; omega
    simp only [hs]
    rw [bind_run (rposAt_zero_run _), if_pos rfl, bind_run (count_run _), if_neg h4,
      missOr_run _ hc (by simp; omega) (by decide) hcb]
    simp [hs]
  | ieByte hs hb => simp [hs, hb]
  | @skipClose t hs =>
    have h3 : (3 : ℤ) ≤ t.length + 1 + 1 + 1 := by omega
    simp [hs, h3]
  | @skipThree a b t hs hn =>
    have h3 : (3 : ℤ) ≤ t.length + 1 + 1 + 1 := by omega
    have hn' : ¬ (a = 45 ∧ b = 62) := by simpa using hn
    simp [hs, h3, hn']
  | @skipHold t hs ht hcb =>
    have h3 : ¬ ((lit "-->").length : ℤ) ≤ (dash :: t).length := by simp; omega
    simp only [hs]
    rw [bind_run (rposAt_zero_run _), if_pos rfl, bind_run (count_run _), if_neg h3,
      holdOr_run _ hc (by simp; omega) (by decide) hcb]
    simp [hs]
  | @skipMiss t hs ht hcb =>
    have h3 : ¬ ((lit "-->").length : ℤ) ≤ (dash :: t).length := by simp; omega
    simp only [hs]
    rw [bind_run (rposAt_zero_run _), if_pos rfl, bind_run (count_run _), if_neg h3,
      missOr_run _ hc (by simp; omega) (by decide) hcb]
    simp [hs]
  | skipByte hs hb => simp [hs, hb]
  | commentLeave hs => simp [hs]

theorem HtmlRule.bang_run (h : HtmlRule x .htmlStripTag rest es y nxt)
    (hs : x.state.top = .htmlTagBang) (hx : x.state = htmlStack x.state.top) (hc : x.cache = []) :
    (htmlStateTagBang (B := Stream)).run ⟨x, ⟨rest, out⟩, .turn .htmlStripTag x rest out.length :: tr⟩ =
      .ok (decide (nxt = .leave), Conf.turned ⟨x, ⟨rest, out⟩, tr⟩ .htmlStripTag es y) := by
  unfold htmlStateTagBang Conf.turned
  rw [hs] at hx
  cases h with
  | @bangTag b t _ hb =>
    have h2 : ¬ (t.length : ℤ) + 1 + 1 + 1 ≤ 2 := by omega
    simp [hx, h2, hb]
  | @bangComment t _ =>
    have h2 : ¬ (t.length : ℤ) + 1 + 1 + 1 + 1 ≤ 2 := by omega
    have h4 : (4 : ℤ) ≤ t.length + 1 + 1 + 1 + 1 := by omega
    simp [hx, h2, h4]
  | @bangDash b t _ hb =>
    have h2 : ¬ (t.length : ℤ) + 1 + 1 + 1 + 1 ≤ 2 := by omega
    have h4 : (4 : ℤ) ≤ t.length + 1 + 1 + 1 + 1 := by omega
    simp [hx, h2, h4, hb]
  | bangHoldDash _ =>
    simp [hx, hc, cache_hold_run, cacheable]
  | @bangCdata t _ =>
    have h2 : ¬ (t.length : ℤ) + 1 + 1 + 1 + 1 + 1 + 1 + 1 + 1 + 1 ≤ 2 := by omega
    have h9 : (9 : ℤ) ≤ t.length + 1 + 1 + 1 + 1 + 1 + 1 + 1 + 1 + 1 := by omega
    simp [hx, h2, h9]
  | @bangNine t _ ht hn =>
    have h2 : ¬ ((lit "<!" ++ lbracket :: t).length : ℤ) ≤ 2 := by
      rw [length_bang]
      omega
    have h9 : ((lit "<![CDATA[").length : ℤ) ≤ (lit "<!" ++ lbracket :: t).length := by simp; omega
    have hb : (lit "<!" ++ lbracket :: t).getD 2 0 = lbracket := by simp
    have h9' : 9 ≤ (lit "<!" ++ lbracket :: t).length := by simp; omega
    rw [Ev.items_append, Ev.items_replicate_copy x 9 _ h9', bind_run (count_run _), if_neg h2,
      bind_run (rposAt_run (show 2 < (lit "<!" ++ lbracket :: t).length by simp)), hb,
      if_neg (by decide), if_neg (by decide), bind_run (count_run _), if_pos h9,
      bind_run (rposIs_run (Int.ofNat_le.mp h9))]
    have hne : ¬ decide ((lit "<!" ++ lbracket :: t).take (lit "<![CDATA[").length =
        lit "<![CDATA[") = true := by
      simpa using hn
    rw [if_neg hne]
    simp [copyRposTimes_run _ (60 :: 33 :: 91 :: t) _ _ (show 9 ≤ t.length + 1 + 1 + 1 by omega), hs,
      -List.map_take]
  | @bangHoldCdata t _ ht hcb =>
    have h2 : ¬ ((lit "<!" ++ lbracket :: t).length : ℤ) ≤ 2 := by
      rw [length_bang]
      omega
    have h9 : ¬ ((lit "<![CDATA[").length : ℤ) ≤ (lit "<!" ++ lbracket :: t).length := by
      simp
      omega
    have hb : (lit "<!" ++ lbracket :: t).getD 2 0 = lbracket := by simp
    rw [bind_run (count_run _), if_neg h2,
      bind_run (rposAt_run (show 2 < (lit "<!" ++ lbracket :: t).length by simp)), hb,
      if_neg (by decide), if_neg (by decide), bind_run (count_run _), if_neg h9,
      holdOr_run _ hc (by simp; omega) (by decide) hcb]
    simp [hs]
  | @bangAbort t _ ht hcb =>
    have h2 : ¬ ((lit "<!" ++ lbracket :: t).length : ℤ) ≤ 2 := by
      rw [length_bang]
      omega
    have h9 : ¬ ((lit "<![CDATA[").length : ℤ) ≤ (lit "<!" ++ lbracket :: t).length := by
      simp
      omega
    have hb : (lit "<!" ++ lbracket :: t).getD 2 0 = lbracket := by simp
    rw [bind_run (count_run _), if_neg h2,
      bind_run (rposAt_run (show 2 < (lit "<!" ++ lbracket :: t).length by simp)), hb,
      if_neg (by decide), if_neg (by decide), bind_run (count_run _), if_neg h9,
      missOr_run _ hc (by simp; omega) (by decide) hcb]
    simp
  | tagSpace h' | tagSlash h' | tagName h' _ | cdataClose h' | cdataThree h' _ | cdataHold h' _ _
  | cdataMiss h' _ _ | cdataByte h' _ | tagSkip h' => exact absurd (hs.symm.trans h') (by decide)
  | callTagname h' | callComment h' | tagLeave h' =>
    rw [hs] at h'
    exact absurd h' (by decide)

theorem HtmlRule.tag_run {fuel : ℕ} (h : HtmlRule x .htmlStripTag rest es y nxt)
    (hx : x.state = htmlStack x.state.top) (hc : x.cache = []) (hn : ∀ r, nxt ≠ .call r) :
    (htmlStripTagTurn none fuel).run ⟨x, ⟨rest, out⟩, tr⟩ =
      .ok (decide (nxt = .leave), Conf.turned ⟨x, ⟨rest, out⟩, tr⟩ .htmlStripTag es y) := by
  unfold htmlStripTagTurn htmlStripTagSwitch
  rw [bind_run (visit_run _), bind_run (ctxState_run _)]
  by_cases hb : x.state.top = .htmlTagBang
  · simp only [hb]
    exact h.bang_run hb hx hc
  unfold Conf.turned
  cases h with
  | tagSpace hs => simp [hs]
  | tagSlash hs =>
    rw [hs] at hx
    simp [hx]
  | tagName hs hb' =>
    rw [hs] at hx
    simp [hx, hb', ctxTagcacheClear, ctxTagendcacheClear]
  | @cdataClose t hs =>
    have h3 : (3 : ℤ) ≤ t.length + 1 + 1 + 1 := by omega
    simp [hs, h3]
  | @cdataThree a b t hs hne =>
    have h3 : (3 : ℤ) ≤ t.length + 1 + 1 + 1 := by omega
    have hne' : ¬ (a = 93 ∧ b = 62) := by simpa using hne
    simp [hs, h3, hne']
  | @cdataHold t hs ht hcb =>
    have h3 : ¬ ((lit "]]>").length : ℤ) ≤ (rbracket :: t).length := by simp; omega
    simp only [hs]
    rw [bind_run (rposAt_zero_run _), if_pos rfl, bind_run (count_run _), if_neg h3,
      holdOr_run _ hc (by simp; omega) (by decide) hcb]
    simp [hs]
  | @cdataMiss t hs ht hcb =>
    have h3 : ¬ ((lit "]]>").length : ℤ) ≤ (rbracket :: t).length := by simp; omega
    simp only [hs]
    rw [bind_run (rposAt_zero_run _), if_pos rfl, bind_run (count_run _), if_neg h3,
      missOr_run _ hc (by simp; omega) (by decide) hcb]
    simp [hs]
  | cdataByte hs hb' => simp [hs, hb']
  | callTagname hs => exact absurd rfl (hn _)
  | callComment hs => exact absurd rfl (hn _)
  | tagSkip hs => simp [hs]
  | tagLeave hs =>
    rcases List.mem_pair.mp hs with hs | hs <;> simp [hs]
  | bangTag hs _ | bangComment hs | bangDash hs _ | bangHoldDash hs | bangCdata hs
  | bangNine hs _ _ | bangHoldCdata hs _ _ | bangAbort hs _ _ => exact absurd hs hb

def htmlCallee (fuel : ℕ) : Routine → MinifyM Stream Unit
  | .htmlStripTagname => loop .outOfFuel countNonzero (htmlStripTagnameTurn none) fuel
  | .htmlStripComment => loop .outOfFuel countNonzero htmlStripCommentTurn fuel
  | _ => loop .outOfFuel countNonzero (htmlStripTagTurn none fuel) fuel

theorem HtmlRule.tag_call_run {fuel : ℕ} {r : Routine} (h : HtmlRule x .htmlStripTag rest es y (.call r)) :
    (htmlStripTagTurn none fuel).run ⟨x, ⟨rest, out⟩, tr⟩ =
      (do htmlCallee fuel r; return false : MinifyM Stream Bool).run
        (Conf.turned ⟨x, ⟨rest, out⟩, tr⟩ .htmlStripTag es y) := by
  unfold htmlStripTagTurn htmlStripTagSwitch
  rw [bind_run (visit_run _), bind_run (ctxState_run _)]
  cases h with
  | callTagname hs =>
    simp only [List.mem_cons, List.not_mem_nil, or_false] at hs
    rcases hs with hs | hs | hs <;> simp only [hs, ngxMinifyHtmlStripTagname, bind_assoc] <;>
      exact bind_run (modifyCtx_run _ _)
  | callComment hs =>
    simp only [List.mem_cons, List.not_mem_nil, or_false] at hs
    rcases hs with hs | hs | hs <;> simp only [hs] <;> rfl

theorem HtmlRule.buffer_run {fuel : ℕ} (h : HtmlRule x .htmlStripBuffer rest es y nxt)
    (hx : x.state = htmlStack x.state.top) (hc : x.cache = []) (hn : ∀ r, nxt ≠ .call r) :
    (htmlStripBufferTurn none fuel).run ⟨x, ⟨rest, out⟩, tr⟩ =
      .ok (false, Routine.finish .htmlStripBuffer
        (Conf.turned ⟨x, ⟨rest, out⟩, tr⟩ .htmlStripBuffer es y)) := by
  unfold htmlStripBufferTurn htmlStripBufferSwitch Conf.turned Routine.finish Routine.refreshes
  cases h with
  | abortByte hs => simp [hs]
  | textBreak hs hb =>
    rcases hb with rfl | rfl | rfl <;> simp [hs, htmlStateText]
  | @textTag b t hs hb =>
    rw [hs] at hx
    have h2 : (2 : ℤ) ≤ t.length + 1 + 1 := by omega
    simp [hx, h2, hb, htmlStateText]
  | @textBang b t hs =>
    rw [hs] at hx
    have h2 : (2 : ℤ) ≤ t.length + 1 + 1 + 1 := by omega
    have h3 : (2 : ℤ) < t.length + 1 + 1 + 1 := by omega
    simp [hx, h2, h3, htmlStateText]
  | textHoldBang hs =>
    simp [hs, hc, cache_hold_run, cacheable, htmlStateText]
  | textHold hs =>
    simp [hs, hc, cache_hold_run, cacheable, htmlStateText]
  | textSpace hs hp => simp [hs, hp, htmlStateText]
  | textByte hs hb hp =>
    rcases hb with ⟨h1, h2, h3, h4⟩
    simp [hs, h1, h2, h3, h4, hp, htmlStateText]
  | @elementEnd t hs =>
    have h2 : (2 : ℤ) ≤ t.length + 1 + 1 := by omega
    simp [hs, h2, htmlStateSkip]
  | @elementPair b t hs hb =>
    have h2 : (2 : ℤ) ≤ t.length + 1 + 1 := by omega
    simp [hs, h2, hb, htmlStateSkip]
  | elementHold hs =>
    simp [hs, hc, cache_hold_run, cacheable, htmlStateSkip]
  | elementByte hs hb => simp [hs, hb, htmlStateSkip]
  | callTag hs => exact absurd rfl (hn _)

theorem HtmlRule.buffer_call_run {fuel : ℕ} {r : Routine}
    (h : HtmlRule x .htmlStripBuffer rest es y (.call r)) :
    (htmlStripBufferTurn none fuel).run ⟨x, ⟨rest, out⟩, tr⟩ =
      (do htmlCallee fuel r; refreshPre; return false : MinifyM Stream Bool).run
        (Conf.turned ⟨x, ⟨rest, out⟩, tr⟩ .htmlStripBuffer es y) := by
  unfold htmlStripBufferTurn htmlStripBufferSwitch
  rw [bind_run (visit_run _), bind_assoc, bind_run (ctxState_run _)]
  cases h with
  | callTag hs =>
    simp only [List.mem_cons, List.not_mem_nil, or_false] at hs
    rcases hs with hs | hs | hs | hs | hs | hs | hs | hs | hs <;> simp only [hs] <;> rfl

end Rules
end NginB.Minify
