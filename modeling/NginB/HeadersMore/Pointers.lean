import NginB.HeadersMore.Commands

/-! # Pointers that are not true

A field that does not point to a header yet gets a pointer to the last of the headers with its name; but
it is the first of them that has been set. From then on the field is set where it points to.
-/
namespace NginB.HeadersMore
open NginB.Minify (lit toLower strncasecmpEq)

section Loops
variable {υ : Type} {hv : HeaderVal υ} {value k : List UInt8} {i j : ℕ} {m : Bool} {e : TableElt}
  {es : List TableElt}

theorem loop_last (hout : (setHeaderLoop hv value i m es).2 = some j) :
    ∃ pre e post, es = pre ++ e :: post ∧ i + pre.length = j ∧ hv.hits e = true ∧
      (∀ e ∈ post, ¬ hv.hits e = true) ∧
      (setHeaderLoop hv value i m es).1 =
        (setHeaderLoop hv value i m pre).1 ++ hv.rewrite value (m || pre.any hv.hits) e :: post := by
  induction es generalizing i m with
  | nil => cases hout
  | cons e es ih =>
    by_cases h : hv.hits e = true
    · rw [loop_hit h] at hout
      cases hrest : (setHeaderLoop hv value (i + 1) true es).2 with
      | none =>
        obtain ⟨hsame, hmiss⟩ := loop_none hrest
        rw [hrest] at hout
        refine ⟨[], e, es, rfl, Option.some.inj hout, h, hmiss, ?_⟩
        rw [loop_hit h, hsame]
        simp [setHeaderLoop]
      | some j' =>
        rw [hrest] at hout
        obtain rfl : j' = j := Option.some.inj hout
        obtain ⟨pre, e', post, rfl, hlen, he', hmiss, hloop⟩ := ih hrest
        refine ⟨e :: pre, e', post, rfl, by rw [← hlen, List.length_cons]; omega, he', hmiss, ?_⟩
        rw [loop_hit h, loop_hit h, hloop]
        simp [h]
    · rw [loop_miss h] at hout
      obtain ⟨pre, e', post, rfl, hlen, he', hmiss, hloop⟩ := ih hout
      refine ⟨e :: pre, e', post, rfl, by rw [← hlen, List.length_cons]; omega, he', hmiss, ?_⟩
      rw [loop_miss h, loop_miss h, hloop]
      simp [Bool.eq_false_iff.mpr h]

end Loops

section Repeated
variable {υ : Type} {hv : HeaderVal υ} {b : Builtin} {r : HeadersOut} {v w : List UInt8}
  {ws : List (List UInt8)}

def setAll (hv : HeaderVal υ) (r : HeadersOut) (vs : List (List UInt8)) : HeadersOut :=
  vs.foldl (fun r v => (ngxHttpSetBuiltinHeader r hv v).2) r

/-- The field points to the header between `pre` and `post`. -/
structure PointsTo (r : HeadersOut) (b : Builtin) (pre : List TableElt) (e : TableElt)
    (post : List TableElt) : Prop where
  headers : r.headers = pre ++ e :: post
  builtin : r.builtin b = some pre.length
  name : e.name = b.name

theorem modify_at (pre post : List TableElt) (e : TableElt) (f : TableElt → TableElt) :
    (pre ++ e :: post).modify pre.length f = pre ++ f e :: post := by
  induction pre with
  | nil => rfl
  | cons a pre ih => rw [List.cons_append, List.length_cons, List.modify_succ_cons, ih, List.cons_append]

theorem PointsTo.set {pre post : List TableElt} {e : TableElt} (h : PointsTo r b pre e post)
    (hoff : hv.offset = some b) (hk : lower hv.key = b.name) (hhash : hv.hash ≠ 0) (w : List UInt8) :
    ∃ e', PointsTo (ngxHttpSetBuiltinHeader r hv w).2 b pre e' post ∧ e'.sent b.name = single w := by
  rw [ngxHttpSetBuiltinHeader, hoff]
  simp only [Option.bind_some, h.builtin, h.headers, modify_at]
  split
  · next hw => exact ⟨_, ⟨rfl, h.builtin, h.name⟩, sent_single h.name rfl (iff_of_true rfl hw)⟩
  · next hw => exact ⟨_, ⟨rfl, h.builtin, hk⟩, sent_single hk rfl (iff_of_false hhash hw)⟩

theorem PointsTo.setAll {pre post : List TableElt} {e : TableElt} (h : PointsTo r b pre e post)
    (hoff : hv.offset = some b) (hk : lower hv.key = b.name) (hhash : hv.hash ≠ 0) (ws : List (List UInt8))
    (w : List UInt8) : ∃ e', PointsTo (setAll hv r (ws ++ [w])) b pre e' post ∧ e'.sent b.name = single w := by
  induction ws generalizing r e with
  | nil => exact h.set hoff hk hhash w
  | cons v ws ih =>
    obtain ⟨e', h', -⟩ := h.set hoff hk hhash v
    exact ih h'

/-- What has been set in front of the pointer stays. -/
theorem PointsTo.fields {pre post : List TableElt} {e : TableElt} (h : PointsTo r b pre e post)
    (hoff : hv.offset = some b) (hk : lower hv.key = b.name) (hhash : hv.hash ≠ 0) (ws : List (List UInt8))
    (w : List UInt8) (hpost : ∀ e ∈ post, e.name ≠ b.name) :
    NginB.HeadersMore.fields (NginB.HeadersMore.setAll hv r (ws ++ [w])).headers b.name =
      NginB.HeadersMore.fields pre b.name ++ single w := by
  obtain ⟨e', h', hsent⟩ := h.setAll hoff hk hhash ws w
  rw [h'.headers, fields_append, fields_cons, hsent,
    fields_eq_nil fun e he hname => absurd hname (hpost e he), List.append_nil]

theorem single_append (v w : List UInt8) : single v ++ single w = single w ↔ v = [] := by
  rw [List.append_left_eq_self, single]
  split
  · next h => exact iff_of_true rfl h
  · next h => exact iff_of_false (by simp) h

theorem HeaderVal.Sound.field (h : hv.Sound) (hoff : hv.offset = some b) :
    lower hv.key = b.name ∧ hv.wildcard = false := by
  cases h.kind with
  | header ho => exact absurd (ho.symm.trans hoff) (Option.some_ne_none b).symm
  | field b' ho hk hw =>
    obtain rfl := Option.some.inj (ho.symm.trans hoff)
    exact ⟨hk, hw⟩
  | contentType ho => exact absurd (ho.symm.trans hoff) (Option.some_ne_none b).symm
  | multi ho => exact absurd (ho.symm.trans hoff) (Option.some_ne_none b).symm

theorem setOutput_self {i : ℕ} : (setOutput r (some b) i).builtin b = some i := Function.update_self ..

/-- The loop on the headers in front of the last one that is hit. -/
theorem loop_front (hv' : hv.Sound) (hw : hv.wildcard = false) (hk : lower hv.key = b.name)
    (pre : List TableElt) : fields (setHeaderLoop hv v 0 false pre).1 b.name =
      if pre.any hv.hits then single v else [] := by
  have hcov : hv.covers b.name := (covers_iff hw).mpr hk.symm
  cases hout : (setHeaderLoop hv v 0 false pre).2 with
  | none =>
    obtain ⟨hsame, hmiss⟩ := loop_none hout
    rw [hsame, if_neg (by simpa using hmiss)]
    refine fields_eq_nil fun e he hname => absurd ((hits_iff hv'.key).mpr ?_) (hmiss e he)
    rw [hname]
    exact hcov
  | some i =>
    obtain ⟨-, e, hget, he⟩ := loop_some hout
    have hany : pre.any hv.hits = true := List.any_eq_true.mpr ⟨e, List.mem_of_getElem? hget, he⟩
    rw [if_pos hany]
    by_cases hv0 : v = []
    · rw [loop_deleted hv'.key (.inl hv0), if_pos hcov, single, if_pos hv0]
    · rw [loop_set hv'.key hv'.hash hw hv0 (by rw [hout]; exact Option.some_ne_none i), if_pos hcov, single,
        if_neg hv0]

/-- A field that does not point to a header is set to `v` and then to other values, the last of them
`w`: only `w` is sent just when there has been one header with its name at most, or `v` is empty. -/
theorem set_again_iff (hv' : hv.Sound) (hoff : hv.offset = some b) (hb : r.builtin b = none)
    (hpool : r.pool = []) :
    fields (setAll hv r (v :: (ws ++ [w]))).headers b.name = single w ↔
      r.names.count b.name ≤ 1 ∨ v = [] := by
  obtain ⟨hk, hw⟩ := hv'.field hoff
  have hhits : ∀ e, hv.hits e = true ↔ e.name = b.name := by
    intro e
    rw [hits_iff hv'.key, covers_iff hw, hk]
  have hfirst : ngxHttpSetBuiltinHeader r hv v = ngxHttpSetHeaderHelper r hv v (some b) false := by
    rw [ngxHttpSetBuiltinHeader, hoff, Option.bind_some, hb]
  have hall : setAll hv r (v :: (ws ++ [w])) =
      setAll hv (ngxHttpSetHeaderHelper r hv v (some b) false).2 (ws ++ [w]) := by
    rw [← hfirst]
    rfl
  have hcount : ∀ hs : List TableElt, (hs.map TableElt.name).count b.name = 0 ↔ ∀ e ∈ hs, e.name ≠ b.name := by
    intro hs
    simp [List.count_eq_zero]
  have hhelped := helped r hv v (some b) false
  rw [hall]
  generalize ngxHttpSetHeaderHelper r hv v (some b) false = out at hhelped ⊢
  cases hhelped with
  | @found i hout =>
    obtain ⟨pre, e, post, hhs, rfl, he, hmiss, hloop⟩ := loop_last hout
    have hpost : ∀ e ∈ post, e.name ≠ b.name := fun e he' hname => hmiss e he' ((hhits e).mpr hname)
    have hlen : (setHeaderLoop hv v 0 false pre).1.length = pre.length := by
      simpa using congrArg List.length (loop_names hv v 0 false pre)
    have hpoints : PointsTo (setOutput { r with headers := (setHeaderLoop hv v 0 false r.headers).1 } (some b)
        (0 + pre.length)) b (setHeaderLoop hv v 0 false pre).1 (hv.rewrite v (false || pre.any hv.hits) e) post := by
      refine ⟨hloop, ?_, rewrite_name.trans ((hhits e).mp he)⟩
      rw [setOutput_self, hlen, Nat.zero_add]
    rw [hpoints.fields hoff hk hv'.hash ws w hpost, loop_front hv' hw hk]
    have hnames : r.names.count b.name = (pre.map TableElt.name).count b.name + 1 := by
      rw [HeadersOut.names, hhs, List.map_append, List.map_cons, List.count_append, (hhits e).mp he,
        List.count_cons_self, (hcount post).mpr hpost, Nat.zero_add]
    have hle : r.names.count b.name ≤ 1 ↔ ¬ pre.any hv.hits = true := by
      have hzero : (pre.map TableElt.name).count b.name + 1 ≤ 1 ↔
          (pre.map TableElt.name).count b.name = 0 := by omega
      rw [hnames, hzero, hcount]
      simp [hhits]
    rw [hle]
    by_cases hany : pre.any hv.hits = true
    · rw [if_pos hany, single_append]
      exact (or_iff_right (not_not_intro hany)).symm
    · rw [if_neg hany, List.nil_append]
      exact iff_of_true rfl (.inl hany)
  | nothing hout hvalue hkeep => exact absurd hkeep (by simp [hw])
  | unpushed hout hp => exact absurd hpool hp
  | nameless hout hp => exact absurd hpool hp
  | @pushed pool low hout hp =>
    obtain ⟨-, hmiss⟩ := loop_none hout
    have hnone : ∀ e ∈ r.headers, e.name ≠ b.name := fun e he hname => hmiss e he ((hhits e).mpr hname)
    have hpoints : PointsTo (setOutput { r with
        pool := pool, headers := r.headers ++ [{ hv.pushed v with lowcaseKey := low }] } (some b)
        r.headers.length) b r.headers { hv.pushed v with lowcaseKey := low } [] :=
      ⟨rfl, setOutput_self, hk⟩
    have hzero : r.names.count b.name = 0 := (hcount r.headers).mpr hnone
    rw [hpoints.fields hoff hk hv'.hash ws w (fun e he => absurd he List.not_mem_nil),
      fields_eq_nil fun e he hname => absurd hname (hnone e he), List.nil_append, hzero]
    exact iff_of_true rfl (.inl (Nat.zero_le 1))

end Repeated

/-- A response with two servers: one of them is sent with the first value, the other one with the last. -/
theorem set_again_iff_twoServers :
    fields (setAll serverVal (.of [⟨1, lit "Server", lit "nginx", none⟩, ⟨1, lit "Server", lit "nginx", none⟩])
      [lit "a", lit "b"]).headers (lit "server") ≠ single (lit "b") := by
  refine mt (@set_again_iff _ serverVal .server _ (lit "a") (lit "b") [] serverVal_sound rfl rfl rfl).mp ?_
  decide

end NginB.HeadersMore
