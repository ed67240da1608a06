import NginB.HeadersMore.Directives
import NginB.HeadersMore.HeadersIn

/-! # Clearing headers of a request

All headers with a name are taken out, but where the first part has no others: with the last header of
the first part the search ends.
-/
namespace NginB.HeadersMore
open NginB.Minify (lit)

section Walk
variable {hit : ℕ → Bool} {isFirst : Bool} {k : ℕ} {parts : List Part}

inductive Walked (hit : ℕ → Bool) (k : ℕ) (parts : List Part) : Option (ℕ × ℕ) → Prop
  | found {pre cur post i} (hparts : parts = pre ++ cur :: post) (hi : i < cur.nelts)
      (hhit : hit (cur.elts + i) = true)
      (hmiss : ∀ a ∈ pre.flatMap Part.addrs ++ (cur.front i).addrs, hit a = false) :
      Walked hit k parts (some (k + pre.length, i))
  | nothing (hmiss : ∀ a ∈ parts.flatMap Part.addrs, hit a = false) : Walked hit k parts none

/-- The search goes through all headers, if there is no part without one behind the first. -/
theorem walked (hfull : ∀ p ∈ parts, isFirst = false → 0 < p.nelts) (hrest : ∀ p ∈ parts.tail, 0 < p.nelts) :
    Walked hit k parts (walkParts hit isFirst k parts) := by
  induction parts generalizing isFirst k with
  | nil => exact .nothing fun a ha => absurd ha List.not_mem_nil
  | cons p ps ih =>
    have hcount : (if isFirst then p.nelts else max 1 p.nelts) = p.nelts := by
      cases isFirst with
      | true => rfl
      | false =>
        have hpos := hfull p List.mem_cons_self rfl
        rw [if_neg Bool.false_ne_true]
        omega
    rw [walkParts, hcount]
    cases hfind : (List.range p.nelts).find? fun i => hit (p.elts + i) with
    | some i =>
      obtain ⟨hhit, hi, hmiss⟩ := List.find?_range_eq_some.mp hfind
      refine @Walked.found hit k (p :: ps) [] p ps i rfl (List.mem_range.mp hi) hhit fun a ha => ?_
      obtain ⟨j, hj, rfl⟩ := mem_addrs.mp ha
      simpa [Part.front] using hmiss j hj
    | none =>
      have hmiss : ∀ a ∈ p.addrs, hit a = false := by
        intro a ha
        obtain ⟨j, hj, rfl⟩ := mem_addrs.mp ha
        simpa using List.find?_range_eq_none.mp hfind j hj
      have hwalked := @ih false (k + 1) (fun q hq _ => hrest q hq)
        fun q hq => hrest q (List.mem_of_mem_tail hq)
      generalize walkParts hit false (k + 1) ps = out at hwalked
      cases hwalked with
      | @found pre cur post i hparts hi hhit hfront =>
        have hk : k + 1 + pre.length = k + (p :: pre).length := by
          rw [List.length_cons]
          omega
        rw [hk]
        refine @Walked.found hit k (p :: ps) (p :: pre) cur post i (by rw [hparts, List.cons_append]) hi hhit fun a ha => ?_
        rw [List.flatMap_cons, List.append_assoc] at ha
        exact (List.mem_append.mp ha).elim (hmiss a) (hfront a)
      | nothing hrest =>
        refine .nothing fun a ha => ?_
        rw [List.flatMap_cons] at ha
        exact (List.mem_append.mp ha).elim (hmiss a) (hrest a)

end Walk

def HeaderList.Tailed (l : HeaderList) : Prop := ∀ p ∈ l.parts.tail, 0 < p.nelts

/-- The first part has headers, and only such that are to be taken out. -/
def HeaderList.Stuck (l : HeaderList) (hit : ℕ → Bool) : Prop := l.first ≠ [] ∧ ∀ a ∈ l.first, hit a = true

section Step
variable {hit : ℕ → Bool} {l : HeaderList} {pre post : List Part} {cur : Part} {i : ℕ} {out : Rc × HeaderList}

/-- A removal that is no error, after which the search starts again. -/
structure Again (hit : ℕ → Bool) (l l' : HeaderList) : Prop where
  tailed : l'.Tailed
  filter : l'.addrs.filter (fun a => !hit a) = l.addrs.filter fun a => !hit a
  length : l'.addrs.length + 1 = l.addrs.length
  stuck : l'.Stuck hit ↔ l.Stuck hit
  others : l.Stuck hit → l'.others = l.others
  head : ∀ a, l.first.head? = some a → hit a = false → l'.first.head? = some a

/-- The parts that stand for the one that has lost a header. -/
theorem Removal.parts (h : Removal l pre cur post i out) (hout : out.1 = .ok) : ∃ mid,
    out.2.parts = pre ++ (mid ++ post) ∧ (∀ p ∈ mid, 0 < p.nelts) ∧
      (pre = [] → i = 0 ∧ mid = [cur.behind 0] ∨ 0 < i ∧ ∃ rest, mid = cur.front i :: rest) := by
  cases h with
  | sole => cases hout
  | unlinked hi hn hpre =>
    refine ⟨[], rfl, fun p hp => absurd hp List.not_mem_nil, fun hnil => ?_⟩
    rw [hnil] at hpre
    exact absurd hpre.symm (by simp)
  | first hi hn =>
    refine ⟨[cur.behind 0], rfl, List.forall_mem_singleton.mpr ?_, fun _ => .inl ⟨hi, rfl⟩⟩
    simp only [Part.behind]
    omega
  | last hi hn => exact ⟨[cur.front i], rfl, List.forall_mem_singleton.mpr hi, fun _ => .inr ⟨hi, [], rfl⟩⟩
  | split hi hn =>
    refine ⟨[cur.front i, cur.behind i], rfl, List.forall_mem_cons.mpr ⟨hi, List.forall_mem_singleton.mpr ?_⟩,
      fun _ => .inr ⟨hi, _, rfl⟩⟩
    simp only [Part.behind]
    omega

theorem Removal.again (h : Removal l pre cur post i out) (hparts : l.parts = pre ++ cur :: post)
    (hi : i < cur.nelts) (hhit : hit (cur.elts + i) = true)
    (hmiss : ∀ a ∈ pre.flatMap Part.addrs ++ (cur.front i).addrs, hit a = false)
    (hl : l.Tailed) (hout : out.1 = .ok) : Again hit l out.2 := by
  have hfilter : out.2.addrs.filter (fun a => !hit a) = l.addrs.filter fun a => !hit a := by
    rw [h.addrs, addrs_at hparts hi]
    simp [hhit]
  have hlength : out.2.addrs.length + 1 = l.addrs.length := by
    rw [h.addrs, addrs_at hparts hi]
    simp only [List.length_append, List.length_cons]
    omega
  obtain ⟨mid, hmid, hpos, hfirst⟩ := h.parts hout
  obtain ⟨parts, n⟩ := l
  obtain ⟨rc, parts', n'⟩ := out
  dsimp only at hparts hmid
  subst hparts hmid
  cases pre with
  | nil =>
    have hcur : (HeaderList.mk ([] ++ cur :: post) n).first = cur.addrs := first_cons
    have hsplit := addrs_split hi
    rcases hfirst rfl with ⟨rfl, rfl⟩ | ⟨hi0, rest, rfl⟩
    · -- the first part still has headers
      have hnew : (HeaderList.mk ([] ++ ([cur.behind 0] ++ post)) n').first = (cur.behind 0).addrs := first_cons
      rw [front_zero, List.nil_append] at hsplit
      have hne : (cur.behind 0).addrs ≠ [] := by
        have hb := hpos _ (List.mem_singleton_self _)
        exact List.ne_nil_of_mem (mem_addrs.mpr ⟨0, hb, rfl⟩)
      refine ⟨hl, hfilter, hlength, ?_, fun _ => rfl, fun a ha hmiss => ?_⟩
      · rw [HeaderList.Stuck, HeaderList.Stuck, hcur, hnew, hsplit, List.forall_mem_cons]
        exact ⟨fun h => ⟨List.cons_ne_nil _ _, hhit, h.2⟩, fun h => ⟨hne, h.2.2⟩⟩
      · rw [hcur, hsplit, List.head?_cons, Option.some.injEq] at ha
        rw [← ha, hhit] at hmiss
        cases hmiss
    · -- the first part begins with headers that are not hit
      have hnew : (HeaderList.mk ([] ++ (cur.front i :: rest ++ post)) n').first = (cur.front i).addrs := first_cons
      have hmem : cur.elts ∈ (cur.front i).addrs := mem_addrs.mpr ⟨0, hi0, rfl⟩
      have hfree : hit cur.elts = false := hmiss _ hmem
      have hne : (cur.front i).addrs ≠ [] := List.ne_nil_of_mem hmem
      refine ⟨fun p hp => ?_, hfilter, hlength, ?_, fun hstuck => ?_, fun a ha _ => ?_⟩
      · rcases List.mem_append.mp hp with hp | hp
        · exact hpos p (List.mem_cons_of_mem _ hp)
        · exact hl p hp
      · refine iff_of_false (fun hs => ?_) fun hs => ?_
        · rw [HeaderList.Stuck, hnew] at hs
          exact Bool.false_ne_true (hfree.symm.trans (hs.2 _ hmem))
        · rw [HeaderList.Stuck, hcur, hsplit] at hs
          exact Bool.false_ne_true (hfree.symm.trans (hs.2 _ (List.mem_append_left _ hmem)))
      · rw [HeaderList.Stuck, hcur, hsplit] at hstuck
        exact absurd (hfree.symm.trans (hstuck.2 _ (List.mem_append_left _ hmem))) Bool.false_ne_true
      · rw [hcur, hsplit, List.head?_append_of_ne_nil _ hne] at ha
        rw [hnew, ha]
  | cons q pre =>
    have hold : (HeaderList.mk (q :: pre ++ cur :: post) n).first = q.addrs := first_cons
    have hnew : (HeaderList.mk (q :: pre ++ (mid ++ post)) n').first = q.addrs := first_cons
    refine ⟨fun p hp => ?_, hfilter, hlength, ?_, fun hstuck => ?_, fun a ha _ => ?_⟩
    · have htail : ∀ p ∈ pre ++ cur :: post, 0 < p.nelts := hl
      have hp : p ∈ pre ++ (mid ++ post) := hp
      rw [List.forall_mem_append, List.forall_mem_cons] at htail
      rcases List.mem_append.mp hp with hp | hp
      · exact htail.1 p hp
      · exact (List.mem_append.mp hp).elim (hpos p) (htail.2.2 p)
    · rw [HeaderList.Stuck, HeaderList.Stuck, hold, hnew]
    · rw [HeaderList.Stuck, hold] at hstuck
      obtain ⟨a, ha⟩ := List.exists_mem_of_ne_nil _ hstuck.1
      have hfree := hmiss a (by simp [ha])
      exact absurd (hfree.symm.trans (hstuck.2 a ha)) Bool.false_ne_true
    · rw [hold] at ha
      rw [hnew, ha]

end Step

section Cleared
variable {υ : Type} {listPush : HeadersIn → Option ℕ × HeadersIn} {hv : InputVal υ} {o : Option BuiltinIn}
  {r r' r'' : HeadersIn} {fuel : ℕ}

def HeadersIn.hit (r : HeadersIn) (hv : InputVal υ) (a : ℕ) : Bool := hv.hits (r.mem a)

structure Cleared (hv : InputVal υ) (r r' : HeadersIn) : Prop where
  tailed : r'.list.Tailed
  pool : r'.pool = []
  keys : ∀ a, (r'.mem a).key = (r.mem a).key
  stuck : r.list.Stuck (r.hit hv) → r'.list.addrs = r.list.others
  free : ¬ r.list.Stuck (r.hit hv) → r'.list.addrs = r.list.addrs.filter fun a => !r.hit hv a
  head : ∀ a, r.list.first.head? = some a → r.hit hv a = false → r'.list.first.head? = some a

theorem hit_congr (h : ∀ a, (r'.mem a).key = (r.mem a).key) : r'.hit hv = r.hit hv := by
  funext a
  rw [HeadersIn.hit, HeadersIn.hit, InputVal.hits, InputVal.hits, h]

theorem update_key {a : ℕ} {f : TableElt → TableElt} (hf : ∀ e, (f e).key = e.key) (b : ℕ) :
    ((r.update a f).mem b).key = (r.mem b).key := by
  have hmem : (r.update a f).mem = Function.update r.mem a (f (r.mem a)) := rfl
  rw [hmem]
  by_cases h : b = a
  · subst h
    rw [Function.update_self, hf]
  · rw [Function.update_of_ne h]

theorem removed_key {a : ℕ} {l : HeaderList} (b : ℕ) : ((r.removed a l).mem b).key = (r.mem b).key :=
  update_key (f := fun h => { h with hash := 0 }) (fun _ => rfl) b

theorem output_same (r : HeadersIn) (o : Option BuiltinIn) (a : Option ℕ) : (r.output o a).mem = r.mem ∧
    (r.output o a).list = r.list ∧ (r.output o a).pool = r.pool := by
  cases o <;> exact ⟨rfl, rfl, rfl⟩

theorem Again.cleared {r₁ : HeadersIn} (h : Again (r.hit hv) r.list r₁.list)
    (hkeys : ∀ a, (r₁.mem a).key = (r.mem a).key) (hr : Cleared hv r₁ r') : Cleared hv r r' := by
  have hhit : r₁.hit hv = r.hit hv := hit_congr hkeys
  refine ⟨hr.tailed, hr.pool, fun a => (hr.keys a).trans (hkeys a), fun hstuck => ?_, fun hfree => ?_,
    fun a ha hmiss => ?_⟩
  · rw [hr.stuck (by rw [hhit]; exact h.stuck.mpr hstuck), h.others hstuck]
  · rw [hr.free (by rw [hhit]; exact fun hs => hfree (h.stuck.mp hs)), hhit, h.filter]
  · exact hr.head a (h.head a ha hmiss) (by rw [hhit]; exact hmiss)

/-- The only header of the first part is not found again, but it is the last one that is looked for. -/
theorem cleared_sole {a n : ℕ} {cur : Part} {post : List Part} {f : TableElt → TableElt}
    (hparts : r.list.parts = [] ++ cur :: post) (hn : cur.nelts = 1) (hhit : r.hit hv (cur.elts + 0) = true)
    (hl : r.list.Tailed) (hpool : r.pool = []) (hf : ∀ e, (f e).key = e.key) :
    Cleared hv r (((r.removed a ⟨cur.behind 0 :: post, n⟩).update a f).output o (some a)) := by
  obtain ⟨hmem, hlist, hp⟩ := output_same ((r.removed a ⟨cur.behind 0 :: post, n⟩).update a f) o (some a)
  have hlist : (((r.removed a ⟨cur.behind 0 :: post, n⟩).update a f).output o (some a)).list =
      ⟨cur.behind 0 :: post, n⟩ := hlist
  have hfirst : r.list.first = [cur.elts] := by
    rw [HeaderList.first, hparts, List.nil_append, List.take_succ_cons, List.take_zero, List.flatMap_singleton,
      Part.addrs, hn]
    rfl
  have hothers : r.list.others = post.flatMap Part.addrs := by
    rw [HeaderList.others, hparts]
    rfl
  have hstuck : r.list.Stuck (r.hit hv) := by
    rw [HeaderList.Stuck, hfirst, List.forall_mem_singleton]
    exact ⟨List.cons_ne_nil _ _, hhit⟩
  refine ⟨?_, ?_, fun b => ?_, fun _ => ?_, fun hfree => absurd hstuck hfree, fun b hb hmiss => ?_⟩
  · rw [hlist]
    rw [HeaderList.Tailed, hparts] at hl
    exact hl
  · rw [hp, HeadersIn.update, HeadersIn.removed, hpool]
    rfl
  · rw [hmem, update_key hf, removed_key]
  · rw [hlist, hothers, HeaderList.addrs, List.flatMap_cons, behind_last hn, List.nil_append]
  · rw [hfirst, List.head?_cons, Option.some.injEq] at hb
    rw [← hb] at hmiss
    exact absurd (hmiss.symm.trans hhit) Bool.false_ne_true

/-- The search goes on until nothing is found, or the first part has lost its last header. -/
theorem cleared (hl : r.list.Tailed) (hpool : r.pool = []) (hfuel : r.list.addrs.length < fuel) :
    ∃ r', ngxHttpSetInputHeaderHelper listPush r hv [] o fuel = some (.ok, r') ∧ Cleared hv r r' := by
  induction fuel generalizing r with
  | zero => exact absurd hfuel (Nat.not_lt_zero _)
  | succ fuel ih =>
    have hwalk : Walked (r.hit hv) 0 r.list.parts
        (walkParts (fun a => hv.hits (r.mem a)) true 0 r.list.parts) :=
      walked (fun p _ h => absurd h (by decide)) hl
    rw [ngxHttpSetInputHeaderHelper]
    generalize walkParts (fun a => hv.hits (r.mem a)) true 0 r.list.parts = out at hwalk
    cases hwalk with
    | nothing hmiss =>
      refine ⟨r, if_pos (.inl rfl), hl, hpool, fun _ => rfl, fun hstuck => ?_, fun _ => ?_, fun a ha _ => ha⟩
      · obtain ⟨a, ha⟩ := List.exists_mem_of_ne_nil _ hstuck.1
        have hmem : a ∈ r.list.addrs := addrs_eq r.list ▸ List.mem_append_left _ ha
        exact absurd ((hmiss a hmem).symm.trans (hstuck.2 a ha)) Bool.false_ne_true
      · refine (List.filter_eq_self.mpr fun a ha => ?_).symm
        rw [hmiss a ha]
        rfl
    | @found pre cur post i hparts hi hhit hmiss =>
      have hremoval := removal hparts hi
      have hhead : r.pool.headD true = true := by rw [hpool]; rfl
      simp only [hhead, Nat.zero_add, if_true]
      generalize ngxHttpHeadersMoreRmHeaderHelper true r.list pre.length i = out at hremoval
      by_cases hok : out.1 = .ok
      · have hagain := hremoval.again hparts hi hhit hmiss hl hok
        rw [if_pos hok]
        generalize hr₁ : r.removed (r.list.address pre.length i) out.2 = r₁
        obtain ⟨hmem, hlist, hp⟩ := output_same r₁ o none
        have hlist : (r₁.output o none).list = out.2 := by rw [hlist, ← hr₁]; rfl
        have hp : (r₁.output o none).pool = [] := by rw [hp, ← hr₁, HeadersIn.removed, hpool]; rfl
        have hkeys : ∀ a, ((r₁.output o none).mem a).key = (r.mem a).key := by
          intro a
          rw [hmem, ← hr₁, removed_key]
        rw [← hlist] at hagain
        have hlength := hagain.length
        obtain ⟨r', hr', hcleared⟩ := ih hagain.tailed hp (by omega)
        exact ⟨r', hr', hagain.cleared hkeys hcleared⟩
      · rw [if_neg hok]
        refine ⟨_, rfl, ?_⟩
        generalize r.list.address pre.length i = a
        cases hremoval with
        | sole hi0 hn hpre =>
          subst hi0 hpre
          exact cleared_sole hparts hn hhit hl hpool fun _ => rfl
        | unlinked | first | last | split => exact absurd rfl hok

/-- Clearing a header leaves just the others, unless the first part has only headers with that name and
there are more of them behind it. -/
theorem clear_iff (hl : r.list.Tailed) (hpool : r.pool = []) (hfuel : r.list.addrs.length < fuel) :
    ∃ r', ngxHttpSetInputHeaderHelper listPush r hv [] o fuel = some (.ok, r') ∧
      (r'.list.addrs = r.list.addrs.filter (fun a => !r.hit hv a) ↔
        ¬ (r.list.Stuck (r.hit hv) ∧ ∃ a ∈ r.list.others, r.hit hv a = true)) := by
  obtain ⟨r', hr', hcleared⟩ : ∃ r', ngxHttpSetInputHeaderHelper listPush r hv [] o fuel = some (.ok, r') ∧
      Cleared hv r r' := cleared hl hpool hfuel
  refine ⟨r', hr', ?_⟩
  by_cases hstuck : r.list.Stuck (r.hit hv)
  · have hfirst : r.list.first.filter (fun a => !r.hit hv a) = [] := by
      refine List.filter_eq_nil_iff.mpr fun a ha => ?_
      simp [hstuck.2 a ha]
    rw [hcleared.stuck hstuck, addrs_eq r.list, List.filter_append, hfirst, List.nil_append, eq_comm,
      List.filter_eq_self]
    simp [hstuck]
  · exact iff_of_true (hcleared.free hstuck) fun h => hstuck h.1

end Cleared

section Command
variable {υ : Type} {listPush : HeadersIn → Option ℕ × HeadersIn} {atosz : List UInt8 → Option ℕ}
  {eval : HeadersIn → υ → Option (List UInt8)} {hv : InputVal υ} {hvs : List (InputVal υ)}
  {r : HeadersIn} {fuel a : ℕ}

/-- All handlers clear a header in the same way. -/
theorem handleInput_clear (r : HeadersIn) (hv : InputVal υ) : ∃ r₁ o,
    handleInput listPush atosz fuel r hv [] = ngxHttpSetInputHeaderHelper listPush r₁ hv [] o fuel ∧
      r₁.list = r.list ∧ r₁.pool = r.pool ∧ ∀ a, (r₁.mem a).key = (r.mem a).key := by
  have hbuiltin : ∀ r₀ : HeadersIn, ∃ r₁ o, ngxHttpSetBuiltinInputHeader listPush fuel r₀ hv [] =
      ngxHttpSetInputHeaderHelper listPush r₁ hv [] o fuel ∧
      r₁.list = r₀.list ∧ r₁.pool = r₀.pool ∧ ∀ a, (r₁.mem a).key = (r₀.mem a).key := by
    intro r₀
    rw [ngxHttpSetBuiltinInputHeader]
    cases hv.offset.bind r₀.builtin with
    | none => exact ⟨r₀, hv.offset, rfl, rfl, rfl, fun _ => rfl⟩
    | some a =>
      exact ⟨r₀.update a fun h => { h with hash := 0, value := [] }, hv.offset, rfl, rfl, rfl, update_key fun _ => rfl⟩
  rw [handleInput]
  cases hv.handler with
  | header => exact ⟨r, none, rfl, rfl, rfl, fun _ => rfl⟩
  | builtin => exact hbuiltin r
  | host => exact hbuiltin { r with server := [] }
  | contentLength => exact hbuiltin { r with contentLengthN := -1 }

theorem execInputLoop_clears (hvalue : ∀ hv ∈ hvs, ∀ r, ∃ value, eval r hv.value = some value ∧ value.dropLast = [])
    (hl : r.list.Tailed) (hpool : r.pool = []) (hfuel : r.list.addrs.length < fuel)
    (hhead : r.list.first.head? = some a) (hfree : ∀ hv ∈ hvs, r.hit hv a = false) :
    ∃ r', execInputLoop listPush atosz eval fuel r hvs = some (.ok, r') ∧
      r'.list.addrs = r.list.addrs.filter fun a => !hvs.any fun hv => r.hit hv a := by
  induction hvs generalizing r with
  | nil => exact ⟨r, rfl, by simp⟩
  | cons hv hvs ih =>
    rw [List.forall_mem_cons] at hvalue hfree
    obtain ⟨value, heval, hnil⟩ := hvalue.1 r
    obtain ⟨r₁, o, hhandle, hlist, hp, hkeys⟩ : ∃ r₁ o, handleInput listPush atosz fuel r hv [] =
        ngxHttpSetInputHeaderHelper listPush r₁ hv [] o fuel ∧
        r₁.list = r.list ∧ r₁.pool = r.pool ∧ ∀ a, (r₁.mem a).key = (r.mem a).key := handleInput_clear r hv
    rw [← hlist] at hl hfuel hhead
    obtain ⟨r₂, hr₂, hcleared⟩ : ∃ r₂, ngxHttpSetInputHeaderHelper listPush r₁ hv [] o fuel = some (.ok, r₂) ∧
        Cleared hv r₁ r₂ := cleared hl (hp.trans hpool) hfuel
    have hmiss : r₁.hit hv a = false := by rw [hit_congr hkeys, hfree.1]
    have hstuck : ¬ r₁.list.Stuck (r₁.hit hv) := by
      intro hs
      have hmem := List.mem_of_head? hhead
      exact Bool.false_ne_true (hmiss.symm.trans (hs.2 a hmem))
    have haddrs : r₂.list.addrs = r.list.addrs.filter fun a => !r.hit hv a := by
      rw [hcleared.free hstuck, hlist, hit_congr hkeys]
    have hkeys₂ : ∀ a, (r₂.mem a).key = (r.mem a).key := fun a => (hcleared.keys a).trans (hkeys a)
    have hlen : r₂.list.addrs.length ≤ r.list.addrs.length := by
      rw [haddrs]
      exact List.length_filter_le _ _
    rw [hlist] at hfuel
    obtain ⟨r', hr', hrest⟩ := ih hvalue.2 hcleared.tailed hcleared.pool (Nat.lt_of_le_of_lt hlen hfuel)
      (hcleared.head a hhead hmiss) fun hv' hmem => by rw [hit_congr hkeys₂]; exact hfree.2 hv' hmem
    refine ⟨r', ?_, ?_⟩
    · rw [execInputLoop, heval]
      simp only [hnil, hhandle, hr₂, if_true]
      exact hr'
    · rw [hrest, haddrs, List.filter_filter]
      refine List.filter_congr fun b _ => ?_
      have hany : (hvs.any fun hv' => r₂.hit hv' b) = hvs.any fun hv' => r.hit hv' b := by
        simp only [hit_congr hkeys₂]
      rw [hany, List.any_cons, Bool.not_or, Bool.and_comm]

variable {compile : List UInt8 → Option υ} {zero : υ} {hashKeyLc : List UInt8 → ℕ} {args : List (List UInt8)}
  {cmd : InputCmd υ}

theorem getD_orNull {α : Type} (l : List α) : (orNull l).getD [] = l := by
  rw [orNull]
  split
  · next h => rw [List.length_eq_zero_iff.mp h]; rfl
  · rfl

/-- The header values of a directive are made of its arguments. -/
theorem input_headers {opcode : Opcode}
    (hcmd : ngxHttpHeadersMoreParseInputDirective compile zero hashKeyLc opcode args = .ok cmd) :
    ∀ hv ∈ cmd.headers.getD [], ∃ raw ∈ args, ∃ h replace,
      Stored compile zero hashKeyLc opcode raw h ∧ hv = h.inputVal replace := by
  rw [ngxHttpHeadersMoreParseInputDirective] at hcmd
  split at hcmd
  · cases hcmd
  · next a ha =>
    cases hcmd
    obtain ⟨items, hreads, ⟨hs, hall, hh⟩, -⟩ := (argLoop_iff false).mp ha
    rw [if_neg Bool.false_ne_true] at hreads
    have hraws : ∀ raw ∈ items.filterMap Item.raw, raw ∈ args := by
      intro raw hmem
      obtain ⟨item, hitem, hraw⟩ := List.mem_filterMap.mp hmem
      cases item with
      | header raw' =>
        obtain rfl := Option.some.inj hraw
        exact hreads.header_mem hitem
      | types | statuses | replace => cases hraw
    have hstored : ∀ {raws hs}, List.Forall₂ (fun raw h =>
        ngxHttpHeadersMoreParseHeader compile zero hashKeyLc raw opcode = .ok h) raws hs →
        ∀ h ∈ hs, ∃ raw ∈ raws, Stored compile zero hashKeyLc opcode raw h := by
      intro raws hs hall
      induction hall with
      | nil => exact fun h hmem => absurd hmem List.not_mem_nil
      | cons hone _ ih =>
        refine List.forall_mem_cons.mpr ⟨⟨_, List.mem_cons_self, parseHeader_iff.mp hone⟩, fun h hmem => ?_⟩
        obtain ⟨raw, hraw, hst⟩ := ih h hmem
        exact ⟨raw, List.mem_cons_of_mem _ hraw, hst⟩
    intro hv hmem
    rw [getD_orNull, hh, List.nil_append] at hmem
    obtain ⟨h, hh', rfl⟩ := List.mem_map.mp hmem
    obtain ⟨raw, hraw, hst⟩ := hstored hall h hh'
    exact ⟨raw, hraws raw hraw, h, _, hst, rfl⟩

/-- What is compiled into a directive that clears has no bytes. -/
theorem clear_values (hcmd : ngxHttpHeadersMoreClearInputHeaders compile zero hashKeyLc args = .ok cmd) :
    ∀ hv ∈ cmd.headers.getD [], hv.value = zero := by
  intro hv hmem
  obtain ⟨raw, -, h, replace, hst, rfl⟩ := input_headers hcmd hv hmem
  exact (iff_of_eq (if_pos (.inl rfl))).mp hst.value

/-- A directive that clears headers of a request, where its types admit the request, takes out just the
headers with its names, if the first header of the request has none of them. -/
theorem clear_input_headers
    (hcmd : ngxHttpHeadersMoreClearInputHeaders compile zero hashKeyLc args = .ok cmd)
    (hzero : ∀ r, eval r zero = some []) (hl : r.list.Tailed) (hpool : r.pool = [])
    (hfuel : r.list.addrs.length < fuel) (hhead : r.list.first.head? = some a)
    (hfree : ∀ hv ∈ cmd.headers.getD [], r.hit hv a = false) :
    ∃ r', ngxHttpHeadersMoreExecInputCmd listPush atosz eval fuel r cmd = some (.ok, r') ∧
      r'.list.addrs = if (cmd.types.map (ngxHttpHeadersMoreCheckInputType r)).getD true then
        r.list.addrs.filter (fun a => !(cmd.headers.getD []).any fun hv => r.hit hv a) else r.list.addrs := by
  have hvalues := clear_values hcmd
  rw [ngxHttpHeadersMoreExecInputCmd]
  cases hheaders : cmd.headers with
  | none => exact ⟨r, rfl, by simp⟩
  | some hvs =>
    rw [hheaders] at hvalues hfree
    cases htypes : (cmd.types.map (ngxHttpHeadersMoreCheckInputType r)).getD true with
    | false => exact ⟨r, by simp, by simp⟩
    | true =>
      obtain ⟨r', hr', haddrs⟩ : ∃ r', execInputLoop listPush atosz eval fuel r hvs = some (.ok, r') ∧
          r'.list.addrs = r.list.addrs.filter fun a => !hvs.any fun hv => r.hit hv a := by
        refine execInputLoop_clears (fun hv hmem r => ⟨[], ?_, rfl⟩) hl hpool hfuel hhead hfree
        rw [hvalues hv hmem, hzero]
      exact ⟨r', by simpa using hr', by simpa using haddrs⟩

end Command

def HeadersIn.of (parts : List Part) (keys : List (List UInt8)) : HeadersIn where
  mem a := ⟨1, keys.getD a [], lit "a", none⟩
  list := ⟨parts, 20⟩
  builtin _ := none
  server := []
  contentLengthN := -1
  pool := []

/-- `X-Foo: a` in the first part, and again in the second one. -/
def twoFoos : HeadersIn := .of [⟨0, 1, 1⟩, ⟨1, 1, 21⟩] [lit "X-Foo", lit "X-Foo"]

def xFooVal : InputVal (List UInt8) := ⟨[], 1, lit "X-Foo", .header, none, false⟩

theorem clear_iff_twoFoos : ∃ r', ngxHttpSetInputHeaderHelper (fun r => (none, r)) twoFoos xFooVal [] none 3 =
    some (.ok, r') ∧ r'.list.addrs ≠ [] := by
  have htailed : twoFoos.list.Tailed := List.forall_mem_singleton.mpr (by decide)
  obtain ⟨r', hr', hiff⟩ := @clear_iff _ (fun r => (none, r)) xFooVal none twoFoos 3 htailed rfl (by decide)
  refine ⟨r', hr', fun hnil => ?_⟩
  exact hiff.mp (by rw [hnil]; decide) ⟨⟨by decide, by decide⟩, 1, by decide, by decide⟩

/-- `Host: a` in front of `X-Foo: a`. -/
def hostFoo : HeadersIn := .of [⟨0, 2, 20⟩] [lit "Host", lit "X-Foo"]

theorem clear_input_headers_hostFoo :
    ngxHttpHeadersMoreClearInputHeaders some [] (fun _ => 1) [lit "X-Foo"] = .ok ⟨none, some [xFooVal]⟩ ∧
      ∃ r', ngxHttpHeadersMoreExecInputCmd (fun r => (none, r)) (fun _ => none) (fun _ v => some v) 3 hostFoo
        ⟨none, some [xFooVal]⟩ = some (.ok, r') ∧ r'.list.addrs = [0] := by
  have hcmd : ngxHttpHeadersMoreClearInputHeaders some [] (fun _ => 1) [lit "X-Foo"] =
      .ok ⟨none, some [xFooVal]⟩ := rfl
  have htailed : hostFoo.list.Tailed := fun p hp => absurd hp List.not_mem_nil
  refine ⟨hcmd, ?_⟩
  obtain ⟨r', hr', haddrs⟩ := @clear_input_headers _ (fun r => (none, r)) (fun _ => none) (fun _ v => some v)
    hostFoo 3 0 some [] (fun _ => 1) _ _ hcmd (fun _ => rfl) htailed rfl (by decide) (by decide)
    (List.forall_mem_singleton.mpr (by decide))
  exact ⟨r', hr', haddrs.trans (by decide)⟩

end NginB.HeadersMore
