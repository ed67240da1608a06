import Mathlib.Data.List.Nodup
import NginB.HeadersMore.Clearing
import NginB.HeadersMore.Fields

/-! # The room for the headers of a request

Where headers are taken out and pushed in any order, each of them has a place of its own in the array of
its part, and a search goes through all of them as long as the first one is not taken out.
-/
namespace NginB.HeadersMore

/-- The list has room for what is pushed, where none of its headers stands. -/
structure Spaced (l : HeaderList) : Prop where
  roomy : Roomy l
  nodup : l.addrs.Nodup
  unused : ∀ p, l.parts.getLast? = some p → ∀ a, p.elts + p.nelts ≤ a → a < p.elts + l.nalloc → a ∉ l.addrs

/-- What `ngx_list_push` does where it can allocate: the header stands behind those of the last part, or at
the beginning of an array of its own. -/
inductive Pushed (r : HeadersIn) : Option ℕ × HeadersIn → Prop
  | room {pre p} (hparts : r.list.parts = pre ++ [p]) (hroom : p.nelts < r.list.nalloc) :
      Pushed r (some (p.elts + p.nelts),
        { r with list := ⟨pre ++ [{ p with nelts := p.nelts + 1 }], r.list.nalloc⟩ })
  | part {pre p elts} (hparts : r.list.parts = pre ++ [p]) (hfull : p.nelts = r.list.nalloc)
      (hfree : ∀ a ∈ r.list.addrs, a < elts ∨ elts + r.list.nalloc ≤ a) :
      Pushed r (some elts,
        { r with list := ⟨r.list.parts ++ [⟨elts, 1, elts + r.list.nalloc⟩], r.list.nalloc⟩ })

def TableElt.entry (e : TableElt) : List UInt8 × List UInt8 := (e.key, e.value)

section Lists
variable {l : HeaderList} {pre post : List Part} {cur : Part} {i : ℕ} {out : Rc × HeaderList}

/-- Taking out a header uses no more room than there was. -/
theorem Removal.spaced (h : Removal l pre cur post i out) (hparts : l.parts = pre ++ cur :: post)
    (hi : i < cur.nelts) (hl : Spaced l) (hout : out.1 = .ok) : Spaced out.2 := by
  have hroomy := h.roomy hparts hl.roomy hout
  have hsub : out.2.addrs.Sublist l.addrs := by
    rw [h.addrs, addrs_at hparts hi]
    simp
  have hkept : post ≠ [] → out.2.nalloc = l.nalloc ∧ out.2.parts.getLast? = l.parts.getLast? := by
    intro hpost
    have hlast : ∀ mid : List Part, (pre ++ (mid ++ post)).getLast? = post.getLast? := by
      intro mid
      rw [← List.append_assoc, List.getLast?_append_of_ne_nil _ hpost]
    rw [hparts]
    cases h with
    | sole => cases hout
    | unlinked => exact ⟨if_neg hpost, (hlast []).trans (hlast [cur]).symm⟩
    | first => exact ⟨if_neg hpost, (hlast [_]).trans (hlast [cur]).symm⟩
    | last => exact ⟨if_neg hpost, (hlast [_]).trans (hlast [cur]).symm⟩
    | split => exact ⟨if_neg hpost, (hlast [_, _]).trans (hlast [cur]).symm⟩
  refine ⟨hroomy, hl.nodup.sublist hsub, fun p hp a hle hlt => ?_⟩
  by_cases hpost : post = []
  · subst hpost
    -- the last part has lost a header, or is another one: it has just room for its headers
    have hnelts : out.2.nalloc = p.nelts := by
      cases h with
      | sole => cases hout
      | unlinked hi hn hpre =>
        subst hpre
        simp at hp ⊢
        rw [hp]
      | first | last | split =>
        simp at hp ⊢
        simp [← hp, Part.front, Part.behind]
    omega
  · obtain ⟨hnalloc, hlast⟩ := hkept hpost
    rw [hlast] at hp
    rw [hnalloc] at hlt
    exact fun hmem => hl.unused p hp a hle hlt (hsub.subset hmem)

end Lists

section Push
variable {r r' : HeadersIn} {out : Option ℕ × HeadersIn}

structure Grown (r : HeadersIn) (a : ℕ) (r' : HeadersIn) : Prop where
  spaced : Spaced r'.list
  addrs : r'.list.addrs = r.list.addrs ++ [a]
  same : r' = { r with list := r'.list }

theorem addrs_concat (pre : List Part) (p : Part) (n : ℕ) :
    (HeaderList.mk (pre ++ [p]) n).addrs = pre.flatMap Part.addrs ++ p.addrs := by
  rw [HeaderList.addrs, List.flatMap_append, List.flatMap_singleton]

theorem Grown.notMem {a : ℕ} (hg : Grown r a r') : a ∉ r.list.addrs := by
  have hnodup := hg.spaced.nodup
  rw [hg.addrs, List.nodup_append] at hnodup
  exact fun ha => hnodup.2.2 a ha a (List.mem_singleton_self a) rfl

theorem last_concat {pre : List Part} {p q : Part} (h : (pre ++ [p]).getLast? = some q) : p = q := by
  rwa [List.getLast?_concat, Option.some.injEq] at h

theorem Spaced.concat {l : HeaderList} {pre : List Part} {p : Part} {a : ℕ} (hnodup : l.addrs.Nodup)
    (haddrs : (HeaderList.mk (pre ++ [p]) l.nalloc).addrs = l.addrs ++ [a])
    (hinside : ∀ q ∈ pre, q.elts + q.nelts ≤ q.stop) (hfull : ∀ q ∈ pre, 0 < q.nelts)
    (hpos : 0 < p.nelts) (hroom : p.nelts ≤ l.nalloc ∧ p.elts + l.nalloc ≤ p.stop)
    (hend : p.elts + p.nelts = a + 1) (hfree : ∀ b, a ≤ b → b < p.elts + l.nalloc → b ∉ l.addrs) :
    Spaced ⟨pre ++ [p], l.nalloc⟩ where
  roomy := by
    refine ⟨?_, ?_, fun q hq => ?_⟩
    · rw [List.forall_mem_append, List.forall_mem_singleton]
      exact ⟨hinside, by omega⟩
    · rw [List.forall_mem_append, List.forall_mem_singleton]
      exact ⟨hfull, hpos⟩
    · obtain rfl := last_concat hq
      exact hroom
  nodup := by
    rw [haddrs, ← List.concat_eq_append]
    exact hnodup.concat (hfree a (Nat.le_refl _) (by omega))
  unused := by
    intro q hq b hle hlt
    obtain rfl := last_concat hq
    rw [haddrs, List.mem_append, List.mem_singleton, not_or]
    exact ⟨hfree b (by omega) hlt, by omega⟩

/-- A header that is pushed has a place of its own, inside the array of the last part. -/
theorem Pushed.grown (h : Pushed r out) (hl : Spaced r.list) : ∃ a r', out = (some a, r') ∧ Grown r a r' := by
  have hinside := hl.roomy.inside
  have hfull := hl.roomy.full
  cases h with
  | @room pre p hparts hroom =>
    have hlast : r.list.parts.getLast? = some p := by rw [hparts, List.getLast?_concat]
    have hold : r.list.addrs = pre.flatMap Part.addrs ++ p.addrs := by
      rw [← addrs_concat pre p r.list.nalloc, ← hparts]
    have haddrs : (HeaderList.mk (pre ++ [{ p with nelts := p.nelts + 1 }]) r.list.nalloc).addrs =
        r.list.addrs ++ [p.elts + p.nelts] := by
      rw [addrs_concat, hold, List.append_assoc, Part.addrs, Part.addrs, List.range'_concat, Nat.one_mul]
    rw [hparts, List.forall_mem_append] at hinside hfull
    exact ⟨_, _, rfl, Spaced.concat hl.nodup haddrs hinside.1 hfull.1 (Nat.succ_pos _)
      ⟨hroom, (hl.roomy.room p hlast).2⟩ rfl (hl.unused p hlast), haddrs, rfl⟩
  | @part pre p elts hparts hn hfree =>
    have hpos : 0 < r.list.nalloc := hn ▸ hfull p (by simp [hparts])
    have haddrs : (HeaderList.mk (r.list.parts ++ [⟨elts, 1, elts + r.list.nalloc⟩]) r.list.nalloc).addrs =
        r.list.addrs ++ [elts] := addrs_concat _ _ _
    refine ⟨_, _, rfl, Spaced.concat hl.nodup haddrs hinside hfull Nat.one_pos ⟨hpos, Nat.le_refl _⟩ rfl
      fun a hle hlt hmem => ?_, haddrs, rfl⟩
    have hor := hfree a hmem
    dsimp only at hlt
    omega

end Push

section Helper
variable {υ : Type} {listPush : HeadersIn → Option ℕ × HeadersIn} {hv : InputVal υ} {o : Option BuiltinIn}
  {r r' : HeadersIn} {value : List UInt8} {fuel a : ℕ}

theorem hit_iff (h0 : 0 ∉ hv.key) : r.hit hv a = true ↔ (r.mem a).name = lower hv.key := by
  rw [HeadersIn.hit, InputVal.hits, TableElt.name, ← strncasecmpEq_iff h0]
  by_cases hlen : (r.mem a).key.length = hv.key.length
  · rw [hlen]
  · simp [hlen]

theorem hit_false (h0 : 0 ∉ hv.key) : r.hit hv a = false ↔ (r.mem a).name ≠ lower hv.key := by
  rw [← Bool.not_eq_true, hit_iff h0]

/-- What clearing a header leaves, where the first header of all has another name. -/
structure Thinned (hv : InputVal υ) (o : Option BuiltinIn) (r r' : HeadersIn) : Prop where
  spaced : Spaced r'.list
  pool : r'.pool = []
  entries : ∀ a, (r'.mem a).entry = (r.mem a).entry
  addrs : r'.list.addrs = r.list.addrs.filter fun a => !r.hit hv a
  builtin : r'.builtin = if r.list.addrs.any (r.hit hv) then (r.output o none).builtin else r.builtin
  server : r'.server = r.server
  contentLengthN : r'.contentLengthN = r.contentLengthN

theorem update_self (r : HeadersIn) (a : ℕ) (f : TableElt → TableElt) : (r.update a f).mem a = f (r.mem a) :=
  Function.update_self ..

theorem update_ne {b : ℕ} (h : b ≠ a) (f : TableElt → TableElt) : (r.update a f).mem b = r.mem b :=
  Function.update_of_ne h ..

theorem update_update (r : HeadersIn) (a : ℕ) (f g : TableElt → TableElt) :
    (r.update a f).update a g = r.update a fun h => g (f h) := by
  have hmem : Function.update (r.update a f).mem a (g ((r.update a f).mem a)) =
      Function.update r.mem a (g (f (r.mem a))) := by
    rw [update_self]
    exact Function.update_idem ..
  exact congrArg (fun mem => { r with mem := mem }) hmem

theorem update_entry {f : TableElt → TableElt} (hf : ∀ e, (f e).entry = e.entry) (b : ℕ) :
    ((r.update a f).mem b).entry = (r.mem b).entry := by
  by_cases h : b = a
  · subst h
    rw [update_self, hf]
  · rw [update_ne h]

theorem Roomy.tailed {l : HeaderList} (h : Roomy l) : l.Tailed := fun p hp => h.full p (List.mem_of_mem_tail hp)

theorem Roomy.head_first {l : HeaderList} (h : Roomy l) : l.first.head? = l.addrs.head? := by
  obtain ⟨parts, n⟩ := l
  cases parts with
  | nil => rfl
  | cons p ps =>
    have hmem : p.elts ∈ p.addrs := mem_addrs.mpr ⟨0, h.full p List.mem_cons_self, rfl⟩
    rw [first_cons, HeaderList.addrs, List.flatMap_cons, List.head?_append_of_ne_nil _ (List.ne_nil_of_mem hmem)]

theorem thinned (hl : Spaced r.list) (hpool : r.pool = []) (hfuel : r.list.addrs.length < fuel)
    (hhead : r.list.addrs.head? = some a) (hmiss : r.hit hv a = false) :
    ∃ r', ngxHttpSetInputHeaderHelper listPush r hv [] o fuel = some (.ok, r') ∧ Thinned hv o r r' := by
  induction fuel generalizing r with
  | zero => exact absurd hfuel (Nat.not_lt_zero _)
  | succ fuel ih =>
    have hwalk : Walked (r.hit hv) 0 r.list.parts
        (walkParts (fun a => hv.hits (r.mem a)) true 0 r.list.parts) :=
      walked (fun p _ h => absurd h (by decide)) hl.roomy.tailed
    rw [ngxHttpSetInputHeaderHelper]
    generalize walkParts (fun a => hv.hits (r.mem a)) true 0 r.list.parts = out at hwalk
    cases hwalk with
    | nothing hnone =>
      have hnone : ∀ a ∈ r.list.addrs, r.hit hv a = false := hnone
      refine ⟨r, if_pos (.inl rfl), hl, hpool, fun _ => rfl, ?_, ?_, rfl, rfl⟩
      · refine (List.filter_eq_self.mpr fun a ha => ?_).symm
        rw [hnone a ha]
        rfl
      · rw [List.any_eq_false.mpr fun a ha => by rw [hnone a ha]; exact Bool.false_ne_true, if_neg Bool.false_ne_true]
    | @found pre cur post i hparts hi hhit' hfront =>
      have hremoval := removal hparts hi
      have hpalloc : r.pool.headD true = true := by rw [hpool]; rfl
      simp only [hpalloc, Nat.zero_add, if_true]
      generalize ngxHttpHeadersMoreRmHeaderHelper true r.list pre.length i = out at hremoval
      have hok : out.1 = .ok := by
        refine hremoval.ok_iff.mpr (or_iff_not_imp_left.mpr fun hpre hn => ?_)
        -- the first header of all would be hit
        obtain rfl := not_not.mp hpre
        obtain rfl : i = 0 := by omega
        rw [addrs_at hparts hi, front_zero] at hhead
        obtain rfl : cur.elts + 0 = a := by simpa using hhead
        exact Bool.false_ne_true (hmiss.symm.trans hhit')
      have hagain := hremoval.again hparts hi hhit' hfront hl.roomy.tailed hok
      have hspaced := hremoval.spaced hparts hi hl hok
      rw [if_pos hok]
      generalize hr₁ : r.removed (r.list.address pre.length i) out.2 = r₁
      obtain ⟨hmem, hlist, hp⟩ := output_same r₁ o none
      have hlist : (r₁.output o none).list = out.2 := by rw [hlist, ← hr₁]; rfl
      have hp : (r₁.output o none).pool = [] := by rw [hp, ← hr₁, HeadersIn.removed, hpool]; rfl
      have hentries : ∀ a, ((r₁.output o none).mem a).entry = (r.mem a).entry := by
        intro a
        rw [hmem, ← hr₁]
        exact update_entry (f := fun h => { h with hash := 0 }) (fun _ => rfl) a
      have hsame : (r₁.output o none).builtin = (r.output o none).builtin ∧
          (r₁.output o none).server = r.server ∧ (r₁.output o none).contentLengthN = r.contentLengthN := by
        rw [← hr₁]
        cases o <;> exact ⟨rfl, rfl, rfl⟩
      have hhit : (r₁.output o none).hit hv = r.hit hv := hit_congr fun a => congrArg Prod.fst (hentries a)
      rw [← hlist] at hagain hspaced
      have hlength := hagain.length
      have hhead' : (r₁.output o none).list.addrs.head? = some a := by
        rw [← hspaced.roomy.head_first]
        exact hagain.head a (hl.roomy.head_first.trans hhead) hmiss
      obtain ⟨r', hr', hthin⟩ := ih hspaced hp (by omega) hhead' (by rw [hhit, hmiss])
      refine ⟨r', hr', hthin.spaced, hthin.pool, fun a => (hthin.entries a).trans (hentries a), ?_, ?_,
        hthin.server.trans hsame.2.1, hthin.contentLengthN.trans hsame.2.2⟩
      · rw [hthin.addrs, hhit, hagain.filter]
      · have hany : r.list.addrs.any (r.hit hv) = true := by
          refine List.any_eq_true.mpr ⟨cur.elts + i, ?_, hhit'⟩
          rw [addrs_at hparts hi]
          simp
        have hagain' : ((r₁.output o none).output o none).builtin = (r₁.output o none).builtin := by
          cases o with
          | none => rfl
          | some b => exact Function.update_idem _ _ _
        rw [hthin.builtin, hagain', ite_self, hsame.1, if_pos hany]

end Helper

end NginB.HeadersMore
