import Mathlib.Data.List.Range
import NginB.HeadersMore.HeadersOut

/-! # Taking headers out of a list

The headers of a request on its way in stand in the arrays of the parts of a list, and are taken out of
it. A header of a list is its address, in units of the size of a header. What is pushed next goes behind
the last part, which has to have room for as many headers as `nalloc` says.
-/
namespace NginB.HeadersMore

/-- `ngx_list_part_t`, with the end of the array that its headers were allocated in. -/
structure Part where
  elts : ℕ
  nelts : ℕ
  stop : ℕ
  deriving DecidableEq

/-- `ngx_list_t`: the first part, and the parts that `next` leads to. `last` is the last of them. -/
structure HeaderList where
  parts : List Part
  nalloc : ℕ
  deriving DecidableEq

/-- `ngx_http_headers_more_rm_header_helper` for the header `i` of the part `k`. `palloc` says whether a
part can be allocated. -/
def ngxHttpHeadersMoreRmHeaderHelper (palloc : Bool) (l : HeaderList) (k i : ℕ) : Rc × HeaderList :=
  match l.parts[k]? with
  | none => (.error, l)
  | some cur =>
    let isLast : Bool := k + 1 = l.parts.length
    if i = 0 then
      let cur := { cur with elts := cur.elts + 1, nelts := cur.nelts - 1 }
      let parts := l.parts.set k cur
      if isLast then
        if cur.nelts = 0 then
          -- the part whose `next` it is
          match k with
          | 0 => (.error, { l with parts := parts })
          | k + 1 => (.ok, ⟨parts.take (k + 1), ((parts[k]?).map Part.nelts).getD 0⟩)
        else (.ok, ⟨parts, cur.nelts⟩)
      else if cur.nelts = 0 then
        match k with
        | 0 => (.error, { l with parts := parts })
        | k + 1 => (.ok, { l with parts := parts.eraseIdx (k + 1) })
      else (.ok, { l with parts := parts })
    else if i = cur.nelts - 1 then
      (.ok, ⟨l.parts.set k { cur with nelts := cur.nelts - 1 }, if isLast then cur.nelts - 1 else l.nalloc⟩)
    else if palloc = false then (.error, l)
    else
      let new := { cur with elts := cur.elts + (i + 1), nelts := cur.nelts - i - 1 }
      (.ok, ⟨l.parts.take k ++ { cur with nelts := i } :: new :: l.parts.drop (k + 1),
        if isLast then new.nelts else l.nalloc⟩)

def Part.addrs (p : Part) : List ℕ := List.range' p.elts p.nelts

def HeaderList.addrs (l : HeaderList) : List ℕ := l.parts.flatMap Part.addrs

/-- The headers of the first part, and those of the others. -/
def HeaderList.first (l : HeaderList) : List ℕ := (l.parts.take 1).flatMap Part.addrs

def HeaderList.others (l : HeaderList) : List ℕ := l.parts.tail.flatMap Part.addrs

section Removal
variable {l l' : HeaderList} {pre post : List Part} {cur p : Part} {i k : ℕ} {out : Rc × HeaderList}

/-- What is left of a part in front of one of its headers, and behind it. -/
def Part.front (p : Part) (i : ℕ) : Part := { p with nelts := i }

def Part.behind (p : Part) (i : ℕ) : Part := { p with elts := p.elts + (i + 1), nelts := p.nelts - i - 1 }

inductive Removal (l : HeaderList) (pre : List Part) (cur : Part) (post : List Part) (i : ℕ) :
    Rc × HeaderList → Prop
  /-- the only header of the first part -/
  | sole (hi : i = 0) (hn : cur.nelts = 1) (hpre : pre = []) :
      Removal l pre cur post i (.error, ⟨cur.behind 0 :: post, l.nalloc⟩)
  /-- the only header of another part -/
  | unlinked {front p} (hi : i = 0) (hn : cur.nelts = 1) (hpre : pre = front ++ [p]) :
      Removal l pre cur post i (.ok, ⟨pre ++ post, if post = [] then p.nelts else l.nalloc⟩)
  | first (hi : i = 0) (hn : 1 < cur.nelts) :
      Removal l pre cur post i (.ok, ⟨pre ++ cur.behind 0 :: post, if post = [] then cur.nelts - 1 else l.nalloc⟩)
  | last (hi : 0 < i) (hn : i + 1 = cur.nelts) :
      Removal l pre cur post i (.ok, ⟨pre ++ cur.front i :: post, if post = [] then i else l.nalloc⟩)
  | split (hi : 0 < i) (hn : i + 1 < cur.nelts) :
      Removal l pre cur post i (.ok, ⟨pre ++ cur.front i :: cur.behind i :: post,
        if post = [] then cur.nelts - i - 1 else l.nalloc⟩)

theorem set_at (cur' : Part) : (pre ++ cur :: post).set pre.length cur' = pre ++ cur' :: post := by
  rw [List.set_append_right _ _ (Nat.le_refl _), Nat.sub_self, List.set_cons_zero]

theorem isLast_iff : pre.length + 1 = (pre ++ cur :: post).length ↔ post = [] := by
  rw [List.length_append, List.length_cons, ← List.length_eq_zero_iff]
  omega

theorem removal (hparts : l.parts = pre ++ cur :: post) (hi : i < cur.nelts) :
    Removal l pre cur post i (ngxHttpHeadersMoreRmHeaderHelper true l pre.length i) := by
  have hget : l.parts[pre.length]? = some cur := by
    rw [hparts, List.getElem?_append_right (Nat.le_refl _), Nat.sub_self, List.getElem?_cons_zero]
  rw [ngxHttpHeadersMoreRmHeaderHelper, hget]
  simp only [hparts, set_at, isLast_iff, decide_eq_true_eq]
  by_cases hi0 : i = 0
  · rw [if_pos hi0]
    by_cases hn : cur.nelts = 1
    · have hzero : cur.nelts - 1 = 0 := by omega
      simp only [if_pos hzero]
      rcases List.eq_nil_or_concat pre with rfl | ⟨front, p, rfl⟩
      · have hboth : Removal l [] cur post i (.error, { l with parts := cur.behind 0 :: post }) := .sole hi0 hn rfl
        split <;> exact hboth
      · rw [List.concat_eq_append] at hparts ⊢
        have hlen : (front ++ [p]).length = front.length + 1 := by simp
        have hout : Removal l (front ++ [p]) cur post i _ := .unlinked hi0 hn rfl
        simp only [hlen]
        have htake : (front ++ [p] ++ cur.behind 0 :: post).take (front.length + 1) = front ++ [p] :=
          List.take_left' hlen
        have herase : (front ++ [p] ++ cur.behind 0 :: post).eraseIdx (front.length + 1) = front ++ [p] ++ post := by
          rw [List.eraseIdx_append_of_length_le (Nat.le_of_eq hlen), hlen, Nat.sub_self, List.eraseIdx_cons_zero]
        have hfront : (front ++ [p] ++ cur.behind 0 :: post)[front.length]? = some p := by simp
        split
        · next hpost =>
          have hparts' : front ++ [p] ++ post = (front ++ [p] ++ cur.behind 0 :: post).take (front.length + 1) := by
            rw [htake, hpost, List.append_nil]
          have hnelts : p.nelts =
              (((front ++ [p] ++ cur.behind 0 :: post)[front.length]?).map Part.nelts).getD 0 := by rw [hfront]; rfl
          rw [if_pos hpost, hparts', hnelts] at hout
          exact hout
        · next hpost =>
          rw [if_neg hpost, ← herase] at hout
          exact hout
    · have hsome : ¬ cur.nelts - 1 = 0 := by omega
      simp only [if_neg hsome]
      have hout : Removal l pre cur post i _ := .first hi0 (by omega)
      split
      · next hpost => rwa [if_pos hpost] at hout
      · next hpost => rwa [if_neg hpost] at hout
  · rw [if_neg hi0]
    by_cases hlast : i = cur.nelts - 1
    · rw [if_pos hlast, ← hlast]
      exact .last (by omega) (by omega)
    · rw [if_neg hlast, if_neg (by decide)]
      have hdrop : (pre ++ cur :: post).drop (pre.length + 1) = post := by
        rw [List.append_cons, List.drop_left' (by simp)]
      rw [hdrop, List.take_left]
      exact .split (by omega) (by omega)

theorem front_zero : (cur.front 0).addrs = [] := rfl

theorem behind_last (hn : cur.nelts = i + 1) : (cur.behind i).addrs = [] := by
  rw [Part.addrs, Part.behind, hn]
  simp

theorem addrs_split (hi : i < cur.nelts) :
    cur.addrs = (cur.front i).addrs ++ (cur.elts + i) :: (cur.behind i).addrs := by
  obtain ⟨n, hn⟩ : ∃ n, cur.nelts = i + (n + 1) := ⟨cur.nelts - i - 1, by omega⟩
  have hrest : cur.nelts - i - 1 = n := by omega
  rw [Part.addrs, Part.addrs, Part.addrs, Part.front, Part.behind, hrest, hn, ← List.range'_append_1, List.range'_succ]
  rfl

/-- Whatever it returns, the header is not in the list any more, and the others are. -/
theorem Removal.addrs (h : Removal l pre cur post i out) : out.2.addrs = pre.flatMap Part.addrs ++
    ((cur.front i).addrs ++ (cur.behind i).addrs) ++ post.flatMap Part.addrs := by
  cases h with
  | sole hi hn hpre =>
    subst hi hpre
    simp [HeaderList.addrs, front_zero]
  | unlinked hi hn hpre =>
    subst hi
    simp [HeaderList.addrs, front_zero, behind_last hn]
  | first hi hn =>
    subst hi
    simp [HeaderList.addrs, front_zero]
  | last hi hn => simp [HeaderList.addrs, behind_last hn.symm]
  | split hi hn => simp [HeaderList.addrs]

theorem addrs_at (hparts : l.parts = pre ++ cur :: post) (hi : i < cur.nelts) : l.addrs =
    pre.flatMap Part.addrs ++ ((cur.front i).addrs ++ (cur.elts + i) :: (cur.behind i).addrs) ++
      post.flatMap Part.addrs := by
  rw [HeaderList.addrs, hparts, List.flatMap_append, List.flatMap_cons, addrs_split hi]
  simp

def HeaderList.HasRoom (l : HeaderList) : Prop :=
  ∀ p, l.parts.getLast? = some p → p.nelts ≤ l.nalloc ∧ p.elts + l.nalloc ≤ p.stop

/-- All parts have headers, inside their arrays, and what is pushed next has room. -/
structure Roomy (l : HeaderList) : Prop where
  inside : ∀ p ∈ l.parts, p.elts + p.nelts ≤ p.stop
  full : ∀ p ∈ l.parts, 0 < p.nelts
  room : l.HasRoom

/-- It is an error just when the header is the only one of the first part. -/
theorem Removal.ok_iff (h : Removal l pre cur post i out) : out.1 = .ok ↔ pre ≠ [] ∨ cur.nelts ≠ 1 := by
  cases h with
  | sole hi hn hpre => simp [hn, hpre]
  | unlinked hi hn hpre => simp [hpre]
  | first hi hn => exact iff_of_true rfl (.inr (by omega))
  | last hi hn => exact iff_of_true rfl (.inr (by omega))
  | split hi hn => exact iff_of_true rfl (.inr (by omega))

theorem last_eq : (pre ++ cur :: post).getLast? = some p ↔
    post = [] ∧ cur = p ∨ post ≠ [] ∧ post.getLast? = some p := by
  cases post with
  | nil => simp
  | cons q post => simp

/-- A list whose last part has just room for its headers, or is as it was. -/
theorem roomy_mk {n : ℕ} (hall : ∀ q ∈ pre ++ p :: post, 0 < q.nelts ∧ q.elts + q.nelts ≤ q.stop)
    (hpost : ∀ q, post.getLast? = some q → q.nelts ≤ n ∧ q.elts + n ≤ q.stop) :
    Roomy ⟨pre ++ p :: post, if post = [] then p.nelts else n⟩ := by
  refine ⟨fun q hq => (hall q hq).2, fun q hq => (hall q hq).1, fun q hq => ?_⟩
  rcases last_eq.mp hq with ⟨hnil, rfl⟩ | ⟨hne, hq⟩
  · rw [if_pos hnil]
    exact ⟨Nat.le_refl _, (hall p (by simp)).2⟩
  · rw [if_neg hne]
    exact hpost q hq

/-- Where it is no error, the next header that is pushed has room. -/
theorem Removal.roomy (h : Removal l pre cur post i out) (hparts : l.parts = pre ++ cur :: post)
    (hl : Roomy l) (hout : out.1 = .ok) : Roomy out.2 := by
  have hall : ∀ q ∈ pre ++ cur :: post, 0 < q.nelts ∧ q.elts + q.nelts ≤ q.stop :=
    fun q hq => ⟨hl.full q (hparts ▸ hq), hl.inside q (hparts ▸ hq)⟩
  have hpost : ∀ q, post.getLast? = some q → q.nelts ≤ l.nalloc ∧ q.elts + l.nalloc ≤ q.stop := by
    intro q hq
    refine hl.room q (hparts ▸ last_eq.mpr (.inr ⟨?_, hq⟩))
    rintro rfl
    cases hq
  rw [List.forall_mem_append, List.forall_mem_cons] at hall
  obtain ⟨hpre, ⟨-, hcur⟩, hrest⟩ := hall
  have hbehind : i + 1 < cur.nelts → 0 < (cur.behind i).nelts ∧
      (cur.behind i).elts + (cur.behind i).nelts ≤ (cur.behind i).stop := by
    intro hn
    simp only [Part.behind]
    omega
  have hfront : 0 < i → i < cur.nelts → 0 < (cur.front i).nelts ∧
      (cur.front i).elts + (cur.front i).nelts ≤ (cur.front i).stop := by
    intro hi hn
    simp only [Part.front]
    omega
  cases h with
  | sole => cases hout
  | @unlinked front p hi hn hpre' =>
    rw [hpre', List.append_assoc, List.singleton_append]
    refine roomy_mk ?_ hpost
    rw [hpre', List.forall_mem_append, List.forall_mem_singleton] at hpre
    rw [List.forall_mem_append, List.forall_mem_cons]
    exact ⟨hpre.1, hpre.2, hrest⟩
  | first hi hn =>
    subst hi
    refine roomy_mk (p := cur.behind 0) ?_ hpost
    rw [List.forall_mem_append, List.forall_mem_cons]
    exact ⟨hpre, hbehind (by omega), hrest⟩
  | last hi hn =>
    refine roomy_mk (p := cur.front i) ?_ hpost
    rw [List.forall_mem_append, List.forall_mem_cons]
    exact ⟨hpre, hfront hi (by omega), hrest⟩
  | split hi hn =>
    rw [List.append_cons]
    refine roomy_mk (p := cur.behind i) ?_ hpost
    rw [List.forall_mem_append, List.forall_mem_append, List.forall_mem_singleton, List.forall_mem_cons]
    exact ⟨⟨hpre, hfront hi (by omega)⟩, hbehind (by omega), hrest⟩

/-- A list that has room to the end of its array still has it when a header has been taken out, unless that
was its only one. -/
theorem room_iff (hparts : l.parts = pre ++ cur :: post) (hi : i < cur.nelts) (hl : Roomy l)
    (hstop : ∀ p, l.parts.getLast? = some p → p.elts + l.nalloc = p.stop) :
    (ngxHttpHeadersMoreRmHeaderHelper true l pre.length i).2.HasRoom ↔
      pre ≠ [] ∨ cur.nelts ≠ 1 ∨ post ≠ [] := by
  have h := removal hparts hi
  generalize ngxHttpHeadersMoreRmHeaderHelper true l pre.length i = out at h
  by_cases hok : out.1 = .ok
  · refine iff_of_true (h.roomy hparts hl hok).room ?_
    rcases h.ok_iff.mp hok with hpre | hn
    · exact .inl hpre
    · exact .inr (.inl hn)
  · cases h with
    | sole hi0 hn hpre =>
      subst hpre
      constructor
      · intro hroom
        refine .inr (.inr ?_)
        rintro rfl
        have hcur := hstop cur (by simp [hparts])
        have hbehind := (hroom (cur.behind 0) rfl).2
        simp only [Part.behind] at hbehind
        omega
      · intro hor p hp
        have hpost : post ≠ [] := by simpa [hn] using hor
        refine hl.room p (hparts ▸ last_eq.mpr (.inr ⟨hpost, ?_⟩))
        have hlast : ([] ++ cur.behind 0 :: post).getLast? = some p := hp
        exact ((last_eq.mp hlast).resolve_left fun hnil => hpost hnil.1).2
    | unlinked | first | last | split => exact absurd rfl hok

/-- Headers are taken out one after the other, none of them while it is the only one of the first part. -/
inductive Removes : HeaderList → List ℕ → HeaderList → Prop
  | nil {m} : Removes m [] m
  | cons {m m' front part back j addrs} (hparts : m.parts = front ++ part :: back) (hj : j < part.nelts)
      (hsole : front ≠ [] ∨ part.nelts ≠ 1)
      (h : Removes (ngxHttpHeadersMoreRmHeaderHelper true m front.length j).2 addrs m') :
      Removes m ((part.elts + j) :: addrs) m'

/-- In every such run the list has room for what is pushed, and has lost just what has been taken out. -/
theorem removes_roomy {addrs : List ℕ} (h : Removes l addrs l') (hl : Roomy l) :
    Roomy l' ∧ l.addrs.Perm (addrs ++ l'.addrs) := by
  induction h with
  | nil => exact ⟨hl, .refl _⟩
  | @cons m m' front part back j addrs hparts hj hsole _ ih =>
    have hremoval := removal hparts hj
    obtain ⟨hroomy, hperm⟩ := ih (hremoval.roomy hparts hl (hremoval.ok_iff.mpr hsole))
    refine ⟨hroomy, ?_⟩
    have hmiddle : m.addrs.Perm
        ((part.elts + j) :: (ngxHttpHeadersMoreRmHeaderHelper true m front.length j).2.addrs) := by
      rw [hremoval.addrs, addrs_at hparts hj, ← List.append_assoc, ← List.append_assoc, List.append_assoc,
        List.cons_append, List.append_assoc _ (part.behind j).addrs]
      exact List.perm_middle
    exact hmiddle.trans (hperm.cons _)

theorem mem_addrs {p : Part} {a : ℕ} : a ∈ p.addrs ↔ ∃ i < p.nelts, p.elts + i = a := by
  simp [Part.addrs, List.mem_range', eq_comm]

theorem first_cons {p : Part} {ps : List Part} {n : ℕ} : (HeaderList.mk (p :: ps) n).first = p.addrs := by
  simp [HeaderList.first]

theorem addrs_eq (l : HeaderList) : l.addrs = l.first ++ l.others := by
  obtain ⟨parts, n⟩ := l
  cases parts <;> simp [HeaderList.addrs, HeaderList.first, HeaderList.others]

end Removal

/-- A list with room for twenty headers that has the first `n` of them. -/
def fresh (n : ℕ) : HeaderList := ⟨[⟨0, n, 20⟩], 20⟩

theorem fresh_roomy {n : ℕ} (h0 : 0 < n) (h : n ≤ 20) : Roomy (fresh n) where
  inside := List.forall_mem_singleton.mpr (by simpa using h)
  full := List.forall_mem_singleton.mpr h0
  room p hp := by
    obtain rfl := Option.some.inj hp
    exact ⟨h, Nat.le_refl 20⟩

/-- A request with one header, which is taken out: the last one of twenty that are pushed then has no room. -/
theorem room_iff_one : ¬ (ngxHttpHeadersMoreRmHeaderHelper true (fresh 1) 0 0).2.HasRoom := by
  have hparts : (fresh 1).parts = [] ++ ⟨0, 1, 20⟩ :: [] := rfl
  have hstop : ∀ p, (fresh 1).parts.getLast? = some p → p.elts + (fresh 1).nalloc = p.stop := by
    intro p hp
    obtain rfl := Option.some.inj hp
    rfl
  refine mt (room_iff hparts (by decide) (fresh_roomy (by decide) (by decide)) hstop).mp ?_
  decide

theorem removes_roomy_three : Roomy ⟨[⟨0, 1, 20⟩, ⟨2, 1, 20⟩], 1⟩ := by
  have hrun : Removes (fresh 3) [1] ⟨[⟨0, 1, 20⟩, ⟨2, 1, 20⟩], 1⟩ :=
    @Removes.cons (fresh 3) _ [] ⟨0, 3, 20⟩ [] 1 [] rfl (by decide) (.inr (by decide)) .nil
  exact (removes_roomy hrun (fresh_roomy (by decide) (by decide))).1

end NginB.HeadersMore
