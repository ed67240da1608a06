import NginB.Minify.Filter

/-! # Primitives on lists

What each primitive does to a minifier that reads from a list whose first bytes are
known. These lemmas execute the text of the minifiers symbolically.
-/
namespace NginB.Minify
open NginB.Program Ascii

@[simp] theorem unread_stream (s : Stream) : unread s = s.rest := by
  apply List.ext_getElem
  · simp [unread, Buffer.count]
  · intro k hk hk'
    simp [unread, Buffer.rposAt, hk']

section Context
variable {B : Type} (c : Conf B)

@[simp] theorem getCtx_run : (getCtx (B := B)).run c = .ok (c.ctx, c) := rfl
@[simp] theorem ctxState_run : (ctxState (B := B)).run c = .ok (c.ctx.state.top, c) := rfl

@[simp] theorem modifyCtx_run (f : Ctx → Ctx) :
    (modifyCtx (B := B) f).run c = .ok ((), c.modifyCtx f) := rfl

@[simp] theorem ctxSetState_run (s : MinifyState) :
    (ctxSetState (B := B) s).run c = .ok ((), c.setStack fun _ => ⟨s, []⟩) := rfl

@[simp] theorem ctxPushState_run {s : MinifyState} (h : c.ctx.state.below.length < 7) :
    (ctxPushState (B := B) s).run c =
      .ok ((), c.setStack (StateStack.push s)) :=
  modifyIf_run (show c.ctx.state.below.length + 1 < 8 by omega)

@[simp] theorem ctxPopState_run (h : c.ctx.state.below ≠ []) :
    (ctxPopState (B := B)).run c = .ok ((), c.setStack StateStack.pop) :=
  modifyIf_run h

@[simp] theorem tagWrite_run (fault : Fault) (i : ℕ) (f : Ctx → Ctx) :
    (tagWrite (B := B) none fault i f).run c = .ok ((), c.tagWrite i f) := rfl

end Context

section Reads
variable {x : Ctx} {t out : List UInt8} {tr : List Item}

@[simp] theorem count_run (c : Conf Stream) : (count (B := Stream)).run c = .ok ((c.buf.rest.length : ℤ), c) := rfl
@[simp] theorem dstlen_run (c : Conf Stream) : (dstlen (B := Stream)).run c = .ok (c.buf.out.length, c) := rfl

theorem rposAt_run {c : Conf Stream} {k : ℕ} (h : k < c.buf.rest.length) :
    (rposAt (B := Stream) k).run c = .ok (c.buf.rest.getD k 0, c) :=
  readIf_run (show (k : ℤ) < c.buf.rest.length by omega)

@[simp] theorem rposAt_zero_run (b : UInt8) : (rposAt (B := Stream) 0).run ⟨x, ⟨b :: t, out⟩, tr⟩ =
    .ok (b, ⟨x, ⟨b :: t, out⟩, tr⟩) := rposAt_run (Nat.succ_pos _)

@[simp] theorem rposAt_one_run (a b : UInt8) :
    (rposAt (B := Stream) 1).run ⟨x, ⟨a :: b :: t, out⟩, tr⟩ = .ok (b, ⟨x, ⟨a :: b :: t, out⟩, tr⟩) :=
  rposAt_run (Nat.succ_lt_succ (Nat.succ_pos _))

@[simp] theorem rposAt_two_run (a b c : UInt8) :
    (rposAt (B := Stream) 2).run ⟨x, ⟨a :: b :: c :: t, out⟩, tr⟩ =
      .ok (c, ⟨x, ⟨a :: b :: c :: t, out⟩, tr⟩) :=
  rposAt_run (Nat.succ_lt_succ (Nat.succ_lt_succ (Nat.succ_pos _)))

@[simp] theorem rposAt_four_run (a b c d e : UInt8) :
    (rposAt (B := Stream) 4).run ⟨x, ⟨a :: b :: c :: d :: e :: t, out⟩, tr⟩ =
      .ok (e, ⟨x, ⟨a :: b :: c :: d :: e :: t, out⟩, tr⟩) :=
  rposAt_run (c := ⟨x, ⟨a :: b :: c :: d :: e :: t, out⟩, tr⟩) (k := 4)
    (show 4 < t.length + 5 by omega)

theorem map_getD_eq_take (rest : List UInt8) {n : ℕ} (h : n ≤ rest.length) :
    (List.range n).map (fun k => rest.getD k 0) = rest.take n := by
  apply List.ext_getElem
  · simp [h]
  · intro k hk hk'
    have hlt : k < rest.length := by simp at hk; omega
    simp [hlt]

@[simp] theorem rposIs_run {c : Conf Stream} {a : List UInt8} (h : a.length ≤ c.buf.rest.length) :
    (rposIs (B := Stream) a).run c = .ok (decide (c.buf.rest.take a.length = a), c) := by
  have he := readIf_run (p := fun s : Conf Stream => (a.length : ℤ) ≤ Buffer.count s.buf)
    (e := Fault.readPastEnd)
    (f := fun s => decide ((List.range a.length).map (Buffer.rposAt s.buf) = a)) (s := c)
    (show (a.length : ℤ) ≤ c.buf.rest.length by omega)
  rw [← map_getD_eq_take c.buf.rest h]
  exact he

@[simp] theorem visit_run (r : Routine) : (visit (B := Stream) r).run ⟨x, ⟨t, out⟩, tr⟩ =
    .ok ((), ⟨x, ⟨t, out⟩, .turn r x t out.length :: tr⟩) := by
  have hu := unread_stream ⟨t, out⟩
  change Except.ok ((), (⟨x, ⟨t, out⟩, .turn r x (unread _) _ :: tr⟩ : Conf Stream)) = _
  rw [hu]
  rfl

@[simp] theorem refreshPre_run (c : Conf Stream) :
    (refreshPre (B := Stream)).run c = .ok ((), c.refreshPre) := rfl

@[simp] theorem incRpos_run (b : UInt8) :
    (ngxMinifyIncRpos (B := Stream)).run ⟨x, ⟨b :: t, out⟩, tr⟩ =
      .ok ((), ⟨x, ⟨t, out⟩, .skip x.state.top b :: tr⟩) :=
  modifyIf_run (show (0 : ℤ) < (t.length + 1 : ℕ) by omega)

@[simp] theorem copyChar_run (a b : UInt8) :
    (ngxMinifyCopyChar (B := Stream) a).run ⟨x, ⟨b :: t, out⟩, tr⟩ =
      .ok ((), ⟨x, ⟨t, a :: out⟩, .emit x.state.top b a :: tr⟩) :=
  modifyIf_run (show (0 : ℤ) < (t.length + 1 : ℕ) by omega)

@[simp] theorem copyRpos_run (b : UInt8) :
    (ngxMinifyCopyRpos (B := Stream)).run ⟨x, ⟨b :: t, out⟩, tr⟩ =
      .ok ((), ⟨x, ⟨t, b :: out⟩, .emit x.state.top b b :: tr⟩) := by
  have hread := rposAt_run (c := ⟨x, ⟨b :: t, out⟩, tr⟩) (k := 0) (Nat.succ_pos _)
  rw [ngxMinifyCopyRpos, bind_run hread]
  exact copyChar_run b b

@[simp] theorem incRposTimes_run (n : ℕ) : ∀ (rest : List UInt8) (tr : List Item), n ≤ rest.length →
    (incRposTimes (B := Stream) n).run ⟨x, ⟨rest, out⟩, tr⟩ =
      .ok ((), ⟨x, ⟨rest.drop n, out⟩, ((rest.take n).map (.skip x.state.top)).reverse ++ tr⟩) := by
  induction n with
  | zero => exact fun rest tr _ => rfl
  | succ n ih =>
    intro rest tr h
    rcases rest with _ | ⟨b, t⟩
    · exact absurd h (Nat.not_succ_le_zero n)
    · have hn : n ≤ t.length := Nat.le_of_succ_le_succ h
      simp [incRposTimes, incRpos_run, ih t _ hn]

@[simp] theorem copyRposTimes_run (n : ℕ) : ∀ (rest out : List UInt8) (tr : List Item), n ≤ rest.length →
    (copyRposTimes (B := Stream) n).run ⟨x, ⟨rest, out⟩, tr⟩ =
      .ok ((), ⟨x, ⟨rest.drop n, (rest.take n).reverse ++ out⟩,
        ((rest.take n).map fun b => .emit x.state.top b b).reverse ++ tr⟩) := by
  induction n with
  | zero => exact fun rest out tr _ => rfl
  | succ n ih =>
    intro rest out tr h
    rcases rest with _ | ⟨b, t⟩
    · exact absurd h (Nat.not_succ_le_zero n)
    · have hn : n ≤ t.length := Nat.le_of_succ_le_succ h
      simp [copyRposTimes, copyRpos_run, ih t _ _ hn]

end Reads

/-- Whether the bytes `rest` are the beginning of the literal `c`, in any letter case. -/
def cacheable : List UInt8 → List UInt8 → Bool
  | _, [] => true
  | [], _ :: _ => false
  | a :: c, b :: t => decide (toLower a = toLower b) && cacheable c t

@[simp] def Ctx.hold (rest : List UInt8) (x : Ctx) : Ctx := { x with cache := rest }

/-- The context with `nochange_pre` set or reset. -/
@[simp] def Ctx.freeze (f : Bool) (x : Ctx) : Ctx := { x with nochangePre := f }

@[simp] def Ctx.push (st : MinifyState) (x : Ctx) : Ctx := { x with state := x.state.push st }

@[simp] def Ctx.pop (x : Ctx) : Ctx := { x with state := x.state.pop }

theorem Ctx.hold_nil {x : Ctx} (h : x.cache = []) : x.hold [] = x := by
  rw [Ctx.hold, ← h]

section Calls
variable {B : Type} [Buffer B] {b : B}

theorem rposAt_unread (x : Ctx) (tr : List Item) {k : ℕ} (h : k < (unread b).length) :
    (rposAt (B := B) k).run ⟨x, b, tr⟩ = .ok ((unread b)[k], ⟨x, b, tr⟩) := by
  have hcount : (k : ℤ) < Buffer.count b := by
    rw [unread_length] at h
    omega
  have hget : (unread b)[k] = Buffer.rposAt b k := by simp [unread]
  rw [hget]
  exact readIf_run (p := fun c : Conf B => (k : ℤ) < Buffer.count c.buf) hcount

/-- The loop of `ngx_minify_cache` once it has put the first `i` unread bytes aside. -/
theorem cacheFrom_run (x : Ctx) {rest word : List UInt8} (hb : unread b = rest) (tr : List Item)
    (hc : rest.length ≤ word.length) (h64 : rest.length < 64) (n : ℕ) : ∀ i, i + n = rest.length →
    (cacheFrom (B := B) word i n).run ⟨x.hold (rest.take i), b, tr⟩ =
      if cacheable (word.drop i) (rest.drop i) then .ok (rest.length, ⟨x.hold rest, b, tr⟩)
      else .ok (-1, ⟨x.hold [], b, tr⟩) := by
  subst hb
  induction n with
  | zero =>
    intro i hi
    obtain rfl : i = (unread b).length := by omega
    simp [cacheFrom, cacheable]
  | succ n ih =>
    intro i hi
    have hlt : i < (unread b).length := by omega
    have hlt' : i < word.length := by omega
    have hlit : ∀ s : Conf B, (literalAt word i).run s = .ok (word.getD i 0, s) :=
      fun s => readIf_run (p := fun _ => i ≤ word.length) (Nat.le_of_lt hlt')
    have hread := rposAt_unread (x.hold ((unread b).take i)) tr hlt
    have hget' : word.getD i 0 = word[i] := by simp [hlt']
    have hlen : ((unread b).take i).length = i := by simp; omega
    have hadd : (cacheAdd (B := B) (unread b)[i]).run ⟨x.hold ((unread b).take i), b, tr⟩ =
        .ok ((), ⟨x.hold ((unread b).take (i + 1)), b, tr⟩) := by
      rw [← List.take_append_getElem hlt]
      exact modifyIf_run (show ((unread b).take i).length < 64 by omega)
    rw [cacheFrom, bind_run (hlit _), bind_run hread, hget',
      List.drop_eq_getElem_cons hlt, List.drop_eq_getElem_cons hlt', cacheable]
    by_cases heq : toLower word[i] = toLower (unread b)[i]
    · have hroom : ¬ ctxCacheBuflen ≤ (x.hold ((unread b).take (i + 1))).cache.length := by
        simp only [Ctx.hold, List.length_take, ctxCacheBuflen]
        omega
      rw [if_pos heq, decide_eq_true heq, Bool.true_and, bind_run hadd, bind_run (getCtx_run _),
        if_neg hroom]
      exact ih (i + 1) (by omega)
    · rw [if_neg heq, decide_eq_false heq, Bool.false_and, bind_run (modifyCtx_run _ _),
        if_neg Bool.false_ne_true]
      simp only [Conf.modifyCtx, Ctx.hold, hlen, Nat.sub_self, List.take_zero]
      rfl

/-- `ngx_minify_cache` within its contract, in any kind of buffer. -/
theorem cache_unread_run {x : Ctx} {rest c : List UInt8} (tr : List Item) (hb : unread b = rest)
    (hx : x.cache = []) (hc : rest.length ≤ c.length) (h64 : rest.length < 64) :
    (ngxMinifyCache (B := B) c).run ⟨x, b, tr⟩ =
      if cacheable c rest then
        .ok (rest.length, ⟨x.hold rest, b, .cacheCall c x.cache.length rest :: tr⟩)
      else .ok (-1, ⟨x, b, .cacheCall c x.cache.length rest :: tr⟩) := by
  have hfrom := cacheFrom_run x hb (.cacheCall c x.cache.length rest :: tr) hc h64
    rest.length 0 (Nat.zero_add _)
  have hcall : (modify (Conf.cacheCall c) : MinifyM B Unit).run ⟨x, b, tr⟩ =
      .ok ((), ⟨x, b, .cacheCall c x.cache.length rest :: tr⟩) := by
    change Except.ok ((), (⟨x, b, .cacheCall c x.cache.length (unread b) :: tr⟩ : Conf B)) = _
    rw [hb]
  have hcount : ∀ s : Conf B, (count (B := B)).run s = .ok (Buffer.count s.buf, s) := fun _ => rfl
  have hlen : (Buffer.count b).toNat = rest.length := by rw [← hb, unread_length]
  rw [ngxMinifyCache, bind_run hcall, bind_run (hcount _), hlen]
  rwa [List.take_zero, List.drop_zero, List.drop_zero, Ctx.hold_nil hx] at hfrom

end Calls

theorem cache_run {x : Ctx} {rest out c : List UInt8} {tr : List Item} (hx : x.cache = [])
    (hc : rest.length ≤ c.length) (h64 : rest.length < 64) :
    (ngxMinifyCache (B := Stream) c).run ⟨x, ⟨rest, out⟩, tr⟩ =
      if cacheable c rest then
        .ok (rest.length, ⟨x.hold rest, ⟨rest, out⟩, .cacheCall c x.cache.length rest :: tr⟩)
      else .ok (-1, ⟨x, ⟨rest, out⟩, .cacheCall c x.cache.length rest :: tr⟩) :=
  cache_unread_run _ (unread_stream ⟨rest, out⟩) hx hc h64

/-- `ngx_minify_cache` holds all unread bytes back. -/
theorem cache_hold_run {x : Ctx} {rest out c : List UInt8} {tr : List Item} (hx : x.cache = [])
    (hc : rest.length ≤ c.length) (h64 : c.length < 64) (h : cacheable c rest = true) :
    (ngxMinifyCache (B := Stream) c).run ⟨x, ⟨rest, out⟩, tr⟩ =
      .ok (rest.length, ⟨x.hold rest, ⟨rest, out⟩, .cacheCall c x.cache.length rest :: tr⟩) := by
  rw [cache_run hx hc (Nat.lt_of_le_of_lt hc h64), if_pos h]

theorem cache_miss_run {x : Ctx} {rest out c : List UInt8} {tr : List Item} (hx : x.cache = [])
    (hc : rest.length ≤ c.length) (h64 : c.length < 64) (h : cacheable c rest = false) :
    (ngxMinifyCache (B := Stream) c).run ⟨x, ⟨rest, out⟩, tr⟩ =
      .ok (-1, ⟨x, ⟨rest, out⟩, .cacheCall c x.cache.length rest :: tr⟩) := by
  rw [cache_run hx hc (Nat.lt_of_le_of_lt hc h64), h]
  rfl

end NginB.Minify
