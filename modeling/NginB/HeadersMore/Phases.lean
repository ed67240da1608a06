import Mathlib.Data.List.Basic
import Mathlib.Logic.Function.Basic
import Mathlib.Data.Int.Notation

/-! # The handler of the rewrite phase

`ngx_http_headers_more_handler` is to run behind all other handlers of its phase. The first time that
it is called it moves itself to the end of the phase, in the array that all requests of the worker go
through.
-/
namespace NginB.HeadersMore

variable {η : Type}

structure PhaseHandler (η : Type) where
  handler : η
  /-- the index of the first handler of the phase behind -/
  next : ℕ

structure Request (η : Type) where
  phaseHandler : ℤ
  /-- the index at which it was put among the handlers -/
  entry : ℕ
  /-- the handlers that have done their work and declined it since then -/
  declined : List η

structure Worker (η : Type) where
  /-- `cmcf->phase_engine.handlers` -/
  handlers : List (PhaseHandler η)
  /-- `hmcf->postponed_to_phase_end` -/
  postponed : Bool
  requests : ℕ → Request η

structure Called (η : Type) where
  handlers : List (PhaseHandler η)
  postponed : Bool
  phaseHandler : ℤ
  /-- whether it returns `NGX_DECLINED` -/
  declines : Bool
  /-- whether it has done its work -/
  worked : Bool

/-- `tmp = *cur_ph`, the `memmove` and `*last_ph = tmp`. -/
def swap (ph : List (PhaseHandler η)) (cur last : ℕ) (tmp : PhaseHandler η) : List (PhaseHandler η) :=
  (ph.take cur ++ ((ph.drop (cur + 1)).take (last - cur) ++ ph.drop last)).set last tmp

/-- `ngx_http_headers_more_handler` of the request at `cur`, which it finds there as `self`. Its
commands fail or not, by `succeeds`. -/
def ngxHttpHeadersMoreHandler (ph : List (PhaseHandler η)) (postponed : Bool) (cur : ℕ)
    (self : PhaseHandler η) (succeeds : Bool) : Called η :=
  if postponed = false ∧ cur < self.next - 1 then
    ⟨swap ph cur (self.next - 1) self, true, (cur : ℤ) - 1, true, false⟩
  else ⟨ph, true, cur, succeeds, succeeds⟩

inductive Event
  /-- the handler at the place of the request is called: it declines, or it waits -/
  | calls (r : ℕ) (declines : Bool)
  /-- the request is put to a place among the handlers: it comes in, is redirected or is finished -/
  | moves (r k : ℕ)

section Steps
variable [DecidableEq η] (more : η)

/-- The call of a handler, and `r->phase_handler++` if it declines. -/
def call (w : Worker η) (r : ℕ) (ph : PhaseHandler η) (declines : Bool) : Worker η :=
  let q := w.requests r
  let c := if ph.handler = more then
      ngxHttpHeadersMoreHandler w.handlers w.postponed q.phaseHandler.toNat ph declines
    else ⟨w.handlers, w.postponed, q.phaseHandler, declines, declines⟩
  { handlers := c.handlers
    postponed := c.postponed
    requests := Function.update w.requests r
      { q with
        phaseHandler := if c.declines then c.phaseHandler + 1 else c.phaseHandler
        declined := if c.worked then q.declined ++ [ph.handler] else q.declined } }

def step (w : Worker η) : Event → Worker η
  | .moves r k => { w with requests := Function.update w.requests r ⟨k, k, []⟩ }
  | .calls r declines =>
    match w.handlers[(w.requests r).phaseHandler.toNat]? with
    | none => w
    | some ph => call more w r ph declines

end Steps

/-- The handlers of a worker as they are configured, the phase of `more` in the middle of them. -/
structure Setup (η : Type) where
  more : η
  before : List (PhaseHandler η)
  front : List (PhaseHandler η)
  back : List (PhaseHandler η)
  behind : List (PhaseHandler η)
  unique : ∀ ph ∈ before ++ front ++ (back ++ behind), ph.handler ≠ more

namespace Setup
variable (S : Setup η)

def first : ℕ := S.before.length
def cur : ℕ := (S.before ++ S.front).length
def stop : ℕ := S.cur + 1 + S.back.length
def self : PhaseHandler η := ⟨S.more, S.stop⟩

def configured : List (PhaseHandler η) := S.before ++ S.front ++ S.self :: (S.back ++ S.behind)

def postponed : List (PhaseHandler η) := S.before ++ S.front ++ (S.back ++ S.self :: S.behind)

def order : List η := S.postponed.map PhaseHandler.handler

def start : Worker η where
  handlers := S.configured
  postponed := false
  requests _ := ⟨S.configured.length, S.configured.length, []⟩

/-- A request does not come into the phase but at its first handler. -/
def Allowed : Event → Prop
  | .calls _ _ => True
  | .moves _ k => k ≤ S.first ∨ S.stop ≤ k

variable {S}

theorem first_le_cur : S.first ≤ S.cur := by
  rw [first, cur, List.length_append]
  exact Nat.le_add_right _ _

theorem swap_configured : swap S.configured S.cur (S.stop - 1) S.self = S.postponed := by
  have hlast : S.stop - 1 = S.cur + S.back.length := by
    rw [stop]
    omega
  obtain ⟨y, hy⟩ : ∃ y, (S.self :: S.back).drop S.back.length = [y] :=
    List.length_eq_one_iff.mp (by simp)
  have hdrop : S.configured.drop (S.cur + S.back.length) = y :: S.behind := by
    rw [configured, cur, ← List.drop_drop, List.drop_left, ← List.cons_append,
      List.drop_append_of_le_length (by simp), hy]
    rfl
  have hmove : (S.configured.drop (S.cur + 1)).take S.back.length = S.back := by
    rw [configured, cur, ← List.drop_drop, List.drop_left, List.drop_one, List.tail_cons, List.take_left]
  have htake : S.configured.take S.cur = S.before ++ S.front := by rw [configured, cur, List.take_left]
  rw [swap, hlast, Nat.add_sub_cancel_left, hdrop, hmove, htake, postponed, cur,
    List.set_append_right _ _ (Nat.le_add_right _ _), Nat.add_sub_cancel_left,
    List.set_append_right _ _ (Nat.le_refl _), Nat.sub_self, List.set_cons_zero]

/-- The handlers of the other phases stay where they are, and so do those in front of `self`. -/
theorem getElem?_configured {k : ℕ} (hk : k < S.cur ∨ S.stop ≤ k) : S.configured[k]? = S.postponed[k]? := by
  rw [configured, postponed]
  rcases hk with hk | hk
  · have hk : k < (S.before ++ S.front).length := hk
    rw [List.getElem?_append_left hk, List.getElem?_append_left hk]
  · have hle : (S.before ++ S.front).length + 1 + S.back.length ≤ k := hk
    obtain ⟨d, rfl⟩ := Nat.exists_eq_add_of_le hle
    have hd : (S.before ++ S.front).length + 1 + S.back.length + d - (S.before ++ S.front).length =
        S.back.length + d + 1 := by omega
    rw [List.getElem?_append_right (by omega), List.getElem?_append_right (by omega), hd,
      List.getElem?_cons_succ, List.getElem?_append_right (Nat.le_add_right _ _), Nat.add_assoc,
      List.getElem?_append_right (Nat.le_add_right _ _), Nat.add_sub_cancel_left, Nat.add_sub_cancel_left,
      List.getElem?_cons_succ]

theorem configured_cur : S.configured[S.cur]? = some S.self := by
  rw [configured, cur, List.getElem?_append_right (Nat.le_refl _), Nat.sub_self]
  rfl

theorem eq_cur {k : ℕ} {ph : PhaseHandler η} (h : S.configured[k]? = some ph) (hm : ph.handler = S.more) :
    k = S.cur := by
  by_contra hne
  refine S.unique ph ?_ hm
  rw [configured] at h
  have hlen : S.cur = (S.before ++ S.front).length := rfl
  by_cases hk : k < S.cur
  · rw [List.getElem?_append_left (by omega)] at h
    exact List.mem_append_left _ (List.mem_of_getElem? h)
  · obtain ⟨d, hd⟩ : ∃ d, k - (S.before ++ S.front).length = d + 1 := ⟨k - S.cur - 1, by omega⟩
    rw [List.getElem?_append_right (by omega), hd, List.getElem?_cons_succ] at h
    exact List.mem_append_right _ (List.mem_of_getElem? h)

end Setup

/-- What holds of a request: it has been declined by the handlers from its entry on, in their order. -/
structure Request.InOrder (S : Setup η) (q : Request η) : Prop where
  entered : q.entry ≤ S.first ∨ S.stop ≤ q.entry
  behind : (q.entry : ℤ) ≤ q.phaseHandler
  declined : q.declined = (S.order.drop q.entry).take (q.phaseHandler.toNat - q.entry)

/-- What holds of a worker: as long as the handler has not been postponed, no request is behind it. -/
structure Worker.InOrder (S : Setup η) (w : Worker η) : Prop where
  requests : ∀ r, (w.requests r).InOrder S
  handlers : w.handlers = if w.postponed then S.postponed else S.configured
  early : w.postponed = false → ∀ r, (w.requests r).phaseHandler ≤ S.cur ∨ S.stop ≤ (w.requests r).entry

section Runs
variable {S : Setup η} {w : Worker η} {q : Request η} {ph : PhaseHandler η} {r k : ℕ} {e : Event}

theorem Request.InOrder.enters (hk : k ≤ S.first ∨ S.stop ≤ k) : Request.InOrder S ⟨k, k, []⟩ where
  entered := hk
  behind := Int.le_refl _
  declined := by simp

/-- A handler that does its work and declines the request. -/
theorem Request.InOrder.declines (h : q.InOrder S) (hph : S.order[q.phaseHandler.toNat]? = some ph.handler) :
    Request.InOrder S ⟨q.phaseHandler + 1, q.entry, q.declined ++ [ph.handler]⟩ where
  entered := h.entered
  behind := Int.le_add_one h.behind
  declined := by
    have hle := h.behind
    have hnext : (q.phaseHandler + 1).toNat - q.entry = q.phaseHandler.toNat - q.entry + 1 := by omega
    have hget : (S.order.drop q.entry)[q.phaseHandler.toNat - q.entry]? = some ph.handler := by
      rw [List.getElem?_drop, Nat.add_sub_cancel' (by omega), hph]
    rw [hnext, List.take_add_one, hget, h.declined]
    rfl

theorem Worker.InOrder.start : S.start.InOrder S where
  requests _ := .enters (.inr (by simp [Setup.configured, Setup.stop, Setup.cur]; omega))
  handlers := rfl
  early _ _ := .inr (by simp [Setup.start, Setup.configured, Setup.stop, Setup.cur]; omega)

theorem order_get (h : S.postponed[k]? = some ph) : S.order[k]? = some ph.handler := by
  rw [Setup.order, List.getElem?_map, h]
  rfl

/-- A step that changes one request and neither the handlers nor the flag. -/
theorem Worker.InOrder.update (h : w.InOrder S) (hq : q.InOrder S)
    (hearly : w.postponed = false → q.phaseHandler ≤ S.cur ∨ S.stop ≤ q.entry) :
    Worker.InOrder S { w with requests := Function.update w.requests r q } where
  requests := (Function.forall_update_iff w.requests fun _ q => q.InOrder S).mpr
    ⟨hq, fun r' _ => h.requests r'⟩
  handlers := h.handlers
  early hw := (Function.forall_update_iff w.requests fun _ q => q.phaseHandler ≤ S.cur ∨ S.stop ≤ q.entry).mpr
    ⟨hearly hw, fun r' _ => h.early hw r'⟩

/-- The call of a handler that leaves the handlers as they are. -/
theorem Worker.InOrder.called (h : w.InOrder S) (declines : Bool)
    (hph : S.postponed[(w.requests r).phaseHandler.toNat]? = some ph)
    (hearly : w.postponed = false → (w.requests r).phaseHandler < S.cur ∨ S.stop ≤ (w.requests r).entry) :
    Worker.InOrder S { w with
      requests := Function.update w.requests r
        { w.requests r with
          phaseHandler := if declines then (w.requests r).phaseHandler + 1 else (w.requests r).phaseHandler
          declined := if declines then (w.requests r).declined ++ [ph.handler]
            else (w.requests r).declined } } := by
  refine h.update ?_ fun hw => ?_
  · cases declines with
    | true => exact (h.requests r).declines (order_get hph)
    | false => exact h.requests r
  · have hcases := hearly hw
    cases declines <;> simp <;> omega

theorem Worker.InOrder.postponed (h : w.InOrder S) :
    Worker.InOrder S { w with handlers := S.postponed, postponed := true } where
  requests := h.requests
  handlers := rfl
  early hfalse := absurd hfalse (by simp)

/-- The place of a request whose next handler is another one than that of the module. -/
theorem Worker.InOrder.place (h : w.InOrder S)
    (hget : w.handlers[(w.requests r).phaseHandler.toNat]? = some ph)
    (hne : w.postponed = false → (w.requests r).phaseHandler ≠ S.cur) :
    S.postponed[(w.requests r).phaseHandler.toNat]? = some ph ∧
      (w.postponed = false → (w.requests r).phaseHandler < S.cur ∨ S.stop ≤ (w.requests r).entry) := by
  cases hw : w.postponed with
  | true =>
    rw [h.handlers, hw, if_pos rfl] at hget
    exact ⟨hget, fun hfalse => absurd hfalse (by simp)⟩
  | false =>
    have hcases := h.early hw r
    have hbehind := (h.requests r).behind
    have hne := hne hw
    rw [h.handlers, hw, if_neg Bool.false_ne_true, Setup.getElem?_configured (by omega)] at hget
    exact ⟨hget, fun _ => by omega⟩

theorem order_segment {entry : ℕ} (hentry : entry ≤ S.first) (n : ℕ) :
    (S.order.drop entry).take (S.stop - entry + n) =
      (S.before.drop entry).map PhaseHandler.handler ++ ((S.front ++ S.back).map PhaseHandler.handler ++
        S.more :: (S.behind.map PhaseHandler.handler).take n) := by
  have horder : S.order.drop entry = (S.before.drop entry).map PhaseHandler.handler ++
      ((S.front ++ S.back).map PhaseHandler.handler ++ [S.more]) ++ S.behind.map PhaseHandler.handler := by
    rw [Setup.order, ← List.map_drop, Setup.postponed, List.append_assoc,
      List.drop_append_of_le_length hentry]
    simp [Setup.self]
  have hlen : ((S.before.drop entry).map PhaseHandler.handler ++
      ((S.front ++ S.back).map PhaseHandler.handler ++ [S.more])).length = S.stop - entry := by
    have hle : entry ≤ S.before.length := hentry
    simp [Setup.stop, Setup.cur]
    omega
  rw [horder, ← hlen, List.take_length_add_append]
  simp

variable [DecidableEq η]

theorem Worker.InOrder.call_self (h : w.InOrder S) (declines : Bool)
    (hget : w.handlers[(w.requests r).phaseHandler.toNat]? = some ph) (hm : ph.handler = S.more) :
    (call S.more w r ph declines).InOrder S := by
  have hbehind := (h.requests r).behind
  have hnat : (((w.requests r).phaseHandler.toNat : ℕ) : ℤ) = (w.requests r).phaseHandler :=
    Int.toNat_of_nonneg (by omega)
  simp only [call, if_pos hm, ngxHttpHeadersMoreHandler, hnat]
  cases hw : w.postponed with
  | true =>
    obtain ⟨hph, hearly⟩ := h.place hget fun hfalse => absurd (hw.symm.trans hfalse) (by simp)
    have hcalled := h.called declines hph hearly
    simpa [hw] using hcalled
  | false =>
    have hat := h.handlers
    rw [hw, if_neg Bool.false_ne_true] at hat
    rw [hat] at hget
    have hcur := Setup.eq_cur hget hm
    rw [hcur, Setup.configured_cur] at hget
    obtain rfl := Option.some.inj hget
    have hpostponed := h.postponed
    by_cases hlast : S.cur < S.self.next - 1
    · -- nothing of the request is changed: it is decremented and incremented
      have hsame : { w.requests r with phaseHandler := (w.requests r).phaseHandler - 1 + 1 } = w.requests r := by
        rw [Int.sub_add_cancel]
      simp only [hcur, if_pos (And.intro trivial hlast), if_true, Bool.false_eq_true, if_false, hsame,
        Function.update_eq_self, hat]
      have hswap : swap S.configured S.cur (S.self.next - 1) S.self = S.postponed := Setup.swap_configured
      rw [hswap]
      exact hpostponed
    · have hback : S.back = [] := by
        have hstop : S.self.next = S.cur + 1 + S.back.length := rfl
        exact List.length_eq_zero_iff.mp (by omega)
      have hsame : S.configured = S.postponed := by
        rw [Setup.configured, Setup.postponed, hback, List.nil_append, List.nil_append]
      have hph : S.postponed[(w.requests r).phaseHandler.toNat]? = some S.self := by
        rw [hcur, ← hsame, Setup.configured_cur]
      have hcalled := hpostponed.called declines hph fun hfalse => absurd hfalse (by simp)
      simpa [hcur, hlast, hat, hsame] using hcalled

theorem Worker.InOrder.step (h : w.InOrder S) (he : S.Allowed e) : (step S.more w e).InOrder S := by
  cases e with
  | moves r k =>
    refine h.update (.enters he) fun _ => ?_
    have hle := S.first_le_cur
    rcases he with he | he
    · exact .inl (by simp; omega)
    · exact .inr he
  | calls r declines =>
    rw [NginB.HeadersMore.step]
    split
    · exact h
    · next ph hget =>
      by_cases hm : ph.handler = S.more
      · exact h.call_self declines hget hm
      · have hself : w.postponed = false → (w.requests r).phaseHandler ≠ S.cur := by
          intro hw hcur
          rw [h.handlers, hw, if_neg Bool.false_ne_true, hcur, Int.toNat_natCast, Setup.configured_cur] at hget
          obtain rfl := Option.some.inj hget
          exact hm rfl
        obtain ⟨hph, hearly⟩ := h.place hget hself
        rw [call]
        simp only [if_neg hm]
        exact h.called _ hph hearly

theorem Worker.InOrder.run {es : List Event} (h : w.InOrder S) (hes : ∀ e ∈ es, S.Allowed e) :
    (es.foldl (NginB.HeadersMore.step S.more) w).InOrder S := by
  induction es generalizing w with
  | nil => exact h
  | cons e es ih =>
    rw [List.forall_mem_cons] at hes
    exact ih (h.step hes.1) hes.2

/-- Whatever the requests of a worker are and however they take turns, and whichever of them is the
first to come to the handler of the module: every request is declined by the handlers from its entry on
one after the other, in one order for all of them. One that has come through the phase has met every
handler of it, that of the module once and behind the others. -/
theorem worked_in_order {es : List Event} (hes : ∀ e ∈ es, S.Allowed e) (r : ℕ) :
    let q := (es.foldl (NginB.HeadersMore.step S.more) S.start).requests r
    (q.entry ≤ q.phaseHandler ∧
      q.declined = (S.order.drop q.entry).take (q.phaseHandler.toNat - q.entry)) ∧
    (q.entry ≤ S.first → S.stop ≤ q.phaseHandler → ∃ pre post,
      q.declined = pre ++ ((S.front ++ S.back).map PhaseHandler.handler ++ S.more :: post) ∧
        S.more ∉ pre ∧ S.more ∉ post ∧ S.more ∉ (S.front ++ S.back).map PhaseHandler.handler) := by
  have h := (Worker.InOrder.start.run hes).requests r
  intro q
  refine ⟨⟨h.behind, h.declined⟩, fun hentry hstop => ?_⟩
  have hmem : ∀ l : List (PhaseHandler η), (∀ ph ∈ l, ph ∈ S.before ++ S.front ++ (S.back ++ S.behind)) →
      S.more ∉ l.map PhaseHandler.handler := by
    intro l hl hm
    obtain ⟨ph, hph, he⟩ := List.mem_map.mp hm
    exact S.unique ph (hl ph hph) he
  obtain ⟨n, hn⟩ : ∃ n, q.phaseHandler.toNat - q.entry = S.stop - q.entry + n :=
    ⟨q.phaseHandler.toNat - q.entry - (S.stop - q.entry), by omega⟩
  have hdeclined : q.declined = (S.order.drop q.entry).take (q.phaseHandler.toNat - q.entry) := h.declined
  rw [hn, order_segment hentry] at hdeclined
  refine ⟨_, _, hdeclined, hmem _ fun ph hph => ?_,
    fun hm => hmem S.behind (fun ph hph => ?_) (List.mem_of_mem_take hm), hmem _ fun ph hph => ?_⟩
  · have hph' := List.mem_of_mem_drop hph
    simp [hph']
  · simp [hph]
  · simp only [List.mem_append] at hph ⊢
    tauto

end Runs

/-- Three handlers in the phase, that of the module in the middle. -/
def threeHandlers : Setup ℕ where
  more := 0
  before := []
  front := [⟨1, 3⟩]
  back := [⟨2, 3⟩]
  behind := [⟨3, 4⟩]
  unique := by simp

def twoRequests : List Event :=
  [.moves 0 0, .moves 1 0, .calls 0 true, .calls 1 true, .calls 0 true, .calls 1 true, .calls 1 true,
    .calls 0 true, .calls 0 true]

theorem worked_in_order_twoRequests : ∃ pre post,
    ((twoRequests.foldl (step 0) threeHandlers.start).requests 0).declined = pre ++ ([1, 2] ++ 0 :: post) := by
  have hes : ∀ e ∈ twoRequests, threeHandlers.Allowed e := by
    simp [twoRequests, Setup.Allowed, Setup.first]
  obtain ⟨-, h⟩ := worked_in_order hes 0
  obtain ⟨pre, post, hdeclined, -⟩ := h (by decide) (by decide)
  exact ⟨pre, post, hdeclined⟩

end NginB.HeadersMore
