import NginB.Minify.Stream
import NginB.Program.Ranked

/-! # The minifiers as transition systems

One step is one iteration of a loop. A `Rule` says, for each loop, what an iteration
does with the context and the unread bytes in front of it: the bytes it passes over
and writes, in order, and whether it goes on, calls another loop or leaves. `Step`
puts the rules of a file type to work on a running minifier, with the loops that wait
for the current one.
-/
namespace NginB.Minify
open NginB.Program Relation

inductive Ev
  | skip | copy
  /-- consume a byte and write `c` -/
  | put (c : UInt8)
  /-- write at index `i` of a tag-name cache -/
  | tag (i : ℕ)
  /-- leave this state stack -/
  | stack (s : StateStack)
  /-- `ngx_minify_cache(c, ctx)` -/
  | call (c : List UInt8)
  deriving DecidableEq

namespace Ev

@[simp] def takes : List Ev → ℕ
  | [] => 0
  | .skip :: es | .copy :: es | .put _ :: es => takes es + 1
  | .tag _ :: es | .stack _ :: es | .call _ :: es => takes es

/-- The trace left by the events on the bytes `rest`, oldest item first. -/
@[simp] def items (x : Ctx) : List Ev → List UInt8 → List Item
  | [], _ => []
  | .skip :: es, rest => .skip x.state.top (rest.headD 0) :: items x es rest.tail
  | .copy :: es, rest => .emit x.state.top (rest.headD 0) (rest.headD 0) :: items x es rest.tail
  | .put c :: es, rest => .emit x.state.top (rest.headD 0) c :: items x es rest.tail
  | .tag i :: es, rest => .tagWrite i :: items x es rest
  | .stack s :: es, rest => .stack s :: items x es rest
  | .call c :: es, rest => .cacheCall c x.cache.length rest :: items x es rest

/-- `ngx_minify_cache(c, ctx)` and the skips over what it holds back. -/
def holds (c rest : List UInt8) : List Ev := .call c :: List.replicate rest.length .skip

end Ev

@[simp] theorem Ev.takes_append (es es' : List Ev) :
    Ev.takes (es ++ es') = Ev.takes es + Ev.takes es' := by
  induction es with
  | nil => simp
  | cons e es ih => cases e <;> simp only [List.cons_append, Ev.takes, ih] <;> omega

theorem Ev.items_append (x : Ctx) (es es' : List Ev) : ∀ rest : List UInt8,
    Ev.items x (es ++ es') rest = Ev.items x es rest ++ Ev.items x es' (rest.drop (Ev.takes es)) := by
  induction es with
  | nil => exact fun rest => rfl
  | cons e es ih => intro rest; cases e <;> simp [ih, List.drop_tail]

@[simp] theorem Ev.takes_replicate_skip (n : ℕ) : Ev.takes (List.replicate n .skip) = n := by
  induction n with
  | zero => rfl
  | succ n ih => rw [List.replicate_succ, Ev.takes, ih]

@[simp] theorem Ev.takes_replicate_copy (n : ℕ) : Ev.takes (List.replicate n .copy) = n := by
  induction n with
  | zero => rfl
  | succ n ih => rw [List.replicate_succ, Ev.takes, ih]

theorem Ev.items_replicate_skip (x : Ctx) (n : ℕ) : ∀ rest : List UInt8, n ≤ rest.length →
    Ev.items x (List.replicate n .skip) rest = (rest.take n).map (.skip x.state.top) := by
  induction n with
  | zero => exact fun rest _ => rfl
  | succ n ih =>
    intro rest h
    rcases rest with _ | ⟨b, t⟩
    · exact absurd h (Nat.not_succ_le_zero n)
    · rw [List.replicate_succ, Ev.items, List.tail_cons, ih t (Nat.le_of_succ_le_succ h)]
      rfl

theorem Ev.items_replicate_copy (x : Ctx) (n : ℕ) : ∀ rest : List UInt8, n ≤ rest.length →
    Ev.items x (List.replicate n .copy) rest =
      (rest.take n).map fun b => .emit x.state.top b b := by
  induction n with
  | zero => exact fun rest _ => rfl
  | succ n ih =>
    intro rest h
    rcases rest with _ | ⟨b, t⟩
    · exact absurd h (Nat.not_succ_le_zero n)
    · rw [List.replicate_succ, Ev.items, List.tail_cons, ih t (Nat.le_of_succ_le_succ h)]
      rfl

@[simp] theorem Ev.takes_stacks (l : List StateStack) : Ev.takes (l.map .stack) = 0 := by
  induction l with
  | nil => rfl
  | cons s l ih => rw [List.map_cons, Ev.takes, ih]

@[simp] theorem Ev.items_stacks (x : Ctx) (l : List StateStack) (rest : List UInt8) :
    Ev.items x (l.map .stack) rest = l.map .stack := by
  induction l with
  | nil => rfl
  | cons s l ih => rw [List.map_cons, Ev.items, ih, List.map_cons]

theorem Ev.holds_ne_stacks (c rest : List UInt8) (l : List StateStack) :
    Ev.holds c rest ≠ l.map .stack := by
  intro h
  cases l with
  | nil => exact List.cons_ne_nil _ _ h
  | cons s l => exact nomatch (List.cons.inj h).1

@[simp] theorem Ev.takes_holds (c rest : List UInt8) : Ev.takes (Ev.holds c rest) = rest.length :=
  Ev.takes_replicate_skip _

@[simp] theorem Ev.items_holds (x : Ctx) (c rest : List UInt8) :
    Ev.items x (Ev.holds c rest) rest =
      .cacheCall c x.cache.length rest :: rest.map (.skip x.state.top) := by
  have hskip := Ev.items_replicate_skip x rest.length rest (Nat.le_refl _)
  rw [List.take_length] at hskip
  rw [Ev.holds, Ev.items, hskip]

/-- The items of an iteration do not tell of iterations. -/
theorem Ev.turn_notMem_items (x x' : Ctx) (r : Routine) (u : List UInt8) (d : ℕ) (es : List Ev) :
    ∀ rest : List UInt8, Item.turn r x' u d ∉ Ev.items x es rest := by
  induction es with
  | nil => exact fun rest hmem => (List.not_mem_nil hmem).elim
  | cons e es ih => cases e <;> simp [ih]

@[simp] def Item.emitted : Item → List UInt8
  | .emit _ _ c => [c]
  | _ => []

@[simp] def Item.consumed : Item → List UInt8
  | .skip _ b | .emit _ b _ => [b]
  | _ => []

/-- The bytes written in a trace; newest first, as the trace is. -/
def emitted (tr : List Item) : List UInt8 := tr.flatMap Item.emitted

/-- The bytes consumed in a trace; newest first, as the trace is. -/
def consumed (tr : List Item) : List UInt8 := tr.flatMap Item.consumed

@[simp] theorem emitted_nil : emitted [] = [] := rfl

@[simp] theorem emitted_cons (i : Item) (tr : List Item) :
    emitted (i :: tr) = i.emitted ++ emitted tr := rfl

@[simp] theorem emitted_append (l tr : List Item) : emitted (l ++ tr) = emitted l ++ emitted tr :=
  List.flatMap_append

@[simp] theorem consumed_nil : consumed [] = [] := rfl

@[simp] theorem consumed_cons (i : Item) (tr : List Item) :
    consumed (i :: tr) = i.consumed ++ consumed tr := rfl

@[simp] theorem consumed_append (l tr : List Item) :
    consumed (l ++ tr) = consumed l ++ consumed tr := List.flatMap_append

@[simp] theorem emitted_skips (st : MinifyState) (l : List UInt8) :
    emitted (l.map (.skip st)).reverse = [] := by
  induction l with
  | nil => rfl
  | cons b l ih => rw [List.map_cons, List.reverse_cons, emitted_append, ih]; rfl

@[simp] theorem emitted_copies (st : MinifyState) (l : List UInt8) :
    emitted (l.map fun b => .emit st b b).reverse = l.reverse := by
  induction l with
  | nil => rfl
  | cons b l ih => rw [List.map_cons, List.reverse_cons, emitted_append, ih, List.reverse_cons]; rfl

@[simp] theorem emitted_stacks (l : List StateStack) : emitted (l.map .stack).reverse = [] := by
  induction l with
  | nil => rfl
  | cons s l ih => rw [List.map_cons, List.reverse_cons, emitted_append, ih]; rfl

@[simp] theorem consumed_stacks (l : List StateStack) : consumed (l.map .stack).reverse = [] := by
  induction l with
  | nil => rfl
  | cons s l ih => rw [List.map_cons, List.reverse_cons, consumed_append, ih]; rfl

@[simp] theorem consumed_skips (st : MinifyState) (l : List UInt8) :
    consumed (l.map (.skip st)).reverse = l.reverse := by
  induction l with
  | nil => rfl
  | cons b l ih => rw [List.map_cons, List.reverse_cons, consumed_append, ih, List.reverse_cons]; rfl

@[simp] theorem consumed_copies (st : MinifyState) (l : List UInt8) :
    consumed (l.map fun b => .emit st b b).reverse = l.reverse := by
  induction l with
  | nil => rfl
  | cons b l ih => rw [List.map_cons, List.reverse_cons, consumed_append, ih, List.reverse_cons]; rfl

inductive Next
  | again | leave
  | call (r : Routine)
  deriving DecidableEq

/-- The iterations of each loop: from `dstlen`, a context and unread bytes, the events, the
context after them and what follows. -/
abbrev Rule := ℕ → Ctx → Routine → List UInt8 → List Ev → Ctx → Next → Prop

/-- The context with all unread bytes held back; the text states reset `nochange_pre` first. -/
inductive Ctx.Held (x : Ctx) (rest : List UInt8) : Ctx → Prop
  | plain : Held x rest (x.hold rest)
  | text (hs : x.state.top = .text) : Held x rest ((x.hold rest).freeze false)

theorem Ctx.Held.cache {x y : Ctx} {rest : List UInt8} (h : x.Held rest y) : y.cache = rest := by
  cases h <;> rfl

theorem Ctx.Held.state {x y : Ctx} {rest : List UInt8} (h : x.Held rest y) : y.state = x.state := by
  cases h <;> rfl

/-- An iteration that does no more than hold all unread bytes back. -/
structure Holds (x : Ctx) (rest : List UInt8) (es : List Ev) (y : Ctx) (nxt : Next) : Prop where
  ctx : x.Held rest y
  again : nxt = .again
  events : ∃ c, es = Ev.holds c rest

def Routine.refreshes : Routine → Bool
  | .htmlStripBuffer | .htmlStripTagname | .cssStripBuffer | .cssStripBrace | .jsStripBuffer => true
  | _ => false

def Routine.finish (r : Routine) (c : Conf Stream) : Conf Stream :=
  if r.refreshes then c.refreshPre else c

/-- An iteration of `r` with events `es` that ends in context `x`. -/
def Conf.turned (c : Conf Stream) (r : Routine) (es : List Ev) (x : Ctx) : Conf Stream where
  ctx := x
  buf :=
    { rest := c.buf.rest.drop (Ev.takes es)
      out := emitted (Ev.items c.ctx es c.buf.rest).reverse ++ c.buf.out }
  trace := (Ev.items c.ctx es c.buf.rest).reverse ++
    .turn r c.ctx c.buf.rest c.buf.out.length :: c.trace

/-- A running minifier at the head of the loop `r`, with the loops that wait for it. -/
structure At where
  r : Routine
  callers : List Routine
  conf : Conf Stream

/-- The loop that is next after an iteration of `r`, and the loops that wait then. -/
inductive Next.Goes (r : Routine) : Next → List Routine → Routine → List Routine → Prop
  | again {k} : Goes r .again k r k
  | call {r' k} : Goes r (.call r') k r' (r :: k)
  | leave {r' k} : Goes r .leave (r' :: k) r' k

/-- The end of an iteration after which `r` is next: a call does not end the iteration. -/
def Next.ends (nxt : Next) (r : Routine) (c : Conf Stream) : Conf Stream :=
  match nxt with
  | .call _ => c
  | _ => r.finish c

inductive Step (rule : Rule) : At → At → Prop
  | turn {r k c es x nxt r' k'} (hne : c.buf.rest ≠ [])
      (h : rule c.buf.out.length c.ctx r c.buf.rest es x nxt) (hgo : nxt.Goes r k r' k') :
      Step rule ⟨r, k, c⟩ ⟨r', k', nxt.ends r' (c.turned r es x)⟩
  | done {r r' k c} (hnil : c.buf.rest = []) :
      Step rule ⟨r, r' :: k, c⟩ ⟨r', k, r'.finish c⟩

/-- A minifier: its rules, its outermost loop, the loops that can wait for each loop, and the
contexts in which each loop can start an iteration on some unread bytes, ranked by how the
iterations on one byte follow each other. The rules apply on every byte, and they keep all that. -/
structure Machine where
  rule : Rule
  top : Routine
  callers : Routine → List Routine → Prop
  Fit : Routine → Ctx → List UInt8 → Prop
  rank : Routine → MinifyState → ℕ
  rank_lt : ∀ r st, rank r st < 16
  callers_top : callers top []
  callers_lt : ∀ {r k}, callers r k → k.length < 16
  takes_le : ∀ {d x r rest es y nxt}, rule d x r rest es y nxt → Ev.takes es ≤ rest.length
  applies : ∀ {x r rest} (d : ℕ), Fit r x rest → rest ≠ [] → ∃ es y nxt, rule d x r rest es y nxt
  keeps : ∀ {d x r rest es y nxt k r' k'}, rule d x r rest es y nxt → Fit r x rest → rest ≠ [] →
    callers r k → nxt.Goes r k r' k' → callers r' k' ∧ Fit r' y (rest.drop (Ev.takes es))
  lowers : ∀ {d x r rest es y nxt k r' k'}, rule d x r rest es y nxt → Fit r x rest →
    callers r k → nxt.Goes r k r' k' →
    0 < Ev.takes es ∨ rank r' y.state.top < rank r x.state.top
  idle : ∀ {r x rest}, Fit r x rest → x.cache = [] ∨ rest = []
  holds : ∀ {d x r rest es y nxt}, rule d x r rest es y nxt → x.cache = [] →
    y.cache = [] ∨ Holds x rest es y nxt
  done : ∀ {r x r' k}, Fit r x [] → callers r (r' :: k) → callers r' k ∧ Fit r' x []
  pre : ∀ {r x rest} (p q : UInt8), Fit r x rest → Fit r { x with preChar := p, preChar2 := q } rest
  start : ∀ rest, Fit top Ctx.zero rest
  resume : ∀ {x} (buf : List UInt8), Fit top x [] → Fit top (x.hold []) (x.cache ++ buf)

/-- After a step no byte is held back while others are unread. -/
theorem held_of_holds {x y : Ctx} {rest : List UInt8} {es : List Ev} {nxt : Next}
    (h : y.cache = [] ∨ Holds x rest es y nxt) : y.cache = [] ∨ rest.drop (Ev.takes es) = [] := by
  rcases h with h | h
  · exact .inl h
  · obtain ⟨c, rfl⟩ := h.events
    exact .inr (by simp)

theorem Conf.refreshPre_eq (c : Conf Stream) : ∃ p q,
    c.refreshPre = { c with ctx := { c.ctx with preChar := p, preChar2 := q } } := by
  unfold Conf.refreshPre
  split
  · exact ⟨_, _, rfl⟩
  · split
    · exact ⟨_, _, rfl⟩
    · split
      · exact ⟨_, _, rfl⟩
      · exact ⟨_, _, rfl⟩

theorem Routine.finish_eq (r : Routine) (c : Conf Stream) : ∃ p q,
    r.finish c = { c with ctx := { c.ctx with preChar := p, preChar2 := q } } := by
  unfold Routine.finish
  split
  · exact c.refreshPre_eq
  · exact ⟨_, _, rfl⟩

theorem Next.ends_eq (nxt : Next) (r : Routine) (c : Conf Stream) : ∃ p q,
    nxt.ends r c = { c with ctx := { c.ctx with preChar := p, preChar2 := q } } := by
  unfold Next.ends
  split
  · exact ⟨_, _, rfl⟩
  · exact r.finish_eq c

namespace Machine
variable (M : Machine)

structure Good (p : At) : Prop where
  callers : M.callers p.r p.callers
  fit : M.Fit p.r p.conf.ctx p.conf.buf.rest

/-- Without unread bytes the waiting loops are left one after the other. -/
def measure (p : At) : ℕ :=
  if p.conf.buf.rest = [] then p.callers.length
  else 16 * p.conf.buf.rest.length + M.rank p.r p.conf.ctx.state.top

theorem good_step {p q : At} (hp : M.Good p) (h : Step M.rule p q) : M.Good q := by
  cases h with
  | @turn r k c es x nxt r' k' hne h hgo =>
    obtain ⟨a, b, he⟩ := nxt.ends_eq r' (c.turned r es x)
    obtain ⟨hk, hf⟩ := M.keeps h hp.fit hne hp.callers hgo
    rw [he]
    exact ⟨hk, M.pre a b hf⟩
  | @done r r' k c hnil =>
    obtain ⟨a, b, he⟩ := r'.finish_eq c
    have hfit := hp.fit
    rw [hnil] at hfit
    obtain ⟨hk, hf⟩ := M.done hfit hp.callers
    rw [he]
    refine ⟨hk, M.pre a b ?_⟩
    rw [hnil]
    exact hf

theorem measure_step {p q : At} (hp : M.Good p) (h : Step M.rule p q) :
    M.measure q < M.measure p := by
  have hq := M.good_step hp h
  cases h with
  | @turn r k c es x nxt r' k' hne h hgo =>
    obtain ⟨a, b, he⟩ := nxt.ends_eq r' (c.turned r es x)
    have hlt : k'.length < 16 := M.callers_lt hq.callers
    have htakes := M.takes_le h
    have hpos : 0 < c.buf.rest.length := List.length_pos_of_ne_nil hne
    have hrank := M.rank_lt r' x.state.top
    have hlow := M.lowers h hp.fit hp.callers hgo
    rw [he]
    simp only [measure, Conf.turned, List.length_drop, if_neg hne]
    split <;> omega
  | @done r r' k c hnil =>
    obtain ⟨a, b, he⟩ := r'.finish_eq c
    rw [he]
    simp only [measure, if_pos hnil, List.length_cons]
    omega

def ranked : Ranked (Step M.rule) where
  good := M.Good
  rank := M.measure
  keeps := M.good_step
  lowers := M.measure_step

theorem measure_lt {r : Routine} {k : List Routine} {c : Conf Stream} {n : ℕ}
    (hk : M.callers r k) (hn : c.buf.rest.length ≤ n) : M.measure ⟨r, k, c⟩ < 16 * n + 16 := by
  have hlt := M.callers_lt hk
  have hrank := M.rank_lt r c.ctx.state.top
  unfold measure
  split
  · simp only
    omega
  · simp only
    omega

section Loops
variable {r r' : Routine} {k : List Routine} {c : Conf Stream} {fuel : ℕ}

/-- The loop `r`, called from `r'`, runs to its end and follows the rules on its way back. -/
def Serves (x : MinifyM Stream Unit) (r r' : Routine) (k : List Routine) (c : Conf Stream) : Prop :=
  ∃ t, x.run c = .ok ((), t) ∧ TransGen (Step M.rule) ⟨r, r' :: k, c⟩ ⟨r', k, r'.finish t⟩

def Turns (body : MinifyM Stream Bool) (r r' : Routine) (k : List Routine) (c : Conf Stream) : Prop :=
  Ranked.TurnFollows (Step M.rule) (fun c => ⟨r, r' :: k, c⟩)
    (fun p t => TransGen (Step M.rule) p ⟨r', k, r'.finish t⟩) body c

def TopTurns (body : MinifyM Stream Bool) (c : Conf Stream) : Prop :=
  ∃ t, body.run c = .ok (false, t) ∧ TransGen (Step M.rule) ⟨M.top, [], c⟩ ⟨M.top, [], t⟩

theorem countNonzero_run (c : Conf Stream) :
    (countNonzero (B := Stream)).run c = .ok (decide (c.buf.rest ≠ []), c) := by
  rw [countNonzero, bind_run (count_run c)]
  simp [List.length_eq_zero_iff]

theorem countPositive_run (c : Conf Stream) :
    (countPositive (B := Stream)).run c = .ok (decide (c.buf.rest ≠ []), c) := by
  rw [countPositive, bind_run (count_run c)]
  simp [List.length_pos_iff]

/-- A turn that runs one rule and calls no loop. -/
theorem turns_rule {body : MinifyM Stream Bool} {es : List Ev} {y : Ctx} {nxt : Next}
    (hne : c.buf.rest ≠ []) (h : M.rule c.buf.out.length c.ctx r c.buf.rest es y nxt) (hn : ∀ r', nxt ≠ .call r')
    (hrun : body.run c = .ok (decide (nxt = .leave),
      if nxt = .leave then c.turned r es y else r.finish (c.turned r es y))) :
    M.Turns body r r' k c := by
  cases nxt with
  | again => exact .inl ⟨_, hrun, .single (.turn hne h .again)⟩
  | leave => exact .inr ⟨_, hrun, .single (.turn hne h .leave)⟩
  | call r' => exact absurd rfl (hn r')

theorem turns_call {body callee : MinifyM Stream Bool} {x : MinifyM Stream Unit} {r₁ : Routine}
    {es : List Ev} {y : Ctx} (hne : c.buf.rest ≠ []) (h : M.rule c.buf.out.length c.ctx r c.buf.rest es y (.call r₁))
    (hrun : body.run c = callee.run (c.turned r es y))
    (hcallee : ∀ t, x.run (c.turned r es y) = .ok ((), t) →
      callee.run (c.turned r es y) = .ok (false, r.finish t))
    (hx : M.Serves x r₁ r k (c.turned r es y)) :
    ∃ t, body.run c = .ok (false, t) ∧ TransGen (Step M.rule) ⟨r, k, c⟩ ⟨r, k, t⟩ := by
  obtain ⟨t, ht, hpath⟩ := hx
  exact ⟨r.finish t, hrun.trans (hcallee t ht), .head (.turn hne h .call) hpath⟩

theorem loop_serves {body : MinifyM Stream Bool}
    (hbody : ∀ c, M.Good ⟨r, r' :: k, c⟩ → M.measure ⟨r, r' :: k, c⟩ < fuel → c.buf.rest ≠ [] →
      M.Turns body r r' k c) (hc : M.Good ⟨r, r' :: k, c⟩) (hf : M.measure ⟨r, r' :: k, c⟩ < fuel) :
    M.Serves (loop .outOfFuel countNonzero body fuel) r r' k c :=
  M.ranked.loop (fun c => ⟨r, r' :: k, c⟩)
    (fun p t => TransGen (Step M.rule) p ⟨r', k, r'.finish t⟩) (fun c => c.buf.rest ≠ [])
    (fun hpath hend => hpath.trans hend) countNonzero_run
    (fun _ _ hnil => .single (.done (not_not.mp hnil))) hbody fuel c hc hf hf

theorem topLoop {body : MinifyM Stream Bool}
    (hbody : ∀ c, M.Good ⟨M.top, [], c⟩ → M.measure ⟨M.top, [], c⟩ < fuel → c.buf.rest ≠ [] →
      M.TopTurns body c) (hc : M.Good ⟨M.top, [], c⟩) (hf : M.measure ⟨M.top, [], c⟩ < fuel) :
    ∃ t, (loop .outOfFuel countPositive body fuel).run c = .ok ((), t) ∧ t.buf.rest = [] ∧
      ReflTransGen (Step M.rule) ⟨M.top, [], c⟩ ⟨M.top, [], t⟩ :=
  M.ranked.loop (fun c => ⟨M.top, [], c⟩)
    (fun p t => t.buf.rest = [] ∧ ReflTransGen (Step M.rule) p ⟨M.top, [], t⟩)
    (fun c => c.buf.rest ≠ []) (fun hpath hend => ⟨hend.1, hpath.to_reflTransGen.trans hend.2⟩) countPositive_run
    (fun _ _ hnil => ⟨not_not.mp hnil, .refl⟩) (fun c hc hf hne => .inl (hbody c hc hf hne)) fuel c hc hf hf

end Loops

end Machine

end NginB.Minify
