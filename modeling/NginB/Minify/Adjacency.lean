import NginB.Minify.Machine

/-! # Bytes that stand next to each other in the output

Two bytes that are written one after the other need not have been neighbours in the
input: `Adjacent R` asks `R` of every such pair and of what happened in between.
-/
namespace NginB.Minify

/-- A byte written in state `st`, and the items after it. -/
structure Written where
  st : MinifyState
  byte : UInt8
  since : List Item

/-- The newest byte written in a trace, whose newest item comes first. -/
def lastWritten : List Item → Option Written
  | [] => none
  | .emit st _ c :: _ => some ⟨st, c, []⟩
  | i :: tr => (lastWritten tr).map fun w => { w with since := i :: w.since }

variable (R : Written → MinifyState → UInt8 → Prop)

/-- `R` holds of each byte written but the first, written in the state given to `R`, and of the
byte written before it. -/
def Adjacent : List Item → Prop
  | [] => True
  | .emit st _ c :: tr => (∀ w ∈ lastWritten tr, R w st c) ∧ Adjacent tr
  | _ :: tr => Adjacent tr

section Read
variable {R} {tr : List Item}

@[simp] theorem lastWritten_nil : lastWritten [] = none := rfl

@[simp] theorem lastWritten_emit (st : MinifyState) (b c : UInt8) :
    lastWritten (.emit st b c :: tr) = some ⟨st, c, []⟩ := rfl

theorem lastWritten_cons {i : Item} (hi : i.emitted = []) : lastWritten (i :: tr) =
    (lastWritten tr).map fun w => { w with since := i :: w.since } := by
  cases i with
  | emit => exact absurd hi (List.cons_ne_nil _ _)
  | _ => rfl

@[simp] theorem lastWritten_tag (i : ℕ) : lastWritten (.tagWrite i :: tr) =
    (lastWritten tr).map fun w => { w with since := .tagWrite i :: w.since } := rfl

@[simp] theorem lastWritten_stack (s : StateStack) : lastWritten (.stack s :: tr) =
    (lastWritten tr).map fun w => { w with since := .stack s :: w.since } := rfl

@[simp] theorem lastWritten_call (a : List UInt8) (n : ℕ) (u : List UInt8) :
    lastWritten (.cacheCall a n u :: tr) =
      (lastWritten tr).map fun w => { w with since := .cacheCall a n u :: w.since } := rfl

@[simp] theorem lastWritten_skip (st : MinifyState) (b : UInt8) : lastWritten (.skip st b :: tr) =
    (lastWritten tr).map fun w => { w with since := .skip st b :: w.since } := rfl

theorem lastWritten_silent {l : List Item} (h : emitted l = []) : lastWritten (l ++ tr) =
    (lastWritten tr).map fun w => { w with since := l ++ w.since } := by
  induction l with
  | nil => simp
  | cons i l ih =>
    rw [emitted_cons] at h
    obtain ⟨hi, hl⟩ := List.append_eq_nil_iff.mp h
    rw [List.cons_append, lastWritten_cons hi, ih hl, Option.map_map]
    rfl

@[simp] theorem adjacent_nil : Adjacent R [] := trivial

@[simp] theorem adjacent_emit (st : MinifyState) (b c : UInt8) :
    Adjacent R (.emit st b c :: tr) ↔ (∀ w ∈ lastWritten tr, R w st c) ∧ Adjacent R tr := Iff.rfl

@[simp] theorem adjacent_tag (i : ℕ) : Adjacent R (.tagWrite i :: tr) ↔ Adjacent R tr := Iff.rfl
@[simp] theorem adjacent_stack (s : StateStack) : Adjacent R (.stack s :: tr) ↔ Adjacent R tr := Iff.rfl

@[simp] theorem adjacent_call (a : List UInt8) (n : ℕ) (u : List UInt8) :
    Adjacent R (.cacheCall a n u :: tr) ↔ Adjacent R tr := Iff.rfl

@[simp] theorem adjacent_skip (st : MinifyState) (b : UInt8) :
    Adjacent R (.skip st b :: tr) ↔ Adjacent R tr := Iff.rfl

theorem lastWritten_append {gap : List Item} (h : emitted gap = []) (st : MinifyState) (b c : UInt8) :
    lastWritten (gap ++ .emit st b c :: tr) = some ⟨st, c, gap⟩ := by
  induction gap with
  | nil => rfl
  | cons i gap ih =>
    rw [emitted_cons] at h
    obtain ⟨hi, hgap⟩ := List.append_eq_nil_iff.mp h
    rw [List.cons_append, lastWritten_cons hi, ih hgap]
    rfl

/-- Every two bytes that stand next to each other in the output are related. -/
theorem Adjacent.apart {newer gap older : List Item} {st st' : MinifyState} {b b' c c' : UInt8}
    (h : Adjacent R (newer ++ .emit st' b' c' :: (gap ++ .emit st b c :: older)))
    (hgap : emitted gap = []) : R ⟨st, c, gap⟩ st' c' := by
  induction newer with
  | nil => exact h.1 _ (lastWritten_append hgap st b c)
  | cons i newer ih =>
    refine ih ?_
    cases i with
    | emit => exact h.2
    | _ => exact h

theorem lastWritten_emitted : (lastWritten tr).map Written.byte = (emitted tr).head? := by
  induction tr with
  | nil => rfl
  | cons i tr ih =>
    cases i with
    | emit => rfl
    | _ =>
      rw [lastWritten_cons rfl, Option.map_map]
      exact ih

end Read

/-- In the output of a response the byte `c`, written in state `st'`, stands next to the byte
`b`, written in state `st`, and `gap` is what the minifier did in between, newest first. -/
def Neighbours (s : Session) (st st' : MinifyState) (b c : UInt8) (gap : List Item) : Prop :=
  emitted gap = [] ∧ ∃ newer older i i',
    s.trace = newer ++ .emit st' i' c :: (gap ++ .emit st i b :: older)

theorem Neighbours.related {R : Written → MinifyState → UInt8 → Prop} {s : Session}
    {st st' : MinifyState} {b c : UInt8} {gap : List Item} (h : Neighbours s st st' b c gap)
    (hadj : Adjacent R s.trace) : R ⟨st, b, gap⟩ st' c := by
  obtain ⟨hgap, newer, older, i, i', htr⟩ := h
  rw [htr] at hadj
  exact hadj.apart hgap

theorem drop_of_getElem? {tr : List Item} {n : ℕ} {i : Item} (h : tr[n]? = some i) :
    i :: tr.drop (n + 1) = tr.drop n := by
  obtain ⟨hlt, he⟩ := List.getElem?_eq_some_iff.mp h
  rw [List.drop_eq_getElem_cons hlt, he]

/-- Neighbours found at positions `m` and `m + n + 1` of the trace. -/
theorem Neighbours.of_getElem? {s : Session} {st st' : MinifyState} {b c i i' : UInt8} {m n : ℕ}
    (hc : s.trace[m]? = some (.emit st' i' c)) (hb : s.trace[m + 1 + n]? = some (.emit st i b))
    (hgap : emitted ((s.trace.drop (m + 1)).take n) = []) :
    Neighbours s st st' b c ((s.trace.drop (m + 1)).take n) := by
  refine ⟨hgap, s.trace.take m, s.trace.drop (m + 1 + n + 1), i, i', ?_⟩
  have hold : s.trace.drop (m + 1 + n) = (s.trace.drop (m + 1)).drop n := by rw [List.drop_drop]
  rw [drop_of_getElem? hb, hold, List.take_append_drop, drop_of_getElem? hc, List.take_append_drop]

end NginB.Minify
