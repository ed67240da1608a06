import NginB.Minify.Delivery
import NginB.Strip.Automaton

/-! # The filters of the strip module

The header filter decides whether a response is stripped, and the body filter then rewrites every
buffer of it in place: `writer` runs behind `reader` in the same memory, and one state is kept from
buffer to buffer.
-/
namespace NginB.Strip
open NginB.Program
open NginB.Minify (NgxBuf Flat lit strncasecmpEq isBlank solid solid_eq_filter)

/-- What the header filter reads and clears. The bytes of `contentType` are those from
`content_type.data` on. -/
structure HeadersOut where
  status : ℕ
  contentType : List UInt8
  contentTypeLen : ℕ
  /-- the length of the value, where the header is there -/
  contentEncoding : Option ℕ
  contentLength : Option ℕ
  acceptRanges : Bool
  deriving DecidableEq

/-- `sizeof("text/html" - 1)` is the size of a pointer. -/
def sizeofPointer : ℕ := 8

/-- `ngx_http_strip_header_filter`, up to the call of the next filter: the headers, and the state in
the context where one is set. `none` is `NGX_ERROR`. -/
def ngxHttpStripHeaderFilter (enable headerOnly pcalloc : Bool) (h : HeadersOut) :
    Option (HeadersOut × Option StripState) :=
  if enable = false ∨ h.status ≠ 200 ∧ h.status ≠ 403 ∧ h.status ≠ 404 ∨ headerOnly = true ∨
      h.contentTypeLen = 0 ∨ h.contentEncoding.getD 0 ≠ 0 then some (h, none)
  else if strncasecmpEq h.contentType (lit "text/html") sizeofPointer = false then some (h, none)
  else if pcalloc = false then none
  else some ({ h with contentLength := none, acceptRanges := false }, some .text)

/-- What the loop of `ngx_http_strip_process_buffer` leaves: the memory of the buffer, the state and
`writer`. -/
structure Pass where
  mem : ℕ → UInt8
  state : StripState
  writer : ℕ

def processFrom (mem : ℕ → UInt8) (s : StripState) (reader writer : ℕ) : ℕ → Pass
  | 0 => ⟨mem, s, writer⟩
  | n + 1 =>
    let t := dispatch s (mem reader)
    let read := Function.update mem reader t.byte
    if t.written then
      processFrom (Function.update read writer t.byte) t.state (reader + 1) (writer + 1) n
    else processFrom read t.state (reader + 1) writer n

def ngxHttpStripProcessBuffer (mem : Minify.Memory) (s : StripState) (b : NgxBuf) :
    Minify.Memory × StripState × NgxBuf :=
  let p := processFrom (mem b.region) s b.pos b.pos (b.last - b.pos)
  (Function.update mem b.region p.mem, p.state, { b with last := p.writer })

def bodyFilterLoop (mem : Minify.Memory) (s : StripState) : List NgxBuf → Minify.Memory × StripState × List NgxBuf
  | [] => (mem, s, [])
  | b :: links =>
    let (m, t, c) := ngxHttpStripProcessBuffer mem s b
    let (m', t', out) := bodyFilterLoop m t links
    (m', t', { c with inFile := false } :: out)

/-- A call of the body filter: the memory as it is then, and the chain. -/
structure Call where
  mem : Minify.Memory
  links : List NgxBuf

/-- `ngx_http_strip_body_filter`, up to the call of the next filter. -/
def ngxHttpStripBodyFilter (ctx : Option StripState) (c : Call) : Option StripState × Call :=
  match ctx with
  | none => (none, c)
  | some s =>
    let (mem, t, out) := bodyFilterLoop c.mem s c.links
    (some t, ⟨mem, out⟩)

/-- The body of a response over any number of calls: the context at its end, and what each of the
calls forwards. -/
def respond : Option StripState → List Call → Option StripState × List Call
  | ctx, [] => (ctx, [])
  | ctx, c :: calls =>
    let (ctx', out) := ngxHttpStripBodyFilter ctx c
    let (end', outs) := respond ctx' calls
    (end', out :: outs)

def window (mem : Minify.Memory) (b : NgxBuf) : List UInt8 :=
  Flat.region (mem b.region) b.pos (b.last - b.pos)

/-- The windows of two buffers do not overlap. -/
def Apart (b c : NgxBuf) : Prop := b.region ≠ c.region ∨ b.last ≤ c.pos ∨ c.last ≤ b.pos

def Call.bytes (c : Call) : List UInt8 := c.links.flatMap (window c.mem)

structure Call.Delivered (c : Call) : Prop where
  ordered : ∀ b ∈ c.links, b.pos ≤ b.last
  apart : c.links.Pairwise Apart

section Regions
variable {mem mem' : ℕ → UInt8} {a n k : ℕ}

theorem region_succ : Flat.region mem a (n + 1) = mem a :: Flat.region mem (a + 1) n := by
  simp [Flat.region, List.range_succ_eq_map, Function.comp_def, Nat.add_assoc, Nat.add_comm 1]

theorem region_congr (h : ∀ i, a ≤ i → i < a + n → mem' i = mem i) :
    Flat.region mem' a n = Flat.region mem a n := by
  refine List.map_congr_left fun i hi => h (a + i) (Nat.le_add_right a i) ?_
  have hlt := List.mem_range.mp hi
  omega

end Regions

structure Passed (mem : ℕ → UInt8) (s : StripState) (reader writer : ℕ) (bytes : List UInt8) (p : Pass) :
    Prop where
  state : p.state = stripper.run s bytes
  length : p.writer = writer + (stripper.out s bytes).length
  bound : p.writer ≤ reader + bytes.length
  out : Flat.region p.mem writer (stripper.out s bytes).length = stripper.out s bytes
  same : ∀ a, a < writer ∨ reader + bytes.length ≤ a → p.mem a = mem a

section Passes
variable {mem m : ℕ → UInt8} {s : StripState} {reader writer : ℕ} {b c : UInt8} {bytes : List UInt8}
  {p : Pass}

theorem Passed.written (h : Passed m (stripper.next s b) (reader + 1) (writer + 1) bytes p)
    (hemit : stripper.emit s b = [c]) (hc : m writer = c)
    (hm : ∀ a, a < writer ∨ reader < a → m a = mem a) : Passed mem s reader writer (b :: bytes) p where
  state := h.state
  length := by
    rw [h.length, Mealy.out_cons, hemit, List.singleton_append, List.length_cons]
    omega
  bound := by
    have hbound := h.bound
    rw [List.length_cons]
    omega
  out := by
    have hfirst : p.mem writer = c := (h.same writer (.inl (Nat.lt_succ_self writer))).trans hc
    rw [Mealy.out_cons, hemit, List.singleton_append, List.length_cons, region_succ, hfirst, h.out]
  same a ha := by
    rw [List.length_cons] at ha
    rw [h.same a (by omega), hm a (by omega)]

theorem Passed.left (h : Passed m (stripper.next s b) (reader + 1) writer bytes p)
    (hemit : stripper.emit s b = []) (hm : ∀ a, a < writer ∨ reader < a → m a = mem a) :
    Passed mem s reader writer (b :: bytes) p where
  state := h.state
  length := by rw [h.length, Mealy.out_cons, hemit, List.nil_append]
  bound := by
    have hbound := h.bound
    rw [List.length_cons]
    omega
  out := by rw [Mealy.out_cons, hemit, List.nil_append, h.out]
  same a ha := by
    rw [List.length_cons] at ha
    rw [h.same a (by omega), hm a (by omega)]

/-- The writer never overtakes the reader, so the bytes ahead are read as they were. -/
theorem processFrom_passed (n : ℕ) : ∀ (mem : ℕ → UInt8) (s : StripState) (reader writer : ℕ),
    writer ≤ reader → Passed mem s reader writer (Flat.region mem reader n)
      (processFrom mem s reader writer n) := by
  induction n with
  | zero => exact fun mem s reader writer hle => ⟨rfl, rfl, hle, rfl, fun _ _ => rfl⟩
  | succ n ih =>
    intro mem s reader writer hle
    rw [region_succ, processFrom]
    generalize ht : dispatch s (mem reader) = t
    have hnext : stripper.next s (mem reader) = t.state := congrArg Reading.state ht
    cases hw : t.written with
    | true =>
      have hemit : stripper.emit s (mem reader) = [t.byte] := by simp [stripper, ht, hw]
      have hsame : ∀ a, a < writer ∨ reader < a →
          Function.update (Function.update mem reader t.byte) writer t.byte a = mem a := by
        intro a ha
        rw [Function.update_of_ne (by omega), Function.update_of_ne (by omega)]
      have hahead := region_congr (n := n) fun i hi (_ : i < reader + 1 + n) => hsame i (.inr hi)
      have hp := ih (Function.update (Function.update mem reader t.byte) writer t.byte) t.state
        (reader + 1) (writer + 1) (Nat.succ_le_succ hle)
      rw [hahead, ← hnext] at hp
      rw [if_pos rfl, ← hnext]
      exact hp.written hemit (Function.update_self ..) hsame
    | false =>
      have hemit : stripper.emit s (mem reader) = [] := by simp [stripper, ht, hw]
      have hsame : ∀ a, a < writer ∨ reader < a → Function.update mem reader t.byte a = mem a :=
        fun a ha => Function.update_of_ne (by omega) _ _
      have hahead := region_congr (n := n) fun i hi (_ : i < reader + 1 + n) => hsame i (.inr hi)
      have hp := ih (Function.update mem reader t.byte) t.state (reader + 1) writer
        (Nat.le_succ_of_le hle)
      rw [hahead, ← hnext] at hp
      rw [if_neg Bool.false_ne_true, ← hnext]
      exact hp.left hemit hsame

end Passes

/-- Where a buffer is forwarded: it stands where it stood, with its front at most. -/
structure Forwards (b c : NgxBuf) : Prop where
  region : c.region = b.region
  pos : c.pos = b.pos
  last : c.last ≤ b.last
  inFile : c.inFile = false

/-- The address `a` of the region `r` is not part of any window of the chain. -/
def Outside (links : List NgxBuf) (r a : ℕ) : Prop :=
  ∀ b ∈ links, r ≠ b.region ∨ a < b.pos ∨ b.last ≤ a

/-- What the body filter makes of a chain that is read from state `s`. -/
structure Stripped (s : StripState) (mem : Minify.Memory) (links : List NgxBuf) (t : StripState) (m : Minify.Memory)
    (out : List NgxBuf) : Prop where
  state : t = stripper.run s (links.flatMap (window mem))
  bytes : out.flatMap (window m) = stripper.out s (links.flatMap (window mem))
  forwards : List.Forall₂ Forwards links out
  same : ∀ r a, Outside links r a → m r a = mem r a

section Chains
variable {mem m : Minify.Memory} {s t : StripState} {b c d : NgxBuf} {links out : List NgxBuf}

theorem window_congr (h : ∀ a, c.pos ≤ a → a < c.last → m c.region a = mem c.region a) :
    window m c = window mem c := by
  refine region_congr fun i hi hlt => h i hi ?_
  omega

theorem processBuffer_stripped (mem : Minify.Memory) (s : StripState) (hb : b.pos ≤ b.last) :
    ∃ m t d, ngxHttpStripProcessBuffer mem s b = (m, t, d) ∧
      Stripped s mem [b] t m [{ d with inFile := false }] := by
  have hp := processFrom_passed (b.last - b.pos) (mem b.region) s b.pos b.pos (Nat.le_refl b.pos)
  have hlen : (Flat.region (mem b.region) b.pos (b.last - b.pos)).length = b.last - b.pos :=
    NginB.Minify.Flat.region_length ..
  rw [ngxHttpStripProcessBuffer]
  generalize processFrom (mem b.region) s b.pos b.pos (b.last - b.pos) = p at hp ⊢
  have hbound := hp.bound
  have hsame := hp.same
  rw [hlen] at hbound hsame
  refine ⟨_, _, _, rfl, ?_, ?_, .cons ⟨rfl, rfl, ?_, rfl⟩ .nil, fun r a ha => ?_⟩
  · rw [List.flatMap_singleton]
    exact hp.state
  · rw [List.flatMap_singleton, List.flatMap_singleton, window, window, Function.update_self]
    simp only [hp.length, Nat.add_sub_cancel_left]
    exact hp.out
  · simp only
    omega
  · have hb' := ha b List.mem_cons_self
    by_cases hr : r = b.region
    · subst hr
      rw [Function.update_self]
      exact hsame a (by omega)
    · exact congrFun (Function.update_of_ne hr _ _) a

theorem Stripped.cons {m' : Minify.Memory} {t' : StripState} (h : Stripped s mem [b] t m [d])
    (hs : Stripped t m links t' m' out) (hapart : ∀ c ∈ links, Apart b c) :
    Stripped s mem (b :: links) t' m' (d :: out) := by
  obtain ⟨hfwd, -⟩ : Forwards b d ∧ List.Forall₂ Forwards [] [] := by simpa using h.forwards
  have hread : links.flatMap (window m) = links.flatMap (window mem) := by
    refine List.flatMap_congr fun c hc => window_congr fun a hpos hlast => h.same _ a ?_
    intro b' hb'
    obtain rfl := List.mem_singleton.mp hb'
    have hc' := hapart c hc
    rw [Apart] at hc'
    omega
  have hkept : window m' d = window m d := by
    refine window_congr fun a hpos hlast => hs.same _ a fun c hc => ?_
    have hc' := hapart c hc
    have hfwd' := hfwd.last
    rw [Apart] at hc'
    rw [hfwd.pos] at hpos
    rw [hfwd.region]
    omega
  have hbytes := h.bytes
  have hstate := h.state
  rw [List.flatMap_singleton, List.flatMap_singleton] at hbytes
  rw [List.flatMap_singleton] at hstate
  refine ⟨?_, ?_, .cons hfwd hs.forwards, fun r a ha => ?_⟩
  · rw [List.flatMap_cons, Mealy.run_append, ← hstate, ← hread]
    exact hs.state
  · rw [List.flatMap_cons, List.flatMap_cons, Mealy.out_append, ← hstate, ← hread, hkept, hbytes]
    rw [hs.bytes]
  · rw [hs.same r a fun c hc => ha c (List.mem_cons_of_mem b hc)]
    refine h.same r a fun c hc => ?_
    obtain rfl := List.mem_singleton.mp hc
    exact ha c List.mem_cons_self

theorem bodyFilterLoop_stripped (mem : Minify.Memory) (s : StripState) (ho : ∀ b ∈ links, b.pos ≤ b.last)
    (ha : links.Pairwise Apart) :
    ∃ m t out, bodyFilterLoop mem s links = (m, t, out) ∧ Stripped s mem links t m out := by
  induction links generalizing mem s with
  | nil => exact ⟨mem, s, [], rfl, rfl, rfl, .nil, fun _ _ _ => rfl⟩
  | cons b links ih =>
    rw [List.forall_mem_cons] at ho
    obtain ⟨hb, hlinks⟩ := List.pairwise_cons.mp ha
    obtain ⟨m, t, d, hd, hone⟩ := processBuffer_stripped mem s ho.1
    obtain ⟨m', t', out, hout, hrest⟩ := ih m t ho.2 hlinks
    refine ⟨m', t', { d with inFile := false } :: out, ?_, hone.cons hrest hb⟩
    rw [bodyFilterLoop, hd]
    simp only [hout]

end Chains

/-- A call and what it forwards: the same buffers, and all memory but their windows as it was. -/
structure Call.Forwards (c out : Call) : Prop where
  links : List.Forall₂ NginB.Strip.Forwards c.links out.links
  same : ∀ r a, Outside c.links r a → out.mem r a = c.mem r a

def page (calls : List Call) : List UInt8 := calls.flatMap Call.bytes

section Responses
variable {enable headerOnly pcalloc : Bool} {h h' : HeadersOut} {ctx : Option StripState} {calls : List Call}

theorem respond_none (calls : List Call) : respond none calls = (none, calls) := by
  induction calls with
  | nil => rfl
  | cons c calls ih => simp [respond, ngxHttpStripBodyFilter, ih]

theorem respond_some (s : StripState) (hd : ∀ c ∈ calls, c.Delivered) :
    ∃ outs, respond (some s) calls = (some (stripper.run s (page calls)), outs) ∧
      page outs = stripper.out s (page calls) ∧ List.Forall₂ Call.Forwards calls outs := by
  induction calls generalizing s with
  | nil => exact ⟨[], rfl, rfl, .nil⟩
  | cons c calls ih =>
    rw [List.forall_mem_cons] at hd
    obtain ⟨m, t, out, hloop, hout⟩ := bodyFilterLoop_stripped c.mem s hd.1.ordered hd.1.apart
    obtain ⟨outs, hrest, hpage, hfwd⟩ := ih t hd.2
    refine ⟨⟨m, out⟩ :: outs, ?_, ?_, .cons ⟨hout.forwards, hout.same⟩ hfwd⟩
    · have hstate : t = stripper.run s c.bytes := hout.state
      simp only [respond, ngxHttpStripBodyFilter, hloop, hrest]
      rw [page, page, List.flatMap_cons, Mealy.run_append, hstate]
    · have hstate : t = stripper.run s c.bytes := hout.state
      have hbytes : Call.bytes ⟨m, out⟩ = stripper.out s c.bytes := hout.bytes
      rw [page, List.flatMap_cons, hbytes, ← page, hpage, page, page, List.flatMap_cons,
        Mealy.out_append, hstate]

/-- The header filter passes a response on as it is, or it clears its length and starts the reader. -/
theorem headerFilter_cases (hf : ngxHttpStripHeaderFilter enable headerOnly pcalloc h = some (h', ctx)) :
    h' = h ∧ ctx = none ∨
      h' = { h with contentLength := none, acceptRanges := false } ∧ ctx = some .text := by
  unfold ngxHttpStripHeaderFilter at hf
  split_ifs at hf
  all_goals
    obtain ⟨rfl, rfl⟩ := Prod.mk.inj (Option.some.inj hf)
    simp

/-- A response of one buffer a call, each at the front of its own memory. -/
def Call.holding (w : List UInt8) : Call where
  mem _ a := w.getD a 0
  links := [⟨0, 0, 0, w.length, w.length, 0, 0, true, false, false, false, false, false, false⟩]

theorem Call.holding_delivered (w : List UInt8) : (Call.holding w).Delivered where
  ordered b hb := by
    obtain rfl := List.mem_singleton.mp hb
    exact Nat.zero_le _
  apart := List.pairwise_singleton _ _

theorem page_holding (ws : List (List UInt8)) : page (ws.map Call.holding) = ws.flatten := by
  have hone : ∀ w, Call.bytes (Call.holding w) = w := by
    intro w
    refine (List.append_nil _).trans (List.ext_getElem (NginB.Minify.Flat.region_length ..) fun i _ hi => ?_)
    simp [window, Flat.region, Call.holding, List.getElem?_eq_getElem hi]
  rw [page, List.flatMap_map, List.flatMap_congr fun w _ => hone w, List.flatMap_id']

/-- A response is passed on with its headers and its body as they are, or its `Content-Length` is
cleared and the bytes that the reader writes are forwarded, wherever the page is cut into buffers and
calls: then every buffer stays in its place, and nothing else in memory is written to. -/
theorem response_stripped
    (hf : ngxHttpStripHeaderFilter enable headerOnly pcalloc h = some (h', ctx))
    (hd : ∀ c ∈ calls, c.Delivered) :
    ∃ outs, respond ctx calls = (ctx.map fun s => stripper.run s (page calls), outs) ∧
      (h' = h ∧ outs = calls ∨
        h'.contentLength = none ∧ ctx = some .text ∧ page outs = stripper.out .text (page calls) ∧
          List.Forall₂ Call.Forwards calls outs) := by
  rcases headerFilter_cases hf with ⟨rfl, rfl⟩ | ⟨rfl, rfl⟩
  · exact ⟨calls, respond_none calls, .inl ⟨rfl, rfl⟩⟩
  · obtain ⟨outs, hrun, hpage, hfwd⟩ := respond_some .text hd
    exact ⟨outs, hrun, .inr ⟨rfl, rfl, hpage, hfwd⟩⟩

/-- A page in two calls, with a space at the end of the one and at the front of the other. -/
def twoCalls : List Call := [lit "a ", lit " b"].map Call.holding

theorem twoCalls_delivered : ∀ c ∈ twoCalls, c.Delivered := by
  intro c hc
  obtain ⟨w, -, rfl⟩ := List.mem_map.mp hc
  exact Call.holding_delivered w

theorem response_stripped_twoCalls :
    ∃ outs, respond (some .text) twoCalls = (some .text, outs) ∧ page outs = lit "a b" := by
  have hf : ngxHttpStripHeaderFilter true false true ⟨200, lit "text/html", 9, none, some 4, true⟩ =
      some (⟨200, lit "text/html", 9, none, none, false⟩, some .text) := rfl
  have hpage : page twoCalls = lit "a  b" := page_holding _
  obtain ⟨outs, hrun, ⟨h, -⟩ | ⟨-, -, hout, -⟩⟩ := response_stripped hf twoCalls_delivered
  · exact absurd h (by decide)
  · rw [hpage] at hrun hout
    exact ⟨outs, hrun, hout⟩

/-- Whatever the headers are and however the page is cut, nothing but white space is left out of it and
no byte is changed, and the states of a CDATA section are not entered. -/
theorem blanks_left_out
    (hf : ngxHttpStripHeaderFilter enable headerOnly pcalloc h = some (h', ctx))
    (hd : ∀ c ∈ calls, c.Delivered) :
    ∃ ctx' outs, respond ctx calls = (ctx', outs) ∧ (page outs).Sublist (page calls) ∧
      solid (page outs) = solid (page calls) ∧ ∀ s ∈ ctx', Live s := by
  have hlive : Live .text := by decide
  rcases headerFilter_cases hf with ⟨-, rfl⟩ | ⟨-, rfl⟩
  · exact ⟨none, calls, respond_none calls, List.Sublist.refl _, rfl,
      fun s hs => absurd hs (Option.not_mem_none s)⟩
  · obtain ⟨outs, hrun, hout, -⟩ := respond_some .text hd
    refine ⟨_, outs, hrun, ?_, ?_, fun s hs => ?_⟩
    · rw [hout]
      exact stripper_erases.out_sublist hlive
    · rw [hout, solid_eq_filter, solid_eq_filter]
      refine stripper_erases.filter_out (fun hs he => ?_) hlive
      rw [isBlank_eq, Bool.not_eq_false', Bool.or_eq_true, decide_eq_true_eq]
      exact blank_of_emit hs he
    · obtain rfl := Option.some.inj hs
      exact stripper_erases.run hlive _

theorem blanks_left_out_twoCalls : ∃ ctx outs, respond (some .text) twoCalls = (ctx, outs) ∧
    solid (page outs) = lit "ab" := by
  have hf : ngxHttpStripHeaderFilter true false true ⟨200, lit "text/html", 9, none, some 4, true⟩ =
      some (⟨200, lit "text/html", 9, none, none, false⟩, some .text) := rfl
  have hpage : page twoCalls = lit "a  b" := page_holding _
  obtain ⟨ctx, outs, hrun, -, hsolid, -⟩ := blanks_left_out hf twoCalls_delivered
  rw [hpage] at hsolid
  exact ⟨ctx, outs, hrun, hsolid⟩

/-- A response that holds the bytes of a stripped page is forwarded as it is when it is stripped, and
both times the reader ends in the same state. -/
theorem second_pass {calls' outs : List Call} {s : StripState} (hd : ∀ c ∈ calls, c.Delivered)
    (hd' : ∀ c ∈ calls', c.Delivered) (hrun : respond (some .text) calls = (some s, outs))
    (hpage : page calls' = page outs) :
    ∃ outs', respond (some .text) calls' = (some s, outs') ∧ page outs' = page calls' := by
  have hlive : Live .text := by decide
  obtain ⟨outs₁, hrun₁, hout, -⟩ := respond_some .text hd
  obtain ⟨outs', hrun', hout', -⟩ := respond_some .text hd'
  obtain ⟨hs, rfl⟩ := Prod.mk.inj (hrun₁.symm.trans hrun)
  have hs := Option.some.inj hs
  rw [hpage, hout] at hrun' hout'
  rw [stripper_erases.run_out hlive, hs] at hrun'
  rw [stripper_erases.out_out hlive] at hout'
  exact ⟨outs', hrun', by rw [hout', hpage, hout]⟩

theorem second_pass_twoCalls :
    ∃ outs, respond (some .text) [Call.holding (lit "a b")] = (some .text, outs) ∧
      page outs = lit "a b" := by
  have hd : ∀ c ∈ [Call.holding (lit "a b")], c.Delivered := by
    simpa using Call.holding_delivered (lit "a b")
  have hpage : page [Call.holding (lit "a b")] = lit "a b" := page_holding [lit "a b"]
  obtain ⟨outs, hrun, hout, -⟩ := respond_some .text twoCalls_delivered
  have hfirst : page twoCalls = lit "a  b" := page_holding _
  rw [hfirst] at hrun hout
  obtain ⟨outs', hrun', hout'⟩ := second_pass twoCalls_delivered hd hrun (hpage.trans hout.symm)
  exact ⟨outs', hrun', hout'.trans hpage⟩

end Responses

end NginB.Strip
