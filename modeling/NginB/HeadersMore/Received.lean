import Mathlib.Data.List.Find
import NginB.HeadersMore.Pushing

/-! # The commands on a request

What a list of commands makes of the names and the values of a request, and that the handler does just that
to the list of its headers, the arrays under the list and the pointers into it. A field that points to a
header points to the first one with its name.
-/
namespace NginB.HeadersMore
open NginB.Minify (lit toLower strncasecmpEq)

/-- The names and the values of a request in their order, and what the server has taken from them. -/
structure Received where
  entries : List (List UInt8 × List UInt8)
  server : List UInt8
  contentLengthN : ℤ

def BuiltinIn.name : BuiltinIn → List UInt8
  | acceptEncoding => lit "accept-encoding"
  | host => lit "host"
  | connection => lit "connection"
  | ifModifiedSince => lit "if-modified-since"
  | userAgent => lit "user-agent"
  | referer => lit "referer"
  | contentType => lit "content-type"
  | range => lit "range"
  | ifRange => lit "if-range"
  | transferEncoding => lit "transfer-encoding"
  | expect => lit "expect"
  | authorization => lit "authorization"
  | keepAlive => lit "keep-alive"
  | contentLength => lit "content-length"

/-- The first entry with the name gets the value; where there is none, a new one is put behind the others. -/
def setEntry (key value : List UInt8) (replace : Bool) :
    List (List UInt8 × List UInt8) → List (List UInt8 × List UInt8)
  | [] => if replace then [] else [(key, value)]
  | e :: es => if lower e.1 = lower key then (e.1, value) :: es else e :: setEntry key value replace es

namespace Received
variable {υ : Type}

/-- All entries with the name are cleared, or the first one is set. -/
def put (q : Received) (hv : InputVal υ) (value : List UInt8) : Received :=
  { q with entries := if value = [] then q.entries.filter fun e => lower e.1 ≠ lower hv.key
    else setEntry hv.key value hv.replace q.entries }

def handle (atosz : List UInt8 → Option ℕ) (q : Received) (hv : InputVal υ) (value : List UInt8) :
    Option Received :=
  match hv.handler with
  | .header | .builtin => some (q.put hv value)
  | .host => some ({ q with server := value }.put hv value)
  | .contentLength =>
    if value = [] then some ({ q with contentLengthN := -1 }.put hv [])
    else (atosz value).map fun len => { q with contentLengthN := len }.put hv value

def admits (q : Received) (types : List (List UInt8)) : Bool :=
  match q.entries.find? fun e => lower e.1 = BuiltinIn.contentType.name with
  | none => false
  | some e => if e.2 = [] then false else types.any fun t => e.2.length = t.length && strncmpEq e.2 t t.length

variable (view : Received → υ → Option (List UInt8)) (atosz : List UInt8 → Option ℕ)

def execLoop (q : Received) : List (InputVal υ) → Option Received
  | [] => some q
  | hv :: hvs => ((view q hv.value).bind fun value => q.handle atosz hv value.dropLast).bind
      fun q => q.execLoop hvs

def exec (q : Received) (cmd : InputCmd υ) : Option Received :=
  match cmd.headers with
  | none => some q
  | some hvs => if (cmd.types.map q.admits).getD true then q.execLoop view atosz hvs else some q

def run (q : Received) : List (InputCmd υ) → Option Received
  | [] => some q
  | cmd :: cmds => (q.exec view atosz cmd).bind fun q => q.run cmds

end Received

def HeadersIn.receives (r : HeadersIn) : Received :=
  ⟨r.list.addrs.map fun a => (r.mem a).entry, r.server, r.contentLengthN⟩

/-- A header that a field points to is the first one with its name, and the type is pointed to where there
is one. -/
structure Pointed (r : HeadersIn) : Prop where
  points : ∀ b a, r.builtin b = some a → r.list.addrs.find? (fun a => (r.mem a).name = b.name) = some a
  typed : r.builtin .contentType = none → ∀ a ∈ r.list.addrs, (r.mem a).name ≠ BuiltinIn.contentType.name

section Names
variable {υ : Type} {hv : InputVal υ} {b : BuiltinIn}

structure InputVal.Sound (hv : InputVal υ) : Prop where
  key : 0 ∉ hv.key
  handler : (hv.handler, hv.offset) = findInputHandler hv.key

theorem setInputHandlers_sound : ∀ h ∈ setInputHandlers,
    0 ∉ h.1 ∧ lower h.1 = h.2.1.name ∧ h.2.2 ≠ .header := by decide

theorem findInputHandler_name (b : BuiltinIn) : (findInputHandler b.name).2 = some b := by
  cases b <;> decide

theorem lower_name (b : BuiltinIn) : lower b.name = b.name := by
  cases b <;> decide

/-- The handler is found by the name in any case of its letters. -/
theorem findInputHandler_congr {k k' : List UInt8} (h : lower k = lower k') :
    findInputHandler k = findInputHandler k' := by
  have hfind : (setInputHandlers.find? fun h => k.length = h.1.length && strncasecmpEq k h.1 h.1.length) =
      setInputHandlers.find? fun h => k'.length = h.1.length && strncasecmpEq k' h.1 h.1.length := by
    refine List.find?_congr fun s hs => ?_
    have h0 := (setInputHandlers_sound s hs).1
    rw [Bool.eq_iff_iff, strncasecmpEq_iff h0, strncasecmpEq_iff h0, h]
  rw [findInputHandler, findInputHandler, hfind]

/-- The offset is that of the field with the name. -/
theorem InputVal.Sound.offset_iff (h : hv.Sound) : hv.offset = some b ↔ lower hv.key = b.name := by
  have hoffset : hv.offset = (findInputHandler hv.key).2 := congrArg Prod.snd h.handler
  constructor
  · intro hb
    rw [hoffset, findInputHandler] at hb
    split at hb
    · next s hfind =>
      have hs := setInputHandlers_sound s (List.mem_of_find?_eq_some hfind)
      obtain rfl := Option.some.inj hb
      have heq := List.find?_some hfind
      rw [(strncasecmpEq_iff hs.1).mp heq, hs.2.1]
    · cases hb
  · intro hb
    rw [hoffset, findInputHandler_congr (hb.trans (lower_name b).symm), findInputHandler_name]

theorem InputVal.Sound.header (h : hv.Sound) (hh : hv.handler = .header) : hv.offset = none := by
  have hpair := h.handler
  rw [hh, findInputHandler] at hpair
  split at hpair
  · next s hfind =>
    have hs := setInputHandlers_sound s (List.mem_of_find?_eq_some hfind)
    exact absurd (congrArg Prod.fst hpair).symm hs.2.2
  · exact congrArg Prod.snd hpair

end Names

section Entries
variable {mem : ℕ → TableElt} {addrs : List ℕ} {a : ℕ} {key value : List UInt8} {replace : Bool}

/-- The first header with the name gets the value. -/
theorem setEntry_found {f : TableElt → TableElt} (hf : ∀ e, (f e).entry = (e.key, value)) (hnodup : addrs.Nodup)
    (hfind : addrs.find? (fun a => (mem a).name = lower key) = some a) :
    (addrs.map fun b => (Function.update mem a (f (mem a)) b).entry) =
      setEntry key value replace (addrs.map fun b => (mem b).entry) := by
  induction addrs with
  | nil => cases hfind
  | cons b bs ih =>
    obtain ⟨hb, hbs⟩ := List.nodup_cons.mp hnodup
    rw [List.map_cons, List.map_cons, setEntry]
    by_cases hname : (mem b).name = lower key
    · rw [List.find?_cons_of_pos (by simpa using hname)] at hfind
      obtain rfl := Option.some.inj hfind
      have hrest : ∀ c ∈ bs, (Function.update mem b (f (mem b)) c).entry = (mem c).entry := by
        intro c hc
        rw [Function.update_of_ne (ne_of_mem_of_not_mem hc hb)]
      have hentry : lower (mem b).entry.1 = lower key := hname
      rw [if_pos hentry, Function.update_self, hf, List.map_congr_left hrest]
      rfl
    · rw [List.find?_cons_of_neg (by simpa using hname)] at hfind
      have hne : b ≠ a := fun h => hb (h ▸ List.mem_of_find?_eq_some hfind)
      have hentry : ¬ lower (mem b).entry.1 = lower key := hname
      rw [if_neg hentry, Function.update_of_ne hne, ih hbs hfind]

theorem setEntry_missed (hmiss : ∀ a ∈ addrs, (mem a).name ≠ lower key) :
    setEntry key value replace (addrs.map fun b => (mem b).entry) =
      (addrs.map fun b => (mem b).entry) ++ if replace then [] else [(key, value)] := by
  induction addrs with
  | nil => rfl
  | cons b bs ih =>
    rw [List.forall_mem_cons] at hmiss
    have hb : ¬ lower (mem b).entry.1 = lower key := hmiss.1
    rw [List.map_cons, setEntry, if_neg hb, ih hmiss.2, List.cons_append]

end Entries

section Handled
variable {υ : Type} {listPush : HeadersIn → Option ℕ × HeadersIn} {hv : InputVal υ} {value first : List UInt8}
  {r r' r₁ : HeadersIn} {fuel a : ℕ}

/-- What holds of a request between two commands. The first of its headers has the name `first`. -/
structure Ready (first : List UInt8) (r : HeadersIn) : Prop where
  spaced : Spaced r.list
  pool : r.pool = []
  pointed : Pointed r
  head : ∃ a, r.list.addrs.head? = some a ∧ (r.mem a).name = first

theorem output_self (r : HeadersIn) (b : BuiltinIn) (a : Option ℕ) : (r.output (some b) a).builtin b = a :=
  Function.update_self ..

theorem output_ne {o : Option BuiltinIn} {b : BuiltinIn} (h : o ≠ some b) (a : Option ℕ) :
    (r.output o a).builtin b = r.builtin b := by
  cases o with
  | none => rfl
  | some c => exact Function.update_of_ne (fun hb => h (congrArg some hb.symm)) ..

theorem output_eq (r : HeadersIn) (o : Option BuiltinIn) (a : Option ℕ) :
    r.output o a = { r with builtin := (r.output o a).builtin } := by
  cases o <;> rfl

theorem output_congr {o : Option BuiltinIn} (h : r'.builtin = r.builtin) (a : Option ℕ) :
    (r'.output o a).builtin = (r.output o a).builtin := by
  cases o with
  | none => exact h
  | some b => exact congrArg (Function.update · b a) h

structure Put (first : List UInt8) (hv : InputVal υ) (value : List UInt8) (r r' : HeadersIn) : Prop where
  ready : Ready first r'
  receives : r'.receives = r.receives.put hv value
  length : r'.list.addrs.length ≤ r.list.addrs.length + 1

theorem put_found (hr : Ready first r) (hv' : hv.Sound) (hvalue : value ≠ [])
    (hfind : r.list.addrs.find? (fun a => (r.mem a).name = lower hv.key) = some a)
    {f : TableElt → TableElt} (hf : ∀ e, (f e).entry = (e.key, value)) {bs : BuiltinIn → Option ℕ}
    (hbs : ∀ b a', bs b = some a' → r.builtin b = some a' ∨ hv.offset = some b ∧ a' = a)
    (htyped : bs .contentType = none → r.builtin .contentType = none) :
    Put first hv value r { r.update a f with builtin := bs } := by
  have hnames : ∀ b, ((r.update a f).mem b).name = (r.mem b).name :=
    fun b => congrArg lower (update_key (fun e => congrArg Prod.fst (hf e)) b)
  obtain ⟨c, hc, hfirst⟩ := hr.head
  refine ⟨⟨hr.spaced, hr.pool, ⟨fun b a' hb => ?_, fun hb => ?_⟩, c, hc, (hnames c).trans hfirst⟩, ?_, Nat.le_succ _⟩
  · simp only [hnames]
    rcases hbs b a' hb with hold | ⟨hoff, rfl⟩
    · exact hr.pointed.points b a' hold
    · rw [← hv'.offset_iff.mp hoff]
      exact hfind
  · simp only [hnames]
    exact hr.pointed.typed (htyped hb)
  · simp only [HeadersIn.receives, Received.put, if_neg hvalue, Received.mk.injEq]
    exact ⟨setEntry_found hf hr.spaced.nodup hfind, rfl, rfl⟩

theorem put_pushed (hr : Ready first r) (hv' : hv.Sound) (hvalue : value ≠ []) (hreplace : hv.replace = false)
    (hmiss : ∀ a ∈ r.list.addrs, (r.mem a).name ≠ lower hv.key) (hg : Grown r a r₁) {f : TableElt → TableElt}
    (hf : ∀ e, (f e).entry = (hv.key, value)) :
    Put first hv value r ((r₁.update a f).output hv.offset (some a)) := by
  obtain ⟨hmem', hlist, hpool⟩ := output_same (r₁.update a f) hv.offset (some a)
  have hb : (r₁.update a f).builtin = r.builtin := by
    rw [hg.same]
    rfl
  have hbs : ((r₁.update a f).output hv.offset (some a)).builtin = (r.output hv.offset (some a)).builtin :=
    output_congr hb _
  have hsame : ((r₁.update a f).output hv.offset (some a)).server = r.server ∧
      ((r₁.update a f).output hv.offset (some a)).contentLengthN = r.contentLengthN := by
    rw [output_eq, hg.same]
    exact ⟨rfl, rfl⟩
  generalize (r₁.update a f).output hv.offset (some a) = r' at hmem' hlist hpool hbs hsame ⊢
  have hmem : ∀ b ∈ r.list.addrs, r'.mem b = r.mem b := by
    intro b hb
    rw [hmem', update_ne (ne_of_mem_of_not_mem hb hg.notMem), hg.same]
  have hnew : (r'.mem a).entry = (hv.key, value) := by rw [hmem', update_self, hf]
  have hlist : r'.list = r₁.list := hlist
  have hpool : r'.pool = [] := hpool.trans ((congrArg HeadersIn.pool hg.same).trans hr.pool)
  have haddrs : r'.list.addrs = r.list.addrs ++ [a] := by rw [hlist, hg.addrs]
  have hname : (r'.mem a).name = lower hv.key := congrArg (fun e : List UInt8 × List UInt8 => lower e.1) hnew
  have hfound : ∀ n, (r'.list.addrs.find? fun a => (r'.mem a).name = n) =
      (r.list.addrs.find? fun a => (r.mem a).name = n).or (if lower hv.key = n then some a else none) := by
    intro n
    rw [haddrs, List.find?_append, List.find?_singleton, hname, List.find?_congr fun b hb => by rw [hmem b hb]]
    simp
  have hoff : ∀ b, hv.offset = some b → r'.builtin b = some a := by
    intro b hb
    rw [hbs, hb, output_self]
  have hother : ∀ b, hv.offset ≠ some b → r'.builtin b = r.builtin b := by
    intro b hb
    rw [hbs, output_ne hb]
  obtain ⟨c, hc, hfirst⟩ := hr.head
  have hcmem : c ∈ r.list.addrs := List.mem_of_head? hc
  refine ⟨⟨hlist ▸ hg.spaced, hpool, ⟨fun b a' hb => ?_, fun hb => ?_⟩, c, ?_, ?_⟩, ?_, ?_⟩
  · rw [hfound]
    by_cases ho : hv.offset = some b
    · obtain rfl := Option.some.inj ((hoff b ho).symm.trans hb)
      have hk := hv'.offset_iff.mp ho
      have hnone : (r.list.addrs.find? fun a => (r.mem a).name = b.name) = none :=
        List.find?_eq_none.mpr fun a ha => by simpa [← hk] using hmiss a ha
      rw [hnone, if_pos hk]
      rfl
    · rw [hr.pointed.points b a' ((hother b ho).symm.trans hb)]
      rfl
  · rw [haddrs]
    have ho : hv.offset ≠ some .contentType := fun ho => Option.some_ne_none a ((hoff _ ho).symm.trans hb)
    refine List.forall_mem_append.mpr ⟨fun b hb' => ?_, List.forall_mem_singleton.mpr ?_⟩
    · rw [hmem b hb']
      exact hr.pointed.typed ((hother _ ho).symm.trans hb) b hb'
    · rw [hname]
      exact fun hk => ho (hv'.offset_iff.mpr hk)
  · rw [haddrs, List.head?_append, hc]
    rfl
  · rw [hmem c hcmem, hfirst]
  · simp only [HeadersIn.receives, Received.put, if_neg hvalue, Received.mk.injEq]
    refine ⟨?_, hsame⟩
    rw [setEntry_missed hmiss, hreplace, haddrs, List.map_append, List.map_singleton, hnew,
      List.map_congr_left fun b hb => by rw [hmem b hb]]
    rfl
  · rw [haddrs, List.length_append, List.length_singleton]

theorem put_thinned (hr : Ready first r) (hv' : hv.Sound) (hne : lower hv.key ≠ first)
    (hlist : r₁.list = r.list) (hbs : r₁.builtin = r.builtin) (hserver : r₁.server = r.server)
    (hlength : r₁.contentLengthN = r.contentLengthN) (hkeys : ∀ a, (r₁.mem a).key = (r.mem a).key)
    (hentries : ∀ a, (r.mem a).name ≠ lower hv.key → (r₁.mem a).entry = (r.mem a).entry)
    (h : Thinned hv hv.offset r₁ r') : Put first hv [] r r' := by
  have hhit : ∀ a, r₁.hit hv a = true ↔ (r.mem a).name = lower hv.key := by
    intro a
    rw [hit_congr hkeys, hit_iff hv'.key]
  have haddrs : r'.list.addrs = r.list.addrs.filter fun a => (r.mem a).name ≠ lower hv.key := by
    rw [h.addrs, hlist]
    refine List.filter_congr fun a _ => ?_
    rw [Bool.eq_iff_iff, Bool.not_eq_true', ← Bool.not_eq_true, hhit, decide_eq_true_eq]
  have hnames : ∀ a, (r'.mem a).name = (r.mem a).name := by
    intro a
    rw [TableElt.name, TableElt.name, ← hkeys a]
    exact congrArg (fun e : List UInt8 × List UInt8 => lower e.1) (h.entries a)
  have hother : ∀ b, hv.offset ≠ some b → r'.builtin b = r.builtin b := by
    intro b hb
    rw [h.builtin, ← hbs]
    split
    · exact output_ne hb none
    · rfl
  have hnull : ∀ b, hv.offset = some b → r'.builtin b = none := by
    intro b hb
    rw [h.builtin]
    by_cases hany : r₁.list.addrs.any (r₁.hit hv) = true
    · rw [if_pos hany, hb, output_self]
    · rw [if_neg hany, hbs]
      refine Option.eq_none_iff_forall_ne_some.mpr fun a ha => hany ?_
      -- the field would point to a header that is hit
      have hfind := hr.pointed.points b a ha
      have hname : (r.mem a).name = b.name := by simpa using List.find?_some hfind
      rw [hlist]
      exact List.any_eq_true.mpr ⟨a, List.mem_of_find?_eq_some hfind,
        (hhit a).mpr (hname.trans (hv'.offset_iff.mp hb).symm)⟩
  obtain ⟨c, hc, hfirst⟩ := hr.head
  refine ⟨⟨h.spaced, h.pool, ⟨fun b a hb => ?_, fun hb => ?_⟩, c, ?_, ?_⟩, ?_, ?_⟩
  · have ho : hv.offset ≠ some b := fun ho => Option.some_ne_none a (hb.symm.trans (hnull b ho))
    rw [← hr.pointed.points b a ((hother b ho).symm.trans hb), haddrs, List.find?_filter]
    refine List.find?_congr fun a _ => ?_
    rw [hnames]
    by_cases hname : (r.mem a).name = b.name
    · have hk : ¬ b.name = lower hv.key := fun hk => ho (hv'.offset_iff.mpr hk.symm)
      simp [hname, hk]
    · simp [hname]
  · intro a ha
    rw [haddrs, List.mem_filter, decide_eq_true_eq] at ha
    rw [hnames]
    by_cases ho : hv.offset = some .contentType
    · rw [← hv'.offset_iff.mp ho]
      exact ha.2
    · exact hr.pointed.typed ((hother _ ho).symm.trans hb) a ha.1
  · obtain ⟨rest, hrest⟩ := List.head?_eq_some_iff.mp hc
    have hkeep : (r.mem c).name ≠ lower hv.key := by rw [hfirst]; exact hne.symm
    rw [haddrs, hrest, List.filter_cons_of_pos (by simpa using hkeep), List.head?_cons]
  · rw [hnames, hfirst]
  · simp only [HeadersIn.receives, Received.put, if_true, Received.mk.injEq]
    refine ⟨?_, h.server.trans hserver, h.contentLengthN.trans hlength⟩
    rw [List.filter_map, haddrs]
    refine List.map_congr_left fun a ha => ?_
    rw [List.mem_filter, decide_eq_true_eq] at ha
    rw [h.entries, hentries a ha.2]
  · rw [haddrs]
    exact Nat.le_succ_of_le (List.length_filter_le _ _)

def Pushes (listPush : HeadersIn → Option ℕ × HeadersIn) : Prop :=
  ∀ r, Spaced r.list → r.list.addrs ≠ [] → r.pool = [] → Pushed r (listPush r)

/-- One search of the list is enough to set a header. -/
theorem helper_put (hpush : Pushes listPush) (hr : Ready first r) (hv' : hv.Sound) (hvalue : value ≠ []) :
    ∃ r', ngxHttpSetInputHeaderHelper listPush r hv value hv.offset (fuel + 1) = some (.ok, r') ∧
      Put first hv value r r' := by
  have hwalk : Walked (r.hit hv) 0 r.list.parts
      (walkParts (fun a => hv.hits (r.mem a)) true 0 r.list.parts) :=
    walked (fun p _ h => absurd h (by decide)) hr.spaced.roomy.tailed
  rw [ngxHttpSetInputHeaderHelper]
  generalize walkParts (fun a => hv.hits (r.mem a)) true 0 r.list.parts = out at hwalk
  cases hwalk with
  | @found pre cur post i hparts hi hhit hfront =>
    have haddress : r.list.address pre.length i = cur.elts + i := by
      rw [HeaderList.address, hparts, List.getElem?_append_right (Nat.le_refl _), Nat.sub_self]
      rfl
    have hfind : r.list.addrs.find? (fun a => (r.mem a).name = lower hv.key) = some (cur.elts + i) := by
      refine List.find?_eq_some_iff_append.mpr ⟨by simpa using (hit_iff hv'.key).mp hhit,
        pre.flatMap Part.addrs ++ (cur.front i).addrs, (cur.behind i).addrs ++ post.flatMap Part.addrs, ?_, fun a ha => ?_⟩
      · rw [addrs_at hparts hi]
        simp
      · simpa using (hit_false hv'.key).mp (hfront a ha)
    simp only [if_neg hvalue, Nat.zero_add, haddress]
    refine ⟨_, rfl, ?_⟩
    rw [output_eq]
    refine put_found hr hv' hvalue hfind (fun _ => rfl) (fun b a' hb => ?_) fun hb => ?_
    · by_cases ho : hv.offset = some b
      · rw [ho, output_self] at hb
        exact .inr ⟨ho, (Option.some.inj hb).symm⟩
      · rw [output_ne ho] at hb
        exact .inl hb
    · by_cases ho : hv.offset = some .contentType
      · rw [ho, output_self] at hb
        exact absurd hb (Option.some_ne_none _)
      · rw [output_ne ho] at hb
        exact hb
  | nothing hnone =>
    have hmiss : ∀ a ∈ r.list.addrs, (r.mem a).name ≠ lower hv.key :=
      fun a ha => (hit_false hv'.key).mp (hnone a ha)
    by_cases hreplace : hv.replace = true
    · refine ⟨r, if_pos (.inr hreplace), hr, ?_, Nat.le_succ _⟩
      simp only [HeadersIn.receives, Received.put, if_neg hvalue, setEntry_missed hmiss, hreplace, if_true,
        List.append_nil]
    · obtain ⟨c, hc, -⟩ := hr.head
      have hne : r.list.addrs ≠ [] := List.ne_nil_of_mem (List.mem_of_head? hc)
      obtain ⟨a, r₁, hout, hg⟩ := (hpush r hr.spaced hne hr.pool).grown hr.spaced
      have hpool : r₁.pool = [] := (congrArg HeadersIn.pool hg.same).trans hr.pool
      have hor : ¬ (value = [] ∨ hv.replace = true) := not_or.mpr ⟨hvalue, hreplace⟩
      simp only [if_neg hor, hout]
      generalize hr₂ : (r₁.update a fun h => { h with hash := hv.hash, key := hv.key, value := value }) = r₂
      have hpool₂ : r₂.pool = [] := by rw [← hr₂]; exact hpool
      have htrue : ¬ r₂.pool.headD true = false := by rw [hpool₂]; exact Bool.noConfusion
      have htail : { r₂ with pool := r₂.pool.tail } = r₂ := by
        rw [hpool₂, List.tail_nil, ← hpool₂]
      rw [if_neg htrue, htail, ← hr₂, update_update]
      exact ⟨_, rfl, put_pushed hr hv' hvalue (Bool.eq_false_iff.mpr hreplace) hmiss hg fun _ => rfl⟩

/-- A header that has a field of its own, or none. -/
theorem builtin_put (hpush : Pushes listPush) (hr : Ready first r) (hv' : hv.Sound)
    (hne : lower hv.key = first → value ≠ []) (hfuel : r.list.addrs.length < fuel) :
    ∃ r', ngxHttpSetBuiltinInputHeader listPush fuel r hv value = some (.ok, r') ∧ Put first hv value r r' := by
  obtain ⟨fuel, rfl⟩ := Nat.exists_eq_add_one_of_ne_zero (Nat.ne_of_gt (Nat.zero_lt_of_lt hfuel))
  obtain ⟨c, hc, hfirst⟩ := hr.head
  have hclear : ∀ r₁ : HeadersIn, value = [] → r₁.list = r.list → r₁.pool = r.pool → r₁.builtin = r.builtin →
      r₁.server = r.server → r₁.contentLengthN = r.contentLengthN → (∀ a, (r₁.mem a).key = (r.mem a).key) →
      (∀ a, (r.mem a).name ≠ lower hv.key → (r₁.mem a).entry = (r.mem a).entry) →
      ∃ r', ngxHttpSetInputHeaderHelper listPush r₁ hv value hv.offset (fuel + 1) = some (.ok, r') ∧
        Put first hv value r r' := by
    rintro r₁ rfl hlist hp hbs hserver hlength hkeys hentries
    have hmiss : r₁.hit hv c = false := by
      rw [hit_congr hkeys, hit_false hv'.key, hfirst]
      exact fun h => hne h.symm rfl
    obtain ⟨r', hr', hthin⟩ : ∃ r', ngxHttpSetInputHeaderHelper listPush r₁ hv [] hv.offset (fuel + 1) =
        some (.ok, r') ∧ Thinned hv hv.offset r₁ r' :=
      thinned (hlist ▸ hr.spaced) (hp.trans hr.pool) (by rw [hlist]; exact hfuel) (by rw [hlist]; exact hc) hmiss
    exact ⟨r', hr', put_thinned hr hv' (fun h => hne h rfl) hlist hbs hserver hlength hkeys hentries hthin⟩
  rw [ngxHttpSetBuiltinInputHeader]
  cases hold : hv.offset.bind r.builtin with
  | none =>
    by_cases hvalue : value = []
    · exact hclear r hvalue rfl rfl rfl rfl rfl (fun _ => rfl) fun _ _ => rfl
    · exact helper_put hpush hr hv' hvalue
  | some a =>
    obtain ⟨b, ho, ha⟩ := Option.bind_eq_some_iff.mp hold
    have hfind := hr.pointed.points b a ha
    rw [← hv'.offset_iff.mp ho] at hfind
    have hname : (r.mem a).name = lower hv.key := by simpa using List.find?_some hfind
    dsimp only
    by_cases hvalue : value = []
    · rw [if_pos hvalue]
      refine hclear (r.update a fun h => { h with hash := 0, value := value }) hvalue rfl rfl rfl rfl rfl
        (update_key fun _ => rfl) fun a' ha' => ?_
      have hother : a' ≠ a := by
        rintro rfl
        exact ha' hname
      rw [update_ne hother]
    · rw [if_neg hvalue]
      exact ⟨_, rfl, put_found (f := fun h => { h with hash := hv.hash, value := value }) hr hv' hvalue hfind
        (fun _ => rfl) (fun b a' hb => .inl hb) id⟩

end Handled

section Runs
variable {υ : Type} {listPush : HeadersIn → Option ℕ × HeadersIn} {atosz : List UInt8 → Option ℕ}
  {eval : HeadersIn → υ → Option (List UInt8)} {view : Received → υ → Option (List UInt8)} {hv : InputVal υ}
  {hvs : List (InputVal υ)} {cmd : InputCmd υ} {cmds : List (InputCmd υ)} {value first : List UInt8}
  {r r' : HeadersIn} {fuel : ℕ}

/-- What has been done to a request, compared with what is to be done to its names and values. -/
structure Served (first : List UInt8) (r : HeadersIn) (q : Option Received) (n : ℕ) (out : Rc × HeadersIn) :
    Prop where
  ready : Ready first out.2
  receives : q = if out.1 = .ok then some out.2.receives else none
  length : out.2.list.addrs.length ≤ r.list.addrs.length + n

theorem Put.served (h : Put first hv value r r') : Served first r (some (r.receives.put hv value)) 1 (.ok, r') :=
  ⟨h.ready, congrArg some h.receives.symm, h.length⟩

/-- What the server has taken from the headers is not looked at. -/
theorem Ready.of (hr : Ready first r) (server : List UInt8) (n : ℤ) :
    Ready first { r with server := server, contentLengthN := n } :=
  ⟨hr.spaced, hr.pool, ⟨hr.pointed.points, hr.pointed.typed⟩, hr.head⟩

theorem handleInput_served (hpush : Pushes listPush) (hr : Ready first r) (hv' : hv.Sound)
    (hne : lower hv.key = first → value ≠ []) (hfuel : r.list.addrs.length < fuel) :
    ∃ out, handleInput listPush atosz fuel r hv value = some out ∧
      Served first r (r.receives.handle atosz hv value) 1 out := by
  have hbuiltin : ∀ server n, ∃ out, ngxHttpSetBuiltinInputHeader listPush fuel
      { r with server := server, contentLengthN := n } hv value = some out ∧
      Served first r (some (({ r.receives with server := server, contentLengthN := n } : Received).put hv value)) 1 out := by
    intro server n
    obtain ⟨r', hr', hput⟩ := builtin_put hpush (hr.of server n) hv' hne hfuel
    exact ⟨_, hr', hput.served.ready, hput.served.receives, hput.length⟩
  rw [handleInput, Received.handle]
  cases hh : hv.handler with
  | header =>
    obtain ⟨out, hout, hserved⟩ := hbuiltin r.server r.contentLengthN
    rw [ngxHttpSetBuiltinInputHeader, hv'.header hh] at hout
    exact ⟨out, hout, hserved⟩
  | builtin => exact hbuiltin r.server r.contentLengthN
  | host => exact hbuiltin value r.contentLengthN
  | contentLength =>
    dsimp only
    rw [ngxHttpSetContentLengthInputHeader]
    by_cases hvalue : value = []
    · subst hvalue
      exact hbuiltin r.server (-1)
    · rw [if_neg hvalue, if_neg hvalue]
      cases atosz value with
      | none => exact ⟨_, rfl, hr, rfl, Nat.le_succ _⟩
      | some len => exact hbuiltin r.server len

/-- How the directives are used: a header with the name of the first one is never cleared. -/
structure InputVal.Used (view : Received → υ → Option (List UInt8)) (first : List UInt8) (hv : InputVal υ) :
    Prop where
  sound : hv.Sound
  kept : lower hv.key = first → ∀ q value, view q hv.value = some value → value.dropLast ≠ []

theorem execInputLoop_served (hpush : Pushes listPush)
    (hview : ∀ r, Ready first r → ∀ v, eval r v = view r.receives v) (hr : Ready first r)
    (hvs' : ∀ hv ∈ hvs, hv.Used view first) (hfuel : r.list.addrs.length + hvs.length ≤ fuel) :
    ∃ out, execInputLoop listPush atosz eval fuel r hvs = some out ∧
      Served first r (r.receives.execLoop view atosz hvs) hvs.length out := by
  induction hvs generalizing r with
  | nil => exact ⟨_, rfl, hr, rfl, Nat.le_refl _⟩
  | cons hv hvs ih =>
    rw [List.forall_mem_cons] at hvs'
    obtain ⟨hused, hrest⟩ := hvs'
    rw [List.length_cons] at hfuel
    rw [execInputLoop, Received.execLoop, hview r hr]
    cases hvalue : view r.receives hv.value with
    | none => exact ⟨_, rfl, hr, rfl, Nat.le_add_right _ _⟩
    | some value =>
      obtain ⟨out, hout, hserved⟩ : ∃ out, handleInput listPush atosz fuel r hv value.dropLast = some out ∧
          Served first r (r.receives.handle atosz hv value.dropLast) 1 out :=
        handleInput_served hpush hr hused.sound (fun hk => hused.kept hk _ _ hvalue) (by omega)
      have hlength := hserved.length
      simp only [hout, Option.bind_some, hserved.receives]
      by_cases hok : out.1 = .ok
      · obtain ⟨out', hout', hserved'⟩ := ih hserved.ready hrest (by omega)
        have hlength' := hserved'.length
        rw [if_pos hok, if_pos hok]
        refine ⟨out', hout', hserved'.ready, hserved'.receives, ?_⟩
        rw [List.length_cons]
        omega
      · rw [if_neg hok, if_neg hok]
        refine ⟨_, rfl, hserved.ready, rfl, ?_⟩
        rw [List.length_cons]
        exact hlength.trans (by omega)

/-- The type that is looked at is that of the first header with its name. -/
theorem checkInputType_admits (h : Pointed r) (types : List (List UInt8)) :
    ngxHttpHeadersMoreCheckInputType r types = r.receives.admits types := by
  have hfind : (r.receives.entries.find? fun e => lower e.1 = BuiltinIn.contentType.name) =
      (r.list.addrs.find? fun a => (r.mem a).name = BuiltinIn.contentType.name).map fun a => (r.mem a).entry :=
    List.find?_map
  rw [ngxHttpHeadersMoreCheckInputType, Received.admits, hfind]
  cases hb : r.builtin .contentType with
  | none =>
    have hnone : (r.list.addrs.find? fun a => (r.mem a).name = BuiltinIn.contentType.name) = none :=
      List.find?_eq_none.mpr fun a ha => by simpa using h.typed hb a ha
    rw [hnone]
    rfl
  | some a =>
    rw [h.points _ a hb]
    rfl

def InputCmd.size (cmd : InputCmd υ) : ℕ := (cmd.headers.getD []).length

theorem execInputCmd_served (hpush : Pushes listPush)
    (hview : ∀ r, Ready first r → ∀ v, eval r v = view r.receives v) (hr : Ready first r)
    (hcmd : ∀ hv ∈ cmd.headers.getD [], hv.Used view first) (hfuel : r.list.addrs.length + cmd.size ≤ fuel) :
    ∃ out, ngxHttpHeadersMoreExecInputCmd listPush atosz eval fuel r cmd = some out ∧
      Served first r (r.receives.exec view atosz cmd) cmd.size out := by
  have hchecks : ngxHttpHeadersMoreCheckInputType r = r.receives.admits := funext (checkInputType_admits hr.pointed)
  rw [ngxHttpHeadersMoreExecInputCmd, Received.exec, hchecks]
  rw [InputCmd.size] at hfuel ⊢
  cases hheaders : cmd.headers with
  | none => exact ⟨_, rfl, hr, rfl, Nat.le_add_right _ _⟩
  | some hvs =>
    rw [hheaders] at hcmd hfuel
    cases hadmits : (cmd.types.map r.receives.admits).getD true with
    | false => exact ⟨_, rfl, hr, rfl, Nat.le_add_right _ _⟩
    | true => exact execInputLoop_served hpush hview hr hcmd hfuel

theorem inputCmdLoop_served (hpush : Pushes listPush)
    (hview : ∀ r, Ready first r → ∀ v, eval r v = view r.receives v) (hr : Ready first r)
    (hcmds : ∀ cmd ∈ cmds, ∀ hv ∈ cmd.headers.getD [], hv.Used view first)
    (hfuel : r.list.addrs.length + (cmds.map InputCmd.size).sum ≤ fuel) :
    ∃ out, inputCmdLoop listPush atosz eval fuel r cmds = some out ∧
      Served first r (r.receives.run view atosz cmds) (cmds.map InputCmd.size).sum out := by
  induction cmds generalizing r with
  | nil => exact ⟨_, rfl, hr, rfl, Nat.le_refl _⟩
  | cons cmd cmds ih =>
    rw [List.forall_mem_cons] at hcmds
    rw [List.map_cons, List.sum_cons] at hfuel ⊢
    obtain ⟨out, hout, hserved⟩ : ∃ out, ngxHttpHeadersMoreExecInputCmd listPush atosz eval fuel r cmd = some out ∧
        Served first r (r.receives.exec view atosz cmd) cmd.size out :=
      execInputCmd_served hpush hview hr hcmds.1 (by omega)
    have hlength := hserved.length
    simp only [inputCmdLoop, Received.run, hout, hserved.receives]
    by_cases hok : out.1 = .ok
    · obtain ⟨out', hout', hserved'⟩ := ih hserved.ready hcmds.2 (by omega)
      have hlength' := hserved'.length
      simp only [if_pos hok, Option.bind_some]
      exact ⟨out', hout', hserved'.ready, hserved'.receives, by omega⟩
    · simp only [if_neg hok, Option.bind_none]
      exact ⟨out, rfl, hserved.ready, (if_neg hok).symm, by omega⟩

variable {compile : List UInt8 → Option υ} {zero : υ} {hashKeyLc : List UInt8 → ℕ}

/-- A command that one of the two directives makes of arguments without a NUL. -/
def InputCmd.Configured (compile : List UInt8 → Option υ) (zero : υ) (hashKeyLc : List UInt8 → ℕ)
    (cmd : InputCmd υ) : Prop :=
  ∃ opcode args, (∀ arg ∈ args, 0 ∉ arg) ∧
    ngxHttpHeadersMoreParseInputDirective compile zero hashKeyLc opcode args = .ok cmd

theorem InputCmd.Configured.sound (h : cmd.Configured compile zero hashKeyLc) :
    ∀ hv ∈ cmd.headers.getD [], hv.Sound := by
  obtain ⟨opcode, args, hnul, hcmd⟩ := h
  intro hv hmem
  obtain ⟨raw, hraw, h, replace, hst, rfl⟩ := input_headers hcmd hv hmem
  refine ⟨?_, rfl⟩
  rw [HeaderArg.inputVal, hst.key]
  exact fun h0 => hnul raw hraw (List.mem_of_mem_take h0)

/-- What the next handler finds of a request is what the commands make of its names and values, one command
after the other, and the fields point to the first headers with their names again; where a command cannot be
executed it is an error. Only the first header of the request must not be cleared. -/
theorem input_refines (hpush : Pushes listPush)
    (hview : ∀ r, Ready first r → ∀ v, eval r v = view r.receives v) (hr : Ready first r)
    (hcmds : ∀ cmd ∈ cmds, cmd.Configured compile zero hashKeyLc)
    (hkept : ∀ cmd ∈ cmds, ∀ hv ∈ cmd.headers.getD [], lower hv.key = first →
      ∀ q value, view q hv.value = some value → value.dropLast ≠ [])
    (hfuel : r.list.addrs.length + (cmds.map InputCmd.size).sum ≤ fuel) :
    ∃ out, inputCmdLoop listPush atosz eval fuel r cmds = some out ∧ Ready first out.2 ∧
      r.receives.run view atosz cmds = if out.1 = .ok then some out.2.receives else none := by
  have hused : ∀ cmd ∈ cmds, ∀ hv ∈ cmd.headers.getD [], hv.Used view first :=
    fun cmd hcmd hv hmem => ⟨(hcmds cmd hcmd).sound hv hmem, hkept cmd hcmd hv hmem⟩
  obtain ⟨out, hout, hserved⟩ : ∃ out, inputCmdLoop listPush atosz eval fuel r cmds = some out ∧
      Served first r (r.receives.run view atosz cmds) (cmds.map InputCmd.size).sum out :=
    inputCmdLoop_served hpush hview hr hused hfuel
  exact ⟨out, hout, hserved.ready, hserved.receives⟩

end Runs

/-- `ngx_list_push`, with new arrays behind all headers of the list. -/
def pushBehind (r : HeadersIn) : Option ℕ × HeadersIn :=
  match r.list.parts.getLast? with
  | none => (none, r)
  | some p =>
    if p.nelts = r.list.nalloc then
      let elts := r.list.addrs.foldr max 0 + 1
      (some elts, { r with list := ⟨r.list.parts ++ [⟨elts, 1, elts + r.list.nalloc⟩], r.list.nalloc⟩ })
    else
      (some (p.elts + p.nelts),
        { r with list := ⟨r.list.parts.dropLast ++ [{ p with nelts := p.nelts + 1 }], r.list.nalloc⟩ })

theorem le_foldr_max {l : List ℕ} {a : ℕ} (h : a ∈ l) : a ≤ l.foldr max 0 := by
  induction l with
  | nil => cases h
  | cons b l ih =>
    rw [List.foldr_cons]
    rcases List.mem_cons.mp h with rfl | h
    · exact le_max_left _ _
    · exact (ih h).trans (le_max_right _ _)

theorem pushBehind_pushes : Pushes pushBehind := by
  intro r hl hne _
  rw [pushBehind]
  cases hlast : r.list.parts.getLast? with
  | none =>
    rw [List.getLast?_eq_none_iff] at hlast
    exact absurd (by rw [HeaderList.addrs, hlast]; rfl) hne
  | some p =>
    have hparts : r.list.parts = r.list.parts.dropLast ++ [p] := (List.dropLast_append_getLast? p hlast).symm
    by_cases hn : p.nelts = r.list.nalloc
    · simp only [if_pos hn]
      refine .part hparts hn fun a ha => .inl ?_
      have hle := le_foldr_max ha
      omega
    · simp only [if_neg hn]
      have hle := (hl.roomy.room p hlast).1
      exact .room hparts (by omega)

/-- `Content-Type: c`. -/
def typeVal : InputVal (List UInt8) := ⟨[99, 0], 1, lit "Content-Type", .builtin, some .contentType, false⟩

theorem hostFoo_ready : Ready (lit "host") hostFoo where
  spaced := by
    refine ⟨fresh_roomy (n := 2) (by decide) (by decide), by decide, fun p hp a hle _ hmem => ?_⟩
    have hp : (⟨0, 2, 20⟩ : Part) = p := Option.some.inj hp
    have hmem : a ∈ Part.addrs ⟨0, 2, 20⟩ := hmem
    subst hp
    obtain ⟨i, hi, rfl⟩ := mem_addrs.mp hmem
    dsimp only at hle hi
    omega
  pool := rfl
  pointed := ⟨fun b a h => absurd h (Option.some_ne_none a).symm, fun _ => by decide⟩
  head := ⟨0, rfl, by decide⟩

/-- A header is pushed, and another one is taken out of the middle. -/
theorem input_refines_hostFoo : ∃ out, inputCmdLoop pushBehind (fun _ => none) (fun _ v => some v) 4 hostFoo
    [⟨none, some [typeVal]⟩, ⟨none, some [xFooVal]⟩] = some out ∧
      out.2.receives.entries = [(lit "Host", lit "a"), (lit "Content-Type", lit "c")] := by
  have hset : ngxHttpHeadersMoreSetInputHeaders some [] (fun _ => 1) [lit "Content-Type: c"] =
      .ok ⟨none, some [typeVal]⟩ := rfl
  have hclear : ngxHttpHeadersMoreClearInputHeaders some [] (fun _ => 1) [lit "X-Foo"] =
      .ok ⟨none, some [xFooVal]⟩ := rfl
  have hcmds : ∀ cmd ∈ [(⟨none, some [typeVal]⟩ : InputCmd (List UInt8)), ⟨none, some [xFooVal]⟩],
      cmd.Configured some [] fun _ => 1 := by
    refine List.forall_mem_cons.mpr ⟨⟨_, _, ?_, hset⟩, List.forall_mem_singleton.mpr ⟨_, _, ?_, hclear⟩⟩ <;>
      exact List.forall_mem_singleton.mpr (by decide)
  have hother : ∀ cmd ∈ [(⟨none, some [typeVal]⟩ : InputCmd (List UInt8)), ⟨none, some [xFooVal]⟩],
      ∀ hv ∈ cmd.headers.getD [], lower hv.key ≠ lit "host" := by decide
  obtain ⟨out, hout, -, hrun⟩ := @input_refines _ pushBehind (fun _ => none) (fun _ v => some v)
    (fun _ v => some v) [⟨none, some [typeVal]⟩, ⟨none, some [xFooVal]⟩] (lit "host") hostFoo 4 some []
    (fun _ => 1) pushBehind_pushes (fun _ _ _ => rfl) hostFoo_ready hcmds
    (fun cmd hcmd hv hmem h => absurd h (hother cmd hcmd hv hmem)) (by decide)
  refine ⟨out, hout, ?_⟩
  have hq : hostFoo.receives.run (fun _ v => some v) (fun _ => none)
      [⟨none, some [typeVal]⟩, ⟨none, some [xFooVal]⟩] =
      some ⟨[(lit "Host", lit "a"), (lit "Content-Type", lit "c")], [], -1⟩ := rfl
  rw [hq] at hrun
  by_cases hok : out.1 = .ok
  · rw [if_pos hok] at hrun
    rw [← Option.some.inj hrun]
  · rw [if_neg hok] at hrun
    exact absurd hrun (Option.some_ne_none _)

end NginB.HeadersMore
