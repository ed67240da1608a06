import Mathlib.Data.Int.Order.Basic
import NginB.Program.Memory

/-! # The coolplay body filter

Where the last buffer of a chain comes by, the filter puts the strings of an array behind it: into the
last link while its buffer is empty, and else into a new link. It takes the array itself for the
strings that it holds.
-/
namespace NginB.Coolplay
open NginB.Program

abbrev Bytes := List UInt8

/-- A buffer: what it holds in memory or of a file, and whether it is the last of the response. -/
structure Buf where
  pos : ℕ
  last : ℕ
  start : ℕ
  finish : ℕ
  filePos : ℕ
  fileLast : ℕ
  file : Bytes
  temporary : Bool
  memory : Bool
  mmap : Bool
  lastBuf : Bool
  deriving DecidableEq

def ngxCallocBuf : Buf := ⟨0, 0, 0, 0, 0, 0, [], false, false, false, false⟩

/-- `ngx_buf_in_memory`. -/
def Buf.inMemory (b : Buf) : Bool := b.temporary || b.memory || b.mmap

/-- `ngx_buf_size`. -/
def Buf.size (b : Buf) : ℤ := if b.inMemory then (b.last : ℤ) - b.pos else (b.fileLast : ℤ) - b.filePos

def Buf.bytes (m : Memory) (b : Buf) : Option Bytes :=
  if b.inMemory then m.load b.pos (b.last - b.pos)
  else some ((b.file.drop b.filePos).take (b.fileLast - b.filePos))

structure NgxStr where
  len : ℕ
  data : ℕ
  deriving DecidableEq

def strAt (m : Memory) (a : ℕ) : Option NgxStr := do
  let len ← m.word a
  let data ← m.word (a + 8)
  some ⟨len, data⟩

def NgxStr.bytes (m : Memory) (p : NgxStr) : Option Bytes := m.load p.data p.len

/-- The bytes of `n` strings that stand one behind the other from an address on. -/
def stringsAt (m : Memory) (a n : ℕ) : Option Bytes :=
  ((List.range n).mapM fun i => strAt m (a + 16 * i)).bind (gather (NgxStr.bytes m))

/-- What the filter reads of a request: `r->header_only`, whether the header filter has set a context,
and the array of the configuration. -/
structure Request where
  headerOnly : Bool
  ctx : Bool
  plugins : ℕ

def pluginBuf (p : NgxStr) : Buf :=
  { ngxCallocBuf with
    pos := p.data
    last := p.data + p.len
    start := p.data
    finish := p.data + p.len
    memory := true
    lastBuf := true }

/-- A chain, and where in it `chain_link` stands. -/
structure Chain where
  links : List Buf
  chainLink : ℕ

/-- A pass of the loop over the strings. A link that is added is the last one. -/
def Chain.append (s : Chain) (p : NgxStr) : Chain :=
  match s.links[s.chainLink]? with
  | none => s
  | some c =>
    if c.size = 0 then { s with links := s.links.set s.chainLink (pluginBuf p) }
    else ⟨s.links.take s.chainLink ++ [{ c with lastBuf := false }, pluginBuf p], s.chainLink + 1⟩

/-- `ngx_http_aqb_cp_body_filter`: the chain for the next filter, `none` where a read faults. The
strings are read from `(ngx_str_t *)cpcf->plugins`. -/
def ngxHttpAqbCpBodyFilter (m : Memory) (r : Request) (chain : List Buf) : Option (List Buf) :=
  if chain.isEmpty || r.headerOnly then some chain
  else if r.ctx then
    match chain.findIdx? (·.lastBuf) with
    | none => some chain
    | some link => do
      let nelts ← m.word (r.plugins + 8)
      let s ← (List.range nelts).foldlM (fun s i => do
        let p ← strAt m (r.plugins + 16 * i)
        some (s.append p)) (⟨chain, link⟩ : Chain)
      some s.links
  else some chain

/-- The one end mark of the chain is on its last link. -/
def EndsOnce (chain : List Buf) : Prop :=
  ∃ front b, chain = front ++ [b] ∧ b.lastBuf = true ∧ ∀ c ∈ front, c.lastBuf = false

/-- An `ngx_array_t` of `n` strings stands at an address, with the bytes `ys` in its elements. -/
structure PluginArray (m : Memory) (a n : ℕ) (ys : Bytes) : Prop where
  nelts : m.word (a + 8) = some n
  elts : ∃ e, m.word a = some e ∧ stringsAt m e n = some ys

/-- The filter forwards a chain with one end mark, on its last link, and the bytes `xs` and `ys`. -/
def Appends (m : Memory) (r : Request) (chain : List Buf) (xs ys : Bytes) : Prop :=
  ∃ out, ngxHttpAqbCpBodyFilter m r chain = some out ∧ gather (Buf.bytes m) out = some (xs ++ ys) ∧
    EndsOnce out

section Surgery
variable {m : Memory}

theorem bytes_pluginBuf (p : NgxStr) : (pluginBuf p).bytes m = p.bytes m := by
  have hlen : p.data + p.len - p.data = p.len := by omega
  have hmem : (pluginBuf p).inMemory = true := rfl
  rw [Buf.bytes, if_pos hmem, NgxStr.bytes]
  exact congrArg (m.load p.data) hlen

theorem bytes_of_size {b : Buf} (h : b.size = 0) : b.bytes m = some [] := by
  unfold Buf.size at h
  unfold Buf.bytes
  split at h
  next hmem =>
    have hzero : b.last - b.pos = 0 := by omega
    rw [if_pos hmem, hzero, Memory.load]
  next hfile =>
    have hzero : b.fileLast - b.filePos = 0 := by omega
    rw [if_neg hfile, hzero, List.take_zero]

/-- What holds of the chain while the strings are put in. -/
structure Chain.Growing (m : Memory) (s : Chain) (xs : Option Bytes) : Prop where
  ends : ∃ front b, s.links = front ++ [b] ∧ s.chainLink = front.length ∧ b.lastBuf = true ∧
    ∀ c ∈ front, c.lastBuf = false
  bytes : gather (Buf.bytes m) s.links = xs

/-- A pass puts one string behind what the chain delivers, and moves the end mark to it. -/
theorem Chain.Growing.append {s : Chain} {xs : Option Bytes} (h : s.Growing m xs) (p : NgxStr) :
    (s.append p).Growing m (xs.bind fun x => (p.bytes m).map fun y => x ++ y) := by
  obtain ⟨⟨front, b, hlinks, hlink, hlast, hfront⟩, hbytes⟩ := h
  have hget : s.links[s.chainLink]? = some b := by
    rw [hlinks, hlink, List.getElem?_append_right (Nat.le_refl _), Nat.sub_self]
    rfl
  rw [hlinks, gather_append, gather_singleton] at hbytes
  rw [Chain.append, hget]
  dsimp only
  split
  next hsize =>
    have hset : s.links.set s.chainLink (pluginBuf p) = front ++ [pluginBuf p] := by
      rw [hlinks, hlink, List.set_append_right _ _ (Nat.le_refl _), Nat.sub_self]
      rfl
    rw [hset]
    constructor
    · exact ⟨front, pluginBuf p, rfl, hlink, rfl, hfront⟩
    · rw [bytes_of_size hsize] at hbytes
      rw [gather_append, gather_singleton, bytes_pluginBuf, ← hbytes]
      cases gather (Buf.bytes m) front <;> simp
  next hsize =>
    have hback : ({ b with lastBuf := false } : Buf).bytes m = b.bytes m := rfl
    have htake : s.links.take s.chainLink = front := by
      rw [hlinks, hlink]
      exact List.take_left' rfl
    have hsplit : front ++ [{ b with lastBuf := false }, pluginBuf p] =
        (front ++ [{ b with lastBuf := false }]) ++ [pluginBuf p] := by
      rw [List.append_assoc]
      rfl
    rw [htake, hsplit]
    constructor
    · refine ⟨front ++ [{ b with lastBuf := false }], pluginBuf p, rfl, by simp [hlink], rfl, ?_⟩
      intro c hc
      rcases List.mem_append.mp hc with hc | hc
      · exact hfront c hc
      · rw [List.mem_singleton.mp hc]
    · rw [gather_append, gather_singleton, gather_append, gather_singleton, hback, bytes_pluginBuf, hbytes]

theorem Chain.Growing.foldl {s : Chain} {xs : Option Bytes} (h : s.Growing m xs) (ps : List NgxStr) :
    (ps.foldl Chain.append s).Growing m
      (xs.bind fun x => (gather (NgxStr.bytes m) ps).map fun y => x ++ y) := by
  induction ps generalizing s xs with
  | nil => cases xs <;> simpa [gather] using h
  | cons p ps ih =>
    have hrest := ih (h.append p)
    rw [List.foldl_cons]
    cases xs with
    | none => exact hrest
    | some x =>
      rw [gather]
      cases hp : p.bytes m with
      | none => simpa [hp] using hrest
      | some y => cases hq : gather (NgxStr.bytes m) ps <;> simpa [hp, hq] using hrest

end Surgery

section Filter
variable {m : Memory} {r : Request} {chain : List Buf} {xs ys : Bytes} {n : ℕ}

theorem findIdx_ends {front : List Buf} {b : Buf} (hlast : b.lastBuf = true)
    (hfront : ∀ c ∈ front, c.lastBuf = false) :
    (front ++ [b]).findIdx? (·.lastBuf) = some front.length := by
  have hnone : front.findIdx? (·.lastBuf) = none := by
    rw [List.findIdx?_eq_none_iff]
    exact hfront
  rw [List.findIdx?_append, hnone]
  simp [hlast]

/-- What the filter forwards of a response that it handles: the strings are put in that stand where the
array itself stands. -/
theorem bodyFilter_handled (hchain : EndsOnce chain) (hheader : r.headerOnly = false) (hctx : r.ctx = true)
    (hn : m.word (r.plugins + 8) = some n) :
    ((List.range n).mapM fun i => strAt m (r.plugins + 16 * i)) = none ∧
        ngxHttpAqbCpBodyFilter m r chain = none ∨
      ∃ ps out, ((List.range n).mapM fun i => strAt m (r.plugins + 16 * i)) = some ps ∧
        ngxHttpAqbCpBodyFilter m r chain = some out ∧ EndsOnce out ∧
        gather (Buf.bytes m) out = (gather (Buf.bytes m) chain).bind fun x =>
          (gather (NgxStr.bytes m) ps).map fun y => x ++ y := by
  obtain ⟨front, b, rfl, hlast, hfront⟩ := hchain
  have hfilter : ngxHttpAqbCpBodyFilter m r (front ++ [b]) =
      ((List.range n).mapM fun i => strAt m (r.plugins + 16 * i)).map fun ps =>
        (ps.foldl Chain.append ⟨front ++ [b], front.length⟩).links := by
    rw [ngxHttpAqbCpBodyFilter, if_neg (by simp [hheader]), if_pos hctx, findIdx_ends hlast hfront]
    dsimp only
    rw [hn, Option.bind_eq_bind, Option.bind_some, foldlM_read]
    cases (List.range n).mapM fun i => strAt m (r.plugins + 16 * i) <;> rfl
  rw [hfilter]
  cases (List.range n).mapM fun i => strAt m (r.plugins + 16 * i) with
  | none => exact .inl ⟨rfl, rfl⟩
  | some ps =>
    have hstart : Chain.Growing m ⟨front ++ [b], front.length⟩ (gather (Buf.bytes m) (front ++ [b])) :=
      ⟨⟨front, b, rfl, rfl, hlast, hfront⟩, rfl⟩
    obtain ⟨⟨front', b', hlinks, -, hlast', hfront'⟩, hbytes⟩ := hstart.foldl ps
    exact .inr ⟨ps, _, rfl, rfl, ⟨front', b', hlinks, hlast', hfront'⟩, hbytes⟩

theorem bodyFilter_not_handled (h : ¬ (r.headerOnly = false ∧ r.ctx = true)) :
    ngxHttpAqbCpBodyFilter m r chain = some chain := by
  rw [ngxHttpAqbCpBodyFilter]
  split
  · rfl
  next hgate =>
    rw [Bool.or_eq_true, not_or, Bool.not_eq_true, Bool.not_eq_true] at hgate
    exact if_neg fun hctx => h ⟨hgate.2, hctx⟩

/-- A response that is handled ends as it must just when the words of the array itself, taken for
strings, are the bytes of the strings that it holds. -/
theorem appends_handled (hchain : EndsOnce chain) (hxs : gather (Buf.bytes m) chain = some xs)
    (hplugins : PluginArray m r.plugins n ys) (hheader : r.headerOnly = false) (hctx : r.ctx = true) :
    Appends m r chain xs ys ↔ stringsAt m r.plugins n = some ys := by
  rw [stringsAt]
  rcases bodyFilter_handled hchain hheader hctx hplugins.nelts with
    ⟨hnone, hfault⟩ | ⟨ps, out, hps, hout, hends, hbytes⟩
  · rw [hnone]
    apply iff_of_false
    · rintro ⟨out, hout, -⟩
      cases hfault.symm.trans hout
    · exact fun h => by cases h
  · rw [hps, Option.bind_some]
    rw [hxs, Option.bind_some] at hbytes
    constructor
    · rintro ⟨out', hout', hdelivered, -⟩
      cases hout.symm.trans hout'
      obtain ⟨y, hy, hjoin⟩ := Option.map_eq_some_iff.mp (hbytes.symm.trans hdelivered)
      rw [hy, List.append_cancel_left hjoin]
    · intro hys
      rw [hys] at hbytes
      exact ⟨out, hout, hbytes, hends⟩

theorem appends_not_handled (hchain : EndsOnce chain) (hxs : gather (Buf.bytes m) chain = some xs)
    (h : ¬ (r.headerOnly = false ∧ r.ctx = true)) : Appends m r chain xs ys ↔ ys = [] := by
  constructor
  · rintro ⟨out, hout, hbytes, -⟩
    cases (bodyFilter_not_handled h).symm.trans hout
    rw [hxs, Option.some.injEq, List.self_eq_append_right] at hbytes
    exact hbytes
  · rintro rfl
    refine ⟨chain, bodyFilter_not_handled h, ?_, hchain⟩
    rw [hxs, List.append_nil]

/-- The address that the array begins with, taken for a length, leads to a read at the address that
its count is. -/
theorem stringsAt_array (hplugins : PluginArray m r.plugins n ys) (hlow : ∀ a ≤ n, m a = none) (hn : 0 < n) :
    stringsAt m r.plugins n = none := by
  obtain ⟨e, he, helts⟩ := hplugins.elts
  obtain ⟨k, rfl⟩ : ∃ k, n = k + 1 := ⟨n - 1, by omega⟩
  have hfirst : strAt m r.plugins = some ⟨e, k + 1⟩ := by
    rw [strAt, he, hplugins.nelts]
    rfl
  have hpos : 0 < e := by
    apply Nat.pos_of_ne_zero
    rintro rfl
    have hzero : strAt m 0 = none := by
      rw [strAt, word_none (hlow 0 (Nat.zero_le _))]
      rfl
    rw [stringsAt, List.range_succ_eq_map, List.mapM_cons, Nat.mul_zero, hzero] at helts
    cases helts
  have hfault : NgxStr.bytes m ⟨e, k + 1⟩ = none := load_none (hlow (k + 1) (Nat.le_refl _)) hpos
  rw [stringsAt, List.range_succ_eq_map, List.mapM_cons, Nat.mul_zero, Nat.add_zero, hfirst]
  cases (List.map Nat.succ (List.range k)).mapM fun i => strAt m (r.plugins + 16 * i) with
  | none => rfl
  | some ps =>
    change gather (NgxStr.bytes m) (⟨e, k + 1⟩ :: ps) = none
    rw [gather, hfault]
    rfl

/-- The filter does what it is for just when the words of the array itself, taken for strings, are the
bytes of the strings that it holds, or, where it does not handle the response, these have none. Where
the count of the array is no address that can be read, the array is empty then. -/
theorem appends_iff (hchain : EndsOnce chain) (hxs : gather (Buf.bytes m) chain = some xs)
    (hplugins : PluginArray m r.plugins n ys) :
    (Appends m r chain xs ys ↔
      if r.headerOnly = false ∧ r.ctx = true then stringsAt m r.plugins n = some ys else ys = []) ∧
    (r.headerOnly = false ∧ r.ctx = true → (∀ a ≤ n, m a = none) →
      (Appends m r chain xs ys ↔ n = 0)) := by
  constructor
  · split
    next h => exact appends_handled hchain hxs hplugins h.1 h.2
    next h => exact appends_not_handled hchain hxs h
  · intro h hlow
    rw [appends_handled hchain hxs hplugins h.1 h.2]
    constructor
    · intro hys
      by_contra hn
      rw [stringsAt_array hplugins hlow (Nat.pos_of_ne_zero hn)] at hys
      cases hys
    · rintro rfl
      obtain ⟨e, -, helts⟩ := hplugins.elts
      exact helts

end Filter

/-- An array with the one string `x`, at the address 64. -/
def oneString : Memory := fun a =>
  if a < 64 then none else (([104, 1, 16, 10, 0, 1, 120].flatMap (toBytes 8)) ++ [120])[a - 64]?

theorem oneString_array : PluginArray oneString 64 1 [120] := ⟨by decide, 104, by decide, by decide⟩

def emptyEnd : List Buf := [{ ngxCallocBuf with lastBuf := true }]

theorem emptyEnd_ends : EndsOnce emptyEnd := ⟨[], _, rfl, rfl, by simp⟩

theorem appends_iff_one_string :
    (Appends oneString ⟨false, true, 64⟩ emptyEnd [] [120] ↔ stringsAt oneString 64 1 = some [120]) ∧
      (Appends oneString ⟨false, true, 64⟩ emptyEnd [] [120] ↔ 1 = 0) := by
  have hxs : gather (Buf.bytes oneString) emptyEnd = some [] := by decide
  obtain ⟨hstrings, hempty⟩ := appends_iff (r := ⟨false, true, 64⟩) emptyEnd_ends hxs oneString_array
  rw [if_pos ⟨rfl, rfl⟩] at hstrings
  exact ⟨hstrings, hempty ⟨rfl, rfl⟩ (by decide)⟩

/-- The string is not delivered: what is forwarded is 104 bytes at the address 1. -/
theorem one_string_faults : ¬ ∀ (m : Memory) (r : Request) (chain : List Buf) (xs ys : Bytes) (n : ℕ),
    EndsOnce chain → gather (Buf.bytes m) chain = some xs → PluginArray m r.plugins n ys →
      r.headerOnly = false → r.ctx = true → Appends m r chain xs ys := by
  intro h
  obtain ⟨out, hout, hbytes, -⟩ := h oneString ⟨false, true, 64⟩ emptyEnd [] [120] 1 emptyEnd_ends
    (by decide) oneString_array rfl rfl
  have hforwarded : ngxHttpAqbCpBodyFilter oneString ⟨false, true, 64⟩ emptyEnd =
      some [pluginBuf ⟨104, 1⟩] := by decide
  have hfault : gather (Buf.bytes oneString) [pluginBuf ⟨104, 1⟩] = none := by decide
  cases hforwarded.symm.trans hout
  rw [hfault] at hbytes
  cases hbytes

end NginB.Coolplay
