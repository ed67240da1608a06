import NginB.HeadersMore.Fields

/-! # The commands on a response

What a list of commands does to the fields of a response, and that the header filter does just that to
the list of headers and the pointers into it. The pointers have to be true: a field that points to a
header is alone with its name.
-/
namespace NginB.HeadersMore
open NginB.Minify (lit toLower strncasecmpEq)

structure Response where
  fields : List UInt8 → List (List UInt8)
  contentType : List UInt8
  contentLengthN : ℤ
  allowRanges : Bool
  status : ℕ

def HeadersOut.sends (r : HeadersOut) : Response :=
  ⟨fields r.headers, r.contentType, r.contentLengthN, r.allowRanges, r.status⟩

def HeadersOut.names (r : HeadersOut) : List (List UInt8) := r.headers.map TableElt.name

namespace Response
variable {υ : Type}

/-- All names that the command is about get the value, or are cleared. -/
def put (p : Response) (hv : HeaderVal υ) (value : List UInt8) : Response :=
  { p with fields := fun k => if hv.covers k then single value else p.fields k }

def handle (atosz : List UInt8 → Option ℕ) (p : Response) (hv : HeaderVal υ) (value : List UInt8) :
    Option Response :=
  match hv.handler with
  | .header | .builtin | .builtinMulti => some (p.put hv value)
  | .acceptRanges =>
    some ({ p with allowRanges := if value = [] then false else p.allowRanges }.put hv value)
  | .contentLength =>
    if value = [] then some ({ p with contentLengthN := -1 }.put hv [])
    else (atosz value).map fun len => { p with contentLengthN := len }.put hv value
  | .contentType => some ({ p with contentType := value }.put hv [])

variable (view : Response → υ → Option (List UInt8)) (atosz : List UInt8 → Option ℕ)

def execLoop (p : Response) : List (HeaderVal υ) → Option Response
  | [] => some p
  | hv :: hvs => ((view p hv.value).bind fun value => p.handle atosz hv value.dropLast).bind
      fun p => p.execLoop hvs

def exec (p : Response) (cmd : Cmd υ) : Option Response :=
  match cmd.headers with
  | none => some p
  | some hvs => if cmd.admits p.contentType p.status then p.execLoop view atosz hvs else some p

/-- The commands that are not about the request. -/
def filter (p : Response) : List (Cmd υ) → Option Response
  | [] => some p
  | cmd :: cmds => if cmd.isInput then p.filter cmds else (p.exec view atosz cmd).bind fun p => p.filter cmds

end Response

def Builtin.name : Builtin → List UInt8
  | server => lit "server"
  | date => lit "date"
  | contentEncoding => lit "content-encoding"
  | location => lit "location"
  | refresh => lit "refresh"
  | lastModified => lit "last-modified"
  | contentRange => lit "content-range"
  | acceptRanges => lit "accept-ranges"
  | wwwAuthenticate => lit "www-authenticate"
  | expires => lit "expires"
  | etag => lit "e-tag"
  | contentLength => lit "content-length"

def cacheName : List UInt8 := lit "cache-control"

structure Canonical (r : HeadersOut) : Prop where
  alone : ∀ (b : Builtin) (i j : ℕ), r.names[i]? = some b.name → r.names[j]? = some b.name → i = j
  points : ∀ (b : Builtin) (i : ℕ), r.builtin b = some i → r.names[i]? = some b.name
  cached : ∀ i : ℕ, i ∈ r.cacheControl ↔ r.names[i]? = some cacheName

structure HeaderVal.Sound {υ : Type} (hv : HeaderVal υ) : Prop where
  hash : hv.hash ≠ 0
  key : 0 ∉ hv.key
  wildcard : hv.wildcard = true → hv.key.getLast? = some 42
  handler : (hv.handler, hv.offset) = findHandler hv.key

section Handlers
variable {υ : Type} {hv : HeaderVal υ} {value k : List UInt8} {r r' : HeadersOut} {o : Option Builtin}
  {b : Builtin} {noCreate : Bool} {rc : Rc}

theorem covers_key (hv : HeaderVal υ) : hv.covers (lower hv.key) := by
  rw [HeaderVal.covers]
  split
  · exact List.dropLast_prefix _
  · rfl

theorem names_get {i : ℕ} {e : TableElt} (h : r.headers[i]? = some e) : r.names[i]? = some e.name := by
  rw [HeadersOut.names, List.getElem?_map, h]
  rfl

structure Kept (hv : HeaderVal υ) (o : Option Builtin) (r r' : HeadersOut) : Prop where
  names : r'.names = r.names ∨ r'.names = r.names ++ [lower hv.key] ∧ ∀ n ∈ r.names, ¬ hv.covers n
  builtin : r'.builtin = r.builtin ∨ ∃ b i n, o = some b ∧ r'.builtin = Function.update r.builtin b (some i) ∧
    r'.names[i]? = some n ∧ hv.covers n
  cacheControl : r'.cacheControl = r.cacheControl
  sends : r'.sends = { r.sends with fields := fields r'.headers }

theorem setOutput_headers (r : HeadersOut) (o : Option Builtin) (i : ℕ) :
    (setOutput r o i).headers = r.headers ∧ (setOutput r o i).cacheControl = r.cacheControl ∧
      (setOutput r o i).sends = r.sends ∧ (setOutput r o i).pool = r.pool := by
  cases o <;> exact ⟨rfl, rfl, rfl, rfl⟩

inductive Helped (r : HeadersOut) (hv : HeaderVal υ) (value : List UInt8) (o : Option Builtin)
    (noCreate : Bool) : Rc × HeadersOut → Prop
  /-- headers are hit, the last one at `i` -/
  | found {i} (hout : (setHeaderLoop hv value 0 false r.headers).2 = some i) :
      Helped r hv value o noCreate
        (.ok, setOutput { r with headers := (setHeaderLoop hv value 0 false r.headers).1 } o i)
  | nothing (hout : (setHeaderLoop hv value 0 false r.headers).2 = none) (hvalue : value = [])
      (hkeep : hv.wildcard = true ∨ noCreate = true) : Helped r hv value o noCreate (.ok, r)
  | unpushed {pool} (hout : (setHeaderLoop hv value 0 false r.headers).2 = none) (hpool : r.pool ≠ []) :
      Helped r hv value o noCreate (.internalServerError, { r with pool := pool })
  | nameless {pool} (hout : (setHeaderLoop hv value 0 false r.headers).2 = none) (hpool : r.pool ≠ []) :
      Helped r hv value o noCreate (.internalServerError,
        { r with pool := pool, headers := r.headers ++ [hv.pushed value] })
  | pushed {pool low} (hout : (setHeaderLoop hv value 0 false r.headers).2 = none)
      (hpool : r.pool = [] → pool = []) :
      Helped r hv value o noCreate (.ok, setOutput { r with
        pool := pool, headers := r.headers ++ [{ hv.pushed value with lowcaseKey := low }] }
        o r.headers.length)

theorem helped (r : HeadersOut) (hv : HeaderVal υ) (value : List UInt8) (o : Option Builtin)
    (noCreate : Bool) : Helped r hv value o noCreate (ngxHttpSetHeaderHelper r hv value o noCreate) := by
  rw [ngxHttpSetHeaderHelper]
  split
  · next i hout => exact .found hout
  · next hout =>
    split
    · next h => exact .nothing hout h.2 h.1
    · split
      · next h =>
        refine .unpushed hout fun hnil => ?_
        simp [HeadersOut.palloc, hnil] at h
      · dsimp only
        split
        · next h =>
          refine .nameless hout fun hnil => ?_
          simp [HeadersOut.palloc, HeadersOut.allocated, hnil] at h
        · refine .pushed hout fun hnil => ?_
          simp [HeadersOut.allocated, hnil]

theorem not_covers_of_none (h0 : 0 ∉ hv.key) (hout : (setHeaderLoop hv value 0 false r.headers).2 = none) :
    ∀ n ∈ r.names, ¬ hv.covers n := by
  intro n hn hcov
  obtain ⟨e, he, rfl⟩ := List.mem_map.mp hn
  exact (loop_none hout).2 e he ((hits_iff h0).mpr hcov)

theorem helper_kept (h0 : 0 ∉ hv.key) (hr : ngxHttpSetHeaderHelper r hv value o noCreate = (rc, r')) :
    Kept hv o r r' := by
  have h := helped r hv value o noCreate
  rw [hr] at h
  cases h with
  | @found i hout =>
    have hnames : HeadersOut.names { r with headers := (setHeaderLoop hv value 0 false r.headers).1 } = r.names :=
      loop_names hv value 0 false r.headers
    obtain ⟨-, e, hget, he⟩ := loop_some hout
    have hget := names_get hget
    cases o with
    | none => exact ⟨.inl hnames, .inl rfl, rfl, rfl⟩
    | some b =>
      refine ⟨.inl hnames, .inr ⟨b, i, e.name, rfl, rfl, ?_, (hits_iff h0).mp he⟩, rfl, rfl⟩
      exact (congrArg (·[i]?) hnames).trans hget
  | nothing hout hvalue hkeep => exact ⟨.inl rfl, .inl rfl, rfl, rfl⟩
  | unpushed hout hpool => exact ⟨.inl rfl, .inl rfl, rfl, rfl⟩
  | nameless hout hpool =>
    exact ⟨.inr ⟨List.map_append, not_covers_of_none h0 hout⟩, .inl rfl, rfl, rfl⟩
  | @pushed pool low hout hpool =>
    have hnames : HeadersOut.names { r with
        pool := pool, headers := r.headers ++ [{ hv.pushed value with lowcaseKey := low }] } =
        r.names ++ [lower hv.key] := List.map_append
    cases o with
    | none => exact ⟨.inr ⟨hnames, not_covers_of_none h0 hout⟩, .inl rfl, rfl, rfl⟩
    | some b =>
      refine ⟨.inr ⟨hnames, not_covers_of_none h0 hout⟩,
        .inr ⟨b, r.headers.length, lower hv.key, rfl, rfl, ?_, covers_key hv⟩, rfl, rfl⟩
      have hlen : r.headers.length = r.names.length := (List.length_map _).symm
      refine (congrArg (·[r.headers.length]?) hnames).trans ?_
      rw [hlen, List.getElem?_concat_length]

theorem helper_fields (h0 : 0 ∉ hv.key) (hhash : hv.hash ≠ 0) (hw : hv.wildcard = true → value = [])
    (hr : ngxHttpSetHeaderHelper r hv value o noCreate = (.ok, r')) :
    fields r'.headers k = if hv.covers k then single value else fields r.headers k := by
  have h := helped r hv value o noCreate
  have hnil : (setHeaderLoop hv value 0 false r.headers).2 = none → hv.covers k → fields r.headers k = [] := by
    intro hout hk
    refine fields_eq_nil fun e he hname => absurd hk ?_
    rw [← hname]
    exact not_covers_of_none h0 hout _ (List.mem_map_of_mem he)
  rw [hr] at h
  cases h with
  | @found i hout =>
    rw [(setOutput_headers _ o i).1]
    by_cases hvalue : value = []
    · rw [loop_deleted h0 (.inl hvalue), single, if_pos hvalue]
    · have hw : hv.wildcard = false := Bool.eq_false_iff.mpr fun hw' => hvalue (hw hw')
      rw [loop_set h0 hhash hw hvalue (by rw [hout]; exact Option.some_ne_none i), single, if_neg hvalue]
  | nothing hout hvalue hkeep =>
    split
    · next hk => rw [hnil hout hk, single, if_pos hvalue]
    · rfl
  | @pushed pool low hout hpool =>
    rw [(setOutput_headers _ o _).1, fields_append, fields_cons, fields_nil, List.append_nil]
    by_cases hk : hv.covers k
    · rw [if_pos hk, hnil hout hk, List.nil_append]
      by_cases hname : lower hv.key = k
      · refine sent_single hname rfl ?_
        rw [HeaderVal.pushed]
        by_cases hvalue : value = [] <;> simp [hvalue, hhash]
      · have hvalue : value = [] := by
          refine hw (Bool.of_not_eq_false fun hw' => hname ?_)
          rw [HeaderVal.covers, hw', if_neg Bool.false_ne_true] at hk
          exact hk.symm
        rw [sent_deleted (by simp [HeaderVal.pushed, hvalue]), single, if_pos hvalue]
    · have hne : TableElt.name { hv.pushed value with lowcaseKey := low } ≠ k := by
        rintro rfl
        exact hk (covers_key hv)
      rw [if_neg hk, sent_other hne, List.append_nil]

theorem covers_iff (hw : hv.wildcard = false) : hv.covers k ↔ k = lower hv.key := by
  rw [HeaderVal.covers, hw, if_neg Bool.false_ne_true]

theorem Canonical.others {e e' : TableElt} {pre post : List TableElt} (hc : Canonical r)
    (hhs : r.headers = pre ++ e :: post) (he : e.name = b.name) (he' : e' ∈ pre ++ post) : e'.name ≠ b.name := by
  intro hname
  have hat : r.headers[pre.length]? = some e := by
    rw [hhs, List.getElem?_append_right (Nat.le_refl _), Nat.sub_self]
    rfl
  obtain ⟨j, hj, hne⟩ := exists_index hhs he'
  refine hne (hc.alone b j pre.length ?_ ?_)
  · rw [names_get hj, hname]
  · rw [names_get hat, he]

/-- A field that points to a header is set where it stands. -/
theorem builtin_fields {i : ℕ} (hc : Canonical r) (hb : r.builtin b = some i) (hk : lower hv.key = b.name)
    (hw : hv.wildcard = false) {f : TableElt → TableElt}
    (hname : ∀ e, e.name = b.name → (f e).name = b.name)
    (hsent : ∀ e, e.name = b.name → (f e).sent b.name = single value) :
    fields (r.headers.modify i f) k = if hv.covers k then single value else fields r.headers k := by
  have hget := hc.points b i hb
  rw [HeadersOut.names, List.getElem?_map, Option.map_eq_some_iff] at hget
  obtain ⟨e, he, hename⟩ := hget
  by_cases hcov : hv.covers k
  · obtain rfl : k = b.name := ((covers_iff hw).mp hcov).trans hk
    obtain ⟨pre, post, hhs, -, hmod⟩ := modify_split he
    have hothers : ∀ e' ∈ pre ++ post, e'.name = b.name → e'.hash = 0 :=
      fun e' he' hname' => absurd hname' (hc.others hhs hename he')
    rw [List.forall_mem_append] at hothers
    rw [if_pos hcov, hmod, fields_append, fields_cons, fields_eq_nil hothers.1, fields_eq_nil hothers.2,
      hsent e hename, List.nil_append, List.append_nil]
  · have hne : b.name ≠ k := fun h => hcov ((covers_iff hw).mpr (h.symm.trans hk.symm))
    rw [if_neg hcov, fields_modify_ne he (by rwa [hename]) (by rwa [hname e hename])]

theorem names_modify {i : ℕ} {f : TableElt → TableElt}
    (hf : ∀ e, r.headers[i]? = some e → (f e).name = e.name) :
    HeadersOut.names { r with headers := r.headers.modify i f } = r.names := by
  cases he : r.headers[i]? with
  | none => rw [List.modify_eq_self (List.getElem?_eq_none_iff.mp he)]
  | some e =>
    obtain ⟨pre, post, hhs, -, hmod⟩ := modify_split he
    simp only [HeadersOut.names, hmod]
    rw [hhs, List.map_append, List.map_append, List.map_cons, List.map_cons, hf e he]

/-- The pointers stay true when the helper has been called. -/
theorem Canonical.kept (hc : Canonical r) (h : Kept hv o r r') (hcache : lower hv.key ≠ cacheName)
    (ho : ∀ b, o = some b → hv.wildcard = false ∧ lower hv.key = b.name) : Canonical r' := by
  have hold : ∀ {i : ℕ} {n}, r.names[i]? = some n → r'.names[i]? = some n := by
    intro i n hi
    rcases h.names with he | ⟨he, -⟩
    · rw [he, hi]
    · rw [he, List.getElem?_append_left (List.getElem?_eq_some_iff.mp hi).1, hi]
  have hnew : ∀ {i : ℕ} {n}, r'.names[i]? = some n → r.names[i]? = some n ∨
      i = r.names.length ∧ n = lower hv.key ∧ n ∉ r.names := by
    intro i n hi
    rcases h.names with he | ⟨he, hmiss⟩
    · exact .inl (he ▸ hi)
    · rw [he] at hi
      by_cases hlt : i < r.names.length
      · rw [List.getElem?_append_left hlt] at hi
        exact .inl hi
      · have hle := (List.getElem?_eq_some_iff.mp hi).1
        rw [List.length_append, List.length_singleton] at hle
        obtain rfl : i = r.names.length := by omega
        rw [List.getElem?_concat_length] at hi
        obtain rfl := Option.some.inj hi
        exact .inr ⟨rfl, rfl, fun hmem => hmiss _ hmem (covers_key hv)⟩
  refine ⟨fun b i j hi hj => ?_, fun b i hb => ?_, fun i => ?_⟩
  · rcases hnew hi with hi | ⟨rfl, hn, hnot⟩ <;> rcases hnew hj with hj | ⟨rfl, hn', hnot'⟩
    · exact hc.alone b i j hi hj
    · exact absurd (List.mem_of_getElem? hi) hnot'
    · exact absurd (List.mem_of_getElem? hj) hnot
    · rfl
  · rcases h.builtin with he | ⟨b', i', n, hb', he, hget, hcov⟩
    · rw [he] at hb
      exact hold (hc.points b i hb)
    · rw [he] at hb
      by_cases hbb : b = b'
      · subst hbb
        rw [Function.update_self] at hb
        obtain rfl := Option.some.inj hb
        obtain ⟨hw, hk⟩ := ho b hb'
        rw [hget, (covers_iff hw).mp hcov, hk]
      · rw [Function.update_of_ne hbb] at hb
        exact hold (hc.points b i hb)
  · rw [h.cacheControl, hc.cached]
    refine ⟨hold, fun hi => (hnew hi).resolve_right ?_⟩
    rintro ⟨-, hn, -⟩
    exact hcache hn.symm

structure Handled (r : HeadersOut) (p : Option Response) (out : Rc × HeadersOut) : Prop where
  canonical : r.pool = [] ∨ out.1 = .ok → Canonical out.2
  cacheControl : r.cacheControl ≠ [] → out.2.cacheControl ≠ []
  sends : out.1 = .ok → p = some out.2.sends
  pool : r.pool = [] → out.2.pool = []
  total : r.pool = [] → p ≠ none → out.1 = .ok

theorem helper_handled (hc : Canonical r) (h0 : 0 ∉ hv.key) (hhash : hv.hash ≠ 0)
    (hw : hv.wildcard = true → value = []) (hcache : lower hv.key ≠ cacheName)
    (ho : ∀ b, o = some b → hv.wildcard = false ∧ lower hv.key = b.name) :
    Handled r (some (r.sends.put hv value)) (ngxHttpSetHeaderHelper r hv value o noCreate) := by
  have hhelped := helped r hv value o noCreate
  generalize hout : ngxHttpSetHeaderHelper r hv value o noCreate = out at hhelped
  have hkept : Kept hv o r out.2 := helper_kept h0 hout
  refine ⟨fun _ => hc.kept hkept hcache ho, fun hne => by rwa [hkept.cacheControl], fun hok => ?_, ?_, ?_⟩
  · obtain ⟨rc, r'⟩ := out
    obtain rfl : rc = .ok := hok
    have hfields : fields r'.headers = fun k => if hv.covers k then single value else fields r.headers k :=
      funext fun k => helper_fields h0 hhash hw hout
    rw [hkept.sends, hfields]
    rfl
  · intro hnil
    cases hhelped with
    | found h => rw [(setOutput_headers _ o _).2.2.2]; exact hnil
    | nothing h hvalue hkeep => exact hnil
    | unpushed h hpool => exact absurd hnil hpool
    | nameless h hpool => exact absurd hnil hpool
    | pushed h hpool => rw [(setOutput_headers _ o _).2.2.2]; exact hpool hnil
  · intro hnil _
    cases hhelped with
    | found h => rfl
    | nothing h hvalue hkeep => rfl
    | unpushed h hpool => exact absurd hnil hpool
    | nameless h hpool => exact absurd hnil hpool
    | pushed h hpool => rfl

/-- The pointers stay true when headers are changed under their names. -/
theorem Canonical.of_names (hc : Canonical r) (hnames : r'.names = r.names) (hb : r'.builtin = r.builtin)
    (hcc : r'.cacheControl = r.cacheControl) : Canonical r' where
  alone := by rw [hnames]; exact hc.alone
  points := by rw [hnames, hb]; exact hc.points
  cached := by rw [hnames, hcc]; exact hc.cached

theorem sends_put {hs : List TableElt}
    (hf : ∀ k, fields hs k = if hv.covers k then single value else fields r.headers k) :
    HeadersOut.sends { r with headers := hs } = r.sends.put hv value := by
  simp only [HeadersOut.sends, funext hf]
  rfl

/-- The header that a field points to gets the value. -/
theorem found_handled {i : ℕ} (hc : Canonical r) (hb : r.builtin b = some i) (hk : lower hv.key = b.name)
    (hw : hv.wildcard = false) {f : TableElt → TableElt}
    (hname : ∀ e, e.name = b.name → (f e).name = b.name)
    (hsent : ∀ e, e.name = b.name → (f e).sent b.name = single value) :
    Handled r (some (r.sends.put hv value)) (.ok, { r with headers := r.headers.modify i f }) := by
  refine ⟨fun _ => hc.of_names (names_modify fun e he => ?_) rfl rfl, id, fun _ => ?_, id, fun _ _ => rfl⟩
  · have hget := hc.points b i hb
    rw [names_get he] at hget
    rw [hname e (Option.some.inj hget), Option.some.inj hget]
  · exact congrArg some (sends_put fun k => builtin_fields hc hb hk hw hname hsent).symm

theorem builtin_handled (hc : Canonical r) (h0 : 0 ∉ hv.key) (hhash : hv.hash ≠ 0)
    (hw : hv.wildcard = false) (hoff : hv.offset = some b) (hk : lower hv.key = b.name)
    (hcache : b.name ≠ cacheName) :
    Handled r (some (r.sends.put hv value)) (ngxHttpSetBuiltinHeader r hv value) := by
  rw [ngxHttpSetBuiltinHeader, hoff]
  cases hb : r.builtin b with
  | none =>
    simp only [Option.bind_some, hb]
    refine helper_handled hc h0 hhash (fun hw' => absurd (hw.symm.trans hw') Bool.false_ne_true)
      (hk ▸ hcache) fun b' hb' => ?_
    obtain rfl := Option.some.inj hb'
    exact ⟨hw, hk⟩
  | some i =>
    simp only [Option.bind_some, hb]
    split
    · next hvalue =>
      exact found_handled hc hb hk hw (fun e he => he) fun e he => sent_single he rfl (iff_of_true rfl hvalue)
    · next hvalue =>
      exact found_handled hc hb hk hw (fun e he => hk) fun e he => sent_single hk rfl (iff_of_false hhash hvalue)

theorem foldl_deleted (is : List ℕ) (hs : List TableElt) (j : ℕ) :
    (is.foldl (fun hs j => hs.modify j TableElt.deleted) hs)[j]? =
      (hs[j]?).map fun h => if j ∈ is then h.deleted else h := by
  induction is generalizing hs with
  | nil => simp
  | cons i is ih =>
    rw [List.foldl_cons, ih, List.getElem?_modify, Option.map_eq_map, Option.map_map]
    refine congrArg (fun f => Option.map f hs[j]?) (funext fun h => ?_)
    by_cases hi : i = j
    · subst hi
      by_cases hj : i ∈ is <;> simp [hj, TableElt.deleted]
    · by_cases hj : j ∈ is <;> simp [hj, hi, Ne.symm hi]

/-- The headers of the array are deleted, and the first of them gets the value. -/
theorem multi_fields {i : ℕ} {is : List ℕ} (hc : Canonical r) (his : r.cacheControl = i :: is)
    (hw : hv.wildcard = false) (hk : lower hv.key = cacheName) {f : TableElt → TableElt}
    (hf : ∀ e, (f e).name = e.name) (hsent : ∀ e, e.name = cacheName → (f e).sent cacheName = single value) :
    fields ((is.foldl (fun hs j => hs.modify j TableElt.deleted) r.headers).modify i f) k =
      if hv.covers k then single value else fields r.headers k := by
  have hat := foldl_deleted is r.headers
  generalize is.foldl (fun hs j => hs.modify j TableElt.deleted) r.headers = hs at hat ⊢
  have hcache : ∀ j e, hs[j]? = some e → e.name = cacheName → j = i ∨ e.hash = 0 := by
    intro j e he hname
    rw [hat, Option.map_eq_some_iff] at he
    obtain ⟨e, he, rfl⟩ := he
    have hname : e.name = cacheName := by split at hname <;> exact hname
    have hmem := (hc.cached j).mpr (by rw [names_get he, hname])
    rw [his, List.mem_cons] at hmem
    exact hmem.imp id fun hj => by rw [if_pos hj, TableElt.deleted]
  obtain ⟨e, he, hename⟩ : ∃ e, hs[i]? = some e ∧ e.name = cacheName := by
    have hget := (hc.cached i).mp (by rw [his]; exact List.mem_cons_self)
    rw [HeadersOut.names, List.getElem?_map, Option.map_eq_some_iff] at hget
    obtain ⟨e, he, hename⟩ := hget
    refine ⟨_, by rw [hat, he]; rfl, ?_⟩
    split <;> exact hename
  by_cases hcov : hv.covers k
  · obtain rfl : k = cacheName := ((covers_iff hw).mp hcov).trans hk
    obtain ⟨pre, post, hhs, hlen, hmod⟩ := modify_split he
    have hothers : ∀ e' ∈ pre ++ post, e'.name = cacheName → e'.hash = 0 := by
      intro e' he' hname
      obtain ⟨j, hj, hne⟩ := exists_index hhs he'
      exact (hcache j e' hj hname).resolve_left (hlen ▸ hne)
    rw [List.forall_mem_append] at hothers
    rw [if_pos hcov, hmod, fields_append, fields_cons, fields_eq_nil hothers.1, fields_eq_nil hothers.2,
      hsent e hename, List.nil_append, List.append_nil]
  · have hne : cacheName ≠ k := fun h => hcov ((covers_iff hw).mpr (h.symm.trans hk.symm))
    rw [if_neg hcov, fields_modify_ne he (by rwa [hename]) (by rwa [hf, hename])]
    refine fields_congr fun j => ?_
    rw [hat, Option.map_map]
    cases hj : r.headers[j]? with
    | none => rfl
    | some e' =>
      simp only [Option.map_some, Function.comp_apply]
      split
      · next hmem =>
        have hname := (hc.cached j).mp (by rw [his]; exact List.mem_cons_of_mem i hmem)
        rw [names_get hj] at hname
        have hname := Option.some.inj hname
        rw [sent_other (e := e') (by rwa [hname]), sent_deleted (by rw [TableElt.deleted])]
      · rfl

theorem names_multi {i : ℕ} {is : List ℕ} {f : TableElt → TableElt} (hf : ∀ e, (f e).name = e.name) :
    HeadersOut.names { r with
      headers := (is.foldl (fun hs j => hs.modify j TableElt.deleted) r.headers).modify i f } = r.names := by
  refine List.ext_getElem? fun j => ?_
  rw [HeadersOut.names, HeadersOut.names, List.getElem?_map, List.getElem?_map, List.getElem?_modify,
    foldl_deleted, Option.map_eq_map, Option.map_map, Option.map_map]
  refine congrArg (fun f => Option.map f r.headers[j]?) (funext fun e => ?_)
  have hdeleted : TableElt.name (if j ∈ is then e.deleted else e) = e.name := by split <;> rfl
  simp only [Function.comp_apply]
  split
  · rw [hf, hdeleted]
  · exact hdeleted

theorem cacheName_ne (b : Builtin) : b.name ≠ cacheName := by
  cases b <;> decide

/-- A header of the array, where there is none yet. -/
theorem Canonical.cache {e : TableElt} {pool : List Bool} (hc : Canonical r) (hnil : r.cacheControl = [])
    (he : e.name = cacheName) : Canonical { r with
      headers := r.headers ++ [e], cacheControl := [r.headers.length], pool := pool } := by
  have hnames : HeadersOut.names { r with
      headers := r.headers ++ [e], cacheControl := [r.headers.length], pool := pool } =
      r.names ++ [cacheName] := by
    rw [HeadersOut.names, List.map_append, List.map_singleton, he]
    rfl
  have hlen : r.headers.length = r.names.length := (List.length_map _).symm
  have hold : ∀ {i : ℕ} {n}, n ≠ cacheName → (r.names ++ [cacheName])[i]? = some n → r.names[i]? = some n := by
    intro i n hn hi
    by_cases hlt : i < r.names.length
    · rwa [List.getElem?_append_left hlt] at hi
    · have hle := (List.getElem?_eq_some_iff.mp hi).1
      rw [List.length_append, List.length_singleton] at hle
      obtain rfl : i = r.names.length := by omega
      rw [List.getElem?_concat_length] at hi
      exact absurd (Option.some.inj hi).symm hn
  refine ⟨?_, ?_, ?_⟩
  · rw [hnames]
    exact fun b i j hi hj => hc.alone b i j (hold (cacheName_ne b) hi) (hold (cacheName_ne b) hj)
  · rw [hnames]
    intro b i hb
    have hi := hc.points b i hb
    rw [List.getElem?_append_left (List.getElem?_eq_some_iff.mp hi).1, hi]
  · rw [hnames]
    intro i
    rw [List.mem_singleton, hlen]
    constructor
    · rintro rfl
      exact List.getElem?_concat_length
    · intro hi
      by_contra hne
      have hlt := (List.getElem?_eq_some_iff.mp hi).1
      rw [List.length_append, List.length_singleton] at hlt
      rw [List.getElem?_append_left (by omega)] at hi
      have hmem := (hc.cached i).mpr hi
      rw [hnil] at hmem
      exact List.not_mem_nil hmem

theorem error_ne_ok : Rc.error ≠ Rc.ok := by decide

theorem multi_handled (hc : Canonical r) (hhash : hv.hash ≠ 0) (hw : hv.wildcard = false)
    (hk : lower hv.key = cacheName) (hvalue : value = [] → r.cacheControl ≠ []) :
    Handled r (some (r.sends.put hv value)) (ngxHttpSetBuiltinMultiHeader r hv value) := by
  rw [ngxHttpSetBuiltinMultiHeader]
  split
  · next i is his =>
    refine ⟨fun _ => hc.of_names (names_multi fun _ => rfl) rfl rfl, id, fun _ => ?_, id, fun _ _ => rfl⟩
    have hdeleted : (if value = [] then 0 else hv.hash) = 0 ↔ value = [] := by
      by_cases hv' : value = [] <;> simp [hv', hhash]
    exact congrArg some (sends_put fun k => multi_fields
      (f := fun h => { h with value := value, hash := if value = [] then 0 else hv.hash }) hc his hw hk
      (fun _ => rfl) fun e he => sent_single he rfl hdeleted).symm
  · next hnil =>
    have hne : value ≠ [] := fun h => hvalue h hnil
    have hname : lower (lit "Cache-Control") = cacheName := by decide
    split
    · next h =>
      refine ⟨fun _ => hc.of_names rfl rfl rfl, fun hne' => absurd hnil hne', fun h' => absurd h' error_ne_ok, fun hp => ?_,
        fun hp => ?_⟩
      · simp [HeadersOut.allocated, hp]
      · simp [HeadersOut.palloc, hp] at h
    · split
      · next h =>
        refine ⟨fun hor => ?_, fun hne' => absurd hnil hne', fun h' => absurd h' error_ne_ok, fun hp => ?_, fun hp => ?_⟩
        · rcases hor with hp | h'
          · simp [HeadersOut.palloc, HeadersOut.allocated, hp] at h
          · exact absurd h' error_ne_ok
        · simp [HeadersOut.allocated, hp]
        · simp [HeadersOut.palloc, HeadersOut.allocated, hp] at h
      · refine ⟨fun _ => hc.cache hnil hname, fun _ => by simp, fun _ => ?_, fun hp => ?_, fun _ _ => rfl⟩
        · refine congrArg some (sends_put fun k => ?_).symm
          rw [fields_append, fields_cons, fields_nil, List.append_nil]
          by_cases hcov : hv.covers k
          · obtain rfl : k = cacheName := ((covers_iff hw).mp hcov).trans hk
            have hnone : fields r.headers cacheName = [] := by
              refine fields_eq_nil fun e he hname' => ?_
              obtain ⟨j, hj⟩ := List.getElem?_of_mem he
              have hmem := (hc.cached j).mpr (by rw [names_get hj, hname'])
              rw [hnil] at hmem
              exact absurd hmem List.not_mem_nil
            rw [if_pos hcov, hnone, List.nil_append]
            exact sent_single hname rfl (iff_of_false hhash hne)
          · have hk' : cacheName ≠ k := fun h => hcov ((covers_iff hw).mpr (h.symm.trans hk.symm))
            have hother : TableElt.sent ⟨hv.hash, lit "Cache-Control", value, none⟩ k = [] :=
              sent_other fun h => hk' (hname.symm.trans h)
            rw [if_neg hcov, hother, List.append_nil]
        · simp [HeadersOut.allocated, hp]

theorem setHandlers_kinds : ∀ h ∈ setHandlers, (lower h.name).getLast? ≠ some 42 ∧
    (h.offset.map Builtin.name = some (lower h.name) ∧
        (h.handler = .builtin ∨ h.handler = .acceptRanges ∨ h.handler = .contentLength) ∨
      h.offset = none ∧ (h.handler = .contentType ∧ lower h.name ≠ cacheName ∨
        h.handler = .builtinMulti ∧ lower h.name = cacheName)) := by
  decide

theorem setHandlers_cache : ∃ h ∈ setHandlers, lower h.name = cacheName := by decide

theorem setHandlers_nul : ∀ h ∈ setHandlers, 0 ∉ h.name := by decide

theorem findHandler_cases (key : List UInt8) :
    (∃ h ∈ setHandlers, findHandler key = (h.handler, h.offset) ∧ lower key = lower h.name) ∨
      findHandler key = (.header, none) ∧ ∀ h ∈ setHandlers, lower key ≠ lower h.name := by
  rw [findHandler]
  split
  · next h hfind =>
    have hmem := List.mem_of_find?_eq_some hfind
    have heq := List.find?_some hfind
    exact .inl ⟨h, hmem, rfl, (strncasecmpEq_iff (setHandlers_nul h hmem)).mp heq⟩
  · next hfind =>
    refine .inr ⟨rfl, fun h hmem heq => ?_⟩
    have hnone := List.find?_eq_none.mp hfind h hmem
    exact hnone ((strncasecmpEq_iff (setHandlers_nul h hmem)).mpr heq)

inductive Kind (hv : HeaderVal υ) : Prop
  | header (ho : hv.offset = none) (hh : hv.handler = .header) (hn : lower hv.key ≠ cacheName)
  | field (b : Builtin) (ho : hv.offset = some b) (hk : lower hv.key = b.name) (hw : hv.wildcard = false)
      (hh : hv.handler = .builtin ∨ hv.handler = .acceptRanges ∨ hv.handler = .contentLength)
  | contentType (ho : hv.offset = none) (hh : hv.handler = .contentType) (hn : lower hv.key ≠ cacheName) (hw : hv.wildcard = false)
  | multi (ho : hv.offset = none) (hh : hv.handler = .builtinMulti) (hk : lower hv.key = cacheName) (hw : hv.wildcard = false)

theorem HeaderVal.Sound.kind (h : hv.Sound) : Kind hv := by
  have hhandler := h.handler
  rcases findHandler_cases hv.key with ⟨s, hmem, hfind, hkey⟩ | ⟨hfind, hne⟩
  · rw [hfind] at hhandler
    obtain ⟨hh, ho⟩ := Prod.mk.inj hhandler
    obtain ⟨hlast, hkind⟩ := setHandlers_kinds s hmem
    have hw : hv.wildcard = false := by
      refine Bool.eq_false_iff.mpr fun hw => hlast ?_
      rw [← hkey, lower, List.getLast?_map, h.wildcard hw]
      rfl
    rcases hkind with ⟨hoff, hcases⟩ | ⟨hoff, ⟨hcases, hn⟩ | ⟨hcases, hn⟩⟩
    · obtain ⟨b, hb, hname⟩ := Option.map_eq_some_iff.mp hoff
      exact .field b (ho.trans hb) (hkey.trans hname.symm) hw (by rwa [hh])
    · exact .contentType (ho.trans hoff) (hh.trans hcases) (hkey ▸ hn) hw
    · exact .multi (ho.trans hoff) (hh.trans hcases) (hkey.trans hn) hw
  · rw [hfind] at hhandler
    obtain ⟨s, hmem, hs⟩ := setHandlers_cache
    exact .header (congrArg Prod.snd hhandler) (congrArg Prod.fst hhandler) (hs ▸ hne s hmem)

theorem typed_same (r : HeadersOut) (hash : ℕ) (value : List UInt8) :
    (r.typed hash value).names = r.names ∧ (r.typed hash value).builtin = r.builtin ∧
      (r.typed hash value).cacheControl = r.cacheControl ∧ (r.typed hash value).pool = r.pool ∧
      (r.typed hash value).sends = { r.sends with contentType := value } := by
  rw [HeadersOut.typed]
  split <;> exact ⟨rfl, rfl, rfl, rfl, rfl⟩

theorem Handled.of {p : Option Response} {out : Rc × HeadersOut} (h : Handled r' p out)
    (hcc : r'.cacheControl = r.cacheControl) (hp : r'.pool = r.pool) : Handled r p out where
  canonical hor := h.canonical (hor.imp_left hp.trans)
  cacheControl hne := h.cacheControl (hcc ▸ hne)
  sends := h.sends
  pool hnil := h.pool (hp.trans hnil)
  total hnil := h.total (hp.trans hnil)

theorem handle_handled (atosz : List UInt8 → Option ℕ) (hc : Canonical r) (hv' : hv.Sound)
    (hw : hv.wildcard = true → value = [])
    (hcache : hv.handler = .builtinMulti → value = [] → r.cacheControl ≠ []) :
    Handled r (r.sends.handle atosz hv value) (handle atosz r hv value) := by
  have hnone : ∀ b, (none : Option Builtin) = some b → hv.wildcard = false ∧ lower hv.key = b.name :=
    fun b h => absurd h (Option.some_ne_none b).symm
  cases hv'.kind with
  | header ho hh hn =>
    rw [handle, hh, Response.handle, hh]
    exact helper_handled hc hv'.key hv'.hash hw hn hnone
  | field b ho hk hw hh =>
    have hset : ∀ (r' : HeadersOut) {v : List UInt8}, Canonical r' →
        Handled r' (some (r'.sends.put hv v)) (ngxHttpSetBuiltinHeader r' hv v) :=
      fun r' v hc' => builtin_handled hc' hv'.key hv'.hash hw ho hk (cacheName_ne b)
    rcases hh with hh | hh | hh
    · rw [handle, hh, Response.handle, hh]
      exact hset r hc
    · rw [handle, hh, Response.handle, hh]
      by_cases hvalue : value = []
      · simp only [ngxHttpSetAcceptRangesHeader, hvalue, if_true]
        exact (hset { r with allowRanges := false } (hc.of_names rfl rfl rfl)).of rfl rfl
      · simp only [ngxHttpSetAcceptRangesHeader, if_neg hvalue]
        exact hset r hc
    · rw [handle, hh, Response.handle, hh]
      by_cases hvalue : value = []
      · simp only [ngxHttpSetContentLengthHeader, hvalue, if_true]
        exact (hset { r with contentLengthN := -1 } (hc.of_names rfl rfl rfl)).of rfl rfl
      · simp only [ngxHttpSetContentLengthHeader, if_neg hvalue]
        cases atosz value with
        | none => exact ⟨fun _ => hc, id, fun h' => absurd h' error_ne_ok, id, fun _ hp => absurd rfl hp⟩
        | some len =>
          exact (hset { r with contentLengthN := len } (hc.of_names rfl rfl rfl)).of rfl rfl
  | contentType ho hh hn hw =>
    rw [handle, hh, Response.handle, hh, ngxHttpSetContentTypeHeader]
    have hset : ∀ r' : HeadersOut, Canonical r' →
        Handled r' (some (r'.sends.put hv [])) (ngxHttpSetHeaderHelper r' hv [] none true) :=
      fun r' hc' => helper_handled hc' hv'.key hv'.hash (fun _ => rfl) hn hnone
    obtain ⟨hnames, hb, hcc, hpool, hsends⟩ := typed_same r hv.hash value
    have hhandled := (hset _ (hc.of_names hnames hb hcc)).of hcc hpool
    rw [hsends] at hhandled
    exact hhandled
  | multi ho hh hk hw =>
    rw [handle, hh, Response.handle, hh]
    exact multi_handled hc hv'.hash hw hk (hcache hh)

end Handlers

section Runs
variable {υ : Type} {eval : HeadersOut → υ → Option (List UInt8)} {view : Response → υ → Option (List UInt8)}
  {atosz : List UInt8 → Option ℕ} {r r' : HeadersOut} {hv : HeaderVal υ} {hvs : List (HeaderVal υ)}
  {cmd : Cmd υ} {cmds : List (Cmd υ)}

/-- How the directives are used: a wildcard only clears, and `Cache-Control` is cleared only where there
is one. -/
structure HeaderVal.Used (view : Response → υ → Option (List UInt8)) (cached : Prop) (hv : HeaderVal υ) :
    Prop where
  sound : hv.Sound
  wildcard : hv.wildcard = true → ∀ p value, view p hv.value = some value → value.dropLast = []
  cache : hv.handler = .builtinMulti → ∀ p value, view p hv.value = some value → value.dropLast = [] → cached

theorem HeaderVal.Used.mono {p q : Prop} (h : hv.Used view p) (hpq : p → q) : hv.Used view q where
  sound := h.sound
  wildcard := h.wildcard
  cache hh r value hvalue hnil := hpq (h.cache hh r value hvalue hnil)

/-- One step behind the other, if the first one succeeds. -/
theorem Handled.bind {p : Option Response} {q : Response → Option Response} {out res next : Rc × HeadersOut}
    (h : Handled r p out) (hok : out.1 = .ok → res = next)
    (hfail : out.1 ≠ .ok → res.2 = out.2 ∧ res.1 ≠ .ok)
    (hnext : Canonical out.2 → (r.cacheControl ≠ [] → out.2.cacheControl ≠ []) →
      Handled out.2 (q out.2.sends) next) : Handled r (p.bind q) res := by
  by_cases hout : out.1 = .ok
  · obtain rfl := hok hout
    have hrest := hnext (h.canonical (.inr hout)) h.cacheControl
    rw [h.sends hout, Option.bind_some]
    exact ⟨fun hor => hrest.canonical (hor.imp_left h.pool), fun hne => hrest.cacheControl (h.cacheControl hne), hrest.sends,
      fun hnil => hrest.pool (h.pool hnil), fun hnil => hrest.total (h.pool hnil)⟩
  · obtain ⟨hsame, hne⟩ := hfail hout
    refine ⟨fun hor => hsame ▸ h.canonical (.inl (hor.resolve_right hne)), hsame ▸ h.cacheControl, fun hres => absurd hres hne, hsame ▸ h.pool,
      fun hnil hp => absurd (h.total hnil ?_) hout⟩
    rintro rfl
    exact hp rfl

theorem execLoop_handled (hview : ∀ r v, eval r v = view r.sends v) (hc : Canonical r)
    (hvs' : ∀ hv ∈ hvs, hv.Used view (r.cacheControl ≠ [])) :
    Handled r (r.sends.execLoop view atosz hvs) (execLoop eval atosz r hvs) := by
  induction hvs generalizing r with
  | nil => exact ⟨fun _ => hc, id, fun _ => rfl, id, fun _ _ => rfl⟩
  | cons hv hvs ih =>
    rw [List.forall_mem_cons] at hvs'
    obtain ⟨hused, hrest⟩ := hvs'
    rw [execLoop, Response.execLoop, hview]
    cases hvalue : view r.sends hv.value with
    | none => exact ⟨fun _ => hc, id, fun h' => absurd h' error_ne_ok, id, fun _ hp => absurd rfl hp⟩
    | some value =>
      have hone : Handled r (r.sends.handle atosz hv value.dropLast) (handle atosz r hv value.dropLast) :=
        handle_handled atosz hc hused.sound (fun hw => hused.wildcard hw _ _ hvalue) fun hh hnil => hused.cache hh _ _ hvalue hnil
      rw [Option.bind_some]
      dsimp only
      refine hone.bind (fun hok => if_pos hok) (fun hne => ?_) fun hc' hcache => ih hc' fun hv hmem => ?_
      · rw [if_neg hne]
        exact ⟨rfl, error_ne_ok⟩
      · exact (hrest hv hmem).mono hcache

theorem exec_handled (hview : ∀ r v, eval r v = view r.sends v) (hc : Canonical r)
    (hvs' : ∀ hvs, cmd.headers = some hvs → ∀ hv ∈ hvs, hv.Used view (r.cacheControl ≠ [])) :
    Handled r (r.sends.exec view atosz cmd) (ngxHttpHeadersMoreExecCmd eval atosz r cmd) := by
  rw [ngxHttpHeadersMoreExecCmd, Response.exec]
  cases hhvs : cmd.headers with
  | none => exact ⟨fun _ => hc, id, fun _ => rfl, id, fun _ _ => rfl⟩
  | some hvs =>
    cases hadmits : cmd.admits r.contentType r.status with
    | false =>
      have hadmits' : cmd.admits r.sends.contentType r.sends.status = false := hadmits
      simp only [hadmits', if_true, Bool.false_eq_true, if_false]
      exact ⟨fun _ => hc, id, fun _ => rfl, id, fun _ _ => rfl⟩
    | true =>
      have hadmits' : cmd.admits r.sends.contentType r.sends.status = true := hadmits
      simp only [hadmits', if_true, Bool.true_eq_false, if_false]
      exact execLoop_handled hview hc (hvs' hvs hhvs)

theorem filter_handled (hview : ∀ r v, eval r v = view r.sends v) (hc : Canonical r)
    (hcmds : ∀ cmd ∈ cmds, cmd.isInput = false → ∀ hvs, cmd.headers = some hvs →
      ∀ hv ∈ hvs, hv.Used view (r.cacheControl ≠ [])) :
    Handled r (r.sends.filter view atosz cmds) (ngxHttpHeadersMoreFilter eval atosz r cmds) := by
  induction cmds generalizing r with
  | nil => exact ⟨fun _ => hc, id, fun _ => rfl, id, fun _ _ => rfl⟩
  | cons cmd cmds ih =>
    rw [List.forall_mem_cons] at hcmds
    obtain ⟨hcmd, hrest⟩ := hcmds
    rw [ngxHttpHeadersMoreFilter, Response.filter]
    cases hinput : cmd.isInput with
    | true => exact ih hc hrest
    | false =>
      simp only [Bool.false_eq_true, if_false]
      refine (exec_handled hview hc (hcmd hinput)).bind (fun hok => if_pos hok) (fun hne => ?_)
        fun hc' hcache => ih hc' fun cmd hmem hin hvs hhvs hv hv' => ?_
      · rw [if_neg hne]
        exact ⟨rfl, hne⟩
      · exact (hrest cmd hmem hin hvs hhvs hv hv').mono hcache

/-- What is sent behind the header filter is what the commands make of the fields of the response, one
command after the other, and the pointers are true again. Where everything can be allocated they are true in
any case, and it is an error just where the commands cannot be executed. -/
theorem filter_refines (hview : ∀ r v, eval r v = view r.sends v) (hc : Canonical r)
    (hcmds : ∀ cmd ∈ cmds, cmd.isInput = false → ∀ hvs, cmd.headers = some hvs →
      ∀ hv ∈ hvs, hv.Used view (r.cacheControl ≠ [])) :
    (r.pool = [] ∨ (ngxHttpHeadersMoreFilter eval atosz r cmds).1 = .ok →
        Canonical (ngxHttpHeadersMoreFilter eval atosz r cmds).2) ∧
      ((ngxHttpHeadersMoreFilter eval atosz r cmds).1 = .ok →
        r.sends.filter view atosz cmds = some (ngxHttpHeadersMoreFilter eval atosz r cmds).2.sends) ∧
      (r.pool = [] → ((ngxHttpHeadersMoreFilter eval atosz r cmds).1 = .ok ↔
        r.sends.filter view atosz cmds ≠ none)) := by
  have h : Handled r (r.sends.filter view atosz cmds) (ngxHttpHeadersMoreFilter eval atosz r cmds) :=
    filter_handled hview hc hcmds
  refine ⟨h.canonical, h.sends, fun hnil => ⟨fun hok => ?_, h.total hnil⟩⟩
  rw [h.sends hok]
  exact Option.some_ne_none _

end Runs

/-- `Server: a`. -/
def serverVal : HeaderVal (List UInt8) := ⟨[97, 0], 1, lit "Server", .builtin, some .server, false⟩

theorem serverVal_sound : serverVal.Sound where
  hash := by decide
  key := by decide
  wildcard h := absurd h (by decide)
  handler := by decide

def HeadersOut.of (headers : List TableElt) : HeadersOut where
  headers := headers
  builtin _ := none
  cacheControl := []
  contentLengthN := -1
  contentType := []
  contentTypeLen := 0
  contentTypeHash := 0
  contentTypeLowcase := none
  charset := none
  status := 200
  allowRanges := true
  pool := []

def oneServer : HeadersOut := .of [⟨1, lit "server", lit "nginx", none⟩]

theorem filter_refines_oneServer :
    (ngxHttpHeadersMoreFilter (fun _ v => some v) (fun _ => none) oneServer
      [⟨none, none, some [serverVal], false⟩]).1 = .ok ∧
    (ngxHttpHeadersMoreFilter (fun _ v => some v) (fun _ => none) oneServer
      [⟨none, none, some [serverVal], false⟩]).2.sends.fields (lit "server") = [lit "a"] := by
  have hnames : ∀ {i : ℕ} {n}, oneServer.names[i]? = some n → i = 0 ∧ n = lit "server" := by
    intro i n h
    rcases i with _ | i
    · exact ⟨rfl, (Option.some.inj h).symm⟩
    · cases h
  have hc : Canonical oneServer := by
    refine ⟨fun b i j hi hj => (hnames hi).1.trans (hnames hj).1.symm, fun b i h => absurd h.symm (Option.some_ne_none i), fun i => ?_⟩
    exact iff_of_false List.not_mem_nil fun h => absurd (hnames h).2 (by decide)
  have hused : serverVal.Used (fun (_ : Response) v => some v) (oneServer.cacheControl ≠ []) :=
    ⟨serverVal_sound, fun h => absurd h (by decide), fun h => absurd h (by decide)⟩
  have hcmds : ∀ cmd ∈ [(⟨none, none, some [serverVal], false⟩ : Cmd (List UInt8))], cmd.isInput = false →
      ∀ hvs, cmd.headers = some hvs → ∀ hv ∈ hvs,
        hv.Used (fun (_ : Response) v => some v) (oneServer.cacheControl ≠ []) := by
    intro cmd hcmd _ hvs hhvs hv hmem
    obtain rfl := List.mem_singleton.mp hcmd
    obtain rfl := Option.some.inj hhvs
    obtain rfl := List.mem_singleton.mp hmem
    exact hused
  obtain ⟨-, hsends, htotal⟩ := @filter_refines (List UInt8) (fun _ v => some v) (fun _ v => some v)
    (fun _ => none) oneServer _ (fun _ _ => rfl) hc hcmds
  have hok := (htotal rfl).mpr (Option.some_ne_none _)
  refine ⟨hok, ?_⟩
  rw [← Option.some.inj (hsends hok)]
  decide

end NginB.HeadersMore
