import NginB.Minify.Chain
import NginB.Minify.ConditionalComments
import NginB.Minify.Failure
import NginB.Minify.Nonempty
import NginB.Program.Inherited

/-! # From the configuration to the response

The header filter chooses the minifier of a response and takes its length back, and the body filter
goes by that choice. The switches and the types are inherited through the levels of the configuration.
-/
namespace NginB.Minify
open NginB.Program

/-- `ngx_minify_conf_t`. A switch is missing where it is `NGX_CONF_UNSET`, the types are where no
directive has given any. -/
structure MinifyConf (T : Type) where
  htmlEnable : Option Bool
  htmlTypes : Option T
  cssEnable : Option Bool
  cssTypes : Option T
  jsEnable : Option Bool
  jsTypes : Option T
  deriving DecidableEq

/-- What the header filter reads of the headers, and what it clears. -/
structure HeadersOut where
  status : ℕ
  contentTypeLen : ℕ
  /-- the length of the value, where the header is there -/
  contentEncoding : Option ℕ
  contentLength : Option ℕ
  acceptRanges : Bool
  deriving DecidableEq

section Source
variable {T : Type}

def ngxMinifyCreateConf : MinifyConf T := ⟨none, none, none, none, none, none⟩

/-- `ngx_minify_merge_conf`, with the default types of HTML, CSS and JavaScript. -/
def ngxMinifyMergeConf (mergeValue : Option Bool → Option Bool → Bool → Bool)
    (mergeTypes : Option T → Option T → T → T) (htmlDefault cssDefault jsDefault : T)
    (prev conf : MinifyConf T) : MinifyConf T where
  htmlEnable := some (mergeValue conf.htmlEnable prev.htmlEnable false)
  cssEnable := some (mergeValue conf.cssEnable prev.cssEnable false)
  jsEnable := some (mergeValue conf.jsEnable prev.jsEnable false)
  htmlTypes := some (mergeTypes conf.htmlTypes prev.htmlTypes htmlDefault)
  cssTypes := some (mergeTypes conf.cssTypes prev.cssTypes cssDefault)
  jsTypes := some (mergeTypes conf.jsTypes prev.jsTypes jsDefault)

/-- A switch as C reads it: `NGX_CONF_UNSET` is -1. -/
def switchedOn (enable : Option Bool) : Bool := enable ≠ some false

/-- The context of the file type is allocated and set, and the headers are cleared. -/
def setCtx (pcalloc : Bool) (h : HeadersOut) (type : FileType) : Option (HeadersOut × Option FileType) :=
  if pcalloc = false then none else some ({ h with contentLength := none, acceptRanges := false }, some type)

/-- `ngx_http_minify_header_filter`, up to the call of the next filter: the headers, and the file type
in the context where one is set. `none` is `NGX_ERROR`; `test` is `ngx_http_test_content_type` for the
content type of the response. -/
def ngxHttpMinifyHeaderFilter (test : Option T → Bool) (conf : MinifyConf T) (headerOnly pcalloc : Bool)
    (h : HeadersOut) : Option (HeadersOut × Option FileType) :=
  if switchedOn conf.htmlEnable = false ∧ switchedOn conf.cssEnable = false ∧ switchedOn conf.jsEnable = false ∨
      h.status ≠ 200 ∧ h.status ≠ 403 ∧ h.status ≠ 404 ∨ headerOnly = true ∨ h.contentTypeLen = 0 ∨
      h.contentEncoding.getD 0 ≠ 0 then some (h, none)
  else if switchedOn conf.htmlEnable && test conf.htmlTypes then setCtx pcalloc h .html
  else if switchedOn conf.jsEnable && test conf.jsTypes then setCtx pcalloc h .js
  else if switchedOn conf.cssEnable && test conf.cssTypes then setCtx pcalloc h .css
  else some (h, none)

end Source

section Conf
variable {T : Type}

def MinifyConf.enable (conf : MinifyConf T) : FileType → Option Bool
  | .html => conf.htmlEnable
  | .css => conf.cssEnable
  | .js => conf.jsEnable

def MinifyConf.types (conf : MinifyConf T) : FileType → Option T
  | .html => conf.htmlTypes
  | .css => conf.cssTypes
  | .js => conf.jsTypes

def HeadersOut.Plain (h : HeadersOut) (headerOnly : Bool) : Prop :=
  h.status ∈ [200, 403, 404] ∧ headerOnly = false ∧ h.contentTypeLen ≠ 0 ∧ h.contentEncoding.getD 0 = 0

instance (h : HeadersOut) (headerOnly : Bool) : Decidable (h.Plain headerOnly) :=
  inferInstanceAs (Decidable (_ ∧ _ ∧ _ ∧ _))

/-- The file type that is tried first of those that are switched on and have the content type among
their types. The innermost level decides that says something about it, else the default does. -/
def chosen (test : Option T → Bool) (defaults : FileType → T) (levels : List (MinifyConf T)) : Option FileType :=
  [.html, .js, .css].find? fun type =>
    (innermost (levels.map (·.enable type))).getD false &&
      test (some ((innermost (levels.map (·.types type))).getD (defaults type)))

end Conf

section Merge
variable {T : Type} {mergeValue : Option Bool → Option Bool → Bool → Bool}
  {mergeTypes : Option T → Option T → T → T} {defaults : FileType → T} {main : MinifyConf T}
  {levels : List (MinifyConf T)}

def mergedConf (mergeValue : Option Bool → Option Bool → Bool → Bool) (mergeTypes : Option T → Option T → T → T)
    (defaults : FileType → T) (main : MinifyConf T) (levels : List (MinifyConf T)) : MinifyConf T :=
  levels.foldl (ngxMinifyMergeConf mergeValue mergeTypes (defaults .html) (defaults .css) (defaults .js)) main

theorem mergedConf_enable (hv : Inherits mergeValue) (hne : levels ≠ []) (type : FileType) :
    (mergedConf mergeValue mergeTypes defaults main levels).enable type =
      some ((innermost ((main :: levels).map (·.enable type))).getD false) := by
  refine hv.field_eq (fun conf : MinifyConf T => conf.enable type) (fun prev conf => ?_) hne main
  cases type <;> rfl

theorem mergedConf_types (ht : Inherits mergeTypes) (hne : levels ≠ []) (type : FileType) :
    (mergedConf mergeValue mergeTypes defaults main levels).types type =
      some ((innermost ((main :: levels).map (·.types type))).getD (defaults type)) := by
  refine ht.field_eq (fun conf : MinifyConf T => conf.types type) (fun prev conf => ?_) hne main
  cases type <;> rfl

/-- The header filter with switches and types that have been merged. -/
theorem headerFilter_eq {conf : MinifyConf T} {e : FileType → Bool} {t : FileType → T}
    (he : ∀ type, conf.enable type = some (e type)) (ht : ∀ type, conf.types type = some (t type))
    (test : Option T → Bool) (headerOnly pcalloc : Bool) (h : HeadersOut) :
    ngxHttpMinifyHeaderFilter test conf headerOnly pcalloc h =
      match if h.Plain headerOnly then [.html, .js, .css].find? fun type => e type && test (some (t type))
        else none with
      | none => some (h, none)
      | some type => setCtx pcalloc h type := by
  have hhtml : conf.htmlEnable = some (e .html) := he .html
  have hcss : conf.cssEnable = some (e .css) := he .css
  have hjs : conf.jsEnable = some (e .js) := he .js
  have hhtml' : conf.htmlTypes = some (t .html) := ht .html
  have hcss' : conf.cssTypes = some (t .css) := ht .css
  have hjs' : conf.jsTypes = some (t .js) := ht .js
  have hon : ∀ b, switchedOn (some b) = b := by decide
  unfold ngxHttpMinifyHeaderFilter
  rw [hhtml, hcss, hjs, hhtml', hcss', hjs', hon, hon, hon]
  have hplain : (h.status ≠ 200 ∧ h.status ≠ 403 ∧ h.status ≠ 404 ∨ headerOnly = true ∨ h.contentTypeLen = 0 ∨
      h.contentEncoding.getD 0 ≠ 0) ↔ ¬ h.Plain headerOnly := by
    rw [HeadersOut.Plain, List.mem_cons, List.mem_pair, ← Bool.not_eq_true]
    tauto
  by_cases hp : h.Plain headerOnly
  · rw [if_pos hp]
    by_cases hoff : e .html = false ∧ e .css = false ∧ e .js = false
    · obtain ⟨h₁, h₂, h₃⟩ := hoff
      rw [if_pos (.inl ⟨h₁, h₂, h₃⟩)]
      simp only [List.find?_cons, List.find?_nil, h₁, h₂, h₃, Bool.false_and]
    · rw [if_neg (not_or.mpr ⟨hoff, fun hn => hplain.mp hn hp⟩)]
      simp only [List.find?_cons, List.find?_nil]
      cases e .html && test (some (t .html)) with
      | true => rfl
      | false =>
        cases e .js && test (some (t .js)) with
        | true => rfl
        | false => cases e .css && test (some (t .css)) <;> rfl
  · rw [if_neg hp, if_pos (.inr (hplain.mpr hp))]

/-- What the header filter does with the merged levels. -/
theorem headerFilter_merged (hv : Inherits mergeValue) (ht : Inherits mergeTypes) (hne : levels ≠ [])
    (test : Option T → Bool) (headerOnly pcalloc : Bool) (h : HeadersOut) :
    ngxHttpMinifyHeaderFilter test (mergedConf mergeValue mergeTypes defaults main levels) headerOnly pcalloc h =
      match if h.Plain headerOnly then chosen test defaults (main :: levels) else none with
      | none => some (h, none)
      | some type => setCtx pcalloc h type :=
  headerFilter_eq (mergedConf_enable hv hne) (mergedConf_types ht hne) test headerOnly pcalloc h

end Merge

/-- A stage that has read `n` bytes of a response and forwarded `m` of them. -/
structure Stage.Fits (cap : Option ℕ) (type : FileType) (s : Stage) (n m : ℕ) : Prop where
  resumes : s.session.ctx.Resumes type
  within : Within cap s.session.trace
  size : m + s.session.ctx.cache.length ≤ n

section Lengths
variable {cap : Option ℕ} {palloc : ℕ → Bool} {type : FileType} {r : Request} {s t : Stage} {u : Session}
  {a b : Arrival} {as outs : List Arrival} {n m : ℕ}

theorem Stage.fits_start (cap : Option ℕ) (type : FileType) : Stage.start.Fits cap type 0 0 where
  resumes := Ctx.resumes_zero type
  within _ _ _ hmem := (List.not_mem_nil hmem).elim
  size := Nat.le_refl _

/-- A buffer is not forwarded with more bytes than it has, and than had been held back. -/
theorem Stage.Fits.read (h : s.Fits cap type n m) (hread : s.session.read cap type a = .ok (u, b))
    (ha : a.inMemory = false → s.session.ctx.cache = [] ∨ s.session.ctx.state.top ∉ leadStates)
    (k : ℕ) (visits : List Visit) :
    Stage.Fits cap type ⟨u, k, visits⟩ (n + a.bytes.length) (m + b.bytes.length) := by
  have hsize := h.size
  cases a with
  | data ro l =>
    obtain ⟨t, hstripped, hwithin, hctx, htrace, hbytes⟩ := Session.read_data h.resumes h.within hread
    have hle := emitted_le_consumed (newest t.settled)
    have hread := congrArg List.length hstripped.consumed
    rw [List.length_append, List.length_append, List.length_reverse] at hread
    rw [hstripped.emitted] at hle
    refine ⟨?_, ?_, ?_⟩
    · rw [hctx]
      exact hstripped.resumes
    · rw [htrace]
      exact hwithin
    · rw [hctx, hbytes, List.length_reverse, Arrival.bytes]
      omega
  | special =>
    cases hread
    have hwithin : Within cap (.buffer :: s.session.trace) := fun j hj =>
      (h.within j hj).cons fun k hk => by cases hk
    refine ⟨h.resumes.lose (ha rfl), hwithin, ?_⟩
    simp only [Arrival.bytes, List.length_nil]
    omega

/-- A call does not forward more bytes than it reads, and than had been held back. -/
theorem Stage.Fits.deliver (h : s.Fits cap type n m)
    (hrun : NginB.Minify.deliver cap palloc type s as = .ok (t, outs)) (hv : ∀ v ∈ t.visits, v.Resumes) :
    t.Fits cap type (n + (as.flatMap Arrival.bytes).length) (m + (outs.flatMap Arrival.bytes).length) := by
  induction as generalizing s outs n m with
  | nil =>
    cases hrun
    exact h
  | cons a as ih =>
    rcases deliver_cons hrun with ⟨-, -, rfl, rfl⟩ | ⟨-, u, b, outs', rfl, hread, hrest⟩
    · refine ⟨h.resumes, h.within, ?_⟩
      have hsize := h.size
      simp only
      omega
    · have hvisit : (Visit.read s.session.ctx a.inMemory a.readOnly u.trace).Resumes :=
        hv _ ((deliver_visits hrest).subset List.mem_cons_self)
      have ha : a.inMemory = false → s.session.ctx.cache = [] ∨ s.session.ctx.state.top ∉ leadStates := by
        intro ha
        rw [ha] at hvisit
        exact hvisit
      have hone := h.read hread ha (if s.session.ctx.cache = [] then s.pallocs else s.pallocs + 1)
        (.read s.session.ctx a.inMemory a.readOnly u.trace :: s.visits)
      have hall := ih hone hrest
      rw [List.flatMap_cons, List.flatMap_cons, List.length_append, List.length_append, ← Nat.add_assoc, ← Nat.add_assoc]
      exact hall

theorem Stage.Fits.deliverAll {calls outs : List (List Arrival)} (h : s.Fits cap type n m)
    (hr : r.headerOnly = false) (htype : r.type = some type)
    (hrun : NginB.Minify.deliverAll cap palloc r s calls = .ok (t, outs)) (hv : ∀ v ∈ t.visits, v.Resumes) :
    t.Fits cap type (n + (calls.flatten.flatMap Arrival.bytes).length)
      (m + (outs.flatten.flatMap Arrival.bytes).length) := by
  induction calls generalizing s outs n m with
  | nil =>
    cases hrun
    exact h
  | cons as calls ih =>
    obtain ⟨u, os, outs', hcall, hrest, rfl⟩ := deliverAll_cons hrun
    rw [deliverCall_read hr htype] at hcall
    have hlater := deliverAll_visits hrest
    have hall := ih (h.deliver hcall fun v hmem => hv v (hlater.subset hmem)) hrest
    rw [List.flatten_cons, List.flatten_cons, List.flatMap_append, List.flatMap_append, List.length_append,
      List.length_append, ← Nat.add_assoc, ← Nat.add_assoc]
    exact hall

end Lengths

section Responses
variable {cap : Option ℕ} {palloc : ℕ → Bool} {r : Request} {f g : Filter} {calls outs : List Call}

/-- The calls of a request that is passed on are forwarded as they are. -/
theorem respond_passed_calls (hr : r.Passed) (h : respond cap palloc r f calls = .ok (g, outs)) : outs = calls := by
  induction calls generalizing f outs with
  | nil =>
    cases h
    rfl
  | cons c calls ih =>
    obtain ⟨u, out, outs', hcall, hrest, rfl⟩ := respond_cons h
    rw [filter_passed hr] at hcall
    cases hcall
    rw [ih hrest]

/-- The page does not grow, where no special buffer comes in a state that relies on bytes held back
before. -/
theorem respond_length_le (hcalls : ∀ c ∈ calls, c.Delivered)
    (hrun : respond cap palloc r .start calls = .ok (f, outs)) (hres : ∀ v ∈ f.visits, v.Resumes) :
    (outs.flatMap Call.bytes).length ≤ (calls.flatMap Call.bytes).length := by
  rcases r.passed_or with hr | ⟨type, hr, htype⟩
  · rw [respond_passed_calls hr hrun]
  · obtain ⟨t, ht, hshows, -⟩ := respond_ok hcalls hrun
    rw [hshows.visits] at hres
    have hfits := (Stage.fits_start cap type).deliverAll hr htype ht hres
    have hsize := hfits.size
    rw [bytes_arrivals, bytes_arrivals] at hsize
    omega

variable {T : Type} {mergeValue : Option Bool → Option Bool → Bool → Bool} {mergeTypes : Option T → Option T → T → T}
  {defaults : FileType → T} {main : MinifyConf T} {levels : List (MinifyConf T)} {test : Option T → Bool}
  {headerOnly pcalloc : Bool} {h h' : HeadersOut} {ctx : Option FileType}

/-- The innermost levels that say something about the switches and the types decide by which minifier
a response is read, if by any. If by none, headers and body are forwarded as they are; else the length is
taken back, and the page does not grow. So a `Content-Length` that is right for the page is right for
what is forwarded, if it is still there. -/
theorem response_sent (hv : Inherits mergeValue) (ht : Inherits mergeTypes) (hne : levels ≠ [])
    (hf : ngxHttpMinifyHeaderFilter test (mergedConf mergeValue mergeTypes defaults main levels) headerOnly pcalloc h =
      some (h', ctx))
    (hcalls : ∀ c ∈ calls, c.Delivered)
    (hrun : respond cap palloc ⟨headerOnly, ctx⟩ .start calls = .ok (f, outs))
    (hlength : ∀ n ∈ h.contentLength, n = (calls.flatMap Call.bytes).length) :
    ctx = (if h.Plain headerOnly then chosen test defaults (main :: levels) else none) ∧
      (ctx = none → h' = h ∧ outs = calls) ∧
      (ctx ≠ none → h' = { h with contentLength := none, acceptRanges := false } ∧
        ((∀ v ∈ f.visits, v.Resumes) → (outs.flatMap Call.bytes).length ≤ (calls.flatMap Call.bytes).length)) ∧
      ∀ n ∈ h'.contentLength, n = (outs.flatMap Call.bytes).length := by
  rw [headerFilter_merged hv ht hne] at hf
  cases hc : if h.Plain headerOnly then chosen test defaults (main :: levels) else none with
  | none =>
    rw [hc] at hf
    obtain ⟨rfl, rfl⟩ := Prod.mk.inj (Option.some.inj hf)
    obtain rfl := respond_passed_calls (.inr rfl) hrun
    exact ⟨rfl, fun _ => ⟨rfl, rfl⟩, fun hno => absurd rfl hno, hlength⟩
  | some type =>
    rw [hc] at hf
    have hset : setCtx pcalloc h type = some (h', ctx) := hf
    rw [setCtx] at hset
    split at hset
    · cases hset
    · obtain ⟨rfl, rfl⟩ := Prod.mk.inj (Option.some.inj hset)
      exact ⟨rfl, fun hno => absurd hno (Option.some_ne_none _),
        fun _ => ⟨rfl, respond_length_le hcalls hrun⟩, fun n hn => absurd hn (Option.not_mem_none n)⟩

end Responses

/-- `ngx_http_html_default_types`, `ngx_http_css_default_types` and `ngx_http_js_default_types`. -/
def defaultTypes : FileType → List (List UInt8)
  | .html => [lit "text/html"]
  | .css => [lit "text/css"]
  | .js => [lit "application/javascript", lit "application/x-javascript"]

/-- A page of HTML in two buffers, in a location that says nothing, where the minifier is switched on around it. -/
theorem response_sent_html : ∃ f outs,
    respond none (fun _ => true) ⟨false, some .html⟩ .start [dataCall false (lit "a  <"), dataCall false (lit "b  c> d")] =
      .ok (f, outs) ∧
    (outs.flatMap Call.bytes).length ≤ 11 := by
  have hcalls : ∀ c ∈ [dataCall false (lit "a  <"), dataCall false (lit "b  c> d")], c.Delivered := by
    simp [dataCall_delivered]
  have hpage : [dataCall false (lit "a  <"), dataCall false (lit "b  c> d")].flatMap Call.bytes =
      lit "a  <b  c> d" := by
    rw [← bytes_arrivals, List.map_cons, List.map_singleton, dataCall_arrivals, dataCall_arrivals]
    rfl
  have hresumes : (deliverAll none (fun _ => true) ⟨false, some .html⟩ .start
      [[.data false (lit "a  <")], [.data false (lit "b  c> d")]]).map
      (fun p => decide (∀ v ∈ p.1.visits, v.Resumes)) = .ok true := by decide +kernel
  obtain ⟨f, outs, hf⟩ : ∃ f outs, respond none (fun _ => true) ⟨false, some .html⟩ .start
      [dataCall false (lit "a  <"), dataCall false (lit "b  c> d")] = .ok (f, outs) := by
    refine exists_respond hcalls ?_
    simp only [List.map_cons, List.map_nil, dataCall_arrivals]
    decide +kernel
  obtain ⟨t, ht, hshows, -⟩ := respond_ok hcalls hf
  simp only [List.map_cons, List.map_nil, dataCall_arrivals] at ht
  rw [ht] at hresumes
  have hres := of_decide_eq_true (Except.ok.inj hresumes)
  rw [← hshows.visits] at hres
  have hfilter : ngxHttpMinifyHeaderFilter (fun types => decide (lit "text/html" ∈ types.getD []))
      (mergedConf inherited inherited defaultTypes ⟨some true, none, none, none, none, none⟩ [ngxMinifyCreateConf])
      false true ⟨200, 9, none, some 11, true⟩ = some (⟨200, 9, none, none, false⟩, some .html) := by
    decide +kernel
  have hlength : ∀ n ∈ (some 11 : Option ℕ),
      n = ([dataCall false (lit "a  <"), dataCall false (lit "b  c> d")].flatMap Call.bytes).length := by
    intro n hn
    rw [← Option.some.inj hn, hpage]
    rfl
  obtain ⟨-, -, hread, -⟩ := response_sent inherits_inherited inherits_inherited (List.cons_ne_nil _ _) hfilter hcalls hf hlength
  have hle := (hread (Option.some_ne_none _)).2 hres
  rw [hpage] at hle
  exact ⟨f, outs, hf, hle⟩

end NginB.Minify
