import NginB.Program.Along

/-! # The capture cache

The body filter is called for each chain of a response and writes the cache file in the first call in
which all goes well. What it knows of the calls before is `r->cache` and `is_cached`.
-/
namespace NginB.Capcache
open NginB.Program

abbrev Bytes := List UInt8

/-- `ngx_path_t`: a directory, and how many bytes its levels take in a name. -/
structure Path where
  name : Bytes
  len : ℕ
  deriving DecidableEq

/-- `ngx_http_cache_t`, in which `ngx_http_file_cache_new` leaves all fields zero. -/
structure Cache where
  key : Option Bytes
  headerStart : ℕ
  validSec : ℕ
  nameLen : ℕ
  nameData : Option Bytes
  /-- `file_cache`, of which the filter takes the path. -/
  fileCache : Option Path
  deriving DecidableEq

def Cache.zero : Cache := ⟨none, 0, 0, 0, none, none⟩

/-- `ngx_capcache_ctx_t`. -/
structure Ctx where
  httpStatus : ℕ
  isCached : ℕ
  deriving DecidableEq

/-- What the filter asks others to do with `r->cache` and the files. -/
inductive Event
  | setHeader (c : Cache)
  | fileName (c : Cache)
  | rename (done : Bool)
  deriving DecidableEq

/-- A request between two calls. The filter faults where it reads through a null pointer. -/
structure Request where
  ctx : Option Ctx
  cache : Option Cache
  events : List Event
  fault : Bool
  deriving DecidableEq

/-- A call: whether it comes with a chain, the time, and how the steps outside of the filter end. -/
structure Call where
  input : Bool
  time : ℕ
  cacheNew : Bool
  createKey : Bool
  key : Bytes
  headerStart : ℕ
  calloc : Bool
  writeTemp : Bool
  nameAlloc : Bool
  rename : Bool
  cleanupAdd : Bool

/-- The file cache of the location, and the names that nginx makes of a path and a key. -/
structure Conf where
  fileCache : Path
  hashedName : Path → Bytes → Bytes

section Filter
variable (conf : Conf) (e : Call)

/-- `ngx_http_file_cache_name_my`. The length is set before the bytes are allocated. -/
def ngxHttpFileCacheNameMy (path : Path) (c : Cache) : Cache :=
  if c.nameLen ≠ 0 then c
  else
    let c := { c with nameLen := path.name.length + 1 + path.len + 2 * 16 }
    if e.nameAlloc then
      { c with nameData := some (conf.hashedName path (c.key.getD (List.replicate 16 0))) }
    else c

/-- `c` after the `if (c == NULL)` of the filter, unless it leaves the filter there, and `r->cache`. -/
def openCache (cache : Option Cache) : Option Cache × Option Cache :=
  match cache with
  | some c => (some c, some c)
  | none =>
    if !e.cacheNew then (none, none)
    else if !e.createKey then (none, some .zero)
    else
      let c := { Cache.zero with
        key := some e.key
        headerStart := e.headerStart
        fileCache := some conf.fileCache }
      (some c, some c)

/-- The rest of the filter, from the buffer of the header on. What `ngx_ext_rename_file` and
`ngx_fd_info` return is only stored. -/
def writeCache (ctx : Ctx) (c : Cache) (r : Request) : Request :=
  if !e.calloc then r
  else
    let c := { c with validSec := e.time - 1 }
    let r := { r with cache := some c, events := .setHeader c :: r.events }
    if !e.writeTemp then r
    else
      match c.fileCache with
      | none => { r with fault := true }
      | some path =>
        let r := { r with
          cache := some (ngxHttpFileCacheNameMy conf e path c)
          events := .rename e.rename :: .fileName c :: r.events }
        if !e.cleanupAdd then r
        else { r with ctx := some { ctx with isCached := 1 } }

def ngxCapcacheBodyFilter (r : Request) : Request :=
  if !e.input then r
  else
    match r.ctx with
    | none => r
    | some ctx =>
      if ctx.isCached ≠ 0 then r
      else
        match openCache conf e r.cache with
        | (none, cache) => { r with cache := cache }
        | (some c, cache) => writeCache conf e ctx c { r with cache := cache }

/-- A call on the request, unless an earlier one has faulted. -/
def call (r : Request) (e : Call) : Request := if r.fault then r else ngxCapcacheBodyFilter conf e r

end Filter

def Cache.Complete (c : Cache) : Prop := c.key.isSome = true ∧ c.fileCache.isSome = true

/-- The filter uses a cache object for this only when it is complete. -/
def Event.Sound : Event → Prop
  | .setHeader c => c.Complete
  | .fileName c => c.Complete
  | .rename _ => True

def Request.Installed (r : Request) : Prop := .rename true ∈ r.events

/-- What a retry must keep: no half-made cache object is used, and a response counts as cached only
when its file has been installed. -/
def Request.Safe (r : Request) : Prop :=
  (∀ ev ∈ r.events, ev.Sound) ∧ ∀ ctx, r.ctx = some ctx → ctx.isCached ≠ 0 → r.Installed

/-- A request before the first call of the filter: `r->cache` is null, or another module has made it. -/
structure Request.Start (r : Request) : Prop where
  ctx : ∀ ctx, r.ctx = some ctx → ctx.isCached = 0
  cache : ∀ c, r.cache = some c → c.Complete
  events : r.events = []
  fault : r.fault = false

/-- The call gets as far as the rename, where `r->cache` is complete. -/
def Call.Reaches (e : Call) : Bool := e.input && e.calloc && e.writeTemp

def InstallsFirst (es : List Call) : Prop :=
  ∀ e, es.find? (fun e => e.Reaches && (e.rename || e.cleanupAdd)) = some e → e.rename = true

/-- In the first call that makes the cache object the key is made too, and the file is installed before
the response is marked; or no later call gets a buffer for the header. -/
def MakesKey (es : List Call) : Prop :=
  match es.dropWhile fun e => !(e.input && e.cacheNew) with
  | [] => True
  | e :: rest => if e.createKey then InstallsFirst (e :: rest) else ∀ e ∈ rest, ¬ (e.input && e.calloc)

def RetriesSafely (r : Request) (es : List Call) : Prop :=
  r.ctx.isSome = true → if r.cache.isSome then InstallsFirst es else MakesKey es

section Steps
variable {conf : Conf} {r : Request} {e : Call} {es : List Call}

structure Request.Ready (r : Request) : Prop where
  fault : r.fault = false
  ctx : ∃ ctx, r.ctx = some ctx ∧ ctx.isCached = 0
  cache : ∃ c, r.cache = some c ∧ c.Complete
  events : ∀ ev ∈ r.events, ev.Sound

structure Request.Marked (r : Request) : Prop where
  ctx : ∃ ctx, r.ctx = some ctx ∧ ctx.isCached ≠ 0
  events : ∀ ev ∈ r.events, ev.Sound

structure Request.Half (r : Request) : Prop where
  fault : r.fault = false
  ctx : ∃ ctx, r.ctx = some ctx ∧ ctx.isCached = 0
  cache : r.cache = some .zero
  events : ∀ ev ∈ r.events, ev.Sound

theorem Request.safe_of_unmarked (hctx : ∃ ctx, r.ctx = some ctx ∧ ctx.isCached = 0)
    (hevents : ∀ ev ∈ r.events, ev.Sound) : r.Safe := by
  refine ⟨hevents, fun ctx hr hne => ?_⟩
  obtain ⟨ctx', hr', hzero⟩ := hctx
  cases hr.symm.trans hr'
  exact absurd hzero hne

theorem Request.Ready.safe (h : r.Ready) : r.Safe := safe_of_unmarked h.ctx h.events

theorem Request.Marked.safe_installed (h : r.Marked) : r.Safe ↔ r.Installed := by
  constructor
  · intro hsafe
    obtain ⟨ctx, hr, hne⟩ := h.ctx
    exact hsafe.2 ctx hr hne
  · exact fun hinstalled => ⟨h.events, fun _ _ _ => hinstalled⟩

theorem Request.Marked.call (h : r.Marked) : call conf r e = r := by
  obtain ⟨ctx, hr, hne⟩ := h.ctx
  rw [Capcache.call, ngxCapcacheBodyFilter, hr]
  dsimp only
  rw [if_pos hne, ite_self, ite_self]

theorem ngxHttpFileCacheNameMy_complete {path : Path} {c : Cache} (h : c.Complete) :
    (ngxHttpFileCacheNameMy conf e path c).Complete := by
  unfold ngxHttpFileCacheNameMy
  split
  · exact h
  · dsimp only
    split
    · exact h
    · exact h

variable (conf) in
/-- What a call does where the cache object is complete. -/
theorem Request.Ready.call (h : r.Ready) (e : Call) :
    e.Reaches = false ∧ (call conf r e).Ready ∧ ((call conf r e).Installed ↔ r.Installed) ∨
      e.Reaches = true ∧ ((call conf r e).Installed ↔ e.rename = true ∨ r.Installed) ∧
        (e.cleanupAdd = false ∧ (call conf r e).Ready ∨ e.cleanupAdd = true ∧ (call conf r e).Marked) := by
  obtain ⟨ctx₀, cache₀, events, fault⟩ := r
  obtain ⟨hfault, ⟨ctx, hctx, hzero⟩, ⟨c, hcache, hcomplete⟩, hevents⟩ := h
  dsimp only at hfault hctx hcache hevents
  subst hfault hctx hcache
  obtain ⟨path, hpath⟩ := Option.isSome_iff_exists.mp hcomplete.2
  have hready : Request.Ready ⟨some ctx, some c, events, false⟩ :=
    ⟨rfl, ⟨ctx, rfl, hzero⟩, ⟨c, rfl, hcomplete⟩, hevents⟩
  have hcall : Capcache.call conf ⟨some ctx, some c, events, false⟩ e =
      if !e.input then ⟨some ctx, some c, events, false⟩
      else writeCache conf e ctx c ⟨some ctx, some c, events, false⟩ := by
    simp [Capcache.call, ngxCapcacheBodyFilter, hzero, openCache]
  rw [hcall]
  unfold Call.Reaches
  cases hinput : e.input with
  | false => exact .inl ⟨rfl, hready, Iff.rfl⟩
  | true =>
    rw [Bool.not_true, if_neg Bool.false_ne_true]
    cases hcalloc : e.calloc with
    | false =>
      have hsame : writeCache conf e ctx c ⟨some ctx, some c, events, false⟩ =
          ⟨some ctx, some c, events, false⟩ := by
        simp [writeCache, hcalloc]
      rw [hsame]
      exact .inl ⟨rfl, hready, Iff.rfl⟩
    | true =>
      let c₁ : Cache := { c with validSec := e.time - 1 }
      have hheader : c₁.Complete := hcomplete
      have hsound : ∀ ev ∈ Event.setHeader c₁ :: events, ev.Sound := by
        intro ev hev
        rcases List.mem_cons.mp hev with rfl | hev
        · exact hheader
        · exact hevents ev hev
      cases hwrite : e.writeTemp with
      | false =>
        have hstep : writeCache conf e ctx c ⟨some ctx, some c, events, false⟩ =
            ⟨some ctx, some c₁, .setHeader c₁ :: events, false⟩ := by
          simp [writeCache, hcalloc, hwrite, c₁]
        rw [hstep]
        refine .inl ⟨rfl, ⟨rfl, ⟨ctx, rfl, hzero⟩, ⟨c₁, rfl, hheader⟩, hsound⟩, ?_⟩
        simp [Request.Installed]
      | true =>
        have hstep : writeCache conf e ctx c ⟨some ctx, some c, events, false⟩ =
            ⟨some (if e.cleanupAdd then { ctx with isCached := 1 } else ctx),
              some (ngxHttpFileCacheNameMy conf e path c₁),
              .rename e.rename :: .fileName c₁ :: .setHeader c₁ :: events, false⟩ := by
          cases hclean : e.cleanupAdd <;> simp [writeCache, hcalloc, hwrite, hpath, hclean, c₁]
        rw [hstep]
        have hall : ∀ ev ∈ Event.rename e.rename :: .fileName c₁ :: .setHeader c₁ :: events, ev.Sound := by
          intro ev hev
          rcases List.mem_cons.mp hev with rfl | hev
          · trivial
          · rcases List.mem_cons.mp hev with rfl | hev
            · exact hheader
            · exact hsound ev hev
        refine .inr ⟨rfl, ?_, ?_⟩
        · cases e.rename <;> simp [Request.Installed]
        · cases hclean : e.cleanupAdd with
          | false =>
            exact .inl ⟨rfl, rfl, ⟨ctx, rfl, hzero⟩, ⟨_, rfl, ngxHttpFileCacheNameMy_complete hheader⟩, hall⟩
          | true => exact .inr ⟨rfl, ⟨_, rfl, Nat.one_ne_zero⟩, hall⟩

/-- Once the file is installed all that follows is safe. -/
theorem along_of_installed (h : r.Ready ∨ r.Marked) (hinstalled : r.Installed) :
    Along (call conf) Request.Safe es r := by
  have hstep : ∀ r e, ((Request.Ready r ∨ Request.Marked r) ∧ r.Installed) →
      ((call conf r e).Ready ∨ (call conf r e).Marked) ∧ (call conf r e).Installed := by
    rintro r e ⟨hready | hmarked, hinstalled⟩
    · rcases hready.call conf e with ⟨-, hnext, hsame⟩ | ⟨-, hsame, ⟨-, hnext⟩ | ⟨-, hnext⟩⟩
      · exact ⟨.inl hnext, hsame.mpr hinstalled⟩
      · exact ⟨.inl hnext, hsame.mpr (.inr hinstalled)⟩
      · exact ⟨.inr hnext, hsame.mpr (.inr hinstalled)⟩
    · rw [hmarked.call]
      exact ⟨.inr hmarked, hinstalled⟩
  have hsafe : ∀ r, ((Request.Ready r ∨ Request.Marked r) ∧ r.Installed) → r.Safe := by
    rintro r ⟨hready | hmarked, hinstalled⟩
    · exact hready.safe
    · exact hmarked.safe_installed.mpr hinstalled
  exact along_of_preserved hstep hsafe ⟨h, hinstalled⟩

/-- Where the cache object is complete a run is safe just when the first call that installs the file or
marks the response installs it. -/
theorem along_ready (h : r.Ready) (hnot : ¬ r.Installed) :
    Along (call conf) Request.Safe es r ↔ InstallsFirst es := by
  induction es generalizing r with
  | nil => exact iff_of_true (along_nil.mpr h.safe) fun e he => by cases he
  | cons e es ih =>
    rw [along_cons, and_iff_right h.safe, InstallsFirst, List.find?_cons]
    rcases h.call conf e with ⟨hreach, hnext, hsame⟩ | ⟨hreach, hsame, hnext⟩
    · rw [hreach, Bool.false_and]
      exact ih hnext (mt hsame.mp hnot)
    · rw [hreach, Bool.true_and]
      cases hrename : e.rename with
      | true =>
        have hinstalled := hsame.mpr (.inl hrename)
        apply iff_of_true
        · exact along_of_installed (hnext.imp And.right And.right) hinstalled
        · rintro _ ⟨⟩
          exact hrename
      | false =>
        have hstill : ¬ (call conf r e).Installed := by
          rw [hsame, hrename]
          simpa using hnot
        rcases hnext with ⟨hclean, hready⟩ | ⟨hclean, hmarked⟩
        · rw [hclean, Bool.or_false]
          exact ih hready hstill
        · rw [hclean, Bool.or_true]
          apply iff_of_false
          · exact fun halong => hstill (hmarked.safe_installed.mp halong.start)
          · intro hfirst
            exact absurd (hrename.symm.trans (hfirst e rfl)) Bool.false_ne_true

/-- Where the cache object has no key a run is safe just when no call gets a buffer for the header. -/
theorem along_half (h : r.Half) :
    Along (call conf) Request.Safe es r ↔ ∀ e ∈ es, ¬ (e.input && e.calloc) := by
  induction es with
  | nil => exact iff_of_true (along_nil.mpr (Request.safe_of_unmarked h.ctx h.events)) (by simp)
  | cons e es ih =>
    rw [along_cons, and_iff_right (Request.safe_of_unmarked h.ctx h.events), List.forall_mem_cons]
    obtain ⟨ctx₀, cache₀, events, fault⟩ := r
    obtain ⟨hfault, ⟨ctx, hctx, hzero⟩, hcache, hevents⟩ := h
    dsimp only at hfault hctx hcache hevents
    subst hfault hctx hcache
    by_cases hlive : (e.input && e.calloc) = true
    · apply iff_of_false
      · intro halong
        obtain ⟨hinput, hcalloc⟩ := (Bool.and_eq_true _ _).mp hlive
        have hevent : .setHeader { Cache.zero with validSec := e.time - 1 } ∈
            (call conf ⟨some ctx, some .zero, events, false⟩ e).events := by
          cases hwrite : e.writeTemp <;>
            simp [Capcache.call, ngxCapcacheBodyFilter, hzero, openCache, writeCache, hinput, hcalloc, hwrite,
              Cache.zero]
        have hcomplete : Cache.Complete { Cache.zero with validSec := e.time - 1 } :=
          halong.start.1 _ hevent
        cases hcomplete.1
      · exact fun hnone => hnone.1 hlive
    · rw [and_iff_right hlive, ← ih]
      have hsame : call conf ⟨some ctx, some .zero, events, false⟩ e =
          ⟨some ctx, some .zero, events, false⟩ := by
        cases hinput : e.input with
        | false => simp [Capcache.call, ngxCapcacheBodyFilter, hinput]
        | true =>
          have hcalloc : e.calloc = false := by simpa [hinput] using hlive
          simp [Capcache.call, ngxCapcacheBodyFilter, hzero, openCache, writeCache, hcalloc]
      rw [hsame]

theorem makesKey_new (h : (e.input && e.cacheNew) = true) : MakesKey (e :: es) ↔
    if e.createKey then InstallsFirst (e :: es) else ∀ e ∈ es, ¬ (e.input && e.calloc) := by
  rw [MakesKey, List.dropWhile_cons, h]
  exact Iff.rfl

theorem makesKey_skip (h : ¬ (e.input && e.cacheNew) = true) : MakesKey (e :: es) ↔ MakesKey es := by
  rw [MakesKey, List.dropWhile_cons, Bool.eq_false_iff.mpr h]
  exact Iff.rfl

/-- Where there is no cache object a run is safe just when the call that makes it makes its key, or no
later call gets a buffer, and the file is installed first. -/
theorem along_fresh {ctx : Ctx} (hzero : ctx.isCached = 0) :
    Along (call conf) Request.Safe es ⟨some ctx, none, [], false⟩ ↔ MakesKey es := by
  have hsafe : ∀ cache, Request.Safe ⟨some ctx, cache, [], false⟩ :=
    fun cache => Request.safe_of_unmarked ⟨ctx, rfl, hzero⟩ (fun ev hev => by cases hev)
  induction es with
  | nil => exact iff_of_true (along_nil.mpr (hsafe none)) trivial
  | cons e es ih =>
    rw [along_cons, and_iff_right (hsafe none)]
    by_cases hnew : (e.input && e.cacheNew) = true
    · obtain ⟨hinput, hcache⟩ := (Bool.and_eq_true _ _).mp hnew
      rw [makesKey_new hnew]
      cases hkey : e.createKey with
      | true =>
        -- the call goes on as it would with the object that it makes
        let c : Cache := { Cache.zero with
          key := some e.key
          headerStart := e.headerStart
          fileCache := some conf.fileCache }
        have hready : Request.Ready ⟨some ctx, some c, [], false⟩ :=
          ⟨rfl, ⟨ctx, rfl, hzero⟩, ⟨c, rfl, rfl, rfl⟩, fun ev hev => by cases hev⟩
        have hsame : call conf ⟨some ctx, none, [], false⟩ e = call conf ⟨some ctx, some c, [], false⟩ e := by
          simp [Capcache.call, ngxCapcacheBodyFilter, hzero, openCache, hinput, hcache, hkey, c]
        have hnot : ¬ Request.Installed ⟨some ctx, some c, [], false⟩ := by simp [Request.Installed]
        have halong : Along (call conf) Request.Safe (e :: es) ⟨some ctx, some c, [], false⟩ ↔
            InstallsFirst (e :: es) := along_ready hready hnot
        rw [along_cons, and_iff_right (hsafe (some c))] at halong
        rw [hsame, if_pos rfl]
        exact halong
      | false =>
        have hhalf : call conf ⟨some ctx, none, [], false⟩ e = ⟨some ctx, some .zero, [], false⟩ := by
          simp [Capcache.call, ngxCapcacheBodyFilter, hzero, openCache, hinput, hcache, hkey]
        rw [hhalf, if_neg Bool.false_ne_true]
        apply along_half
        exact ⟨rfl, ⟨ctx, rfl, hzero⟩, rfl, by simp⟩
    · have hsame : call conf ⟨some ctx, none, [], false⟩ e = ⟨some ctx, none, [], false⟩ := by
        cases hinput : e.input with
        | false => simp [Capcache.call, ngxCapcacheBodyFilter, hinput]
        | true =>
          have hcache : e.cacheNew = false := by simpa [hinput] using hnew
          simp [Capcache.call, ngxCapcacheBodyFilter, hzero, openCache, hcache]
      rw [hsame, makesKey_skip hnew]
      exact ih

/-- Every sequence of calls on a request keeps to complete cache objects, and marks the response only
after its file has been installed, just when it retries safely. -/
theorem safe_iff (conf : Conf) (h : r.Start) (es : List Call) :
    Along (call conf) Request.Safe es r ↔ RetriesSafely r es := by
  obtain ⟨ctx₀, cache, events, fault⟩ := r
  obtain ⟨hctx, hcache, hevents, hfault⟩ := h
  dsimp only at hctx hcache hevents hfault
  subst hevents hfault
  cases ctx₀ with
  | none =>
    apply iff_of_true
    · let r : Request := ⟨none, cache, [], false⟩
      have hsame : ∀ r' e, r' = r → call conf r' e = r := by
        rintro _ e rfl
        simp [Capcache.call, ngxCapcacheBodyFilter, r]
      have hsafe : ∀ r', r' = r → r'.Safe := by
        rintro _ rfl
        exact ⟨by simp [r], by simp [r]⟩
      exact along_of_preserved hsame hsafe rfl
    · exact fun hsome => by cases hsome
  | some ctx =>
    have hzero := hctx ctx rfl
    rw [RetriesSafely, Option.isSome_some]
    cases cache with
    | none =>
      rw [along_fresh hzero]
      simp
    | some c =>
      have hready : Request.Ready ⟨some ctx, some c, [], false⟩ :=
        ⟨rfl, ⟨ctx, rfl, hzero⟩, ⟨c, rfl, hcache c rfl⟩, fun ev hev => by cases hev⟩
      rw [along_ready hready (by simp [Request.Installed])]
      simp

end Steps

def newPage : Request := ⟨some ⟨200, 0⟩, none, [], false⟩

theorem newPage_start : newPage.Start where
  ctx := by simp [newPage]
  cache := by simp [newPage]
  events := rfl
  fault := rfl

def goodCall : Call := ⟨true, 1000, true, true, List.replicate 16 7, 128, true, true, true, true, true⟩

def someConf : Conf := ⟨⟨[47, 99], 4⟩, fun path key => path.name ++ key⟩

/-- In the first of three calls no buffer can be allocated for the header, the second one installs the file, and
the third one finds the response marked. -/
theorem safe_iff_threeCalls :
    Along (call someConf) Request.Safe [{ goodCall with calloc := false }, goodCall, goodCall] newPage := by
  refine (safe_iff someConf newPage_start _).mpr fun _ => ?_
  intro e he
  obtain rfl : goodCall = e := Option.some.inj he
  rfl

/-- The key cannot be made in the first call, and the second call writes the header all the same. -/
theorem keyless_header : ¬ ∀ (r : Request) (es : List Call), r.Start →
    Along (call someConf) Request.Safe es r := by
  intro h
  have hsafe : Request.Safe (call someConf (call someConf newPage { goodCall with createKey := false })
      goodCall) :=
    h newPage [{ goodCall with createKey := false }, goodCall] newPage_start _ (List.prefix_refl _)
  have hevent : .setHeader { Cache.zero with validSec := 999 } ∈
      (call someConf (call someConf newPage { goodCall with createKey := false }) goodCall).events := by
    decide
  have hcomplete : Cache.Complete { Cache.zero with validSec := 999 } := hsafe.1 _ hevent
  cases hcomplete.1

end NginB.Capcache
