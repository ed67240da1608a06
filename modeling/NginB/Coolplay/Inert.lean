import NginB.Coolplay.PluginStrings
import NginB.Program.Inherited

/-! # What coolplay does to the responses of a location

`cp_plugin` makes an array for the strings and puts none into it. The header filter goes by the count of
that array, and the body filter by what the header filter has set.
-/
namespace NginB.Coolplay
open NginB.Program

/-- `ngx_http_aqb_cp_conf_t`. The switch is missing where it is `NGX_CONF_UNSET`, and the array where it is
NULL. -/
structure AqbCpConf where
  cpEnable : Option Bool
  plugins : Option ℕ
  deriving DecidableEq

/-- The directives of a location: the value of the switch, and what `ngx_array_create` returns if it is
called, where 0 is NULL. -/
inductive Directive
  | coolplay (on : Bool)
  | cpPlugin (array : ℕ)
  deriving DecidableEq

structure HeaderRequest where
  headerOnly : Bool
  /-- a bit for each of the methods -/
  method : ℕ
  isMain : Bool
  status : ℕ

structure HeadersOut where
  contentLength : Option ℕ
  acceptRanges : Bool
  deriving DecidableEq

def ngxHttpAqbCpCreateConf : AqbCpConf := ⟨none, none⟩

/-- `ngx_http_aqb_cp_load_plugin`. `none` is `NGX_CONF_ERROR`. -/
def ngxHttpAqbCpLoadPlugin (array : ℕ) (conf : AqbCpConf) : Option AqbCpConf :=
  match conf.plugins with
  | some _ => some conf
  | none => if array = 0 then none else some { conf with plugins := some array }

/-- A directive on the configuration of its location. A switch is set once. -/
def Directive.run (conf : AqbCpConf) : Directive → Option AqbCpConf
  | .coolplay on => if conf.cpEnable.isSome then none else some { conf with cpEnable := some on }
  | .cpPlugin array => ngxHttpAqbCpLoadPlugin array conf

def ngxHttpAqbCpMergeConf (mergeValue : Option Bool → Option Bool → Bool → Bool) (prev conf : AqbCpConf) :
    AqbCpConf :=
  { conf with cpEnable := some (mergeValue conf.cpEnable prev.cpEnable false) }

def levelConf (ds : List Directive) : Option AqbCpConf := ds.foldlM Directive.run ngxHttpAqbCpCreateConf

/-- The configuration of a location inside the levels around it, from the outermost one on. -/
def locationConf (mergeValue : Option Bool → Option Bool → Bool → Bool) (main : List Directive)
    (levels : List (List Directive)) : Option AqbCpConf := do
  let conf ← levelConf main
  let confs ← levels.mapM levelConf
  some (confs.foldl (ngxHttpAqbCpMergeConf mergeValue) conf)

def ngxHttpHead : ℕ := 4

/-- The condition of the header filter, in its order; `none` where it faults. The count of the array is read
in memory. -/
def passes (m : Memory) (conf : AqbCpConf) (q : HeaderRequest) : Option Bool :=
  if conf.cpEnable = some false then some true
  else
    match conf.plugins with
    | none => some true
    | some a => do
      let nelts ← m.word (a + 8)
      some (nelts = 0 || q.headerOnly || q.method &&& ngxHttpHead ≠ 0 || !q.isMain || q.status = 204)

inductive Header
  | fault
  | error
  | next (h : HeadersOut) (ctx : Bool)
  deriving DecidableEq

def ngxHttpAqbCpHeaderFilter (m : Memory) (conf : AqbCpConf) (q : HeaderRequest) (pcalloc : Bool)
    (h : HeadersOut) : Header :=
  match passes m conf q with
  | none => .fault
  | some true => .next h false
  | some false => if pcalloc = false then .error else .next ⟨none, false⟩ true

/-- A response: its headers, and what the body filter makes of each chain. `none` where one of the filters
fails or faults. -/
def respond (m : Memory) (conf : AqbCpConf) (q : HeaderRequest) (pcalloc : Bool) (h : HeadersOut)
    (chains : List (List Buf)) : Option (HeadersOut × List (List Buf)) :=
  match ngxHttpAqbCpHeaderFilter m conf q pcalloc h with
  | .next h' ctx => do
    let outs ← chains.mapM (ngxHttpAqbCpBodyFilter m ⟨q.headerOnly, ctx, conf.plugins.getD 0⟩)
    some (h', outs)
  | _ => none

def firstArray (ds : List Directive) : Option ℕ :=
  ds.findSome? fun
    | .cpPlugin array => some array
    | .coolplay _ => none

def switch (ds : List Directive) : Option Bool :=
  ds.findSome? fun
    | .coolplay on => some on
    | .cpPlugin _ => none

/-- The innermost of the levels that set the switch sets it on, and the location has an array of its own. -/
def Handles (levels : List (List Directive)) (a : ℕ) : Prop :=
  (innermost (levels.map switch)).getD false = true ∧ levels.getLast?.bind firstArray = some a

section Conf
variable {ds : List Directive} {conf conf' : AqbCpConf} {d : Directive}

theorem Directive.run_conf (h : d.run conf = some conf') :
    conf'.cpEnable = conf.cpEnable.or (switch [d]) ∧ conf'.plugins = conf.plugins.or (firstArray [d]) := by
  cases d with
  | coolplay on =>
    rw [Directive.run] at h
    split at h
    · cases h
    · next hno =>
      cases h
      rw [Bool.not_eq_true, Option.isSome_eq_false_iff, Option.isNone_iff_eq_none] at hno
      rw [hno]
      exact ⟨rfl, (Option.or_none).symm⟩
  | cpPlugin array =>
    rw [Directive.run, ngxHttpAqbCpLoadPlugin] at h
    split at h
    · next a ha =>
      cases h
      rw [ha]
      exact ⟨(Option.or_none).symm, rfl⟩
    · next hno =>
      split at h
      · cases h
      · cases h
        rw [hno]
        exact ⟨(Option.or_none).symm, rfl⟩

theorem switch_cons (d : Directive) (ds : List Directive) : switch (d :: ds) = (switch [d]).or (switch ds) := by
  cases d <;> rfl

theorem firstArray_cons (d : Directive) (ds : List Directive) :
    firstArray (d :: ds) = (firstArray [d]).or (firstArray ds) := by
  cases d <;> rfl

theorem run_conf (h : ds.foldlM Directive.run conf = some conf') :
    conf'.cpEnable = conf.cpEnable.or (switch ds) ∧ conf'.plugins = conf.plugins.or (firstArray ds) := by
  induction ds generalizing conf with
  | nil =>
    cases h
    exact ⟨Option.or_none.symm, Option.or_none.symm⟩
  | cons d ds ih =>
    rw [List.foldlM_cons] at h
    obtain ⟨next, hd, hrest⟩ := Option.bind_eq_some_iff.mp h
    obtain ⟨hswitch, harray⟩ := Directive.run_conf hd
    obtain ⟨hswitch', harray'⟩ := ih hrest
    rw [hswitch', harray', hswitch, harray, switch_cons d ds, firstArray_cons d ds, Option.or_assoc, Option.or_assoc]
    exact ⟨rfl, rfl⟩

/-- A level has the first switch and the first array of its directives. -/
theorem levelConf_conf (h : levelConf ds = some conf) : conf.cpEnable = switch ds ∧ conf.plugins = firstArray ds := by
  obtain ⟨hswitch, harray⟩ := run_conf h
  exact ⟨hswitch.trans Option.none_or, harray.trans Option.none_or⟩

theorem levelConfs_conf {levels : List (List Directive)} {confs : List AqbCpConf}
    (h : levels.mapM levelConf = some confs) :
    confs.map AqbCpConf.cpEnable = levels.map switch ∧ confs.map AqbCpConf.plugins = levels.map firstArray := by
  induction levels generalizing confs with
  | nil =>
    cases h
    exact ⟨rfl, rfl⟩
  | cons ds levels ih =>
    rw [List.mapM_cons] at h
    obtain ⟨conf, hconf, h⟩ := Option.bind_eq_some_iff.mp h
    obtain ⟨rest, hrest, h⟩ := Option.bind_eq_some_iff.mp h
    cases h
    obtain ⟨hswitch, harray⟩ := levelConf_conf hconf
    obtain ⟨hswitch', harray'⟩ := ih hrest
    rw [List.map_cons, List.map_cons, List.map_cons, List.map_cons, hswitch, harray, hswitch', harray']
    exact ⟨rfl, rfl⟩

end Conf

section Location
variable {mergeValue : Option Bool → Option Bool → Bool → Bool} {main : List Directive}
  {levels : List (List Directive)} {conf : AqbCpConf} {m : Memory}

theorem locationConf_conf (hv : Inherits mergeValue) (hne : levels ≠ [])
    (h : locationConf mergeValue main levels = some conf) :
    conf.cpEnable = some ((innermost ((main :: levels).map switch)).getD false) ∧
      conf.plugins = (main :: levels).getLast?.bind firstArray := by
  obtain ⟨outer, houter, h⟩ := Option.bind_eq_some_iff.mp h
  obtain ⟨confs, hconfs, h⟩ := Option.bind_eq_some_iff.mp h
  cases h
  obtain ⟨hswitch, -⟩ := levelConf_conf houter
  obtain ⟨hswitches, harrays⟩ := levelConfs_conf hconfs
  rcases List.eq_nil_or_concat' confs with rfl | ⟨front, own, rfl⟩
  · exact absurd (List.map_eq_nil_iff.mp hswitches.symm) hne
  constructor
  · rw [hv.field_eq AqbCpConf.cpEnable (fun _ _ => rfl) (List.append_ne_nil_of_right_ne_nil _ (List.cons_ne_nil _ _)) outer,
      List.map_cons, hswitches, hswitch, List.map_cons]
  · -- merging leaves the array of the location alone
    have hown : levels.getLast?.map firstArray = some own.plugins := by
      rw [← List.getLast?_map, ← harrays, List.map_append, List.map_singleton, List.getLast?_concat]
    obtain ⟨ds, hds, hplugins⟩ := Option.map_eq_some_iff.mp hown
    rw [List.getLast?_cons_of_ne_nil hne, hds, Option.bind_some, hplugins, List.foldl_append]
    rfl

theorem respond_passed {q : HeaderRequest} {pcalloc : Bool} {h : HeadersOut} (hpass : passes m conf q = some true)
    (chains : List (List Buf)) : respond m conf q pcalloc h chains = some (h, chains) := by
  have hbody : chains.mapM (ngxHttpAqbCpBodyFilter m ⟨q.headerOnly, false, conf.plugins.getD 0⟩) = some chains := by
    induction chains with
    | nil => rfl
    | cons chain chains ih =>
      rw [List.mapM_cons, bodyFilter_not_handled (by simp), ih]
      rfl
  rw [respond, ngxHttpAqbCpHeaderFilter, hpass]
  simp only [hbody]
  rfl

/-- The filters leave every response of the location as it is, just when the location has no array of its
own, or is switched off, or the count of the array is 0, as it was made. -/
theorem inert_iff (hv : Inherits mergeValue) (hne : levels ≠ [])
    (hconf : locationConf mergeValue main levels = some conf) :
    (∀ q pcalloc h chains, respond m conf q pcalloc h chains = some (h, chains)) ↔
      ∀ a, Handles (main :: levels) a → m.word (a + 8) = some 0 := by
  obtain ⟨hswitch, harray⟩ := locationConf_conf hv hne hconf
  constructor
  · rintro hall a ⟨hon, ha⟩
    rw [hon] at hswitch
    rw [ha] at harray
    -- a GET of a page with a length
    have hrun := hall ⟨false, 2, true, 200⟩ true ⟨some 0, true⟩ []
    rw [respond, ngxHttpAqbCpHeaderFilter, passes, hswitch, harray, if_neg (by decide)] at hrun
    cases hn : m.word (a + 8) with
    | none => simp [hn] at hrun
    | some n => 
      by_cases hzero : n = 0
      · rw [hzero]
      · simp [hn, hzero, ngxHttpHead] at hrun
  · intro hcount q pcalloc h chains
    refine respond_passed ?_ chains
    rw [passes]
    cases hon : (innermost ((main :: levels).map switch)).getD false with
    | false => 
      rw [hswitch, hon]
      rfl
    | true =>
      cases ha : (main :: levels).getLast?.bind firstArray with
      | none => simp [harray, ha]
      | some a => 
        have hn := hcount a ⟨hon, ha⟩
        simp [hswitch, harray, ha, hn]

end Location

/-- Coolplay is switched on in a location with a plugin, in a memory that is all zero. -/
theorem inert_iff_one_plugin : locationConf inherited [] [[], [.coolplay true, .cpPlugin 64]] =
      some ⟨some true, some 64⟩ ∧
    respond (fun _ => some 0) ⟨some true, some 64⟩ ⟨false, 2, true, 200⟩ true ⟨some 5, true⟩ [emptyEnd] =
      some (⟨some 5, true⟩, [emptyEnd]) := by
  have hconf : locationConf inherited [] [[], [.coolplay true, .cpPlugin 64]] = some ⟨some true, some 64⟩ := rfl
  refine ⟨hconf, (inert_iff inherits_inherited (List.cons_ne_nil _ _) hconf).mpr ?_ _ _ _ _⟩
  rintro a ⟨-, ha⟩
  obtain rfl := Option.some.inj ha
  rfl

end NginB.Coolplay
