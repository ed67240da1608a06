import NginB.Minify.Filter
import NginB.Program.Agree
import Mathlib.Data.Int.Basic

/-! # Runs of one minifier that agree

The minifiers are generic in their buffer and in the bound of the tag-name caches.
When the primitives of two instances agree, so do the minifiers: one pass over the
text of the three files proves it for every pair of instances.
-/
namespace NginB.Minify
open NginB.Program Ascii

variable {B C : Type} [Buffer B] [Buffer C]

structure PrimAgree (K : Terms (Conf B) (Conf C) Fault) (cap cap' : Option ℕ) : Prop where
  getCtx : Agree K getCtx getCtx
  count : Agree K count count
  dstlen : Agree K dstlen dstlen
  rposAt : ∀ k, Agree K (rposAt k) (rposAt k)
  rposIs : ∀ a, Agree K (rposIs a) (rposIs a)
  literalAt : ∀ a i, Agree K (literalAt a i) (literalAt a i)
  visit : ∀ r, Agree K (visit r) (visit r)
  cacheCall : ∀ a, Agree K (modify (Conf.cacheCall a)) (modify (Conf.cacheCall a))
  incRpos : Agree K ngxMinifyIncRpos ngxMinifyIncRpos
  copyChar : ∀ a, Agree K (ngxMinifyCopyChar a) (ngxMinifyCopyChar a)
  refreshPre : Agree K refreshPre refreshPre
  modifyCtx : ∀ f, Agree K (modifyCtx f) (modifyCtx f)
  modifyCtxIf : ∀ {p : Ctx → Prop} [DecidablePred p] (e : Fault) (f : Ctx → Ctx),
    Agree K (modifyIf (fun c => p c.ctx) e (Conf.modifyCtx f))
      (modifyIf (fun c => p c.ctx) e (Conf.modifyCtx f))
  setStack : ∀ f, Agree K (modify (Conf.setStack f)) (modify (Conf.setStack f))
  setStackIf : ∀ {p : Ctx → Prop} [DecidablePred p] (e : Fault) (f : StateStack → StateStack),
    Agree K (modifyIf (fun c => p c.ctx) e (Conf.setStack f))
      (modifyIf (fun c => p c.ctx) e (Conf.setStack f))
  tagWrite : ∀ {fault : Fault} (i : ℕ) (f : Ctx → Ctx), fault.isOverflow = true →
    Agree K (tagWrite cap fault i f) (tagWrite cap' fault i f)

namespace PrimAgree
variable {K : Terms (Conf B) (Conf C) Fault} {cap cap' : Option ℕ} (h : PrimAgree K cap cap')
include h

theorem ctxState : Agree K ctxState ctxState := h.getCtx.bind fun _ => agree_pure _
theorem countNonzero : Agree K countNonzero countNonzero := h.count.bind fun _ => agree_pure _
theorem countPositive : Agree K countPositive countPositive := h.count.bind fun _ => agree_pure _

theorem copyRpos : Agree K ngxMinifyCopyRpos ngxMinifyCopyRpos :=
  (h.rposAt 0).bind fun a => h.copyChar a

theorem incRposTimes (n : ℕ) : Agree K (incRposTimes n) (incRposTimes n) := by
  induction n with
  | zero => exact agree_pure ()
  | succ n ih => exact h.incRpos.bind fun _ => ih

theorem copyRposTimes (n : ℕ) : Agree K (copyRposTimes n) (copyRposTimes n) := by
  induction n with
  | zero => exact agree_pure ()
  | succ n ih => exact h.copyRpos.bind fun _ => ih

theorem copyRposBelowCount (fuel : ℕ) : ∀ i : ℤ,
    Agree K (copyRposBelowCount i fuel) (copyRposBelowCount i fuel) := by
  induction fuel with
  | zero => exact fun i => agree_throw _
  | succ fuel ih =>
    intro i
    refine h.count.bind fun n => Agree.ite ?_ (agree_pure ())
    exact h.copyRpos.bind fun _ => ih (i + 1)

theorem ctxPushState (s : MinifyState) : Agree K (ctxPushState s) (ctxPushState s) :=
  h.setStackIf (p := fun x => x.state.sspos + 1 < ctxStateStack) _ _

theorem ctxPopState : Agree K ctxPopState ctxPopState :=
  h.setStackIf (p := fun x => x.state.below ≠ []) _ _

theorem ctxSetState (s : MinifyState) : Agree K (ctxSetState s) (ctxSetState s) := h.setStack _

theorem tagcacheClear : Agree K ctxTagcacheClear ctxTagcacheClear := h.modifyCtx _
theorem tagendcacheClear : Agree K ctxTagendcacheClear ctxTagendcacheClear := h.modifyCtx _

theorem tagcacheAdd (a : UInt8) : Agree K (ctxTagcacheAdd cap a) (ctxTagcacheAdd cap' a) :=
  h.getCtx.bind fun x => h.tagWrite x.tagcache.len _ rfl

theorem tagcacheClose : Agree K (ctxTagcacheClose cap) (ctxTagcacheClose cap') :=
  h.getCtx.bind fun x => h.tagWrite x.tagcache.len _ rfl

theorem tagendcacheAdd (a : UInt8) : Agree K (ctxTagendcacheAdd cap a) (ctxTagendcacheAdd cap' a) :=
  h.getCtx.bind fun x => h.tagWrite x.tagendcache.len _ rfl

theorem tagendcacheClose : Agree K (ctxTagendcacheClose cap) (ctxTagendcacheClose cap') :=
  h.getCtx.bind fun x => h.tagWrite x.tagendcache.len _ rfl

theorem cacheFrom (c : List UInt8) (n : ℕ) : ∀ i : ℕ, Agree K (cacheFrom c i n) (cacheFrom c i n) := by
  induction n with
  | zero => exact fun i => agree_pure _
  | succ n ih =>
    intro i
    refine (h.literalAt c i).bind fun a => (h.rposAt i).bind fun b => Agree.ite ?_ ?_
    · refine (h.modifyCtxIf (p := fun x => x.cache.length < ctxCacheBuflen) _ _).bind fun _ => ?_
      exact h.getCtx.bind fun x => Agree.ite (agree_pure _) (ih (i + 1))
    · exact (h.modifyCtx _).bind fun _ => agree_pure _

theorem cache (c : List UInt8) : Agree K (ngxMinifyCache c) (ngxMinifyCache c) :=
  (h.cacheCall c).bind fun _ => h.count.bind fun n => h.cacheFrom c n.toNat 0

theorem htmlStripTagnameSwitch :
    Agree K (htmlStripTagnameSwitch cap) (htmlStripTagnameSwitch cap') := by
  refine h.ctxState.bind fun st => ?_
  split
  all_goals
    repeat' with_reducible first
      | exact agree_pure _ | apply Agree.ite | exact h.copyRpos | exact h.incRpos
      | exact h.rposAt _ | exact h.getCtx | exact h.count | exact h.cache _ | exact h.modifyCtx _
      | exact h.tagcacheClear | exact h.tagendcacheClear | exact h.tagcacheAdd _
      | exact h.tagcacheClose | exact h.tagendcacheAdd _ | exact h.tagendcacheClose
      | exact h.ctxPopState | exact h.ctxPushState _ | exact h.ctxSetState _
      | refine Agree.bind ?_ fun _ => ?_

theorem htmlStripTagnameTurn : Agree K (htmlStripTagnameTurn cap) (htmlStripTagnameTurn cap') := by
  refine (h.visit _).bind fun _ => h.htmlStripTagnameSwitch.bind fun stop => ?_
  exact Agree.ite (agree_pure _) (h.refreshPre.bind fun _ => agree_pure _)

theorem stripTagname (fuel : ℕ) :
    Agree K (ngxMinifyHtmlStripTagname cap fuel) (ngxMinifyHtmlStripTagname cap' fuel) :=
  (h.modifyCtx _).bind fun _ => agree_loop _ h.countNonzero h.htmlStripTagnameTurn fuel

theorem htmlStripCommentSwitch :
    Agree K (htmlStripCommentSwitch (B := B)) htmlStripCommentSwitch := by
  refine h.ctxState.bind fun st => ?_
  split
  all_goals
    repeat' with_reducible first
      | exact agree_pure _ | apply Agree.ite | exact h.incRposTimes _ | exact h.copyRposTimes _
      | exact h.incRpos | exact h.copyRpos | exact h.rposAt _ | exact h.rposIs _ | exact h.count
      | exact h.cache _ | exact h.ctxPopState | exact h.ctxPushState _ | exact h.ctxSetState _
      | refine Agree.bind ?_ fun _ => ?_

theorem stripComment (fuel : ℕ) :
    Agree K (ngxMinifyHtmlStripComment fuel) (ngxMinifyHtmlStripComment fuel) :=
  agree_loop _ h.countNonzero ((h.visit _).bind fun _ => h.htmlStripCommentSwitch) fuel

theorem htmlStateTagBang : Agree K (htmlStateTagBang (B := B)) htmlStateTagBang := by
  unfold NginB.Minify.htmlStateTagBang
  repeat' with_reducible first
    | exact agree_pure _ | apply Agree.ite | exact h.incRposTimes _ | exact h.copyRposTimes _
    | exact h.copyRpos | exact h.rposAt _ | exact h.rposIs _ | exact h.count
    | exact h.copyRposBelowCount _ _ | exact h.cache _ | exact h.modifyCtx _
    | exact h.ctxPopState | exact h.ctxPushState _ | exact h.ctxSetState _
    | refine Agree.bind ?_ fun _ => ?_

theorem htmlStripTagSwitch (fuel : ℕ) :
    Agree K (htmlStripTagSwitch cap fuel) (htmlStripTagSwitch cap' fuel) := by
  refine h.ctxState.bind fun st => ?_
  split
  all_goals
    repeat' with_reducible first
      | exact agree_pure _ | apply Agree.ite | exact h.incRposTimes _ | exact h.copyRposTimes _
      | exact h.incRpos | exact h.copyRpos | exact h.rposAt _ | exact h.rposIs _ | exact h.count
      | exact h.cache _ | exact h.modifyCtx _ | exact h.tagcacheClear | exact h.tagendcacheClear
      | exact h.ctxPopState | exact h.ctxPushState _ | exact h.ctxSetState _
      | exact h.htmlStateTagBang | exact h.stripTagname _ | exact h.stripComment _
      | refine Agree.bind ?_ fun _ => ?_

theorem stripTag (fuel : ℕ) :
    Agree K (ngxMinifyHtmlStripTag cap fuel) (ngxMinifyHtmlStripTag cap' fuel) :=
  agree_loop _ h.countNonzero ((h.visit _).bind fun _ => h.htmlStripTagSwitch fuel) fuel

theorem htmlStateText : Agree K (htmlStateText (B := B)) htmlStateText := by
  unfold NginB.Minify.htmlStateText
  repeat' with_reducible first
    | exact agree_pure _ | apply Agree.ite | exact h.incRpos | exact h.copyRpos
    | exact h.rposAt _ | exact h.count | exact h.getCtx | exact h.cache _ | exact h.modifyCtx _
    | exact h.ctxPushState _ | refine Agree.bind ?_ fun _ => ?_

theorem htmlStateSkip : Agree K (htmlStateSkip (B := B)) htmlStateSkip := by
  unfold NginB.Minify.htmlStateSkip
  repeat' with_reducible first
    | exact agree_pure _ | apply Agree.ite | exact h.incRpos | exact h.copyRpos
    | exact h.rposAt _ | exact h.count | exact h.cache _ | exact h.ctxSetState _
    | refine Agree.bind ?_ fun _ => ?_

theorem htmlStripBuffer (fuel : ℕ) :
    Agree K (ngxMinifyHtmlStripBuffer cap fuel) (ngxMinifyHtmlStripBuffer cap' fuel) := by
  refine h.count.bind fun n => Agree.ite (h.ctxSetState _) (agree_loop _ h.countPositive ?_ fuel)
  refine (h.visit _).bind fun _ => Agree.bind ?_ fun _ => h.refreshPre.bind fun _ => agree_pure _
  refine h.ctxState.bind fun st => ?_
  split
  · exact h.copyRpos
  · exact h.htmlStateText
  · exact h.htmlStateSkip
  all_goals first | exact h.stripTag fuel | exact h.ctxSetState _

theorem cssStripComment (fuel : ℕ) :
    Agree K (ngxMinifyCssStripComment fuel) (ngxMinifyCssStripComment fuel) := by
  refine agree_loop _ h.countNonzero ((h.visit _).bind fun _ => h.ctxState.bind fun st => ?_) fuel
  split
  all_goals
    repeat' with_reducible first
      | exact agree_pure _ | apply Agree.ite | exact h.incRpos | exact h.rposAt _
      | exact h.rposIs _ | exact h.count | exact h.cache _ | exact h.ctxPopState
      | refine Agree.bind ?_ fun _ => ?_

theorem cssStripQuote (fuel : ℕ) :
    Agree K (ngxMinifyCssStripQuote fuel) (ngxMinifyCssStripQuote fuel) := by
  refine agree_loop _ h.countNonzero ((h.visit _).bind fun _ => h.ctxState.bind fun st => ?_) fuel
  split
  all_goals
    repeat' with_reducible first
      | exact agree_pure _ | apply Agree.ite | exact h.incRpos | exact h.copyRpos
      | exact h.rposAt _ | exact h.getCtx | exact h.count | exact h.cache _ | exact h.ctxPopState
      | refine Agree.bind ?_ fun _ => ?_

theorem cssStateBrace : Agree K (cssStateBrace (B := B)) cssStateBrace := by
  unfold NginB.Minify.cssStateBrace
  repeat' with_reducible first
    | exact agree_pure _ | apply Agree.ite | exact h.incRpos | exact h.copyRpos
    | exact h.rposAt _ | exact h.rposIs _ | exact h.getCtx | exact h.count | exact h.cache _
    | exact h.modifyCtx _ | exact h.ctxPushState _ | exact h.ctxSetState _
    | refine Agree.bind ?_ fun _ => ?_

theorem cssStripBraceTurn (fuel : ℕ) :
    Agree K (cssStripBraceTurn (B := B) fuel) (cssStripBraceTurn fuel) := by
  refine (h.visit _).bind fun _ => Agree.bind ?_ fun stop =>
    Agree.ite (agree_pure _) (h.refreshPre.bind fun _ => agree_pure _)
  refine h.ctxState.bind fun st => ?_
  split
  · exact h.cssStateBrace.bind fun _ => agree_pure _
  · exact (h.cssStripQuote fuel).bind fun _ => agree_pure _
  · exact (h.modifyCtx _).bind fun _ => (h.cssStripComment fuel).bind fun _ => agree_pure _
  · exact agree_pure _

theorem cssStateText : Agree K (cssStateText (B := B)) cssStateText := by
  unfold NginB.Minify.cssStateText
  repeat' with_reducible first
    | exact agree_pure _ | apply Agree.ite | exact h.incRpos | exact h.copyRpos
    | exact h.rposAt _ | exact h.rposIs _ | exact h.getCtx | exact h.count | exact h.cache _
    | exact h.modifyCtx _ | exact h.ctxPushState _ | refine Agree.bind ?_ fun _ => ?_

theorem cssStripBuffer (fuel : ℕ) :
    Agree K (ngxMinifyCssStripBuffer fuel) (ngxMinifyCssStripBuffer fuel) := by
  refine h.count.bind fun n => Agree.ite (h.ctxSetState _) (agree_loop _ h.countPositive ?_ fuel)
  refine (h.visit _).bind fun _ => Agree.bind ?_ fun _ => h.refreshPre.bind fun _ => agree_pure _
  refine h.ctxState.bind fun st => ?_
  split
  · exact h.copyRpos
  · exact h.cssStateText
  · exact (h.modifyCtx _).bind fun _ => h.cssStripComment fuel
  · exact (h.modifyCtx _).bind fun _ => h.cssStripQuote fuel
  · exact agree_loop _ h.countNonzero (h.cssStripBraceTurn fuel) fuel
  · exact h.ctxPushState _

theorem jsStripComment (fuel : ℕ) :
    Agree K (ngxMinifyJsStripComment fuel) (ngxMinifyJsStripComment fuel) := by
  refine agree_loop _ h.countNonzero ((h.visit _).bind fun _ => h.ctxState.bind fun st => ?_) fuel
  split
  all_goals
    repeat' with_reducible first
      | exact agree_pure _ | apply Agree.ite | exact h.incRpos | exact h.copyChar _
      | exact h.rposAt _ | exact h.rposIs _ | exact h.count | exact h.cache _
      | exact h.modifyCtx _ | exact h.ctxPopState | refine Agree.bind ?_ fun _ => ?_

theorem jsStripQuote (fuel : ℕ) :
    Agree K (ngxMinifyJsStripQuote fuel) (ngxMinifyJsStripQuote fuel) := by
  refine agree_loop _ h.countNonzero ((h.visit _).bind fun _ => h.ctxState.bind fun st => ?_) fuel
  split
  all_goals
    repeat' with_reducible first
      | exact agree_pure _ | apply Agree.ite | exact h.incRpos | exact h.copyRpos
      | exact h.rposAt _ | exact h.getCtx | exact h.count | exact h.cache _ | exact h.ctxPopState
      | refine Agree.bind ?_ fun _ => ?_

theorem jsStateText : Agree K (jsStateText (B := B)) jsStateText := by
  unfold NginB.Minify.jsStateText
  repeat' with_reducible first
    | exact agree_pure _ | apply Agree.ite | exact h.incRpos | exact h.copyRpos
    | exact h.rposAt _ | exact h.rposIs _ | exact h.getCtx | exact h.count | exact h.dstlen
    | exact h.cache _ | exact h.modifyCtx _ | exact h.ctxPushState _
    | refine Agree.bind ?_ fun _ => ?_

theorem jsStripBuffer (fuel : ℕ) :
    Agree K (ngxMinifyJsStripBuffer fuel) (ngxMinifyJsStripBuffer fuel) := by
  refine h.count.bind fun n => Agree.ite (h.ctxSetState _) (agree_loop _ h.countPositive ?_ fuel)
  refine (h.visit _).bind fun _ => Agree.bind ?_ fun _ => h.refreshPre.bind fun _ => agree_pure _
  refine h.ctxState.bind fun st => ?_
  split
  · exact h.copyRpos
  · exact h.jsStateText
  · exact (h.modifyCtx _).bind fun _ => h.jsStripComment fuel
  · exact (h.modifyCtx _).bind fun _ => h.jsStripComment fuel
  · exact (h.modifyCtx _).bind fun _ => h.jsStripQuote fuel
  · exact h.ctxPushState _

theorem stripBuffer (fuel : ℕ) (type : FileType) :
    Agree K (stripBuffer cap fuel type) (stripBuffer cap' fuel type) := by
  cases type with
  | html => exact h.htmlStripBuffer fuel
  | css => exact h.cssStripBuffer fuel
  | js => exact h.jsStripBuffer fuel

end PrimAgree

end NginB.Minify
