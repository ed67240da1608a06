import NginB.Minify.BodyFilter

/-! # The body filter without a memory

What arrives in a call is a list of byte strings and of special buffers, and so is what is
forwarded. `deliver` does with such a list what the loop over a chain does with buffers in
memory: where the buffers of the chain lie apart from each other, the two agree.
-/
namespace NginB.Minify
open NginB.Program

inductive Arrival
  | data (readOnly : Bool) (bytes : List UInt8)
  /-- a buffer without content, such as flushes the ones before it or is the last one -/
  | special
  deriving DecidableEq

namespace Arrival

def bytes : Arrival → List UInt8
  | .data _ l => l
  | .special => []

def inMemory : Arrival → Bool
  | .data _ _ => true
  | .special => false

def readOnly : Arrival → Bool
  | .data ro _ => ro
  | .special => false

end Arrival

structure Stage where
  session : Session
  pallocs : ℕ
  visits : List Visit

def Stage.start : Stage := ⟨.start, 0, []⟩

section
variable (cap : Option ℕ) (palloc : ℕ → Bool) (type : FileType)

/-- What is held back goes in front of the next bytes, and is lost with a special buffer. -/
def Session.read (s : Session) : Arrival → Except Fault (Session × Arrival)
  | .data ro l => do
    let t ← feed Stream cap type s l
    return (t, .data ro (t.out.drop s.out.length))
  | .special =>
    return ({ s with ctx := { s.ctx with cache := [] }, trace := .buffer :: s.trace }, .special)

def deliver : Stage → List Arrival → Except Fault (Stage × List Arrival)
  | s, [] => return (s, [])
  | s, a :: as =>
    if s.session.ctx.cache ≠ [] ∧ palloc s.pallocs = false then
      let raw := (a :: as).flatMap Arrival.bytes
      return (⟨s.session, s.pallocs + 1, .failed s.session.ctx a.inMemory raw :: s.visits⟩, a :: as)
    else do
      let (t, b) ← s.session.read cap type a
      let pallocs := if s.session.ctx.cache = [] then s.pallocs else s.pallocs + 1
      let visit := .read s.session.ctx a.inMemory a.readOnly t.trace
      let (u, out) ← deliver ⟨t, pallocs, visit :: s.visits⟩ as
      return (u, b :: out)

variable (r : Request)

def deliverCall (s : Stage) (as : List Arrival) : Except Fault (Stage × List Arrival) :=
  if as = [] ∨ r.headerOnly then return (s, as)
  else
    match r.type with
    | none => return (s, as)
    | some type => deliver cap palloc type s as

/-- A response over any number of calls, with what each of them forwards. -/
def deliverAll : Stage → List (List Arrival) → Except Fault (Stage × List (List Arrival))
  | s, [] => return (s, [])
  | s, as :: calls => do
    let (t, out) ← deliverCall cap palloc r s as
    let (u, outs) ← deliverAll t calls
    return (u, out :: outs)

end

end NginB.Minify
