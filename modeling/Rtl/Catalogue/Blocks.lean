import Rtl.Builder.Scope

/-!
The blocks that the sample designs are made of: their signals, and the builder steps that describe them.
-/
namespace Rtl

/-- Counts up in the default domain while enabled; the overflow flag is set at the greatest count. -/
structure Counter where
  arena : Nat
  en : SignalId
  count : SignalId
  ovf : SignalId
  deriving DecidableEq, Repr, Inhabited

namespace Counter

def signalName (label name : String) : String := if label = "" then name else label ++ "_" ++ name

/-- Issues the signals of a counter; a label that is not empty stands in front of their names. -/
def create (σ : Arenas) (a : Nat) (label : String) (width : Int) : Arenas × Except DesignError Counter :=
  let name := signalName label
  match σ.issue a (SignalSpec.wire 1 (name "en")) with
  | .error e => (σ, .error e)
  | .ok (σ, en) =>
    match σ.issue a (SignalSpec.wire width (name "count")) with
    | .error e => (σ, .error e)
    | .ok (σ, count) =>
      match σ.issue a (SignalSpec.wire 1 (name "ovf")) with
      | .error e => (σ, .error e)
      | .ok (σ, ovf) => (σ, .ok ⟨a, en, count, ovf⟩)

/-- The greatest count as a 64-bit word. -/
def greatest (width : Int) : Int := wrap ((if width < 64 then wrap (Nat.pow 2 width.toNat) else 0) - 1)

def program {α : Type} (c : Counter) : Build α Unit := do
  Builder.ifThen (.value (.signal c.en)) do
    let sum ← Value.raise (Value.mkBinary (← Build.arenas) .add (.signal c.count) (.ofInt 1))
    Builder.sync [.assign (.signal c.count) sum]
  let σ ← Build.arenas
  let full ← Value.raise (Value.mkBinary σ .eq (.signal c.count) (.ofInt (greatest (σ.shape c.count).width)))
  Builder.comb [.assign (.signal c.ovf) full]

end Counter

/-- Waits for a start, is busy until done, and acknowledges for one cycle. -/
structure Handshake where
  arena : Nat
  start : SignalId
  done : SignalId
  busy : SignalId
  ack : SignalId
  deriving DecidableEq, Repr, Inhabited

namespace Handshake

def create (σ : Arenas) (a : Nat) : Except DesignError (Arenas × Handshake) := do
  let (σ, start) ← σ.issue a (SignalSpec.wire 1 "start")
  let (σ, done) ← σ.issue a (SignalSpec.wire 1 "done")
  let (σ, busy) ← σ.issue a (SignalSpec.wire 1 "busy")
  let (σ, ack) ← σ.issue a (SignalSpec.wire 1 "ack")
  return (σ, ⟨a, start, done, busy, ack⟩)

def program {α : Type} (h : Handshake) : Build α Unit := do
  let _ ← Builder.machine .plain fun _ => do
    Builder.state "IDLE" do
      Builder.ifThen (.value (.signal h.start)) (Builder.next "BUSY")
    Builder.state "BUSY" do
      Builder.comb [.assign (.signal h.busy) (.ofInt 1)]
      Builder.ifThen (.value (.signal h.done)) (Builder.next "ACK")
    Builder.state "ACK" do
      Builder.comb [.assign (.signal h.ack) (.ofInt 1)]
      Builder.next "IDLE"

end Handshake

structure Copier where
  arena : Nat
  dst : SignalId
  src : SignalId
  deriving DecidableEq, Repr, Inhabited

def Copier.program {α : Type} (c : Copier) : Build α Unit :=
  Builder.comb [.assign (.signal c.dst) (.signal c.src)]

/-- One counter in the default domain and one in a domain of its own; tells when both overflow together. -/
structure Multiclock where
  arena : Nat
  sys : Counter
  video : Counter
  pix : ClockDomain
  both : SignalId
  deriving DecidableEq, Repr, Inhabited

namespace Multiclock

def create (σ : Arenas) (a : Nat) : Except DesignError (Arenas × Multiclock) := do
  let (σ, sys) := Counter.create σ a "sys" 4
  let sys ← sys
  let (σ, video) := Counter.create σ a "vid" 4
  let video ← video
  let (σ, pix) ← ClockDomain.create σ a "pix" .plain
  let (σ, both) ← σ.issue a (SignalSpec.wire 1 "both")
  return (σ, ⟨a, sys, video, pix, both⟩)

def program {α : Type} (m : Multiclock) (sys video : α) : Build α Unit := do
  Builder.addDomains [m.pix]
  Builder.addSubmodule "sys" (some sys)
  Builder.addSubmodule "video" (some video)
  let both ← Value.raise
    (Value.mkBinary (← Build.arenas) .and (.signal m.sys.ovf) (.signal m.video.ovf))
  Builder.comb [.assign (.signal m.both) both]

end Multiclock
end Rtl
