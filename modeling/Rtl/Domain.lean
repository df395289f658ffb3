import Rtl.Net

/-!
Clock domains: a name, a clock and an optional reset. A record is known by the number its arena gave it. Renaming
makes a new record with a new number over the same two signals, which take their display names from the new domain.
-/
namespace Rtl

structure ClockDomain where
  /-- The arena that issued the number. -/
  arena : Nat
  id : Nat
  name : String
  clk : SignalId
  rst : Option SignalId
  negEdge : Bool
  asyncReset : Bool
  /-- Visible only in the fragment that defines it and below. -/
  isLocal : Bool
  deriving DecidableEq, Repr, Inhabited

structure DomainOptions where
  resetless : Bool
  negEdge : Bool
  asyncReset : Bool
  isLocal : Bool
  deriving Repr

def DomainOptions.plain : DomainOptions := ⟨false, false, false, false⟩

namespace ClockDomain

def clkName (name : String) : String := if name = syncDomain then "clk" else name ++ "_clk"

def rstName (name : String) : String := if name = syncDomain then "rst" else name ++ "_rst"

/-- Issues a domain with its clock and, unless it is reset-less, its reset. -/
def create (σ : Arenas) (a : Nat) (name : String) (opts : DomainOptions) :
    Except DesignError (Arenas × ClockDomain) :=
  if name = "" then .error (.domain .unnamed)
  else if name = combDomain then .error (.domain .combClocked)
  else do
    let (σ, id) := σ.nextDomain a
    let (σ, clk) ← σ.issue a (SignalSpec.wire 1 (clkName name))
    let cd : ClockDomain := ⟨a, id, name, clk, none, opts.negEdge, opts.asyncReset, opts.isLocal⟩
    if opts.resetless then return (σ, cd)
    else
      let (σ, rst) ← σ.issue a { SignalSpec.wire 1 (rstName name) with resetless := true }
      return (σ, { cd with rst := some rst })

/-- A new record under another name. The shared clock and reset signals follow the new name. -/
def renamed (σ : Arenas) (a : Nat) (cd : ClockDomain) (name : String) :
    Except DesignError (Arenas × ClockDomain) :=
  if name = combDomain then .error (.domain .combClocked)
  else
    let (σ, id) := σ.nextDomain a
    let σ := σ.modify cd.clk fun s => { s with name := clkName name }
    let σ := match cd.rst with
      | some rst => σ.modify rst fun s => { s with name := rstName name }
      | none => σ
    .ok (σ, { cd with arena := a, id := id, name := name })

def resetless (cd : ClockDomain) : Bool := cd.rst.isNone

def signals (cd : ClockDomain) : List Net :=
  .signal cd.clk :: (cd.rst.map Net.signal).toList

def text (cd : ClockDomain) : String := s!"(domain {cd.name} #{cd.id})"

end ClockDomain
end Rtl
