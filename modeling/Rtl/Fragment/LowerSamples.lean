import Rtl.Fragment.Traversal
import Rtl.Value.Table

/-!
Lowering samples to chains of delay registers, and the first-cycle flag to the output of an `$initstate` cell.
Within a fragment equal samples share their registers. The registers are driven in the domain of their sample and
assigned at the end of the fragment's statements, domain by domain.
-/
namespace Rtl

/-- What the samples of one fragment have been lowered to. -/
structure Delays where
  /-- What each sample was lowered to. -/
  cache : ValueTable Value
  /-- Assignments of delay registers, by domain in order of first use. -/
  chains : List (String × List (SignalId × Value))
  initial : Option SignalId
  deriving Inhabited

namespace Delays

def empty : Delays := ⟨.empty, [], none⟩

def addTo (domain : String) (line : SignalId × Value) :
    List (String × List (SignalId × Value)) → List (String × List (SignalId × Value))
  | [] => [(domain, [line])]
  | (d, ls) :: rest => if d = domain then (d, ls ++ [line]) :: rest else (d, ls) :: addTo domain line rest

/-- Issued signals together with the delays of the current fragment. -/
structure State where
  arenas : Arenas
  delays : Delays

def lookup? (sample : Value) : Run State (Option Value) := do return (← get).delays.cache.get? sample

def remember (sample v : Value) : Run State Unit :=
  modify fun s => { s with delays := { s.delays with cache := s.delays.cache.set sample v } }

def addLine (domain : String) (reg : SignalId) (v : Value) : Run State Unit :=
  modify fun s => { s with delays := { s.delays with chains := addTo domain (reg, v) s.delays.chains } }

def issue (a : Nat) (spec : SignalSpec) : Run State SignalId := do
  let (σ, id) ← Value.raise ((← get).arenas.issue a spec)
  modify fun s => { s with arenas := σ }
  return id

/-- How a sampled value appears in the name of its register, and the value the register starts with. -/
def origin (σ : Arenas) : Value → Except Failure (String × Int)
  | .const v _ => .ok (s!"c${v}", v)
  | .net (.signal id) => .ok ("s$" ++ σ.name id, (σ.get id).reset)
  | .net (.clock _) => .ok ("clk", 0)
  | .net (.reset _ _) => .ok ("rst", 1)
  | .initial => .ok ("init", 0)
  | v => .error ⟨.crashText ("ir: cannot sample *ast." ++ v.kind), []⟩

/-- The register that holds a value `clocks` cycles late: shaped like the value, reset-less, and marked. -/
def registerSpec (σ : Arenas) (v : Value) (clocks : Nat) (domain : String) : Except Failure SignalSpec := do
  let (name, reset) ← origin σ v
  let base := SignalSpec.ofValue σ v
  return { base with
    name := "$sample$" ++ name ++ "$" ++ domain ++ "$" ++ toString clocks
    resetless := true
    reset := reset
    attrs := setAttr "hdlkit.sample_reg" "1" base.attrs }

def register (a : Nat) (v : Value) (clocks : Nat) (domain : String) : Run State SignalId := do
  issue a (← MonadExcept.ofExcept (registerSpec (← get).arenas v clocks domain))

/-- Lowers a sample to a register that takes over what its value was one cycle before. -/
def chain (sample : Value) (domain : String) (reg : SignalId) (prev : Value) : Run State Value := do
  addLine domain reg prev
  remember sample (.signal reg)
  return .signal reg

/-- The value `clocks` cycles late, for a value that is a signal, a reference or a constant. -/
def delay (a : Nat) (v : Value) (domain : String) : Nat → Run State Value
  | 0 => do
    let sample := Value.sample v 0 domain
    match ← lookup? sample with
    | some out => return out
    | none =>
      remember sample v
      return v
  | n + 1 => do
    let sample := Value.sample v (n + 1) domain
    match ← lookup? sample with
    | some out => return out
    | none =>
      let reg ← register a v (n + 1) domain
      let prev ← delay a v domain n
      chain sample domain reg prev

/-- Lowers a sample whose value still has to be traversed. -/
def lowerSample (a : Nat) (v : Value) (clocks : Int) (domain : String) (inner : Run State (Option Value)) :
    Run State (Option Value) := do
  let sample := Value.sample v clocks domain
  match ← lookup? sample with
  | some out => return some out
  | none =>
    let sampled := (← inner).getD v
    if clocks = 0 then
      remember sample sampled
      return some sampled
    else if domain = "" then
      throw (.design (.domain (.sampleDomain (sample.text (← get).arenas))))
    else
      let reg ← register a v clocks.toNat domain
      let _ ← Value.raise (Value.mkSample (← get).arenas sampled (clocks - 1) domain)
      let prev ← delay a sampled domain (clocks.toNat - 1)
      return some (← chain sample domain reg prev)

/-- The signal that is high in the first cycle. -/
def lowerInitial (a : Nat) : Run State (Option Value) := do
  match (← get).delays.initial with
  | some id => return some (.signal id)
  | none =>
    let id ← issue a (SignalSpec.wire 1 "init")
    modify fun s => { s with delays := { s.delays with initial := some id } }
    return some (.signal id)

def traversal (a : Nat) : Traversal (Run State) :=
  { Traversal.identity (do return (← get).arenas) with
    sample := lowerSample a
    initial := lowerInitial a }

def addChain (b : Body) (domain : String) (lines : List (SignalId × Value)) : Body :=
  (b.addStatements (lines.map fun l => .assign (.signal l.1) l.2)).addDrivers domain
    (lines.map fun l => .signal l.1)

/-- The cell that drives the first-cycle signal. -/
def initialCell (id : SignalId) : Fragment :=
  .leaf { Body.empty with cell := some ⟨"$initstate", [], [⟨"Y", .signal id, .output⟩]⟩ }

/-- Adds the registers and the first-cycle cell of a fragment. -/
def complete (d : Delays) : Fragment → Fragment
  | .node b children =>
    let b := d.chains.foldl (fun b c => addChain b c.1 c.2) b
    .node b (children ++ (d.initial.map fun id => ("", initialCell id)).toList)

def pass (a : Nat) : Pass (Run State) where
  values _ := do
    modify fun s => { s with delays := .empty }
    return traversal a
  domain cd := pure cd
  driverDomain d := d
  finish _ f := do return complete (← get).delays f

end Delays

/-- The tree without samples and first-cycle flags; registers are issued from the arena. -/
def Fragment.lowerSamples (σ : Arenas) (a : Nat) (f : Fragment) : Except Failure Fragment × Arenas :=
  let (result, s) := (f.traverse (Delays.pass a)).run.run ⟨σ, .empty⟩
  (result, s.arenas)

end Rtl
