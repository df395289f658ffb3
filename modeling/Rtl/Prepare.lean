import Rtl.Diagnostic
import Rtl.Fragment.Conflicts
import Rtl.Fragment.Controls
import Rtl.Fragment.Domains
import Rtl.Fragment.LowerDomains
import Rtl.Fragment.LowerSamples
import Rtl.Fragment.Names
import Rtl.Fragment.Ports

/-!
Preparing a tree for an emitter: samples are lowered, domains propagated, hierarchy conflicts resolved, resets
inserted, clock and reset references lowered, ports derived and signals named.
-/
namespace Rtl

structure PrepareOptions where
  /-- Values asked for as ports; each must be a net. -/
  ports : List Value
  ensureSync : Bool
  conflicts : ConflictMode

def PrepareOptions.plain : PrepareOptions := ⟨[], true, .warn⟩

/-- A prepared tree with the names of its signals, by path. -/
structure Prepared where
  top : Fragment
  names : List (String × NetTable String)

/-- Collects nets from values, which must all be nets. -/
def NetSet.ofValues (σ : Arenas) (s : NetSet) : List Value → Except Failure NetSet
  | [] => .ok s
  | v :: rest => do
    let n ← v.asNet σ
    ofValues σ (s.insert n) rest

structure PrepareState where
  arenas : Arenas
  warnings : List String

namespace Fragment

def domainResets (f : Fragment) : Controls :=
  f.body.domains.filterMap fun cd => cd.rst.map fun rst => (cd.name, .signal rst)

/-- Makes the reset of every domain clear the registers driven in it. -/
def insertDomainResets (σ : Arenas) (f : Fragment) : Except DesignError Fragment :=
  insertControls σ .reset f.domainResets f

end Fragment

namespace Prepare

abbrev Step := Run PrepareState

/-- Names the step in front of its reported failures. -/
def context (text : String) {α : Type} (x : Step α) : Step α :=
  tryCatch x fun e => throw (e.within ("prepare: " ++ text))

def lowerSamples (a : Nat) (f : Fragment) : Step Fragment := do
  let (result, σ) := f.lowerSamples (← get).arenas a
  modify fun s => { s with arenas := σ }
  MonadExcept.ofExcept result

def propagateDomains (a : Nat) (ensureSync : Bool) (f : Fragment) : Step Fragment := do
  let (result, σ) := (f.propagateDomains a ensureSync).run.run (← get).arenas
  modify fun s => { s with arenas := σ }
  MonadExcept.ofExcept result

def resolveConflicts (mode : ConflictMode) (f : Fragment) : Step Fragment := do
  let r ← MonadExcept.ofExcept (f.resolveConflicts (← get).arenas mode)
  modify fun s => { s with warnings := s.warnings ++ mode.warnings r.conflicts }
  return r.fragment

/-- Runs the pipeline on an elaborated tree; new signals come from arena `a`. -/
def run (a : Nat) (opts : PrepareOptions) (f : Fragment) : Step Prepared := do
  let f ← context "lower samples" (lowerSamples a f)
  let f ← context "propagate domains" (propagateDomains a opts.ensureSync f)
  let f ← context "resolve hierarchy conflicts" (resolveConflicts opts.conflicts f)
  let σ := (← get).arenas
  let f ← context "insert resets" (Value.raise (f.insertDomainResets σ))
  let f ← context "lower domains" (MonadExcept.ofExcept (f.lowerDomains σ))
  let ports ← MonadExcept.ofExcept (NetSet.empty.ofValues σ opts.ports)
  let f ← Value.raise (f.propagatePorts σ ports)
  return ⟨f, ← Value.raise (f.names σ "top")⟩

end Prepare
end Rtl
