import Rtl.Statement.Basic

/-!
State machines. States are numbered in the order in which they are first mentioned; a reset state that is named in
advance is number zero. The state register gets its width once all states are known.
-/
namespace Rtl

structure Machine where
  name : String
  /-- The domain that clocks the state register. -/
  domain : String
  state : SignalId
  /-- The reset state; when it is empty, the first state that is defined. -/
  reset : String
  /-- State names by number. -/
  order : List String
  deriving DecidableEq, Repr, Inhabited

structure MachineOptions where
  name : String
  domain : String
  reset : String

def MachineOptions.plain : MachineOptions := ⟨"fsm", syncDomain, ""⟩

namespace Machine

/-- The number of a state mentioned so far. -/
def encoding? (m : Machine) (state : String) : Option Nat := m.order.idxOf? state

/-- The number of a state, which counts as mentioned from now on. -/
def encode (m : Machine) (state : String) : Machine × Nat :=
  match m.encoding? state with
  | some n => (m, n)
  | none => ({ m with order := m.order ++ [state] }, m.order.length)

/-- A state number as it is shown. -/
def decode (m : Machine) (v : Int) : String :=
  if v < 0 then toString v
  else match m.order[v.toNat]? with
    | some name => name ++ "/" ++ toString v
    | none => toString v

def registerSpec (opts : MachineOptions) : SignalSpec := SignalSpec.wire 1 (opts.name ++ "_state")

def create (opts : MachineOptions) (state : SignalId) : Machine :=
  let m : Machine := ⟨opts.name, opts.domain, state, opts.reset, []⟩
  if opts.reset = "" then m else (m.encode opts.reset).1

/-- Width of the state register: enough for the last state number, and at least one bit. -/
def width (m : Machine) : Int := bitsFor ((m.order.length : Int) - 1) false

/-- The number of the state that the register resets to, given the states in order of definition. -/
def resetEncoding (m : Machine) (defined : List String) : Nat :=
  let first := defined.headD ""
  (m.encoding? (if m.reset = "" then first else m.reset)).getD 0

def arms (m : Machine) : List (String × List Statement) → Except Failure (List Arm)
  | [] => .ok []
  | (name, body) :: rest => do
    let pattern ← Pattern.ofKey ((m.encoding? name).getD 0) m.width
    let others ← arms m rest
    return ([pattern], body) :: others

def sizeRegister (σ : Arenas) (m : Machine) (number : Nat) (defined : List String) :
    Except DesignError Arenas := do
  let σ ← σ.reshape m.state (.unsigned m.width) (m.resetEncoding defined)
  return σ.modify m.state fun s => { s with decoder := some (.states number) }

end Machine
end Rtl
