import Rtl.Fragment.Basic

/-!
Inserting resets and enables. In every fragment that drives nets in a controlled domain a switch over the control is
added: while it is high, registers take their reset values; or, while it is low, they keep their values. Children
are done first. The nets that are driven are copied one by one, so a domain in which none is leaves no trace.
-/
namespace Rtl

inductive ControlKind where
  | reset
  | enable
  deriving DecidableEq, Repr

abbrev Controls := List (String × Value)

namespace ControlKind

/-- What the switch does to the driven signals. A reset leaves reset-less signals alone. -/
def assignments (σ : Arenas) (signals : List SignalId) : ControlKind → List Statement
  | .reset => (signals.filter fun s => !(σ.get s).resetless).map fun s =>
      .assign (.signal s) (.const ((σ.shape s).normalize (σ.get s).reset) (σ.shape s))
  | .enable => signals.map fun s => .assign (.signal s) (.signal s)

/-- The value of the control for which the assignments happen. -/
def level : ControlKind → String
  | .reset => "1"
  | .enable => "0"

/-- The switch for one domain. A reset without anything to reset is left out. -/
def switch (σ : Arenas) (kind : ControlKind) (control : Value) (signals : List SignalId) :
    Except DesignError (List Statement) :=
  let body := kind.assignments σ signals
  if kind = .reset ∧ body.isEmpty then .ok []
  else do return [← Statement.mkSwitch σ control [([kind.level], body)]]

end ControlKind

namespace Body

/-- The switch for the nets driven in one domain, if the domain has a control. -/
def controlSwitch (σ : Arenas) (kind : ControlKind) (controls : Controls) (domain : String) (driven : NetSet) :
    Except DesignError (List Statement) :=
  match controls.find? (·.1 = domain) with
  | some (_, control) => if domain = combDomain then .ok [] else kind.switch σ control driven.signals
  | none => .ok []

def controlSwitches (σ : Arenas) (kind : ControlKind) (controls : Controls) :
    List (String × NetSet) → Except DesignError (List Statement)
  | [] => .ok []
  | (d, s) :: rest => do
    let here ← controlSwitch σ kind controls d s
    let others ← controlSwitches σ kind controls rest
    return here ++ others

/-- The body without driver domains in which nothing is driven. -/
def withoutIdleDomains (b : Body) : Body := { b with drivers := b.drivers.filter fun e => !e.2.items.isEmpty }

end Body

namespace Fragment

mutual

def insertControls (σ : Arenas) (kind : ControlKind) (controls : Controls) :
    Fragment → Except DesignError Fragment
  | .node b children => do
    let children ← insertControlsAll σ kind controls children
    let switches ← Body.controlSwitches σ kind controls b.drivers
    return .node (b.withoutIdleDomains.addStatements switches) children

def insertControlsAll (σ : Arenas) (kind : ControlKind) (controls : Controls) :
    List (String × Fragment) → Except DesignError (List (String × Fragment))
  | [] => .ok []
  | (name, f) :: rest => do
    let f ← insertControls σ kind controls f
    let others ← insertControlsAll σ kind controls rest
    return (name, f) :: others

end

end Fragment
end Rtl
