import Rtl.Fragment.Basic

/-!
Deriving the ports of a tree. A fragment takes in what it or its children read and nobody below drives, gives out
what is asked of it and driven below, and passes on every bidirectional connection.
-/
namespace Rtl

/-- What the statements and cells of one fragment drive, read, and connect both ways. -/
structure Usage where
  driven : NetSet
  used : NetSet
  both : NetSet

structure PortSets where
  ins : NetSet
  outs : NetSet
  inouts : NetSet

namespace Usage

def empty : Usage := ⟨.empty, .empty, .empty⟩

def addBindings (σ : Arenas) (u : Usage) : List Binding → Except DesignError Usage
  | [] => .ok u
  | p :: rest =>
    match p.dir with
    | .input => addBindings σ { u with used := u.used.union p.value.reads } rest
    | .output => do
      addBindings σ { u with driven := u.driven.union (← p.value.assigned σ) } rest
    | .inout => do
      addBindings σ { u with both := u.both.union (← p.value.assigned σ) } rest

def addStatements (σ : Arenas) (u : Usage) : List Statement → Except DesignError Usage
  | [] => .ok u
  | s :: rest => do
    let written ← s.assigned σ
    addStatements σ { u with driven := u.driven.union written, used := u.used.union s.reads } rest

end Usage

namespace Body

/-- The usage of one fragment. Driving in a clocked domain reads its clock and its reset. -/
def usage (σ : Arenas) (b : Body) : Except DesignError Usage :=
  match b.cell with
  | some i => Usage.empty.addBindings σ i.ports
  | none => do
    let u ← Usage.empty.addStatements σ b.statements
    return { u with used := u.used.insertAll (b.drivenDomains.flatMap ClockDomain.signals) }

def portSets (b : Body) : PortSets := ⟨b.portsOf .input, b.portsOf .output, b.portsOf .inout⟩

end Body

namespace Fragment

/-- Inputs and outputs gathered so far, and the fragment's body with its bidirectional ports. -/
structure PortState where
  body : Body
  ins : NetSet
  outs : NetSet

def PortState.addChild (driven ports : NetSet) (s : PortState) (p : PortSets) : PortState where
  body := s.body.addPorts .inout p.inouts.items
  ins := (s.ins.difference p.outs).union (p.ins.difference driven)
  outs := s.outs.union (ports.intersection p.outs)

mutual

/-- The tree with its ports, `ports` being what is asked of it. -/
def propagatePorts (σ : Arenas) (ports : NetSet) : Fragment → Except DesignError Fragment
  | .node b children => do
    let u ← b.usage σ
    let start : PortState := ⟨b.addPorts .inout u.both.items, u.used.difference u.driven,
      ports.intersection u.driven⟩
    let (s, children) ← propagateChildren σ u.driven ports (u.used.union ports) start children
    return .node ((s.body.addPorts .input s.ins.items).addPorts .output s.outs.items) children

def propagateChildren (σ : Arenas) (driven ports request : NetSet) (s : PortState) :
    List (String × Fragment) → Except DesignError (PortState × List (String × Fragment))
  | [] => .ok (s, [])
  | (name, f) :: rest => do
    let f ← propagatePorts σ request f
    let (s, others) ← propagateChildren σ driven ports request (s.addChild driven ports f.body.portSets) rest
    return (s, (name, f) :: others)

end

end Fragment
end Rtl
