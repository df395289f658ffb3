import Rtl.Fragment.Basic
import Rtl.Statement.Traversal

/-!
Traversing fragment trees. A pass copies a tree: children first, then the domains, statements, drivers and cell of
the fragment itself, each through what the pass says. A driver that a pass turns into something other than a net is
dropped.
-/
namespace Rtl

/-- Computations that keep what they did when they fail. -/
abbrev Run (S : Type) := ExceptT Failure (StateM S)

structure Pass (m : Type → Type) where
  /-- The traversal for the contents of a fragment, asked for once its children are done. -/
  values : Body → m (Traversal m)
  domain : ClockDomain → m ClockDomain
  driverDomain : String → String
  /-- Sees the old body and completes the new fragment. -/
  finish : Body → Fragment → m Fragment

namespace Body

variable {m : Type → Type} [Monad m] [MonadExceptOf Failure m]

def traverseDomains (p : Pass m) (b : Body) : List ClockDomain → m Body
  | [] => pure b
  | cd :: rest => do
    let cd ← p.domain cd
    let b ← Value.raise (b.addDomain cd)
    traverseDomains p b rest

def traverseDrivers (p : Pass m) (r : Traversal m) (b : Body) : List (String × Net) → m Body
  | [] => pure b
  | (d, n) :: rest => do
    match ← (Value.net n).traversed r with
    | .net n => traverseDrivers p r (b.addDriver (p.driverDomain d) n) rest
    | _ => traverseDrivers p r b rest

def traverseBindings (r : Traversal m) : List Binding → m (List Binding)
  | [] => pure []
  | p :: rest => do
    let v ← p.value.traversed r
    let others ← traverseBindings r rest
    return { p with value := v } :: others

def traverseCell (r : Traversal m) : Option Instance → m (Option Instance)
  | none => pure none
  | some i => do return some { i with ports := ← traverseBindings r i.ports }

/-- The traversed body: ports, attributes, machines and the flatten mark are copied as they are. -/
def traverse (p : Pass m) (r : Traversal m) (b : Body) : m Body := do
  let start : Body := { b with statements := [], drivers := [], domains := [], cell := none }
  let nb ← traverseDomains p start b.domains
  let stmts ← Statement.traverseAll r b.statements
  let nb ← traverseDrivers p r (nb.addStatements stmts) b.driverPairs
  return { nb with cell := ← traverseCell r b.cell }

end Body

namespace Fragment

variable {m : Type → Type} [Monad m] [MonadExceptOf Failure m]

mutual

def traverse (p : Pass m) : Fragment → m Fragment
  | .node b children => do
    let children ← traverseAll p children
    let r ← p.values b
    let nb ← b.traverse p r
    p.finish b (.node nb children)

def traverseAll (p : Pass m) : List (String × Fragment) → m (List (String × Fragment))
  | [] => pure []
  | (name, f) :: rest => do
    let f ← traverse p f
    let others ← traverseAll p rest
    return (name, f) :: others

end

end Fragment
end Rtl
