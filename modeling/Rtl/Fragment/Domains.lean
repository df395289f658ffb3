import Rtl.Fragment.Rename

/-!
Making clock domains visible across a tree. Upwards, every fragment adopts the domains of its children that are not
local; where several children define different domains under one name, each of them is renamed after its child
first. Downwards, every fragment hands all its domains to its children.
-/
namespace Rtl

structure Definer where
  position : Nat
  child : String
  domain : ClockDomain

namespace Definer

/-- The definers of all domains that are not local, child by child. -/
def ofChildren (position : Nat) : List (String × Fragment) → List Definer
  | [] => []
  | (name, f) :: rest =>
    (f.body.domains.filter (!·.isLocal)).map (⟨position, name, ·⟩) ++ ofChildren (position + 1) rest

def agree : List Definer → Bool
  | [] => true
  | d :: rest => rest.all (·.domain.id = d.domain.id)

def unnamedLabel (d : Definer) : String :=
  if d.child = "" then childLabel d.position "" else "'" ++ d.child ++ "'"

def sortTexts (texts : List String) : List String := texts.mergeSort fun a b => decide (a ≤ b)

/-- Children that disagree on a domain must have names, all different. -/
def check (path : List String) (domain : String) (defs : List Definer) : Except DesignError Unit :=
  let names := defs.map (·.child)
  if names.contains "" then
    .error (.domain (.anonymousDefiners domain (sortTexts (defs.map unnamedLabel)) (".".intercalate path)))
  else if names.eraseDups.length ≠ names.length then
    .error (.domain (.ambiguousDefiners domain (sortTexts (defs.map fun d => s!"#{d.position}"))
      (".".intercalate path)))
  else .ok ()

end Definer

def Renamer.run (r : Renamer) (f : Fragment) : Run Arenas Fragment := do
  let (result, σ, _) := r.apply (← get) f
  set σ
  MonadExcept.ofExcept result

namespace Fragment

/-- Renames a domain in each child that defines it, after the child. -/
def separateDomain (a : Nat) (domain : String) :
    List Definer → List (String × Fragment) → Run Arenas (List (String × Fragment))
  | [], children => pure children
  | d :: rest, children => do
    let r ← Value.raise (Renamer.create a [(domain, d.child ++ "_" ++ domain)])
    match children[d.position]? with
    | none => separateDomain a domain rest children
    | some (name, f) =>
      let f ← r.run f
      separateDomain a domain rest (children.set d.position (name, f))

def separateDomains (a : Nat) (path : List String) (defs : List Definer) :
    List String → List (String × Fragment) → Run Arenas (List (String × Fragment))
  | [], children => pure children
  | domain :: rest, children => do
    let here := defs.filter (·.domain.name = domain)
    if Definer.agree here then separateDomains a path defs rest children
    else
      Value.raise (Definer.check path domain here)
      separateDomains a path defs rest (← separateDomain a domain here children)

end Fragment

namespace Body

/-- Registers domains of another fragment. A record that differs from the one under its name is refused. -/
def takeDomains (refused : ClockDomain → DomainError) (b : Body) : List ClockDomain → Except DesignError Body
  | [] => .ok b
  | cd :: rest =>
    match b.domain? cd.name with
    | some old => if old.id ≠ cd.id then .error (.domain (refused cd)) else takeDomains refused b rest
    | none => takeDomains refused { b with domains := b.domains ++ [cd] } rest

/-- Registers the domains of one child that are not local. -/
def adoptDomains (path : List String) (child : String) (b : Body) (cds : List ClockDomain) :
    Except DesignError Body :=
  b.takeDomains (fun cd => .definedByParent cd.name (".".intercalate path) child) cds

def adoptAll (path : List String) (b : Body) : List (String × Fragment) → Except DesignError Body
  | [] => .ok b
  | (name, f) :: rest => do
    let b ← adoptDomains path name b (f.body.domains.filter (!·.isLocal))
    adoptAll path b rest

/-- Registers the domains that a child gets from its parent. -/
def inheritDomains (child : String) (b : Body) (cds : List ClockDomain) : Except DesignError Body :=
  b.takeDomains (fun cd => .differsFromParent cd.name child) cds

end Body

namespace Fragment

mutual

/-- Makes the domains of every child that are not local visible in its parent. -/
def liftDomains (a : Nat) (path : List String) : Fragment → Run Arenas Fragment
  | .node b children => do
    let children ← liftChildren a path 0 children
    let defs := Definer.ofChildren 0 children
    let children ← separateDomains a path defs (defs.map (·.domain.name)).eraseDups children
    let b ← Value.raise (b.adoptAll path children)
    return .node b children

def liftChildren (a : Nat) (path : List String) (position : Nat) :
    List (String × Fragment) → Run Arenas (List (String × Fragment))
  | [] => pure []
  | (name, f) :: rest => do
    let f ← liftDomains a (path ++ [childLabel position name]) f
    let others ← liftChildren a path (position + 1) rest
    return (name, f) :: others

end

mutual

/-- Makes every domain of a fragment visible in all fragments below it. -/
def shareDomains (name : String) (inherited : List ClockDomain) : Fragment → Except DesignError Fragment
  | .node b children => do
    let b ← b.inheritDomains name inherited
    return .node b (← shareChildren b.domains children)

def shareChildren (inherited : List ClockDomain) :
    List (String × Fragment) → Except DesignError (List (String × Fragment))
  | [] => .ok []
  | (name, f) :: rest => do
    let f ← shareDomains name inherited f
    let others ← shareChildren inherited rest
    return (name, f) :: others

end

/-- Adds a default clock domain to a tree that has none. -/
def ensureDomain (a : Nat) : Fragment → Run Arenas Fragment
  | .node b children => do
    match b.domain? syncDomain with
    | some _ => return .node b children
    | none =>
      let (σ, cd) ← Value.raise (ClockDomain.create (← get) a syncDomain .plain)
      set σ
      return .node (← Value.raise (b.addDomain cd)) children

def propagateDomains (a : Nat) (ensureSync : Bool) (f : Fragment) : Run Arenas Fragment := do
  let f ← liftDomains a ["top"] f
  let f ← if ensureSync then ensureDomain a f else pure f
  Value.raise (shareDomains "" [] f)

end Fragment
end Rtl
