import Rtl.Fragment.Basic

/-!
Names of signals in the fragments that use them. Within a fragment no two nets share a name: ports are named first,
then driven nets, then everything else the fragment mentions, and a name that is taken gets a number.
-/
namespace Rtl

/-- `base`, or `base$1`, `base$2`, … — the first that is not taken. Among `fuel + 1` candidates one is free when
fewer names are taken. -/
def freshName (taken : List String) (base : String) : Nat → Nat → String
  | 0, n => base ++ "$" ++ toString n
  | fuel + 1, n =>
    let candidate := base ++ "$" ++ toString n
    if taken.contains candidate then freshName taken base fuel (n + 1) else candidate

def chooseName (taken : List String) (base : String) : String :=
  if taken.contains base then freshName taken base taken.length 1 else base

namespace Body

/-- Names a net that has no name yet. -/
def nameNet (σ : Arenas) (names : NetTable String) (n : Net) : NetTable String :=
  if names.contains n then names
  else names.set n (chooseName (names.entries.map Prod.snd) (n.label σ))

def nameNets (σ : Arenas) (names : NetTable String) (ns : NetSet) : NetTable String :=
  ns.items.foldl (nameNet σ) names

def nameStatements (σ : Arenas) (names : NetTable String) : List Statement → Except DesignError (NetTable String)
  | [] => .ok names
  | s :: rest => do
    let written ← s.assigned σ
    nameStatements σ (nameNets σ (nameNets σ names written) s.reads) rest

def names (σ : Arenas) (b : Body) : Except DesignError (NetTable String) := do
  let own ← nameStatements σ (nameNets σ .empty b.signals) b.statements
  match b.cell with
  | none => return own
  | some i => return i.ports.foldl (fun names p => nameNets σ names p.value.reads) own

end Body

namespace Fragment

mutual

/-- The names of every fragment of a tree with its path, parents first. -/
def names (σ : Arenas) (path : String) : Fragment → Except DesignError (List (String × NetTable String))
  | .node b children => do
    let own ← b.names σ
    let rest ← childNames σ path 0 children
    return (path, own) :: rest

def childNames (σ : Arenas) (path : String) (position : Nat) :
    List (String × Fragment) → Except DesignError (List (String × NetTable String))
  | [] => .ok []
  | (name, f) :: rest => do
    let own ← names σ (path ++ "." ++ toString position ++ ":" ++ name) f
    let others ← childNames σ path (position + 1) rest
    return own ++ others

end

end Fragment
end Rtl
