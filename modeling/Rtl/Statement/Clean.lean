import Rtl.Statement.Basic

/-!
Reductions of statement lists: dropping empty arms and switches, and keeping the statements that write into a set of
nets.
-/
namespace Rtl.Statement

mutual

/-- A switch without its empty arms, or nothing when no arm is left. -/
def clean : Statement → List Statement
  | .switch test arms =>
    match cleanArms arms with
    | [] => []
    | arms => [.switch test arms]
  | .assign lhs rhs => [.assign lhs rhs]
  | .property kind test check enable => [.property kind test check enable]

def cleanAll : List Statement → List Statement
  | [] => []
  | s :: rest => clean s ++ cleanAll rest

def cleanArms : List (List String × List Statement) → List (List String × List Statement)
  | [] => []
  | (patterns, body) :: rest =>
    match cleanAll body with
    | [] => cleanArms rest
    | body => (patterns, body) :: cleanArms rest

end

def writesInto (nets : NetSet) (s : Statement) : Except Value Bool := do
  return (← s.targets).items.any nets.contains

mutual

/-- Keeps a leaf statement that writes into the set, and every switch with its arms filtered. -/
def filter (nets : NetSet) : Statement → Except Value (List Statement)
  | .switch test arms => do return [.switch test (← filterArms nets arms)]
  | .assign lhs rhs => do return if ← writesInto nets (.assign lhs rhs) then [.assign lhs rhs] else []
  | .property kind test check enable => do
    return if ← writesInto nets (.property kind test check enable) then [.property kind test check enable] else []

def filterAll (nets : NetSet) : List Statement → Except Value (List Statement)
  | [] => .ok []
  | s :: rest => do
    let kept ← filter nets s
    let others ← filterAll nets rest
    return kept ++ others

def filterArms (nets : NetSet) :
    List (List String × List Statement) → Except Value (List (List String × List Statement))
  | [] => .ok []
  | (patterns, body) :: rest => do
    let body ← filterAll nets body
    let others ← filterArms nets rest
    return (patterns, body) :: others

end

end Rtl.Statement
