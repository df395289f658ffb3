import Rtl.Statement.Basic

/-!
What a statement list does for given values of its tests: the assignments and properties that are reached, in order.
A switch runs its first arm that matches.
-/
namespace Rtl.Statement

/-- Whether an arm with these patterns is taken for a test value. -/
def armTaken (v : Int) (patterns : List String) : Bool :=
  patterns.isEmpty || patterns.any fun p => Pattern.isMatch p v

mutual

def run (tests : Value → Int) : Statement → List Statement
  | .switch test arms => runArms tests (tests test) arms
  | .assign lhs rhs => [.assign lhs rhs]
  | .property kind test check enable => [.property kind test check enable]

def runAll (tests : Value → Int) : List Statement → List Statement
  | [] => []
  | s :: rest => run tests s ++ runAll tests rest

def runArms (tests : Value → Int) (v : Int) : List (List String × List Statement) → List Statement
  | [] => []
  | (patterns, body) :: rest => if armTaken v patterns then runAll tests body else runArms tests v rest

end

end Rtl.Statement
