import Rtl.Fragment.Basic

/-!
Checking a prepared tree: what an emitter may rely on. No reference to a clock, a reset, a past value or the first
cycle is left; every driver is a signal in a known domain; switch patterns are as wide as their tests; no signal is
driven from two fragments; and every port of a child is connected.
-/
namespace Rtl

/-- A violation of the contract, with the fragment it was found in. -/
inductive Issue where
  | clockLeft (domain path : String)
  | resetLeft (domain path : String)
  | sampleLeft (sample path : String)
  | initialLeft (path : String)
  | patternWidth (pattern : String) (width : Int) (test path : String)
  | undefinedDomain (net domain path : String)
  | abstractDriver (net path : String)
  | sharedDriver (net before path : String)
  | openPort (dir : Direction) (net child path : String)
  deriving DecidableEq, Repr

def Issue.message : Issue → String
  | .clockLeft domain path => "clock of domain '" ++ domain ++ "' was not lowered in fragment " ++ path
  | .resetLeft domain path => "reset of domain '" ++ domain ++ "' was not lowered in fragment " ++ path
  | .sampleLeft sample path => "sample " ++ sample ++ " was not lowered in fragment " ++ path
  | .initialLeft path => "initial was not lowered in fragment " ++ path
  | .patternWidth pattern width test path =>
    "switch pattern '" ++ pattern ++ s!"' does not match the width {width} of " ++ test ++ " in fragment " ++ path
  | .undefinedDomain net domain path =>
    net ++ " is driven from undefined domain '" ++ domain ++ "' in fragment " ++ path
  | .abstractDriver net path => "driver " ++ net ++ " of fragment " ++ path ++ " is not a concrete signal"
  | .sharedDriver net before path => net ++ " is driven from multiple fragments: " ++ before ++ ", " ++ path
  | .openPort dir net child path =>
    dir.code ++ " port " ++ net ++ " of subfragment '" ++ child ++ "' is not connected in fragment " ++ path

namespace Value

mutual

/-- What is left to lower in a value. What stands inside a sample is not looked at. -/
def issues (σ : Arenas) (path : String) : Value → List Issue
  | .const _ _ => []
  | .net (.signal _) => []
  | .net (.clock d) => [.clockLeft d path]
  | .net (.reset d _) => [.resetLeft d path]
  | .unary _ a _ => issues σ path a
  | .binary _ a b _ => issues σ path a ++ issues σ path b
  | .mux sel a b _ => issues σ path sel ++ issues σ path a ++ issues σ path b
  | .slice v _ _ => issues σ path v
  | .part v offset _ _ => issues σ path v ++ issues σ path offset
  | .cat parts => issuesAll σ path parts
  | .repl v _ => issues σ path v
  | .proxy elems index => issuesAll σ path elems ++ issues σ path index
  | .sample v clocks domain => [.sampleLeft ((Value.sample v clocks domain).text σ) path]
  | .initial => [.initialLeft path]

def issuesAll (σ : Arenas) (path : String) : List Value → List Issue
  | [] => []
  | v :: vs => issues σ path v ++ issuesAll σ path vs

end

end Value

namespace Statement

/-- The patterns of an arm that are not as wide as the test. -/
def patternIssues (σ : Arenas) (path : String) (test : Value) (patterns : List String) : List Issue :=
  (patterns.filter fun p => (p.utf8ByteSize : Int) ≠ test.width σ).map fun p =>
    .patternWidth p (test.width σ) (test.text σ) path

mutual

def issues (σ : Arenas) (path : String) : Statement → List Issue
  | .assign lhs rhs => lhs.issues σ path ++ rhs.issues σ path
  | .property _ test _ _ => test.issues σ path
  | .switch test arms => test.issues σ path ++ armIssues σ path test arms

def bodyIssues (σ : Arenas) (path : String) : List Statement → List Issue
  | [] => []
  | s :: rest => issues σ path s ++ bodyIssues σ path rest

def armIssues (σ : Arenas) (path : String) (test : Value) : List (List String × List Statement) → List Issue
  | [] => []
  | (patterns, body) :: rest =>
    patternIssues σ path test patterns ++ bodyIssues σ path body ++ armIssues σ path test rest

end

end Statement

namespace Body

def valueIssues (σ : Arenas) (path : String) (b : Body) : List Issue :=
  (match b.cell with
    | some i => i.ports.flatMap fun p => p.value.issues σ path
    | none => []) ++ Statement.bodyIssues σ path b.statements

/-- Checks one driver. A signal is noted with the path of the first fragment that drives it. -/
def checkDriver (σ : Arenas) (path : String) (b : Body) (drivenBy : NetTable String) (domain : String)
    (n : Net) : List Issue × NetTable String :=
  let unknown : List Issue :=
    if domain ≠ combDomain ∧ (b.domain? domain).isNone then [.undefinedDomain (n.text σ) domain path] else []
  match n with
  | .signal _ =>
    match drivenBy.get? n with
    | some before =>
      if before ≠ path then (unknown ++ [.sharedDriver (n.text σ) before path], drivenBy)
      else (unknown, drivenBy.set n path)
    | none => (unknown, drivenBy.set n path)
  | .clock _ | .reset _ _ => (unknown ++ [.abstractDriver (n.text σ) path], drivenBy)

def checkDrivers (σ : Arenas) (path : String) (b : Body) (drivenBy : NetTable String) :
    List (String × Net) → List Issue × NetTable String
  | [] => ([], drivenBy)
  | (d, n) :: rest =>
    let (here, drivenBy) := b.checkDriver σ path drivenBy d n
    let (others, drivenBy) := checkDrivers σ path b drivenBy rest
    (here ++ others, drivenBy)

/-- What the statements of a fragment write and read, its driven domains' clocks and resets included. -/
def connections (σ : Arenas) (driven used : NetSet) : List Statement → Except DesignError (NetSet × NetSet)
  | [] => .ok (driven, used)
  | s :: rest => do
    let written ← s.assigned σ
    connections σ (driven.union written) (used.union s.reads) rest

/-- Whether a net is a port of the given direction of another child. -/
def siblingHas (children : List (String × Fragment)) (position : Nat) (n : Net) (dir : Direction) : Bool :=
  children.zipIdx.any fun (c, i) => i ≠ position && c.2.body.ports.get? n = some dir

def isConnected (b : Body) (driven used : NetSet) (children : List (String × Fragment)) (position : Nat)
    (n : Net) : Direction → Bool
  | .input => b.ports.contains n || driven.contains n || siblingHas children position n .output
  | .output => b.ports.contains n || used.contains n || siblingHas children position n .input
  | .inout => b.ports.contains n

def portIssues (σ : Arenas) (path : String) (b : Body) (children : List (String × Fragment)) :
    Except DesignError (List Issue) :=
  if children.isEmpty then .ok []
  else do
    let (driven, used) ← connections σ .empty .empty b.statements
    let used := used.insertAll ((b.driverDomains.filterMap b.domain?).flatMap ClockDomain.signals)
    return children.zipIdx.flatMap fun (c, i) =>
      (c.2.body.ports.entries.filter fun (n, dir) => !b.isConnected driven used children i n dir).map
        fun (n, dir) => .openPort dir (n.text σ) (childLabel i c.1) path

end Body

namespace Fragment

/-- Issues found so far, and the fragment that drives each signal. -/
structure Findings where
  issues : List Issue
  drivenBy : NetTable String

def Findings.add (s : Findings) (issues : List Issue) : Findings := { s with issues := s.issues ++ issues }

/-- Checks one fragment. A left side that cannot be written stops the check. -/
def checkBody (σ : Arenas) (path : String) (b : Body) (children : List (String × Fragment)) (s : Findings) :
    Findings × Option DesignError :=
  let s := s.add (b.valueIssues σ path)
  let (found, drivenBy) := b.checkDrivers σ path s.drivenBy b.driverPairs
  let s : Findings := ⟨s.issues ++ found, drivenBy⟩
  match b.portIssues σ path children with
  | .ok found => (s.add found, none)
  | .error e => (s, some e)

mutual

def checkTree (σ : Arenas) (path : String) (s : Findings) : Fragment → Findings × Option DesignError
  | .node b children =>
    match checkBody σ path b children s with
    | (s, some e) => (s, some e)
    | (s, none) => checkChildren σ path s 0 children

def checkChildren (σ : Arenas) (path : String) (s : Findings) (position : Nat) :
    List (String × Fragment) → Findings × Option DesignError
  | [] => (s, none)
  | (name, f) :: rest =>
    match checkTree σ (path ++ "." ++ childLabel position name) s f with
    | (s, some e) => (s, some e)
    | (s, none) => checkChildren σ path s (position + 1) rest

end

/-- All issues of a tree, with the error that stopped the check if there was one. -/
def check (σ : Arenas) (f : Fragment) : List Issue × Option DesignError :=
  let (s, e) := checkTree σ "top" ⟨[], .empty⟩ f
  (s.issues, e)

end Fragment

def checkFailure (count : Nat) : Failure := .plain s!"check failed with {count} issue(s)"

end Rtl
