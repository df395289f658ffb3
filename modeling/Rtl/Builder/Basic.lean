import Rtl.Diagnostic
import Rtl.Fragment.Traversal
import Rtl.Machine

/-!
The builder of one block: statements are added to domains, under conditions, switches and state machines that are
opened and closed around them. A construct that was opened stays on the stack of controls until something closes
it; an if chain stays open after its last branch so that it can be extended. `depth` counts the constructs that are
being filled, and controls above it are lowered before anything new begins.
-/
namespace Rtl

/-- What the builder is directly inside of. -/
inductive Context where
  | plain
  | switch
  | machine
  deriving DecidableEq, Repr

/-- An open construct. -/
inductive Control where
  /-- An if chain, the depth it was opened at, its conditions and its bodies. A body beyond the conditions is taken
  when none of them holds. -/
  | chain (depth : Nat) (tests : List Value) (bodies : List (List Statement))
  | switch (test : Value) (arms : List Arm)
  /-- A state machine by number, with the states defined so far. -/
  | machine (number : Nat) (states : List (String × List Statement))
  deriving Inhabited

/-- A builder whose submodules are things of type `α`. -/
structure Builder (α : Type) where
  arena : Nat
  /-- Whether warnings are passed on. -/
  reports : Bool
  context : Context
  /-- Open constructs, outermost first. -/
  stack : List Control
  depth : Nat
  statements : List Statement
  /-- The domain that drives each net. -/
  driving : NetTable String
  named : List (String × α)
  anonymous : List α
  domains : List ClockDomain
  /-- State machines by name. -/
  generated : List (String × Nat)

namespace Builder

variable {α : Type}

def create (arena : Nat) (reports : Bool) : Builder α :=
  ⟨arena, reports, .plain, [], 0, [], .empty, [], [], [], []⟩

structure State (α : Type) where
  arenas : Arenas
  machines : Array Machine
  reporter : Reporter
  block : Builder α

end Builder

abbrev Build (α : Type) := Run (Builder.State α)

namespace Build

variable {α : Type}

def block : Build α (Builder α) := do return (← get).block

def arenas : Build α Arenas := do return (← get).arenas

def modifyBlock (f : Builder α → Builder α) : Build α Unit := modify fun s => { s with block := f s.block }

def setArenas (σ : Arenas) : Build α Unit := modify fun s => { s with arenas := σ }

def machine (number : Nat) : Build α Machine := do return (← get).machines.getD number default

def setMachine (number : Nat) (m : Machine) : Build α Unit :=
  modify fun s => { s with machines := s.machines.setIfInBounds number m }

def issue (spec : SignalSpec) : Build α SignalId := do
  let (σ, id) ← Value.raise ((← arenas).issue (← block).arena spec)
  setArenas σ
  return id

/-- Passes a warning on, if the builder reports at all. -/
def warn (message : String) : Build α Unit :=
  modify fun s =>
    if s.block.reports then { s with reporter := s.reporter.report ⟨.warning, .unknown, message⟩ } else s

/-- The number of a state of a machine, mentioned from now on. -/
def encode (number : Nat) (state : String) : Build α Nat := do
  let (m, n) := (← machine number).encode state
  setMachine number m
  return n

/-- Whether a machine is in a state, which counts as mentioned from now on. -/
def ongoing (number : Nat) (state : String) : Build α Value := do
  let n ← encode number state
  let m ← machine number
  Value.raise (Value.mkBinary (← arenas) .eq (.signal m.state) (.ofInt n))

end Build

namespace Context

def name : Context → String
  | .plain => "<none>"
  | .switch => "Switch"
  | .machine => "FSM"

/-- What may stand directly inside. -/
def armName : Context → String
  | .plain | .switch => "Case"
  | .machine => "State"

end Context

namespace Control

/-- The pattern of branch `i` of `n` conditions: condition `i` holds, whatever the later ones say. -/
def branchPattern (n i : Nat) : String :=
  if i < n then String.ofList (List.replicate (n - i - 1) '-' ++ '1' :: List.replicate i '-')
  else String.ofList (List.replicate n '-')

def lowerChain (σ : Arenas) (tests : List Value) (bodies : List (List Statement)) : Except DesignError Statement :=
  Statement.mkSwitch σ (.cat (tests.map (Value.asBit σ)))
    (bodies.zipIdx.map fun (body, i) => ([branchPattern tests.length i], body))

end Control

namespace Builder

variable {α : Type}

/-- Refuses a construct that may not stand where the builder is. -/
def requireContext (construct : String) (wanted : Context) : Build α Unit := do
  let context := (← Build.block).context
  if context = wanted then pure ()
  else if context = .plain then throw (.design (.grammar (.outside construct wanted.name)))
  else throw (.design (.grammar (.directlyInside construct context.name context.armName)))

def append (stmts : List Statement) : Build α Unit :=
  Build.modifyBlock fun b => { b with statements := b.statements ++ stmts }

/-- The statements of a machine: its dispatch switch, if a state was defined. -/
def lowerMachine (number : Nat) (states : List (String × List Statement)) : Build α (List Statement) := do
  if states.isEmpty then return []
  let m ← Build.machine number
  let σ ← Value.raise (m.sizeRegister (← Build.arenas) number (states.map Prod.fst))
  Build.setArenas σ
  let arms ← MonadExcept.ofExcept (m.arms states)
  return [← Value.raise (Statement.mkSwitch σ (.signal m.state) arms)]

def lower : Control → Build α (List Statement)
  | .chain _ tests bodies => do return [← Value.raise (Control.lowerChain (← Build.arenas) tests bodies)]
  | .switch test arms => do return [← Value.raise (Statement.mkSwitch (← Build.arenas) test arms)]
  | .machine number states => lowerMachine number states

/-- Takes the innermost control off the stack and lowers it. -/
def pop : Build α Unit := do
  match (← Build.block).stack.getLast? with
  | none => throw .fault
  | some c =>
    Build.modifyBlock fun b => { b with stack := b.stack.dropLast }
    append (← lower c)

def popMany : Nat → Build α Unit
  | 0 => pure ()
  | n + 1 => do
    pop
    popMany n

/-- Lowers every control that is not being filled. -/
def flush : Build α Unit := do
  let b ← Build.block
  popMany (b.stack.length - b.depth)

/-- Opens a control and returns its position on the stack. -/
def push (c : Nat → Control) : Build α Nat := do
  flush
  let b ← Build.block
  Build.modifyBlock fun b => { b with stack := b.stack ++ [c b.depth] }
  return b.stack.length

def modifyControl (position : Nat) (f : Control → Control) : Build α Unit :=
  Build.modifyBlock fun b => { b with stack := b.stack.modify position f }

def deeper : Build α Unit := Build.modifyBlock fun b => { b with depth := b.depth + 1 }

def shallower : Build α Unit := Build.modifyBlock fun b => { b with depth := b.depth - 1 }

def setContext (c : Context) : Build α Unit := Build.modifyBlock fun b => { b with context := c }

def setStatements (stmts : List Statement) : Build α Unit :=
  Build.modifyBlock fun b => { b with statements := stmts }

/-- Starts a body and returns the statements around it. -/
def beginBody : Build α (List Statement) := do
  let outer := (← Build.block).statements
  setStatements []
  return outer

/-- Finishes a body: what is still open in it is lowered. -/
def endBody (outer : List Statement) : Build α (List Statement) := do
  flush
  let body := (← Build.block).statements
  setStatements outer
  return body

/-- Notes the domain of each net that a statement writes. A net is driven from one domain only. -/
def drive (domain : String) : List Net → Build α Unit
  | [] => pure ()
  | n :: rest => do
    match (← Build.block).driving.get? n with
    | none =>
      Build.modifyBlock fun b => { b with driving := b.driving.set n domain }
      drive domain rest
    | some current =>
      if current ≠ domain then
        throw (.design (.conflict (.twoDomains (n.text (← Build.arenas)) domain current)))
      else drive domain rest

/-- A statement as it is added to a domain: unless the domain is combinational, samples that name none are in it. -/
def placed (σ : Arenas) (domain : String) (s : Statement) : Except Failure (List Statement) :=
  if domain = combDomain then .ok [s] else Statement.fillSampleDomain σ domain [s]

def addStatement (domain : String) : Statement → Build α Unit
  | .switch _ _ => throw (.design (.grammar (.statementKind domain)))
  | s => do
    let σ ← Build.arenas
    let filled ← MonadExcept.ofExcept (placed σ domain s)
    drive domain (← Value.raise (s.assigned σ)).items
    append filled

def addEach (domain : String) : List Statement → Build α Unit
  | [] => pure ()
  | s :: rest => do
    addStatement domain s
    addEach domain rest

def addStatements (domain : String) (stmts : List Statement) : Build α Unit := do
  requireContext ("adding statements to " ++ domain) .plain
  flush
  addEach domain stmts

def comb (stmts : List Statement) : Build α Unit := addStatements combDomain stmts

def sync (stmts : List Statement) : Build α Unit := addStatements syncDomain stmts

/-- Adds a submodule; without a name it is anonymous. -/
def addSubmodule (name : String) (sub : Option α) : Build α Unit := do
  match sub with
  | none => throw (.design (.grammar .absentSubmodule))
  | some sub =>
    if name = "" then Build.modifyBlock fun b => { b with anonymous := b.anonymous ++ [sub] }
    else if (← Build.block).named.any (·.1 = name) then throw (.design (.name (.submoduleExists name)))
    else Build.modifyBlock fun b => { b with named := b.named ++ [(name, sub)] }

def submodule (name : String) : Build α α := do
  match (← Build.block).named.find? (·.1 = name) with
  | some (_, sub) => return sub
  | none => throw (.design (.name (.noSubmodule name)))

/-- Declares clock domains, all under different names. -/
def addDomains : List ClockDomain → Build α Unit
  | [] => pure ()
  | cd :: rest => do
    if (← Build.block).domains.any (·.name = cd.name) then throw (.design (.name (.domainExists cd.name)))
    Build.modifyBlock fun b => { b with domains := b.domains ++ [cd] }
    addDomains rest

end Builder
end Rtl
