import Rtl.Builder.Basic

/-!
Opening and closing the constructs of a builder. What was opened is described by a frame. `close` ends the construct
after its body; `abandon` leaves it when its body failed, and whatever it contains so far stays where it is.
-/
namespace Rtl

inductive Frame where
  /-- A branch of an if chain, with the position of the chain. -/
  | branch (position : Nat) (test : Value) (outer : List Statement)
  /-- The last branch of an if chain. -/
  | otherwise (position : Nat) (outer : List Statement)
  | switch
  /-- An arm of the switch at a position, unless it is left out. -/
  | arm (position : Option Nat) (patterns : List String) (omitted : Bool) (outer : List Statement)
  | machine (position number : Nat)
  | state (position : Nat) (name : String) (outer : List Statement)

namespace Builder

variable {α : Type}

def signedCondition : String :=
  "signed values in If/Elif conditions usually come from inverting a boolean with Not(), "
    ++ "which is truthful for every 1-bit input; compare explicitly or use Bool() to silence this warning"

def widePattern (p : Int) (width : Int) : String :=
  "case pattern '" ++ binaryText p ++ s!"' is wider than switch value (which has width {width}); "
    ++ "comparison will never be true"

def condition (cond : Operand) : Build α Value := do
  let v ← Value.raise cond.cast
  if (v.shape (← Build.arenas)).isSigned then Build.warn signedCondition
  return v

def openIf (cond : Operand) : Build α Frame := do
  requireContext "If" .plain
  let test ← condition cond
  let position ← push fun depth => .chain depth [] []
  deeper
  return .branch position test (← beginBody)

/-- The position of the innermost control and the control itself. -/
def top? : Build α (Option (Nat × Control)) := do
  let stack := (← Build.block).stack
  return stack.getLast?.map fun c => (stack.length - 1, c)

def openElif (cond : Operand) : Build α Frame := do
  requireContext "Elif" .plain
  let test ← condition cond
  match ← top? with
  | some (position, .chain depth (_ :: _) _) =>
    if depth ≠ (← Build.block).depth then throw (.design (.grammar .elifAlone))
    deeper
    return .branch position test (← beginBody)
  | _ => throw (.design (.grammar .elifAlone))

def openElse : Build α Frame := do
  requireContext "Else" .plain
  match ← top? with
  | some (position, .chain depth _ _) =>
    if depth ≠ (← Build.block).depth then throw (.design (.grammar .elseAlone))
    deeper
    return .otherwise position (← beginBody)
  | _ => throw (.design (.grammar .elseAlone))

def openSwitch (test : Operand) : Build α Frame := do
  requireContext "Switch" .plain
  let test ← Value.raise test.cast
  let _ ← push fun _ => .switch test []
  setContext .switch
  deeper
  return .switch

/-- The canonical patterns of an arm; integers that are too wide are dropped with a warning. -/
def armPatterns (width : Int) : List Operand → Build α (List String)
  | [] => pure []
  | p :: rest => do
    match ← MonadExcept.ofExcept (Pattern.normalize p width) with
    | some pattern =>
      let others ← armPatterns width rest
      return pattern :: others
    | none =>
      if let .int _ n := p then Build.warn (widePattern n width)
      armPatterns width rest

/-- Opens an arm. Without patterns it always matches; one that has lost all its patterns is left out. -/
def openCase (patterns : List Operand) : Build α Frame := do
  requireContext "Case" .switch
  match ← top? with
  | some (position, .switch test _) =>
    let kept ← armPatterns (test.width (← Build.arenas)) patterns
    setContext .plain
    return .arm (some position) kept (!patterns.isEmpty && kept.isEmpty) (← beginBody)
  | _ => throw .fault

/-- Opens the arm for every value that no earlier arm matches. -/
def openDefault : Build α Frame := do
  requireContext "Default" .switch
  let position := match ← top? with
    | some (position, .switch _ _) => some position
    | _ => none
  setContext .plain
  return .arm position [] false (← beginBody)

def openMachine (opts : MachineOptions) : Build α (Frame × Nat) := do
  requireContext "FSM" .plain
  if opts.domain = combDomain then throw (.design (.domain (.combMachine opts.domain)))
  let state ← Build.issue (Machine.registerSpec opts)
  let number := (← get).machines.size
  modify fun s => { s with machines := s.machines.push (Machine.create opts state) }
  Build.modifyBlock fun b => { b with generated := setAttr opts.name number b.generated }
  let position ← push fun _ => .machine number []
  setContext .machine
  deeper
  return (.machine position number, number)

def openState (name : String) : Build α Frame := do
  requireContext "State" .machine
  match ← top? with
  | some (position, .machine number states) =>
    if states.any (·.1 = name) then throw (.design (.name (.stateExists name)))
    let _ ← Build.encode number name
    setContext .plain
    return .state position name (← beginBody)
  | _ => throw .fault

def innermostMachine? (stack : List Control) : Option Nat :=
  stack.reverse.findSome? fun
    | .machine number _ => some number
    | _ => none

def next (name : String) : Build α Unit := do
  let b ← Build.block
  match if b.context = .machine then none else innermostMachine? b.stack with
  | none => throw (.design (.grammar .nextOutsideState))
  | some number =>
    let n ← Build.encode number name
    let m ← Build.machine number
    addStatements m.domain [.assign (.signal m.state) (.ofInt n)]

/-- Adds an arm; one with the same patterns is replaced in its place. -/
def setArm (arm : Arm) : List Arm → List Arm
  | [] => [arm]
  | a :: rest => if a.1 = arm.1 then arm :: rest else a :: setArm arm rest

def addBranch (test : Value) (body : List Statement) : Control → Control
  | .chain depth tests bodies => .chain depth (tests ++ [test]) (bodies ++ [body])
  | c => c

def addOtherwise (body : List Statement) : Control → Control
  | .chain depth tests bodies => .chain depth tests (bodies ++ [body])
  | c => c

def addArm (arm : Arm) : Control → Control
  | .switch test arms => .switch test (setArm arm arms)
  | c => c

def addState (name : String) (body : List Statement) : Control → Control
  | .machine number states => .machine number (states ++ [(name, body)])
  | c => c

/-- The first state that was mentioned and not defined. -/
def undefinedState? (m : Machine) (states : List (String × List Statement)) : Option String :=
  m.order.find? fun name => !states.any (·.1 = name)

/-- Leaves a construct whose body failed. -/
def abandon : Frame → Build α Unit
  | .branch _ _ outer => do
    setStatements outer
    shallower
  | .otherwise _ outer => setStatements outer
  | .switch | .machine _ _ => do
    shallower
    setContext .plain
  | .arm _ _ _ outer => do
    setStatements outer
    setContext .switch
  | .state _ _ outer => do
    setStatements outer
    setContext .machine

/-- Finishes the body of a construct, abandoning it when that fails. -/
def finishBody (frame : Frame) (outer : List Statement) : Build α (List Statement) :=
  tryCatch (endBody outer) fun e => do
    abandon frame
    throw e

def close (frame : Frame) : Build α Unit := do
  match frame with
  | .branch position test outer =>
    let body ← finishBody frame outer
    modifyControl position (addBranch test body)
    shallower
  | .otherwise position outer =>
    let body ← finishBody frame outer
    shallower
    modifyControl position (addOtherwise body)
    pop
  | .switch =>
    abandon frame
    pop
  | .arm position patterns omitted outer =>
    let body ← finishBody frame outer
    setContext .switch
    if omitted then pure ()
    else match position with
      | some position => modifyControl position (addArm (patterns, body))
      | none => throw .fault
  | .machine position number =>
    abandon frame
    match (← Build.block).stack[position]? with
    | some (.machine _ states) =>
      match undefinedState? (← Build.machine number) states with
      | some name => throw (.design (.name (.stateUndefined name)))
      | none => pop
    | _ => pop
  | .state position name outer =>
    let body ← finishBody frame outer
    setContext .machine
    modifyControl position (addState name body)

def inside (opened : Build α Frame) (body : Build α Unit) : Build α Unit := do
  let frame ← opened
  tryCatch body fun e => do
    abandon frame
    throw e
  close frame

def ifThen (cond : Operand) (body : Build α Unit) : Build α Unit := inside (openIf cond) body

def elifThen (cond : Operand) (body : Build α Unit) : Build α Unit := inside (openElif cond) body

def orElse (body : Build α Unit) : Build α Unit := inside openElse body

def switch (test : Operand) (body : Build α Unit) : Build α Unit := inside (openSwitch test) body

def case (patterns : List Operand) (body : Build α Unit) : Build α Unit := inside (openCase patterns) body

def default (body : Build α Unit) : Build α Unit := inside openDefault body

/-- Builds a state machine; its body is given the machine's number. -/
def machine (opts : MachineOptions) (body : Nat → Build α Unit) : Build α Nat := do
  let (frame, number) ← openMachine opts
  inside (pure frame) (body number)
  return number

def state (name : String) (body : Build α Unit) : Build α Unit := inside (openState name) body

end Builder
end Rtl
