import Rtl.Check
import Rtl.Prepare
import Rtl.Workspace.Basic

/-!
Elaboration: a block is turned into a fragment, its submodules first. A builder closes every construct that is still
open. Preparing and checking work on the trees that elaboration yields.
-/
namespace Rtl

namespace Builder

variable {α : Type}

/-- Lowers everything that is still open. -/
def finish : Build α Unit := do popMany (← Build.block).stack.length

/-- The body of the finished block. Samples that name no domain are taken in the default one. -/
def body (σ : Arenas) (b : Builder α) : Except Failure Body := do
  let stmts ← Statement.fillSampleDomain σ syncDomain b.statements
  let out := Body.empty.addStatements stmts
  let out := b.driving.entries.foldl (fun out e => out.addDriver e.2 e.1) out
  match out.addDomains b.domains with
  | (_, some e) => throw (.design e)
  | (out, none) => return { out with generated := b.generated }

end Builder

namespace Workspace

/-- The child of a fragment that a query names. -/
def child (w : Workspace) (number : Nat) (query : String) : Except DesignError Nat := do
  let children := (w.cell number).children
  let i ← findChild (children.map Prod.fst) query
  return (children.map Prod.snd).getD i 0

/-- The names of the signals in every fragment of a tree, by path. -/
def names (w : Workspace) (top : Nat) : Except DesignError (List (String × NetTable String)) :=
  (w.tree top).names w.arenas "top"

/-- The name of a value in one fragment of a tree, if it has one there. -/
def nameIn (w : Workspace) (top number : Nat) (v : Value) : Except Failure (Option String) :=
  if w.isReachable top number then do
    let names ← ((w.cell number).body.names w.arenas).mapError .design
    return names.get? (← v.asNet w.arenas)
  else .ok none

end Workspace

namespace Work

/-- A fragment with the given cell and no children. -/
def addInstance (i : Instance) : Work Nat := update fun w => w.addCell ⟨{ Body.empty with cell := some i }, []⟩

def newBuilder (arena : Nat) (program : Build Elaboratable Unit) : Work Nat := do
  let number ← update fun w => w.addBuilder (.create arena false)
  build number program
  return number

def absentBlock : Failure := .plain "elaborate: object returned nil"

def elaborateAll (step : Elaboratable → Work Nat) : List (String × Elaboratable) → Work (List (String × Nat))
  | [] => pure []
  | (name, e) :: rest => do
    let number ← step e
    let others ← elaborateAll step rest
    return (name, number) :: others

/-- Elaborates a block in at most `fuel` levels. -/
def elaborateWith : Nat → Elaboratable → Work Nat
  | 0, _ => throw .fault
  | fuel + 1, e =>
    match e with
    | .fragment number => return number
    | .builder number => do
      build number Builder.finish
      let b := (← get).builders.getD number (.create 0 false)
      let named ← elaborateAll (elaborateWith fuel) b.named
      let anonymous ← elaborateAll (elaborateWith fuel) (b.anonymous.map fun e => ("", e))
      let body ← MonadExcept.ofExcept (b.body (← arenas))
      update fun w => w.addCell ⟨body, named ++ anonymous⟩
    | .readPort p => do addInstance (← Value.raise (p.cell (← arenas)))
    | .writePort p => do addInstance (← Value.raise (p.cell (← arenas)))
    | .counter c => do elaborateWith fuel (.builder (← newBuilder c.arena c.program))
    | .handshake h => do elaborateWith fuel (.builder (← newBuilder h.arena h.program))
    | .copier c => do elaborateWith fuel (.builder (← newBuilder c.arena c.program))
    | .multiclock m => do
      let video ← renameDomains m.arena (.counter m.video) [(syncDomain, "pix")]
      elaborateWith fuel (.builder (← newBuilder m.arena (m.program (.counter m.sys) video)))
    | .treated e t => do
      let number ← elaborateWith fuel e
      let f ← treat ((← get).tree number) t
      update fun w => w.plant f
    | .standIn none => throw absentBlock
    | .standIn (some e) => elaborateWith fuel e
    | .failing f => throw f

def elaborate (e : Option Elaboratable) : Work Nat := do
  match e with
  | none => throw absentBlock
  | some e => elaborateWith ((← get).elaborationFuel e) e

/-- Elaborates and prepares a block. The prepared tree is stored; its names are returned by path. -/
def prepare (a : Nat) (opts : PrepareOptions) (reports : Bool) (e : Option Elaboratable) :
    Work (Nat × List (String × NetTable String)) := do
  let number ← tryCatch (elaborate e) fun err => throw (err.within "prepare: elaborate")
  let w ← get
  let (result, s) := (Prepare.run a opts (w.tree number)).run.run ⟨w.arenas, []⟩
  let reporter := if reports
    then s.warnings.foldl (fun r m => r.report ⟨.warning, .unknown, m⟩) w.reporter else w.reporter
  set { w with arenas := s.arenas, reporter := reporter }
  let p ← MonadExcept.ofExcept result
  let top ← update fun w => w.plant p.top
  return (top, p.names)

/-- Checks a fragment; every issue is reported as an error. -/
def check (number : Option Nat) (reports : Bool) : Work Unit := do
  match number with
  | none => throw (.plain "no fragment provided for checking")
  | some number =>
    if !reports then throw (.plain "no reporter provided for checking")
    let w ← get
    let (issues, stopped) := (w.tree number).check w.arenas
    set { w with reporter := issues.foldl (fun r (i : Issue) => r.report ⟨.error, .unknown, i.message⟩) w.reporter }
    match stopped with
    | some e => throw (.design e)
    | none => if issues.isEmpty then pure () else throw (checkFailure issues.length)

end Work
end Rtl
