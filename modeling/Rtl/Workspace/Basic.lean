import Rtl.Catalogue.Blocks
import Rtl.Fragment.Controls
import Rtl.Fragment.Rename
import Rtl.MemoryPort

/-!
The workspace that holds a design while it is put together: signals, state machines, diagnostics, the fragments and
builders that refer to each other by number, and the renamers that remember what they renamed. A fragment may be a
child of several others; what is changed in it shows in all of them.
-/
namespace Rtl

inductive Treatment where
  /-- Renaming of domains, by the number of the renamer. -/
  | rename (renamer : Nat)
  | control (kind : ControlKind) (controls : Controls)
  deriving Inhabited

/-- Anything that can be turned into a fragment. -/
inductive Elaboratable where
  | fragment (number : Nat)
  | builder (number : Nat)
  | readPort (p : ReadPort)
  | writePort (p : WritePort)
  | counter (c : Counter)
  | handshake (h : Handshake)
  | copier (c : Copier)
  | multiclock (m : Multiclock)
  | treated (e : Elaboratable) (t : Treatment)
  /-- Stands for another block, or for nothing at all. -/
  | standIn (e : Option Elaboratable)
  | failing (f : Failure)
  deriving Inhabited

/-- Number of steps that the elaboration of a block itself can take. -/
def Elaboratable.size : Elaboratable → Nat
  | .treated e _ => e.size + 1
  | .standIn (some e) => e.size + 1
  | .multiclock _ => 5
  | .counter _ | .handshake _ | .copier _ => 2
  | _ => 1

/-- A fragment whose children are known by number. -/
structure Cell where
  body : Body
  children : List (String × Nat)
  deriving Inhabited

structure Workspace where
  arenas : Arenas
  machines : Array Machine
  reporter : Reporter
  cells : Array Cell
  builders : Array (Builder Elaboratable)
  renamers : Array Renamer
  deriving Inhabited

abbrev Work := Run Workspace

namespace Workspace

def empty : Workspace := ⟨.empty, #[], .empty, #[], #[], #[]⟩

def cell (w : Workspace) (number : Nat) : Cell := w.cells.getD number default

/-- The tree below a fragment, at most `fuel` levels deep. -/
def treeWith (w : Workspace) : Nat → Nat → Fragment
  | 0, number => .leaf (w.cell number).body
  | fuel + 1, number =>
    let c := w.cell number
    .node c.body (c.children.map fun (name, child) => (name, treeWith w fuel child))

/-- The tree below a fragment. No path is longer than there are fragments. -/
def tree (w : Workspace) (number : Nat) : Fragment := w.treeWith w.cells.size number

/-- The fragments that can be reached within `fuel` levels. -/
def reachableWith (w : Workspace) : Nat → Nat → List Nat
  | 0, number => [number]
  | fuel + 1, number => number :: (w.cell number).children.flatMap fun c => reachableWith w fuel c.2

def isReachable (w : Workspace) (source target : Nat) : Bool :=
  (w.reachableWith w.cells.size source).contains target

def addCell (w : Workspace) (c : Cell) : Workspace × Nat := ({ w with cells := w.cells.push c }, w.cells.size)

def modifyCell (w : Workspace) (number : Nat) (f : Cell → Cell) : Workspace :=
  { w with cells := w.cells.modify number f }

def modifyBody (w : Workspace) (number : Nat) (f : Body → Body) : Workspace :=
  w.modifyCell number fun c => { c with body := f c.body }

def addChild (w : Workspace) (number child : Nat) (name : String) : Workspace :=
  w.modifyCell number fun c => { c with children := c.children ++ [(name, child)] }

mutual

/-- Stores a tree as fragments of the workspace. -/
def plant (w : Workspace) : Fragment → Workspace × Nat
  | .node b children =>
    let (w, numbers) := plantAll w children
    w.addCell ⟨b, numbers⟩

def plantAll (w : Workspace) : List (String × Fragment) → Workspace × List (String × Nat)
  | [] => (w, [])
  | (name, f) :: rest =>
    let (w, number) := plant w f
    let (w, others) := plantAll w rest
    (w, (name, number) :: others)

end

def addArena (w : Workspace) : Workspace × Nat :=
  let (σ, a) := w.arenas.add
  ({ w with arenas := σ }, a)

def addBuilder (w : Workspace) (b : Builder Elaboratable) : Workspace × Nat :=
  ({ w with builders := w.builders.push b }, w.builders.size)

def addRenamer (w : Workspace) (r : Renamer) : Workspace × Nat :=
  ({ w with renamers := w.renamers.push r }, w.renamers.size)

def decode (w : Workspace) (s : SignalId) (v : Int) : Option String :=
  (w.arenas.get s).decoder.map fun
    | .labelled text => text ++ toString v
    | .states machine => (w.machines.getD machine default).decode v

/-- The sizes of blocks, added to a number. -/
def addSizes (n : Nat) (es : List Elaboratable) : Nat := es.foldl (fun n e => n + e.size) n

/-- Number of steps that any elaboration in the workspace can take, `e` first. -/
def elaborationFuel (w : Workspace) (e : Elaboratable) : Nat :=
  w.builders.foldl (fun n b => addSizes (addSizes (n + 1) (b.named.map Prod.snd)) b.anonymous) (e.size + 1)

end Workspace

namespace Work

def update {α : Type} (f : Workspace → Workspace × α) : Work α := modifyGet fun w => let (w, a) := f w; (a, w)

def arenas : Work Arenas := do return (← get).arenas

def setArenas (σ : Arenas) : Work Unit := modify fun w => { w with arenas := σ }

def issue (a : Nat) (spec : SignalSpec) : Work SignalId := do
  let (σ, id) ← Value.raise ((← arenas).issue a spec)
  setArenas σ
  return id

/-- Runs builder steps on a builder of the workspace. What was done stays done when a step fails. -/
def build {α : Type} (number : Nat) (x : Build Elaboratable α) : Work α := do
  let w ← get
  let block := w.builders.getD number (.create 0 false)
  let (result, s) := x.run.run ⟨w.arenas, w.machines, w.reporter, block⟩
  set { w with
    arenas := s.arenas
    machines := s.machines
    reporter := s.reporter
    builders := w.builders.setIfInBounds number s.block }
  MonadExcept.ofExcept result

/-- A machine can be asked for its state outside its builder; the answer does not depend on whom it is asked of. -/
def ongoing (number : Nat) (state : String) : Work Value := build 0 (Build.ongoing number state)

/-- Defers the renaming of domains. -/
def renameDomains (a : Nat) (e : Elaboratable) (mapping : List (String × String)) : Work Elaboratable := do
  let r ← Value.raise (Renamer.create a mapping)
  let number ← update fun w => w.addRenamer r
  return .treated e (.rename number)

def treat (f : Fragment) : Treatment → Work Fragment
  | .rename number => do
    let w ← get
    let (result, σ, r) := (w.renamers.getD number default).apply w.arenas f
    set { w with arenas := σ, renamers := w.renamers.setIfInBounds number r }
    MonadExcept.ofExcept result
  | .control kind controls => do Value.raise (f.insertControls (← arenas) kind controls)

end Work
end Rtl
