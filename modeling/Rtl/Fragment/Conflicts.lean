import Rtl.Fragment.Basic

/-!
Resolving hierarchy conflicts. No net may be driven from, and no memory accessed from, more than one fragment: the
children that take part in a conflict are merged into their parent, and so are those that ask to be. Merging is
repeated until nothing is left to merge. In error mode the first conflict is an error instead.
-/
namespace Rtl

inductive ConflictMode where
  | warn
  | silent
  | error
  deriving DecidableEq, Repr

namespace ConflictMode

def name : ConflictMode → String
  | .warn => "warn"
  | .silent => "silent"
  | .error => "error"

def number : ConflictMode → Nat
  | .warn => 0
  | .silent => 1
  | .error => 2

/-- Reads a mode; the empty name is the default, to warn. -/
def ofName? : String → Option ConflictMode
  | "warn" | "" => some .warn
  | "silent" => some .silent
  | "error" => some .error
  | _ => none

def ofName (s : String) : Except Failure ConflictMode :=
  match ofName? s with
  | some m => .ok m
  | none => .error (.plain ("unknown conflict mode " ++ Text.quote s))

/-- The conflict to fail with. -/
def refused? : ConflictMode → List ConflictError → Option ConflictError
  | .error, e :: _ => some e
  | _, _ => none

end ConflictMode

/-- Who drives or accesses something: a child by position, or the fragment itself. -/
structure Holder where
  child : Option Nat
  path : String
  deriving DecidableEq, Repr

/-- A net or a memory with its holders, under the label it was first met with. -/
structure Held (α : Type) where
  item : α
  label : String
  holders : List Holder

namespace Held

variable {α : Type}

/-- Adds a holder, unless the same fragment holds the item already. -/
def addHolder (c : Holder) (e : Held α) : Held α :=
  if e.holders.any (·.child = c.child) then e else { e with holders := e.holders ++ [c] }

def isConflict (e : Held α) : Bool := e.holders.length ≠ 1

def paths (e : Held α) : List String :=
  (e.holders.map (·.path)).mergeSort fun a b => decide (a ≤ b)

def involved (entries : List (Held α)) : List Nat :=
  (entries.filter isConflict).flatMap fun e => e.holders.filterMap (·.child)

end Held

/-- The nets and memories met so far with their holders, in order of first meeting. -/
structure Ledger where
  nets : List (Held Net)
  memories : List (Held Memory)

namespace Ledger

def empty : Ledger := ⟨[], []⟩

def addNetTo (σ : Arenas) (c : Holder) (n : Net) : List (Held Net) → List (Held Net)
  | [] => [⟨n, n.label σ, [c]⟩]
  | e :: rest => if e.item.key = n.key then e.addHolder c :: rest else e :: addNetTo σ c n rest

/-- A memory is known by its number; the record met last is kept. -/
def addMemoryTo (c : Holder) (m : Memory) : List (Held Memory) → List (Held Memory)
  | [] => [⟨m, m.name, [c]⟩]
  | e :: rest =>
    if e.item.id = m.id then { e.addHolder c with item := m } :: rest else e :: addMemoryTo c m rest

def addNets (σ : Arenas) (c : Holder) (l : Ledger) (ns : List Net) : Ledger :=
  { l with nets := ns.foldl (fun es n => addNetTo σ c n es) l.nets }

def addMemories (c : Holder) (l : Ledger) (ms : List Memory) : Ledger :=
  { l with memories := ms.foldl (fun es m => addMemoryTo c m es) l.memories }

def reports (l : Ledger) : List ConflictError :=
  ((l.nets.filter Held.isConflict).map fun e => .manyFragments "Signal" e.label "driven" e.paths)
    ++ (l.memories.filter Held.isConflict).map fun e => .manyFragments "Memory" e.label "accessed" e.paths

/-- The children that take part in conflicts, in order of first mention. -/
def involved (l : Ledger) : List Nat := Held.involved l.nets ++ Held.involved l.memories

end Ledger

namespace Body

/-- The signal behind a reference to a domain that the fragment knows. -/
def resolveNet (b : Body) : Net → Net
  | .signal id => .signal id
  | .clock d =>
    match b.domain? d with
    | some cd => .signal cd.clk
    | none => .clock d
  | .reset d allow =>
    match b.domain? d with
    | some cd =>
      match cd.rst with
      | some rst => .signal rst
      | none => .reset d allow
    | none => .reset d allow

/-- Takes over ports, drivers and statements of a child. -/
def merge (b sub : Body) : Body :=
  let b := sub.ports.entries.foldl (fun b e => b.addPort e.2 e.1) b
  let b := sub.driverPairs.foldl (fun b e => b.addDriver e.1 e.2) b
  b.addStatements sub.statements

end Body

namespace Fragment

/-- A resolved tree with what it drives and accesses, and the conflicts met on the way. -/
structure Resolution where
  fragment : Fragment
  nets : List Net
  memories : List Memory
  conflicts : List ConflictError

def flattened (position : Nat) : List (String × Fragment) → List Nat
  | [] => []
  | (_, f) :: rest => (if f.body.flatten then [position] else []) ++ flattened (position + 1) rest

/-- The children at the positions, in order of their labels. -/
def byLabel (children : List (String × Fragment)) (positions : List Nat) : List Fragment :=
  let chosen := positions.filterMap fun i => children[i]?.map fun c => (childLabel i c.1, c.2)
  (chosen.mergeSort fun a b => decide (a.1 ≤ b.1)).map Prod.snd

def without (positions : List Nat) (position : Nat) : List (String × Fragment) → List (String × Fragment)
  | [] => []
  | c :: rest =>
    if positions.contains position then without positions (position + 1) rest
    else c :: without positions (position + 1) rest

/-- Merges children into their parent. Their own children become its last ones. -/
def mergeChildren (b : Body) (children : List (String × Fragment)) (positions : List Nat) : Fragment :=
  let merged := byLabel children positions
  .node (merged.foldl (fun b f => b.merge f.body) b)
    (without positions 0 children ++ merged.flatMap Fragment.children)

structure Survey where
  ledger : Ledger
  children : List (String × Fragment)
  conflicts : List ConflictError

/-- The children to merge: those that ask for it and those that take part in conflicts. -/
def Survey.positions (s : Survey) : List Nat := (flattened 0 s.children ++ s.ledger.involved).eraseDups

/-- The outcome where nothing is left to merge. -/
def Survey.resolution (b : Body) (s : Survey) : Resolution :=
  ⟨.node b s.children, s.ledger.nets.map (·.item), s.ledger.memories.map (·.item), s.conflicts ++ s.ledger.reports⟩

/-- Enters what one child drives and accesses. A cell is no fragment of its own: its memory is accessed by the
fragment that holds it. -/
def surveyChild (resolve : List String → Fragment → Except Failure Resolution) (σ : Arenas) (b : Body)
    (path : List String) (s : Survey) (position : Nat) (name : String) (f : Fragment) :
    Except Failure Survey :=
  match f.body.cell with
  | some i =>
    .ok { s with
      ledger := s.ledger.addMemories ⟨none, ".".intercalate path⟩ i.memory?.toList
      children := s.children ++ [(name, f)] }
  | none => do
    let sub := path ++ [childLabel position name]
    let r ← resolve sub f
    let c : Holder := ⟨some position, ".".intercalate sub⟩
    return {
      ledger := (s.ledger.addNets σ c (r.nets.map b.resolveNet)).addMemories c r.memories
      children := s.children ++ [(name, r.fragment)]
      conflicts := s.conflicts ++ r.conflicts }

def surveyChildren (resolve : List String → Fragment → Except Failure Resolution) (σ : Arenas) (b : Body)
    (path : List String) (s : Survey) (position : Nat) :
    List (String × Fragment) → Except Failure Survey
  | [] => .ok s
  | (name, f) :: rest => do
    let s ← surveyChild resolve σ b path s position name f
    surveyChildren resolve σ b path s (position + 1) rest

/-- Resolves a tree with at most `fuel` fragments; a larger one may run out of fuel, which is a fault. -/
def resolveWith (σ : Arenas) (mode : ConflictMode) : Nat → List String → Fragment → Except Failure Resolution
  | 0, _, _ => .error .fault
  | fuel + 1, path, .node b children => do
    let own : Holder := ⟨none, ".".intercalate path⟩
    let start := Ledger.empty.addNets σ own (b.driverPairs.map fun e => b.resolveNet e.2)
    let s ← surveyChildren (resolveWith σ mode fuel) σ b path ⟨start, [], []⟩ 0 children
    match mode.refused? s.ledger.reports with
    | some e => throw (.design (.conflict e))
    | none =>
      if s.positions.isEmpty then return s.resolution b
      else
        let r ← resolveWith σ mode fuel path (mergeChildren b s.children s.positions)
        return { r with conflicts := s.conflicts ++ s.ledger.reports ++ r.conflicts }

def resolveConflicts (σ : Arenas) (mode : ConflictMode) (f : Fragment) : Except Failure Resolution :=
  resolveWith σ mode f.count ["top"] f

end Fragment

def ConflictError.warning (e : ConflictError) : String := e.message ++ "; hierarchy will be flattened"

/-- What a mode reports of the conflicts it resolves. -/
def ConflictMode.warnings (mode : ConflictMode) (conflicts : List ConflictError) : List String :=
  match mode with
  | .warn => conflicts.map ConflictError.warning
  | .silent | .error => []

end Rtl
