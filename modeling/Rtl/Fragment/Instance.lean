import Rtl.Memory
import Rtl.Statement.Basic

/-!
Instances: opaque cells with parameters and bound ports. A port that the cell drives is bound to something that can
be assigned to.
-/
namespace Rtl

inductive Direction where
  | input
  | output
  | inout
  deriving DecidableEq, Repr, Inhabited

def Direction.code : Direction → String
  | .input => "i"
  | .output => "o"
  | .inout => "io"

def Direction.all : List Direction := [.input, .output, .inout]

/-- The short name of the direction with a number; `?` beyond the last. -/
def Direction.codeAt (n : Int) : String :=
  if n < 0 then "?"
  else match Direction.all[n.toNat]? with
    | some d => d.code
    | none => "?"

def Direction.ofCode? (code : String) : Option Direction := Direction.all.find? (·.code = code)

/-- The direction as a column of a printed fragment. -/
def Direction.column : Direction → String
  | .input => "in "
  | .output => "out"
  | .inout => "io "

inductive Param where
  | int (n : Int)
  | float (x : Float)
  | text (s : String)
  | flag (b : Bool)
  | absent
  | list (items : List Param)
  | memory (m : Memory)
  | value (v : Value)
  deriving Inhabited

namespace Param

mutual

/-- The text of a parameter inside a list. -/
def plainText (σ : Arenas) : Param → String
  | .int n => toString n
  | .float x => Text.floatText x
  | .text s => s
  | .flag b => if b then "true" else "false"
  | .absent => "<nil>"
  | .list items => "[" ++ " ".intercalate (plainTexts σ items) ++ "]"
  | .memory m => m.text
  | .value v => v.text σ

def plainTexts (σ : Arenas) : List Param → List String
  | [] => []
  | p :: rest => plainText σ p :: plainTexts σ rest

end

/-- The text of a parameter: a memory by its name, a flag as a bit. -/
def render (σ : Arenas) : Param → String
  | .memory m => m.name
  | .flag b => if b then "1" else "0"
  | p => p.plainText σ

end Param

structure Binding where
  name : String
  value : Value
  dir : Direction
  deriving Inhabited

structure Instance where
  cell : String
  params : List (String × Param)
  ports : List Binding
  deriving Inhabited

namespace Instance

def ofCell (cell : String) : Instance := ⟨cell, [], []⟩

/-- Sets a parameter, replacing one of the same name in its place. -/
def setParam (i : Instance) (name : String) (p : Param) : Instance :=
  { i with params := setAttr name p i.params }

/-- Binds a port. The value is cast, then checked to be assignable unless the port is an input, and only then is
the name looked at. -/
def bind (σ : Arenas) (i : Instance) (dir : Direction) (name : String) (x : Operand) :
    Except DesignError Instance := do
  let v ← x.cast
  if dir ≠ .input then
    let _ ← v.assigned σ
  if i.ports.any (·.name = name) then throw (.name (.portBoundTwice name))
  else return { i with ports := i.ports ++ [⟨name, v, dir⟩] }

/-- A cell with parameters and bound ports. -/
def create (σ : Arenas) (cell : String) (params : List (String × Param)) (ports : List (Direction × String × Operand)) :
    Except DesignError Instance :=
  ports.foldlM (fun i (dir, name, x) => i.bind σ dir name x)
    (params.foldl (fun i (name, p) => i.setParam name p) (ofCell cell))

def param? (i : Instance) (name : String) : Option Param :=
  (i.params.find? (·.1 = name)).map Prod.snd

def port? (i : Instance) (name : String) : Option Binding := i.ports.find? (·.name = name)

def readCell : String := "$memrd"

def writeCell : String := "$memwr"

/-- The memory that a memory port cell accesses. -/
def memory? (i : Instance) : Option Memory :=
  if i.cell = readCell ∨ i.cell = writeCell then
    match i.param? "MEMID" with
    | some (.memory m) => some m
    | _ => none
  else none

/-- The nets the cell reads through its ports of any direction. -/
def reads (i : Instance) : NetSet := i.ports.foldl (fun acc p => acc.union p.value.reads) .empty

end Instance
end Rtl
