import Rtl.Domain
import Rtl.Fragment.Instance

/-!
Fragments: the tree of hardware blocks. The body of a fragment holds its ports, its drivers by domain in order of
first use, its statements, the clock domains it knows in order of registration, and its cell if it is an instance.
Children are named or, with an empty name, anonymous.
-/
namespace Rtl

structure Body where
  ports : NetTable Direction
  statements : List Statement
  drivers : List (String × NetSet)
  domains : List ClockDomain
  /-- State machines by name. -/
  generated : List (String × Nat)
  attrs : List (String × String)
  /-- Asks to be merged into the parent. -/
  flatten : Bool
  cell : Option Instance
  deriving Inhabited

inductive Fragment where
  | node (body : Body) (children : List (String × Fragment))
  deriving Inhabited

namespace Body

def empty : Body := ⟨.empty, [], [], [], [], [], false, none⟩

def isInstance (b : Body) : Bool := b.cell.isSome

def addPort (b : Body) (dir : Direction) (n : Net) : Body := { b with ports := b.ports.set n dir }

def addPorts (b : Body) (dir : Direction) (ns : List Net) : Body := ns.foldl (fun b n => b.addPort dir n) b

def portsOf (b : Body) (dir : Direction) : NetSet :=
  ⟨(b.ports.entries.filter (·.2 = dir)).map Prod.fst⟩

def insertDriver (domain : String) (ns : List Net) : List (String × NetSet) → List (String × NetSet)
  | [] => [(domain, NetSet.ofList ns)]
  | (d, s) :: rest => if d = domain then (d, s.insertAll ns) :: rest else (d, s) :: insertDriver domain ns rest

/-- Records that nets are driven in a domain; with no nets, only that the domain is used. -/
def addDrivers (b : Body) (domain : String) (ns : List Net) : Body :=
  { b with drivers := insertDriver domain ns b.drivers }

def addDriver (b : Body) (domain : String) (n : Net) : Body := b.addDrivers domain [n]

def driverDomains (b : Body) : List String := b.drivers.map Prod.fst

def driversOf (b : Body) (domain : String) : NetSet :=
  match b.drivers.find? (·.1 = domain) with
  | some (_, s) => s
  | none => .empty

/-- Every driven net with its domain, domain by domain. -/
def driverPairs (b : Body) : List (String × Net) :=
  b.drivers.flatMap fun d => d.2.items.map fun n => (d.1, n)

/-- The driven nets of the clocked domains. -/
def syncPairs (b : Body) : List (String × Net) := b.driverPairs.filter (·.1 ≠ combDomain)

/-- The ports, then the driven nets, each once. -/
def signals (b : Body) : NetSet := (⟨b.ports.keys⟩ : NetSet).insertAll (b.driverPairs.map Prod.snd)

def domain? (b : Body) (name : String) : Option ClockDomain := b.domains.find? (·.name = name)

/-- Registers a domain. The record registered under the name already may be given again; another may not. -/
def addDomain (b : Body) (cd : ClockDomain) : Except DesignError Body :=
  match b.domain? cd.name with
  | some old => if old.id = cd.id then .ok b else .error (.name (.domainExists cd.name))
  | none => .ok { b with domains := b.domains ++ [cd] }

/-- Registers domains one after the other, up to the first that is refused. -/
def addDomains (b : Body) : List ClockDomain → Body × Option DesignError
  | [] => (b, none)
  | cd :: rest =>
    match b.addDomain cd with
    | .ok b => b.addDomains rest
    | .error e => (b, some e)

def addStatements (b : Body) (stmts : List Statement) : Body := { b with statements := b.statements ++ stmts }

/-- Adds statements and makes the nets that each writes drivers of the domain. -/
def drive (σ : Arenas) (domain : String) (b : Body) : List Statement → Body × Option DesignError
  | [] => (b, none)
  | s :: rest =>
    let b := b.addStatements [s]
    match s.assigned σ with
    | .error e => (b, some e)
    | .ok ns =>
      let b := if ns.items.isEmpty then b else b.addDrivers domain ns.items
      drive σ domain b rest

/-- Records values as ports, up to the first that is no net. -/
def addPortValues (σ : Arenas) (dir : Direction) (b : Body) : List Value → Body × Option Failure
  | [] => (b, none)
  | v :: rest =>
    match v.asNet σ with
    | .error e => (b, some e)
    | .ok n => addPortValues σ dir (b.addPort dir n) rest

/-- Records a value as driven. The domain counts as used even when the value is no net. -/
def addDriverValue (σ : Arenas) (domain : String) (b : Body) (v : Value) : Body × Option Failure :=
  match v.asNet σ with
  | .error e => (b.addDrivers domain [], some e)
  | .ok n => (b.addDriver domain n, none)

/-- The domain records of the clocked domains that drive something. -/
def drivenDomains (b : Body) : List ClockDomain :=
  (b.driverDomains.filter (· ≠ combDomain)).filterMap b.domain?

end Body

/-- The path component of a child: its name, or its position when it has none. -/
def childLabel (position : Nat) (name : String) : String :=
  if name = "" then s!"<unnamed #{position}>" else name

/-- Reads a decimal integer with an optional sign, as far as it fits a 64-bit word. -/
def wordOfText? (s : String) : Option Int :=
  let (negative, ds) := match s.toList with
    | '-' :: ds => (true, ds)
    | '+' :: ds => (false, ds)
    | ds => (false, ds)
  if ds.isEmpty || !ds.all Char.isDigit then none
  else
    let n : Int := ds.foldl (fun n c => n * 10 + (c.toNat - '0'.toNat)) (0 : Nat)
    let n := if negative then -n else n
    if wrap n = n then some n else none

/-- The position of the child that `query` names: `#` and a number, or a name that is not empty. -/
def findChild (names : List String) (query : String) : Except DesignError Nat :=
  let byName : Except DesignError Nat :=
    match names.findIdx? fun n => n ≠ "" ∧ n = query with
    | some i => .ok i
    | none => .error (.name (.noSubfragment query))
  match query.toList with
  | '#' :: c :: rest =>
    match wordOfText? (String.ofList (c :: rest)) with
    | some i =>
      if i < 0 || (names.length : Int) ≤ i then .error (.name (.noSubfragmentAt i)) else .ok i.toNat
    | none => byName
  | _ => byName

namespace Fragment

def body : Fragment → Body
  | .node b _ => b

def children : Fragment → List (String × Fragment)
  | .node _ cs => cs

def leaf (b : Body) : Fragment := .node b []

mutual

def count : Fragment → Nat
  | .node _ children => 1 + countAll children

def countAll : List (String × Fragment) → Nat
  | [] => 0
  | (_, f) :: rest => count f + countAll rest

end

mutual

/-- The bodies of all fragments, parents first. -/
def bodies : Fragment → List Body
  | .node b children => b :: bodiesAll children

def bodiesAll : List (String × Fragment) → List Body
  | [] => []
  | (_, f) :: rest => bodies f ++ bodiesAll rest

end

/-- The state machine at the end of a path of children. -/
def findGenerated : List String → Fragment → Except DesignError Nat
  | [], _ => .error (.name .emptyGeneratedPath)
  | [name], f =>
    match f.body.generated.find? (·.1 = name) with
    | some (_, machine) => .ok machine
    | none => .error (.name (.noGenerated name))
  | child :: rest, f => do
    let i ← findChild (f.children.map Prod.fst) child
    match f.children[i]? with
    | some (_, sub) => findGenerated rest sub
    | none => .error (.name (.noSubfragment child))

end Fragment
end Rtl
