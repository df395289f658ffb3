import Rtl.Fragment.Basic
import Rtl.Text.Blank

/-!
The printed form of a fragment tree: a heading, then ports, domains, drivers and statements of each fragment, and
its children indented below. An instance shows its ports, parameters and bindings and nothing else.
-/
namespace Rtl.Fragment

def signLetter (s : Shape) : String := if s.isSigned then "s" else "u"

def portLines (σ : Arenas) (indent : String) (b : Body) : List String :=
  if b.ports.entries.isEmpty then []
  else (indent ++ "  ports:") :: b.ports.entries.map fun (n, dir) =>
    let shape := n.shape σ
    indent ++ "    " ++ dir.column ++ " " ++ n.label σ ++ " " ++ toString shape.width ++ "b" ++ signLetter shape

def domainFlags (cd : ClockDomain) : List String :=
  (if cd.asyncReset then ["async"] else []) ++ (if cd.negEdge then ["negedge"] else [])
    ++ (if cd.isLocal then ["local"] else [])

def domainLines (σ : Arenas) (indent : String) (b : Body) : List String :=
  if b.domains.isEmpty then []
  else (indent ++ "  domains:") :: b.domains.map fun cd =>
    let rst := match cd.rst with
      | some s => σ.name s
      | none => "-"
    let flags := domainFlags cd
    indent ++ "    " ++ Text.padRight 8 cd.name ++ " clk=" ++ σ.name cd.clk ++ " rst=" ++ rst
      ++ (if flags.isEmpty then "" else " " ++ ",".intercalate flags)

def driverLines (σ : Arenas) (indent : String) (b : Body) : List String :=
  if b.drivers.isEmpty then []
  else (indent ++ "  drivers:") :: b.drivers.map fun (d, s) =>
    indent ++ "    " ++ Text.padRight 8 (d ++ ":") ++ " " ++ " ".intercalate (s.items.map (Net.label σ))

def statementLines (σ : Arenas) (indent : String) (b : Body) : List String :=
  if b.statements.isEmpty then []
  else (indent ++ "  statements:") :: b.statements.map fun s => indent ++ "    " ++ s.text σ

def instanceLines (σ : Arenas) (indent : String) (i : Instance) : List String :=
  (i.params.map fun (name, p) => indent ++ "  param " ++ name ++ " = " ++ p.render σ)
    ++ i.ports.map fun p => indent ++ "  " ++ p.dir.column ++ " " ++ p.name ++ " = " ++ p.value.text σ

mutual

def lines (σ : Arenas) (indent name : String) : Fragment → List String
  | .node b children =>
    match b.cell with
    | some i =>
      (indent ++ "instance " ++ name ++ " " ++ i.cell) :: (portLines σ indent b ++ instanceLines σ indent i)
    | none =>
      (indent ++ "fragment " ++ name) ::
        (portLines σ indent b ++ domainLines σ indent b ++ driverLines σ indent b ++ statementLines σ indent b
          ++ childLines σ (indent ++ "  ") 0 children)

def childLines (σ : Arenas) (indent : String) (position : Nat) : List (String × Fragment) → List String
  | [] => []
  | (name, f) :: rest =>
    lines σ indent (childLabel position name) f ++ childLines σ indent (position + 1) rest

end

def dump (σ : Arenas) (f : Fragment) : List String := lines σ "" "top" f

def absentText : String := "<nil design>"

end Rtl.Fragment
