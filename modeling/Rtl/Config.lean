import Rtl.Fragment.Conflicts
import Rtl.Yaml.Schema

/-!
Configurations: how a design is prepared and checked. They are written in YAML with known keys only; what is left out
has a default, and what is given must be one of the values a field allows.
-/
namespace Rtl

structure Config where
  /-- The name of a conflict mode. -/
  conflicts : String
  /-- Whether a design without a default domain gets one. -/
  ensureSync : Option Bool
  diagFormat : String
  /-- The ports asked for; none stands for all that the design offers. -/
  ports : List String
  /-- Whether a prepared design is checked. -/
  check : Option Bool
  deriving DecidableEq, Repr

inductive ConfigError where
  /-- Not YAML, or not of the form of a configuration. -/
  | unreadable
  /-- A field has a value that it does not allow. -/
  | invalid
  /-- A mapping that brings in others has a collection as a key, which cannot be looked up. -/
  | collectionKey
  deriving DecidableEq, Repr

def ConfigError.message : ConfigError → String
  | .unreadable => "parse"
  | .invalid => "invalid configuration"
  | .collectionKey => "collection as a key"

namespace Config

def blank : Config := ⟨"", none, "", [], none⟩

def withDefaults (c : Config) : Config :=
  { c with
    conflicts := if c.conflicts = "" then ConflictMode.warn.name else c.conflicts
    ensureSync := some (c.ensureSync.getD true)
    diagFormat := if c.diagFormat = "" then "text" else c.diagFormat
    check := some (c.check.getD true) }

/-- The configuration of a run without a file. -/
def standard : Config := blank.withDefaults

def syncEnabled (c : Config) : Bool := c.ensureSync.getD true

def checkEnabled (c : Config) : Bool := c.check.getD true

/-- The names that a port may be asked for by. -/
def isPortName (s : String) : Bool :=
  match s.toList with
  | [] => false
  | c :: rest =>
    (c.isAlpha || c == '_') && rest.all fun c => c.isAlphanum || c == '_' || c == '$' || c == '.'

def isValid (c : Config) : Bool :=
  [ConflictMode.silent, .warn, .error].any (·.name = c.conflicts)
    && ["text", "json"].contains c.diagFormat
    && c.ports.all isPortName && c.ensureSync.isSome && c.check.isSome

def validate (c : Config) : Except ConfigError Unit := if c.isValid then .ok () else .error .invalid

end Config

namespace Yaml.Node

def sameKey : Node → Node → Bool
  | .scalar _ a, .scalar _ b => a = b
  | .sequence _, .sequence _ => true
  | .mapping _, .mapping _ => true
  | .alias a _, .alias b _ => a = b
  | _, _ => false

def hasRepeatedKey : List (Node × Node) → Bool
  | [] => false
  | (k, _) :: rest => rest.any (fun e => sameKey k e.1) || hasRepeatedKey rest

/-- Whether an entry brings in the entries of another mapping. -/
def isMerge : Node → Bool
  | .scalar tag "<<" => tag = "" || tag = "!!merge"
  | _ => false

def merged? (entries : List (Node × Node)) : Option Node := (entries.find? (·.1.isMerge)).map Prod.snd

def entries? : Node → Option (List (Node × Node))
  | .mapping entries => some entries
  | .alias _ (some (.mapping entries)) => some entries
  | _ => none

def mergeSources? : Node → Option (List (List (Node × Node)))
  | .sequence items => items.mapM entries?
  | n => do return [← n.entries?]

inductive KeyShape where
  | plain
  | collection
  /-- A mapping with a repeated key, which is passed over. -/
  | refused
  deriving DecidableEq

/-- Reads a node that is used as a key, or stands in one. A collection as a key cannot be looked up; it is found to be
one where keys are looked up, that is in the outermost mappings of a merge, and is unreadable deeper down. -/
def keyShape : Nat → Bool → Node → Except ConfigError KeyShape
  | 0, _, _ => .error .unreadable
  | fuel + 1, looksUp, n =>
    match n with
    | .scalar tag text => if (datum? tag text).isSome then .ok .plain else .error .unreadable
    | .alias _ none => .error .unreadable
    | .alias _ (some target) => keyShape fuel looksUp target
    | .sequence items => do
      items.forM fun item => do let _ ← keyShape fuel looksUp item
      return .collection
    | .mapping entries => do
      if hasRepeatedKey entries then return .refused
      else
        entries.forM fun (k, v) => do
          if k.isMerge then return
          match ← keyShape fuel false k with
          | .plain => let _ ← keyShape fuel false v
          | .refused => return
          | .collection => throw (if looksUp then .collectionKey else .unreadable)
        match merged? entries with
        | none => return .collection
        | some m =>
          match mergeSources? m with
          | none => throw .unreadable
          | some sources =>
            sources.forM fun entries => do let _ ← keyShape fuel true (.mapping entries)
            return .collection

end Yaml.Node

namespace Config

structure Reading where
  config : Config
  /-- The fields that are given. -/
  given : List String
  /-- Whether something was refused; reading goes on to see whether it can go on at all. -/
  refused : Bool

abbrev Read := StateT Reading (Except ConfigError)

namespace Read

def refuse : Read Unit := modify fun r => { r with refused := true }

/-- The datum of a scalar. A text that does not fit its tag cannot be read. -/
def datum (tag text : String) : Read Yaml.Datum :=
  match Yaml.datum? tag text with
  | some d => return d
  | none => throw .unreadable

def target (n : Yaml.Node) : Option Yaml.Node :=
  match n with
  | .alias _ t => t
  | n => some n

/-- The text of any scalar, unless it is null. -/
def text (n : Yaml.Node) : Read (Option String) := do
  match target n with
  | some (.scalar tag text) =>
    match ← datum tag text with
    | .null => return none
    | .text s | .other s => return some s
    | .flag _ => return some text
  | _ =>
    refuse
    return none

/-- A truth value, unless it is null. -/
def flag (n : Yaml.Node) : Read (Option Bool) := do
  match target n with
  | some (.scalar tag text) =>
    match ← datum tag text with
    | .null => return none
    | .flag b => return some b
    | .text s =>
      let b := Yaml.truthWord? s
      if b.isNone then refuse
      return b
    | .other _ =>
      refuse
      return none
  | _ =>
    refuse
    return none

/-- A list of texts, without its nulls. A null is an empty list. -/
def texts (n : Yaml.Node) : Read (List String) := do
  match target n with
  | some (.sequence items) => return (← items.mapM text).filterMap id
  | some (.scalar tag text) =>
    if (← datum tag text) != .null then refuse
    return []
  | _ =>
    refuse
    return []

def setConfig (f : Config → Config) : Read Unit := modify fun r => { r with config := f r.config }

/-- Sets a field. A null leaves it as it is. -/
def field (name : String) (v : Yaml.Node) : Read Unit := do
  match name with
  | "conflicts" =>
    let s ← text v
    setConfig fun c => { c with conflicts := s.getD c.conflicts }
  | "ensure_sync" =>
    let b ← flag v
    setConfig fun c => { c with ensureSync := b }
  | "diag_format" =>
    let s ← text v
    setConfig fun c => { c with diagFormat := s.getD c.diagFormat }
  | "ports" =>
    let names ← texts v
    setConfig fun c => { c with ports := names }
  | "check" =>
    let b ← flag v
    setConfig fun c => { c with check := b }
  | _ => refuse

/-- Sets the fields of a mapping. A field that is given already is passed over if it is brought in, and refused
otherwise; an entry whose key is null counts for nothing. -/
def fields (isBroughtIn : Bool) (entries : List (Yaml.Node × Yaml.Node)) : Read Unit :=
  entries.forM fun (k, v) => do
    if k.isMerge then return
    match ← text k with
    | none => return
    | some name =>
      if (← get).given.contains name then
        if !isBroughtIn then refuse
      else
        modify fun r => { r with given := name :: r.given }
        field name v

/-- Brings in the fields of other mappings, and of those that they bring in. -/
def merge : Nat → Yaml.Node → Read Unit
  | 0, _ => throw .unreadable
  | fuel + 1, n =>
    match n.mergeSources? with
    | none => throw .unreadable
    | some sources => sources.forM fun entries => do
      if Yaml.Node.hasRepeatedKey entries then refuse
      else
        fields true entries
        match Yaml.Node.merged? entries with
        | some m => merge fuel m
        | none => return

/-- Reads the fields of a document whose nodes are at most `fuel` deep. -/
def document (fuel : Nat) (n : Yaml.Node) : Read Unit := do
  match n with
  | .mapping entries =>
    if Yaml.Node.hasRepeatedKey entries then refuse
    else
      fields false entries
      match Yaml.Node.merged? entries with
      | none => return
      | some m =>
        entries.forM fun (k, _) => do
          if (← Yaml.Node.keyShape fuel true k) = .collection then throw .collectionKey
        merge fuel m
  | .scalar tag text => if (← datum tag text) != .null then refuse
  | _ => refuse

end Read

def ofNode (fuel : Nat) (n : Yaml.Node) : Except ConfigError Config := do
  let ((), r) ← (Read.document fuel n).run ⟨blank, [], false⟩
  if r.refused then throw .unreadable else return r.config

/-- Reads a configuration, fills in what is left out and validates it. -/
def parse (text : String) : Except ConfigError Config := do
  match Yaml.Node.parse? text with
  | none => throw .unreadable
  | some doc =>
    let c := (← ofNode (text.length + 8) (doc.getD .absent)).withDefaults
    c.validate
    return c

end Config
end Rtl
