import Rtl.Error
import Rtl.Json

/-!
Diagnostics: messages with a severity and an optional source location, and the reporter that collects them and
writes each one as a line of text or of JSON.
-/
namespace Rtl

inductive Severity where
  | warning
  | error
  deriving DecidableEq, Repr

def Severity.text : Severity → String
  | .warning => "warning"
  | .error => "error"

/-- A source line. A location without a file is unknown. -/
structure Location where
  file : String
  line : Int
  deriving DecidableEq, Repr

/-- The last component of a path, without trailing separators: `.` of the empty path, `/` of separators alone. -/
def baseName (path : String) : String :=
  let cs := path.toList
  let trimmed := (cs.reverse.dropWhile (· == '/')).reverse
  if cs.isEmpty then "."
  else if trimmed.isEmpty then "/"
  else String.ofList (trimmed.reverse.takeWhile (· != '/')).reverse

namespace Location

def unknown : Location := ⟨"", 0⟩

def isKnown (l : Location) : Bool := l.file != ""

def text (l : Location) : String :=
  if l.isKnown then baseName l.file ++ ":" ++ toString l.line else "<unknown>"

def located (l : Location) (message : String) : String :=
  if l.isKnown then l.text ++ ": " ++ message else message

end Location

def Failure.messageAt (l : Location) (f : Failure) : String :=
  match f.cause with
  | .design e => String.join (f.contexts.map (· ++ ": ")) ++ l.located e.message
  | _ => f.message

structure Diagnostic where
  severity : Severity
  location : Location
  message : String
  deriving DecidableEq, Repr

def Diagnostic.text (d : Diagnostic) : String :=
  d.location.located (d.severity.text ++ ": " ++ d.message)

/-- One object per line; an empty file and a zero line are left out of the location. -/
def Diagnostic.json (d : Diagnostic) : String :=
  let file : List (String × Json) := if d.location.file == "" then [] else [("file", .str d.location.file)]
  let line : List (String × Json) := if d.location.line == 0 then [] else [("line", .int d.location.line)]
  (Json.obj [("severity", .str d.severity.text), ("loc", .obj (file ++ line)), ("message", .str d.message)]).render

inductive ReportFormat where
  | text
  | json
  deriving DecidableEq, Repr

/-- Anything but `json` is text. -/
def ReportFormat.ofName (name : String) : ReportFormat := if name == "json" then .json else .text

def ReportFormat.line (f : ReportFormat) (d : Diagnostic) : String :=
  match f with
  | .text => d.text
  | .json => d.json

structure Reporter where
  recorded : List Diagnostic
  deriving DecidableEq, Repr, Inhabited

namespace Reporter

def empty : Reporter := ⟨[]⟩

def report (r : Reporter) (d : Diagnostic) : Reporter := ⟨r.recorded ++ [d]⟩

def count (r : Reporter) (s : Severity) : Nat := r.recorded.countP (·.severity = s)

def hasErrors (r : Reporter) : Bool := 0 < r.count .error

def lines (r : Reporter) (f : ReportFormat) : List String := r.recorded.map f.line

end Reporter
end Rtl
