import Rtl.Shape
import Rtl.Text.Quoted

/-!
Errors of design construction. Each is a cause with its own data; the wording is in `message` alone. Values and
nets appear by the text they had when the error arose.
-/
namespace Rtl

open Text (quote)

/-- Binary digits of an integer, with a minus sign where needed. -/
def binaryText (n : Int) : String :=
  (if n < 0 then "-" else "") ++ String.ofList (Nat.toDigits 2 n.natAbs)

/-- Malformed widths, signedness or operand counts. -/
inductive ShapeError where
  | negativeWidth (width : Int)
  | notPowerOfTwo (n : Int)
  | notConvertible (object type : String)
  | negativeConstant (value : Int) (shape : Shape)
  | negativeReset (value : Int) (signal : String)
  | unknownOperator (symbol : String)
  | operandCount (symbol : String) (count : Nat)
  | operatorArity (symbol : String) (count : Nat)
  | shiftTooWide (width : Int)
  | bitIndex (index width : Int)
  | sliceStart (start width : Int)
  | sliceEnd (stop start width : Int)
  | partWidth (width : Int)
  | partStride (stride : Int)
  | partOffsetSigned
  | repetition (count : Int)
  | notSampled (value : String)
  | futureSample (clocks : Int)
  | notAssignable (value : String)
  | widePattern (key width : Int)
  | arrayIndex (index : Int) (length : Nat)
  | emptyArray
  | memoryWidth (width : Int)
  | memoryDepth (depth : Int)
  | memoryInit (count : Nat) (depth : Int)
  | granularity (bits : Int)
  | granularityDivides (width bits : Int)
  | other (text : String)

/-- Misuse of the statement builder and of patterns. -/
inductive SyntaxError where
  | patternBits (pattern : String)
  | patternWidth (pattern : String) (width : Int)
  | patternType (type : String)
  | outside (construct wanted : String)
  | directlyInside (construct context arm : String)
  | elifAlone
  | elseAlone
  | statementKind (domain : String)
  | absentSubmodule
  | nextOutsideState
  | asynchronousOpaqueRead
  | other (text : String)

/-- Duplicate and undefined names. -/
inductive NameError where
  | domainExists (name : String)
  | noSubfragmentAt (index : Int)
  | noSubfragment (name : String)
  | emptyGeneratedPath
  | noGenerated (name : String)
  | portBoundTwice (name : String)
  | submoduleExists (name : String)
  | noSubmodule (name : String)
  | stateUndefined (name : String)
  | stateExists (name : String)
  | other (text : String)

/-- A signal or memory driven from more than one place. -/
inductive ConflictError where
  | twoDomains (net domain current : String)
  | manyFragments (kind label verb : String) (paths : List String)
  | other (text : String)

/-- Clock domains that cannot be defined or resolved. -/
inductive DomainError where
  | unnamed
  | combClocked
  | combClock
  | combReset
  | combSample
  | combRenamed (name : String)
  | renamedToComb (source target : String)
  | nonexistent (net domain : String)
  | resetlessReset (net domain : String)
  | undefined (domain : String)
  | sampleDomain (sample : String)
  | anonymousDefiners (domain : String) (labels : List String) (path : String)
  | ambiguousDefiners (domain : String) (labels : List String) (path : String)
  | definedByParent (domain path child : String)
  | differsFromParent (domain child : String)
  | asynchronousWrite
  | combMachine (domain : String)
  | other (text : String)

def conflictText (kind label verb : String) (paths : List String) : String :=
  kind ++ " '" ++ label ++ "' is " ++ verb ++ " from multiple fragments: " ++ ", ".intercalate paths

def ShapeError.message : ShapeError → String
  | .negativeWidth w => s!"width must be a non-negative integer, not {w}"
  | .notPowerOfTwo n => s!"argument must be a power of 2, not {n}"
  | .notConvertible object type => s!"object {object} of type {type} cannot be converted to a value"
  | .negativeConstant v s => s!"negative constant {v} requires a signed shape, not " ++ s.text
  | .negativeReset v signal => s!"reset value {v} of signal " ++ quote signal ++ " requires a signed shape"
  | .unknownOperator op => "unknown operator " ++ quote op
  | .operandCount op n =>
    "operator " ++ quote op ++ s!" applied to {n} operands; only 1, 2 or 3 are supported"
  | .operatorArity op n => "operator " ++ quote op ++ s!" cannot be applied to {n} operands"
  | .shiftTooWide w => s!"shift amount of width {w} is too wide"
  | .bitIndex i w => s!"index {i} is out of range for value of width {w}"
  | .sliceStart start w => s!"slice start {start} must be within [0, {w}]"
  | .sliceEnd stop start w => s!"slice end {stop} must be within [{start}, {w}]"
  | .partWidth w => s!"part width must be a non-negative integer, not {w}"
  | .partStride s => s!"part stride must be a positive integer, not {s}"
  | .partOffsetSigned => "part offset must be unsigned"
  | .repetition n => s!"replication count must be a non-negative integer, not {n}"
  | .notSampled v => "sampled value must be a signal or a constant, not " ++ v
  | .futureSample n => s!"cannot sample a value {n} cycles in the future"
  | .notAssignable v => "value " ++ v ++ " cannot be used in assignments"
  | .widePattern key w => "pattern " ++ binaryText key ++ s!" is wider than {w} bits"
  | .arrayIndex i n => s!"array index {i} is out of range for array of length {n}"
  | .emptyArray => "cannot index an empty array"
  | .memoryWidth w => s!"memory width must be a non-negative integer, not {w}"
  | .memoryDepth d => s!"memory depth must be a non-negative integer, not {d}"
  | .memoryInit n d => s!"memory initialization value count exceeds memory depth ({n} > {d})"
  | .granularity bits => s!"write port granularity must be a positive integer, not {bits}"
  | .granularityDivides w bits =>
    s!"write port granularity must divide memory width ({w} % {bits} != 0)"
  | .other text => text

def SyntaxError.message : SyntaxError → String
  | .patternBits p => "pattern " ++ quote p ++ " must consist of 0, 1 and - (don't care) bits"
  | .patternWidth p w =>
    "pattern " ++ quote p ++ s!" must have the same width as the matched value (which is {w})"
  | .patternType type => "pattern must be a string or an integer, not " ++ type
  | .outside construct wanted => construct ++ " is not permitted outside of " ++ wanted
  | .directlyInside construct context arm =>
    construct ++ " is not permitted directly inside of " ++ context ++ "; it is permitted inside of "
      ++ context ++ " " ++ arm
  | .elifAlone => "Elif without preceding If"
  | .elseAlone => "Else without preceding If/Elif"
  | .statementKind domain => "only assignments and property checks may be added to domain " ++ quote domain
  | .absentSubmodule => "trying to add a nil submodule"
  | .nextOutsideState => "Next is only permitted inside an FSM state"
  | .asynchronousOpaqueRead => "read port cannot be simultaneously asynchronous and non-transparent"
  | .other text => text

def NameError.message : NameError → String
  | .domainExists name => "clock domain named '" ++ name ++ "' already exists"
  | .noSubfragmentAt i => s!"no subfragment at index #{i}"
  | .noSubfragment name => "no subfragment with name '" ++ name ++ "'"
  | .emptyGeneratedPath => "empty generated object path"
  | .noGenerated name => "no generated object named '" ++ name ++ "'"
  | .portBoundTwice name => "instance port '" ++ name ++ "' is bound twice"
  | .submoduleExists name => "submodule named '" ++ name ++ "' already exists"
  | .noSubmodule name => "no submodule named '" ++ name ++ "' exists"
  | .stateUndefined name => "FSM state '" ++ name ++ "' is referenced but not defined"
  | .stateExists name => "FSM state '" ++ name ++ "' is already defined"
  | .other text => text

def ConflictError.message : ConflictError → String
  | .twoDomains net domain current =>
    "driver-driver conflict: trying to drive " ++ net ++ " from domain " ++ quote domain
      ++ ", but it is already driven from domain " ++ quote current
  | .manyFragments kind label verb paths => conflictText kind label verb paths
  | .other text => text

def DomainError.message : DomainError → String
  | .unnamed => "clock domain name must be specified"
  | .combClocked => "domain 'comb' may not be clocked"
  | .combClock => "domain 'comb' does not have a clock"
  | .combReset => "domain 'comb' does not have a reset"
  | .combSample => "domain 'comb' does not support sampling"
  | .combRenamed name => "domain '" ++ name ++ "' may not be renamed"
  | .renamedToComb source target => "domain '" ++ source ++ "' may not be renamed to '" ++ target ++ "'"
  | .nonexistent net domain => "signal " ++ net ++ " refers to nonexistent domain '" ++ domain ++ "'"
  | .resetlessReset net domain =>
    "signal " ++ net ++ " refers to reset of reset-less domain '" ++ domain ++ "'"
  | .undefined domain => "domain '" ++ domain ++ "' is used but not defined"
  | .sampleDomain sample => "sample " ++ sample ++ " has no domain"
  | .anonymousDefiners domain labels path =>
    "domain '" ++ domain ++ "' is defined by subfragments " ++ ", ".intercalate labels ++ " of fragment '"
      ++ path ++ "'; it is necessary to either rename subfragment domains explicitly, "
      ++ "or give names to subfragments"
  | .ambiguousDefiners domain labels path =>
    "domain '" ++ domain ++ "' is defined by subfragments " ++ ", ".intercalate labels ++ " of fragment '"
      ++ path ++ "', some of which have identical names; it is necessary to either rename subfragment "
      ++ "domains explicitly, or give distinct names to subfragments"
  | .definedByParent domain path child =>
    "domain '" ++ domain ++ "' is defined by fragment '" ++ path ++ "' and by its subfragment '" ++ child ++ "'"
  | .differsFromParent domain child =>
    "domain '" ++ domain ++ "' of subfragment '" ++ child
      ++ "' differs from the domain of the same name in its parent"
  | .asynchronousWrite => "write port cannot be asynchronous"
  | .combMachine domain => "FSM may not be driven by the '" ++ domain ++ "' domain"
  | .other text => text

/-- An error of design construction, by family. -/
inductive DesignError where
  | shape (e : ShapeError)
  | grammar (e : SyntaxError)
  | name (e : NameError)
  | conflict (e : ConflictError)
  | domain (e : DomainError)

/-- The family as it stands in front of the message. -/
def DesignError.family : DesignError → String
  | .shape _ => "shape error"
  | .grammar _ => "syntax error"
  | .name _ => "name error"
  | .conflict _ => "driver conflict"
  | .domain _ => "domain error"

def DesignError.detail : DesignError → String
  | .shape e => e.message
  | .grammar e => e.message
  | .name e => e.message
  | .conflict e => e.message
  | .domain e => e.message

def DesignError.message (e : DesignError) : String := e.family ++ ": " ++ e.detail

/-- The binary logarithm of a 64-bit word, rounded up; with `exact`, of a power of two only. -/
def log2 (n : Int) (exact : Bool) : Except DesignError Nat :=
  if exact && !isPowerOfTwo n then .error (.shape (.notPowerOfTwo n)) else .ok (log2Ceil n)

/-- How a whole operation can fail. A design error or a plain error is reported to the caller, who may put a
context in front of it. A crash is none of the design's errors: it leaves every enclosing operation as it is. -/
inductive Cause where
  | design (e : DesignError)
  | plain (text : String)
  | crashError (text : String)
  | crashText (text : String)
  | crashFault

structure Failure where
  cause : Cause
  /-- Contexts, outermost first. -/
  contexts : List String

namespace Failure

def design (e : DesignError) : Failure := ⟨.design e, []⟩

def plain (text : String) : Failure := ⟨.plain text, []⟩

/-- An access to something that is not there. -/
def fault : Failure := ⟨.crashFault, []⟩

def isDesign (f : Failure) : Bool :=
  match f.cause with
  | .design _ => true
  | _ => false

def isCrash (f : Failure) : Bool :=
  match f.cause with
  | .design _ | .plain _ => false
  | .crashError _ | .crashText _ | .crashFault => true

/-- Puts a context in front of a reported failure. -/
def within (context : String) (f : Failure) : Failure :=
  if f.isCrash then f else { f with contexts := context :: f.contexts }

def message (f : Failure) : String :=
  let text := match f.cause with
    | .design e => e.message
    | .plain t | .crashError t | .crashText t => t
    | .crashFault => ""
  String.join (f.contexts.map (· ++ ": ")) ++ text

end Failure

/-- An object that is no net was used where only nets have identity. -/
def Failure.notNet (value : String) : Failure :=
  ⟨.crashText ("ast: object " ++ value ++ " cannot be used as a signal key"), []⟩

end Rtl
