import Rtl.Value.Build

/-!
Statements: assignments, switches and formal properties. A switch runs the body of its first arm one of whose
patterns matches the test; an arm without patterns always matches.
-/
namespace Rtl

inductive PropertyKind where
  | assert
  | assume
  | cover
  deriving DecidableEq, Repr

def PropertyKind.name : PropertyKind → String
  | .assert => "assert"
  | .assume => "assume"
  | .cover => "cover"

inductive Statement where
  | assign (lhs rhs : Value)
  /-- Each arm is a list of patterns and a body. -/
  | switch (test : Value) (arms : List (List String × List Statement))
  /-- The check and enable signals are driven while the property is evaluated. -/
  | property (kind : PropertyKind) (test : Value) (check enable : SignalId)
  deriving Repr, Inhabited

/-- One arm of a switch: its patterns and its body. -/
abbrev Arm := List String × List Statement

namespace Statement

mutual

def text (σ : Arenas) : Statement → String
  | .assign lhs rhs => "(eq " ++ lhs.text σ ++ " " ++ rhs.text σ ++ ")"
  | .switch test arms => "(switch " ++ test.text σ ++ armsText σ arms ++ ")"
  | .property kind test _ _ => "(" ++ kind.name ++ " " ++ test.text σ ++ ")"

/-- The statements of a body, each after a space. -/
def bodyText (σ : Arenas) : List Statement → String
  | [] => ""
  | s :: rest => " " ++ text σ s ++ bodyText σ rest

def armsText (σ : Arenas) : List (List String × List Statement) → String
  | [] => ""
  | (patterns, body) :: rest =>
    (if patterns.isEmpty then " (default" else " (case " ++ " ".intercalate patterns)
      ++ bodyText σ body ++ ")" ++ armsText σ rest

end

mutual

/-- The nets a statement writes, in order of first mention, or the part of a left side that cannot be written. A
property writes its enable signal, then its check signal. -/
def targets : Statement → Except Value NetSet
  | .assign lhs _ => lhs.targets
  | .switch _ arms => armsTargets .empty arms
  | .property _ _ check enable => .ok (NetSet.ofList [.signal enable, .signal check])

def bodyTargets (acc : NetSet) : List Statement → Except Value NetSet
  | [] => .ok acc
  | s :: rest =>
    match targets s with
    | .error e => .error e
    | .ok t => bodyTargets (acc.union t) rest

def armsTargets (acc : NetSet) : List (List String × List Statement) → Except Value NetSet
  | [] => .ok acc
  | (_, body) :: rest =>
    match bodyTargets acc body with
    | .error e => .error e
    | .ok acc => armsTargets acc rest

end

/-- The nets an assignment reads: those of its right side, and those that say which bits of a left side are meant
when the left side is a part or an element selected at run time. -/
def assignReads (lhs rhs : Value) : NetSet :=
  match lhs with
  | .part _ offset _ _ => rhs.reads.union offset.reads
  | .proxy _ index => rhs.reads.union index.reads
  | _ => rhs.reads

mutual

/-- The nets a statement reads, in order of first mention. -/
def reads : Statement → NetSet
  | .assign lhs rhs => assignReads lhs rhs
  | .switch test arms => armsReads test.reads arms
  | .property _ test _ _ => test.reads

def bodyReads (acc : NetSet) : List Statement → NetSet
  | [] => acc
  | s :: rest => bodyReads (acc.union (reads s)) rest

def armsReads (acc : NetSet) : List (List String × List Statement) → NetSet
  | [] => acc
  | (_, body) :: rest => armsReads (bodyReads acc body) rest

end

/-- The nets a statement writes, with the error of a left side that cannot be written. -/
def assigned (σ : Arenas) (s : Statement) : Except DesignError NetSet :=
  s.targets.mapError fun e => .shape (.notAssignable (e.text σ))

/-- The left side is cast and checked before the right side is cast. -/
def mkAssign (σ : Arenas) (lhs rhs : Operand) : Except DesignError Statement := do
  let l ← lhs.cast
  let _ ← l.assigned σ
  let r ← rhs.cast
  return .assign l r

/-- What arms are compared by when one may replace another. -/
def armKey (patterns : List String) : String := "|".intercalate patterns

/-- Adds an arm. An arm with the same key is replaced in its place. -/
def setArm (arm : Arm) : List Arm → List Arm
  | [] => [arm]
  | a :: rest => if armKey a.1 = armKey arm.1 then arm :: rest else a :: setArm arm rest

def armPatterns (width : Int) : List String → Except DesignError (List String)
  | [] => .ok []
  | p :: rest => do
    let p ← Pattern.ofText p width
    let rest ← armPatterns width rest
    return p :: rest

def mkArms (width : Int) (acc : List Arm) : List Arm → Except DesignError (List Arm)
  | [] => .ok acc
  | (patterns, body) :: rest => do
    let patterns ← armPatterns width patterns
    mkArms width (setArm (patterns, body) acc) rest

/-- A switch over a value. Patterns must be as wide as the test. -/
def mkSwitch (σ : Arenas) (test : Value) (arms : List Arm) : Except DesignError Statement := do
  return .switch test (← mkArms (test.width σ) [] arms)

/-- The signals of a property: named after its kind, one bit wide and free of resets. -/
def propertySignal (kind : PropertyKind) (role : String) : SignalSpec :=
  { SignalSpec.wire 1 ("$" ++ kind.name ++ "$" ++ role) with resetless := true }

/-- A property, with its check and enable signals issued from the arena, in this order. -/
def mkProperty (σ : Arenas) (a : Nat) (kind : PropertyKind) (test : Operand) :
    Except DesignError (Arenas × Statement) := do
  let t ← test.cast
  let (σ, check) ← σ.issue a (propertySignal kind "check")
  let (σ, enable) ← σ.issue a (propertySignal kind "en")
  return (σ, .property kind t check enable)

end Statement
end Rtl
