import Rtl.Error

/-!
Arenas hand out signals and number clock domains and memories. A signal is known by its arena and its number; what
may still change about it (its display name, and its shape while a state machine is being sized) is kept in the
arena's record. Numbers start at one and are never reused.
-/
namespace Rtl

/-- A signal: the number of its arena and its own number there. -/
structure SignalId where
  arena : Nat
  number : Nat
  deriving DecidableEq, Repr, Inhabited

/-- How a value of a signal is shown: a fixed text before the number, or the state names of a machine. -/
inductive Decoder where
  | labelled (text : String)
  | states (machine : Nat)
  deriving DecidableEq, Repr

/-- What an arena records of a signal. -/
structure Signal where
  name : String
  shape : Shape
  reset : Int
  resetless : Bool
  attrs : List (String × String)
  decoder : Option Decoder
  deriving DecidableEq, Repr, Inhabited

/-- Sets a key of an association list, keeping the place of a key that is there. -/
def setAttr {α : Type} (key : String) (value : α) : List (String × α) → List (String × α)
  | [] => [(key, value)]
  | (k, v) :: rest => if k = key then (key, value) :: rest else (k, v) :: setAttr key value rest

structure Arena where
  signals : Array Signal
  domains : Nat
  memories : Nat
  deriving Repr, Inhabited

def Arena.empty : Arena := ⟨#[], 0, 0⟩

structure Arenas where
  list : Array Arena
  deriving Repr, Inhabited

namespace Arenas

def empty : Arenas := ⟨#[]⟩

/-- Adds an empty arena and returns its number. -/
def add (σ : Arenas) : Arenas × Nat := (⟨σ.list.push Arena.empty⟩, σ.list.size)

def arena (σ : Arenas) (a : Nat) : Arena := σ.list.getD a Arena.empty

def get? (σ : Arenas) (s : SignalId) : Option Signal :=
  if s.number = 0 then none else (σ.arena s.arena).signals[s.number - 1]?

/-- The record of a signal; a signal that no arena issued reads as a nameless single bit. -/
def get (σ : Arenas) (s : SignalId) : Signal :=
  (σ.get? s).getD ⟨"$signal", Shape.unsigned 1, 0, false, [], none⟩

def name (σ : Arenas) (s : SignalId) : String := (σ.get s).name

def shape (σ : Arenas) (s : SignalId) : Shape := (σ.get s).shape

def size (σ : Arenas) (a : Nat) : Nat := (σ.arena a).signals.size

def modifyArena (σ : Arenas) (a : Nat) (f : Arena → Arena) : Arenas := ⟨σ.list.modify a f⟩

def modify (σ : Arenas) (s : SignalId) (f : Signal → Signal) : Arenas :=
  if s.number = 0 then σ
  else σ.modifyArena s.arena fun a => { a with signals := a.signals.modify (s.number - 1) f }

def push (σ : Arenas) (a : Nat) (record : Signal) : Arenas × SignalId :=
  (σ.modifyArena a fun x => { x with signals := x.signals.push record }, ⟨a, σ.size a + 1⟩)

def nextDomain (σ : Arenas) (a : Nat) : Arenas × Nat :=
  (σ.modifyArena a fun x => { x with domains := x.domains + 1 }, (σ.arena a).domains + 1)

def nextMemory (σ : Arenas) (a : Nat) : Arenas × Nat :=
  (σ.modifyArena a fun x => { x with memories := x.memories + 1 }, (σ.arena a).memories + 1)

/-- The signal of an arena with the given number, if it was issued. -/
def lookup? (σ : Arenas) (a : Nat) (number : Nat) : Option SignalId :=
  if number = 0 || σ.size a < number then none else some ⟨a, number⟩

end Arenas

/-- A signal about to be issued: its record before the reset value is wrapped into the shape. -/
structure SignalSpec where
  shape : Shape
  name : String
  reset : Int
  resetless : Bool
  attrs : List (String × String)
  decoder : Option Decoder

namespace SignalSpec

def ofShape (shape : Shape) : SignalSpec := ⟨shape, "$signal", 0, false, [], none⟩

def wire (width : Int) (name : String) : SignalSpec := { ofShape (Shape.unsigned width) with name := name }

/-- The same signal again: name, reset value, flags, attributes and decoder. -/
def like (s : Signal) : SignalSpec := ⟨s.shape, s.name, s.reset, s.resetless, s.attrs, s.decoder⟩

/-- A signal's width is not negative, and an unsigned one resets to no negative value. -/
def record (spec : SignalSpec) : Except DesignError Signal :=
  if spec.shape.width < 0 then .error (.shape (.negativeWidth spec.shape.width))
  else if spec.reset < 0 && !spec.shape.isSigned then .error (.shape (.negativeReset spec.reset spec.name))
  else .ok ⟨spec.name, spec.shape, spec.shape.normalize spec.reset, spec.resetless, spec.attrs, spec.decoder⟩

end SignalSpec

namespace Arenas

/-- Issues a signal if its record is well formed. -/
def issue (σ : Arenas) (a : Nat) (spec : SignalSpec) : Except DesignError (Arenas × SignalId) :=
  spec.record.map (σ.push a)

def reshape (σ : Arenas) (s : SignalId) (shape : Shape) (reset : Int) : Except DesignError Arenas :=
  if shape.width < 0 then .error (.shape (.negativeWidth shape.width))
  else .ok (σ.modify s fun r => { r with shape := shape, reset := shape.normalize reset })

end Arenas
end Rtl
