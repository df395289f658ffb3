import Rtl.Statement.Traversal

/-!
Replacing leaves of values, and whole statements. Values are told apart as objects here: two that were made apart
differ even where they look the same, and a value none of whose leaves was replaced by another object stays the object
that it was.
-/
namespace Rtl

namespace Value

mutual

/-- How many leaves a value has besides signals; a sample counts besides what it samples. -/
def leafCount : Value → Nat
  | .const _ _ | .initial | .net (.clock _) | .net (.reset _ _) => 1
  | .net (.signal _) => 0
  | .unary _ a _ => leafCount a
  | .binary _ a b _ => leafCount a + leafCount b
  | .mux sel a b _ => leafCount sel + leafCount a + leafCount b
  | .slice v _ _ | .repl v _ => leafCount v
  | .part v offset _ _ => leafCount v + leafCount offset
  | .cat parts => leafCounts parts
  | .proxy elems index => leafCounts elems + leafCount index
  | .sample v _ _ => leafCount v + 1

def leafCounts : List Value → Nat
  | [] => 0
  | v :: vs => leafCount v + leafCounts vs

end

end Value

/-- A value as an object. One that was never kept has tag zero; signals are told apart by themselves. -/
structure Handle where
  value : Value
  tag : Nat
  /-- The tags of its leaves, from left to right; a sample comes before what it samples. -/
  leaves : List Nat
  deriving Inhabited

namespace Handle

def ofValue (v : Value) : Handle := ⟨v, 0, List.replicate v.leafCount 0⟩

def ofSignal (s : SignalId) : Handle := ofValue (.signal s)

/-- A leaf has its tag among its leaves too. -/
def withTag (h : Handle) (tag : Nat) : Handle :=
  match h.value with
  | .const _ _ | .initial | .net (.clock _) | .net (.reset _ _) | .sample _ _ _ => ⟨h.value, tag, tag :: h.leaves.tail⟩
  | _ => ⟨h.value, tag, h.leaves⟩

def same (a b : Handle) : Bool :=
  match a.value, b.value with
  | .net (.signal x), .net (.signal y) => x = y
  | _, _ => a.tag ≠ 0 && a.tag = b.tag

end Handle

/-- What each kind of leaf becomes where it is replaced, and what becomes of whole statements. -/
structure Replacement where
  const : Option Handle
  signal : SignalId → Option Handle
  clock : String → Option Handle
  reset : String → Option Handle
  /-- Where samples are replaced, what they sample is not looked at. -/
  sample : Option Handle
  initial : Option Handle
  statement : Statement → Option (List Statement)

namespace Replacement

def leaf (r : Replacement) : Value → Option Handle
  | .const _ _ => r.const
  | .net (.signal id) => r.signal id
  | .net (.clock d) => r.clock d
  | .net (.reset d _) => r.reset d
  | .sample _ _ _ => r.sample
  | .initial => r.initial
  | _ => none

/-- The tags of leaves that are still to be met, and those of the leaves of what was made so far. -/
structure Trail where
  ahead : List Nat
  behind : List Nat

abbrev Walk := StateT Trail (Except Failure)

/-- Passes over the next leaves and returns their tags; what has no tags left has zeros. -/
def pass (count : Nat) : Walk (List Nat) := do
  let t ← get
  set { t with ahead := t.ahead.drop count }
  return t.ahead.take count ++ List.replicate (count - t.ahead.length) 0

/-- Replaces a leaf. A replacement that is the same object changes nothing. -/
def replace (r : Replacement) (v : Value) : Walk (Option Value) := do
  let leaves ← pass v.leafCount
  let new := (r.leaf v).filter fun h => !Handle.same ⟨v, leaves.headD 0, leaves⟩ h
  modify fun t => { t with behind := t.behind ++ (new.map (·.leaves)).getD leaves }
  return new.map (·.value)

/-- A sample is replaced as a whole, or else what it samples is. -/
def sampled (r : Replacement) (v : Value) (clocks : Int) (domain : String) (inner : Walk (Option Value)) :
    Walk (Option Value) := do
  if r.sample.isSome then r.replace (.sample v clocks domain)
  else
    let own ← pass 1
    let before := (← get).behind
    modify fun t => { t with behind := [] }
    let new ← inner
    modify fun t => { t with behind := before ++ (if new.isSome then [0] else own) ++ t.behind }
    return new.map fun v => .sample v clocks domain

def traversal (σ : Arenas) (r : Replacement) : Traversal Walk where
  arenas := pure σ
  const v shape := r.replace (.const v shape)
  net n := r.replace (.net n)
  sample := r.sampled
  initial := r.replace .initial
  statement st := pure (r.statement st)

/-- The value after replacement; the same object when nothing in it was replaced. -/
def onValue (σ : Arenas) (r : Replacement) (h : Handle) : Except Failure Handle :=
  match r.leaf h.value with
  | some new => .ok new
  | none => do
    let (new, trail) ← (h.value.traverse (r.traversal σ)).run ⟨h.leaves, []⟩
    return (new.map fun v => ⟨v, 0, trail.behind⟩).getD h

/-- The statements after replacement. What they hold was never kept. -/
def onStatements (σ : Arenas) (r : Replacement) (ss : List Statement) : Except Failure (List Statement) := do
  return (← (Statement.traverseAll (r.traversal σ) ss).run ⟨[], []⟩).1

end Replacement
end Rtl
