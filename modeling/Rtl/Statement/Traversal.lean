import Rtl.Statement.Basic

/-!
Traversing values and statements. A traversal says what becomes of each leaf; a compound value is rebuilt when one of
its parts changed and kept as it is otherwise, so an operator keeps its shape unless an operand changed. Rebuilding
an operator settles its shape anew. Nothing else is checked again. The effects of a traversal happen from left to
right.
-/
namespace Rtl

/-- What becomes of leaves and statements; `none` leaves them as they are. -/
structure Traversal (m : Type → Type) where
  /-- The signals in force when an operator is rebuilt. -/
  arenas : m Arenas
  const : Int → Shape → m (Option Value)
  net : Net → m (Option Value)
  /-- Receives the sampled value, the cycles, the domain, and the traversal of the sampled value. -/
  sample : Value → Int → String → m (Option Value) → m (Option Value)
  initial : m (Option Value)
  /-- Replaces a whole statement before its parts are looked at. -/
  statement : Statement → m (Option (List Statement))

namespace Traversal

variable {m : Type → Type} [Monad m]

/-- Traverses the value below a sample. -/
def descend (_ : Value) (clocks : Int) (domain : String) (inner : m (Option Value)) : m (Option Value) := do
  return (← inner).map fun v => .sample v clocks domain

def identity (arenas : m Arenas) : Traversal m where
  arenas := arenas
  const _ _ := pure none
  net _ := pure none
  sample := descend
  initial := pure none
  statement _ := pure none

end Traversal

namespace Value

variable {m : Type → Type} [Monad m] [MonadExceptOf Failure m]

def raise {α : Type} : Except DesignError α → m α
  | .ok a => pure a
  | .error e => throw (.design e)

mutual

/-- The traversed value, or `none` when nothing in it changed. -/
def traverse (r : Traversal m) : Value → m (Option Value)
  | .const v s => r.const v s
  | .net n => r.net n
  | .unary op a _ => do
    match ← traverse r a with
    | none => pure none
    | some a => return some (mkUnary (← r.arenas) op a)
  | .binary op a b _ => do
    let a' ← traverse r a
    let b' ← traverse r b
    if a'.isNone && b'.isNone then pure none
    else return some (← raise (mkBinary (← r.arenas) op (a'.getD a) (b'.getD b)))
  | .mux sel a b _ => do
    let sel' ← traverse r sel
    let a' ← traverse r a
    let b' ← traverse r b
    if sel'.isNone && a'.isNone && b'.isNone then pure none
    else return some (mkMux (← r.arenas) (sel'.getD sel) (a'.getD a) (b'.getD b))
  | .slice v start stop => do return (← traverse r v).map fun v => .slice v start stop
  | .part v offset width stride => do
    let v' ← traverse r v
    let offset' ← traverse r offset
    if v'.isNone && offset'.isNone then pure none
    else return some (.part (v'.getD v) (offset'.getD offset) width stride)
  | .cat parts => do return (← traverseAll r parts).map .cat
  | .repl v count => do return (← traverse r v).map fun v => .repl v count
  | .proxy elems index => do
    let elems' ← traverseAll r elems
    let index' ← traverse r index
    if elems'.isNone && index'.isNone then pure none
    else return some (.proxy (elems'.getD elems) (index'.getD index))
  | .sample v clocks domain => r.sample v clocks domain (traverse r v)
  | .initial => r.initial

/-- The traversed values, or `none` when none of them changed. -/
def traverseAll (r : Traversal m) : List Value → m (Option (List Value))
  | [] => pure none
  | v :: vs => do
    let v' ← traverse r v
    let vs' ← traverseAll r vs
    if v'.isNone && vs'.isNone then pure none else return some (v'.getD v :: vs'.getD vs)

end

/-- The traversed value, or the value itself. -/
def traversed (r : Traversal m) (v : Value) : m Value := do return (← traverse r v).getD v

end Value

namespace Statement

variable {m : Type → Type} [Monad m] [MonadExceptOf Failure m]

mutual

/-- The statements that take the place of one. -/
def traverse (r : Traversal m) : Statement → m (List Statement)
  | .assign lhs rhs => do
    match ← r.statement (.assign lhs rhs) with
    | some out => pure out
    | none =>
      let lhs ← lhs.traversed r
      let rhs ← rhs.traversed r
      return [.assign lhs rhs]
  | .switch test arms => do
    match ← r.statement (.switch test arms) with
    | some out => pure out
    | none =>
      let test ← test.traversed r
      let arms ← traverseArms r arms
      return [.switch test arms]
  | .property kind test check enable => do
    match ← r.statement (.property kind test check enable) with
    | some out => pure out
    | none => return [.property kind (← test.traversed r) check enable]

def traverseAll (r : Traversal m) : List Statement → m (List Statement)
  | [] => pure []
  | s :: rest => do
    let here ← traverse r s
    let others ← traverseAll r rest
    return here ++ others

def traverseArms (r : Traversal m) :
    List (List String × List Statement) → m (List (List String × List Statement))
  | [] => pure []
  | (patterns, body) :: rest => do
    let body ← traverseAll r body
    let others ← traverseArms r rest
    return (patterns, body) :: others

end

/-- Fills in the domain of samples that name none. -/
def sampleFiller (σ : Arenas) (domain : String) : Traversal (Except Failure) :=
  { Traversal.identity (pure σ) with
    sample := fun v clocks d inner => do
      match d, ← inner with
      | "", v' => return some (.sample (v'.getD v) clocks domain)
      | _, none => return none
      | d, some v => return some (.sample v clocks d) }

/-- Gives every sample without a domain the one given. -/
def fillSampleDomain (σ : Arenas) (domain : String) (stmts : List Statement) :
    Except Failure (List Statement) :=
  traverseAll (sampleFiller σ domain) stmts

end Statement
end Rtl
