import Rtl.Arena

/-!
Memories: `depth` words of `width` bits with initial contents; words that are not given are zero.
-/
namespace Rtl

structure Memory where
  /-- The arena that issued the number. -/
  arena : Nat
  id : Nat
  name : String
  width : Int
  depth : Int
  init : List Int
  deriving DecidableEq, Repr, Inhabited

namespace Memory

/-- Issues a memory. The number is spent before the initial contents are checked, so the arenas are returned in
either case. -/
def create (σ : Arenas) (a : Nat) (width depth : Int) (name : String) (init : List Int) :
    Arenas × Except DesignError Memory :=
  if width < 0 then (σ, .error (.shape (.memoryWidth width)))
  else if depth < 0 then (σ, .error (.shape (.memoryDepth depth)))
  else
    let (σ, id) := σ.nextMemory a
    if depth < init.length then (σ, .error (.shape (.memoryInit init.length depth)))
    else (σ, .ok ⟨a, id, name, width, depth, init.map (Shape.unsigned width).normalize⟩)

def defaultName : String := "$memory"

/-- The initial value of a word; there is none at a negative index. -/
def initWord? (m : Memory) (i : Int) : Option Int :=
  if i < 0 then none else some (m.init.getD i.toNat 0)

def text (m : Memory) : String := s!"(memory {m.name} {m.depth}x{m.width})"

end Memory
end Rtl
