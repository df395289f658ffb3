import Rtl.Fragment.Traversal

/-!
Renaming clock domains throughout a tree. References, samples, drivers and records under a mapped name move to the
new name. A record is renamed once, and all its occurrences become that one new record.
-/
namespace Rtl

structure Renamer where
  /-- Issues the numbers of new records. -/
  arena : Nat
  mapping : List (String × String)
  /-- New records by the number of the old. -/
  renamed : List (Nat × ClockDomain)
  deriving Inhabited

namespace Renamer

/-- The combinational domain is neither renamed nor a new name. -/
def check : List (String × String) → Except DesignError Unit
  | [] => .ok ()
  | (source, target) :: rest =>
    if source = combDomain then .error (.domain (.combRenamed source))
    else if target = combDomain then .error (.domain (.renamedToComb source target))
    else check rest

def create (arena : Nat) (mapping : List (String × String)) : Except DesignError Renamer := do
  check mapping
  return ⟨arena, mapping, []⟩

def target? (mapping : List (String × String)) (name : String) : Option String :=
  (mapping.find? (·.1 = name)).map Prod.snd

def target (mapping : List (String × String)) (name : String) : String := (target? mapping name).getD name

/-- Issued signals together with the records renamed so far. -/
structure State where
  arenas : Arenas
  renamed : List (Nat × ClockDomain)

def traversal (mapping : List (String × String)) : Traversal (Run State) :=
  let arenas : Run State Arenas := do return (← get).arenas
  { Traversal.identity arenas with
    net := fun n =>
      match n with
      | .signal _ => pure none
      | .clock d =>
        match target? mapping d with
        | none => pure none
        | some d => do return some (← Value.raise (Value.mkClock d))
      | .reset d allow =>
        match target? mapping d with
        | none => pure none
        | some d => do return some (← Value.raise (Value.mkReset d allow))
    sample := fun v clocks d inner => do
      let v' ← inner
      match target? mapping d, v' with
      | none, none => pure none
      | renamed, v' => do
        return some (← Value.raise (Value.mkSample (← arenas) (v'.getD v) clocks (renamed.getD d))) }

/-- The record that takes the place of one. -/
def rename (r : Renamer) (cd : ClockDomain) : Run State ClockDomain := do
  match target? r.mapping cd.name with
  | none => return cd
  | some name =>
    let s ← get
    match s.renamed.find? (·.1 = cd.id) with
    | some (_, out) => return out
    | none =>
      let (σ, out) ← Value.raise (cd.renamed s.arenas r.arena name)
      set ({ arenas := σ, renamed := s.renamed ++ [(cd.id, out)] } : State)
      return out

def pass (r : Renamer) : Pass (Run State) where
  values _ := pure (traversal r.mapping)
  domain := r.rename
  driverDomain := target r.mapping
  finish _ f := pure f

/-- The renamed tree. The renamer remembers the records it replaced for the next tree. -/
def apply (r : Renamer) (σ : Arenas) (f : Fragment) : Except Failure Fragment × Arenas × Renamer :=
  let (result, s) := (f.traverse r.pass).run.run ⟨σ, r.renamed⟩
  (result, s.arenas, { r with renamed := s.renamed })

end Renamer
end Rtl
