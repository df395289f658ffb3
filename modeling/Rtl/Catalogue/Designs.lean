import Rtl.Workspace.Elaborate

/-!
The catalogue of sample designs. Each is built in an arena of its own and offers some of its signals as ports.
-/
namespace Rtl

inductive SampleDesign where
  | counter
  | handshake
  | multiclock
  | shared
  | memory
  deriving DecidableEq, Repr

/-- A built design with the signals it offers as ports. -/
structure Top where
  block : Elaboratable
  ports : List SignalId

namespace SampleDesign

def name : SampleDesign → String
  | .counter => "counter"
  | .handshake => "handshake"
  | .multiclock => "multiclock"
  | .shared => "shared"
  | .memory => "memory"

def description : SampleDesign → String
  | .counter => "8-bit counter with enable and overflow flag"
  | .handshake => "start/done handshake controller built as an FSM"
  | .multiclock => "two counters in the sync and pix domains"
  | .shared => "two submodules driving one signal; flattened on prepare"
  | .memory => "16x8 memory with a write port and a transparent read port"

def all : List SampleDesign := [.counter, .handshake, .memory, .multiclock, .shared]

def ofName (s : String) : Except Failure SampleDesign :=
  match all.find? (·.name = s) with
  | some d => .ok d
  | none => .error (.plain ("unknown design " ++ Text.quote s ++ " (available: "
      ++ ", ".intercalate (all.map name) ++ ")"))

def buildCounter (a : Nat) : Work Top := do
  let (σ, c) := Counter.create (← Work.arenas) a "" 8
  Work.setArenas σ
  let c ← Value.raise c
  return ⟨.counter c, [c.en, c.count, c.ovf]⟩

def buildHandshake (a : Nat) : Work Top := do
  let (σ, h) ← Value.raise (Handshake.create (← Work.arenas) a)
  Work.setArenas σ
  return ⟨.handshake h, [h.start, h.done, h.busy, h.ack]⟩

def buildMulticlock (a : Nat) : Work Top := do
  let (σ, m) ← Value.raise (Multiclock.create (← Work.arenas) a)
  Work.setArenas σ
  return ⟨.multiclock m, [m.sys.en, m.video.en, m.both]⟩

def buildShared (a : Nat) : Work Top := do
  let x ← Work.issue a (SignalSpec.wire 1 "x")
  let y ← Work.issue a (SignalSpec.wire 1 "y")
  let shared ← Work.issue a (SignalSpec.wire 1 "shared")
  let number ← Work.newBuilder a do
    Builder.addSubmodule "a" (some (.copier ⟨a, shared, x⟩))
    Builder.addSubmodule "b" (some (.copier ⟨a, shared, y⟩))
  return ⟨.builder number, [x, y, shared]⟩

def buildMemory (a : Nat) : Work Top := do
  let (σ, made) := Memory.create (← Work.arenas) a 8 16 "mem" []
  Work.setArenas σ
  let words ← Value.raise made
  let (σ, rd) ← Value.raise (ReadPort.create σ a words syncDomain true)
  let (σ, wr) ← Value.raise (WritePort.create σ a words syncDomain words.width)
  Work.setArenas σ
  let addr ← Work.issue a (SignalSpec.wire 4 "addr")
  let wdata ← Work.issue a (SignalSpec.wire 8 "wdata")
  let we ← Work.issue a (SignalSpec.wire 1 "we")
  let rdata ← Work.issue a (SignalSpec.wire 8 "rdata")
  let number ← Work.newBuilder a do
    Builder.addSubmodule "rd" (some (.readPort rd))
    Builder.addSubmodule "wr" (some (.writePort wr))
    Builder.comb [
      .assign (.signal wr.addr) (.signal addr),
      .assign (.signal wr.data) (.signal wdata),
      .assign (.signal wr.en) (.signal we),
      .assign (.signal rd.addr) (.signal addr),
      .assign (.signal rdata) (.signal rd.data)]
  return ⟨.builder number, [addr, wdata, we, rdata]⟩

def build (a : Nat) : SampleDesign → Work Top
  | .counter => buildCounter a
  | .handshake => buildHandshake a
  | .multiclock => buildMulticlock a
  | .shared => buildShared a
  | .memory => buildMemory a

end SampleDesign

namespace Top

/-- The ports with the given names, one after the other. -/
def selectNames (σ : Arenas) (t : Top) : List String → Except Failure (List SignalId)
  | [] => .ok []
  | name :: rest => do
    match t.ports.find? fun s => σ.name s = name with
    | none => throw (.plain ("design has no port " ++ Text.quote name))
    | some s =>
      let others ← selectNames σ t rest
      return s :: others

/-- The ports with the given names; all of them when none is named. -/
def select (σ : Arenas) (t : Top) (names : List String) : Except Failure (List SignalId) :=
  if names.isEmpty then .ok t.ports else t.selectNames σ names

end Top
end Rtl
