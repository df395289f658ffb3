import Rtl.Fragment.Basic

/-!
Ports onto a memory. A read port is asynchronous in the combinational domain and synchronous elsewhere; a write port
is always synchronous and enables its data in groups of `granularity` bits. Each becomes one memory cell.
-/
namespace Rtl

/-- The shape of an address: enough bits for the last word, and at least one. -/
def Memory.addressShape (m : Memory) : Shape := .unsigned (bitsFor (max (wrap (m.depth - 1)) 0) false)

structure ReadPort where
  memory : Memory
  domain : String
  /-- Sees data written in the same cycle. -/
  transparent : Bool
  addr : SignalId
  data : SignalId
  en : Value
  deriving Inhabited

structure WritePort where
  memory : Memory
  domain : String
  /-- Data bits per enable bit. -/
  granularity : Int
  addr : SignalId
  data : SignalId
  en : SignalId
  deriving Inhabited

namespace ReadPort

def signalSpec (m : Memory) (shape : Shape) (role : String) : SignalSpec :=
  { SignalSpec.ofShape shape with name := m.name ++ "_r_" ++ role, resetless := true }

/-- Issues the signals of a read port. Only a synchronous port that is not transparent has an enable signal. -/
def create (σ : Arenas) (a : Nat) (m : Memory) (domain : String) (transparent : Bool) :
    Except DesignError (Arenas × ReadPort) :=
  if domain = combDomain ∧ transparent = false then .error (.grammar .asynchronousOpaqueRead)
  else do
    let (σ, addr) ← σ.issue a (signalSpec m m.addressShape "addr")
    let (σ, data) ← σ.issue a (signalSpec m (.unsigned m.width) "data")
    if domain ≠ combDomain ∧ transparent = false then
      let (σ, en) ← σ.issue a { SignalSpec.wire 1 (m.name ++ "_r_en") with reset := 1 }
      return (σ, ⟨m, domain, transparent, addr, data, .signal en⟩)
    else return (σ, ⟨m, domain, transparent, addr, data, .const 1 (.unsigned 1)⟩)

def clockValue (p : ReadPort) : Value :=
  if p.domain = combDomain then .const 0 (.unsigned 1) else .net (.clock p.domain)

def cell (σ : Arenas) (p : ReadPort) : Except DesignError Instance := do
  let i := Instance.ofCell Instance.readCell
  let i := i.setParam "MEMID" (.memory p.memory)
  let i := i.setParam "ABITS" (.int (σ.shape p.addr).width)
  let i := i.setParam "WIDTH" (.int (σ.shape p.data).width)
  let i := i.setParam "CLK_ENABLE" (.flag (p.domain ≠ combDomain))
  let i := i.setParam "CLK_POLARITY" (.int 1)
  let i := i.setParam "TRANSPARENT" (.flag p.transparent)
  let i ← i.bind σ .input "CLK" (.value p.clockValue)
  let i ← i.bind σ .input "EN" (.value p.en)
  let i ← i.bind σ .input "ADDR" (.value (.signal p.addr))
  i.bind σ .output "DATA" (.value (.signal p.data))

end ReadPort

namespace WritePort

def signalSpec (m : Memory) (shape : Shape) (role : String) (resetless : Bool) : SignalSpec :=
  { SignalSpec.ofShape shape with name := m.name ++ "_w_" ++ role, resetless := resetless }

/-- Enable bits of a write port; one where the memory has no bits at all. -/
def enableWidth (m : Memory) (granularity : Int) : Int :=
  if 0 < m.width then m.width.tdiv granularity else 1

/-- Issues the signals of a write port. The granularity must divide the width. -/
def create (σ : Arenas) (a : Nat) (m : Memory) (domain : String) (granularity : Int) :
    Except DesignError (Arenas × WritePort) :=
  if domain = combDomain then .error (.domain .asynchronousWrite)
  else if granularity ≤ 0 ∧ 0 < m.width then .error (.shape (.granularity granularity))
  else if 0 < m.width ∧ m.width.tmod granularity ≠ 0 then
    .error (.shape (.granularityDivides m.width granularity))
  else do
    let (σ, addr) ← σ.issue a (signalSpec m m.addressShape "addr" true)
    let (σ, data) ← σ.issue a (signalSpec m (.unsigned m.width) "data" true)
    let (σ, en) ← σ.issue a (signalSpec m (.unsigned (enableWidth m granularity)) "en" false)
    return (σ, ⟨m, domain, granularity, addr, data, en⟩)

/-- Each enable bit repeated for its group of data bits, from bit `i` on. -/
def enableBits (σ : Arenas) (p : WritePort) : Nat → Nat → Except DesignError (List Value)
  | 0, _ => .ok []
  | n + 1, i => do
    let b ← Value.bit σ (.signal p.en) i
    let r ← Value.mkRepl (.value b) p.granularity
    let rest ← enableBits σ p n (i + 1)
    return r :: rest

def cell (σ : Arenas) (p : WritePort) : Except DesignError Instance := do
  let en ← enableBits σ p (σ.shape p.en).width.toNat 0
  let i := Instance.ofCell Instance.writeCell
  let i := i.setParam "MEMID" (.memory p.memory)
  let i := i.setParam "ABITS" (.int (σ.shape p.addr).width)
  let i := i.setParam "WIDTH" (.int (σ.shape p.data).width)
  let i := i.setParam "CLK_ENABLE" (.flag true)
  let i := i.setParam "CLK_POLARITY" (.int 1)
  let i := i.setParam "PRIORITY" (.int 0)
  let i ← i.bind σ .input "CLK" (.value (.net (.clock p.domain)))
  let i ← i.bind σ .input "EN" (.value (.cat en))
  let i ← i.bind σ .input "ADDR" (.value (.signal p.addr))
  i.bind σ .input "DATA" (.value (.signal p.data))

end WritePort
end Rtl
