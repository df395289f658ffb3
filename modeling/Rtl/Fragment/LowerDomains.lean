import Rtl.Fragment.Traversal

/-!
Lowering clock and reset references to the signals of the domains that each fragment knows. The reset of a
reset-less domain is zero where the reference allows it. Every clocked domain that a fragment drives something in
must be known there.
-/
namespace Rtl

namespace Body

/-- The signal or constant that a net stands for in a fragment. -/
def lowerNet (σ : Arenas) (b : Body) : Net → Except DesignError (Option Value)
  | .signal _ => .ok none
  | .clock d =>
    match b.domain? d with
    | none => .error (.domain (.nonexistent ((Net.clock d).text σ) d))
    | some cd => .ok (some (.signal cd.clk))
  | .reset d allow =>
    match b.domain? d with
    | none => .error (.domain (.nonexistent ((Net.reset d allow).text σ) d))
    | some cd =>
      match cd.rst with
      | some rst => .ok (some (.signal rst))
      | none =>
        if allow then .ok (some (.const 0 (.unsigned 1)))
        else .error (.domain (.resetlessReset ((Net.reset d allow).text σ) d))

/-- The first clocked driver domain that is not known. -/
def unknownDomain? (b : Body) : Option String :=
  b.driverDomains.find? fun d => d ≠ combDomain && (b.domain? d).isNone

end Body

namespace Fragment

def domainLowering (σ : Arenas) : Pass (Except Failure) where
  values b := pure
    { Traversal.identity (pure σ) with net := fun n => (b.lowerNet σ n).mapError Failure.design }
  domain cd := pure cd
  driverDomain d := d
  finish b f :=
    match b.unknownDomain? with
    | some d => .error (.design (.domain (.undefined d)))
    | none => .ok f

/-- The tree with every clock and reset reference lowered. -/
def lowerDomains (σ : Arenas) (f : Fragment) : Except Failure Fragment := f.traverse (domainLowering σ)

end Fragment
end Rtl
