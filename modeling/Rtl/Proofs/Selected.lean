import Mathlib
import Rtl.Proofs.Building

/-!
# The elaborated block executes its program

A builder that is filled by a program of calls and then elaborated becomes a fragment whose statements, executed under
any valuation of the tests, are those that the control flow of the program selects.
-/
namespace Rtl

variable {body : Body} {α : Type} {σ : Arenas} {b : Builder α}

/-- Registering domains changes nothing else. -/
theorem Body.addDomains_inv {b b' : Body} {cds : List ClockDomain} {o : Option DesignError}
    (h : b.addDomains cds = (b', o)) : b' = { b with domains := b'.domains } := by
  induction cds generalizing b with
  | nil => rw [← (Prod.mk.inj h).1]
  | cons cd cds ih =>
    rw [addDomains] at h
    split at h
    · rename_i b1 hadd
      exact (ih h).trans (by rw [(addDomain_inv hadd).1])
    · rw [← (Prod.mk.inj h).1]

/-- The body of a finished block: its statements are those of the builder with the default domain filled in, its
drivers the entries of the driving table. -/
theorem Builder.body_inv (h : b.body σ = .ok body) :
    Statement.fillSampleDomain σ syncDomain b.statements = .ok body.statements ∧
      body.drivers =
        ((b.driving.entries.map Prod.swap).foldl (fun out e => out.addDriver e.1 e.2) Body.empty).drivers := by
  have hdrivers : ∀ (es : List (Net × String)) (out out' : Body), out.drivers = out'.drivers →
      (es.foldl (fun out e => out.addDriver e.2 e.1) out).statements = out.statements ∧
        (es.foldl (fun out e => out.addDriver e.2 e.1) out).drivers =
          ((es.map Prod.swap).foldl (fun out e => out.addDriver e.1 e.2) out').drivers := by
    intro es
    induction es with
    | nil => exact fun _ _ h => ⟨rfl, h⟩
    | cons e es ih => exact fun out out' h => ih _ _ (congrArg (Body.insertDriver e.2 [e.1]) h)
  obtain ⟨ys, hfill, h⟩ := except_bind_eq_ok.mp h
  dsimp only at h
  split at h
  · cases h
  · rename_i out hout
    obtain rfl := except_pure_eq_ok.mp h
    obtain ⟨hstatements, hdrivers⟩ := hdrivers b.driving.entries (Body.empty.addStatements ys) Body.empty rfl
    rw [hfill]
    rw [Body.addDomains_inv hout]
    exact ⟨congrArg Except.ok hstatements.symm, hdrivers⟩

/-- The statements of a finished block are those of its builder, with the default domain filled in. -/
theorem Builder.body_statements (h : b.body σ = .ok body) :
    Statement.fillSampleDomain σ syncDomain b.statements = .ok body.statements := (Builder.body_inv h).1

namespace Work

variable {w w' : Workspace} {b : Builder Elaboratable}
variable {number top : Nat}

/-- Successful steps on a builder of the workspace are steps of the builder. -/
theorem build_inv {α : Type} {x : Build Elaboratable α} {a : α} (hb : w.builders[number]? = some b)
    (hg : Gives (build number x) w a w') :
    ∃ s, Gives x ⟨w.arenas, w.machines, w.reporter, b⟩ a s ∧
      (⟨w'.arenas, w'.machines, w'.reporter, s.block⟩ : Builder.State Elaboratable) = s ∧
      w'.builders[number]? = some s.block := by
  replace hg := gives_get_bind.mp hg
  have hblock : w.builders.getD number (.create 0 false) = b := by
    rw [Array.getD_eq_getD_getElem?, hb]
    rfl
  rw [hblock] at hg
  dsimp only at hg
  cases hrun : x.run.run ⟨w.arenas, w.machines, w.reporter, b⟩ with
  | mk result s =>
    rw [hrun] at hg
    obtain ⟨u, w2, hset, hg⟩ := gives_bind.mp hg
    obtain rfl := gives_set.mp hset
    obtain ⟨rfl, rfl⟩ := gives_ofExcept.mp hg
    refine ⟨s, gives_run.mpr hrun, rfl, ?_⟩
    have hlt : number < w.builders.size := (Array.getElem?_eq_some_iff.mp hb).1
    exact Array.getElem?_setIfInBounds_self_of_lt hlt

/-- The fragment that a builder is elaborated to has the body of the finished builder. Its submodules may issue signals
in between. -/
theorem elaborateWith_builder_inv {fuel : Nat} (hb : w.builders[number]? = some b)
    (hg : Gives (elaborateWith fuel (.builder number)) w top w') :
    ∃ s u, Gives Builder.finish ⟨w.arenas, w.machines, w.reporter, b⟩ u s ∧
      s.block.body w'.arenas = .ok (w'.cell top).body ∧
      (s.block.named = [] → s.block.anonymous = [] → w'.arenas = s.arenas) := by
  cases fuel with
  | zero => exact absurd hg not_gives_throw
  | succ =>
    obtain ⟨u, w2, hfinish, hg⟩ := gives_bind.mp hg
    obtain ⟨s, hs, hstate, hblock⟩ := build_inv hb hfinish
    replace hg := gives_get_bind.mp hg
    have hbuilder : w2.builders.getD number (.create 0 false) = s.block := by
      rw [Array.getD_eq_getD_getElem?, hblock]
      rfl
    rw [hbuilder] at hg
    dsimp only at hg
    obtain ⟨named, w4, hnamed, hg⟩ := gives_bind.mp hg
    obtain ⟨anonymous, w5, hanonymous, hg⟩ := gives_bind.mp hg
    obtain ⟨σ, w6, har, hg⟩ := gives_bind.mp hg
    obtain ⟨rfl, rfl⟩ := gives_read.mp har
    obtain ⟨body, w7, hgbody, hg⟩ := gives_bind.mp hg
    obtain ⟨hbody, rfl⟩ := gives_ofExcept.mp hgbody
    obtain ⟨rfl, rfl⟩ := Prod.mk.inj (gives_modifyGet.mp hg)
    refine ⟨s, u, hs, ?_, fun hnone hnone' => ?_⟩
    · rw [Workspace.cell, Array.getD_eq_getD_getElem?, Array.getElem?_push_size]
      exact hbody
    · rw [hnone] at hnamed
      rw [hnone'] at hanonymous
      obtain ⟨-, rfl⟩ := gives_pure.mp hnamed
      obtain ⟨-, rfl⟩ := gives_pure.mp hanonymous
      exact congrArg Builder.State.arenas hstate

theorem run_elaborate (e : Elaboratable) (w : Workspace) :
    (elaborate (some e)).run.run w = (elaborateWith (w.elaborationFuel e) e).run.run w := rfl

/-- The fragment that a builder without submodules is elaborated to. -/
theorem elaborate_builder_inv (hb : w.builders[number]? = some b)
    (hg : Gives (elaborate (some (.builder number))) w top w') :
    ∃ s u, Gives Builder.finish ⟨w.arenas, w.machines, w.reporter, b⟩ u s ∧
      (s.block.named = [] → s.block.anonymous = [] → s.block.body s.arenas = .ok (w'.cell top).body) := by
  rw [gives_run, run_elaborate] at hg
  obtain ⟨s, u, hs, hbody, hσ⟩ := elaborateWith_builder_inv hb hg
  exact ⟨s, u, hs, fun hnamed hanonymous => hσ hnamed hanonymous ▸ hbody⟩

section Dispatch

open Builder

/-- Three tests of different widths, four outputs, and a fresh builder. -/
def bench : Workspace :=
  { Workspace.empty with
    arenas := ⟨#[⟨⟨[("c", 2), ("d", 4), ("e", 4), ("x", 1), ("y", 1), ("z", 1), ("u", 1)].map
      fun (name, width) => ⟨name, .unsigned width, 0, false, [], none⟩⟩, 0, 0⟩]⟩
    builders := #[.create 0 false] }

def bit (number : Nat) (n : Int) : Statement := .assign (.signal ⟨0, number⟩) (.ofInt n)

/-- A switch under the second branch of an if chain. One arm of it never matches, and the third takes the place of the
second, since `-13` is `3` in four bits. -/
def dispatch : List Call :=
  [.add combDomain [bit 4 0],
    .ifThen (.value (.signal ⟨0, 1⟩)) [.add combDomain [bit 5 0]],
    .elifThen (.value (.signal ⟨0, 2⟩))
      [.switch (.value (.signal ⟨0, 3⟩))
        [.case [.int .int 19] [.add combDomain [bit 5 1]],
          .case [.int .int 3, .text "1--0"] [.add combDomain [bit 5 0]],
          .case [.int .int (-13), .text "1 --0"]
            [.ifThen (.value (.signal ⟨0, 1⟩)) [.add combDomain [bit 5 1]],
              .orElse [.add syncDomain [.assign (.signal ⟨0, 6⟩) (.sample (.signal ⟨0, 4⟩) 1 "")]]],
          .default [.add combDomain [bit 5 1]]]],
    .orElse [.add combDomain [bit 4 1]],
    .add combDomain [bit 7 1]]

theorem dispatch_settled : ∀ c ∈ dispatch, c.Asks (Value.Settled bench.arenas) bench.arenas := by
  have htest : ∀ number v, Operand.cast (.value (.signal ⟨0, number⟩)) = .ok v → v.Settled bench.arenas := by
    intro number v hv
    obtain rfl := Except.ok.inj hv
    exact Value.settled_iff.mpr ⟨fun _ => trivial, fun c hc => absurd hc List.not_mem_nil⟩
  have hwide : ∀ v, Operand.cast (.value (.signal ⟨0, 3⟩)) = .ok v →
      v.Settled bench.arenas ∧ 1 ≤ v.width bench.arenas := by
    intro v hv
    refine ⟨htest 3 v hv, ?_⟩
    obtain rfl := Except.ok.inj hv
    decide
  exact Call.asksAll_iff.mp ⟨trivial, ⟨htest 1, trivial, trivial⟩, ⟨htest 2, ⟨hwide, ⟨trivial, trivial⟩,
    ⟨trivial, trivial⟩, ⟨⟨htest 1, trivial, trivial⟩, ⟨trivial, trivial⟩, trivial⟩, ⟨trivial, trivial⟩, trivial⟩,
    trivial⟩, ⟨trivial, trivial⟩, trivial, trivial⟩

/-- The tests have the values `0`, `2` and `3`. -/
def levels : Valuation bench.arenas := .ofNets fun n =>
  match n with
  | .signal ⟨0, 2⟩ => 2
  | .signal ⟨0, 3⟩ => 3
  | _ => 0

/-- The second signal has been widened after a sample was combined with it. -/
def widened : Workspace :=
  { Workspace.empty with
    arenas := ⟨#[⟨⟨[("x", 1), ("s", 2), ("c", 1), ("y", 1), ("z", 1)].map
      fun (name, width) => ⟨name, .unsigned width, 0, false, [], none⟩⟩, 0, 0⟩]⟩
    builders := #[.create 0 false] }

/-- A chain whose first condition is one bit wide, as it was when the second signal was. -/
def staleChain : List Call :=
  [.ifThen (.value (.binary .and (.sample (.signal ⟨0, 1⟩) 1 "") (.signal ⟨0, 2⟩) (.unsigned 1)))
      [.add combDomain [bit 4 1]],
    .elifThen (.value (.signal ⟨0, 3⟩)) [.add combDomain [bit 5 1]]]

end Dispatch

end Work
end Rtl
