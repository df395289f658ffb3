import Mathlib
import Rtl.Proofs.ReportedErrors
import Rtl.Proofs.SiblingWires

/-!
# The ports of every fragment of a tree

Deriving ports goes down a tree with growing requests: a child is asked for what its parent is asked for and for what
its parent reads itself. So the fragment at the end of a path is ported as a tree of its own, under the requests that
have gathered along the path, and what is known of the top of a tree is known of every fragment.
-/
namespace Rtl

namespace Fragment

/-- The net is asked of the fragment at the end of a path, `asked` saying whether it is asked of the first fragment: a
child is asked for what its parent is asked for, and for what its parent reads itself. -/
def AskedAt (n : Net) : Prop → List Nat → Fragment → Prop
  | asked, [], _ => asked
  | asked, i :: path, f => ∃ c, f.children[i]? = some c ∧ AskedAt n (asked ∨ f.body.Uses n) path c.2

theorem askedAt_cons {n : Net} {asked : Prop} {i : Nat} {path : List Nat} {f : Fragment} {c : String × Fragment}
    (hc : f.children[i]? = some c) : AskedAt n asked (i :: path) f ↔ AskedAt n (asked ∨ f.body.Uses n) path c.2 := by
  rw [AskedAt]
  constructor
  · rintro ⟨c0, hc0, hn⟩
    obtain rfl : c = c0 := Option.some.inj (hc.symm.trans hc0)
    exact hn
  · exact fun hn => ⟨c, hc, hn⟩

section Derived

variable {σ : Arenas} {ports : NetSet} {f f' g : Fragment}

/-- A child is ported as a tree of its own, under what is asked of its parent and what its parent reads. -/
theorem propagatePorts_child (hf : f.Unported) (h : f.propagatePorts σ ports = .ok f') {i : Nat} {c : String × Fragment}
    (hc : f.children[i]? = some c) :
    ∃ request c', f'.children[i]? = some c' ∧ c.2.propagatePorts σ request = .ok c'.2 ∧
      ∀ n, n ∈ request ↔ n ∈ ports ∨ f.body.Uses n := by
  obtain ⟨u, d⟩ := propagatePorts_derived hf.portless h
  obtain ⟨c', hc', -, hr⟩ := forall₂_getElem?_left d.children hc
  refine ⟨_, c', hc', hr, fun n => ?_⟩
  rw [NetSet.mem_union, (Body.usage_spec (hf.cells _ f.body_mem_bodies) d.usage n).2, or_comm]

/-- The fragment at the end of a path is ported as a tree of its own, under what is asked of it there. -/
theorem propagatePorts_at (hf : f.Unported) (h : f.propagatePorts σ ports = .ok f') {path : List Nat}
    (hg : f.at? path = some g) :
    ∃ request g', f'.at? path = some g' ∧ g.propagatePorts σ request = .ok g' ∧ g.Unported ∧
      ∀ n, n ∈ request ↔ AskedAt n (n ∈ ports) path f := by
  induction path generalizing f f' ports with
  | nil =>
    cases hg
    exact ⟨ports, f', rfl, h, hf, fun n => Iff.rfl⟩
  | cons i path ih =>
    obtain ⟨c, hc, hg⟩ := at?_cons.mp hg
    obtain ⟨request, c', hc', hr, hrequest⟩ := propagatePorts_child hf h hc
    obtain ⟨request', g', hg', hr', hgf, hasked⟩ := ih (hf.child (List.mem_of_getElem? hc)) hr hg
    refine ⟨request', g', at?_cons.mpr ⟨c', hc', hg'⟩, hr', hgf, fun n => ?_⟩
    rw [hasked, askedAt_cons hc, propext (hrequest n)]

/-- Where cells carry no statements, ports are derived exactly when everything that is written is a net. -/
theorem Unported.propagatePorts_ok_iff (hf : f.Unported) :
    (∃ f', f.propagatePorts σ ports = .ok f') ↔ f.WritesOnly fun _ => True := by
  rw [Fragment.propagatePorts_ok_iff]
  refine forall₂_congr fun b hb => ?_
  rw [← Body.usage_names_ok_iff (σ := σ), Body.names_ok_iff, Body.usage_ok_iff]
  have hsealed := hf.cells b hb
  constructor
  · rintro ⟨hown, hports⟩
    refine ⟨⟨hown, hports⟩, ?_⟩
    cases hcell : b.cell with
    | none => exact hown hcell
    | some =>
      rw [hsealed (by rw [hcell]; rfl)]
      exact fun x hx => absurd hx List.not_mem_nil
  · exact And.left

end Derived

/-- On a tree without ports whose cells carry no statements, ports are derived exactly when every left side can be
written. Then every fragment keeps all but its ports; its outputs are the nets that are asked of it and assigned in its
subtree; and a net that is not assigned in its subtree is an input exactly when it is read there. -/
theorem propagatePorts_requested (σ : Arenas) (ports : NetSet) {f : Fragment} (hf : f.Unported) :
    ((∃ f', f.propagatePorts σ ports = .ok f') ↔ f.WritesOnly fun _ => True) ∧
    ∀ f', f.propagatePorts σ ports = .ok f' → ∀ path g, f.at? path = some g →
      ∃ g', f'.at? path = some g' ∧ g.body.SameButPorts g'.body ∧
        (∀ n, g'.HasPort .output n ↔ AskedAt n (n ∈ ports) path f ∧ g.Assigns n) ∧
        ∀ n, ¬ g.Assigns n → (g'.HasPort .input n ↔ g.Reads n) := by
  refine ⟨hf.propagatePorts_ok_iff, fun f' h path g hg => ?_⟩
  obtain ⟨request, g', hg', hr, hgf, hasked⟩ := propagatePorts_at hf h hg
  obtain ⟨u, d⟩ := propagatePorts_derived hgf.portless hr
  refine ⟨g', hg', d.body, fun n => ?_, fun n hn => hasPort_input_iff_reads hgf hr hn⟩
  rw [hasPort_output_iff hgf hr, hasked]

section Stage

private def held : SignalId := ⟨0, 3⟩
private def given : SignalId := ⟨0, 4⟩
private def shown : SignalId := ⟨0, 5⟩

private def stageClock : ClockDomain := ⟨0, 1, "d", ⟨0, 1⟩, some ⟨0, 2⟩, false, false, false⟩

private def register : Body :=
  { (Body.empty.addStatements [.assign (.signal held) (.signal given)]).addDriver "d" (.signal held) with
    domains := [stageClock] }

private def display : Body :=
  (Body.empty.addStatements [.assign (.signal shown) (.signal held)]).addDriver combDomain (.signal shown)

/-- The top shows what a register in its child holds. -/
def stage : Fragment := .node display [("r", .leaf register)]

private theorem stage_unported : stage.Unported := by
  have hbodies : stage.bodies = [display, register] := rfl
  constructor
  · unfold Portless
    rw [hbodies]
    simp [display, register, Body.empty, Body.addStatements, Body.addDriver, Body.addDrivers]
  · rw [hbodies]
    simp [display, register, Body.empty, Body.addStatements, Body.addDriver, Body.addDrivers, Body.Sealed]

private theorem register_assigns : (Fragment.leaf register).Assigns (.signal held) :=
  assigns_node.mpr (Or.inl (Or.inl ⟨_, List.mem_singleton.mpr rfl, _, rfl, by decide⟩))

private theorem register_clock : ¬ (Fragment.leaf register).Assigns (.signal ⟨0, 1⟩) ∧
    (Fragment.leaf register).Reads (.signal ⟨0, 1⟩) := by
  constructor
  · intro ha
    rcases assigns_node.mp ha with (⟨s, hs, t, ht, hn⟩ | ⟨i, hi, -⟩) | ⟨c, hc, -⟩
    · cases List.mem_singleton.mp hs
      cases ht
      exact absurd hn (by decide)
    · cases hi
    · cases hc
  · exact reads_node.mpr (Or.inl (Or.inr ⟨stageClock, by decide, .signal ⟨0, 1⟩, by decide, rfl⟩))

/-- Nothing is requested of the top, yet the child gives out what the top reads, and takes in its clock. -/
theorem propagatePorts_requested_stage :
    stage.Unported ∧ ∃ f' g', stage.propagatePorts .empty .empty = .ok f' ∧ f'.at? [0] = some g' ∧
      g'.HasPort .output (.signal held) ∧ g'.HasPort .input (.signal ⟨0, 1⟩) := by
  obtain ⟨f', hports⟩ : ∃ f', stage.propagatePorts .empty .empty = .ok f' := ⟨_, rfl⟩
  obtain ⟨-, hall⟩ := propagatePorts_requested .empty .empty stage_unported
  obtain ⟨g', hg', -, hout, hin⟩ := hall f' hports [0] (.leaf register) rfl
  refine ⟨stage_unported, f', g', hports, hg', (hout _).mpr ⟨⟨_, rfl, Or.inr ?_⟩, register_assigns⟩, ?_⟩
  · exact Or.inl ⟨_, List.mem_singleton.mpr rfl, by decide⟩
  · exact (hin _ register_clock.1).mpr register_clock.2

end Stage
end Fragment
end Rtl
