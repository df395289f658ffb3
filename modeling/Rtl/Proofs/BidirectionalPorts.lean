import Mathlib
import Rtl.Proofs.RequestedPorts

/-!
# Bidirectional ports on the way up

A net that a cell connects both ways starts out as a bidirectional port and is handed to the fragment above. A net has
one direction in a fragment, and inputs and outputs are entered last: wherever the net is read or given out, the
bidirectional port is lost, and nothing is handed on. So it arrives at the top exactly when no fragment on the way has
a direction for it.
-/
namespace Rtl

open List

variable {σ : Arenas} {u : Usage}

/-- The cell of the fragment connects the net both ways. -/
def Body.Bridges (b : Body) (n : Net) : Prop := ∃ i, b.cell = some i ∧ ∃ p ∈ i.ports, p.Targets .inout n

namespace Usage

theorem addStatements_both {u' : Usage} {xs : List Statement} (h : u.addStatements σ xs = .ok u') :
    u'.both = u.both := by
  induction xs generalizing u with
  | nil =>
    cases h
    rfl
  | cons x xs ih =>
    obtain ⟨t, -, h⟩ := except_bind_eq_ok.mp h
    exact ih (u := ⟨u.driven.union t, u.used.union x.reads, u.both⟩) h

end Usage

theorem Body.usage_both {b : Body} (h : b.usage σ = .ok u) (n : Net) : n ∈ u.both ↔ b.Bridges n := by
  unfold usage at h
  unfold Bridges
  cases hc : b.cell with
  | some =>
    rw [hc] at h
    rw [(Usage.addBindings_spec h n).2.2]
    simp [Usage.empty]
  | none =>
    rw [hc] at h
    obtain ⟨v, hv, h⟩ := except_bind_eq_ok.mp h
    rw [except_pure_eq_ok] at h
    subst h
    simp [Usage.addStatements_both hv, Usage.empty]

namespace Fragment

/-- The net is assigned in the subtree and yet wanted from outside, if it is not asked for: it runs between children
that are not joined, here or in a child of a fragment that neither assigns nor reads it. -/
inductive Leaks (n : Net) : Fragment → Prop
  | crosses {f : Fragment} (h : f.Crosses n) : Leaks n f
  | inside {f : Fragment} {c : String × Fragment} (hc : c ∈ f.children) (ha : ¬ f.body.Assigns n)
      (hu : ¬ f.body.Uses n) (h : Leaks n c.2) : Leaks n f

/-- The net is an input or an output of the fragment, `asked` saying whether it is asked of it: it is asked for and
assigned in the subtree, read there and not assigned, or leaks. -/
def Directs (f : Fragment) (n : Net) (asked : Prop) : Prop :=
  (asked ∧ f.Assigns n) ∨ (f.Reads n ∧ ¬ f.Assigns n) ∨ (¬ asked ∧ Leaks n f)

section Derived

variable {σ : Arenas} {ports : NetSet} {f f' g : Fragment} {n : Net}

/-- Exactly when a net is an input. -/
theorem hasPort_input_iff (hf : f.Unported) (h : f.propagatePorts σ ports = .ok f') :
    f'.HasPort .input n ↔ (f.Reads n ∧ ¬ f.Assigns n) ∨ (n ∉ ports ∧ Leaks n f) := by
  induction f generalizing ports f' with
  | node b cs ih =>
    obtain ⟨u, d⟩ := propagatePorts_derived hf.portless h
    have hu := Body.usage_spec (hf.cells _ (body_mem_bodies _)) d.usage n
    constructor
    · intro hi
      by_cases ha : (node b cs).Assigns n
      · obtain ⟨hn, hx | ⟨hused, c', hc', hci, hca⟩⟩ := crosses_or_child hf h hi ha
        · exact Or.inr ⟨hn, .crosses hx⟩
        · obtain ⟨c, hc, -, hr⟩ := forall₂_mem_right d.children hc'
          have hdriven := ((d.input_iff n).mp hi).2.1
          have hca := (propagatePorts_assigns (hf.child hc) hr).mp hca
          obtain ⟨-, hleaks⟩ := ((ih c hc (hf.child hc) hr).mp hci).resolve_left fun h => h.2 hca
          exact Or.inr ⟨hn, .inside hc (fun hs => hdriven (hu.1.mpr hs)) hused hleaks⟩
      · exact Or.inl ⟨(hasPort_input_iff_reads hf h ha).mp hi, ha⟩
    · rintro (⟨hr, ha⟩ | ⟨hn, hleaks⟩)
      · exact (hasPort_input_iff_reads hf h ha).mpr hr
      · cases hleaks with
        | crosses hx => exact hx.hasPort_input hf h hn
        | @inside _ c hc ha hused hleaks =>
          -- The children are not asked for the net, so none of them gives it out.
          have hasked : n ∉ u.used.union ports := by
            rw [NetSet.mem_union, hu.2]
            exact not_or_intro hused hn
          have houts := children_unasked hasked (fun c => hf.child) d.children
          obtain ⟨c', hc', -, hr⟩ := forall₂_mem_left d.children hc
          refine (d.input_iff n).mpr ⟨?_, fun hd => ha (hu.1.mp hd), Or.inr ?_⟩
          · exact fun ho => hn ((hasPort_output_iff hf h).mp ho).1
          · exact (existsThen_of_forall houts).mpr ⟨c', hc', (ih c hc (hf.child hc) hr).mpr (Or.inr ⟨hasked, hleaks⟩)⟩

theorem hasDirection_iff (hf : f.Unported) (h : f.propagatePorts σ ports = .ok f') :
    f'.HasPort .output n ∨ f'.HasPort .input n ↔ f.Directs n (n ∈ ports) := by
  rw [hasPort_output_iff hf h, hasPort_input_iff hf h, Directs]

/-- A net is a bidirectional port where it has no direction and the cell of the fragment, or a child, has it so. -/
theorem hasPort_inout_iff (hf : f.Portless) (h : f.propagatePorts σ ports = .ok f') :
    f'.HasPort .inout n ↔ (¬ f'.HasPort .output n ∧ ¬ f'.HasPort .input n) ∧
      (f.body.Bridges n ∨ ∃ c ∈ f'.children, c.2.HasPort .inout n) := by
  cases f with
  | node b =>
    have hports : b.ports = .empty := hf.body
    obtain ⟨u, cs', s, hu, hall, rfl, rfl⟩ := propagatePorts_inv h
    have hd : ∀ c ∈ cs', c.2.body.ports.Distinct := by
      intro c hc
      obtain ⟨c0, hc0, -, hr⟩ := forall₂_mem_right hall hc
      exact propagatePorts_distinct (hf.child hc0) hr
    unfold HasPort
    rw [body_node, body_node, children_node, ← Body.usage_both hu, Body.addPorts_get?, Body.addPorts_get?,
      gathered_inout hd n hports]
    -- Outputs are entered over inputs, and both over the nets that go both ways.
    split
    · simp
    · split
      · simp
      · split
        · rename_i hboth
          exact iff_of_true rfl ⟨by simp, hboth.symm⟩
        · rename_i hboth
          exact iff_of_false (by simp) fun h => hboth h.2.symm

/-- Where nothing on the way has a direction for it, a net that a cell connects both ways is a bidirectional port of
the cell and of every fragment above. -/
theorem hasPort_inout_along (hf : f.Portless) (h : f.propagatePorts σ ports = .ok f') {path : List Nat}
    (hg : f.at? path = some g) (hb : g.body.Bridges n)
    (hnone : ∀ q g', q <+: path → f'.at? q = some g' → ¬ g'.HasPort .output n ∧ ¬ g'.HasPort .input n) :
    ∀ q g', q <+: path → f'.at? q = some g' → g'.HasPort .inout n := by
  induction path generalizing f f' ports with
  | nil =>
    cases hg
    intro q g' hq hg'
    obtain rfl := prefix_nil.mp hq
    cases hg'
    exact (hasPort_inout_iff hf h).mpr ⟨hnone [] f' hq rfl, Or.inl hb⟩
  | cons i path ih =>
    obtain ⟨c, hc, hg⟩ := at?_cons.mp hg
    obtain ⟨u, d⟩ := propagatePorts_derived hf h
    obtain ⟨c', hc', -, hr⟩ := forall₂_getElem?_left d.children hc
    have hbelow := ih (hf.child (mem_of_getElem? hc)) hr hg fun q g' hq hg' =>
      hnone (i :: q) g' ((prefix_cons_inj i).mpr hq) (at?_cons.mpr ⟨c', hc', hg'⟩)
    intro q g' hq hg'
    rcases prefix_cons_iff.mp hq with rfl | ⟨q, rfl, hpre⟩
    · cases hg'
      refine (hasPort_inout_iff hf h).mpr ⟨hnone [] f' hq rfl, Or.inr ⟨c', mem_of_getElem? hc', ?_⟩⟩
      exact hbelow [] c'.2 nil_prefix rfl
    · obtain ⟨c0, hc0, hg'⟩ := at?_cons.mp hg'
      obtain rfl : c' = c0 := Option.some.inj (hc'.symm.trans hc0)
      exact hbelow q g' hpre hg'

end Derived

/-- A net that a cell connects both ways is a bidirectional port of the cell and of every fragment above it exactly
when it is an input or an output of none of them. Where cells carry no statements, it is one of a fragment exactly when
it is asked of it and assigned below, when it is read and not assigned below, or when it leaks. -/
theorem inout_propagated_iff {σ : Arenas} {ports : NetSet} {f f' g : Fragment} {n : Net} (hf : f.Portless)
    (h : f.propagatePorts σ ports = .ok f') {path : List Nat} (hg : f.at? path = some g) (hb : g.body.Bridges n) :
    ((∀ q g', q <+: path → f'.at? q = some g' → g'.HasPort .inout n) ↔
      ∀ q g', q <+: path → f'.at? q = some g' → ¬ g'.HasPort .output n ∧ ¬ g'.HasPort .input n) ∧
    ((∀ b ∈ f.bodies, b.Sealed) → ∀ q g, f.at? q = some g → ∃ g', f'.at? q = some g' ∧
      (g'.HasPort .output n ∨ g'.HasPort .input n ↔ g.Directs n (AskedAt n (n ∈ ports) q f))) := by
  refine ⟨⟨fun hall q g' hq hg' => ?_, hasPort_inout_along hf h hg hb⟩, fun hcells q g₀ hg₀ => ?_⟩
  · have hboth := hall q g' hq hg'
    constructor
    · exact fun ho => Direction.noConfusion (hboth.unique ho)
    · exact fun hi => Direction.noConfusion (hboth.unique hi)
  · obtain ⟨request, g', hg', hr, hgf, hasked⟩ := propagatePorts_at ⟨hf, hcells⟩ h hg₀
    refine ⟨g', hg', ?_⟩
    rw [hasDirection_iff hgf hr, propext (hasked n)]

section Pads

private def padNet : SignalId := ⟨0, 1⟩
private def padSource : SignalId := ⟨0, 2⟩

private def padCell : Body :=
  { Body.empty with cell := some ⟨"IOBUF", [], [⟨"PAD", .signal padNet, .inout⟩]⟩ }

private def padAssign (lhs rhs : SignalId) : Body :=
  (Body.empty.addStatements [.assign (.signal lhs) (.signal rhs)]).addDriver combDomain (.signal lhs)

/-- A cell two levels down has a pad, which the top drives. -/
def drivenPad : Fragment := .node (padAssign padNet padSource) [("m", .node .empty [("u", .leaf padCell)])]

/-- A cell has a pad, which the fragment that holds it reads. -/
def readPad : Fragment := .node (padAssign padSource padNet) [("u", .leaf padCell)]

private theorem padCell_bridges : padCell.Bridges (.signal padNet) :=
  ⟨_, rfl, _, mem_singleton.mpr rfl, rfl, _, rfl, by decide⟩

private theorem drivenPad_portless : drivenPad.Portless := by
  have hbodies : drivenPad.bodies = [padAssign padNet padSource, .empty, padCell] := rfl
  unfold Portless
  rw [hbodies]
  simp [padAssign, padCell, Body.empty, Body.addStatements, Body.addDriver, Body.addDrivers]

private theorem drivenPad_sealed : ∀ b ∈ drivenPad.bodies, b.Sealed := by
  have hbodies : drivenPad.bodies = [padAssign padNet padSource, .empty, padCell] := rfl
  rw [hbodies]
  simp [padAssign, padCell, Body.empty, Body.addStatements, Body.addDriver, Body.addDrivers, Body.Sealed]

private theorem readPad_portless : readPad.Portless := by
  have hbodies : readPad.bodies = [padAssign padSource padNet, padCell] := rfl
  unfold Portless
  rw [hbodies]
  simp [padAssign, padCell, Body.empty, Body.addStatements, Body.addDriver, Body.addDrivers]

/-- The pad that the top drives is a bidirectional port up to the top, where it has no direction. -/
theorem inout_propagated_drivenPad :
    (drivenPad.Portless ∧ ∀ b ∈ drivenPad.bodies, b.Sealed) ∧
      (∃ f', drivenPad.propagatePorts .empty .empty = .ok f' ∧
        ∀ q g', q <+: [0, 0] → f'.at? q = some g' → g'.HasPort .inout (.signal padNet)) ∧
      ¬ drivenPad.Directs (.signal padNet) (.signal padNet ∈ NetSet.empty) := by
  obtain ⟨f', hports, hnone⟩ : ∃ f', drivenPad.propagatePorts .empty .empty = .ok f' ∧
      ∀ q ∈ [0, 0].inits, ∀ g', f'.at? q = some g' →
        ¬ g'.HasPort .output (.signal padNet) ∧ ¬ g'.HasPort .input (.signal padNet) := by
    refine ⟨_, rfl, ?_⟩
    simp only [List.inits, map_cons, map_nil, forall_mem_cons]
    refine ⟨?_, ?_, ?_, fun q hq => absurd hq not_mem_nil⟩
    all_goals
      rintro g' hg'
      cases hg'
      exact ⟨by unfold HasPort; decide, by unfold HasPort; decide⟩
  have hat : drivenPad.at? [0, 0] = some (.leaf padCell) := rfl
  obtain ⟨halong, hdirects⟩ := inout_propagated_iff drivenPad_portless hports hat padCell_bridges
  refine ⟨⟨drivenPad_portless, drivenPad_sealed⟩, ⟨f', hports, halong.mpr ?_⟩, ?_⟩
  · exact fun q g' hq hg' => hnone q ((mem_inits q _).mpr hq) g' hg'
  · obtain ⟨g', hg', htop⟩ := hdirects drivenPad_sealed [] drivenPad rfl
    obtain ⟨hout, hin⟩ := hnone [] (by simp) g' hg'
    exact fun hd => (htop.mpr hd).elim hout hin

/-- Not every pad comes up: one that is read beside the cell is an input there. -/
theorem not_forall_inout_propagated :
    ¬ ∀ (σ : Arenas) (ports : NetSet) (f f' : Fragment), f.Portless → f.propagatePorts σ ports = .ok f' →
      ∀ path g n, f.at? path = some g → g.body.Bridges n →
        ∀ q g', q <+: path → f'.at? q = some g' → g'.HasPort .inout n := by
  intro hall
  obtain ⟨f', hports, hin⟩ : ∃ f', readPad.propagatePorts .empty .empty = .ok f' ∧
    f'.HasPort .input (.signal padNet) := ⟨_, rfl, rfl⟩
  have hboth := hall _ _ _ _ readPad_portless hports [0] _ _ rfl padCell_bridges [] f' nil_prefix rfl
  cases hboth.unique hin

end Pads
end Fragment
end Rtl
