import Mathlib
import Rtl.Proofs.Ports

/-!
# Inputs of a fragment that are assigned inside it

A fragment asks its children only for what it reads itself or is asked for, and visits them once, in order. The ports
that come out are read off the tree: an output is what is asked for and assigned below, and a net that is not assigned
below is an input exactly when it is read below. What is left are the nets that one child assigns and another reads.
-/
namespace Rtl

variable {b : Body} {n : Net}

theorem existsThen_forall₂ {α β : Type} {Q R : α → Prop} {Q' R' : β → Prop} {l : List α} {l' : List β}
    (h : List.Forall₂ (fun a b => (Q a ↔ Q' b) ∧ (R a ↔ R' b)) l l') : ExistsThen Q R l ↔ ExistsThen Q' R' l' := by
  induction h with
  | nil => exact iff_of_false existsThen_nil existsThen_nil
  | cons hab hs ih =>
    rw [existsThen_cons, existsThen_cons, ih, hab.1]
    apply or_congr_left
    apply and_congr_right'
    exact forall₂_forall_iff hs fun _ _ _ hab => hab.2

theorem Body.SameButPorts.assigns {b' : Body} (h : b.SameButPorts b') : b'.Assigns n ↔ b.Assigns n := by
  rw [h]
  rfl

namespace Fragment

variable {cs : List (String × Fragment)}

/-- A statement or a cell of the fragment's subtree assigns the net. -/
def Assigns (f : Fragment) (n : Net) : Prop := ∃ b ∈ f.bodies, b.Assigns n

/-- A fragment of the subtree reads the net. -/
def Reads (f : Fragment) (n : Net) : Prop := ∃ b ∈ f.bodies, b.Uses n

theorem assigns_node : (node b cs).Assigns n ↔ b.Assigns n ∨ ∃ c ∈ cs, c.2.Assigns n := exists_bodies_node

theorem reads_node : (node b cs).Reads n ↔ b.Uses n ∨ ∃ c ∈ cs, c.2.Reads n := exists_bodies_node

/-- The tree as elaboration leaves it: no ports yet, and no statements beside a cell. -/
structure Unported (f : Fragment) : Prop where
  portless : f.Portless
  cells : ∀ b ∈ f.bodies, b.Sealed

theorem Unported.child {f : Fragment} (h : f.Unported) {c : String × Fragment} (hc : c ∈ f.children) :
    c.2.Unported := ⟨h.portless.child hc, fun b hb => h.cells b (bodies_of_child hc hb)⟩

section Derived

variable {σ : Arenas} {ports : NetSet} {f f' : Fragment} {n : Net}

/-- Deriving ports changes nothing that is assigned. -/
theorem propagatePorts_assigns (hf : f.Unported) (h : f.propagatePorts σ ports = .ok f') :
    f'.Assigns n ↔ f.Assigns n := by
  induction f generalizing ports f' with
  | node b cs ih =>
    obtain ⟨u, d⟩ := propagatePorts_derived hf.portless h
    rw [← node_eta f', assigns_node, assigns_node, d.body.assigns]
    apply or_congr Iff.rfl
    exact (forall₂_exists_iff d.children fun c hc c' hr => (ih c hc (hf.child hc) hr.2).symm).symm

/-- The outputs are what is asked for and assigned below. -/
theorem hasPort_output_iff (hf : f.Unported) (h : f.propagatePorts σ ports = .ok f') :
    f'.HasPort .output n ↔ n ∈ ports ∧ f.Assigns n := by
  induction f generalizing ports f' with
  | node b cs ih =>
    obtain ⟨u, d⟩ := propagatePorts_derived hf.portless h
    have hu := Body.usage_spec (hf.cells _ (body_mem_bodies _)) d.usage n
    rw [d.output_iff, assigns_node, hu.1]
    apply and_congr_right
    intro hn
    apply or_congr Iff.rfl
    refine (forall₂_exists_iff d.children fun c hc c' hr => ?_).symm
    rw [ih c hc (hf.child hc) hr.2]
    exact (and_iff_right (NetSet.mem_union.mpr (Or.inr hn))).symm

/-- A net that nothing below assigns is an input exactly when something below reads it. -/
theorem hasPort_input_iff_reads (hf : f.Unported) (h : f.propagatePorts σ ports = .ok f') (hn : ¬ f.Assigns n) :
    f'.HasPort .input n ↔ f.Reads n := by
  induction f generalizing ports f' with
  | node b cs ih =>
    obtain ⟨u, d⟩ := propagatePorts_derived hf.portless h
    have hu := Body.usage_spec (hf.cells _ (body_mem_bodies _)) d.usage n
    have hout : ¬ f'.HasPort .output n := fun ho => hn ((hasPort_output_iff hf h).mp ho).2
    rw [assigns_node, not_or] at hn
    have hchild : ∀ c ∈ cs, ¬ c.2.Assigns n := fun c hc ha => hn.2 ⟨c, hc, ha⟩
    have houts : ∀ c' ∈ f'.children, ¬ c'.2.HasPort .output n := by
      intro c' hc' ho
      obtain ⟨c, hc, -, hr⟩ := forall₂_mem_right d.children hc'
      exact hchild c hc ((hasPort_output_iff (hf.child hc) hr).mp ho).2
    rw [d.input_iff, existsThen_of_forall houts, reads_node]
    have hins : (∃ c ∈ cs, c.2.Reads n) ↔ ∃ c' ∈ f'.children, c'.2.HasPort .input n :=
      forall₂_exists_iff d.children fun c hc c' hr => (ih c hc (hf.child hc) hr.2 (hchild c hc)).symm
    rw [← hins]
    have hdriven : n ∉ u.driven := fun hd => hn.1 (hu.1.mp hd)
    constructor
    · rintro ⟨-, -, ⟨hused, -⟩ | hr⟩
      · exact Or.inl (hu.2.mp hused)
      · exact Or.inr hr
    · rintro (hused | hr)
      · exact ⟨hout, hdriven, Or.inl ⟨hu.2.mpr hused, houts⟩⟩
      · exact ⟨hout, hdriven, Or.inr hr⟩

end Derived

/-- `g` is a fragment of the tree, and no fragment above it reads the net. -/
inductive Unread (n : Net) : Fragment → Fragment → Prop
  | here (f : Fragment) : Unread n f f
  | inside {f g : Fragment} {c : String × Fragment} (hc : c ∈ f.children) (hu : ¬ f.body.Uses n)
      (hg : Unread n c.2 g) : Unread n f g

/-- The net runs between children that the single visit does not join: the fragment does not assign it itself, one
child assigns it, and another reads it without assigning it. Where the fragment reads the net too, its children are
asked for it, and only a reader that no assigning child comes after is missed. -/
structure Crosses (f : Fragment) (n : Net) : Prop where
  notAssigned : ¬ f.body.Assigns n
  assigner : ∃ c ∈ f.children, c.2.Assigns n
  reader : ExistsThen (fun c => c.2.Reads n ∧ ¬ c.2.Assigns n) (fun c => f.body.Uses n → ¬ c.2.Assigns n) f.children

section Derived

variable {σ : Arenas} {ports : NetSet} {f f' : Fragment} {n : Net}
variable {request : NetSet} {cs' : List (String × Fragment)}

/-- The ports of the children, when the net is asked of them. -/
theorem children_ports_asked (hn : n ∈ request) (hf : ∀ c ∈ cs, c.2.Unported)
    (h : List.Forall₂ (fun c c' => c'.1 = c.1 ∧ c.2.propagatePorts σ request = .ok c'.2) cs cs') :
    List.Forall₂ (fun c c' => (c.2.Reads n ∧ ¬ c.2.Assigns n ↔ c'.2.HasPort .input n) ∧
      (¬ c.2.Assigns n ↔ ¬ c'.2.HasPort .output n)) cs cs' := by
  have hall := (List.forall₂_and_left cs cs').mpr ⟨hf, h⟩
  refine hall.imp ?_
  rintro c c' ⟨hc, -, hr⟩
  have hout : c'.2.HasPort .output n ↔ c.2.Assigns n := by
    rw [hasPort_output_iff hc hr]
    exact and_iff_right hn
  refine ⟨?_, not_congr hout.symm⟩
  constructor
  · rintro ⟨hread, ha⟩
    exact (hasPort_input_iff_reads hc hr ha).mpr hread
  · intro hi
    have ha : ¬ c.2.Assigns n := by
      intro ha
      have hd := hi.unique (hout.mpr ha)
      cases hd
    exact ⟨(hasPort_input_iff_reads hc hr ha).mp hi, ha⟩

theorem children_unasked (hn : n ∉ request) (hf : ∀ c ∈ cs, c.2.Unported)
    (h : List.Forall₂ (fun c c' => c'.1 = c.1 ∧ c.2.propagatePorts σ request = .ok c'.2) cs cs') :
    ∀ c' ∈ cs', ¬ c'.2.HasPort .output n := by
  intro c' hc' ho
  obtain ⟨c, hc, -, hr⟩ := forall₂_mem_right h hc'
  exact hn ((hasPort_output_iff (hf c hc) hr).mp ho).1

/-- Where a net is not asked for and runs between children that are not joined, the fragment takes it in. -/
theorem Crosses.hasPort_input (hf : f.Unported) (h : f.propagatePorts σ ports = .ok f') (hn : n ∉ ports)
    (hx : f.Crosses n) : f'.HasPort .input n := by
  obtain ⟨u, d⟩ := propagatePorts_derived hf.portless h
  have hu := Body.usage_spec (hf.cells _ f.body_mem_bodies) d.usage n
  refine (d.input_iff n).mpr ⟨?_, fun hd => hx.notAssigned (hu.1.mp hd), Or.inr ?_⟩
  · exact fun ho => hn ((hasPort_output_iff hf h).mp ho).1
  · by_cases hused : f.body.Uses n
    · have hasked : n ∈ u.used.union ports := NetSet.mem_union.mpr (Or.inl (hu.2.mpr hused))
      have hreader := hx.reader
      simp only [hused, true_implies] at hreader
      exact (existsThen_forall₂ (children_ports_asked hasked (fun c => hf.child) d.children)).mp hreader
    · have hnot : n ∉ u.used.union ports := by
        rw [NetSet.mem_union, hu.2]
        exact not_or_intro hused hn
      rw [existsThen_of_forall (children_unasked hnot (fun c => hf.child) d.children)]
      obtain ⟨c, hc, hread, ha⟩ := hx.reader.exists
      obtain ⟨c', hc', -, hr⟩ := forall₂_mem_left d.children hc
      exact ⟨c', hc', (hasPort_input_iff_reads (hf.child hc) hr ha).mpr hread⟩

/-- An input that is assigned below comes from such a net, here or, handed on, in a child. -/
theorem crosses_or_child (hf : f.Unported) (h : f.propagatePorts σ ports = .ok f') (hi : f'.HasPort .input n)
    (ha : f.Assigns n) :
    n ∉ ports ∧ (f.Crosses n ∨ ¬ f.body.Uses n ∧ ∃ c' ∈ f'.children, c'.2.HasPort .input n ∧ c'.2.Assigns n) := by
  obtain ⟨u, d⟩ := propagatePorts_derived hf.portless h
  have hu := Body.usage_spec (hf.cells _ f.body_mem_bodies) d.usage n
  obtain ⟨hout, hdriven, hfrom⟩ := (d.input_iff n).mp hi
  have hn : n ∉ ports := fun hn => hout ((hasPort_output_iff hf h).mpr ⟨hn, ha⟩)
  have hself : ¬ f.body.Assigns n := fun hs => hdriven (hu.1.mpr hs)
  have hassigner : ∃ c ∈ f.children, c.2.Assigns n := by
    rw [← node_eta f, assigns_node] at ha
    exact ha.resolve_left hself
  refine ⟨hn, ?_⟩
  by_cases hused : f.body.Uses n
  · have hasked : n ∈ u.used.union ports := NetSet.mem_union.mpr (Or.inl (hu.2.mpr hused))
    have hports := children_ports_asked hasked (fun c => hf.child) d.children
    left
    refine ⟨hself, hassigner, ?_⟩
    simp only [hused, true_implies]
    rcases hfrom with ⟨-, hnone⟩ | hfrom
    · obtain ⟨c, hc, hca⟩ := hassigner
      obtain ⟨c', hc', -, hiff⟩ := forall₂_mem_left hports hc
      exact absurd hca (hiff.mpr (hnone c' hc'))
    · exact (existsThen_forall₂ hports).mpr hfrom
  · have hfrom := (hfrom.resolve_left fun hu' => hused (hu.2.mp hu'.1)).exists
    obtain ⟨c', hc', hci⟩ := hfrom
    obtain ⟨c, hc, -, hr⟩ := forall₂_mem_right d.children hc'
    by_cases hca : c.2.Assigns n
    · exact Or.inr ⟨hused, c', hc', hci, (propagatePorts_assigns (hf.child hc) hr).mpr hca⟩
    · left
      have hread := (hasPort_input_iff_reads (hf.child hc) hr hca).mp hci
      exact ⟨hself, hassigner, (existsThen_of_forall fun _ _ hu' => absurd hu' hused).mpr ⟨c, hc, hread, hca⟩⟩

end Derived

/-- Some fragment takes in a net that is assigned inside it exactly when the net is not asked for and, in a fragment
above which nothing reads it, runs between children that are not joined. -/
theorem assigned_input_iff_crosses {σ : Arenas} {ports : NetSet} {f f' : Fragment} (hf : f.Unported)
    (h : f.propagatePorts σ ports = .ok f') (n : Net) :
    (∃ g ∈ f'.nodes, g.HasPort .input n ∧ g.Assigns n) ↔ n ∉ ports ∧ ∃ g, Unread n f g ∧ g.Crosses n := by
  induction f generalizing ports f' with
  | node b cs ih =>
    obtain ⟨u, d⟩ := propagatePorts_derived hf.portless h
    have hu := Body.usage_spec (hf.cells _ (body_mem_bodies _)) d.usage n
    have hasked : n ∉ u.used.union ports ↔ ¬ b.Uses n ∧ n ∉ ports := by
      rw [NetSet.mem_union, hu.2, not_or]
      rfl
    -- A child that takes in what is assigned inside it has not been asked for it.
    have hbelow : ∀ c' ∈ f'.children, (∃ g ∈ c'.2.nodes, g.HasPort .input n ∧ g.Assigns n) →
        n ∉ ports ∧ ∃ g, Unread n (node b cs) g ∧ g.Crosses n := by
      intro c' hc' hg
      obtain ⟨c, hc, -, hr⟩ := forall₂_mem_right d.children hc'
      obtain ⟨hn, g, hpath, hx⟩ := (ih c hc (hf.child hc) hr).mp hg
      obtain ⟨hused, hn⟩ := hasked.mp hn
      exact ⟨hn, g, .inside hc hused hpath, hx⟩
    constructor
    · rintro ⟨g, hg, hi, ha⟩
      rw [← node_eta f', mem_nodes_node, node_eta] at hg
      rcases hg with rfl | ⟨c', hc', hg⟩
      · have hself := crosses_or_child hf h hi ((propagatePorts_assigns hf h).mp ha)
        obtain ⟨hn, hx | ⟨-, c', hc', hci, hca⟩⟩ := hself
        · exact ⟨hn, _, .here _, hx⟩
        · exact hbelow c' hc' ⟨c'.2, self_mem_nodes _, hci, hca⟩
      · exact hbelow c' hc' ⟨g, hg, hi, ha⟩
    · rintro ⟨hn, g, hpath, hx⟩
      cases hpath with
      | here =>
        have ha : (node b cs).Assigns n := assigns_node.mpr (Or.inr hx.assigner)
        exact ⟨f', self_mem_nodes _, hx.hasPort_input hf h hn, (propagatePorts_assigns hf h).mpr ha⟩
      | inside hc hused hpath =>
        obtain ⟨c', hc', -, hr⟩ := forall₂_mem_left d.children hc
        obtain ⟨g', hg', hleak⟩ := (ih _ hc (hf.child hc) hr).mpr ⟨hasked.mpr ⟨hused, hn⟩, g, hpath, hx⟩
        exact ⟨g', nodes_of_child hc' hg', hleak⟩

section SplitWire

private def wire : SignalId := ⟨0, 1⟩
private def result : SignalId := ⟨0, 2⟩
private def source : SignalId := ⟨0, 3⟩

private def wireDriver : Body :=
  (Body.empty.addStatements [.assign (.signal wire) (.signal source)]).addDriver combDomain (.signal wire)

private def wireReader : Body :=
  (Body.empty.addStatements [.assign (.signal result) (.signal wire)]).addDriver combDomain (.signal result)

/-- A wire from one child to the next, inside a fragment that does not read it. -/
def splitWire : Fragment := .node .empty [("p", .leaf wireDriver), ("q", .leaf wireReader)]

theorem splitWire_unported : splitWire.Unported := by
  have hbodies : splitWire.bodies = [.empty, wireDriver, wireReader] := rfl
  constructor
  · unfold Portless
    rw [hbodies]
    simp [wireDriver, wireReader, Body.empty, Body.addStatements, Body.addDriver, Body.addDrivers]
  · rw [hbodies]
    simp [wireDriver, wireReader, Body.empty, Body.addStatements, Body.addDriver, Body.addDrivers, Body.Sealed]

private theorem wireDriver_assigns : wireDriver.Assigns (.signal wire) :=
  Or.inl ⟨_, List.mem_singleton.mpr rfl, _, rfl, by decide⟩

private theorem wireReader_not_assigns : ¬ wireReader.Assigns (.signal wire) := by
  rintro (⟨s, hs, t, ht, hn⟩ | ⟨i, hi, -⟩)
  · cases List.mem_singleton.mp hs
    cases ht
    exact absurd hn (by decide)
  · cases hi

theorem splitWire_crosses : splitWire.Crosses (.signal wire) := by
  constructor
  · rintro (⟨s, hs, -⟩ | ⟨i, hi, -⟩)
    · cases hs
    · cases hi
  · exact ⟨("p", .leaf wireDriver), by simp [splitWire], assigns_node.mpr (Or.inl wireDriver_assigns)⟩
  · refine ⟨[("p", .leaf wireDriver)], ("q", .leaf wireReader), [], rfl, ⟨?_, ?_⟩, by simp⟩
    · exact reads_node.mpr (Or.inl (Or.inl ⟨_, List.mem_singleton.mpr rfl, by decide⟩))
    · intro ha
      rcases assigns_node.mp ha with ha | ⟨c, hc, -⟩
      · exact wireReader_not_assigns ha
      · cases hc

private theorem splitWire_ported : ∃ f', splitWire.propagatePorts .empty (.ofList [.signal result]) = .ok f' ∧
    f'.HasPort .input (.signal wire) := ⟨_, rfl, rfl⟩

/-- The wire becomes an input of the fragment it is inside of. -/
theorem assigned_input_splitWire :
    ∃ f', splitWire.Unported ∧ splitWire.propagatePorts .empty (.ofList [.signal result]) = .ok f' ∧
      ∃ g ∈ f'.nodes, g.HasPort .input (.signal wire) ∧ g.Assigns (.signal wire) := by
  obtain ⟨f', hports, -⟩ := splitWire_ported
  refine ⟨f', splitWire_unported, hports, ?_⟩
  exact (assigned_input_iff_crosses splitWire_unported hports (.signal wire)).mpr
    ⟨by decide, _, .here _, splitWire_crosses⟩

/-- Not every input is free of assignments below: the wire is both. -/
theorem not_forall_input_unassigned :
    ¬ ∀ (σ : Arenas) (ports : NetSet) (f f' : Fragment), f.Unported → f.propagatePorts σ ports = .ok f' →
      ∀ g ∈ f'.nodes, ∀ n, g.HasPort .input n → ¬ g.Assigns n := by
  intro h
  obtain ⟨f', hports, hinput⟩ := splitWire_ported
  have hassigns := (propagatePorts_assigns splitWire_unported hports).mpr
    (assigns_node.mpr (Or.inr splitWire_crosses.assigner))
  exact h _ _ _ f' splitWire_unported hports f' (self_mem_nodes f') _ hinput hassigns

end SplitWire
end Fragment
end Rtl
