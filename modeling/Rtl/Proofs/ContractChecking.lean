import Mathlib
import Rtl.Proofs.Contract
import Rtl.Proofs.ReportedErrors

/-!
# What a passed check tells

The parts of the contract, said of a tree without its check: nothing is left to lower, patterns are as wide as what they
are matched against, drivers are signals in known domains, and the ports of children lead somewhere. The check passes
exactly the trees that keep them, but for two things. Fragments are told apart by the path they are reported under, so
two that share a path may drive one signal. And the ports of children are looked at only where every left side beside
them can be written.
-/
namespace Rtl

open List

namespace Value

/-- Nothing is left to lower in a value exactly when its leaves are constants and signals. -/
theorem issues_eq_nil_iff {σ : Arenas} {path : String} {v : Value} :
    v.issues σ path = [] ↔ ∀ u ∈ v.leaves, u.Concrete := by
  induction v using operands_induct with
  | const | sample | initial => simp [issues, leaves, Concrete]
  | net n => cases n <;> simp [issues, leaves, Concrete]
  | compound v hv ih =>
    have hops : v.issues σ path = [] ↔ ∀ c ∈ v.operands, c.issues σ path = [] := by
      clear ih
      cases v <;> simp_all [issues, issuesAll_eq_nil_iff, operands, IsLeaf, or_imp, forall_and]
    rw [hops, forall₂_congr ih, leaves_eq_flatMap hv, forall_mem_flatMap]

end Value

namespace Statement

variable {P : Value × List String → Prop}

mutual

/-- The values that a statement selects by, each with the patterns of one arm. -/
def selections : Statement → List (Value × List String)
  | .assign _ _ => []
  | .switch test arms => armsSelections test arms
  | .property _ _ _ _ => []

def bodySelections : List Statement → List (Value × List String)
  | [] => []
  | x :: rest => selections x ++ bodySelections rest

def armsSelections (test : Value) : List (List String × List Statement) → List (Value × List String)
  | [] => []
  | (patterns, body) :: rest => (test, patterns) :: (bodySelections body ++ armsSelections test rest)

end

/-- The patterns are as wide as the value they are matched against. -/
def Fits (σ : Arenas) (s : Value × List String) : Prop := ∀ t ∈ s.2, (t.utf8ByteSize : Int) = s.1.width σ

variable {σ : Arenas} {path : String}

theorem forall_bodySelections {xs : List Statement} :
    (∀ s ∈ bodySelections xs, P s) ↔ ∀ x ∈ xs, ∀ s ∈ x.selections, P s := by
  induction xs with
  | nil => simp [bodySelections]
  | cons x xs ih => rw [bodySelections, forall_mem_append, ih, forall_mem_cons]

theorem forall_armsSelections {test : Value} {arms : List Arm} :
    (∀ s ∈ armsSelections test arms, P s) ↔ ∀ a ∈ arms, P (test, a.1) ∧ ∀ x ∈ a.2, ∀ s ∈ x.selections, P s := by
  induction arms with
  | nil => simp [armsSelections]
  | cons a arms ih =>
    rw [armsSelections, forall_mem_cons, forall_mem_append, ih, forall_bodySelections, forall_mem_cons,
      and_assoc]

/-- A statement passes exactly when nothing is left to lower in its values and its patterns fit. -/
theorem issues_eq_nil_iff {x : Statement} :
    x.issues σ path = [] ↔ (∀ v ∈ x.values, ∀ u ∈ v.leaves, u.Concrete) ∧ ∀ s ∈ x.selections, Fits σ s := by
  induction x with
  | assign =>
    rw [issues, append_eq_nil_iff, Value.issues_eq_nil_iff, Value.issues_eq_nil_iff]
    simp [values, selections]
  | property =>
    rw [issues, Value.issues_eq_nil_iff]
    simp [values, selections]
  | switch test arms ih =>
    have harms : (∀ v ∈ armsValues arms, ∀ u ∈ v.leaves, u.Concrete) ↔
        ∀ a ∈ arms, ∀ x ∈ a.2, ∀ v ∈ x.values, ∀ u ∈ v.leaves, u.Concrete := by
      simp only [mem_armsValues]
      constructor
      · exact fun h a ha x hx v hv => h v ⟨a, ha, x, hx, hv⟩
      · rintro h v ⟨a, ha, x, hx, hv⟩
        exact h a ha x hx v hv
    rw [issues, append_eq_nil_iff, Value.issues_eq_nil_iff, armIssues_eq_nil_iff, values, forall_mem_cons,
      harms, selections, forall_armsSelections]
    constructor
    · rintro ⟨htest, hall⟩
      refine ⟨⟨htest, fun a ha x hx => ((ih a ha x hx).mp ((hall a ha).2 x hx)).1⟩, fun a ha => ?_⟩
      exact ⟨(hall a ha).1, fun x hx => ((ih a ha x hx).mp ((hall a ha).2 x hx)).2⟩
    · rintro ⟨⟨htest, hvalues⟩, hfits⟩
      refine ⟨htest, fun a ha => ⟨(hfits a ha).1, fun x hx => ?_⟩⟩
      exact (ih a ha x hx).mpr ⟨hvalues a ha x hx, (hfits a ha).2 x hx⟩

end Statement

namespace Body

variable {σ : Arenas} {path : String} {b : Body}
variable {cs : List (String × Fragment)}

theorem valueIssues_eq_nil_iff :
    b.valueIssues σ path = [] ↔ (∀ v ∈ b.values, ∀ u ∈ v.leaves, u.Concrete) ∧
      ∀ x ∈ b.statements, ∀ s ∈ x.selections, Statement.Fits σ s := by
  have hstatements : Statement.bodyIssues σ path b.statements = [] ↔
      (∀ v ∈ Statement.bodyValues b.statements, ∀ u ∈ v.leaves, u.Concrete) ∧
        ∀ x ∈ b.statements, ∀ s ∈ x.selections, Statement.Fits σ s := by
    rw [Statement.bodyIssues_eq_nil_iff]
    simp only [Statement.issues_eq_nil_iff, Statement.mem_bodyValues]
    constructor
    · intro h
      refine ⟨?_, fun x hx => (h x hx).2⟩
      rintro v ⟨x, hx, hv⟩
      exact (h x hx).1 v hv
    · exact fun h x hx => ⟨fun v hv => h.1 v ⟨x, hx, hv⟩, h.2 x hx⟩
  unfold valueIssues values
  rw [append_eq_nil_iff, forall_mem_append, hstatements, and_comm, and_right_comm]
  refine and_congr_left' (and_congr_right' ?_)
  cases b.cell with
  | none => simp
  | some => simp [flatMap_eq_nil_iff, Value.issues_eq_nil_iff]

/-- A statement of the fragment writes the net. -/
def Writes (b : Body) (n : Net) : Prop := ∃ x ∈ b.statements, ∃ t, x.targets = .ok t ∧ n ∈ t

/-- A statement of the fragment reads the net, or it is the clock or reset of a domain that the fragment drives in. -/
def Takes (b : Body) (n : Net) : Prop :=
  (∃ x ∈ b.statements, n ∈ x.reads) ∨ ∃ cd ∈ b.driverDomains.filterMap b.domain?, ∃ m ∈ cd.signals, m.key = n.key

/-- The port of the child at position `i` leads somewhere: to a port of the fragment, to its own statements, or to a
port of another child the other way. -/
def Connects (b : Body) (cs : List (String × Fragment)) (i : Nat) (n : Net) : Direction → Prop
  | .input => b.ports.contains n = true ∨ b.Writes n ∨ ∃ j c, cs[j]? = some c ∧ j ≠ i ∧ c.2.HasPort .output n
  | .output => b.ports.contains n = true ∨ b.Takes n ∨ ∃ j c, cs[j]? = some c ∧ j ≠ i ∧ c.2.HasPort .input n
  | .inout => b.ports.contains n = true

/-- Every left side of the fragment can be written. -/
def Writable (b : Body) : Prop := ∀ x ∈ b.statements, ∃ t, x.targets = .ok t

theorem isConnected_iff {u : Usage} (hu : Usage.empty.addStatements σ b.statements = .ok u) {i : Nat} {n : Net}
    {dir : Direction} :
    b.isConnected u.driven (u.used.insertAll ((b.driverDomains.filterMap b.domain?).flatMap ClockDomain.signals)) cs i n
      dir = true ↔ b.Connects cs i n dir := by
  obtain ⟨hdriven, hused⟩ := Usage.addStatements_spec hu n
  have hwrites : n ∈ u.driven ↔ b.Writes n := hdriven.trans (or_iff_right (NetSet.not_mem_empty n))
  have htakes : n ∈ u.used.insertAll ((b.driverDomains.filterMap b.domain?).flatMap ClockDomain.signals) ↔
      b.Takes n := by
    rw [NetSet.mem_insertAll, hused.trans (or_iff_right (NetSet.not_mem_empty n))]
    apply or_congr_right
    simp only [mem_flatMap]
    constructor
    · rintro ⟨m, ⟨cd, hcd, hm⟩, hkey⟩
      exact ⟨cd, hcd, m, hm, hkey⟩
    · rintro ⟨cd, hcd, m, hm, hkey⟩
      exact ⟨m, ⟨cd, hcd, hm⟩, hkey⟩
  unfold isConnected Connects
  cases dir with
  | input => simp only [Bool.or_eq_true, NetSet.contains_iff, hwrites, siblingHas_iff, or_assoc]
  | output => simp only [Bool.or_eq_true, NetSet.contains_iff, htakes, siblingHas_iff, or_assoc]
  | inout => rfl

/-- No port of a child is open exactly when there is none, or all left sides can be written and all ports lead
somewhere. -/
theorem portIssues_eq_nil_iff :
    b.portIssues σ path cs = .ok [] ↔ (cs ≠ [] → b.Writable) ∧
      ∀ i c, cs[i]? = some c → ∀ e ∈ c.2.body.ports.entries, b.Connects cs i e.1 e.2 := by
  have hconn : connections σ .empty .empty b.statements =
      (Usage.empty.addStatements σ b.statements).map fun u => (u.driven, u.used) :=
    connections_eq_map (u := .empty)
  have hwritable : (∃ u, Usage.empty.addStatements σ b.statements = .ok u) ↔ b.Writable := Usage.addStatements_ok_iff
  unfold portIssues
  cases cs with
  | nil => simp
  | cons =>
    rw [if_neg (by simp), hconn]
    cases hu : Usage.empty.addStatements σ b.statements with
    | error =>
      refine iff_of_false (by rintro ⟨⟩) fun h => ?_
      obtain ⟨u, hok⟩ := hwritable.mpr (h.1 (cons_ne_nil _ _))
      rw [hu] at hok
      cases hok
    | ok u =>
      rw [and_iff_right fun _ => hwritable.mp ⟨u, hu⟩]
      refine except_pure_eq_ok.trans ?_
      rw [flatMap_eq_nil_iff]
      constructor
      · intro h i d hd e he
        have hnone := h (d, i) (mem_zipIdx_iff_getElem?.mpr hd)
        rw [map_eq_nil_iff, filter_eq_nil_iff] at hnone
        have hopen := hnone e he
        simpa [isConnected_iff hu] using hopen
      · rintro h ⟨d, i⟩ hd
        rw [map_eq_nil_iff, filter_eq_nil_iff]
        intro e he
        have hlead := h i d (mem_zipIdx_iff_getElem?.mp hd) e he
        simpa [isConnected_iff hu] using hlead

end Body

namespace Fragment

/-- What the contract asks of a fragment and the ports of its children. -/
structure KeepsContract (σ : Arenas) (g : Fragment) : Prop where
  lowered : ∀ v ∈ g.body.values, ∀ u ∈ v.leaves, u.Concrete
  patterns : ∀ x ∈ g.body.statements, ∀ s ∈ x.selections, Statement.Fits σ s
  drivers : ∀ e ∈ g.body.driverPairs,
    (∃ id, e.2 = .signal id) ∧ (e.1 ≠ combDomain → (g.body.domain? e.1).isSome = true)
  connected : ∀ i c, g.children[i]? = some c → ∀ e ∈ c.2.body.ports.entries, g.body.Connects g.children i e.1 e.2

theorem acceptable_iff {σ : Arenas} {path : String} {g : Fragment} :
    Acceptable σ path g ↔ KeepsContract σ g ∧ (g.children ≠ [] → g.body.Writable) := by
  constructor
  · rintro ⟨hvalues, hdrivers, hports⟩
    obtain ⟨hlowered, hpatterns⟩ := Body.valueIssues_eq_nil_iff.mp hvalues
    obtain ⟨hwritable, hconnected⟩ := Body.portIssues_eq_nil_iff.mp hports
    exact ⟨⟨hlowered, hpatterns, hdrivers, hconnected⟩, hwritable⟩
  · rintro ⟨⟨hlowered, hpatterns, hdrivers, hconnected⟩, hwritable⟩
    exact ⟨Body.valueIssues_eq_nil_iff.mpr ⟨hlowered, hpatterns⟩, hdrivers,
      Body.portIssues_eq_nil_iff.mpr ⟨hwritable, hconnected⟩⟩

/-- The check passes a tree exactly when every fragment keeps the contract, left sides beside children can be written,
and two fragments that drive the same signal are reported under the same path. -/
theorem check_passes_iff (σ : Arenas) (f : Fragment) :
    f.check σ = ([], none) ↔
      (∀ g ∈ f.nodes, KeepsContract σ g) ∧ (∀ g ∈ f.nodes, g.children ≠ [] → g.body.Writable) ∧
        (f.located "top").Pairwise fun x y => x.2.body.Apart y.2.body ∨ x.1 = y.1 := by
  rw [check_eq_nil_iff, ← and_assoc, ← forall₂_and]
  simp only [acceptable_iff, or_comm]
  apply and_congr_left'
  constructor
  · intro h g hg
    obtain ⟨x, hx, rfl⟩ := mem_nodes_iff_located.mp hg
    exact h x hx
  · exact fun h x hx => h x.2 (mem_nodes_iff_located.mpr ⟨x, hx, rfl⟩)

section Twins

private def twinNet : SignalId := ⟨0, 1⟩

private def twin : Body :=
  (Body.empty.addStatements [.assign (.signal twinNet) (.const 0 ⟨1, false⟩)]).addDriver combDomain (.signal twinNet)

/-- Two children of the same name drive one signal. -/
def twins : Fragment := .node .empty [("c", .leaf twin), ("c", .leaf twin)]

/-- Not every tree that passes the check has one fragment for each signal. -/
theorem not_forall_check_passes :
    ¬ ∀ (σ : Arenas) (f : Fragment),
      f.check σ = ([], none) ↔ (∀ g ∈ f.nodes, KeepsContract σ g) ∧ f.bodies.Pairwise Body.Apart := by
  intro hall
  have hbodies : twins.bodies = [.empty, twin, twin] := rfl
  obtain ⟨-, hapart⟩ := (hall .empty twins).mp rfl
  rw [hbodies] at hapart
  have hdrives : ∃ e ∈ twin.driverPairs, e.2 = .signal twinNet := ⟨_, mem_singleton.mpr rfl, rfl⟩
  have htwins : twin.Apart twin := by
    simp only [pairwise_cons, mem_cons] at hapart
    exact hapart.2.1 twin (Or.inl rfl)
  exact htwins twinNet hdrives hdrives

end Twins

end Fragment
end Rtl
