import Mathlib
import Rtl.Proofs.Cells
import Rtl.Proofs.Persistence
import Rtl.Proofs.SampleTrees

/-!
# What stands inside prepared cells

A cell is opaque: it has no statements, drives nothing and holds no fragments. Lowering samples does not know that, and
gives a cell whose ports read something late the same registers and the same first-cycle cell as any other fragment.
The later passes change nothing about it, and conflicts are resolved around the cells that stay. So a prepared tree has
bare cells where nothing late is read by a cell that stays, and has not where something is.
-/
namespace Rtl

open List

variable {u : Value} {x : Fragment}

/-- What lowering makes something for, whatever it has made before: the first-cycle flag, a sample of it, and a sample
of a constant or a signal with a delay. -/
def Value.IsHeld : Value → Prop
  | .sample v n _ => v = .initial ∨ v.IsSteady ∧ n ≠ 0
  | .initial => True
  | _ => False

/-- The value is a leaf of something bound to a port of the cell. -/
def Body.ReadsAtPort (b : Body) (u : Value) : Prop :=
  ∃ i x, b.cell = some i ∧ x ∈ i.ports ∧ u ∈ x.value.leaves

namespace Fragment

variable {f f' g g' : Fragment}
variable {path : List Nat}

/-- A fragment with no statements, no drivers and no fragments below it. -/
def Bare (g : Fragment) : Prop := g.body.Quiet ∧ g.children = []

/-- A fragment with a statement or with a fragment below it. -/
def Filled (g : Fragment) : Prop := g.body.statements ≠ [] ∨ g.children ≠ []

/-- Every cell of the tree is bare. -/
def CellsBare (f : Fragment) : Prop := ∀ g ∈ f.nodes, g.body.cell.isSome → g.Bare

/-- The fragment at the path is a cell that the resolution of conflicts leaves where it is: the top, or one that does
not ask to be merged. -/
structure Stays (f : Fragment) (path : List Nat) (g : Fragment) : Prop where
  here : f.at? path = some g
  cell : g.body.cell.isSome
  fixed : path = [] ∨ g.body.flatten = false

instance (g : Fragment) : Decidable g.Bare :=
  inferInstanceAs (Decidable ((g.body.statements = [] ∧ g.body.driverPairs = []) ∧ g.children = []))

instance (f : Fragment) : Decidable f.CellsBare :=
  inferInstanceAs (Decidable (∀ g ∈ f.nodes, g.body.cell.isSome → g.Bare))

theorem CellsBare.cell_eq_none (h : f.CellsBare) (hg : g ∈ f.nodes)
    (hused : (∃ d n, g.body.Drives d n) ∨ g.children ≠ []) : g.body.cell = none := by
  by_contra hcell
  obtain ⟨hquiet, hnil⟩ := h g hg (Option.isSome_iff_ne_none.mpr hcell)
  rcases hused with ⟨d, n, hd⟩ | hne
  · exact Body.driverPairs_eq_nil_iff.mp hquiet.2 d n hd
  · exact hne hnil

variable (h : f.Persists f')
include h

theorem Persists.children (hg : f.at? path = some g) (hg' : f'.at? path = some g') :
    g'.children = [] ↔ g.children = [] := by
  have hlook : ∀ {x : Fragment}, x.children = [] ↔ x.at? [0] = none := by
    intro x
    rw [at?]
    cases x.children <;> simp [at?]
  have hrel := h (path ++ [0])
  rw [at?_append hg, at?_append hg'] at hrel
  rw [hlook, hlook]
  revert hrel
  generalize g.at? [0] = x
  generalize g'.at? [0] = y
  rintro (hr | -) <;> simp

theorem Persists.bare (hg : f.at? path = some g) (hg' : f'.at? path = some g') (hbare : g.Bare) :
    g'.Bare := by
  obtain ⟨g1, hg1, hr⟩ := h.right hg
  obtain rfl := Option.some.inj (hg'.symm.trans hg1)
  exact ⟨hr.quiet hbare.1, (h.children hg hg').mpr hbare.2⟩

theorem Persists.filled (hg : f.at? path = some g) (hg' : f'.at? path = some g') (hfilled : g.Filled) : g'.Filled:= by
  obtain ⟨g1, hg1, hr⟩ := h.right hg
  obtain rfl := Option.some.inj (hg'.symm.trans hg1)
  exact hfilled.imp (fun hs hs' => hs (hr.statements hs')) fun hc hc' => hc ((h.children hg hg').mp hc')

theorem Persists.stays (hg : f.Stays path g) : ∃ g', f'.Stays path g' := by
  obtain ⟨g', hg', hr⟩ := h.right hg.here
  refine ⟨g', hg', hr.cell.trans hg.cell, hg.fixed.imp id fun hm => ?_⟩
  exact hr.flatten.trans hm

theorem Persists.stayed (hg' : f'.Stays path g') : ∃ g, f.Stays path g := by
  obtain ⟨g, hg, hr⟩ := h.left hg'.here
  refine ⟨g, hg, hr.cell.symm.trans hg'.cell, hg'.fixed.imp id fun hm => ?_⟩
  exact hr.flatten.symm.trans hm

theorem Persists.cellsBare (hf : f.CellsBare) : f'.CellsBare := by
  intro g' hg' hcell
  obtain ⟨path, hpath⟩ := mem_nodes_iff_at?.mp hg'
  obtain ⟨g, hg, hr⟩ := h.left hpath
  exact h.bare hg hpath (hf g (mem_nodes_iff_at?.mpr ⟨path, hg⟩) (hr.cell.symm.trans hcell))

theorem Persists.exists_filled (hf : ∃ g ∈ f.nodes, g.body.cell.isSome ∧ g.Filled) :
    ∃ g ∈ f'.nodes, g.body.cell.isSome ∧ g.Filled := by
  obtain ⟨g, hg, hcell, hfilled⟩ := hf
  obtain ⟨path, hpath⟩ := mem_nodes_iff_at?.mp hg
  obtain ⟨g', hg', hr⟩ := h.right hpath
  exact ⟨g', mem_nodes_iff_at?.mpr ⟨path, hg'⟩, hr.cell.trans hcell, h.filled hpath hg' hfilled⟩

end Fragment

namespace Delays

section Laid

variable {a : Nat} {σ σ' : Arenas} {f f' : Fragment} {E : List Nat → Arenas × State}
variable {b b' : Body} {g g' : Fragment}
variable {path : List Nat} {e : Arenas × State}

theorem Stage.cell_isSome (h : Stage a e b b') : b'.cell.isSome = b.cell.isSome := by
  obtain ⟨b1, hb1, hcell, -, -⟩ := h.body
  have hrel := hb1.cell
  rw [hcell]
  revert hrel
  generalize b.cell = c
  generalize b1.cell = c'
  rintro (hr | -) <;> rfl

theorem Stage.flatten (h : Stage a e b b') : b'.flatten = b.flatten := by
  obtain ⟨b1, hb1, -, hflatten, -⟩ := h.body
  exact hflatten.trans hb1.flatten

/-- Where nothing is late, a body with nothing is left with nothing. -/
theorem Stage.quiet (h : Stage a e b b') (hb : b.Quiet) (hlate : ∀ v ∈ b.values, ∀ u ∈ v.leaves, ¬ u.IsLate) :
    b'.Quiet := by
  obtain ⟨hchains, -⟩ := h.idle hlate
  obtain ⟨b1, hb1, -, -, hstmts⟩ := h.body
  constructor
  · have hold : b1.statements = [] := by
      have hrel := Statement.bodyRewritten_iff.mp hb1.statements
      rw [hb.1] at hrel
      exact forall₂_nil_left_iff.mp hrel
    rw [hstmts, hold, assignments, lines, hchains]
    rfl
  · rw [Body.driverPairs_eq_nil_iff]
    intro d n hd
    rcases (h.drives d n).mp hd with hd | ⟨r, w, -, c, hc, -⟩
    · exact Body.driverPairs_eq_nil_iff.mp hb.2 d n hd
    · rw [hchains] at hc
      cases hc

/-- What is held leaves a register or a first-cycle flag. -/
theorem Linked.of_held {base : Arenas} {s : State} (hs : Linked False a base s) {w : Value} (hu : u.IsHeld) (h : Became s u w)
    : s.delays.lines ≠ [] ∨ s.delays.initial.isSome := by
  cases u with
  | initial =>
    obtain ⟨id, hid, -⟩ := h
    exact Or.inr (hid ▸ rfl)
  | sample =>
    obtain ⟨-, hfound⟩ := h
    rcases hu with rfl | ⟨hv, hn⟩
    · exact Or.inr (hs.flag hfound)
    · obtain ⟨-, x, k, e, hkey, hx⟩ := hs.get?_inv hfound
      obtain ⟨-, hkn, -⟩ := hv.eq_of_sample_key hkey.symm
      cases k with
      | zero => exact absurd hkn.symm hn
      | succ =>
        rw [← hkn] at hfound
        obtain ⟨r, prev, -, -, hline, -⟩ := hs.link hv hfound
        exact Or.inl (ne_nil_of_mem hline.mem_lines)
  | _ => exact hu.elim

theorem Laid.bare (h : Laid a σ σ' (fun p => f.at? p) (fun p => f'.at? p) E) (hg : f.at? path = some g)
    (hg' : f'.at? path = some g') (hbare : g.Bare) (hlate : ∀ u, g.body.ReadsAtPort u → ¬ u.IsLate) : g'.Bare := by
  obtain ⟨g1, hg1, hstage, -, -, hcount⟩ := h.here hg
  obtain rfl := Option.some.inj (hg1.symm.trans hg')
  have hvalues : ∀ v ∈ g.body.values, ∀ u ∈ v.leaves, ¬ u.IsLate := by
    intro v hv u hu
    rw [Body.values, hbare.1.1] at hv
    obtain ⟨i, hi, hv⟩ := mem_flatMap.mp hv
    obtain ⟨x, hx, rfl⟩ := mem_map.mp hv
    exact hlate u ⟨i, x, Option.mem_toList.mp hi, hx, hu⟩
  refine ⟨hstage.quiet hbare.1 hvalues, length_eq_zero_iff.mp ?_⟩
  rw [hcount, hbare.2, (hstage.idle hvalues).2]
  rfl

theorem Laid.filled (h : Laid a σ σ' (fun p => f.at? p) (fun p => f'.at? p) E) (hg : f.at? path = some g)
    (hg' : f'.at? path = some g') (hu : g.body.ReadsAtPort u) (hheld : u.IsHeld) : g'.Filled := by
  obtain ⟨g1, hg1, hstage, -, -, hcount⟩ := h.here hg
  obtain rfl := Option.some.inj (hg1.symm.trans hg')
  obtain ⟨b1, hb1, -, -, hstmts⟩ := hstage.body
  obtain ⟨w, hw⟩ : ∃ w, Became (E path).2 u w := by
    obtain ⟨i, x, hi, hx, hu⟩ := hu
    have hrel := hb1.cell
    rw [hi] at hrel
    revert hrel
    generalize b1.cell = c
    rintro (hr | -)
    obtain ⟨x', -, -, -, hvalue⟩ := forall₂_mem_left hr.ports hx
    obtain ⟨w, -, hw⟩ := forall₂_mem_left (hvalue.leaves Became.isLeaf) hu
    exact ⟨w, hw⟩
  rcases hstage.linked.of_held hheld hw with hlines | hflag
  · refine Or.inl fun hnil => hlines ?_
    rw [hstmts, assignments] at hnil
    exact map_eq_nil_iff.mp (append_eq_nil_iff.mp hnil).2
  · refine Or.inr fun hnil => ?_
    rw [hnil, Option.length_toList, if_pos hflag] at hcount
    cases hcount

theorem initialCell_bare (id : SignalId) : (initialCell id).Bare := ⟨⟨rfl, rfl⟩, rfl⟩

variable (h : Laid a σ σ' (fun p => f.at? p) (fun p => f'.at? p) E)
include h

theorem Laid.stays (hg : f.Stays path g) :
    ∃ g', f'.Stays path g' := by
  obtain ⟨g', hg', hstage, -⟩ := h.here hg.here
  exact ⟨g', hg', hstage.cell_isSome.trans hg.cell, hg.fixed.imp id fun hm => hstage.flatten.trans hm⟩

/-- Cells that stay are bare after the lowering when they were so before and read nothing late. -/
theorem Laid.stays_bare (hf : f.CellsBare)
    (hlate : ∀ path g, f.Stays path g → ∀ u, g.body.ReadsAtPort u → ¬ u.IsLate) (hg' : f'.Stays path g') : g'.Bare := by
  cases hlook : f.at? path with
  | none =>
    obtain ⟨id, rfl⟩ := h.new hg'.here hlook
    exact initialCell_bare id
  | some g =>
    obtain ⟨g1, hg1, hstage, -⟩ := h.here hlook
    obtain rfl := Option.some.inj (hg1.symm.trans hg'.here)
    have hcell := hstage.cell_isSome.symm.trans hg'.cell
    have hstays : f.Stays path g :=
      ⟨hlook, hcell, hg'.fixed.imp id fun hm => hstage.flatten.symm.trans hm⟩
    exact h.bare hlook hg1 (hf g (Fragment.mem_nodes_iff_at?.mpr ⟨path, hlook⟩) hcell) (hlate path g hstays)

/-- Below a cell at the top, lowering leaves fixed cells only. -/
theorem Laid.below_top (hf : f.CellsBare) (htop : f'.body.cell.isSome) : ∀ c ∈ f'.children, c.2.body.isFixed = true:= by
  intro c hc
  obtain ⟨i, hi⟩ := getElem?_of_mem hc
  have hself : f.at? [] = some f := rfl
  obtain ⟨g', hg', hstage, -⟩ := h.here hself
  obtain rfl := Option.some.inj hg'
  have hnil := (hf f (Fragment.self_mem_nodes f) (hstage.cell_isSome.symm.trans htop)).2
  have hnone : f.at? [i] = none := by
    rw [Fragment.at?, hnil]
    rfl
  obtain ⟨id, hid⟩ := h.new (Fragment.at?_cons.mpr ⟨c, hi, rfl⟩) hnone
  rw [hid]
  rfl

end Laid
end Delays

namespace Fragment

variable {f : Fragment} {σ : Arenas} {mode : ConflictMode} {r : Resolution}

theorem mem_cellBag {fs : List Fragment} : x ∈ cellBag fs ↔ ∃ f ∈ fs, x ∈ f.nodes ∧ x.body.cell.isSome := by
  rw [cellBag, Multiset.mem_coe, mem_flatMap]
  simp only [cellNodes, mem_filter]

/-- The cells below the top. -/
theorem mem_cellBag_children :
    x ∈ cellBag (f.children.map Prod.snd) ↔ x.body.cell.isSome ∧ ∃ i path, f.at? (i :: path) = some x := by
  rw [mem_cellBag]
  constructor
  · rintro ⟨g, hg, hx, hcell⟩
    obtain ⟨c, hc, rfl⟩ := mem_map.mp hg
    obtain ⟨i, hi⟩ := getElem?_of_mem hc
    obtain ⟨path, hpath⟩ := mem_nodes_iff_at?.mp hx
    exact ⟨hcell, i, path, at?_cons.mpr ⟨c, hi, hpath⟩⟩
  · rintro ⟨hcell, i, path, hx⟩
    obtain ⟨c, hi, hpath⟩ := at?_cons.mp hx
    exact ⟨c.2, mem_map_of_mem (mem_of_getElem? hi), mem_nodes_iff_at?.mpr ⟨path, hpath⟩, hcell⟩

/-- Merging can reach every fragment when no fixed cell holds any. -/
theorem exposedIn_eq_nodes (h : ∀ g ∈ f.nodes, g.body.isFixed → g.children = []) : f.exposedIn = f.nodes := by
  induction f with
  | node b cs ih =>
    rw [exposedIn, nodes_node]
    congr 1
    split
    · rename_i hfixed
      rw [show cs = [] from h _ (self_mem_nodes _) hfixed]
      rfl
    · rw [exposedInAll_eq, flatMap_map]
      refine flatMap_congr fun c hc => ih c hc fun g hg => ?_
      exact h g (mem_nodes_node.mpr (Or.inr ⟨c, hc, hg⟩))

/-- A fragment over fixed cells only is resolved already. -/
theorem resolveConflicts_same (h : f.resolveConflicts σ mode = .ok r)
    (hfixed : ∀ c ∈ f.children, c.2.body.isFixed = true) : r.fragment = f := by
  cases f with
  | node b cs =>
    unfold resolveConflicts at h
    obtain ⟨fuel, hfuel⟩ := Nat.exists_eq_succ_of_ne_zero (node b cs).count_pos.ne'
    rw [hfuel] at h
    obtain ⟨s, es, hs, -, hround⟩ := resolveWith_inv h
    have hsome : ∀ {c}, c ∈ cs → c.2.body.cell.isSome = true ∧ c.2.body.flatten = false := by
      intro c hc
      have hone := hfixed c hc
      unfold Body.isFixed at hone
      simpa using hone
    have hsame : List.Forall₂ Eq cs s.children := by
      refine hs.forall₂ (fun _ _ _ => rfl) ?_
      intro c hc hnone
      have hcell := (hsome hc).1
      rw [hnone] at hcell
      cases hcell
    have hchildren : s.children = cs := (forall₂_eq_eq_eq ▸ hsame : cs = s.children).symm
    have hnone : s.positions = [] := by
      rw [eq_nil_iff_forall_not_mem]
      intro i hi
      rcases Survey.mem_positions.mp hi with hi | hi
      · obtain ⟨c, hc, hm⟩ := mem_flattened.mp hi
        rw [hchildren] at hc
        have hunmarked := (hsome (mem_of_getElem? (mem_zipIdx_iff_getElem?.mp hc))).2
        rw [hm] at hunmarked
        cases hunmarked
      · obtain ⟨k, hk⟩ := Ledger.holds_of_involved hi
        obtain ⟨c, hc, hcell⟩ := hs.involves hk
        have hcell' := (hsome (mem_of_getElem? hc)).1
        rw [hcell] at hcell'
        cases hcell'
    rcases hround with ⟨-, rfl⟩ | ⟨hne, -⟩
    · change node b s.children = node b cs
      rw [hchildren]
    · exact absurd hnone hne

/-- The cells of a resolved tree are bare when those that stay were so before. -/
theorem resolveConflicts_cellsBare (h : f.resolveConflicts σ mode = .ok r) (hf : ∀ path g, f.Stays path g → g.Bare) :
    r.fragment.CellsBare := by
  by_cases htop : f.body.cell.isSome
  · have hbare : f.Bare := hf [] f ⟨rfl, htop, Or.inl rfl⟩
    have hsame := resolveConflicts_same h (by rw [hbare.2]; simp)
    rw [hsame]
    intro g hg _
    have hself : f.nodes = [f] := by
      rw [← node_eta f, nodes_node, hbare.2]
      rfl
    rw [hself, mem_singleton] at hg
    exact hg ▸ hbare
  · have hsettled := resolveWith_cellsSettled h
    have hbag := hsettled.sheds.cellBag_eq hsettled.settled
    -- A cell below the resolved top was below the top before, and is bare unless it asks to be merged.
    have hfixed : ∀ {x}, x ∈ cellBag (r.fragment.children.map Prod.snd) → x.body.flatten = false → x.Bare := by
      intro x hx hm
      have hold : x ∈ cellBag (f.children.map Prod.snd) := by
        rw [hbag, Multiset.mem_add]
        exact Or.inl hx
      obtain ⟨hcell, i, path, hat⟩ := mem_cellBag_children.mp hold
      exact hf _ x ⟨hat, hcell, Or.inr hm⟩
    have hunmarked : ∀ {x}, x ∈ cellBag (r.fragment.children.map Prod.snd) → x.body.flatten = false := by
      intro x hx
      by_contra hm
      rw [Bool.not_eq_false] at hm
      obtain ⟨g, hg, hxg, hcell⟩ := mem_cellBag.mp hx
      have hexposed : g.exposedIn = g.nodes := by
        refine exposedIn_eq_nodes fun y hy hyf => ?_
        unfold Body.isFixed at hyf
        simp only [Bool.and_eq_true, Bool.not_eq_true'] at hyf
        exact (hfixed (mem_cellBag.mpr ⟨g, hg, hy, hyf.1⟩) hyf.2).2
      have hloose : x ∈ looseBag (r.fragment.children.map Prod.snd) := by
        rw [looseBag, Multiset.mem_coe, mem_filter, mem_flatMap]
        exact ⟨⟨g, hg, hexposed ▸ hxg⟩, by simp [Body.isLoose, hcell, hm]⟩
      rw [hsettled.settled] at hloose
      exact absurd hloose (Multiset.notMem_zero x)
    intro g hg hcell
    obtain ⟨path, hpath⟩ := mem_nodes_iff_at?.mp hg
    cases path with
    | nil =>
      cases hpath
      rw [(resolveWith_gathered_any h).cell] at hcell
      exact absurd hcell htop
    | cons i path =>
      have hmem := mem_cellBag_children.mpr ⟨hcell, i, path, hpath⟩
      exact hfixed hmem (hunmarked hmem)

/-- A filled cell that stays is in the resolved tree. -/
theorem resolveConflicts_filled (h : f.resolveConflicts σ mode = .ok r)
    (hbelow : f.body.cell.isSome → ∀ c ∈ f.children, c.2.body.isFixed = true) {path : List Nat} {g : Fragment}
    (hg : f.Stays path g) (hfilled : g.Filled) : ∃ g ∈ r.fragment.nodes, g.body.cell.isSome ∧ g.Filled := by
  cases path with
  | nil =>
    obtain rfl := Option.some.inj hg.here
    rw [resolveConflicts_same h (hbelow hg.cell)]
    exact ⟨f, self_mem_nodes f, hg.cell, hfilled⟩
  | cons i path =>
    have hsettled := resolveWith_cellsSettled h
    have hmem := mem_cellBag_children.mpr ⟨hg.cell, i, path, hg.here⟩
    rw [hsettled.sheds.cellBag_eq hsettled.settled, Multiset.mem_add] at hmem
    have hunmarked : g.body.flatten = false := by
      rcases hg.fixed with hnil | hm
      · cases hnil
      · exact hm
    rcases hmem with hmem | hmem
    · obtain ⟨-, j, path', hat⟩ := mem_cellBag_children.mp hmem
      exact ⟨g, mem_nodes_iff_at?.mpr ⟨_, hat⟩, hg.cell, hfilled⟩
    · rw [looseBag, Multiset.mem_coe, mem_filter] at hmem
      unfold Body.isLoose at hmem
      simp [hunmarked] at hmem

/-- Fixed cells below the top stay so. -/
theorem Persists.below_top {f' : Fragment} (h : f.Persists f')
    (hf : f.body.cell.isSome → ∀ c ∈ f.children, c.2.body.isFixed = true) (htop : f'.body.cell.isSome) :
    ∀ c ∈ f'.children, c.2.body.isFixed = true := by
  intro c' hc'
  obtain ⟨i, hi⟩ := getElem?_of_mem hc'
  obtain ⟨g, hg, hr⟩ := h.left (at?_cons.mpr ⟨c', hi, rfl⟩ : f'.at? [i] = some c'.2)
  obtain ⟨c, hc, hself⟩ := at?_cons.mp hg
  obtain rfl := Option.some.inj hself
  have hfixed := hf (h.body.cell.symm.trans htop) c (mem_of_getElem? hc)
  unfold Body.isFixed at hfixed ⊢
  rw [hr.cell, hr.flatten]
  exact hfixed

end Fragment

namespace Prepare

theorem lowered_persists {σ : Arenas} {ports : NetSet} {f f1 f2 f3 : Fragment}
    (hresets : f.insertDomainResets σ = .ok f1) (hlower : f1.lowerDomains σ = .ok f2)
    (hports : f2.propagatePorts σ ports = .ok f3) : f.Persists f3 :=
  ((Fragment.insertControls_persists hresets).trans (Fragment.lowerDomains_persists hlower)).trans
    (Fragment.propagatePorts_persists hports)

section Run

variable {a : Nat} {opts : PrepareOptions} {f : Fragment} {p : Prepared} {s t : PrepareState}

theorem run_cellsBare (ha : a < s.arenas.list.size)
    (hf : ∀ b ∈ f.bodies, ∀ v ∈ b.values, ∀ u ∈ v.leaves, Delays.Samplable u) (hbare : f.CellsBare)
    (hlate : ∀ path g, f.Stays path g → ∀ u, g.body.ReadsAtPort u → ¬ u.IsLate)
    (hg : Gives (run a opts f) s p t) : p.top.CellsBare := by
  obtain ⟨g, f1, f2, ports, ⟨g1, σ1, g2, r, hsamples, hdomains, hr, rfl⟩, hresets, hlower, hports⟩ := run_inv hg
  obtain ⟨E, hlaid⟩ := Fragment.lowerSamples_laid ha hf hsamples
  have hpropagated := Fragment.propagateDomains_persists (gives_run.mpr hdomains)
  refine (lowered_persists hresets hlower hports).cellsBare (Fragment.resolveConflicts_cellsBare hr ?_)
  intro path x hx
  obtain ⟨y, hy⟩ := hpropagated.stayed hx
  exact hpropagated.bare hy.here hx.here (hlaid.stays_bare hbare hlate hy)

theorem run_filled (ha : a < s.arenas.list.size)
    (hf : ∀ b ∈ f.bodies, ∀ v ∈ b.values, ∀ u ∈ v.leaves, Delays.Samplable u) (hbare : f.CellsBare) {path : List Nat}
    (hx : f.Stays path x) (hu : x.body.ReadsAtPort u) (hheld : u.IsHeld) (hg : Gives (run a opts f) s p t) :
    ∃ x ∈ p.top.nodes, x.body.cell.isSome ∧ x.Filled := by
  obtain ⟨g, f1, f2, ports, ⟨g1, σ1, g2, r, hsamples, hdomains, hr, rfl⟩, hresets, hlower, hports⟩ := run_inv hg
  obtain ⟨E, hlaid⟩ := Fragment.lowerSamples_laid ha hf hsamples
  have hpropagated := Fragment.propagateDomains_persists (gives_run.mpr hdomains)
  obtain ⟨y, hy⟩ := hlaid.stays hx
  obtain ⟨z, hz⟩ := hpropagated.stays hy
  have hfilled := hpropagated.filled hy.here hz.here (hlaid.filled hx.here hy.here hu hheld)
  refine (lowered_persists hresets hlower hports).exists_filled (Fragment.resolveConflicts_filled hr ?_ hz hfilled)
  exact hpropagated.below_top (hlaid.below_top hbare)

end Run
end Prepare

namespace Work

/-- If a block elaborates to a tree with bare cells, and its preparation succeeds, with whatever options, then the cells
of the prepared tree are bare where no cell that stays reads anything late, so that what drives something or holds a
fragment is no cell. Where such a cell reads the first-cycle flag, or a sample with a delay of a constant or a signal,
some cell of the prepared tree has statements or holds a fragment. -/
theorem prepare_cellsBare {w w₁ w₂ : Workspace} {e : Option Elaboratable} {a number top : Nat} {opts : PrepareOptions}
    {reports : Bool} {names : List (String × NetTable String)}
    (helaborate : (elaborate e).run.run w = (.ok number, w₁)) (ha : a < w₁.arenas.list.size)
    (hsamples : ∀ b ∈ (w₁.tree number).bodies, ∀ v ∈ b.values, ∀ u ∈ v.leaves, Delays.Samplable u)
    (hbare : (w₁.tree number).CellsBare) (hprepare : (prepare a opts reports e).run.run w = (.ok (top, names), w₂)) :
    ((∀ path g, (w₁.tree number).Stays path g → ∀ u, g.body.ReadsAtPort u → ¬ u.IsLate) →
      (w₂.tree top).CellsBare ∧
        ∀ g ∈ (w₂.tree top).nodes, (∃ d n, g.body.Drives d n) ∨ g.children ≠ [] → g.body.cell = none) ∧
    ((∃ path g u, (w₁.tree number).Stays path g ∧ g.body.ReadsAtPort u ∧ u.IsHeld) →
      ∃ g ∈ (w₂.tree top).nodes, g.body.cell.isSome ∧ g.Filled) := by
  obtain ⟨p, s, hrun, htop, -⟩ := prepare_inv (gives_run.mpr helaborate) (gives_run.mpr hprepare)
  rw [htop]
  constructor
  · intro hlate
    have hcells := Prepare.run_cellsBare (s := ⟨w₁.arenas, []⟩) ha hsamples hbare hlate hrun
    exact ⟨hcells, fun g hg hused => hcells.cell_eq_none hg hused⟩
  · rintro ⟨path, g, u, hg, hu, hheld⟩
    exact Prepare.run_filled (s := ⟨w₁.arenas, []⟩) ha hsamples hbare hg hu hheld hrun

/-- A block that samples over two cycles, beside a cell that stays and reads no sample, beside one that asks to be
merged and reads the first-cycle flag and a sample. -/
def mounted : Workspace :=
  { Workspace.empty with
    arenas := ⟨#[⟨#[wire "d_clk" 1, wire "d_rst" 1, wire "x" 4, wire "y" 4, wire "z" 1], 1, 0⟩]⟩
    cells := #[⟨{ Body.empty with domains := [pulse] }, [("p", 1), ("c", 2), ("m", 3)]⟩,
      ⟨{ Body.empty with
        statements := [.assign (.signal ⟨0, 4⟩) (.sample (.signal ⟨0, 3⟩) 2 "d")]
        drivers := [("d", ⟨[.signal ⟨0, 4⟩]⟩)] }, []⟩,
      ⟨{ Body.empty with
        cell := some ⟨"$inv", [], [⟨"A", .signal ⟨0, 4⟩, .input⟩, ⟨"Y", .signal ⟨0, 3⟩, .output⟩]⟩ }, []⟩,
      ⟨{ Body.empty with
        cell := some ⟨"$and", [], [⟨"A", .initial, .input⟩, ⟨"B", .sample (.signal ⟨0, 3⟩) 1 "d", .input⟩]⟩
        flatten := true }, []⟩] }

/-- A cell that stays and reads a sample. -/
def tapped : Workspace :=
  { Workspace.empty with
    arenas := ⟨#[⟨#[wire "d_clk" 1, wire "d_rst" 1, wire "a" 1, wire "y" 1], 1, 0⟩]⟩
    cells := #[⟨{ Body.empty with domains := [pulse] }, [("u", 1)]⟩,
      ⟨{ Body.empty with
        cell := some ⟨"BUF", [], [⟨"I", .sample (.signal ⟨0, 3⟩) 1 "d", .input⟩,
          ⟨"O", .signal ⟨0, 4⟩, .output⟩]⟩ }, []⟩] }

private theorem mounted_punctual : ∀ path g, (mounted.tree 0).Stays path g → ∀ u, g.body.ReadsAtPort u →
    ¬ u.IsLate := by
  rintro path g ⟨hhere, hcell, hfixed⟩ u ⟨i, x, hi, hx, hu⟩
  have hnodes : (mounted.tree 0).nodes = [mounted.tree 0, mounted.tree 1, mounted.tree 2, mounted.tree 3] := rfl
  have hmem := Fragment.mem_nodes_iff_at?.mpr ⟨path, hhere⟩
  rw [hnodes] at hmem
  simp only [mem_cons, not_mem_nil, or_false] at hmem
  rcases hmem with rfl | rfl | rfl | rfl
  · cases hi
  · cases hi
  · cases hi
    rcases mem_cons.mp hx with rfl | hx
    · obtain rfl := mem_singleton.mp hu
      exact id
    · obtain rfl := mem_singleton.mp hx
      obtain rfl := mem_singleton.mp hu
      exact id
  · -- The cell that asks to be merged does not stay: it is not the top, which is no cell.
    rcases hfixed with rfl | hm
    · have htop : (mounted.tree 0).body.cell.isSome = true := by
        rw [Option.some.inj hhere]
        rfl
      cases htop
    · cases hm

/-- The cell beside the registers and the merged cell stays bare, and the one with a sample at a port is filled. -/
theorem prepare_cellsBare_mounted :
    (∃ names w₂, (prepare 0 ⟨[.signal ⟨0, 4⟩], true, .warn⟩ true (some (.fragment 0))).run.run mounted =
      (.ok (7, names), w₂) ∧ (w₂.tree 7).CellsBare) ∧
    ∃ names w₂, (prepare 0 .plain true (some (.fragment 0))).run.run tapped = (.ok (3, names), w₂) ∧
      ∃ g ∈ (w₂.tree 3).nodes, g.body.cell.isSome ∧ g.Filled := by
  constructor
  · obtain ⟨names, hprepare⟩ : ∃ names, (prepare 0 ⟨[.signal ⟨0, 4⟩], true, .warn⟩ true
        (some (.fragment 0))).run.run mounted = (.ok (7, names), _) := exists_of_stored (by decide +kernel)
    have helaborate : (elaborate (some (.fragment 0))).run.run mounted = (.ok 0, mounted) := rfl
    exact ⟨names, _, hprepare, ((prepare_cellsBare helaborate (by decide) (by decide +kernel)
      (by decide +kernel) hprepare).1 mounted_punctual).1⟩
  · obtain ⟨names, hprepare⟩ : ∃ names, (prepare 0 .plain true (some (.fragment 0))).run.run tapped =
        (.ok (3, names), _) := exists_of_stored (by decide +kernel)
    have helaborate : (elaborate (some (.fragment 0))).run.run tapped = (.ok 0, tapped) := rfl
    refine ⟨names, _, hprepare, (prepare_cellsBare helaborate (by decide) (by decide +kernel)
      (by decide +kernel) hprepare).2 ⟨[0], tapped.tree 1, .sample (.signal ⟨0, 3⟩) 1 "d", ⟨rfl, rfl, Or.inr rfl⟩, ?_, ?_⟩⟩
    · exact ⟨_, _, rfl, mem_cons_self, mem_singleton.mpr rfl⟩
    · exact Or.inr ⟨trivial, by decide⟩

/-- A cell that reads a sample is given a register of its own, although it was bare. -/
theorem not_forall_prepare_cellsBare : ¬ ∀ (w w₁ w₂ : Workspace) (e : Option Elaboratable) (a number top : Nat)
    (opts : PrepareOptions) (reports : Bool) (names : List (String × NetTable String)),
    (elaborate e).run.run w = (.ok number, w₁) → a < w₁.arenas.list.size →
    (∀ b ∈ (w₁.tree number).bodies, ∀ v ∈ b.values, ∀ u ∈ v.leaves, Delays.Samplable u) →
    (w₁.tree number).CellsBare → (prepare a opts reports e).run.run w = (.ok (top, names), w₂) →
    (w₂.tree top).CellsBare := by
  intro h
  obtain ⟨names, hprepare⟩ : ∃ names, (prepare 0 .plain true (some (.fragment 0))).run.run tapped =
      (.ok (3, names), _) := exists_of_stored (by decide +kernel)
  have hbare := h tapped tapped _ _ 0 0 3 _ _ names rfl (by decide) (by decide +kernel) (by decide +kernel)
    hprepare
  exact absurd hbare (by decide +kernel)

end Work
end Rtl
