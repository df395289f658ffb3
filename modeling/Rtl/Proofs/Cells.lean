import Mathlib
import Rtl.Proofs.Gathering

/-!
# Cells through the resolution of conflicts

A cell that does not ask to be merged is left alone, with everything inside it. One that asks is merged like any other
fragment, and since a merger hands over ports, drivers and statements only, the cell is gone. Two bags of fragments are
followed through the rounds: the cells below the top, and those of them that are going to be merged. Each step takes
the same cells out of both, and at the end the second is empty.
-/
namespace Rtl

open List

namespace Body

/-- A cell that does not ask to be merged. -/
def isFixed (b : Body) : Bool := b.cell.isSome && !b.flatten

/-- A cell that asks to be merged. -/
def isLoose (b : Body) : Bool := b.cell.isSome && b.flatten

end Body

namespace Fragment

variable {fs : List Fragment} {f : Fragment}
variable {σ : Arenas} {g : Fragment} {r : Resolution} {mode : ConflictMode} {gs : List Fragment}

/-- The fragments of a tree that are cells. -/
def cellNodes (f : Fragment) : List Fragment := f.nodes.filter fun g => g.body.cell.isSome

mutual

/-- The fragment and those below it, except inside a fixed cell. -/
def exposedIn : Fragment → List Fragment
  | .node b cs => .node b cs :: if b.isFixed then [] else exposedInAll cs

def exposedInAll : List (String × Fragment) → List Fragment
  | [] => []
  | (_, f) :: rest => exposedIn f ++ exposedInAll rest

end

/-- The fragments below the top that merging can reach: no fixed cell stands above them. -/
def exposed (f : Fragment) : List Fragment := exposedInAll f.children

theorem exposedInAll_eq (cs : List (String × Fragment)) : exposedInAll cs = (cs.map Prod.snd).flatMap exposedIn := by
  induction cs with
  | nil => rfl
  | cons c cs ih => rw [exposedInAll, ih, map_cons, flatMap_cons]

theorem exposedIn_subset_nodes (hg : g ∈ f.exposedIn) : g ∈ f.nodes := by
  induction f with
  | node b cs ih =>
    rw [exposedIn] at hg
    rcases mem_cons.mp hg with rfl | hg
    · exact self_mem_nodes _
    · split at hg
      · cases hg
      · rw [exposedInAll_eq, flatMap_map] at hg
        obtain ⟨c, hc, hg⟩ := mem_flatMap.mp hg
        exact nodes_of_child hc (ih c hc hg)

theorem exposed_subset_nodes (hg : g ∈ f.exposed) : g ∈ f.nodes := by
  rw [exposed, exposedInAll_eq, flatMap_map] at hg
  obtain ⟨c, hc, hg⟩ := mem_flatMap.mp hg
  exact nodes_of_child hc (exposedIn_subset_nodes hg)

/-- All cells of some trees. -/
def cellBag (fs : List Fragment) : Multiset Fragment := ↑(fs.flatMap cellNodes)

/-- The cells of some trees that are going to be merged. -/
def looseBag (fs : List Fragment) : Multiset Fragment :=
  ↑((fs.flatMap exposedIn).filter fun g => g.body.isLoose)

theorem cellBag_append (fs gs : List Fragment) : cellBag (fs ++ gs) = cellBag fs + cellBag gs := by
  rw [cellBag, flatMap_append]
  rfl

theorem looseBag_append (fs gs : List Fragment) : looseBag (fs ++ gs) = looseBag fs + looseBag gs := by
  rw [looseBag, flatMap_append, filter_append]
  rfl

theorem cellBag_perm (h : fs.Perm gs) : cellBag fs = cellBag gs :=
  Multiset.coe_eq_coe.mpr (h.flatMap_right _)

theorem looseBag_perm (h : fs.Perm gs) : looseBag fs = looseBag gs :=
  Multiset.coe_eq_coe.mpr ((h.flatMap_right _).filter _)

theorem looseBag_eq_zero_of_forall (h : ∀ f ∈ fs, looseBag [f] = 0) : looseBag fs = 0 := by
  induction fs with
  | nil => rfl
  | cons f fs ih =>
    obtain ⟨hf, hfs⟩ := forall_mem_cons.mp h
    have happend := looseBag_append [f] fs
    rw [hf, ih hfs, add_zero] at happend
    exact happend

/-- A tree's cells are the top, if it is one, and those below. -/
theorem cellBag_singleton (f : Fragment) :
    cellBag [f] = (if f.body.cell.isSome then {f} else 0) + cellBag (f.children.map Prod.snd) := by
  cases f with
  | node b cs =>
    have hbelow : (nodesAll cs).filter (fun g => g.body.cell.isSome) = (cs.map Prod.snd).flatMap cellNodes := by
      rw [nodesAll_eq, filter_flatMap, flatMap_map]
      rfl
    rw [cellBag, flatMap_singleton, cellNodes, nodes, filter_cons, hbelow]
    cases hc : b.cell.isSome with
    | true | false => simp [body, hc, cellBag, children]

theorem looseBag_singleton (f : Fragment) :
    looseBag [f] = (if f.body.isLoose then {f} else 0) +
      if f.body.isFixed then 0 else looseBag (f.children.map Prod.snd) := by
  cases f with
  | node b =>
    rw [looseBag, flatMap_singleton, exposedIn, exposedInAll_eq, filter_cons]
    cases hl : b.isLoose with
    | true | false =>
      cases hf : b.isFixed with
      | true => simp [body, hl, hf]
      | false => simp [body, hl, hf, looseBag, children]

/-- The same cells leave both bags. -/
def Sheds (fs gs : List Fragment) : Prop :=
  ∃ gone : Multiset Fragment, cellBag fs = cellBag gs + gone ∧ looseBag fs = looseBag gs + gone

namespace Sheds

variable {fs gs : List Fragment}

theorem refl (fs : List Fragment) : Sheds fs fs := ⟨0, (add_zero _).symm, (add_zero _).symm⟩

theorem trans {hs : List Fragment} (h : Sheds fs gs) (h' : Sheds gs hs) : Sheds fs hs := by
  obtain ⟨gone, hcells, hloose⟩ := h
  obtain ⟨gone', hcells', hloose'⟩ := h'
  exact ⟨gone' + gone, by rw [hcells, hcells', add_assoc], by rw [hloose, hloose', add_assoc]⟩

theorem of_perm (h : fs.Perm gs) : Sheds fs gs :=
  ⟨0, by rw [cellBag_perm h, add_zero], by rw [looseBag_perm h, add_zero]⟩

theorem append {fs' gs' : List Fragment} (h : Sheds fs gs) (h' : Sheds fs' gs') : Sheds (fs ++ fs') (gs ++ gs') := by
  obtain ⟨gone, hcells, hloose⟩ := h
  obtain ⟨gone', hcells', hloose'⟩ := h'
  refine ⟨gone + gone', ?_, ?_⟩
  · rw [cellBag_append, cellBag_append, hcells, hcells', add_add_add_comm]
  · rw [looseBag_append, looseBag_append, hloose, hloose', add_add_add_comm]

theorem flatMap {g : Fragment → List Fragment} (h : ∀ f ∈ fs, Sheds [f] (g f)) : Sheds fs (fs.flatMap g) := by
  induction fs with
  | nil => exact .refl _
  | cons f fs ih =>
    obtain ⟨hf, hfs⟩ := forall_mem_cons.mp h
    exact append hf (ih hfs)

theorem forall₂ (h : List.Forall₂ (fun f g => Sheds [f] [g]) fs gs) : Sheds fs gs := by
  induction h with
  | nil => exact .refl _
  | cons hf _ ih => exact append hf ih

theorem below {g : Fragment} (hf : f.body.cell = none) (hg : g.body.cell = none)
    (h : Sheds (f.children.map Prod.snd) (g.children.map Prod.snd)) : Sheds [f] [g] := by
  obtain ⟨gone, hcells, hloose⟩ := h
  refine ⟨gone, ?_, ?_⟩
  · rw [cellBag_singleton, cellBag_singleton, hf, hg, hcells]
    simp
  · rw [looseBag_singleton, looseBag_singleton, hloose]
    simp [Body.isLoose, Body.isFixed, hf, hg]

/-- A fragment that gives way to its children takes itself out of both bags, unless it is fixed. -/
theorem children (hf : f.body.isFixed = false) : Sheds [f] (f.children.map Prod.snd) := by
  have hcell : f.body.cell.isSome = f.body.isLoose := by
    unfold Body.isFixed at hf
    unfold Body.isLoose
    cases h : f.body.cell.isSome with
    | false => rfl
    | true => simpa [h] using hf.symm
  refine ⟨if f.body.isLoose then {f} else 0, ?_, ?_⟩
  · rw [cellBag_singleton, hcell, add_comm]
  · rw [looseBag_singleton, hf, add_comm]
    rfl

/-- Once nothing is left to merge, what was going to be merged is what is gone. -/
theorem cellBag_eq (h : Sheds fs gs) (hg : looseBag gs = 0) : cellBag fs = cellBag gs + looseBag fs := by
  obtain ⟨gone, hcells, hloose⟩ := h
  rw [hcells, hloose, hg, zero_add]

end Sheds

/-- What one round needs to know of the resolution of a child. -/
structure CellsSettled (f g : Fragment) : Prop where
  sheds : Sheds (f.children.map Prod.snd) (g.children.map Prod.snd)
  settled : looseBag (g.children.map Prod.snd) = 0

section Round

variable {σ : Arenas} {mode : ConflictMode} {fuel : Nat} {b : Body} {cs : List (String × Fragment)} {s : Survey}
  {es : List Entry} (h : Surveyed (resolveWith σ mode fuel) b cs es s)
include h

theorem Surveyed.sheds (ih : ∀ path f r, resolveWith σ mode fuel path f = .ok r → CellsSettled f r.fragment) :
    Sheds (cs.map Prod.snd) (s.children.map Prod.snd) := by
  refine Sheds.forall₂ ?_
  rw [forall₂_map_left_iff, forall₂_map_right_iff]
  refine h.forall₂ (fun _ _ _ => .refl _) ?_
  intro c _ hnone path r hr
  exact .below hnone ((resolveWith_gathered_any hr).cell.trans hnone) (ih _ _ _ hr).sheds

/-- A child that stays and is still to be merged asks for it itself. -/
theorem Surveyed.looseBag_eq_zero
    (ih : ∀ path f r, resolveWith σ mode fuel path f = .ok r → CellsSettled f r.fragment) (hp : s.positions = []) :
    looseBag (s.children.map Prod.snd) = 0 := by
  refine looseBag_eq_zero_of_forall fun f hf => ?_
  obtain ⟨c', hc', rfl⟩ := mem_map.mp hf
  have hunmarked := (Survey.settled hp).1 c' hc'
  obtain ⟨i, hi⟩ := getElem?_of_mem hc'
  obtain ⟨c, e, -, he, rfl, -⟩ := h.child hi
  rw [looseBag_singleton]
  cases he with
  | cell hc => simp [Body.isLoose, Body.isFixed, hc, hunmarked]
  | resolved hc hr =>
    have hcell := (resolveWith_gathered_any hr).cell.trans hc
    simp [Body.isLoose, Body.isFixed, hcell, (ih _ _ _ hr).settled]

theorem Surveyed.not_isFixed (hf : f ∈ byLabel s.children s.positions) : f.body.isFixed = false := by
  obtain ⟨i, hi, c', hc', rfl⟩ := mem_byLabel.mp hf
  obtain ⟨c, hc, hmarked⟩ := h.position hi
  obtain rfl : c = c' := Option.some.inj (hc.symm.trans hc')
  cases hcell : c.2.body.cell with
  | none => simp [Body.isFixed, hcell]
  | some => simp [Body.isFixed, hmarked (by rw [hcell]; rfl)]

end Round

theorem mergeChildren_sheds {b : Body} {cs : List (String × Fragment)} {positions : List Nat} (hp : positions.Nodup)
    (hfree : ∀ f ∈ byLabel cs positions, f.body.isFixed = false) :
    Sheds (cs.map Prod.snd) ((mergeChildren b cs positions).children.map Prod.snd) := by
  have hsplit : Sheds (cs.map Prod.snd) ((without positions 0 cs).map Prod.snd ++ byLabel cs positions) :=
    .of_perm ((byLabel_append_without_perm hp cs).symm.trans perm_append_comm)
  have hmerged : Sheds (byLabel cs positions) (((byLabel cs positions).flatMap children).map Prod.snd) := by
    rw [map_flatMap]
    exact .flatMap fun f hf => .children (hfree f hf)
  have hchildren : (mergeChildren b cs positions).children.map Prod.snd =
      (without positions 0 cs).map Prod.snd ++ ((byLabel cs positions).flatMap children).map Prod.snd :=
    map_append
  rw [hchildren]
  exact hsplit.trans (.append (.refl _) hmerged)

/-- Whatever resolving returns has lost the cells that asked to be merged and no others. -/
theorem resolveWith_cellsSettled {fuel : Nat} {path : List String} (h : resolveWith σ mode fuel path f = .ok r) :
    CellsSettled f r.fragment := by
  induction fuel generalizing path f r with
  | zero => cases h
  | succ fuel ih =>
    cases f with
    | node b =>
      obtain ⟨s, es, hs, -, hround⟩ := resolveWith_inv h
      have hsurvey := hs.sheds fun path f r hr => ih hr
      rcases hround with ⟨hp, rfl⟩ | ⟨-, r', conflicts, rfl, hr'⟩
      · exact ⟨hsurvey, hs.looseBag_eq_zero (fun path f r hr => ih hr) hp⟩
      · have hmerge := mergeChildren_sheds (b := b) s.positions_nodup fun f => hs.not_isFixed
        have hrest := ih hr'
        exact ⟨(hsurvey.trans hmerge).trans hrest.sheds, hrest.settled⟩

/-- The cells of a tree. -/
def cells (f : Fragment) : List Instance := f.bodies.filterMap Body.cell

theorem cells_eq (f : Fragment) :
    (f.cells : Multiset Instance) =
      ↑f.body.cell.toList + (cellBag (f.children.map Prod.snd)).filterMap fun g => g.body.cell := by
  have hnodes : ∀ l : List Fragment, (l.filter fun g => g.body.cell.isSome).filterMap (fun g => g.body.cell) =
      l.filterMap fun g => g.body.cell := by
    intro l
    rw [filterMap_filter]
    congr 1
    funext g
    cases g.body.cell <;> rfl
  have hbelow : (f.children.map Prod.snd).flatMap cellNodes =
      (f.children.flatMap fun c => c.2.nodes).filter fun g => g.body.cell.isSome := by
    rw [filter_flatMap, flatMap_map]
    rfl
  rw [cellBag, Multiset.filterMap_coe, hbelow, hnodes, Multiset.coe_add, cells, bodies_eq_map_nodes]
  cases f with
  | node b =>
    rw [nodes_node, map_cons, filterMap_cons, filterMap_map]
    cases hc : b.cell with
    | none | some => simp [body, hc, children, Function.comp_def]

/-- The cells that resolving takes out of a tree. -/
def looseCells (f : Fragment) : List Instance :=
  (f.exposed.filter fun g => g.body.isLoose).filterMap fun g => g.body.cell

theorem looseCells_eq_nil_iff : f.looseCells = [] ↔ ∀ g ∈ f.exposed, g.body.cell.isSome → g.body.flatten = false := by
  rw [looseCells, filterMap_eq_nil_iff]
  simp only [mem_filter, Body.isLoose, Bool.and_eq_true]
  constructor
  · intro h g hg hc
    by_contra hm
    have hnone := h g ⟨hg, hc, by simpa using hm⟩
    rw [hnone] at hc
    cases hc
  · rintro h g ⟨hg, hc, hm⟩
    exact absurd (h g hg hc) (by simp [hm])

theorem resolveConflicts_cells_append_perm (h : f.resolveConflicts σ mode = .ok r) :
    (r.fragment.cells ++ f.looseCells).Perm f.cells := by
  have hsettled := resolveWith_cellsSettled h
  have hloose : looseBag (f.children.map Prod.snd) = ↑(f.exposed.filter fun g => g.body.isLoose) := by
    rw [looseBag, exposed, exposedInAll_eq]
  rw [← Multiset.coe_eq_coe, ← Multiset.coe_add, cells_eq, cells_eq f, (resolveWith_gathered_any h).cell,
    hsettled.sheds.cellBag_eq hsettled.settled, hloose, Multiset.filterMap_add, Multiset.filterMap_coe, add_assoc]
  rfl

/-- In every mode in which the conflicts of a tree can be resolved, its cells are those of the resolved tree and those
below the top that ask to be merged, except inside a cell that does not. So every cell is kept exactly when no cell
that merging can reach asks for it. -/
theorem resolveConflicts_cells_perm_iff {σ : Arenas} {mode : ConflictMode} {f : Fragment} {r : Resolution}
    (h : f.resolveConflicts σ mode = .ok r) :
    (r.fragment.cells ++ f.looseCells).Perm f.cells ∧
    (r.fragment.cells.Perm f.cells ↔ ∀ g ∈ f.exposed, g.body.cell.isSome → g.body.flatten = false) := by
  have hperm := resolveConflicts_cells_append_perm h
  refine ⟨hperm, ?_⟩
  rw [← looseCells_eq_nil_iff]
  constructor
  · intro hkept
    have hlength := hperm.length_eq.trans hkept.length_eq.symm
    rw [length_append] at hlength
    exact length_eq_zero_iff.mp (by omega)
  · intro hnil
    rwa [hnil, append_nil] at hperm

section Sheltered

private def wiredCell (kind : String) (marked : Bool) : Body :=
  { Body.empty with cell := some ⟨kind, [], []⟩, flatten := marked }

private def claiming : Body := Body.empty.addDriver combDomain (.signal ⟨0, 1⟩)

/-- The top and its first child drive one net, so that the child is merged and its cell moves up. The other cell holds
one that asks to be merged. -/
def sheltered : Fragment :=
  .node claiming [("a", .node claiming [("pll", .leaf (wiredCell "PLL" false))]),
    ("hard", .node (wiredCell "HARD" false) [("buf", .leaf (wiredCell "BUF" true))])]

theorem resolveConflicts_sheltered : ∃ r, sheltered.resolveConflicts .empty .warn = .ok r ∧
    r.fragment.cells.Perm sheltered.cells := by
  obtain ⟨r, hr⟩ : ∃ r, sheltered.resolveConflicts .empty .warn = .ok r := resolveWith_ends (by decide) le_rfl
  have hexposed : sheltered.exposed = [.node claiming [("pll", .leaf (wiredCell "PLL" false))],
    .leaf (wiredCell "PLL" false), .node (wiredCell "HARD" false) [("buf", .leaf (wiredCell "BUF" true))]] := rfl
  refine ⟨r, hr, (resolveConflicts_cells_perm_iff hr).2.mpr ?_⟩
  rw [hexposed]
  simp only [forall_mem_cons]
  exact ⟨fun _ => rfl, fun _ => rfl, fun _ => rfl, by simp⟩

private def crossing : Fragment := .node .empty [("buf", .leaf (wiredCell "BUF" true))]

/-- A cell that asks to be merged is lost, conflicts or not. -/
theorem not_forall_resolveConflicts_cells_perm : ¬ ∀ (σ : Arenas) (mode : ConflictMode) (f : Fragment) (r : Resolution),
    f.resolveConflicts σ mode = .ok r → r.fragment.cells.Perm f.cells := by
  intro h
  obtain ⟨r, hr⟩ : ∃ r, crossing.resolveConflicts .empty .warn = .ok r := resolveWith_ends (by decide) le_rfl
  have hrun : (crossing.resolveConflicts .empty .warn).toOption.map (fun r => r.fragment.cells.length) = some 0 := by
    decide +kernel
  rw [hr] at hrun
  exact absurd ((Option.some.inj hrun).symm.trans (h _ _ _ r hr).length_eq) (by decide +kernel)

end Sheltered
end Fragment
end Rtl
