import Mathlib
import Rtl.Proofs.Cells

/-!
# Resolved hierarchies

After the conflicts of a tree are resolved no net is driven, and no memory accessed, from two of its fragments, and no
fragment below the top asks to be merged: where nothing is left to merge, the ledger has one holder for everything.
-/
namespace Rtl

open List

theorem Net.key_eq_signal_iff {n : Net} {id : SignalId} : n.key = .signal id ↔ n = .signal id := by
  cases n <;> simp [Net.key]

namespace Body

variable {b b' : Body} {P : Claim → Prop}

/-- A net that the fragment drives has the key, once references are resolved in the fragment's own domains. -/
def Owns (b : Body) (k : NetKey) : Prop := ∃ e ∈ b.driverPairs, (b.resolveNet e.2).key = k

theorem domain?_congr (h : b.domains = b'.domains) : b.domain? = b'.domain? := by
  funext d
  unfold domain?
  rw [h]

theorem resolveNet_key_congr (b : Body) {m n : Net} (h : m.key = n.key) :
    (b.resolveNet m).key = (b.resolveNet n).key := by
  cases m <;> cases n <;> cases h
  · rfl
  · rfl
  · simp only [resolveNet]
    cases b.domain? _ with
    | none => rfl
    | some cd =>
      dsimp only
      cases cd.rst <;> rfl

theorem resolveNet_congr (h : b.domains = b'.domains) : b.resolveNet = b'.resolveNet := by
  funext n
  unfold resolveNet
  rw [domain?_congr h]

/-- What `b'` makes of a net is left alone by the domains of `b`, as far as claims to such nets matter. -/
def Settles (P : Claim → Prop) (b b' : Body) : Prop :=
  ∀ n, P (.net (b'.resolveNet n).key) → (b.resolveNet (b'.resolveNet n)).key = (b'.resolveNet n).key

theorem settles_of_signals (h : ∀ {k}, P (.net k) → ∃ id, k = .signal id) (b b' : Body) : b.Settles P b' := by
  intro n hn
  obtain ⟨id, hid⟩ := h hn
  rw [Net.key_eq_signal_iff.mp hid]
  rfl

/-- Whatever the first fragment knows, the second knows as the same record. -/
def MeansAlike (b x : Body) : Prop := ∀ d cd, b.domain? d = some cd → x.domain? d = some cd

theorem tabular_meansAlike : Tabular MeansAlike where
  congr := by
    intro b b' x x' hb _ hx h d cd hd
    rw [← domain?_congr hx]
    exact h d cd (by rw [domain?_congr hb]; exact hd)
  trans := fun h h' d cd hd => h' d cd (h d cd hd)

/-- Where every domain that `b` knows is known to `b'` as the same record, `b` resolves nothing that `b'` did not. -/
theorem MeansAlike.settles (h : b.MeansAlike b') (P : Claim → Prop) : b.Settles P b' := by
  have hunknown : ∀ d, b'.domain? d = none → b.domain? d = none := by
    intro d hd
    cases hb : b.domain? d with
    | none => rfl
    | some cd => exact absurd ((h d cd hb).symm.trans hd) (by simp)
  intro n _
  cases n with
  | signal => rfl
  | clock d =>
    simp only [resolveNet]
    cases hd : b'.domain? d with
    | some => rfl
    | none => simp only [hunknown d hd]
  | reset d =>
    simp only [resolveNet]
    cases hd : b'.domain? d with
    | none => simp only [hunknown d hd]
    | some cd =>
      cases hr : cd.rst with
      | some => simp only [hr]
      | none =>
        simp only [hr]
        cases hb : b.domain? d with
        | none => rfl
        | some cd' =>
          obtain rfl : cd' = cd := Option.some.inj ((h d cd' hb).symm.trans hd)
          simp only [hr]

/-- At most one fragment, and nothing driven. -/
structure Lone (l : List Body) : Prop where
  length_le : l.length ≤ 1
  idle : ∀ b ∈ l, b.driverPairs = []

theorem Lone.gathered {l l' : List Body} {R : Body → Body → Prop} (hg : Gathered R l l') (h : Lone l) : Lone l' := by
  refine ⟨hg.length_le.trans h.length_le, hg.forall_mem (fun b sub _ hb hsub => ?_) h.idle⟩
  rw [eq_nil_iff_forall_not_mem]
  intro e he
  rcases merge_driverPairs he with he | he
  · rw [hb] at he
    cases he
  · rw [hsub] at he
    cases he

end Body

namespace Fragment

variable {P : Claim → Prop} {R : Body → Body → Prop} {Q : List Body → Prop} {b : Body} {cs : List (String × Fragment)}
  {f g : Fragment} {fuel i : Nat} {σ : Arenas} {mode : ConflictMode} {path : List String} {r : Resolution} {k : Claim}

/-- The memories that cells held by the fragment access. -/
def cellMemories (f : Fragment) : List Memory := f.children.filterMap fun c => c.2.body.cell.bind Instance.memory?

/-- The fragment itself claims a net, by driving it, or a memory, by holding a cell that accesses it. -/
def Claims (g : Fragment) : Claim → Prop
  | .net k => g.body.Owns k
  | .memory id => ∃ m ∈ g.cellMemories, m.id = id

/-- Cells have no children and drive nothing through a driver table. -/
def CellsAreLeaves (f : Fragment) : Prop :=
  ∀ g ∈ f.nodes, g.body.cell.isSome → g.children = [] ∧ g.body.driverPairs = []

instance (f : Fragment) : Decidable f.CellsAreLeaves :=
  inferInstanceAs (Decidable (∀ g ∈ f.nodes, g.body.cell.isSome → g.children = [] ∧ g.body.driverPairs = []))

theorem cellsAreLeaves_node :
    (node b cs).CellsAreLeaves ↔ (b.cell.isSome → cs = [] ∧ b.driverPairs = []) ∧ ∀ c ∈ cs, c.2.CellsAreLeaves :=
  forall_nodes_node

theorem lone_bodies_iff : Body.Lone f.bodies ↔ f.children = [] ∧ f.body.driverPairs = [] := by
  cases f with
  | node b =>
    constructor
    · rintro ⟨hlength, hidle⟩
      refine ⟨?_, hidle b (body_mem_bodies _)⟩
      rw [bodies_node, length_cons, Nat.add_le_add_iff_right, Nat.le_zero, length_eq_zero_iff,
        flatMap_eq_nil_iff] at hlength
      refine eq_nil_iff_forall_not_mem.mpr fun c hc => ?_
      exact ne_nil_of_mem (body_mem_bodies c.2) (hlength c hc)
    · rintro ⟨rfl, hidle⟩
      rw [bodies_node]
      exact ⟨le_rfl, forall_mem_singleton.mpr hidle⟩

theorem cellsAreLeaves_iff : f.CellsAreLeaves ↔ f.InCells Body.Lone :=
  forall₂_congr fun _ _ => imp_congr_right fun _ => lone_bodies_iff.symm

theorem nodes_eq_singleton (h : f.children = []) : f.nodes = [f] := by
  cases f with
  | node =>
    cases h
    rfl

theorem not_claims_of_lone (h : Body.Lone f.bodies) (hg : g ∈ f.nodes) : ¬ g.Claims k := by
  obtain ⟨hchildren, hidle⟩ := lone_bodies_iff.mp h
  rw [nodes_eq_singleton hchildren, mem_singleton] at hg
  subst hg
  cases k with
  | net =>
    rintro ⟨e, he, -⟩
    rw [hidle] at he
    cases he
  | memory =>
    rintro ⟨m, hm, -⟩
    rw [cellMemories, hchildren] at hm
    cases hm

/-- Claims of the kind that can be told apart: the domains of upper fragments leave them alone, and inside cells none
are made. -/
structure Separable (P : Claim → Prop) (R : Body → Body → Prop) (Q : List Body → Prop) : Prop where
  tabular : Body.Tabular R
  settles : ∀ {b x}, R b x → b.Settles P x
  keeps : ∀ {l l'}, Gathered (fun _ _ => True) l l' → Q l → Q l'
  idle : ∀ {f : Fragment}, Q f.bodies → ∀ g ∈ f.nodes, ∀ k, P k → ¬ g.Claims k

/-- No two fragments make one claim of the kind, and all such claims are listed. -/
structure Exclusive (P : Claim → Prop) (r : Resolution) : Prop where
  listed : ∀ g ∈ r.fragment.nodes, ∀ k, P k → g.Claims k → r.Lists k
  apart : r.fragment.nodes.Pairwise fun g g' => ∀ k, P k → g.Claims k → ¬ g'.Claims k

/-- A transitive relation along the edges relates a fragment to all below it. -/
theorem OnEdges.below (hR : Body.Tabular R) (h : f.OnEdges R) {c : String × Fragment} (hc : c ∈ f.children) {x : Body}
    (hx : x ∈ c.2.bodies) : R f.body x := by
  induction f generalizing c with
  | node b cs ih =>
    obtain ⟨hfirst, hbelow⟩ := onEdges_node.mp h c hc
    rw [← node_eta c.2, mem_bodies_node] at hx
    rcases hx with rfl | ⟨c', hc', hx⟩
    · exact hfirst
    · exact hR.trans hfirst (ih c hc hbelow hc' hx)

/-- Where everything has one holder, the fragment itself or one of its children, what is below different holders has
nothing in common. -/
theorem pairwise_of_held {α κ : Type} {has : α → κ → Prop} (held : κ → Option Nat → Prop) {x : α}
    {below : String × Fragment → List α} (hunique : ∀ {k p q}, held k p → held k q → p = q)
    (hown : ∀ k, has x k → held k none)
    (hchild : ∀ {i c}, cs[i]? = some c → ∀ y ∈ below c, ∀ k, has y k → held k (some i))
    (hin : ∀ c ∈ cs, (below c).Pairwise fun y z => ∀ k, has y k → ¬ has z k) :
    (x :: cs.flatMap below).Pairwise fun y z => ∀ k, has y k → ¬ has z k := by
  rw [pairwise_cons, pairwise_flatMap]
  refine ⟨?_, hin, ?_⟩
  · intro y hy k hk hk'
    obtain ⟨c, hc, hy⟩ := mem_flatMap.mp hy
    obtain ⟨i, hi⟩ := mem_iff_getElem?.mp hc
    have hheld := hunique (hown k hk) (hchild hi y hy k hk')
    cases hheld
  · rw [pairwise_iff_getElem]
    intro i j hi hj hij y hy z hz k hk hk'
    have hheld := hunique (hchild (getElem?_eq_getElem hi) y hy k hk)
      (hchild (getElem?_eq_getElem hj) z hz k hk')
    rw [Option.some.injEq] at hheld
    omega

section Round

variable {s : Survey} {es : List Entry} (h : Surveyed (resolveWith σ mode fuel) b cs es s)
include h

/-- What the fragment claims itself is entered under it. -/
theorem Surveyed.holds_own (hk : (node b s.children).Claims k) : s.ledger.Holds k none := by
  cases k with
  | net =>
    obtain ⟨e, he, rfl⟩ := hk
    exact h.own he
  | memory =>
    obtain ⟨m, hm, rfl⟩ := hk
    obtain ⟨c', hc', hcell'⟩ := mem_filterMap.mp hm
    obtain ⟨inst', hinst', hmem⟩ := Option.bind_eq_some_iff.mp hcell'
    obtain ⟨i, hi⟩ := mem_iff_getElem?.mp hc'
    obtain ⟨c, e, -, he, rfl, hclaims⟩ := h.child hi
    cases he with
    | cell hcell =>
      rw [hcell, Option.some.injEq] at hinst'
      exact hclaims _ _ ⟨⟨m, Option.mem_toList.mpr (hinst' ▸ hmem), rfl⟩, rfl⟩
    | resolved hcell hr =>
      rw [(resolveWith_gathered_any hr).cell, hcell] at hinst'
      cases hinst'

variable (hP : Separable P R Q) (hedges : (node b cs).OnEdges R) (hcells : (node b cs).InCells Q)
  (ih : ∀ c ∈ cs, ∀ path r, resolveWith σ mode fuel path c.2 = .ok r → Exclusive P r)
include hP hedges hcells ih

/-- What is claimed in the subtree of a child is entered under the child's position. -/
theorem Surveyed.holds_below {c' : String × Fragment} (hi : s.children[i]? = some c') (hg : g ∈ c'.2.nodes) (hPk : P k)
    (hk : g.Claims k) : s.ledger.Holds k (some i) := by
  have hsettles := hP.settles ((h.round hP.tabular hedges).1.edges.below hP.tabular (mem_of_getElem? hi)
    (mem_bodies_iff.mpr ⟨g, hg, rfl⟩))
  obtain ⟨c, e, hc, he, rfl, hclaims⟩ := h.child hi
  have hmem := mem_of_getElem? hc
  cases he with
  | cell hcell =>
    have hidle := (inCells_node.mp hcells).2 c hmem _ (self_mem_nodes _) (by rw [hcell]; rfl)
    exact absurd hk (hP.idle hidle g hg k hPk)
  | resolved _ hr =>
    rcases (ih c hmem _ _ hr).listed g hg k hPk hk with ⟨n, hn, rfl⟩ | ⟨m, hm, rfl⟩
    · obtain ⟨e, -, hkey⟩ := hk
      have hsame : (b.resolveNet n).key = n.key := by
        rw [b.resolveNet_key_congr hkey.symm]
        exact (hsettles e.2 (hkey ▸ hPk)).trans hkey
      exact hclaims _ _ ⟨Or.inl ⟨n, hn, by rw [hsame]⟩, rfl⟩
    · exact hclaims _ _ ⟨Or.inr ⟨m, hm, rfl⟩, rfl⟩

/-- With nothing left to merge, everything has one holder. -/
theorem Surveyed.exclusive (hp : s.positions = []) : Exclusive P (s.resolution b) := by
  have hinvolved := (Survey.settled hp).2
  constructor
  · intro g hg k hPk hk
    have hheld : ∃ x, s.ledger.Holds k x := by
      rcases mem_nodes_node.mp hg with rfl | ⟨c, hc, hg⟩
      · exact ⟨none, h.holds_own hk⟩
      · obtain ⟨i, hi⟩ := mem_iff_getElem?.mp hc
        exact ⟨some i, h.holds_below hP hedges hcells ih hi hg hPk hk⟩
    exact h.sound.mem_items_iff.mpr hheld
  · have hpairs : (node b s.children).nodes.Pairwise fun g g' => ∀ k, P k ∧ g.Claims k → ¬ (P k ∧ g'.Claims k) := by
      rw [nodes_node]
      refine pairwise_of_held s.ledger.Holds (h.sound.holds_unique hinvolved) (fun k hk => h.holds_own hk.2)
        (fun hi g hg k hk => h.holds_below hP hedges hcells ih hi hg hk.1 hk.2) ?_
      intro c' hc'
      obtain ⟨i, hi⟩ := mem_iff_getElem?.mp hc'
      obtain ⟨c, e, hc, he, rfl, -⟩ := h.child hi
      have hmem := mem_of_getElem? hc
      cases he with
      | cell hcell =>
        have hidle := (inCells_node.mp hcells).2 c hmem _ (self_mem_nodes _) (by rw [hcell]; rfl)
        exact pairwise_of_forall_mem_list fun g hg g' _ k hk => absurd hk.2 (hP.idle hidle g hg k hk.1)
      | resolved _ hr => exact (ih c hmem _ _ hr).apart.imp fun hgg k hk hk' => hgg k hk.1 hk.2 hk'.2
    exact hpairs.imp fun hgg k hPk hk hk' => hgg k ⟨hPk, hk⟩ ⟨hPk, hk'⟩

end Round

/-- After conflicts are resolved, claims that can be told apart are made by one fragment each. -/
theorem resolveWith_exclusive (hP : Separable P R Q) (hedges : f.OnEdges R) (hcells : f.InCells Q)
    (h : resolveWith σ mode fuel path f = .ok r) : Exclusive P r := by
  induction fuel generalizing path f r with
  | zero => cases h
  | succ fuel ih =>
    cases f with
    | node =>
      obtain ⟨s, es, hs, -, hround⟩ := resolveWith_inv h
      have hcs := (inCells_node.mp hcells).2
      rcases hround with ⟨hp, rfl⟩ | ⟨-, r', conflicts, rfl, hr'⟩
      · refine hs.exclusive hP hedges hcells (fun c hc path r hr => ?_) hp
        exact ih (onEdges_node.mp hedges c hc).2 (hcs c hc) hr
      · have hmerge := (hs.round hP.tabular hedges).2
        have hin := hs.inCells hP.keeps hcells fun c hc path r hr => resolveWith_inCells hP.keeps (hcs c hc) hr
        obtain ⟨hlisted, hapart⟩ := ih hmerge.edges hin.2 hr'
        exact ⟨hlisted, hapart⟩

/-- Where cells are leaves, no mark is left below the top. -/
theorem resolveWith_unmarked (hleaves : f.InCells Body.Lone) (h : resolveWith σ mode fuel path f = .ok r) :
    ∀ c ∈ r.fragment.children, ∀ b ∈ c.2.bodies, b.flatten = false := by
  induction fuel generalizing path f r with
  | zero => cases h
  | succ fuel ih =>
    cases f with
    | node =>
      obtain ⟨s, es, hs, -, hround⟩ := resolveWith_inv h
      have hcs := (inCells_node.mp hleaves).2
      rcases hround with ⟨hp, rfl⟩ | ⟨-, r', conflicts, rfl, hr'⟩
      · -- A marked child would be merged; further down, children came out unmarked.
        intro c' hc' x hx
        rw [← node_eta c'.2, mem_bodies_node] at hx
        rcases hx with rfl | ⟨c1, hc1, hx⟩
        · exact (Survey.settled hp).1 c' hc'
        · obtain ⟨i, hi⟩ := mem_iff_getElem?.mp hc'
          obtain ⟨c, e, hc, he, rfl, -⟩ := hs.child hi
          have hmem := mem_of_getElem? hc
          cases he with
          | cell hcell =>
            rw [(lone_bodies_iff.mp (hcs c hmem _ (self_mem_nodes _) (by rw [hcell]; rfl))).1] at hc1
            cases hc1
          | resolved _ hr => exact ih (hcs c hmem) hr c1 hc1 x hx
      · have hin := hs.inCells Body.Lone.gathered hleaves fun c hc path r hr =>
          resolveWith_inCells Body.Lone.gathered (hcs c hc) hr
        have hrest := ih hin.2 hr'
        exact hrest

/-- Every domain that a fragment knows is known to its children as the same record. -/
def DomainsShared (f : Fragment) : Prop :=
  ∀ g ∈ f.nodes, ∀ c ∈ g.children, ∀ d cd, g.body.domain? d = some cd → c.2.body.domain? d = some cd

/-- In trees with shared domains whose cells are leaves, all claims can be told apart. -/
theorem separable_shared : Separable (fun _ => True) Body.MeansAlike Body.Lone :=
  ⟨Body.tabular_meansAlike, fun h => h.settles _, Body.Lone.gathered, fun h _ hg _ _ => not_claims_of_lone h hg⟩

theorem separable_signals : Separable (fun k => ∃ id, k = .net (.signal id)) (fun _ _ => True) Body.Lone :=
  ⟨Body.tabular_any, fun _ => Body.settles_of_signals (fun ⟨id, hid⟩ => ⟨id, Claim.net.inj hid⟩) _ _, Body.Lone.gathered,
    fun h _ hg _ _ => not_claims_of_lone h hg⟩

/-- On a tree with propagated domains whose cells are unmarked leaves without drivers, resolving conflicts without
treating them as errors ends. In the result nets are driven and memories accessed from one fragment each, no mark is
left below the top, and statements, driver pairs and cells are those of the tree, the statements of each fragment
still together and in order. -/
theorem resolveConflicts_exclusive_conserving (σ : Arenas) {mode : ConflictMode} {f : Fragment}
    (hmode : mode = .warn ∨ mode = .silent) (hshared : f.DomainsShared) (hcells : ∀ g ∈ f.nodes, g.body.cell.isSome →
      g.children = [] ∧ g.body.driverPairs = [] ∧ g.body.flatten = false) :
    ∃ r, f.resolveConflicts σ mode = .ok r ∧
      (r.fragment.bodies.Pairwise fun b b' => ∀ k, b.Owns k → ¬ b'.Owns k) ∧
      (r.fragment.nodes.Pairwise fun g g' => ∀ m ∈ g.cellMemories, ∀ m' ∈ g'.cellMemories, m.id ≠ m'.id) ∧
      (∀ c ∈ r.fragment.children, ∀ b ∈ c.2.bodies, b.flatten = false) ∧
      (r.fragment.bodies.flatMap Body.statements).Perm (f.bodies.flatMap Body.statements) ∧
      (∀ d n, (∃ b ∈ r.fragment.bodies, b.Drives d n) ↔ ∃ b ∈ f.bodies, b.Drives d n) ∧
      (r.fragment.bodies.filterMap Body.cell).Perm (f.bodies.filterMap Body.cell) ∧
      ∃ groups : List (List Body), groups.flatten.Perm f.bodies ∧
        List.Forall₂ (fun g b => b.statements = g.flatMap Body.statements) groups r.fragment.bodies := by
  have hleaves : f.CellsAreLeaves := fun g hg hc => ⟨(hcells g hg hc).1, (hcells g hg hc).2.1⟩
  have hnot : mode ≠ .error := by
    rcases hmode with rfl | rfl
    · decide
    · decide
  obtain ⟨r, hr⟩ : ∃ r, f.resolveConflicts σ mode = .ok r := resolveWith_ends hnot le_rfl
  have hgathered := (resolveWith_gathered_any hr).gathered
  have hapart := (resolveWith_exclusive separable_shared hshared (cellsAreLeaves_iff.mp hleaves) hr).apart
  have hloose : f.looseCells = [] := by
    rw [looseCells_eq_nil_iff]
    exact fun g hg hc => (hcells g (exposed_subset_nodes hg) hc).2.2
  refine ⟨r, hr, ?_, ?_, resolveWith_unmarked (cellsAreLeaves_iff.mp hleaves) hr, hgathered.statements_perm,
    fun d n => hgathered.drives_iff, ?_, hgathered.statements_grouped⟩
  · rw [bodies_eq_map_nodes, pairwise_map]
    exact hapart.imp fun hgg k => hgg (.net k) trivial
  · exact hapart.imp fun hgg m hm m' hm' hid => hgg (.memory m.id) trivial ⟨m, hm, rfl⟩ ⟨m', hm', hid.symm⟩
  · have hperm := resolveConflicts_cells_append_perm hr
    rwa [hloose, append_nil] at hperm

section Handover

private def driving (n : Net) : Body :=
  (Body.empty.addStatements [.assign (.net n) (.const 0 (.unsigned 1))]).addDriver combDomain n

private def memoryCell : Body :=
  { Body.empty with cell := some ⟨Instance.readCell, [("MEMID", .memory ⟨0, 1, "mem", 8, 4, []⟩)], []⟩ }

private def sharedNet : Net := .signal ⟨0, 1⟩
private def lateNet : Net := .signal ⟨0, 2⟩

/-- The top and its first child drive one net. Only once they are merged does the net of the grandchild, and with it
its memory, meet that of the second child. -/
def handover : Fragment :=
  .node (driving sharedNet) [("a", .node (driving sharedNet) [("g", .node (driving lateNet) [("rd", .leaf memoryCell)])]),
    ("b", .node (driving lateNet) [("rd", .leaf memoryCell)])]

private theorem handover_nodes : ∀ g ∈ handover.nodes, g.body.domains = [] ∧
    (g.body.cell.isSome → g.children = [] ∧ g.body.driverPairs = [] ∧ g.body.flatten = false) := by
  have hnodes : handover.nodes = [handover,
      .node (driving sharedNet) [("g", .node (driving lateNet) [("rd", .leaf memoryCell)])],
      .node (driving lateNet) [("rd", .leaf memoryCell)], .leaf memoryCell,
      .node (driving lateNet) [("rd", .leaf memoryCell)], .leaf memoryCell] := rfl
  rw [hnodes]
  simp only [forall_mem_cons]
  exact ⟨⟨rfl, fun h => nomatch h⟩, ⟨rfl, fun h => nomatch h⟩, ⟨rfl, fun h => nomatch h⟩,
    ⟨rfl, fun _ => ⟨rfl, rfl, rfl⟩⟩, ⟨rfl, fun h => nomatch h⟩, ⟨rfl, fun _ => ⟨rfl, rfl, rfl⟩⟩, fun g hg => nomatch hg⟩

theorem resolveConflicts_handover : ∃ r, handover.resolveConflicts .empty .warn = .ok r ∧
    (r.fragment.bodies.Pairwise fun b b' => ∀ k, b.Owns k → ¬ b'.Owns k) ∧
    (r.fragment.bodies.flatMap Body.statements).Perm (handover.bodies.flatMap Body.statements) := by
  have hshared : handover.DomainsShared := by
    intro g hg c _ d cd hd
    rw [Body.domain?, (handover_nodes g hg).1] at hd
    cases hd
  obtain ⟨r, hr, howns, -, -, hstatements, -⟩ := resolveConflicts_exclusive_conserving .empty (Or.inl rfl) hshared
    fun g hg => (handover_nodes g hg).2
  exact ⟨r, hr, howns, hstatements⟩

end Handover
end Fragment
end Rtl
