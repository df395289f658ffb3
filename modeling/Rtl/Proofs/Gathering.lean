import Mathlib
import Rtl.Proofs.Merging
import Rtl.Proofs.Survey

/-!
# Who took over whom

Each round of a resolution either finds nothing to merge or merges at least one child, so that the tree shrinks. A
fragment of the resolved tree is a fragment of the tree before, with the drivers and statements of those that it took
over, at once or by way of others. It keeps its own table of domains. So what can be said of a fragment and everything
below it, in terms of their tables, can be said of a fragment and all it took over.
-/
namespace Rtl

open List
namespace Fragment

variable {R : Body → Body → Prop} {b : Body} {cs : List (String × Fragment)} {f : Fragment} {σ : Arenas}
  {mode : ConflictMode} {fuel i : Nat} {path : List String} {r : Resolution} {s : Survey} {es : List Entry}

private theorem nodup_eraseDups (l : List Nat) : l.eraseDups.Nodup := by
  induction hn : l.length using Nat.strong_induction_on generalizing l with
  | _ n ih =>
    cases l with
    | nil => simp
    | cons =>
      rw [eraseDups_cons, nodup_cons, mem_eraseDups]
      refine ⟨by simp, ih _ ?_ _ rfl⟩
      rw [← hn, length_cons]
      exact Nat.lt_succ_of_le (length_filter_le _ _)

theorem Survey.positions_nodup (s : Survey) : s.positions.Nodup := nodup_eraseDups _

theorem Survey.mem_positions : i ∈ s.positions ↔ i ∈ flattened 0 s.children ∨ i ∈ s.ledger.involved := by
  rw [positions, mem_eraseDups, mem_append]

theorem mem_flattened {p : Nat} : i ∈ flattened p cs ↔ ∃ c, (c, i) ∈ cs.zipIdx p ∧ c.2.body.flatten = true := by
  induction cs generalizing p with
  | nil => simp [flattened]
  | cons c cs ih =>
    rw [flattened, mem_append, ih, zipIdx_cons]
    constructor
    · rintro (hi | ⟨c', hc', hm⟩)
      · split at hi
        · rename_i hm
          rw [mem_singleton] at hi
          exact ⟨c, by simp [hi], hm⟩
        · cases hi
      · exact ⟨c', by simp [hc'], hm⟩
    · rintro ⟨c', hc', hm⟩
      rcases mem_cons.mp hc' with he | hc'
      · cases he
        exact Or.inl (by simp [hm])
      · exact Or.inr ⟨c', hc', hm⟩

/-- With nothing to merge no child asks for it, and none takes part in a conflict. -/
theorem Survey.settled (hp : s.positions = []) :
    (∀ c ∈ s.children, c.2.body.flatten = false) ∧ s.ledger.involved = [] := by
  have hnone : ∀ i, i ∉ flattened 0 s.children ∧ i ∉ s.ledger.involved := by
    intro i
    have hi : i ∉ s.positions := by simp [hp]
    rwa [Survey.mem_positions, not_or] at hi
  refine ⟨fun c hc => ?_, eq_nil_iff_forall_not_mem.mpr fun i => (hnone i).2⟩
  obtain ⟨i, hi⟩ := mem_iff_getElem?.mp hc
  by_contra hmark
  rw [Bool.not_eq_false] at hmark
  exact (hnone i).1 (mem_flattened.mpr ⟨c, mem_zipIdx_iff_getElem?.mpr hi, hmark⟩)

/-- One round: nothing to merge, or the children to merge and the round after. -/
theorem resolveWith_inv (h : resolveWith σ mode (fuel + 1) path (node b cs) = .ok r) :
    ∃ s es, Surveyed (resolveWith σ mode fuel) b cs es s ∧ mode.refused? s.ledger.reports = none ∧
      (s.positions = [] ∧ r = s.resolution b ∨
        s.positions ≠ [] ∧ ∃ r' conflicts, r = { r' with conflicts } ∧
          resolveWith σ mode fuel path (mergeChildren b s.children s.positions) = .ok r') := by
  rw [resolveWith] at h
  obtain ⟨s, hs, h⟩ := except_bind_eq_ok.mp h
  obtain ⟨es, hsurveyed⟩ := surveyed hs
  refine ⟨s, es, hsurveyed, ?_⟩
  split at h
  · cases h
  · rename_i hrefused
    refine ⟨hrefused, ?_⟩
    split at h
    · rename_i hempty
      rw [except_pure_eq_ok] at h
      exact Or.inl ⟨isEmpty_iff.mp hempty, h.symm⟩
    · rename_i hempty
      obtain ⟨r', hr', h⟩ := except_bind_eq_ok.mp h
      rw [except_pure_eq_ok] at h
      exact Or.inr ⟨fun hnil => hempty (isEmpty_iff.mpr hnil), r', _, h.symm, hr'⟩

/-- What resolving keeps of a tree in which the relation holds along every edge. -/
structure GatheredTree (R : Body → Body → Prop) (f f' : Fragment) : Prop where
  gathered : Gathered R f.bodies f'.bodies
  edges : f'.OnEdges R
  domains : f'.body.domains = f.body.domains
  cell : f'.body.cell = f.body.cell

theorem GatheredTree.trans {f' f'' : Fragment} (h : GatheredTree R f f') (h' : GatheredTree R f' f'') :
    GatheredTree R f f'' :=
  ⟨h.gathered.trans h'.gathered, h'.edges, h'.domains.trans h.domains, h'.cell.trans h.cell⟩

/-- The survey of the children gathers what is below each of them. -/
theorem Surveyed.gatheredTree {resolve : List String → Fragment → Except Failure Resolution} (hR : Body.Tabular R)
    (h : Surveyed resolve b cs es s) (hedges : (node b cs).OnEdges R)
    (ih : ∀ c ∈ cs, ∀ path r, resolve path c.2 = .ok r → GatheredTree R c.2 r.fragment) :
    GatheredTree R (node b cs) (node b s.children) := by
  have hnode := onEdges_node.mp hedges
  have hall : List.Forall₂ (fun c c' => GatheredTree R c.2 c'.2) cs s.children :=
    h.forall₂ (fun c hc _ => ⟨.refl _, (hnode c hc).2, rfl, rfl⟩) fun c hc _ => ih c hc
  refine ⟨?_, onEdges_node.mpr ?_, rfl, rfl⟩
  · rw [bodies_node, bodies_node]
    exact .append_left [b] (.flatMap (hall.imp fun _ _ h => h.gathered))
  · intro c' hc'
    obtain ⟨c, hmem, hc⟩ := forall₂_mem_right hall hc'
    exact ⟨hR.congr rfl rfl hc.domains.symm (hnode c hmem).1, hc.edges⟩

/-- Merging children gathers them in their parent. Their own children are related to it through them. -/
theorem mergeChildren_gatheredTree (hR : Body.Tabular R) {positions : List Nat} (hp : positions.Nodup)
    (hedges : (node b cs).OnEdges R) : GatheredTree R (node b cs) (mergeChildren b cs positions) := by
  obtain ⟨hdomains, hcell⟩ := mergeChildren_body b cs positions
  have hnode := onEdges_node.mp hedges
  refine ⟨?_, ?_, hdomains, hcell⟩
  · refine mergeChildren_gathered (fun hr => hR.congr (Body.merge_domains _ _).symm (Body.merge_cell _ _).symm rfl hr) hp b
      cs ?_
    intro i _ c hi
    exact (hnode c (mem_of_getElem? hi)).1
  · rw [← node_eta (mergeChildren b cs positions), onEdges_node]
    intro c hc
    rcases mem_mergeChildren_children hc with hc | ⟨c0, hc0, hc⟩
    · obtain ⟨hr, hbelow⟩ := hnode c hc
      exact ⟨hR.congr hdomains.symm hcell.symm rfl hr, hbelow⟩
    · obtain ⟨hr0, hbelow0⟩ := hnode c0 hc0
      rw [← node_eta c0.2, onEdges_node] at hbelow0
      obtain ⟨hr, hbelow⟩ := hbelow0 c hc
      exact ⟨hR.congr hdomains.symm hcell.symm rfl (hR.trans hr0 hr), hbelow⟩

/-- Whatever resolving a tree returns was gathered from it. -/
theorem resolveWith_gathered (hR : Body.Tabular R) (hedges : f.OnEdges R)
    (h : resolveWith σ mode fuel path f = .ok r) : GatheredTree R f r.fragment := by
  induction fuel generalizing path f r with
  | zero => cases h
  | succ fuel ih =>
    cases f with
    | node =>
      obtain ⟨s, es, hs, -, hround⟩ := resolveWith_inv h
      have hsurvey := hs.gatheredTree hR hedges fun c hc path r hr => ih (onEdges_node.mp hedges c hc).2 hr
      rcases hround with ⟨-, rfl⟩ | ⟨-, r', conflicts, rfl, hr'⟩
      · exact hsurvey
      · have hmerge := mergeChildren_gatheredTree hR s.positions_nodup hsurvey.edges
        have hrest := ih hmerge.edges hr'
        exact (hsurvey.trans hmerge).trans hrest

/-- Any tree is gathered from in some way. -/
theorem resolveWith_gathered_any (h : resolveWith σ mode fuel path f = .ok r) :
    GatheredTree (fun _ _ => True) f r.fragment :=
  resolveWith_gathered Body.tabular_any (fun _ _ _ _ => trivial) h

section Round

variable (h : Surveyed (resolveWith σ mode fuel) b cs es s)
include h

/-- What a round makes of the tree: the survey of its children, and their merger. -/
theorem Surveyed.round (hR : Body.Tabular R) (hedges : (node b cs).OnEdges R) :
    GatheredTree R (node b cs) (node b s.children) ∧
      GatheredTree R (node b s.children) (mergeChildren b s.children s.positions) := by
  have hsurvey := h.gatheredTree hR hedges fun c hc path r hr => resolveWith_gathered hR (onEdges_node.mp hedges c hc).2 hr
  exact ⟨hsurvey, mergeChildren_gatheredTree hR s.positions_nodup hsurvey.edges⟩

/-- A child to merge is there, and is no cell unless it asks to be merged. -/
theorem Surveyed.position (hi : i ∈ s.positions) :
    ∃ c', s.children[i]? = some c' ∧ (c'.2.body.cell.isSome → c'.2.body.flatten = true) := by
  rcases Survey.mem_positions.mp hi with hi | hi
  · obtain ⟨c', hc', hm⟩ := mem_flattened.mp hi
    exact ⟨c', mem_zipIdx_iff_getElem?.mp hc', fun _ => hm⟩
  · obtain ⟨k, hk⟩ := Ledger.holds_of_involved hi
    obtain ⟨c, hc, hnone⟩ := h.involves hk
    have hsame : List.Forall₂ (fun c c' => c'.2.body.cell = c.2.body.cell) cs s.children :=
      h.forall₂ (fun _ _ _ => rfl) fun c _ _ path r hr => (resolveWith_gathered_any hr).cell
    obtain ⟨c', hc', hkept⟩ := forall₂_getElem?_left hsame hc
    refine ⟨c', hc', fun hsome => ?_⟩
    rw [hkept, hnone] at hsome
    cases hsome

/-- A round that merges leaves a smaller tree. -/
theorem Surveyed.merge_count_lt (hp : s.positions ≠ []) :
    (mergeChildren b s.children s.positions).count < (node b cs).count := by
  have hle := (h.round Body.tabular_any fun _ _ _ _ => trivial).1.gathered.length_le
  rw [← count_eq_length, ← count_eq_length] at hle
  have hcount := mergeChildren_count s.positions_nodup b s.children
  have hpos : 0 < (byLabel s.children s.positions).length := by
    obtain ⟨i, hi⟩ := exists_mem_of_ne_nil _ hp
    obtain ⟨c, hc, -⟩ := h.position hi
    exact length_pos_of_mem (mem_byLabel.mpr ⟨i, hi, c, hc, rfl⟩)
  omega

end Round

theorem count_child_lt {c : String × Fragment} (hc : c ∈ cs) : c.2.count < (node b cs).count := by
  rw [count_node]
  have hle := single_le_sum (l := cs.map fun c => c.2.count) (by simp) _ (mem_map.mpr ⟨c, hc, rfl⟩)
  omega

/-- With as much fuel as there are fragments nothing but conflicts is refused, and only where they are errors. -/
theorem resolveWith_error {e : Failure} (hfuel : f.count ≤ fuel) (h : resolveWith σ mode fuel path f = .error e) :
    mode = .error ∧ ∃ c, e = .design (.conflict c) := by
  induction fuel generalizing path f with
  | zero => exact absurd f.count_pos (Nat.not_lt.mpr hfuel)
  | succ fuel ih =>
    cases f with
    | node b =>
      rw [resolveWith] at h
      rcases except_bind_eq_error.mp h with h | ⟨s, hs, h⟩
      · obtain ⟨c, hc, -, path, he⟩ := surveyChildren_error h
        have hlt := count_child_lt (b := b) hc
        exact ih (by omega) he
      · obtain ⟨es, hsurveyed⟩ := surveyed hs
        split at h
        · rename_i c hrefused
          cases h
          cases mode with
          | warn | silent => cases hrefused
          | error => exact ⟨rfl, c, rfl⟩
        · split at h
          · cases h
          · rename_i hempty
            have hlt := hsurveyed.merge_count_lt fun hnil => hempty (isEmpty_iff.mpr hnil)
            rcases except_bind_eq_error.mp h with h | ⟨r', -, h⟩
            · exact ih (by omega) h
            · cases h

/-- Unless conflicts are errors, as much fuel as there are fragments is enough. -/
theorem resolveWith_ends (hmode : mode ≠ .error) (hfuel : f.count ≤ fuel) :
    ∃ r, resolveWith σ mode fuel path f = .ok r := by
  cases h : resolveWith σ mode fuel path f with
  | ok r => exact ⟨r, rfl⟩
  | error => exact absurd (resolveWith_error hfuel h).1 hmode

/-- Of the fragments below each cell, with its own, something holds. -/
def InCells (Q : List Body → Prop) (f : Fragment) : Prop := ∀ g ∈ f.nodes, g.body.cell.isSome → Q g.bodies

theorem inCells_node {Q : List Body → Prop} : (node b cs).InCells Q ↔
    (b.cell.isSome → Q (node b cs).bodies) ∧ ∀ c ∈ cs, c.2.InCells Q := forall_nodes_node

section InCells

variable {Q : List Body → Prop} (hQ : ∀ {l l'}, Gathered (fun _ _ => True) l l' → Q l → Q l')
include hQ

/-- What changes of order and takeovers keep is kept inside cells: they move up, and no other fragment becomes one. -/
theorem Surveyed.inCells (h : Surveyed (resolveWith σ mode fuel) b cs es s) (hf : (node b cs).InCells Q)
    (ih : ∀ c ∈ cs, ∀ path r, resolveWith σ mode fuel path c.2 = .ok r → r.fragment.InCells Q) :
    (node b s.children).InCells Q ∧ (mergeChildren b s.children s.positions).InCells Q := by
  obtain ⟨hsurvey, hmerge⟩ := h.round Body.tabular_any fun _ _ _ _ => trivial
  obtain ⟨htop, hcs⟩ := inCells_node.mp hf
  have hall : List.Forall₂ (fun _ c' => c'.2.InCells Q) cs s.children :=
    h.forall₂ (fun c hc _ => hcs c hc) fun c hc _ => ih c hc
  have hchildren : ∀ c' ∈ s.children, c'.2.InCells Q := by
    intro c' hc'
    obtain ⟨-, -, hc⟩ := forall₂_mem_right hall hc'
    exact hc
  refine ⟨inCells_node.mpr ⟨fun hcell => hQ hsurvey.gathered (htop hcell), hchildren⟩, ?_⟩
  rw [← node_eta (mergeChildren _ _ _), inCells_node, node_eta, hmerge.cell]
  refine ⟨fun hcell => hQ (hsurvey.trans hmerge).gathered (htop hcell), fun c hc => ?_⟩
  rcases mem_mergeChildren_children hc with hc | ⟨c0, hc0, hc⟩
  · exact hchildren c hc
  · exact fun g hg => hchildren c0 hc0 g (nodes_of_child hc hg)

theorem resolveWith_inCells (hf : f.InCells Q) (h : resolveWith σ mode fuel path f = .ok r) :
    r.fragment.InCells Q := by
  induction fuel generalizing path f r with
  | zero => cases h
  | succ fuel ih =>
    cases f with
    | node =>
      obtain ⟨s, es, hs, -, hround⟩ := resolveWith_inv h
      obtain ⟨hsurvey, hmerge⟩ := hs.inCells hQ hf fun c hc path r hr => ih ((inCells_node.mp hf).2 c hc) hr
      rcases hround with ⟨-, rfl⟩ | ⟨-, r', conflicts, rfl, hr'⟩
      · exact hsurvey
      · have hrest := ih hmerge hr'
        exact hrest

end InCells
end Fragment
end Rtl
