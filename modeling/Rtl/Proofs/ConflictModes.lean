import Mathlib
import Rtl.Proofs.Conflicts

/-!
# Conflict modes

Warning of conflicts and keeping silent about them resolve a tree alike. Treating them as errors refuses the trees in
which two fragments claim one net or one memory, and leaves every other tree without marks as it is. What a resolution
returns to the fragment above is exactly what the fragments below claim, so a conflict between fragments that are far
apart is met where their paths join.
-/
namespace Rtl

open List

section Entries

variable {α κ : Type} {key : α → κ} {es : List (Held α)}

/-- An entry is a conflict exactly when something is held by two holders. -/
theorem EntriesSound.exists_conflict_iff (hs : EntriesSound key es) :
    (∃ e ∈ es, e.isConflict = true) ↔ ∃ k x y, x ≠ y ∧ HeldBy key es k x ∧ HeldBy key es k y := by
  constructor
  · rintro ⟨e, he, hconflict⟩
    have hlen : e.holders.length ≠ 1 := by simpa [Held.isConflict] using hconflict
    have hne := hs.nonempty e he
    have hnodup := hs.holders e he
    rcases hholders : e.holders with _ | ⟨c, _ | ⟨c', rest⟩⟩
    · exact absurd hholders hne
    · rw [hholders] at hlen
      exact absurd rfl hlen
    · rw [hholders, map_cons, nodup_cons] at hnodup
      refine ⟨key e.item, c.child, c'.child, ?_, ⟨e, he, rfl, c, ?_, rfl⟩, ⟨e, he, rfl, c', ?_, rfl⟩⟩
      · intro heq
        exact hnodup.1 (by rw [heq, map_cons]; exact mem_cons_self)
      · rw [hholders]
        exact mem_cons_self
      · rw [hholders]
        exact mem_cons_of_mem _ mem_cons_self
  · rintro ⟨k, x, y, hxy, ⟨e, he, hk, c, hc, rfl⟩, ⟨e', he', hk', c', hc', rfl⟩⟩
    obtain rfl : e = e' := inj_on_of_nodup_map hs.keys he he' (hk.trans hk'.symm)
    refine ⟨e, he, ?_⟩
    rw [Held.isConflict, decide_eq_true_eq]
    intro hlen
    obtain ⟨a, ha⟩ := length_eq_one_iff.mp hlen
    rw [ha, mem_singleton] at hc hc'
    rw [hc, hc'] at hxy
    exact hxy rfl

theorem filter_isConflict_eq_nil : es.filter Held.isConflict = [] ↔ ¬ ∃ e ∈ es, e.isConflict = true := by
  rw [filter_eq_nil_iff]
  push Not
  rfl

end Entries

namespace Ledger

variable {l : Ledger}

/-- There is something to report exactly when a claim is held by two holders. -/
theorem Sound.reports_eq_nil_iff (h : l.Sound) : l.reports = [] ↔ ∀ k x y, l.Holds k x → l.Holds k y → x = y := by
  rw [reports, append_eq_nil_iff, map_eq_nil_iff, map_eq_nil_iff, filter_isConflict_eq_nil,
    filter_isConflict_eq_nil, h.nets.exists_conflict_iff, h.memories.exists_conflict_iff]
  constructor
  · rintro ⟨hnets, hmemories⟩ k x y hx hy
    by_contra hxy
    cases k with
    | net k => exact hnets ⟨k, x, y, hxy, hx, hy⟩
    | memory id => exact hmemories ⟨id, x, y, hxy, hx, hy⟩
  · intro hone
    constructor
    · rintro ⟨k, x, y, hxy, hx, hy⟩
      exact hxy (hone (.net k) x y hx hy)
    · rintro ⟨id, x, y, hxy, hx, hy⟩
      exact hxy (hone (.memory id) x y hx hy)

theorem involved_of_reports (h : l.reports = []) : l.involved = [] := by
  rw [reports, append_eq_nil_iff, map_eq_nil_iff, map_eq_nil_iff] at h
  rw [involved, Held.involved, Held.involved, h.1, h.2]
  rfl

end Ledger

theorem ConflictMode.refused?_nil (mode : ConflictMode) : mode.refused? [] = none := by
  cases mode <;> rfl

namespace Fragment

variable {f : Fragment} {k : Claim}
variable {x : Option Nat}

/-- Some fragment of the tree claims it. -/
def ClaimsBelow (f : Fragment) (k : Claim) : Prop := ∃ g ∈ f.nodes, g.Claims k

/-- Two different fragments of the tree claim the same. -/
def Disputed (f : Fragment) : Prop :=
  ∃ path path' g g', path ≠ path' ∧ f.at? path = some g ∧ f.at? path' = some g' ∧ ∃ k, g.Claims k ∧ g'.Claims k

/-- The fragment itself, or the subtree of one of its children, holds a claim. -/
def HeldIn (f : Fragment) (k : Claim) : Option Nat → Prop
  | none => f.Claims k
  | some i => ∃ c, f.children[i]? = some c ∧ c.2.ClaimsBelow k

theorem claimsBelow_iff_heldIn : f.ClaimsBelow k ↔ ∃ x, f.HeldIn k x := by
  cases f with
  | node =>
    constructor
    · rintro ⟨g, hg, hk⟩
      rcases mem_nodes_node.mp hg with rfl | ⟨c, hc, hg⟩
      · exact ⟨none, hk⟩
      · obtain ⟨i, hi⟩ := mem_iff_getElem?.mp hc
        exact ⟨some i, c, hi, g, hg, hk⟩
    · rintro ⟨x, hx⟩
      cases x with
      | none => exact ⟨_, self_mem_nodes _, hx⟩
      | some =>
        obtain ⟨c, hi, g, hg, hk⟩ := hx
        exact ⟨g, nodes_of_child (mem_of_getElem? hi) hg, hk⟩

theorem HeldIn.of_at? {g : Fragment} {path : List Nat} (h : f.at? path = some g) (hk : g.Claims k) :
    f.HeldIn k path.head? := by
  cases path with
  | nil =>
    cases h
    exact hk
  | cons i path =>
    obtain ⟨c, hc, h⟩ := at?_cons.mp h
    exact ⟨c, hc, g, mem_nodes_iff_at?.mpr ⟨path, h⟩, hk⟩

theorem HeldIn.exists_at? (h : f.HeldIn k x) : ∃ path g, path.head? = x ∧ f.at? path = some g ∧ g.Claims k := by
  cases x with
  | none => exact ⟨[], f, rfl, rfl, h⟩
  | some i =>
    obtain ⟨c, hc, g, hg, hk⟩ := h
    obtain ⟨path, hpath⟩ := mem_nodes_iff_at?.mp hg
    exact ⟨i :: path, g, rfl, at?_cons.mpr ⟨c, hc, hpath⟩, hk⟩

/-- Two fragments dispute something inside one child, or what they claim has two holders. -/
theorem disputed_iff :
    f.Disputed ↔ (∃ c ∈ f.children, c.2.Disputed) ∨ ∃ k x y, x ≠ y ∧ f.HeldIn k x ∧ f.HeldIn k y := by
  constructor
  · rintro ⟨path, path', g, g', hne, hg, hg', k, hk, hk'⟩
    by_cases hhead : path.head? = path'.head?
    · left
      cases path with
      | nil =>
        rw [eq_comm, head?_nil, head?_eq_none_iff] at hhead
        exact absurd hhead.symm hne
      | cons i path =>
        cases path' with
        | nil => cases hhead
        | cons j path' =>
          obtain rfl : i = j := Option.some.inj hhead
          obtain ⟨c, hc, hg⟩ := at?_cons.mp hg
          obtain ⟨c', hc', hg'⟩ := at?_cons.mp hg'
          obtain rfl : c = c' := Option.some.inj (hc.symm.trans hc')
          have hrest : path ≠ path' := fun h => hne (by rw [h])
          exact ⟨c, mem_of_getElem? hc, path, path', g, g', hrest, hg, hg', k, hk, hk'⟩
    · exact Or.inr ⟨k, _, _, hhead, .of_at? hg hk, .of_at? hg' hk'⟩
  · rintro (⟨c, hc, path, path', g, g', hne, hg, hg', hk⟩ | ⟨k, x, y, hxy, hx, hy⟩)
    · obtain ⟨i, hi⟩ := mem_iff_getElem?.mp hc
      have hne' : i :: path ≠ i :: path' := fun h => hne (List.cons.inj h).2
      exact ⟨i :: path, i :: path', g, g', hne', at?_cons.mpr ⟨c, hi, hg⟩, at?_cons.mpr ⟨c, hi, hg'⟩, hk⟩
    · obtain ⟨path, g, rfl, hg, hk⟩ := hx.exists_at?
      obtain ⟨path', g', rfl, hg', hk'⟩ := hy.exists_at?
      exact ⟨path, path', g, g', fun h => hxy (by rw [h]), hg, hg', k, hk, hk'⟩

/-- A cell claims nothing itself: its memory is claimed by the fragment that holds it. -/
theorem CellsAreLeaves.not_claimsBelow (h : f.CellsAreLeaves) (hc : f.body.cell.isSome) : ¬ f.ClaimsBelow k :=
  fun ⟨_, hg, hk⟩ => not_claims_of_lone (lone_bodies_iff.mpr (h f (self_mem_nodes f) hc)) hg hk

theorem CellsAreLeaves.not_disputed (h : f.CellsAreLeaves) (hc : f.body.cell.isSome) : ¬ f.Disputed := by
  rintro ⟨path, path', g, g', -, hg, -, k, hk, -⟩
  exact h.not_claimsBelow hc ⟨g, mem_nodes_iff_at?.mpr ⟨path, hg⟩, hk⟩

/-- A resolution that left the tree alone and met no conflict. It returns exactly what the tree claims. -/
structure Untouched (f : Fragment) (r : Resolution) : Prop where
  fragment : r.fragment = f
  conflicts : r.conflicts = []
  lists : ∀ k, r.Lists k ↔ f.ClaimsBelow k

/-- What the child at a position adds to the ledger: the memory of a cell, for the fragment that holds it, or all that
is claimed below. -/
def Brings (f : Fragment) (i : Nat) (k : Claim) (x : Option Nat) : Prop :=
  (x = none ∧ ∃ m, f.body.cell.bind Instance.memory? = some m ∧ k = .memory m.id) ∨ (x = some i ∧ f.ClaimsBelow k)

/-- What the fragment drives itself and what its children bring is what it and its children hold. -/
theorem heldIn_node_iff :
    (node b cs).HeldIn k x ↔
      (x = none ∧ ∃ key, b.Owns key ∧ k = .net key) ∨ ∃ y ∈ cs.zipIdx, y.1.2.Brings y.2 k x := by
  constructor
  · intro h
    cases x with
    | some i =>
      obtain ⟨c, hc, hk⟩ := h
      exact Or.inr ⟨(c, i), mem_zipIdx_iff_getElem?.mpr hc, Or.inr ⟨rfl, hk⟩⟩
    | none =>
      cases k with
      | net key => exact Or.inl ⟨rfl, key, h, rfl⟩
      | memory =>
        obtain ⟨m, hm, rfl⟩ := h
        obtain ⟨c, hc, hcell⟩ := mem_filterMap.mp hm
        obtain ⟨i, hi⟩ := mem_iff_getElem?.mp hc
        exact Or.inr ⟨(c, i), mem_zipIdx_iff_getElem?.mpr hi, Or.inl ⟨rfl, m, hcell, rfl⟩⟩
  · rintro (⟨rfl, key, howns, rfl⟩ | ⟨⟨c, i⟩, hci, ⟨rfl, m, hcell, rfl⟩ | ⟨rfl, hk⟩⟩)
    · exact howns
    · have hc := mem_of_getElem? (mem_zipIdx_iff_getElem?.mp hci)
      exact ⟨m, mem_filterMap.mpr ⟨c, hc, hcell⟩, rfl⟩
    · exact ⟨c, mem_zipIdx_iff_getElem?.mp hci, hk⟩

/-- No fragment of the tree asks to be merged. -/
def Unmarked (f : Fragment) : Prop := ∀ b ∈ f.bodies, b.flatten = false

theorem unmarked_node {b : Body} {cs : List (String × Fragment)} :
    (node b cs).Unmarked ↔ b.flatten = false ∧ ∀ c ∈ cs, c.2.Unmarked := forall_bodies_node

theorem Unmarked.flattened_children (h : f.Unmarked) (p : Nat) : flattened p f.children = [] := by
  rw [eq_nil_iff_forall_not_mem]
  intro i hi
  obtain ⟨c, hc, hmark⟩ := mem_flattened.mp hi
  have hmem : c ∈ f.children := (mem_zipIdx hc).2.2 ▸ getElem_mem _
  rw [h c.2.body (bodies_of_child hmem c.2.body_mem_bodies)] at hmark
  cases hmark

/-- A tree that resolving leaves as it is unless something is disputed. -/
structure Regular (f : Fragment) : Prop where
  leaves : f.CellsAreLeaves
  alike : f.OnEdges Body.MeansAlike
  unmarked : f.Unmarked

section Regular

variable {b : Body} {cs : List (String × Fragment)} {c : String × Fragment}
variable {s : Survey}

section Child

variable (h : (node b cs).Regular) (hc : c ∈ cs)
include h hc

theorem Regular.child : c.2.Regular :=
  ⟨(cellsAreLeaves_node.mp h.leaves).2 c hc, (onEdges_node.mp h.alike c hc).2, (unmarked_node.mp h.unmarked).2 c hc⟩

/-- A child that is left alone is entered with what it brings. -/
theorem Regular.entered {resolve : List String → Fragment → Except Failure Resolution} {i : Nat} {e : Entry}
    (he : Entered resolve b i c e) (hres : ∀ path r, resolve path c.2 = .ok r → Untouched c.2 r ∧ ¬ c.2.Disputed) :
    e.child = c ∧ e.conflicts = [] ∧ (∀ k x, e.claims k x ↔ c.2.Brings i k x) ∧ ¬ c.2.Disputed := by
  unfold Brings
  cases he with
  | cell hcell =>
    have hsome : c.2.body.cell.isSome := by rw [hcell]; rfl
    refine ⟨rfl, rfl, fun k x => ?_, (h.child hc).leaves.not_disputed hsome⟩
    simp [(h.child hc).leaves.not_claimsBelow hsome, hcell, and_comm]
  | @resolved path r hcell hr =>
    obtain ⟨huntouched, hdisputed⟩ := hres _ _ hr
    refine ⟨Prod.ext rfl huntouched.fragment, huntouched.conflicts, fun k x => ?_, hdisputed⟩
    -- The domains of the fragment above leave what was returned as it is.
    have hkey : ∀ n ∈ r.nets, (b.resolveNet n).key = n.key := by
      intro n hn
      obtain ⟨g, hg, e, -, hkey⟩ := (huntouched.lists _).mp (Or.inl ⟨n, hn, rfl⟩)
      have halike : b.MeansAlike g.body := h.alike.below Body.tabular_meansAlike hc (mem_bodies_iff.mpr ⟨g, hg, rfl⟩)
      rw [b.resolveNet_key_congr hkey.symm, halike.settles (fun _ => True) e.2 trivial]
      exact hkey
    have hbrings : r.Brings b k ↔ r.Lists k := or_congr_left (exists_congr fun n => and_congr_right fun hn => by
      rw [hkey n hn])
    simp [hcell, hbrings, huntouched.lists, and_comm]

end Child

/-- What the survey of a regular tree whose children are left alone comes to. -/
structure Alone (b : Body) (cs : List (String × Fragment)) (s : Survey) : Prop where
  children : s.children = cs
  conflicts : s.conflicts = []
  holds : ∀ k x, s.ledger.Holds k x ↔ (node b cs).HeldIn k x
  reports : s.ledger.reports = [] ↔ ¬ (node b cs).Disputed

theorem Alone.positions (h : Alone b cs s) (hf : (node b cs).Regular) (hreports : s.ledger.reports = []) :
    s.positions = [] := by
  have hnone := hf.unmarked.flattened_children 0
  rw [children_node] at hnone
  rw [Survey.positions, h.children, hnone, Ledger.involved_of_reports hreports]
  rfl

theorem Regular.survey {resolve : List String → Fragment → Except Failure Resolution} {es : List Entry}
    (hf : (node b cs).Regular) (hs : Surveyed resolve b cs es s)
    (hres : ∀ c ∈ cs, ∀ path r, resolve path c.2 = .ok r → Untouched c.2 r ∧ ¬ c.2.Disputed) : Alone b cs s := by
  have hentered : List.Forall₂ (fun x e => e.child = x.1 ∧ e.conflicts = [] ∧
      (∀ k y, e.claims k y ↔ x.1.2.Brings x.2 k y) ∧ ¬ x.1.2.Disputed) cs.zipIdx es := by
    refine (forall₂_mem hs.entered).imp ?_
    rintro ⟨c, i⟩ e ⟨hx, he⟩
    have hc := mem_of_getElem? (mem_zipIdx_iff_getElem?.mp hx)
    exact hf.entered hc he (hres c hc)
  have hholds : ∀ k x, s.ledger.Holds k x ↔ (node b cs).HeldIn k x := by
    intro k x
    rw [hs.holds, heldIn_node_iff, forall₂_exists_iff hentered fun y _ e h => (h.2.2.1 k x).symm, and_comm]
    refine or_congr_left (and_congr_right' ?_)
    exact ⟨fun ⟨e, he, hk⟩ => ⟨_, ⟨e, he, rfl⟩, hk⟩, fun ⟨_, ⟨e, he, hkey⟩, hk⟩ => ⟨e, he, hkey ▸ hk⟩⟩
  refine ⟨?_, ?_, hholds, ?_⟩
  · have hsame : List.Forall₂ Eq (cs.zipIdx.map Prod.fst) (es.map Entry.child) := by
      rw [forall₂_map_left_iff, forall₂_map_right_iff]
      exact hentered.imp fun _ _ h => h.1.symm
    rw [forall₂_eq_eq_eq, zipIdx_map_fst] at hsame
    rw [hs.children, ← hsame]
  · rw [hs.conflicts, flatMap_eq_nil_iff]
    intro e he
    obtain ⟨-, -, -, hnil, -⟩ := forall₂_mem_right hentered he
    exact hnil
  · have hbelow : ¬ ∃ c ∈ cs, c.2.Disputed := by
      rintro ⟨c, hc, hd⟩
      obtain ⟨i, hi⟩ := mem_iff_getElem?.mp hc
      have hx : (c, i) ∈ cs.zipIdx := mem_zipIdx_iff_getElem?.mpr hi
      obtain ⟨-, -, -, -, -, hnot⟩ := forall₂_mem_left hentered hx
      exact hnot hd
    rw [hs.sound.reports_eq_nil_iff, disputed_iff, children_node, or_iff_right hbelow]
    simp only [hholds]
    push Not
    exact forall_congr' fun k => forall_congr' fun x => forall_congr' fun y =>
      ⟨fun h hxy hx hy => hxy (h hx hy), fun h hx hy => by_contra fun hxy => h hxy hx hy⟩

end Regular

section Modes

variable {σ : Arenas} {mode : ConflictMode} {fuel : Nat} {path : List String} {f : Fragment} {r : Resolution}

/-- Warning and keeping silent differ in what is reported only. -/
theorem resolveWith_warn : resolveWith σ .warn fuel path f = resolveWith σ .silent fuel path f := by
  induction fuel generalizing path f with
  | zero => rfl
  | succ fuel ih =>
    have hsame : resolveWith σ .warn fuel = resolveWith σ .silent fuel := funext fun path => funext fun f => ih
    cases f with
    | node =>
      rw [resolveWith, resolveWith, hsame]
      rfl

/-- A tree without marks that is resolved is left as it is, if conflicts are errors or nothing is disputed. -/
theorem resolveWith_untouched (hf : f.Regular) (hmode : mode = .error ∨ ¬ f.Disputed)
    (h : resolveWith σ mode fuel path f = .ok r) : Untouched f r ∧ ¬ f.Disputed := by
  induction fuel generalizing path f r with
  | zero => cases h
  | succ fuel ih =>
    cases f with
    | node =>
      obtain ⟨s, es, hs, hrefused, hround⟩ := resolveWith_inv h
      have hsurvey := hf.survey hs fun c hc path r =>
        ih (hf.child hc) (hmode.imp_right fun hnot hd => hnot (disputed_iff.mpr (Or.inl ⟨c, hc, hd⟩)))
      have hreports : s.ledger.reports = [] := by
        rcases hmode with rfl | hnot
        · cases hnil : s.ledger.reports with
          | nil => rfl
          | cons =>
            rw [hnil] at hrefused
            cases hrefused
        · exact hsurvey.reports.mpr hnot
      obtain ⟨-, rfl⟩ := hround.resolve_right fun hne => hne.1 (hsurvey.positions hf hreports)
      refine ⟨⟨?_, ?_, fun k => ?_⟩, hsurvey.reports.mp hreports⟩
      · rw [Survey.resolution, hsurvey.children]
      · rw [Survey.resolution, hsurvey.conflicts, hreports]
        rfl
      · rw [claimsBelow_iff_heldIn]
        simp only [← hsurvey.holds]
        exact hs.sound.mem_items_iff

/-- In every mode a tree without marks is resolved unless something is disputed. -/
theorem resolveWith_refused (hf : f.Regular) (hfuel : f.count ≤ fuel) {e : Failure}
    (h : resolveWith σ mode fuel path f = .error e) : f.Disputed := by
  induction fuel generalizing path f with
  | zero => exact absurd f.count_pos (Nat.not_lt.mpr hfuel)
  | succ fuel ih =>
    cases f with
    | node b =>
      by_contra hnot
      rw [resolveWith] at h
      rcases except_bind_eq_error.mp h with h | ⟨s, hs, h⟩
      · obtain ⟨c, hc, -, path, he⟩ := surveyChildren_error h
        have hlt := count_child_lt (b := b) hc
        exact hnot (disputed_iff.mpr (Or.inl ⟨c, hc, ih (hf.child hc) (by omega) he⟩))
      · obtain ⟨es, hs⟩ := surveyed hs
        have hsurvey := hf.survey hs fun c hc path r => resolveWith_untouched (hf.child hc) <| Or.inr fun hd =>
          hnot (disputed_iff.mpr (Or.inl ⟨c, hc, hd⟩))
        have hreports := hsurvey.reports.mpr hnot
        rw [hreports, mode.refused?_nil, hsurvey.positions hf hreports] at h
        cases h

end Modes

/-- On a tree with propagated domains whose cells are leaves without drivers, warning of conflicts and keeping silent
return the same tree, nets and memories, and silence reports nothing. On such a tree without marks, conflicts as errors
refuse it exactly when two different fragments claim the same net or memory; otherwise they return the tree as it is,
and there is nothing to warn of. -/
theorem resolveConflicts_modes (σ : Arenas) {f : Fragment} (hshared : f.DomainsShared) (hleaves : f.CellsAreLeaves) :
    (∃ r r', f.resolveConflicts σ .warn = .ok r ∧ f.resolveConflicts σ .silent = .ok r' ∧
      r'.fragment = r.fragment ∧ r'.nets = r.nets ∧ r'.memories = r.memories ∧
      ConflictMode.silent.warnings r'.conflicts = []) ∧
    (f.Unmarked →
      ((∃ e, f.resolveConflicts σ .error = .error (.design (.conflict e))) ↔ f.Disputed) ∧
      ((∃ e, f.resolveConflicts σ .error = .error (.design (.conflict e))) ∨
        ∃ r r', f.resolveConflicts σ .error = .ok r ∧ r.fragment = f ∧ f.resolveConflicts σ .warn = .ok r' ∧
          ConflictMode.warn.warnings r'.conflicts = [])) := by
  constructor
  · have hwarn : ConflictMode.warn ≠ .error := by decide
    obtain ⟨r, hr⟩ : ∃ r, f.resolveConflicts σ .warn = .ok r := resolveWith_ends hwarn le_rfl
    have hsilent : f.resolveConflicts σ .silent = .ok r := resolveWith_warn.symm.trans hr
    exact ⟨r, r, hr, hsilent, rfl, rfl, rfl, rfl⟩
  · intro hmarks
    have hregular : f.Regular := ⟨hleaves, hshared, hmarks⟩
    obtain ⟨r', hr'⟩ : ∃ r', f.resolveConflicts σ .warn = .ok r' := resolveWith_ends (by decide) le_rfl
    cases h : f.resolveConflicts σ .error with
    | ok r =>
      obtain ⟨hsame, hnot⟩ := resolveWith_untouched hregular (Or.inl rfl) h
      refine ⟨iff_of_false (fun ⟨e, he⟩ => by cases he) hnot, Or.inr ⟨r, r', rfl, hsame.fragment, hr', ?_⟩⟩
      rw [(resolveWith_untouched hregular (Or.inr hnot) hr').1.conflicts]
      rfl
    | error =>
      obtain ⟨-, c, rfl⟩ := resolveWith_error le_rfl h
      refine ⟨iff_of_true ⟨c, rfl⟩ ?_, Or.inl ⟨c, rfl⟩⟩
      exact resolveWith_refused hregular le_rfl h

section Echo

private def beat : ClockDomain := ⟨0, 1, "d", ⟨0, 1⟩, some ⟨0, 2⟩, false, false, false⟩

private def beating (b : Body) : Body := { b with domains := [beat] }

/-- The top drives the clock of a domain by reference, and a fragment two levels below drives its signal by name. -/
def echo : Fragment :=
  .node (beating (Body.empty.addDriver combDomain (.clock "d")))
    [("a", .node (beating .empty) [("g", .leaf (beating (Body.empty.addDriver combDomain (.signal ⟨0, 1⟩))))])]

private theorem echo_bodies : ∀ b ∈ echo.bodies, b.domains = [beat] ∧ b.cell = none ∧ b.flatten = false := by
  have hbodies : echo.bodies = [beating (Body.empty.addDriver combDomain (.clock "d")), beating .empty,
    beating (Body.empty.addDriver combDomain (.signal ⟨0, 1⟩))] := rfl
  rw [hbodies]
  simp only [forall_mem_cons]
  exact ⟨⟨rfl, rfl, rfl⟩, ⟨rfl, rfl, rfl⟩, ⟨rfl, rfl, rfl⟩, fun b hb => absurd hb not_mem_nil⟩

private theorem echo_body {g : Fragment} (hg : g ∈ echo.nodes) :
    g.body.domains = [beat] ∧ g.body.cell = none ∧ g.body.flatten = false :=
  echo_bodies g.body (mem_bodies_iff.mpr ⟨g, hg, rfl⟩)

private theorem echo_shared : echo.DomainsShared := by
  intro g hg c hc d cd hd
  have hchild := echo_body (mem_nodes_trans hg (nodes_of_child hc (self_mem_nodes c.2)))
  unfold Body.domain? at hd ⊢
  rw [(echo_body hg).1] at hd
  rw [hchild.1]
  exact hd

private theorem echo_leaves : echo.CellsAreLeaves := by
  intro g hg hcell
  rw [(echo_body hg).2.1] at hcell
  cases hcell

private theorem echo_disputed : echo.Disputed :=
  ⟨[], [0, 0], _, _, by decide, rfl, rfl, .net (.signal ⟨0, 1⟩),
    ⟨(combDomain, .clock "d"), by decide, by decide⟩, ⟨(combDomain, .signal ⟨0, 1⟩), by decide, by decide⟩⟩

/-- The reference and the name are one net, so conflicts as errors refuse the tree. -/
theorem resolveConflicts_modes_echo :
    echo.DomainsShared ∧ echo.CellsAreLeaves ∧ echo.Unmarked ∧
      ∃ e, echo.resolveConflicts .empty .error = .error (.design (.conflict e)) := by
  have hmarks : echo.Unmarked := fun b hb => (echo_bodies b hb).2.2
  obtain ⟨hrefused, -⟩ := (resolveConflicts_modes .empty echo_shared echo_leaves).2 hmarks
  exact ⟨echo_shared, echo_leaves, hmarks, hrefused.mpr echo_disputed⟩

end Echo
end Fragment
end Rtl
