import Mathlib
import Rtl.Proofs.SampleChains

/-!
# Lowering the samples of a tree

A tree is lowered fragment by fragment, children first. Each fragment starts without anything remembered, so its chains
are its own, and the signals issued for one fragment are not issued for another. A fragment with nothing late in it is
given nothing; any other gets the assignments of its chains and, for the first-cycle flag, a cell below it.
-/
namespace Rtl

open List

variable {σ : Arenas} {f : Fragment}

/-- What lowering has to make something for: the first-cycle flag, a sample of it, and a sample with a delay. -/
def Value.IsLate : Value → Prop
  | .sample v n _ => v = .initial ∨ n ≠ 0
  | .initial => True
  | _ => False

/-- The fragments below a list of children, by their paths. -/
def Fragment.below? (cs : List (String × Fragment)) : List Nat → Option Fragment
  | [] => none
  | i :: path => cs[i]?.bind fun c => c.2.at? path

theorem Fragment.at?_node (b : Body) (cs : List (String × Fragment)) (i : Nat) (path : List Nat) :
    (node b cs).at? (i :: path) = below? cs (i :: path) := rfl

namespace Delays

variable {a : Nat} {cs cs' : List (String × Fragment)} {s t : State}

/-- The assignments of the registers. -/
def assignments (d : Delays) : List Statement := d.lines.map fun l => .assign (.signal l.1) l.2

theorem mem_written_assignments {ls : List (SignalId × Value)} {r : SignalId} :
    Value.signal r ∈ Statement.bodyWritten (ls.map fun l => .assign (.signal l.1) l.2) ↔ r ∈ ls.map Prod.fst := by
  induction ls with
  | nil => simp [Statement.bodyWritten]
  | cons l ls ih =>
    have hhead : (Statement.assign (.signal l.1) l.2).written = [.signal l.1] := rfl
    rw [map_cons, Statement.bodyWritten, hhead, mem_append, ih, mem_singleton, map_cons,
      mem_cons]
    simp [Value.signal]

/-- Where nothing is late, no register and no flag is made. -/
theorem traversal_idle (a : Nat) :
    Rewrites (traversal a) (fun s => s.delays.chains = [] ∧ s.delays.initial = none) (fun _ _ => True)
      (fun v => Samplable v ∧ ¬ v.IsLate) (fun _ _ _ => True) where
  refl _ := trivial
  trans _ _ := trivial
  mono _ _ := trivial
  arenas h := (traversal_arenas h).2
  statement := traversal_statement
  leaf := by
    rintro v s o t hleaf hs ⟨hp, hlate⟩ hg
    refine ⟨?_, trivial, trivial⟩
    cases v with
    | const | net =>
      rw [Value.traverse] at hg
      obtain ⟨-, rfl⟩ := gives_pure.mp hg
      exact hs
    | initial => exact absurd trivial hlate
    | sample v n d =>
      obtain ⟨hv, hn⟩ := not_or.mp hlate
      rw [not_not] at hn
      subst hn
      rw [Value.traverse] at hg
      change Gives (lowerSample a v 0 d (v.traverse (traversal a))) s o t at hg
      rw [lowerSample] at hg
      obtain ⟨found, s1, hlook, hg⟩ := gives_bind.mp hg
      obtain ⟨rfl, -⟩ := gives_lookup? hlook
      cases found with
      | some =>
        obtain ⟨-, rfl⟩ := gives_pure.mp hg
        exact hs
      | none =>
        obtain ⟨o', s2, hw, hg⟩ := gives_bind.mp hg
        have hsame : s = s2 := by
          cases v with
          | const | net =>
            rw [Value.traverse] at hw
            exact (gives_pure.mp hw).2
          | initial => exact absurd rfl hv
          | _ => cases hp
        subst hsame
        rcases gives_ite.mp hg with ⟨-, hg⟩ | ⟨hn, -⟩
        · obtain ⟨u, s3, hmem, hg⟩ := gives_bind.mp hg
          obtain ⟨-, rfl⟩ := gives_pure.mp hg
          obtain rfl := gives_modify.mp hmem
          exact hs
        · exact absurd rfl hn
    | _ => exact hleaf.elim

/-- What lowering does to one fragment; `e` has the arenas before it and the state after it. Where nothing is late,
nothing is added. -/
structure Stage (a : Nat) (e : Arenas × State) (b b' : Body) : Prop where
  linked : Linked False a e.1 e.2
  body : ∃ b₁, b.Rewritten (Became e.2) b₁ ∧ b'.cell = b₁.cell ∧ b'.flatten = b₁.flatten ∧
    b'.statements = b₁.statements ++ e.2.delays.assignments
  drives : ∀ d n, b'.Drives d n ↔ b.Drives d n ∨ ∃ r w, n = .signal r ∧ e.2.delays.Line d r w
  idle : (∀ v ∈ b.values, ∀ u ∈ v.leaves, ¬ u.IsLate) → e.2.delays.chains = [] ∧ e.2.delays.initial = none

theorem addChains_eq (chains : List (String × List (SignalId × Value))) (b : Body) :
    (chains.foldl (fun b c => addChain b c.1 c.2) b).cell = b.cell ∧
      (chains.foldl (fun b c => addChain b c.1 c.2) b).flatten = b.flatten ∧
      (chains.foldl (fun b c => addChain b c.1 c.2) b).statements =
        b.statements ++ (chains.flatMap Prod.snd).map (fun l => .assign (.signal l.1) l.2) ∧
      ∀ d n, (chains.foldl (fun b c => addChain b c.1 c.2) b).Drives d n ↔
        b.Drives d n ∨ ∃ r w, n = .signal r ∧ ∃ c ∈ chains, c.1 = d ∧ (r, w) ∈ c.2 := by
  induction chains generalizing b with
  | nil => simp
  | cons c chains ih =>
    obtain ⟨hcell, hflatten, hstmts, hdrives⟩ := ih (addChain b c.1 c.2)
    refine ⟨hcell, hflatten, ?_, fun d n => ?_⟩
    · rw [foldl_cons, hstmts, flatMap_cons, map_append, ← append_assoc]
      rfl
    · rw [foldl_cons, hdrives]
      have hhere : (addChain b c.1 c.2).Drives d n ↔ b.Drives d n ∨ c.1 = d ∧ ∃ r w, n = .signal r ∧ (r, w) ∈ c.2 := by
        unfold addChain Body.Drives Body.addDrivers
        rw [Body.exists_insertDriver]
        refine or_congr Iff.rfl (and_congr_right fun _ => ?_)
        constructor
        · rintro ⟨m, hm, hkey⟩
          obtain ⟨l, hl, rfl⟩ := mem_map.mp hm
          cases n with
          | signal =>
            cases hkey
            exact ⟨l.1, l.2, rfl, hl⟩
          | clock | reset => cases hkey
        · rintro ⟨r, w, rfl, hl⟩
          exact ⟨_, mem_map_of_mem hl, rfl⟩
      rw [hhere]
      constructor
      · rintro ((h | ⟨hd, r, w, rfl, hl⟩) | ⟨r, w, rfl, e, he, hd, hl⟩)
        · exact Or.inl h
        · exact Or.inr ⟨r, w, rfl, c, mem_cons_self, hd, hl⟩
        · exact Or.inr ⟨r, w, rfl, e, mem_cons_of_mem _ he, hd, hl⟩
      · rintro (h | ⟨r, w, rfl, e, he, hd, hl⟩)
        · exact Or.inl (Or.inl h)
        · rcases mem_cons.mp he with rfl | he
          · exact Or.inl (Or.inr ⟨hd, r, w, rfl, hl⟩)
          · exact Or.inr ⟨r, w, rfl, e, he, hd, hl⟩

/-- The fragment itself, its children being done. -/
theorem top_stage {b : Body} (ha : a < s.arenas.list.size) (hb : ∀ v ∈ b.values, ∀ u ∈ v.leaves, Samplable u)
    (hg : Gives (Fragment.traverseTop (pass a) b cs) s f t) :
    ∃ b', f = .node b' (cs ++ (t.delays.initial.map fun id => ("", initialCell id)).toList) ∧
      Stage a (s.arenas, t) b b' := by
  obtain ⟨nb, hbody, rfl⟩ := top_inv hg
  have hdomain : ∀ {cd : ClockDomain} {s : State} {cd' : ClockDomain} {t : State},
      Gives ((pass a).domain cd) s cd' t → s = t := fun h => (gives_pure.mp h).2
  obtain ⟨hs3, -, hrewritten, hdrives⟩ := (traversal_rewrites a s.arenas).traverseBody hdomain traversal_net (linked_start ha)
    hb hbody
  obtain ⟨hcell, hflatten, hstmts, hadded⟩ := addChains_eq t.delays.chains nb
  refine ⟨_, rfl, hs3, ⟨nb, hrewritten, hcell, hflatten, hstmts⟩, fun d n => ?_, fun hlate => ?_⟩
  · rw [hadded, hdrives, Body.drives_iff]
    rfl
  · exact ((traversal_idle a).traverseBody hdomain traversal_net ⟨rfl, rfl⟩
      (fun v hv u hu => ⟨hb v hv u hu, hlate v hv u hu⟩) hbody).1

/-- Lowering of many fragments, one after the other, from the arenas `σ` on to `σ'`. Fragments that were not there
before are first-cycle cells. -/
structure Laid (a : Nat) (σ σ' : Arenas) (look look' : List Nat → Option Fragment) (E : List Nat → Arenas × State) :
    Prop where
  keeps : σ.Keeps σ'
  here : ∀ {p g}, look p = some g →
    ∃ g', look' p = some g' ∧ Stage a (E p) g.body g'.body ∧ σ.Keeps (E p).1 ∧ (E p).2.arenas.Keeps σ' ∧
      g'.children.length = g.children.length + (E p).2.delays.initial.toList.length
  new : ∀ {p g'}, look' p = some g' → look p = none → ∃ id, g' = initialCell id
  apart : ∀ {p q g h}, look p = some g → look q = some h → p ≠ q →
    (E p).2.arenas.Keeps (E q).1 ∨ (E q).2.arenas.Keeps (E p).1

/-- The lowering of a child and of the children after it, by their paths. -/
def consStages (E₁ E₂ : List Nat → Arenas × State) : List Nat → Arenas × State
  | 0 :: p => E₁ p
  | (i + 1) :: p => E₂ (i :: p)
  | [] => E₁ []

/-- The lowering of a fragment and of the children below it. -/
def nodeStages (e : Arenas × State) (E : List Nat → Arenas × State) : List Nat → Arenas × State
  | [] => e
  | i :: p => E (i :: p)

/-- A child and the children after it. -/
theorem Laid.cons {σ1 σ' : Arenas} {c c' : String × Fragment} {E1 E2 : List Nat → Arenas × State}
    (h1 : Laid a σ σ1 (fun p => c.2.at? p) (fun p => c'.2.at? p) E1)
    (h2 : Laid a σ1 σ' (Fragment.below? cs) (Fragment.below? cs') E2) :
    Laid a σ σ' (Fragment.below? (c :: cs)) (Fragment.below? (c' :: cs')) (consStages E1 E2) := by
  refine ⟨h1.keeps.trans h2.keeps, ?_, ?_, ?_⟩
  · intro p g hp
    rcases p with _ | ⟨_ | i, p⟩
    · cases hp
    · obtain ⟨g', hg', hstage, hbefore, hafter, hcount⟩ := h1.here (p := p) hp
      exact ⟨g', hg', hstage, hbefore, hafter.trans h2.keeps, hcount⟩
    · obtain ⟨g', hg', hstage, hbefore, hafter, hcount⟩ := h2.here (p := i :: p) hp
      exact ⟨g', hg', hstage, h1.keeps.trans hbefore, hafter, hcount⟩
  · intro p g' hp' hp
    rcases p with _ | ⟨_ | i, p⟩
    · cases hp'
    · exact h1.new (p := p) hp' hp
    · exact h2.new (p := i :: p) hp' hp
  · intro p q g h hp hq hne
    have hbefore : ∀ {p i q g h}, c.2.at? p = some g → Fragment.below? cs (i :: q) = some h →
        (E1 p).2.arenas.Keeps (E2 (i :: q)).1 := by
      intro p i q g h hp hq
      obtain ⟨-, -, -, -, hafter, -⟩ := h1.here (p := p) hp
      obtain ⟨-, -, -, hlater, -⟩ := h2.here hq
      exact hafter.trans hlater
    rcases p with _ | ⟨_ | i, p⟩
    · cases hp
    · rcases q with _ | ⟨_ | j, q⟩
      · cases hq
      · exact h1.apart (p := p) (q := q) hp hq (fun h => hne (h ▸ rfl))
      · exact Or.inl (hbefore hp hq)
    · rcases q with _ | ⟨_ | j, q⟩
      · cases hq
      · exact Or.inr (hbefore hq hp)
      · refine h2.apart (p := i :: p) (q := j :: q) hp hq ?_
        rintro ⟨⟩
        exact hne rfl

theorem children_laid
    (ih : ∀ c ∈ cs, ∀ {f' s t}, a < s.arenas.list.size → (∀ b ∈ c.2.bodies, ∀ v ∈ b.values, ∀ u ∈ v.leaves, Samplable u) →
      Gives (c.2.traverse (pass a)) s f' t → ∃ E, Laid a s.arenas t.arenas (fun p => c.2.at? p) (fun p => f'.at? p) E)
    (ha : a < s.arenas.list.size) (hcs : ∀ c ∈ cs, ∀ b ∈ c.2.bodies, ∀ v ∈ b.values, ∀ u ∈ v.leaves, Samplable u)
    (hg : Threads (fun c s c' t => c'.1 = c.1 ∧ Gives (c.2.traverse (pass a)) s c'.2 t) cs s cs' t) :
    cs'.length = cs.length ∧ ∃ E, Laid a s.arenas t.arenas (Fragment.below? cs) (Fragment.below? cs') E := by
  induction hg with
  | @nil s =>
    have hnone : ∀ p, Fragment.below? [] p = none := by
      intro p
      cases p <;> rfl
    refine ⟨rfl, fun _ => (s.arenas, s), .refl _, ?_, ?_, ?_⟩
    · intro p g hp
      rw [hnone] at hp
      cases hp
    · intro p g' hp'
      rw [hnone] at hp'
      cases hp'
    · intro p q g h hp
      rw [hnone] at hp
      cases hp
  | cons head _ ihcs =>
    obtain ⟨ihc, ihrest⟩ := forall_mem_cons.mp ih
    obtain ⟨hc, hrest⟩ := forall_mem_cons.mp hcs
    obtain ⟨E1, h1⟩ := ihc ha hc head.2
    obtain ⟨hlen, E2, h2⟩ := ihcs ihrest (ha.trans_eq h1.keeps.size.symm) hrest
    exact ⟨congrArg (· + 1) hlen, _, h1.cons h2⟩

theorem lt_of_below? {i : Nat} {p : List Nat} {g : Fragment} (h : Fragment.below? cs (i :: p) = some g) :
    i < cs.length := by
  obtain ⟨c, hc, -⟩ := Option.bind_eq_some_iff.mp h
  exact (List.getElem?_eq_some_iff.mp hc).1

/-- The fragment above the children, which may come to hold a first-cycle cell after them. -/
theorem Laid.node {σ1 : Arenas} {b b' : Body} {E : List Nat → Arenas × State}
    (hE : Laid a σ σ1 (Fragment.below? cs) (Fragment.below? cs') E) (hlen : cs'.length = cs.length)
    (hstage : Stage a (σ1, t) b b') :
    Laid a σ t.arenas (fun p => (Fragment.node b cs).at? p)
      (fun p => (Fragment.node b' (cs' ++ (t.delays.initial.map fun id => ("", initialCell id)).toList)).at? p)
      (nodeStages (σ1, t) E) := by
  have hkeeps : σ1.Keeps t.arenas := hstage.linked.keeps
  -- A child of the old fragment is at its place in the new one, before any first-cycle cell.
  have hold : ∀ {i p}, i < cs.length → Fragment.below? (cs' ++ (t.delays.initial.map fun id =>
      ("", initialCell id)).toList) (i :: p) = Fragment.below? cs' (i :: p) := by
    intro i p hi
    rw [Fragment.below?, Fragment.below?, getElem?_append_left (by omega)]
  refine ⟨hE.keeps.trans hkeeps, ?_, ?_, ?_⟩
  · intro p g hp
    cases p with
    | nil =>
      cases hp
      refine ⟨_, rfl, hstage, hE.keeps, .refl _, ?_⟩
      rw [Fragment.children_node, Fragment.children_node, length_append, hlen, nodeStages, Option.length_toList,
        Option.length_toList, Option.isSome_map]
    | cons =>
      rw [Fragment.at?_node] at hp
      obtain ⟨g', hg', hst, hbefore, hafter, hcount⟩ := hE.here hp
      refine ⟨g', ?_, hst, hbefore, hafter.trans hkeeps, hcount⟩
      rw [Fragment.at?_node, hold (lt_of_below? hp)]
      exact hg'
  · intro p g' hp' hp
    cases p with
    | nil => cases hp
    | cons i p =>
      rw [Fragment.at?_node] at hp' hp
      by_cases hi : i < cs.length
      · rw [hold hi] at hp'
        exact hE.new hp' hp
      · rw [Fragment.below?, getElem?_append_right (by omega)] at hp'
        obtain ⟨c, hc, hp'⟩ := Option.bind_eq_some_iff.mp hp'
        obtain ⟨id, -, rfl⟩ := Option.map_eq_some_iff.mp (Option.mem_toList.mp (mem_of_getElem? hc))
        cases p with
        | nil =>
          cases hp'
          exact ⟨id, rfl⟩
        | cons => cases hp'
  · intro p q g h hp hq hne
    have hbefore : ∀ {i p g}, Fragment.below? cs (i :: p) = some g → (E (i :: p)).2.arenas.Keeps σ1 := by
      intro i p g hp
      obtain ⟨-, -, -, -, hafter, -⟩ := hE.here hp
      exact hafter
    cases p with
    | nil =>
      cases q with
      | nil => exact absurd rfl hne
      | cons =>
        rw [Fragment.at?_node] at hq
        exact Or.inr (hbefore hq)
    | cons =>
      rw [Fragment.at?_node] at hp
      cases q with
      | nil => exact Or.inl (hbefore hp)
      | cons =>
        rw [Fragment.at?_node] at hq
        exact hE.apart hp hq hne

/-- The whole tree: children first, then the fragment above them. -/
theorem tree_laid {f' : Fragment} (ha : a < s.arenas.list.size)
    (hf : ∀ b ∈ f.bodies, ∀ v ∈ b.values, ∀ u ∈ v.leaves, Samplable u) (hg : Gives (f.traverse (pass a)) s f' t) :
    ∃ E, Laid a s.arenas t.arenas (fun p => f.at? p) (fun p => f'.at? p) E := by
  induction f generalizing s f' t with
  | node b cs ih =>
    obtain ⟨cs', s1, hgc, hg⟩ := Fragment.gives_node.mp hg
    have hcs : ∀ c ∈ cs, ∀ x ∈ c.2.bodies, ∀ v ∈ x.values, ∀ u ∈ v.leaves, Samplable u := fun c hc x hx =>
      hf x (Fragment.mem_bodies_node.mpr (Or.inr ⟨c, hc, hx⟩))
    obtain ⟨hlen, E, hE⟩ := children_laid (fun c hc => ih c hc) ha hcs hgc
    obtain ⟨b', rfl, hstage⟩ := top_stage (ha.trans_eq hE.keeps.size.symm)
      (hf b (Fragment.mem_bodies_node.mpr (Or.inl rfl))) hg
    exact ⟨_, hE.node hlen hstage⟩

end Delays

theorem Fragment.lowerSamples_laid {σ' : Arenas} {a : Nat} {f' : Fragment} (ha : a < σ.list.size)
    (hf : ∀ b ∈ f.bodies, ∀ v ∈ b.values, ∀ u ∈ v.leaves, Delays.Samplable u) (h : f.lowerSamples σ a = (.ok f', σ')) :
    ∃ E, Delays.Laid a σ σ' (fun p => f.at? p) (fun p => f'.at? p) E := by
  obtain ⟨t, hg, rfl⟩ := lowerSamples_inv h
  exact Delays.tree_laid ha hf hg

end Rtl
