import Mathlib
import Rtl.Proofs.Prepared

/-!
# What the later passes keep of a fragment

After its samples are lowered, a tree goes through passes that rename, hand out and look up domains, insert resets and
derive ports. All of them keep the form of the tree, the cells in it and the marks on it. None takes all statements out
of a fragment, and none puts a statement or a driver into a fragment that has neither. Only the resolution of
conflicts moves fragments, and it is not among them.
-/
namespace Rtl

namespace Body

variable {b b' : Body}

/-- Neither statements nor drivers. -/
def Quiet (b : Body) : Prop := b.statements = [] ∧ b.driverPairs = []

/-- What the passes after the lowering of samples do to a fragment, as far as cells are concerned. -/
structure Persists (b b' : Body) : Prop where
  cell : b'.cell.isSome = b.cell.isSome
  flatten : b'.flatten = b.flatten
  statements : b'.statements = [] → b.statements = []
  quiet : b.Quiet → b'.Quiet

theorem Persists.trans {b'' : Body} (h : b.Persists b') (h' : b'.Persists b'') : b.Persists b'' where
  cell := h'.cell.trans h.cell
  flatten := h'.flatten.trans h.flatten
  statements hs := h.statements (h'.statements hs)
  quiet hb := h'.quiet (h.quiet hb)

theorem persists_of_domains (h : b' = { b with domains := b'.domains }) : b.Persists b' := by
  rw [h]
  exact ⟨rfl, rfl, id, id⟩

theorem SameButPorts.persists (h : b.SameButPorts b') : b.Persists b' := by
  rw [h]
  exact ⟨rfl, rfl, id, id⟩

theorem driverPairs_eq_nil_iff : b.driverPairs = [] ↔ ∀ d n, ¬ b.Drives d n := by
  constructor
  · intro h d n hd
    obtain ⟨e, he, -⟩ := drives_iff.mp hd
    rw [h] at he
    cases he
  · intro h
    by_contra hne
    obtain ⟨e, he⟩ := List.exists_mem_of_ne_nil _ hne
    exact h e.1 e.2 (drives_iff.mpr ⟨e, he, rfl, rfl⟩)

section Traversal

variable {m : Type → Type} [Monad m] [MonadExceptOf Failure m] {S : Type} [Outcome m S] {P : Pass m} {r : Traversal m}

theorem traverse_persists (hstatement : ∀ {x s o t}, Gives (r.statement x) s o t → o = none ∧ s = t)
    (hnet : ∀ {n s o t}, Gives (r.net n) s o t → s = t) {s t : S} (hg : Gives (b.traverse P r) s b' t) :
    b.Persists b' := by
  obtain ⟨s1, s2, b1, b2, -, hgx, -, hgc, -, hidle, hparts⟩ := traverse_parts hnet hg
  have hlength := (Statement.gives_statements hstatement hgx).length_eq
  have hempty : b'.statements = [] ↔ b.statements = [] := by
    rw [← List.length_eq_zero_iff, ← List.length_eq_zero_iff, hlength]
  refine ⟨?_, by rw [hparts], hempty.mp, fun h => ⟨hempty.mpr h.1, ?_⟩⟩
  · rcases gives_cell.mp hgc with ⟨hc, hc', -⟩ | ⟨i, ps, hc, -, hc'⟩
    · rw [hc, hc']
    · rw [hc, hc']
      rfl
  · rw [driverPairs, hidle h.2]
    rfl

end Traversal
end Body

namespace Fragment

variable {f f' : Fragment}

section Traversal

variable {m : Type → Type} [Monad m] [MonadExceptOf Failure m] {S : Type} [Outcome m S] {P : Pass m}
  {R : Body → Body → Prop}

/-- A pass that finishes fragments with the children they have keeps the form of a tree. -/
theorem traverse_matches (htop : ∀ {b cs f s t}, Gives (traverseTop P b cs) s f t → ∃ b', f = .node b' cs ∧ R b b')
    {s t : S} (hg : Gives (f.traverse P) s f' t) : f.Matches R f' := by
  refine traverse_relates ?_ hg
  intro b cs cs' f s t hchildren hg
  obtain ⟨b', rfl, hb⟩ := htop hg
  exact .node hb hchildren

end Traversal

variable {a : Nat} {path : List String} {σ σ' : Arenas}

/-- What the propagation of domains makes of a fragment: it enters records in the fragment's table and renames domains
throughout it, any number of times. -/
structure Propagated (R : Body → Body → Prop) : Prop where
  domains : ∀ {b b' : Body}, b' = { b with domains := b'.domains } → R b b'
  renamed : ∀ {r : Renamer} {b b' : Body} {s t : Renamer.State},
    Gives (b.traverse r.pass (Renamer.traversal r.mapping)) s b' t → R b b'
  trans : ∀ {b b' b'' : Body}, R b b' → R b' b'' → R b b''

/-- Fragments side by side that match one by one. -/
abbrev MatchAll (R : Body → Body → Prop) (cs cs' : List (String × Fragment)) : Prop :=
  List.Forall₂ (fun c c' => c.2.Matches R c'.2) cs cs'

namespace Propagated

variable {R : Body → Body → Prop} (hR : Propagated R)
variable {f f' : Fragment}
include hR

theorem refl (f : Fragment) : f.Matches R f := Matches.refl (fun _ => hR.domains rfl) f

theorem reflAll (cs : List (String × Fragment)) : MatchAll R cs cs := List.forall₂_same.mpr fun c _ => hR.refl c.2

theorem transAll {cs cs' cs'' : List (String × Fragment)} (h : MatchAll R cs cs') (h' : MatchAll R cs' cs'') :
    MatchAll R cs cs'' := by
  let Q (c c' : String × Fragment) : Prop := c.2.Matches R c'.2
  exact forall₂_trans (R := Q) (S := Q) (T := Q) (fun h h' => h.trans hR.trans h') h h'

theorem run {r : Renamer} (hg : Gives (r.run f) σ f' σ') : f.Matches R f' := by
  obtain ⟨t, hg, -⟩ := Renamer.run_inv hg
  refine traverse_matches (P := r.pass) ?_ hg
  intro b cs f s t hg
  obtain ⟨nb, hbody, rfl⟩ := Renamer.top_inv hg
  exact ⟨nb, rfl, hR.renamed hbody⟩

theorem separated {x y : List (String × Fragment) × Arenas} (h : Relation.ReflTransGen (Separates a) x y) :
    MatchAll R x.1 y.1 := by
  induction h with
  | refl => exact hR.reflAll x.1
  | tail _ hstep ih =>
    obtain ⟨i, name, f, f', r, -, -, hf, hrun, hset⟩ := hstep
    rw [hset]
    exact hR.transAll ih (forall₂_set (fun c => hR.refl c.2) hf (hR.run hrun))

omit hR in
theorem adoptAll_same {b b' : Body} {cs : List (String × Fragment)} (h : b.adoptAll path cs = .ok b') :
    b' = { b with domains := b'.domains } := by
  induction cs generalizing b with
  | nil =>
    cases h
    rfl
  | cons c cs ih =>
    obtain ⟨b1, hadopt, h⟩ := except_bind_eq_ok.mp h
    rw [ih h, (Body.takeDomains_inv hadopt).1]

theorem liftDomains (hg : Gives (f.liftDomains a path) σ f' σ') : f.Matches R f' := by
  induction f generalizing path f' σ σ' with
  | node b cs ih =>
    obtain ⟨cs1, σ1, cs2, b', hlift, hseparated, hadopt, rfl⟩ := liftDomains_inv hg
    refine .node (hR.domains (adoptAll_same hadopt)) ?_
    have hlifted : MatchAll R cs cs1 := hlift.forall₂ fun c hc _ _ _ hone => ih c hc hone.choose_spec
    exact hR.transAll hlifted (hR.separated hseparated)

theorem shareDomains {name : String} {inherited : List ClockDomain} (h : f.shareDomains name inherited = .ok f') :
    f.Matches R f' := by
  induction f generalizing name inherited f' with
  | node b cs ih =>
    obtain ⟨b', cs', hinherit, hchildren, rfl⟩ := shareDomains_inv h
    refine .node (hR.domains (Body.takeDomains_inv hinherit).1) ?_
    refine (forall₂_mem hchildren).imp ?_
    exact fun c c' hone => ih c hone.1 hone.2

theorem ensureDomain (hg : Gives (f.ensureDomain a) σ f' σ') : f.Matches R f' := by
  obtain ⟨rfl, -⟩ | ⟨-, cd, b', -, hadd, rfl⟩ := ensureDomain_inv hg
  · exact hR.refl f'
  · cases f with
    | node b cs => exact .node (hR.domains (Body.addDomain_inv hadd).1) (hR.reflAll cs)

/-- What renaming and entering records do to a fragment is done to every fragment of the tree. -/
theorem propagateDomains {ensureSync : Bool} (hg : Gives (f.propagateDomains a ensureSync) σ f' σ') :
    f.Matches R f' := by
  obtain ⟨f1, f2, σ1, hlift, hensure, hshare⟩ := propagateDomains_inv hg
  refine (hR.liftDomains hlift).trans hR.trans (Matches.trans ?_ hR.trans (hR.shareDomains hshare))
  obtain ⟨-, hensure⟩ | ⟨-, rfl, -⟩ := hensure
  · exact hR.ensureDomain hensure
  · exact hR.refl f2

end Propagated

/-- The passes after the lowering of samples keep the form of a tree and what its fragments have of a cell. -/
abbrev Persists (f f' : Fragment) : Prop := f.Matches Body.Persists f'

theorem Persists.trans {f'' : Fragment} (h : f.Persists f') (h' : f'.Persists f'') : f.Persists f'' :=
  Matches.trans h Body.Persists.trans h'

theorem propagateDomains_persists {ensureSync : Bool} (hg : Gives (f.propagateDomains a ensureSync) σ f' σ') :
    f.Persists f' := by
  have hpersists : Propagated Body.Persists :=
    { domains := Body.persists_of_domains
      renamed := fun hg => Body.traverse_persists gives_none
        (fun hg => (Renamer.traversal_net hg).1) hg
      trans := Body.Persists.trans }
  exact hpersists.propagateDomains hg

/-- Resets go where something is driven. -/
theorem insertControls_persists {controls : Controls} (h : f.insertControls σ .reset controls = .ok f') :
    f.Persists f' := by
  induction f generalizing f' with
  | node b cs ih =>
    obtain ⟨xs, cs', hxs, hinv, rfl⟩ := insertControls_inv h
    refine .node ⟨rfl, rfl, fun hs => (List.append_eq_nil_iff.mp hs).1, fun hquiet => ⟨?_, ?_⟩⟩ ?_
    · have hnone := Body.controlSwitches_idle (Body.idle_of_driverPairs hquiet.2) hxs
      change b.statements ++ xs = []
      rw [hquiet.1, hnone]
      rfl
    · exact b.driverPairs_withoutIdleDomains.trans hquiet.2
    · refine (forall₂_mem hinv).imp ?_
      exact fun c c' hone => ih c hone.1 hone.2

theorem lowerDomains_matches {g : Fragment} (h : f.lowerDomains σ = .ok g) :
    f.Matches (fun b c => b.unknownDomain? = none ∧ b.traverse (domainLowering σ) (b.lowering σ) = .ok c) g := by
  refine traverse_matches (m := Except Failure) (S := Unit) (P := domainLowering σ) (s := ()) (t := ()) ?_ h
  intro b cs f s t hg
  obtain ⟨nb, hbody, hknown, rfl⟩ := lowering_top hg
  exact ⟨nb, rfl, hknown, hbody⟩

theorem lowerDomains_persists (h : f.lowerDomains σ = .ok f') : f.Persists f' := by
  refine (lowerDomains_matches h).imp fun b _ b' hb => ?_
  exact Body.traverse_persists gives_none (fun _ => rfl) (gives_of_ok hb.2)

theorem propagatePorts_persists {ports : NetSet} (h : f.propagatePorts σ ports = .ok f') : f.Persists f' := by
  induction f generalizing ports f' with
  | node b cs ih =>
    have hsame := propagatePorts_sameButPorts h
    obtain ⟨u, cs', s, -, hall, rfl, rfl⟩ := propagatePorts_inv h
    refine .node hsame.persists ?_
    refine (forall₂_mem hall).imp ?_
    exact fun c c' hone => ih c hone.1 hone.2.2

end Fragment
end Rtl
