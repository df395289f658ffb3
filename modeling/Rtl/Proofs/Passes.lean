import Mathlib
import Rtl.Proofs.Conflicts
import Rtl.Proofs.Leaves
import Rtl.Proofs.Ports

/-!
# Passes over trees

A fragment is fit when it has no ports yet, its statements are over leaves of one kind and its cell's ports over
leaves of another, its patterns fit their tests, its clock domains are sound, and its cell stands alone. A pass whose
traversals carry leaves over turns fit trees into fit trees.
-/
namespace Rtl

namespace Body

/-- The contents of a fragment are in order, its statements being over leaves of kind `p` and the ports of its cell
over leaves of kind `q`. -/
structure Fit (p q : Value → Prop) (σ : Arenas) (b : Body) : Prop where
  ports : b.ports = .empty
  statements : ∀ x ∈ b.statements, x.Built p σ
  domains : ∀ cd ∈ b.domains, cd.Sound σ
  silent : b.Sealed
  bound : ∀ i, b.cell = some i → ∀ x ∈ i.ports, x.value.Built q σ

theorem Fit.lasting {p p' q q' : Value → Prop} {σ σ' : Arenas} {b : Body} (h : b.Fit p q σ)
    (hp : Value.Lasting p p' σ σ') (hq : Value.Lasting q q' σ σ') (hx : σ.Extends σ') : b.Fit p' q' σ' where
  ports := h.ports
  statements x hm := (h.statements x hm).lasting hp
  domains cd hm := (h.domains cd hm).mono hx
  silent := h.silent
  bound i hi x hm := ((h.bound i hi x hm).lasting hq).1

end Body

namespace Fragment

/-- Every fragment of the tree is fit, and cells stand alone. -/
structure Fit (p q : Value → Prop) (σ : Arenas) (f : Fragment) : Prop where
  bodies : ∀ b ∈ f.bodies, b.Fit p q σ
  leaves : f.CellsAreLeaves

variable {p p' q q' : Value → Prop} {σ σ' : Arenas} {f : Fragment}

theorem fit_node {b : Body} {cs : List (String × Fragment)} :
    (node b cs).Fit p q σ ↔
      b.Fit p q σ ∧ (b.cell.isSome → cs = [] ∧ b.driverPairs = []) ∧ ∀ c ∈ cs, c.2.Fit p q σ := by
  constructor
  · intro h
    obtain ⟨hb, hcs⟩ := cellsAreLeaves_node.mp h.leaves
    exact ⟨h.bodies b (body_mem_bodies _), hb,
      fun c hc => ⟨fun x hx => h.bodies x (mem_bodies_node.mpr (Or.inr ⟨c, hc, hx⟩)), hcs c hc⟩⟩
  · rintro ⟨hb, hleaf, hcs⟩
    refine ⟨?_, cellsAreLeaves_node.mpr ⟨hleaf, fun c hc => (hcs c hc).leaves⟩⟩
    intro x hx
    rcases mem_bodies_node.mp hx with rfl | ⟨c, hc, hx⟩
    · exact hb
    · exact (hcs c hc).bodies x hx

theorem Fit.lasting (h : f.Fit p q σ) (hp : Value.Lasting p p' σ σ') (hq : Value.Lasting q q' σ σ')
    (hx : σ.Extends σ') : f.Fit p' q' σ' :=
  ⟨fun b hb => (h.bodies b hb).lasting hp hq hx, h.leaves⟩

theorem Fit.portless (h : f.Fit p q σ) : f.Portless := fun b hb => (h.bodies b hb).ports

end Fragment

namespace Body

section Traversal

variable {m : Type → Type} [Monad m] [MonadExceptOf Failure m] {S : Type} [Outcome m S]
variable {view : S → Arenas} {I : S → Prop} {p p' q q' : Arenas → Value → Prop}
variable {P : Pass m} {r : Traversal m}
variable {b b' : Body} {s t : S} {φ : Net → Option Net}

/-- What a pass does to domain records: sound ones become sound ones. -/
def DomainsKept (P : Pass m) (view : S → Arenas) (I : S → Prop) : Prop :=
  ∀ ⦃cd cd' s t⦄, I s → cd.Sound (view s) → Gives (P.domain cd) s cd' t →
    I t ∧ (view s).Extends (view t) ∧ cd'.Sound (view t)

theorem traverseDomains_sound (hdomain : DomainsKept P view I) {cds : List ClockDomain} (hI : I s)
    (hb : ∀ cd ∈ b.domains, cd.Sound (view s)) (hcds : ∀ cd ∈ cds, cd.Sound (view s))
    (hg : Gives (traverseDomains P b cds) s b' t) :
    I t ∧ (view s).Extends (view t) ∧ ∀ cd ∈ b'.domains, cd.Sound (view t) := by
  refine traverseDomains_induct (M := fun u b => I u ∧ (view s).Extends (view u) ∧ ∀ cd ∈ b.domains, cd.Sound (view u))
    ?_ ⟨hI, .refl _, hb⟩ hg
  rintro cd hcd u cd' u' b b' ⟨hI, hR, hb⟩ hgd hadd
  obtain ⟨hI1, hR1, hcd'⟩ := hdomain hI ((hcds cd hcd).mono hR) hgd
  refine ⟨hI1, hR.trans hR1, fun x hx => ?_⟩
  rcases (addDomain_inv hadd).2 x hx with hx | rfl
  · exact (hb x hx).mono hR1
  · exact hcd'

theorem traverseCell_built (hr : Carries r view I q q') {c c' : Option Instance} (hI : I s)
    (hc : ∀ i, c = some i → ∀ x ∈ i.ports, x.value.Built (q (view s)) (view s)) (hg : Gives (traverseCell r c) s c' t) :
    I t ∧ (view s).Extends (view t) ∧ c'.isSome = c.isSome ∧
      ∀ i, c' = some i → ∀ x ∈ i.ports, x.value.Built (q' (view t)) (view t) := by
  obtain ⟨hI1, hR1, ⟨rfl, rfl⟩ | ⟨i, ps, rfl, rfl, hps⟩⟩ := (hr.lifts s).cell hI
    (fun i hi x hx => ⟨.refl _, hc i hi x hx⟩) hg
  · exact ⟨hI1, hR1, rfl, by simp⟩
  · refine ⟨hI1, hR1, rfl, ?_⟩
    rintro j hj x hx
    cases hj
    obtain ⟨y, -, -, -, hb, -⟩ := forall₂_mem_right hps hx
    exact hb

/-- A traversal adds the drivers again that are still nets. -/
theorem traverseDrivers_eq
    (hφ : ∀ {n s v t}, Gives ((Value.net n).traversed r) s v t → v.net? = φ n) {ds : List (String × Net)}
    (hg : Gives (traverseDrivers P r b ds) s b' t) :
    b' = (ds.filterMap fun e => (φ e.2).map fun n => (P.driverDomain e.1, n)).foldl
      (fun b e => b.addDriver e.1 e.2) b := by
  induction ds generalizing b s with
  | nil =>
    rw [traverseDrivers] at hg
    obtain ⟨rfl, -⟩ := gives_pure.mp hg
    rfl
  | cons e ds ih =>
    obtain ⟨d, n⟩ := e
    rw [traverseDrivers] at hg
    obtain ⟨v, s1, hgv, hg⟩ := gives_bind.mp hg
    have hnet := hφ hgv
    rw [List.filterMap_cons]
    cases v with
    | net =>
      rw [← hnet]
      exact ih hg
    | _ =>
      rw [← hnet]
      exact ih hg

/-- What a traversed body drives. -/
theorem traverse_drivers (hφ : ∀ {n s v t}, Gives ((Value.net n).traversed r) s v t → v.net? = φ n)
    (hnet : ∀ {n s o t}, Gives (r.net n) s o t → s = t) (hg : Gives (b.traverse P r) s b' t) :
    (∀ d n, b'.Drives d n ↔ ∃ e ∈ b.driverPairs, P.driverDomain e.1 = d ∧ ∃ k, φ e.2 = some k ∧ k.key = n.key) ∧
    (∀ p ∈ b'.driverPairs, ∃ e ∈ b.driverPairs, P.driverDomain e.1 = p.1 ∧ φ e.2 = some p.2) ∧
    ∀ d ∈ b'.driverDomains, ∃ e ∈ b.driverPairs, P.driverDomain e.1 = d := by
  obtain ⟨s1, s2, b1, b2, -, -, hdrivers, -, hnone, -, hparts⟩ := traverse_parts hnet hg
  -- Only the table of drivers matters, and it starts out empty.
  have htable : b'.drivers = b2.drivers := by rw [hparts]
  have hmem : ∀ {p : String × Net},
      p ∈ (b.driverPairs.filterMap fun e => (φ e.2).map fun n => (P.driverDomain e.1, n)) ↔
        ∃ e ∈ b.driverPairs, P.driverDomain e.1 = p.1 ∧ φ e.2 = some p.2 := by
    intro p
    simp only [List.mem_filterMap, Option.map_eq_some_iff, Prod.ext_iff]
    constructor
    · rintro ⟨e, he, k, hk, hd, rfl⟩
      exact ⟨e, he, hd, hk⟩
    · rintro ⟨e, he, hd, hk⟩
      exact ⟨e, he, p.2, hk, hd, rfl⟩
  have hfold := traverseDrivers_eq hφ hdrivers
  refine ⟨fun d n => ?_, fun p hp => ?_, fun d hd => ?_⟩
  · have hidle : ¬ (b1.addStatements b'.statements).Drives d n := by simp [Drives, hnone]
    have hsame : b'.Drives d n ↔ b2.Drives d n := by rw [Drives, htable]; rfl
    rw [hsame, hfold, addDriverPairs_drives, or_iff_right hidle]
    constructor
    · rintro ⟨p, hp, hd, hkey⟩
      obtain ⟨e, he, hdomain, hk⟩ := hmem.mp hp
      exact ⟨e, he, hdomain.trans hd, p.2, hk, hkey⟩
    · rintro ⟨e, he, hd, k, hk, hkey⟩
      exact ⟨(P.driverDomain e.1, k), hmem.mpr ⟨e, he, rfl, hk⟩, hd, hkey⟩
  · rw [driverPairs, htable, ← driverPairs, hfold] at hp
    rcases mem_driverPairs_foldl hp with hp | hp
    · rw [driverPairs, hnone] at hp
      cases hp
    · exact hmem.mp hp
  · rw [driverDomains, htable, ← driverDomains, hfold] at hd
    rcases mem_driverDomains_foldl.mp hd with hd | ⟨p, hp, rfl⟩
    · rw [driverDomains, hnone] at hd
      cases hd
    · obtain ⟨e, he, hdomain, -⟩ := hmem.mp hp
      exact ⟨e, he, hdomain⟩

/-- A body that traversals carry over stays fit; a cell stays one, and what drives nothing still drives nothing. -/
theorem traverse_fit (hr : Carries r view I p p') (hcell : Carries r view I q q')
    (hnet : ∀ {n s o t}, Gives (r.net n) s o t → s = t) (hdomain : DomainsKept P view I) {s t : S} (hI : I s)
    (hb : b.Fit (p (view s)) (q (view s)) (view s)) (hg : Gives (b.traverse P r) s b' t) :
    I t ∧ (view s).Extends (view t) ∧ b'.Fit (p' (view t)) (q' (view t)) (view t) ∧ b'.cell.isSome = b.cell.isSome ∧
      (b.driverPairs = [] → b'.driverPairs = []) := by
  obtain ⟨s1, s2, b1, b2, hgd, hgx, -, hgc, -, hidle, hparts⟩ := traverse_parts hnet hg
  obtain ⟨hI1, hR1, hsound⟩ := traverseDomains_sound hdomain hI (by simp) hb.domains hgd
  obtain ⟨hI2, hx, hxs⟩ := hr.statements hI1 (fun x hx => (hb.statements x hx).lasting (hr.source hR1)) hgx
  have hR2 := hR1.trans hx
  obtain ⟨hI3, hR3, hsome, hbound⟩ := traverseCell_built hcell hI2
    (fun i hi x hx => ((hb.bound i hi x hx).lasting (hcell.source hR2)).1) hgc
  refine ⟨hI3, hR2.trans hR3, ⟨?_, ?_, ?_, ?_, hbound⟩, hsome, ?_⟩
  · rw [hparts]
    exact hb.ports
  · exact fun x hx => (hxs x hx).lasting (hr.target hR3)
  · intro cd hcd
    rw [hparts] at hcd
    exact (hsound cd hcd).mono (hx.trans hR3)
  · -- A cell has no statements to begin with.
    intro hc
    rw [hb.silent (hsome ▸ hc), Statement.traverseAll] at hgx
    exact (gives_pure.mp hgx).1.symm
  · intro hd
    rw [driverPairs, hidle hd]
    rfl

end Traversal
end Body

namespace Fragment

section Traversal

variable {m : Type → Type} [Monad m] [MonadExceptOf Failure m] {S : Type} [Outcome m S] {P : Pass m}
variable {f f' : Fragment}

/-- A pass goes through a tree as it goes through one fragment after another, children first: it keeps the invariant
`I`, the states are in the relation `G`, what is known of a fragment holds when its turn comes, and what became of one
still holds in the end. -/
theorem traverse_carry {I : S → Prop} {G : S → S → Prop} {p : S → Fragment → Prop} {q : S → Fragment → Fragment → Prop}
    (refl : ∀ s, G s s) (trans : ∀ {s t u}, G s t → G t u → G s u) (later : ∀ {s t f}, G s t → p s f → p t f)
    (later' : ∀ {s t f f'}, G s t → q s f f' → q t f f') (parts : ∀ {s b cs}, p s (.node b cs) → ∀ c ∈ cs, p s c.2)
    (top : ∀ {b cs cs' f s t}, I s → p s (.node b cs) → List.Forall₂ (fun c c' => q s c.2 c'.2) cs cs' →
      Gives (traverseTop P b cs') s f t → I t ∧ G s t ∧ q t (.node b cs) f) {s t : S} (hI : I s) (hf : p s f)
    (hg : Gives (f.traverse P) s f' t) : I t ∧ G s t ∧ q t f f' := by
  induction f generalizing s f' t with
  | node b cs ih =>
    obtain ⟨cs', s1, hchildren, htop⟩ := gives_node.mp hg
    obtain ⟨hI1, hG1, hcs'⟩ := hchildren.carry (I := I) (G := G) (p := fun u c => p u c.2) (q := fun u c c' => q u c.2 c'.2)
      refl trans (fun hG => later hG) (fun hG => later' hG) (fun c hc _ _ _ hI hp hone => ih c hc hI hp hone.2) hI (parts hf)
    obtain ⟨hI2, hG2, hq⟩ := top hI1 (later hG1 hf) hcs' htop
    exact ⟨hI2, trans hG1 hG2, hq⟩

/-- What a pass makes of one fragment after another, children first, it makes of trees. -/
theorem traverse_relates {Q : Fragment → Fragment → Prop} (top : ∀ {b cs cs' f s t},
    List.Forall₂ (fun c c' => Q c.2 c'.2) cs cs' → Gives (traverseTop P b cs') s f t → Q (.node b cs) f) {s t : S}
    (hg : Gives (f.traverse P) s f' t) : Q f f' :=
  (traverse_carry (I := fun _ => True) (G := fun _ _ => True) (p := fun _ _ => True) (q := fun _ => Q) (fun _ => trivial)
    (fun _ _ => trivial) (fun _ h => h) (fun _ h => h) (fun _ _ _ => trivial)
    (fun _ _ hcs hg => ⟨trivial, trivial, top hcs hg⟩) trivial trivial hg).2.2

variable {view : S → Arenas} {I : S → Prop} {p p' q q' : Arenas → Value → Prop}

/-- A pass that turns fit fragments with finished children into finished trees. -/
structure Finishes (P : Pass m) (view : S → Arenas) (I : S → Prop)
    (p q p' q' : Arenas → Value → Prop) : Prop where
  source : Value.Steady view p
  sourceCell : Value.Steady view q
  target : Value.Steady view p'
  targetCell : Value.Steady view q'
  top : ∀ {b cs f s t}, I s → b.Fit (p (view s)) (q (view s)) (view s) →
    (b.cell.isSome → cs = [] ∧ b.driverPairs = []) → (∀ c ∈ cs, c.2.Fit (p' (view s)) (q' (view s)) (view s)) →
    Gives (traverseTop P b cs) s f t → I t ∧ (view s).Extends (view t) ∧ f.Fit (p' (view t)) (q' (view t)) (view t)

namespace Finishes

/-- The pass turns fit trees into finished trees. -/
theorem traverse (h : Finishes P view I p q p' q') {s t : S} (hI : I s) (hf : f.Fit (p (view s)) (q (view s)) (view s))
    (hg : Gives (f.traverse P) s f' t) :
    I t ∧ (view s).Extends (view t) ∧ f'.Fit (p' (view t)) (q' (view t)) (view t) := by
  refine traverse_carry (G := fun s t => (view s).Extends (view t))
    (p := fun u f => f.Fit (p (view u)) (q (view u)) (view u))
    (q := fun u _ f => f.Fit (p' (view u)) (q' (view u)) (view u)) (fun _ => .refl _) .trans
    (fun hR hf => hf.lasting (h.source hR) (h.sourceCell hR) hR)
    (fun hR hf => hf.lasting (h.target hR) (h.targetCell hR) hR) (fun hf => (fit_node.mp hf).2.2) ?_ hI hf hg
  intro b cs cs' f s t hI hf hcs hg
  obtain ⟨hb, hleaf, -⟩ := fit_node.mp hf
  refine h.top hI hb ?_ ?_ hg
  · intro hc
    obtain ⟨rfl, hd⟩ := hleaf hc
    cases hcs
    exact ⟨rfl, hd⟩
  · intro c hc
    obtain ⟨x, -, hc⟩ := forall₂_mem_right hcs hc
    exact hc

end Finishes
end Traversal
end Fragment
end Rtl
