import Mathlib
import Rtl.Proofs.Contract
import Rtl.Proofs.DomainPropagation
import Rtl.Workspace.Elaborate

/-!
# Prepared designs pass the check

Whatever is asked for as ports and however conflicts are treated, a prepared tree is one that the check has nothing to
say about, provided that the elaborated tree was in order: no ports of its own, cells that stand alone, switch patterns
that fit, operators whose shapes are still those of their operands, and domains with clocks and resets of one bit.
Without the last the check may fail, since references to clocks and resets count as one bit when patterns are written.
-/
namespace Rtl

open List

variable {opts : PrepareOptions} {f : Fragment}

namespace Workspace

/-- Storing the tree `f` turned `w` into `w'`: fragments were only added, and the tree below `n` is `f` in every
workspace that agrees with `w'` on its fragments. -/
structure Planted (w w' : Workspace) (f : Fragment) (n : Nat) : Prop where
  same : w' = { w with cells := w'.cells }
  size : w'.cells.size = w.cells.size + f.count
  old : ∀ i < w.cells.size, w'.cells[i]? = w.cells[i]?
  tree : ∀ v : Workspace, (∀ i < w'.cells.size, v.cells[i]? = w'.cells[i]?) →
    ∀ fuel, f.count ≤ fuel → v.treeWith fuel n = f

/-- The same for the children of a fragment. -/
structure PlantedAll (w w' : Workspace) (cs : List (String × Fragment)) (ns : List (String × Nat)) : Prop where
  same : w' = { w with cells := w'.cells }
  size : w'.cells.size = w.cells.size + Fragment.countAll cs
  old : ∀ i < w.cells.size, w'.cells[i]? = w.cells[i]?
  tree : ∀ v : Workspace, (∀ i < w'.cells.size, v.cells[i]? = w'.cells[i]?) →
    ∀ fuel, Fragment.countAll cs ≤ fuel → (ns.map fun c => (c.1, v.treeWith fuel c.2)) = cs

theorem plantAll_planted {cs : List (String × Fragment)}
    (ih : ∀ c ∈ cs, ∀ w : Workspace, Planted w (w.plant c.2).1 c.2 (w.plant c.2).2) (w : Workspace) :
    PlantedAll w (w.plantAll cs).1 cs (w.plantAll cs).2 := by
  induction cs generalizing w with
  | nil =>
    rw [plantAll]
    exact ⟨rfl, rfl, fun _ _ => rfl, fun _ _ _ _ => rfl⟩
  | cons c cs ihcs =>
    obtain ⟨name, f⟩ := c
    obtain ⟨ihc, ihrest⟩ := forall_mem_cons.mp ih
    have hfirst : Planted w (w.plant f).1 f (w.plant f).2 := ihc w
    have hrest := ihcs ihrest (w.plant f).1
    have hle : (w.plant f).1.cells.size ≤ ((w.plant f).1.plantAll cs).1.cells.size := by
      rw [hrest.size]
      omega
    have hplant : w.plantAll ((name, f) :: cs) =
        (((w.plant f).1.plantAll cs).1, (name, (w.plant f).2) :: ((w.plant f).1.plantAll cs).2) := by
      rw [plantAll]
    rw [hplant]
    constructor <;> dsimp only
    · rw [hrest.same, hfirst.same]
    · rw [hrest.size, hfirst.size, Fragment.countAll, Nat.add_assoc]
    · intro i hi
      rw [hrest.old i (by rw [hfirst.size]; omega), hfirst.old i hi]
    · intro v hv fuel hfuel
      rw [Fragment.countAll] at hfuel
      have hf : v.treeWith fuel (w.plant f).2 = f := by
        refine hfirst.tree v ?_ fuel (by omega)
        intro i hi
        rw [hv i (by omega), hrest.old i hi]
      rw [map_cons, hrest.tree v hv fuel (by omega), hf]

theorem plant_planted (f : Fragment) (w : Workspace) : Planted w (w.plant f).1 f (w.plant f).2 := by
  induction f generalizing w with
  | node b cs ih =>
    have hcs := plantAll_planted ih w
    set w1 := (w.plantAll cs).1 with hw1
    set ns := (w.plantAll cs).2 with hns
    have hplant : w.plant (.node b cs) = (({ w1 with cells := w1.cells.push ⟨b, ns⟩ } : Workspace), w1.cells.size) := by
      rw [plant]
      rfl
    rw [hplant]
    constructor <;> dsimp only
    · rw [hcs.same]
    · rw [Array.size_push, hcs.size, Fragment.count]
      omega
    · intro i hi
      have hlt : i < w1.cells.size := by
        rw [hcs.size]
        omega
      rw [Array.getElem?_push, if_neg (by omega), hcs.old i hi]
    · intro v hv fuel hfuel
      rw [Fragment.count] at hfuel
      rw [Array.size_push] at hv
      have hcell : v.cell w1.cells.size = ⟨b, ns⟩ := by
        unfold cell
        rw [Array.getD_eq_getD_getElem?, hv _ (by omega), Array.getElem?_push, if_pos rfl]
        rfl
      cases fuel with
      | zero => omega
      | succ fuel =>
        rw [treeWith]
        dsimp only
        rw [hcell]
        refine congrArg (Fragment.node b) (hcs.tree v ?_ fuel (by omega))
        intro i hi
        rw [hv i (by omega), Array.getElem?_push, if_neg (by omega)]

theorem tree_plant (w : Workspace) (f : Fragment) : (w.plant f).1.tree (w.plant f).2 = f := by
  have h := plant_planted f w
  exact h.tree _ (fun _ _ => rfl) _ (by rw [h.size]; omega)

end Workspace
namespace Prepare

variable {s t : PrepareState} {a : Nat}
variable {f f' : Fragment}

theorem gives_context {α : Type} {text : String} {x : Step α} {y : α} :
    Gives (context text x) s y t ↔ Gives x s y t :=
  gives_tryCatch fun _ _ _ _ => not_gives_throw

theorem lowerSamples_inv (hg : Gives (lowerSamples a f) s f' t) : f.lowerSamples s.arenas a = (.ok f', t.arenas) := by
  replace hg := gives_get_bind.mp hg
  replace hg := gives_modify_bind.mp hg
  obtain ⟨hresult, rfl⟩ := gives_ofExcept.mp hg
  exact Prod.ext hresult rfl

theorem propagateDomains_inv {ensureSync : Bool} (hg : Gives (propagateDomains a ensureSync f) s f' t) :
    Gives (f.propagateDomains a ensureSync) s.arenas f' t.arenas := by
  replace hg := gives_get_bind.mp hg
  replace hg := gives_modify_bind.mp hg
  obtain ⟨hresult, rfl⟩ := gives_ofExcept.mp hg
  exact gives_run.mpr (Prod.ext hresult rfl)

theorem resolveConflicts_inv {mode : ConflictMode} (hg : Gives (resolveConflicts mode f) s f' t) :
    ∃ r, f.resolveConflicts s.arenas mode = .ok r ∧ r.fragment = f' ∧ t.arenas = s.arenas := by
  replace hg := gives_get_bind.mp hg
  obtain ⟨r, s3, hgr, hg⟩ := gives_bind.mp hg
  obtain ⟨hr, rfl⟩ := gives_ofExcept.mp hgr
  replace hg := gives_modify_bind.mp hg
  obtain ⟨rfl, rfl⟩ := gives_pure.mp hg
  exact ⟨r, hr, rfl, rfl⟩

/-- The tree that resets are inserted into: its samples lowered, its domains propagated, its conflicts resolved. -/
def Flattens (a : Nat) (opts : PrepareOptions) (f : Fragment) (σ : Arenas) (g : Fragment) (σ' : Arenas) : Prop :=
  ∃ f₁ σ₁ f₂ r, f.lowerSamples σ a = (.ok f₁, σ₁) ∧
    (f₁.propagateDomains a opts.ensureSync).run.run σ₁ = (.ok f₂, σ') ∧ f₂.resolveConflicts σ' opts.conflicts = .ok r ∧
    r.fragment = g

/-- Inversion of a preparation up to the point where names are given. -/
theorem run_inv {p : Prepared} (hg : Gives (run a opts f) s p t) :
    ∃ g f1 f2 ports, Flattens a opts f s.arenas g t.arenas ∧
      g.insertDomainResets t.arenas = .ok f1 ∧ f1.lowerDomains t.arenas = .ok f2 ∧
      f2.propagatePorts t.arenas ports = .ok p.top := by
  obtain ⟨f1, s1, hsamples, hg⟩ := gives_bind.mp hg
  obtain ⟨f2, s2, hdomains, hg⟩ := gives_bind.mp hg
  obtain ⟨f3, s3, hconflicts, hg⟩ := gives_bind.mp hg
  replace hg := gives_get_bind.mp hg
  obtain ⟨f4, s6, hgresets, hg⟩ := gives_bind.mp hg
  obtain ⟨hresets, rfl⟩ := gives_raise.mp (gives_context.mp hgresets)
  obtain ⟨f5, s7, hglower, hg⟩ := gives_bind.mp hg
  obtain ⟨hlower, rfl⟩ := gives_ofExcept.mp (gives_context.mp hglower)
  obtain ⟨ports, s8, hasked, hg⟩ := gives_bind.mp hg
  obtain ⟨-, rfl⟩ := gives_ofExcept.mp hasked
  obtain ⟨f6, hports, hg⟩ := gives_raise_bind.mp hg
  obtain ⟨names, -, hg⟩ := gives_raise_bind.mp hg
  obtain ⟨rfl, rfl⟩ := gives_pure.mp hg
  have hpropagated := gives_run.mp (propagateDomains_inv (gives_context.mp hdomains))
  obtain ⟨r, hr, rfl, harenas⟩ := resolveConflicts_inv (gives_context.mp hconflicts)
  rw [← harenas] at hpropagated hr
  exact ⟨_, f4, f5, ports, ⟨f1, s1.arenas, f2, r, lowerSamples_inv (gives_context.mp hsamples), hpropagated, hr, rfl⟩,
    hresets, hlower, hports⟩

theorem domainResets_areSignals (f : Fragment) : f.domainResets.AreSignals := by
  intro e he
  obtain ⟨cd, -, he⟩ := mem_filterMap.mp he
  obtain ⟨rst, -, rfl⟩ := Option.map_eq_some_iff.mp he
  exact ⟨rst, rfl⟩

end Prepare

namespace Fragment

variable {σ : Arenas}

/-- From a plain tree whose signals have one driving fragment each, the last passes make a tree that the check has
nothing to say about. -/
theorem lowered_passing {ports : NetSet} {f1 f2 f3 : Fragment} (hf : f.Plain σ)
    (howned : f.bodies.Pairwise fun b b' => ∀ id, b.Owns (.signal id) → ¬ b'.Owns (.signal id))
    (hresets : f.insertDomainResets σ = .ok f1) (hdomains : f1.lowerDomains σ = .ok f2)
    (hports : f2.propagatePorts σ ports = .ok f3) : f3.Passing σ := by
  have hreferring := hf.lasting (Value.lasting_referring σ) (Value.lasting_referring σ) (.refl σ)
  obtain ⟨hf1, hsame1⟩ := insertControls_fit (Prepare.domainResets_areSignals f) hreferring hresets
  have hf2 := lowerDomains_fit hf1 hdomains
  have hlowered := traverse_driversLowered hdomains
  have hsame3 := propagatePorts_bodies hports
  refine ⟨?_, ?_, ?_⟩
  · intro b' hb'
    obtain ⟨b, hb, hsame⟩ := forall₂_mem_right hsame3 hb'
    obtain ⟨b1, -, hdrivers⟩ := forall₂_mem_right hlowered hb
    have hfit := hf2.bodies b hb
    rw [hsame]
    refine ⟨hfit.statements, hfit.bound, ?_⟩
    intro e he
    obtain ⟨⟨id, hid, -⟩, hknown⟩ := hdrivers e he
    exact ⟨⟨id, hid⟩, hknown⟩
  · intro g' hg' path
    obtain ⟨g, hg, hportless, ports', u, hderived⟩ := propagatePorts_nodes hf2.portless hports g' hg'
    exact hderived.portIssues hportless (fun hcell => (hf2.leaves g hg hcell).1) path
  · have howned1 : f1.bodies.Pairwise fun b b' => ∀ id, b.Owns (.signal id) → ¬ b'.Owns (.signal id) := by
      refine pairwise_of_forall₂ hsame1 howned ?_
      rintro b c b' c' ⟨hb, hbd⟩ ⟨hc, hcd⟩ h id
      unfold Body.Owns at h ⊢
      rw [hb, hc, Body.resolveNet_congr hbd, Body.resolveNet_congr hcd]
      exact h id
    have hapart : f2.bodies.Pairwise Body.Apart := by
      refine pairwise_of_forall₂ hlowered howned1 ?_
      rintro b c b' c' hb hc h id ⟨e, he, hid⟩ ⟨e', he', hid'⟩
      obtain ⟨⟨i, hi, hown⟩, -⟩ := hb e he
      obtain ⟨⟨i', hi', hown'⟩, -⟩ := hc e' he'
      cases hid.symm.trans hi
      cases hid'.symm.trans hi'
      exact h id hown hown'
    refine pairwise_of_forall₂ hsame3 hapart ?_
    rintro b c b' c' hb hc h
    rw [hb, hc]
    exact h

end Fragment

/-- The preparation of a tree that is in order yields a tree that the check has nothing to say about. -/
theorem Prepare.run_passing {a : Nat} {p : Prepared} {s t : PrepareState} (ha : a < s.arenas.list.size)
    (hf : f.Fit (Value.Timed s.arenas) (Value.Plain s.arenas) s.arenas) (hg : Gives (run a opts f) s p t) :
    p.top.Passing t.arenas := by
  obtain ⟨g, f1, f2, ports, ⟨g1, σ1, g2, r, hsamples, hdomains, hr, rfl⟩, hresets, hlower, hports⟩ := run_inv hg
  obtain ⟨hx1, hf1⟩ := Fragment.lowerSamples_fit ha hf hsamples
  obtain ⟨-, hf2⟩ := Fragment.propagateDomains_plain (ha.trans_eq hx1.size.symm) hf1 (gives_run.mpr hdomains)
  obtain ⟨hf3, howned⟩ := Fragment.resolveConflicts_fit hf2 hr
  exact Fragment.lowered_passing hf3 howned hresets hlower hports

/-- The contents of an elaborated fragment, but for its domains: no ports; statements over leaves as they are written,
their patterns fitting and their operators shaped by their operands; a cell without statements whose ports are bound to
values without samples and first-cycle flags. -/
structure Body.Elaborated (σ : Arenas) (b : Body) : Prop where
  ports : b.ports = .empty
  statements : ∀ x ∈ b.statements, x.Built (Value.Timed σ) σ
  silent : b.Sealed
  bound : ∀ i, b.cell = some i → ∀ x ∈ i.ports, x.value.Built (Value.Plain σ) σ

theorem Body.elaborated_of_no_cell {σ : Arenas} {b : Body} (hports : b.ports = .empty) (hcell : b.cell = none)
    (hstatements : ∀ x ∈ b.statements, x.Built (Value.Timed σ) σ) : b.Elaborated σ where
  ports := hports
  statements := hstatements
  silent hsome := by
    rw [hcell] at hsome
    cases hsome
  bound i hi := by
    rw [hcell] at hi
    cases hi

namespace Fragment

/-- Every fragment of the tree is in order, and cells are leaves without drivers. -/
structure Elaborated (σ : Arenas) (f : Fragment) : Prop where
  bodies : ∀ b ∈ f.bodies, b.Elaborated σ
  leaves : f.CellsAreLeaves

/-- The clocks and resets of the domains that the tree knows are single bits. -/
def SingleBitDomains (σ : Arenas) (f : Fragment) : Prop := ∀ b ∈ f.bodies, ∀ cd ∈ b.domains, cd.Sound σ

theorem Elaborated.fit {σ : Arenas} (h : f.Elaborated σ) (hdomains : f.SingleBitDomains σ) :
    f.Fit (Value.Timed σ) (Value.Plain σ) σ := by
  refine ⟨?_, h.leaves⟩
  intro b hb
  have hbody := h.bodies b hb
  exact ⟨hbody.ports, hbody.statements, hdomains b hb, hbody.silent, hbody.bound⟩

end Fragment

namespace Work

variable {number top : Nat} {w : Workspace}

/-- The preparation of a block stores a tree prepared from the one that its elaboration yields. -/
theorem prepare_inv {w1 w2 : Workspace} {e : Option Elaboratable} {a : Nat} {reports : Bool}
    {names : List (String × NetTable String)} (helaborate : Gives (elaborate e) w number w1)
    (hg : Gives (prepare a opts reports e) w (top, names) w2) :
    ∃ p s, Gives (Prepare.run a opts (w1.tree number)) ⟨w1.arenas, []⟩ p s ∧ w2.tree top = p.top ∧
      w2.arenas = s.arenas := by
  obtain ⟨number', w', hgelab, hg⟩ := gives_bind.mp hg
  have helab := (gives_tryCatch fun _ _ _ _ => not_gives_throw).mp hgelab
  cases helaborate.symm.trans helab
  replace hg := gives_get_bind.mp hg
  cases hrun : (Prepare.run a opts (w1.tree number)).run.run ⟨w1.arenas, []⟩ with
  | mk result s =>
    rw [hrun] at hg
    obtain ⟨u, v1, hset, hg⟩ := gives_bind.mp hg
    obtain rfl := gives_set.mp hset
    obtain ⟨p, v2, hresult, hg⟩ := gives_bind.mp hg
    obtain ⟨rfl, rfl⟩ := gives_ofExcept.mp hresult
    obtain ⟨top', v3, hplant, hg⟩ := gives_bind.mp hg
    obtain ⟨htop, rfl⟩ := gives_pure.mp hg
    cases htop
    have hplanted := gives_modifyGet.mp hplant
    rw [Prod.mk.injEq] at hplanted
    obtain ⟨rfl, rfl⟩ := hplanted
    refine ⟨p, s, gives_run.mpr hrun, Workspace.tree_plant _ _, ?_⟩
    rw [(Workspace.plant_planted p.top _).same]

theorem check_of_clean (h : (w.tree number).check w.arenas = ([], none)) : Gives (check (some number) true) w () w := by
  unfold check
  refine gives_ite.mpr (Or.inr ⟨by decide, ?_⟩)
  refine gives_bind.mpr ⟨w, w, gives_get.mpr ⟨rfl, rfl⟩, ?_⟩
  rw [h]
  exact gives_bind.mpr ⟨(), w, gives_set.mpr rfl, gives_pure.mpr ⟨rfl, rfl⟩⟩

/-- What is prepared passes the check: if a block elaborates to a tree that is in order and whose domains are of single
bits, and its preparation succeeds, with whatever options, then the check of the prepared tree succeeds and reports
nothing. -/
theorem check_prepare {w w₁ w₂ : Workspace} {e : Option Elaboratable} {a number top : Nat} {opts : PrepareOptions}
    {reports : Bool} {names : List (String × NetTable String)}
    (helaborate : (elaborate e).run.run w = (.ok number, w₁)) (htree : (w₁.tree number).Elaborated w₁.arenas)
    (hdomains : (w₁.tree number).SingleBitDomains w₁.arenas) (ha : a < w₁.arenas.list.size)
    (hprepare : (prepare a opts reports e).run.run w = (.ok (top, names), w₂)) :
    (check (some top) true).run.run w₂ = (.ok (), w₂) := by
  obtain ⟨p, s, hrun, htop, harenas⟩ := prepare_inv (gives_run.mpr helaborate) (gives_run.mpr hprepare)
  have hpassing := Prepare.run_passing (s := ⟨w₁.arenas, []⟩) ha (htree.fit hdomains) hrun
  have hclean : (w₂.tree top).check w₂.arenas = ([], none) := by
    rw [htop, harenas]
    exact hpassing.check
  exact gives_run.mp (check_of_clean hclean)

theorem exists_of_stored {α : Type} {x : Except Failure (Nat × α) × Workspace}
    (h : x.1.toOption.map Prod.fst = some top) : ∃ names, x = (.ok (top, names), x.2) := by
  obtain ⟨r, w⟩ := x
  cases r with
  | error => cases h
  | ok p =>
    obtain ⟨t, names⟩ := p
    cases h
    exact ⟨names, rfl⟩

/-- A signal of a workspace made for an example. -/
def wire (name : String) (width : Int) : Signal := ⟨name, .unsigned width, 0, false, [], none⟩

/-- A domain over the first two signals of the first arena. -/
def pulse : ClockDomain := ⟨0, 1, "d", ⟨0, 1⟩, some ⟨0, 2⟩, false, false, false⟩

/-- A block that samples over two cycles, beside one that looks at the reset and at the first cycle, beside a cell. -/
def relay : Workspace :=
  { Workspace.empty with
    arenas := ⟨#[⟨#[wire "d_clk" 1, wire "d_rst" 1, wire "x" 4, wire "y" 4, wire "z" 1], 1, 0⟩]⟩
    cells := #[⟨{ Body.empty with domains := [pulse] }, [("p", 1), ("q", 2), ("c", 3)]⟩,
      ⟨{ Body.empty with
        statements := [.assign (.signal ⟨0, 4⟩) (.sample (.signal ⟨0, 3⟩) 2 "d")]
        drivers := [("d", ⟨[.signal ⟨0, 4⟩]⟩)] }, []⟩,
      ⟨{ Body.empty with
        statements := [.switch (.net (.reset "d" true)) [(["1"], [.assign (.signal ⟨0, 5⟩) .initial])]]
        drivers := [(combDomain, ⟨[.signal ⟨0, 5⟩]⟩)] }, []⟩,
      ⟨{ Body.empty with
        cell := some ⟨"$inv", [], [⟨"A", .signal ⟨0, 4⟩, .input⟩, ⟨"Y", .signal ⟨0, 3⟩, .output⟩]⟩ }, []⟩] }

theorem relay_elaborated : (relay.tree 0).Elaborated relay.arenas := by
  constructor
  · intro b hb
    have hbodies : (relay.tree 0).bodies =
        [(relay.cell 0).body, (relay.cell 1).body, (relay.cell 2).body, (relay.cell 3).body] := rfl
    rw [hbodies] at hb
    simp only [mem_cons, not_mem_nil, or_false] at hb
    rcases hb with rfl | rfl | rfl | rfl
    · exact Body.elaborated_of_no_cell rfl rfl fun x hx => nomatch hx
    · refine Body.elaborated_of_no_cell rfl rfl fun x hx => ?_
      obtain rfl := mem_singleton.mp hx
      exact ⟨rfl, Or.inr rfl⟩
    · refine Body.elaborated_of_no_cell rfl rfl fun x hx => ?_
      obtain rfl := mem_singleton.mp hx
      refine ⟨trivial, Statement.armsBuilt_iff.mpr ?_⟩
      rw [forall_mem_singleton, forall_mem_singleton, forall_mem_singleton]
      exact ⟨rfl, rfl, trivial⟩
    · refine ⟨rfl, (fun x hx => nomatch hx), fun _ => rfl, ?_⟩
      rintro i hi x hx
      cases hi
      rcases mem_cons.mp hx with rfl | hx
      · exact rfl
      · obtain rfl := mem_singleton.mp hx
        exact rfl
  · decide +kernel

/-- The prepared relay passes the check. -/
theorem check_prepare_relay : ∃ names w₂,
    (prepare 0 ⟨[.signal ⟨0, 5⟩], true, .warn⟩ true (some (.fragment 0))).run.run relay = (.ok (8, names), w₂) ∧
      (check (some 8) true).run.run w₂ = (.ok (), w₂) := by
  obtain ⟨names, hprepare⟩ : ∃ names, (prepare 0 ⟨[.signal ⟨0, 5⟩], true, .warn⟩ true
      (some (.fragment 0))).run.run relay = (.ok (8, names), _) := exists_of_stored (by decide +kernel)
  have helaborate : (elaborate (some (.fragment 0))).run.run relay = (.ok 0, relay) := rfl
  refine ⟨names, _, hprepare, check_prepare helaborate relay_elaborated ?_ (by decide) hprepare⟩
  intro b hb cd hcd
  have hdomains : ((relay.tree 0).bodies.flatMap Body.domains) = [pulse] := rfl
  have hmem : cd ∈ (relay.tree 0).bodies.flatMap Body.domains := mem_flatMap.mpr ⟨b, hb, hcd⟩
  rw [hdomains, mem_singleton] at hmem
  subst hmem
  refine ⟨⟨rfl, rfl⟩, ?_⟩
  rintro rst hrst
  cases hrst
  exact ⟨rfl, rfl⟩

/-- A switch over the clock of a domain, which counts as one bit, beside a domain whose clock has eight. -/
def wideClock : Workspace :=
  { Workspace.empty with
    arenas := ⟨#[⟨#[wire "d_clk" 8, wire "d_rst" 1, wire "x" 1], 1, 0⟩]⟩
    cells := #[⟨{ Body.empty with
      statements := [.switch (.net (.clock "d")) [(["1"], [.assign (.signal ⟨0, 3⟩) (.const 1 (.unsigned 1))])]]
      drivers := [(combDomain, ⟨[.signal ⟨0, 3⟩]⟩)]
      domains := [pulse] }, []⟩] }

theorem wideClock_elaborated : (wideClock.tree 0).Elaborated wideClock.arenas := by
  constructor
  · intro b hb
    obtain rfl := mem_singleton.mp hb
    refine Body.elaborated_of_no_cell rfl rfl fun x hx => ?_
    obtain rfl := mem_singleton.mp hx
    refine ⟨trivial, Statement.armsBuilt_iff.mpr ?_⟩
    rw [forall_mem_singleton, forall_mem_singleton, forall_mem_singleton]
    exact ⟨rfl, rfl, trivial⟩
  · decide +kernel

/-- With a wide clock a prepared tree may fail the check, although the elaborated one was in order. -/
theorem not_forall_check_prepare : ¬ ∀ (w w₁ w₂ : Workspace) (e : Option Elaboratable) (a number top : Nat)
    (opts : PrepareOptions) (reports : Bool) (names : List (String × NetTable String)),
    (elaborate e).run.run w = (.ok number, w₁) → (w₁.tree number).Elaborated w₁.arenas →
    a < w₁.arenas.list.size → (prepare a opts reports e).run.run w = (.ok (top, names), w₂) →
    (check (some top) true).run.run w₂ = (.ok (), w₂) := by
  intro h
  obtain ⟨names, hprepare⟩ : ∃ names, (prepare 0 .plain true (some (.fragment 0))).run.run wideClock =
      (.ok (1, names), _) := exists_of_stored (by decide +kernel)
  have hcheck := h wideClock wideClock _ _ 0 0 1 _ _ names rfl wideClock_elaborated (by decide) hprepare
  have hfails : ((check (some 1) true).run.run
      ((prepare 0 .plain true (some (.fragment 0))).run.run wideClock).2).1.toOption = none := by
    decide +kernel
  rw [hcheck] at hfails
  cases hfails

end Work
end Rtl
