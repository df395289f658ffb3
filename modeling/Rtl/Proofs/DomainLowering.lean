import Mathlib
import Rtl.Prepare
import Rtl.Proofs.SampleLowering
import Rtl.Proofs.SwitchArms

/-!
# Resolved conflicts, inserted resets and lowered domains

From resolving conflicts on the arenas stay as they are. Merging keeps trees plain and gives every signal one driving
fragment; inserting resets adds switches whose patterns fit; lowering clock and reset references leaves constants and
signals, driven in known domains by the fragments that drove them before.
-/
namespace Rtl

open List

variable {σ : Arenas} {xs : List Statement} {b : Body} {cs : List (String × Fragment)}

namespace Value

/-- A constant or a net, issued or not. -/
def Referring : Value → Prop
  | .const _ _ | .net _ => True
  | _ => False

/-- A constant or a signal. -/
def Concrete : Value → Prop
  | .const _ _ | .net (.signal _) => True
  | _ => False

theorem lasting_referring (σ : Arenas) : Lasting (Plain σ) Referring σ σ := by
  intro v _ hv
  cases v with
  | const | net => exact ⟨trivial, rfl⟩
  | _ => exact hv.elim

end Value

namespace Body

theorem Fit.merge {p q : Value → Prop} {sub : Body} (hcell : b.cell = none) (hb : b.Fit p q σ) (hsub : sub.Fit p q σ) :
    (b.merge sub).Fit p q σ where
  ports := (merge_ports hsub.ports).trans hb.ports
  statements := by
    intro x hx
    rw [merge_statements, mem_append] at hx
    exact hx.elim (hb.statements x) (hsub.statements x)
  domains := by
    rw [merge_domains]
    exact hb.domains
  silent := by
    intro hsome
    rw [merge_cell, hcell] at hsome
    cases hsome
  bound := by
    intro i hi
    rw [merge_cell, hcell] at hi
    cases hi

end Body

/-- Resolving the conflicts of a fit tree leaves a fit tree in which every signal is driven from one fragment. -/
theorem Fragment.resolveConflicts_fit {p q : Value → Prop} {mode : ConflictMode} {f : Fragment} {r : Resolution}
    (hf : f.Fit p q σ) (h : f.resolveConflicts σ mode = .ok r) :
    r.fragment.Fit p q σ ∧
      r.fragment.bodies.Pairwise fun b b' => ∀ id, b.Owns (.signal id) → ¬ b'.Owns (.signal id) := by
  have hcells := cellsAreLeaves_iff.mp hf.leaves
  -- A cell has no children, so it takes nothing over.
  have hopen : f.OnEdges fun b _ => b.cell = none := by
    intro g hg c hc
    by_contra hcell
    rw [(hf.leaves g hg (Option.isSome_iff_ne_none.mpr hcell)).1] at hc
    cases hc
  have htree := resolveWith_gathered ⟨fun _ hcell _ hb => hcell ▸ hb, fun hb _ => hb⟩ hopen h
  have hapart := (resolveWith_exclusive separable_signals (fun _ _ _ _ => trivial) hcells h).apart
  refine ⟨⟨htree.gathered.forall_mem (fun b sub hcell hb hsub => hb.merge hcell hsub) hf.bodies, ?_⟩, ?_⟩
  · exact cellsAreLeaves_iff.mpr (resolveWith_inCells Body.Lone.gathered hcells h)
  · rw [bodies_eq_map_nodes, pairwise_map]
    exact hapart.imp fun hgg id => hgg (.net (.signal id)) ⟨id, rfl⟩

namespace Statement

variable {p : Value → Prop} {σ : Arenas}

/-- The patterns of a new switch fit its test. -/
theorem mkSwitch_built {test : Value} {arms : List Arm} {x : Statement} (htest : test.Built p σ)
    (harms : ∀ a ∈ arms, ∀ x ∈ a.2, x.Built p σ) (h : mkSwitch σ test arms = .ok x) : x.Built p σ := by
  obtain ⟨out, rfl, hout⟩ := mkSwitch_arms h
  refine ⟨htest, armsBuilt_iff.mpr fun a ha => ?_⟩
  obtain ⟨b, hb, hab⟩ := hout a ha
  exact ⟨fun p hp => (armPatterns_spans hab.patterns p hp).size, hab.body ▸ harms b hb⟩

end Statement

/-- The controls are signals. -/
def Controls.AreSignals (controls : Controls) : Prop := ∀ e ∈ controls, ∃ id, e.2 = .signal id

theorem ControlKind.switch_built {kind : ControlKind} {id : SignalId} {signals : List SignalId}
    (h : kind.switch σ (.signal id) signals = .ok xs) : ∀ x ∈ xs, x.Built Value.Referring σ := by
  unfold ControlKind.switch at h
  dsimp only at h
  split at h
  · cases h
    simp
  · obtain ⟨x, hx, rfl⟩ := except_bind_pure_eq_ok.mp h
    rw [forall_mem_singleton]
    have htest : (Value.signal id).Built Value.Referring σ := trivial
    refine Statement.mkSwitch_built htest ?_ hx
    rw [forall_mem_singleton]
    intro y hy
    cases kind with
    | reset | enable =>
      obtain ⟨s, -, rfl⟩ := mem_map.mp hy
      exact ⟨trivial, trivial⟩

namespace Body

variable {controls : Controls} {drivers : List (String × NetSet)}

theorem controlSwitches_built {kind : ControlKind} (hcontrols : controls.AreSignals)
    (h : controlSwitches σ kind controls drivers = .ok xs) : ∀ x ∈ xs, x.Built Value.Referring σ := by
  induction drivers generalizing xs with
  | nil =>
    cases h
    simp
  | cons e drivers ih =>
    obtain ⟨d, s⟩ := e
    obtain ⟨here, hhere, h⟩ := except_bind_eq_ok.mp h
    obtain ⟨others, hothers, rfl⟩ := except_bind_pure_eq_ok.mp h
    intro x hx
    rcases mem_append.mp hx with hx | hx
    · unfold controlSwitch at hhere
      split at hhere
      · rename_i control hfind
        split at hhere
        · cases hhere
          cases hx
        · obtain ⟨id, rfl⟩ := hcontrols _ (mem_of_find?_eq_some hfind)
          exact ControlKind.switch_built hhere x hx
      · cases hhere
        cases hx
    · exact ih hothers x hx

/-- A fragment that drives nothing needs no resets. -/
theorem controlSwitches_idle (hidle : ∀ e ∈ drivers, e.2.items = [])
    (h : controlSwitches σ .reset controls drivers = .ok xs) : xs = [] := by
  induction drivers generalizing xs with
  | nil =>
    cases h
    rfl
  | cons e drivers ih =>
    obtain ⟨d, s⟩ := e
    obtain ⟨hs, hidle⟩ := forall_mem_cons.mp hidle
    obtain ⟨here, hhere, h⟩ := except_bind_eq_ok.mp h
    obtain ⟨others, hothers, rfl⟩ := except_bind_pure_eq_ok.mp h
    have hsignals : s.signals = [] := by
      unfold NetSet.signals
      rw [show s.items = [] from hs]
      rfl
    rw [ih hidle hothers, append_nil]
    unfold controlSwitch at hhere
    split at hhere
    · split at hhere
      · cases hhere
        rfl
      · rw [hsignals] at hhere
        cases hhere
        rfl
    · cases hhere
      rfl

theorem driverPairs_withoutIdleDomains (b : Body) : b.withoutIdleDomains.driverPairs = b.driverPairs := by
  unfold driverPairs withoutIdleDomains
  generalize b.drivers = ds
  induction ds with
  | nil => rfl
  | cons e ds ih =>
    rw [filter_cons, flatMap_cons]
    split
    · rw [flatMap_cons, ih]
    · rename_i hidle
      have hitems : e.2.items = [] := by simpa using hidle
      rw [ih, hitems]
      rfl

theorem idle_of_driverPairs (h : b.driverPairs = []) : ∀ e ∈ b.drivers, e.2.items = [] := by
  intro e he
  exact map_eq_nil_iff.mp (flatMap_eq_nil_iff.mp h e he)

end Body

namespace Fragment

variable {controls : Controls} {f' : Fragment} {kind : ControlKind} {cs' : List (String × Fragment)}

theorem forall₂_bodies_node {R : Body → Body → Prop} {b' : Body} (hb : R b b')
    (hcs : List.Forall₂ (fun c c' => List.Forall₂ R c.2.bodies c'.2.bodies) cs cs') :
    List.Forall₂ R (node b cs).bodies (node b' cs').bodies := by
  rw [bodies_node, bodies_node]
  exact .cons hb (rel_flatMap hcs fun _ _ h => h)

theorem insertControlsAll_inv (h : insertControlsAll σ kind controls cs = .ok cs') :
    List.Forall₂ (fun c c' => c.2.insertControls σ kind controls = .ok c'.2) cs cs' := by
  induction cs generalizing cs' with
  | nil =>
    cases h
    exact .nil
  | cons c cs ih =>
    obtain ⟨f', hf, h⟩ := except_bind_eq_ok.mp h
    obtain ⟨others, hothers, rfl⟩ := except_bind_pure_eq_ok.mp h
    exact .cons hf (ih hothers)

theorem insertControls_inv (h : (node b cs).insertControls σ kind controls = .ok f') :
    ∃ xs cs', Body.controlSwitches σ kind controls b.drivers = .ok xs ∧
      List.Forall₂ (fun c c' => c.2.insertControls σ kind controls = .ok c'.2) cs cs' ∧
      f' = node (b.withoutIdleDomains.addStatements xs) cs' := by
  obtain ⟨cs', hchildren, h⟩ := except_bind_eq_ok.mp h
  obtain ⟨xs, hxs, rfl⟩ := except_bind_pure_eq_ok.mp h
  exact ⟨xs, cs', hxs, insertControlsAll_inv hchildren, rfl⟩

/-- Inserting resets into a fit tree leaves it fit, with the drivers and domains it had. -/
theorem insertControls_fit (hcontrols : controls.AreSignals) {f : Fragment}
    (hf : f.Fit Value.Referring Value.Referring σ) (h : f.insertControls σ .reset controls = .ok f') :
    f'.Fit Value.Referring Value.Referring σ ∧
      List.Forall₂ (fun b b' => b'.driverPairs = b.driverPairs ∧ b'.domains = b.domains) f.bodies f'.bodies := by
  induction f generalizing f' with
  | node b cs ih =>
    obtain ⟨hb, hleaf, hcs⟩ := fit_node.mp hf
    obtain ⟨xs, cs', hxs, hinv, rfl⟩ := insertControls_inv h
    have hdrivers : (b.withoutIdleDomains.addStatements xs).driverPairs = b.driverPairs :=
      b.driverPairs_withoutIdleDomains
    constructor
    · refine fit_node.mpr ⟨⟨hb.ports, ?_, hb.domains, ?_, hb.bound⟩, ?_, ?_⟩
      · intro x hx
        rcases mem_append.mp hx with hx | hx
        · exact hb.statements x hx
        · exact Body.controlSwitches_built hcontrols hxs x hx
      · intro hcell
        have hnone := Body.controlSwitches_idle (Body.idle_of_driverPairs (hleaf hcell).2) hxs
        change b.statements ++ xs = []
        rw [hb.silent hcell, hnone]
        rfl
      · intro hcell
        obtain ⟨rfl, hidle⟩ := hleaf hcell
        cases hinv
        exact ⟨rfl, hdrivers.trans hidle⟩
      · intro c' hc'
        obtain ⟨c, hc, hone⟩ := forall₂_mem_right hinv hc'
        exact (ih c hc (hcs c hc) hone).1
    · refine forall₂_bodies_node ⟨hdrivers, rfl⟩ ?_
      refine (forall₂_mem hinv).imp ?_
      exact fun c c' hone => (ih c hone.1 (hcs c hone.1) hone.2).2

end Fragment

namespace Body

variable {σ : Arenas} {b : Body} {n : Net}
variable {d : String} {o : Option Value}

/-- What a net stands for: a signal for itself, a clock or a reset for the signal of its domain, and a reset that may be
missing for zero. -/
theorem lowerNet_eq_ok : b.lowerNet σ n = .ok o ↔
    (∃ id, n = .signal id ∧ o = none) ∨ (∃ d cd, n = .clock d ∧ b.domain? d = some cd ∧ o = some (.signal cd.clk)) ∨
      (∃ d allow cd rst, n = .reset d allow ∧ b.domain? d = some cd ∧ cd.rst = some rst ∧ o = some (.signal rst)) ∨
      ∃ d cd, n = .reset d true ∧ b.domain? d = some cd ∧ cd.rst = none ∧ o = some (.const 0 (.unsigned 1)) := by
  cases n with
  | signal => simp [lowerNet, eq_comm]
  | clock d => cases hd : b.domain? d <;> simp [lowerNet, hd, eq_comm]
  | reset d allow =>
    cases hd : b.domain? d with
    | none => simp [lowerNet, hd]
    | some cd => cases hr : cd.rst <;> cases allow <;> simp [lowerNet, hd, hr, eq_comm]

theorem sound_of_domain? (hb : ∀ cd ∈ b.domains, cd.Sound σ) {cd : ClockDomain} (h : b.domain? d = some cd) :
    cd.Sound σ := hb cd (mem_of_find?_eq_some h)

/-- A lowered net is a constant or a signal of the net's shape. -/
theorem lowerNet_concrete (hb : ∀ cd ∈ b.domains, cd.Sound σ) (h : b.lowerNet σ n = .ok o) :
    (o.getD (.net n)).Built Value.Concrete σ ∧ (o.getD (.net n)).shape σ = n.shape σ := by
  obtain ⟨id, rfl, rfl⟩ | ⟨d, cd, rfl, hd, rfl⟩ | ⟨d, allow, cd, rst, rfl, hd, hr, rfl⟩ | ⟨d, cd, rfl, hd, hr, rfl⟩ :=
    lowerNet_eq_ok.mp h
  · exact ⟨trivial, rfl⟩
  · exact ⟨trivial, (sound_of_domain? hb hd).1.2⟩
  · exact ⟨trivial, ((sound_of_domain? hb hd).2 rst hr).2⟩
  · exact ⟨trivial, rfl⟩

/-- The traversal of the domain lowering in a fragment with sound domains. -/
theorem lowering_carries (hb : ∀ cd ∈ b.domains, cd.Sound σ) :
    Carries (S := Unit) { Traversal.identity (pure σ) with net := fun n => (b.lowerNet σ n).mapError Failure.design }
      (fun _ => σ) (fun _ => True) (fun _ => Value.Referring) (fun _ => Value.Concrete) where
  source _ _ _ hv := ⟨hv, rfl⟩
  target _ _ _ hv := ⟨hv, rfl⟩
  arenas := gives_pure.mp
  statement := gives_none
  leaf := by
    intro v s o t _ _ hp hg
    rw [Value.traverse.eq_def] at hg
    cases v with
    | const =>
      obtain ⟨rfl, rfl⟩ := gives_pure.mp hg
      exact ⟨trivial, .refl _, trivial, rfl⟩
    | net =>
      have hlower := except_mapError_eq_ok.mp (gives_except.mp hg)
      obtain ⟨hbuilt, hshape⟩ := lowerNet_concrete hb hlower
      exact ⟨trivial, .refl _, hbuilt, hshape⟩
    | _ => exact hp.elim

theorem domain?_isSome : (b.domain? d).isSome = true ↔ ∃ cd ∈ b.domains, cd.name = d := by
  rw [domain?, find?_isSome]
  simp only [decide_eq_true_eq]

/-- Copying a table keeps the first record of every name. -/
theorem traverseDomains_domain? {cds : List ClockDomain} {b' : Body}
    (h : traverseDomains (Fragment.domainLowering σ) b cds = .ok b') (d : String) :
    b'.domain? d = (b.domain? d).or (cds.find? (·.name = d)) := by
  induction cds generalizing b with
  | nil =>
    cases h
    simp
  | cons cd cds ih =>
    obtain ⟨cd', hcd', h⟩ := except_bind_eq_ok.mp h
    obtain rfl := except_pure_eq_ok.mp hcd'
    obtain ⟨b1, hraise, h⟩ := except_bind_eq_ok.mp h
    have hadd := except_raise_eq_ok.mp hraise
    rw [ih h, find?_cons]
    unfold addDomain at hadd
    split at hadd
    · rename_i old hold
      split at hadd
      · cases hadd
        by_cases hname : cd.name = d
        · rw [← hname, hold]
          rfl
        · simp [hname]
      · cases hadd
    · cases hadd
      rw [domain?, find?_append, Option.or_assoc]
      by_cases hname : cd.name = d
      · simp [domain?, hname]
      · simp [domain?, hname]

/-- What the lowering of domains does to the contents of a fragment. -/
def lowering (σ : Arenas) (b : Body) : Traversal (Except Failure) :=
  { Traversal.identity (pure σ) with net := fun n => (b.lowerNet σ n).mapError Failure.design }

/-- The net that a net is lowered to. A constant reset is none. -/
def loweredNet? (σ : Arenas) (b : Body) (n : Net) : Option Net :=
  match b.lowerNet σ n with
  | .ok o => (o.getD (.net n)).net?
  | .error _ => none

/-- A net is lowered to the signal that it is resolved to. -/
theorem loweredNet?_eq_some {m : Net} : b.loweredNet? σ n = some m ↔ b.resolveNet n = m ∧ ∃ id, m = .signal id := by
  have hsignal : ∀ id, some (Net.signal id) = some m ↔ .signal id = m ∧ ∃ id, m = .signal id := fun id =>
    ⟨fun h => ⟨Option.some.inj h, id, (Option.some.inj h).symm⟩, fun h => congrArg some h.1⟩
  have hneither : ∀ d allow, .reset d allow = m ∧ (∃ id, m = Net.signal id) ↔ False := by
    rintro d allow
    simp only [iff_false, not_and]
    rintro rfl ⟨id, hid⟩
    cases hid
  unfold loweredNet?
  cases n with
  | signal id => exact hsignal id
  | clock d =>
    rw [lowerNet, resolveNet]
    cases b.domain? d with
    | none => simp +contextual [eq_comm]
    | some cd => exact hsignal cd.clk
  | reset d allow =>
    rw [lowerNet, resolveNet]
    cases b.domain? d with
    | none => simp [hneither]
    | some cd =>
      dsimp only
      cases cd.rst with
      | some rst => exact hsignal rst
      | none => cases allow <;> simp [hneither, Value.net?]

/-- References with one key are lowered alike: whether a reset may be missing is no part of the key, but decides only
between a constant and an error. -/
theorem loweredNet?_of_key {k : Net} (hkey : n.key = k.key) : b.loweredNet? σ n = b.loweredNet? σ k := by
  have hsignal : ∀ {n k : Net} {id}, n.key = k.key → b.resolveNet n = .signal id → b.resolveNet k = .signal id := by
    intro n k id hkey hn
    have hk := b.resolveNet_key_congr hkey
    rw [hn] at hk
    exact Net.key_eq_signal_iff.mp hk.symm
  ext m
  simp only [loweredNet?_eq_some]
  constructor
  · rintro ⟨hm, id, rfl⟩
    exact ⟨hsignal hkey hm, id, rfl⟩
  · rintro ⟨hm, id, rfl⟩
    exact ⟨hsignal hkey.symm hm, id, rfl⟩

section Lowered

variable {σ : Arenas} {b b' : Body}

theorem lowering_net {v : Value} (h : (Value.net n).traversed (b.lowering σ) = .ok v) : v.net? = b.loweredNet? σ n := by
  obtain ⟨o, ho, rfl⟩ := except_bind_pure_eq_ok.mp h
  have hnet : b.lowerNet σ n = .ok o := except_mapError_eq_ok.mp ho
  rw [loweredNet?, hnet]

section

variable (h : b.traverse (Fragment.domainLowering σ) (b.lowering σ) = .ok b')
include h

/-- The parts of a lowered body. -/
theorem lowered_parts :
    ∃ b1 b2 : Body, traverseDomains (Fragment.domainLowering σ)
        { b with statements := [], drivers := [], domains := [], cell := none } b.domains = .ok b1 ∧
      Statement.traverseAll (b.lowering σ) b.statements = .ok b'.statements ∧
      traverseCell (b.lowering σ) b.cell = .ok b'.cell ∧
      b' = { b with statements := b'.statements, drivers := b2.drivers, domains := b1.domains, cell := b'.cell } := by
  obtain ⟨_, _, b1, b2, hdomains, hstatements, -, hcell, -, -, hsame⟩ :=
    traverse_parts (s := ()) (t := ()) (fun _ => rfl) (gives_except.mpr h)
  exact ⟨b1, b2, hdomains, hstatements, hcell, hsame⟩

theorem lowered_domain? (d : String) :
    b'.domain? d = b.domain? d := by
  obtain ⟨b1, b2, hdomains, -, -, hsame⟩ := lowered_parts h
  have hfirst := traverseDomains_domain? hdomains d
  rw [hsame]
  exact hfirst

/-- What a lowered body drives. -/
theorem lowered_drivers :
    (∀ d n, b'.Drives d n ↔ ∃ e ∈ b.driverPairs, e.1 = d ∧ ∃ k, b.loweredNet? σ e.2 = some k ∧ k.key = n.key) ∧
    ∀ p ∈ b'.driverPairs, ∃ e ∈ b.driverPairs, e.1 = p.1 ∧ b.loweredNet? σ e.2 = some p.2 := by
  obtain ⟨hdrives, hpairs, -⟩ := traverse_drivers (s := ()) (t := ()) lowering_net (fun _ => rfl) (gives_except.mpr h)
  exact ⟨hdrives, hpairs⟩

end

theorem mem_driverDomains {e : String × Net} (h : e ∈ b.driverPairs) : e.1 ∈ b.driverDomains := by
  obtain ⟨ds, hds, hd, -⟩ := mem_driverPairs.mp h
  exact mem_map.mpr ⟨ds, hds, hd⟩

/-- What the drivers of a fragment are after the lowering: signals that it drove, in domains that it knows. -/
def DriversLowered (b b' : Body) : Prop :=
  ∀ e ∈ b'.driverPairs, (∃ id, e.2 = .signal id ∧ b.Owns (.signal id)) ∧
    (e.1 ≠ combDomain → (b'.domain? e.1).isSome = true)

theorem traverse_driversLowered (hknown : b.unknownDomain? = none)
    (h : b.traverse (Fragment.domainLowering σ) (b.lowering σ) = .ok b') : b.DriversLowered b' := by
  intro e he
  obtain ⟨e0, he0, hdomain, hnet⟩ := (lowered_drivers h).2 e he
  obtain ⟨hresolved, id, hid⟩ := loweredNet?_eq_some.mp hnet
  refine ⟨⟨id, hid, e0, he0, by rw [hresolved, hid]; rfl⟩, ?_⟩
  intro hcomb
  have hall := find?_eq_none.mp hknown e0.1 (mem_driverDomains he0)
  rw [hdomain] at hall
  rw [lowered_domain? h]
  simpa [hcomb, Option.isSome_iff_ne_none] using hall

end Lowered

end Body

namespace Fragment

variable {σ : Arenas} {f f' : Fragment}

/-- The last step of the lowering: a body whose domains are known is put on top of its children. -/
theorem lowering_top {s t : Unit} (hg : Gives (traverseTop (domainLowering σ) b cs) s f t) :
    ∃ nb, b.traverse (domainLowering σ) (b.lowering σ) = .ok nb ∧ b.unknownDomain? = none ∧ f = node nb cs := by
  obtain ⟨r, s1, hvalues, hg⟩ := gives_bind.mp hg
  obtain ⟨rfl, -⟩ := gives_pure.mp hvalues
  obtain ⟨nb, s2, hbody, hg⟩ := gives_bind.mp hg
  have hfinish : (domainLowering σ).finish b (node nb cs) = .ok f := hg
  unfold domainLowering at hfinish
  dsimp only at hfinish
  split at hfinish
  · cases hfinish
  · rename_i hknown
    cases hfinish
    exact ⟨nb, hbody, hknown, rfl⟩

theorem domainLowering_finishes (σ : Arenas) :
    Finishes (S := Unit) (domainLowering σ) (fun _ => σ) (fun _ => True) (fun _ => Value.Referring)
      (fun _ => Value.Referring) (fun _ => Value.Concrete) (fun _ => Value.Concrete) where
  source _ _ _ hv := ⟨hv, rfl⟩
  sourceCell _ _ _ hv := ⟨hv, rfl⟩
  target _ _ _ hv := ⟨hv, rfl⟩
  targetCell _ _ _ hv := ⟨hv, rfl⟩
  top := by
    intro b cs f s t hs hb hleaf hcs hg
    obtain ⟨nb, hbody, -, rfl⟩ := lowering_top hg
    have hcarries := Body.lowering_carries hb.domains
    have hkept : Body.DomainsKept (S := Unit) (domainLowering σ) (fun _ => σ) fun _ => True := by
      intro cd cd' s t _ hcd hg
      obtain ⟨rfl, -⟩ := gives_pure.mp hg
      exact ⟨trivial, .refl _, hcd⟩
    obtain ⟨-, -, hfit, hsome, hidle⟩ :=
      Body.traverse_fit (s := s) (t := t) hcarries hcarries (fun _ => rfl) hkept trivial hb (gives_except.mpr hbody)
    refine ⟨trivial, .refl _, fit_node.mpr ⟨hfit, ?_, hcs⟩⟩
    intro hc
    obtain ⟨hnil, hdrivers⟩ := hleaf (hsome ▸ hc)
    exact ⟨hnil, hidle hdrivers⟩

/-- What the lowering makes of every body that it can lower holds place by place. -/
theorem traverse_bodies {R : Body → Body → Prop} (hR : ∀ {b nb}, b.unknownDomain? = none →
    b.traverse (domainLowering σ) (b.lowering σ) = .ok nb → R b nb) (h : f.traverse (domainLowering σ) = .ok f') :
    List.Forall₂ R f.bodies f'.bodies := by
  induction f generalizing f' with
  | node b cs ih =>
    obtain ⟨cs', s1, hchildren, htop⟩ := gives_node.mp (gives_of_ok h)
    obtain ⟨nb, hbody, hknown, rfl⟩ := lowering_top htop
    refine forall₂_bodies_node (hR hknown hbody) (hchildren.forall₂ ?_)
    exact fun c hc _ _ _ hone => ih c hc (ok_of_gives hone.2)

theorem traverse_driversLowered (h : f.traverse (domainLowering σ) = .ok f') :
    List.Forall₂ Body.DriversLowered f.bodies f'.bodies := by
  exact traverse_bodies Body.traverse_driversLowered h

theorem lowerDomains_fit (hf : f.Fit Value.Referring Value.Referring σ) (h : f.lowerDomains σ = .ok f') :
    f'.Fit Value.Concrete Value.Concrete σ :=
  ((domainLowering_finishes σ).traverse (s := ()) (t := ()) trivial hf (gives_except.mpr h)).2.2

end Fragment
end Rtl
