import Mathlib
import Rtl.Proofs.DomainClosure
import Rtl.Proofs.Gathering

/-!
# Domains after flattening

A fragment that is taken over leaves its table of domains behind, so what it meant by a name is from then on what its
host means by it. After domains were propagated a host means nothing else by a name than the fragments below it, but
it need not know all names that they know: a local domain of a merged fragment is lost. Lowering a flattened tree
succeeds exactly when no merged fragment needs a domain that its host does not know, and then every reference becomes
what it would have become before.
-/
namespace Rtl

open List Option

variable {n : Net} {d : String} {r : Traversal (Except Failure)}

namespace Net

/-- The domain that a net refers to. -/
def domain? : Net → Option String
  | .signal _ => none
  | .clock d | .reset d _ => some d

theorem domain?_congr {m : Net} (h : m.key = n.key) : m.domain? = n.domain? := by
  cases m <;> cases n <;> cases h <;> rfl

end Net

namespace Value

/-- The value refers to the clock or the reset of the domain. -/
def Refers (v : Value) (d : String) : Prop := ∃ n, n ∈ v.reads ∧ n.domain? = some d

theorem refers_net : (Value.net n).Refers d ↔ n.domain? = some d := by
  unfold Refers
  rw [reads]
  constructor
  · rintro ⟨m, hm, hd⟩
    rw [NetSet.mem_mk_singleton] at hm
    rw [Net.domain?_congr hm, hd]
  · exact fun hd => ⟨n, by simp, hd⟩

end Value

namespace Body

variable {σ : Arenas} {b b' : Body}

theorem lowerNet_congr (h : ∀ d, n.domain? = some d → b.domain? d = b'.domain? d) :
    b.lowerNet σ n = b'.lowerNet σ n := by
  cases n with
  | signal => rfl
  | clock d | reset d allow => rw [lowerNet, lowerNet, h d rfl]

theorem lowering_congr (h : b.domains = b'.domains) : b.lowering σ = b'.lowering σ := by
  have hnet : b.lowerNet σ = b'.lowerNet σ := by
    funext n
    exact lowerNet_congr fun d _ => congrFun (domain?_congr h) d
  unfold lowering
  rw [hnet]

theorem known_of_lowerNet {o : Option Value} (h : b.lowerNet σ n = .ok o) (hd : n.domain? = some d) :
    (b.domain? d).isSome = true := by
  obtain ⟨id, rfl, -⟩ | ⟨d, cd, rfl, hcd, -⟩ | ⟨d, allow, cd, rst, rfl, hcd, -⟩ | ⟨d, cd, rfl, hcd, -⟩ :=
    lowerNet_eq_ok.mp h
  · cases hd
  all_goals
    cases hd
    rw [hcd]
    rfl

end Body

namespace Value

variable {σ : Arenas} {b b' : Body}
variable {v : Value} {vs : List Value}
variable {o : Option Value}

/-- The fragments mean the same by every domain that the value refers to. -/
def Agrees (b b' : Body) (v : Value) : Prop := ∀ d, v.Refers d → b.domain? d = b'.domain? d

/-- A value is lowered alike where the domains that it refers to mean the same. -/
theorem Agrees.traverse (h : v.Agrees b b') (ho : v.traverse (b.lowering σ) = .ok o) :
    v.traverse (b'.lowering σ) = .ok o := by
  induction v using operands_induct generalizing o with
  | const | initial => exact ho
  | net n =>
    have hnet : b.lowerNet σ n = b'.lowerNet σ n := Body.lowerNet_congr fun d hd => h d (refers_net.mpr hd)
    exact (congrArg (Except.mapError Failure.design) hnet.symm).trans ho
  | sample v clocks d ih =>
    obtain ⟨inner, hinner, ho⟩ := except_bind_eq_ok.mp ho
    exact except_bind_eq_ok.mpr ⟨inner, ih h hinner, ho⟩
  | compound v hv ih =>
    obtain ⟨bs, s, hbs, hf⟩ := (gives_compound hv).mp (gives_of_ok ho)
    refine ok_of_gives ((gives_compound hv).mpr ⟨bs, s, hbs.imp ?_, hf.of_like (like_self hv) fun hσ => ⟨_, hσ, fun _ => id⟩⟩)
    rintro c hc s _ t ⟨o, ho, rfl⟩
    refine ⟨o, ih c hc ?_ ho, rfl⟩
    rintro d ⟨n, hn, hd⟩
    exact h d ⟨n, (mem_reads_iff hv).mpr ⟨c, hc, hn⟩, hd⟩

theorem Agrees.traversed {w : Value} (h : v.Agrees b b') (hw : v.traversed (b.lowering σ) = .ok w) :
    v.traversed (b'.lowering σ) = .ok w := by
  obtain ⟨o, ho, rfl⟩ := except_bind_pure_eq_ok.mp hw
  exact except_bind_pure_eq_ok.mpr ⟨o, h.traverse ho, rfl⟩

/-- All domains that the value refers to are known. -/
def Known (b : Body) (v : Value) : Prop := ∀ d, v.Refers d → (b.domain? d).isSome = true

theorem known_of_traverse (h : v.traverse (b.lowering σ) = .ok o) : v.Known b := by
  induction v using operands_induct generalizing o with
  | const | initial =>
    rintro d ⟨n, hn, -⟩
    exact absurd hn (NetSet.not_mem_empty n)
  | net =>
    intro d hd
    exact Body.known_of_lowerNet (except_mapError_eq_ok.mp h) (refers_net.mp hd)
  | sample v clocks d ih =>
    obtain ⟨inner, hinner, -⟩ := except_bind_eq_ok.mp h
    exact ih hinner
  | compound v hv ih =>
    obtain ⟨bs, s, hbs, -⟩ := (gives_compound hv).mp (gives_of_ok h)
    rintro d ⟨n, hn, hd⟩
    obtain ⟨c, hc, hn⟩ := (mem_reads_iff hv).mp hn
    obtain ⟨-, -, hknown⟩ := forall₂_mem_left (hbs.forall₂ fun c hc _ _ _ ⟨_, ho, _⟩ => ih c hc ho) hc
    exact hknown d ⟨n, hn, hd⟩

end Value

namespace Statement

variable {σ : Arenas} {b b' : Body}

/-- Statements are lowered together when each of them is. -/
theorem traverseAll_ok_iff {xs : List Statement} :
    (∃ ys, traverseAll r xs = .ok ys) ↔ ∀ x ∈ xs, ∃ ys, x.traverse r = .ok ys := by
  induction xs with
  | nil => exact ⟨fun _ => by simp, fun _ => ⟨[], rfl⟩⟩
  | cons x xs ih =>
    rw [forall_mem_cons, ← ih]
    constructor
    · rintro ⟨ys, h⟩
      obtain ⟨here, hhere, h⟩ := except_bind_eq_ok.mp h
      obtain ⟨others, hothers, -⟩ := except_bind_eq_ok.mp h
      exact ⟨⟨here, hhere⟩, others, hothers⟩
    · rintro ⟨⟨here, hhere⟩, others, hothers⟩
      exact ⟨_, except_bind_eq_ok.mpr ⟨here, hhere, except_bind_eq_ok.mpr ⟨others, hothers, rfl⟩⟩⟩

/-- The values of a statement that is lowered refer to known domains only. -/
theorem known_of_traverse {x : Statement} {ys : List Statement} (h : x.traverse (b.lowering σ) = .ok ys) :
    ∀ v ∈ x.values, v.Known b := by
  intro v hv
  obtain ⟨w, hw⟩ := exists_traversed (fun _ => rfl) h v hv
  obtain ⟨o, ho, -⟩ := except_bind_eq_ok.mp hw
  exact Value.known_of_traverse ho

end Statement

namespace Body

variable {σ : Arenas} {b b' : Body}

/-- The fragment drives something in the domain, or refers to its clock or reset. -/
inductive Needs (b : Body) (d : String) : Prop
  | clocked {n : Net} (hd : d ≠ combDomain) (h : b.Drives d n)
  | driven {d' : String} {n : Net} (h : b.Drives d' n) (hn : n.domain? = some d)
  | mentioned {x : Statement} {v : Value} (hx : x ∈ b.statements) (hv : v ∈ x.values) (h : v.Refers d)

/-- Everything that the fragment holds can be lowered. -/
structure Lowers (σ : Arenas) (b : Body) : Prop where
  table : ∃ nb, traverseDomains (Fragment.domainLowering σ) Body.empty b.domains = .ok nb
  statements : ∀ x ∈ b.statements, ∃ ys, x.traverse (b.lowering σ) = .ok ys
  drivers : ∀ e ∈ b.driverPairs, ∃ o, b.lowerNet σ e.2 = .ok o
  cell : ∃ i, traverseCell (b.lowering σ) b.cell = .ok i
  clocks : ∀ d ∈ b.driverDomains, d ≠ combDomain → (b.domain? d).isSome = true

/-- Whether a table can be copied does not depend on what else is in the body. -/
theorem traverseDomains_ok_congr {cds : List ClockDomain} (h : b.domains = b'.domains) :
    (∃ nb, traverseDomains (Fragment.domainLowering σ) b cds = .ok nb) ↔
      ∃ nb, traverseDomains (Fragment.domainLowering σ) b' cds = .ok nb := by
  induction cds generalizing b b' with
  | nil => exact ⟨fun _ => ⟨_, rfl⟩, fun _ => ⟨_, rfl⟩⟩
  | cons cd cds ih =>
    have hfound : b.domain? cd.name = b'.domain? cd.name := congrFun (domain?_congr h) cd.name
    have hstep : ∀ c : Body, traverseDomains (Fragment.domainLowering σ) c (cd :: cds) =
        (Value.raise (c.addDomain cd) >>= fun c => traverseDomains (Fragment.domainLowering σ) c cds) := fun c => rfl
    rw [hstep, hstep, addDomain, addDomain, hfound]
    cases b'.domain? cd.name with
    | none => exact ih (by rw [h])
    | some =>
      dsimp only
      split
      · exact ih h
      · exact Iff.rfl

theorem traverseDrivers_ok_iff (hr : ∀ n, r.net n = (b.lowerNet σ n).mapError Failure.design) {ds : List (String × Net)}
    {c : Body} :
    (∃ nb, traverseDrivers (Fragment.domainLowering σ) r c ds = .ok nb) ↔ ∀ e ∈ ds, ∃ o, b.lowerNet σ e.2 = .ok o := by
  induction ds generalizing c with
  | nil => simp [traverseDrivers, pure, Except.pure]
  | cons e ds ih =>
    obtain ⟨d, n⟩ := e
    rw [forall_mem_cons]
    constructor
    · rintro ⟨nb, h⟩
      obtain ⟨v, hv, h⟩ := except_bind_eq_ok.mp h
      obtain ⟨o, ho, -⟩ := except_bind_eq_ok.mp hv
      rw [Value.traverse, hr] at ho
      refine ⟨⟨o, except_mapError_eq_ok.mp ho⟩, ?_⟩
      split at h
      · exact ih.mp ⟨nb, h⟩
      · exact ih.mp ⟨nb, h⟩
    · rintro ⟨⟨o, ho⟩, hrest⟩
      have hv : (Value.net n).traversed r = .ok (o.getD (.net n)) := by
        refine except_bind_eq_ok.mpr ⟨o, ?_, rfl⟩
        rw [Value.traverse, hr, ho]
        rfl
      rw [traverseDrivers, hv]
      dsimp only [bind, Except.bind]
      split
      · exact ih.mpr hrest
      · exact ih.mpr hrest

theorem unknownDomain?_eq_none_iff :
    b.unknownDomain? = none ↔ ∀ d ∈ b.driverDomains, d ≠ combDomain → (b.domain? d).isSome = true := by
  rw [unknownDomain?, find?_eq_none]
  refine forall₂_congr fun d _ => ?_
  simp only [Bool.and_eq_true, decide_eq_true_eq, isNone_iff_eq_none, not_and, isSome_iff_ne_none, ne_eq]

/-- A fragment is lowered when all that it holds can be. -/
theorem traverse_ok_iff : (∃ nb, b.traverse (Fragment.domainLowering σ) (b.lowering σ) = .ok nb) ∧ b.unknownDomain? = none ↔
    b.Lowers σ := by
  have htable_iff : (∃ nb, traverseDomains (Fragment.domainLowering σ)
      { b with statements := [], drivers := [], domains := [], cell := none } b.domains = .ok nb) ↔
      ∃ nb, traverseDomains (Fragment.domainLowering σ) Body.empty b.domains = .ok nb := traverseDomains_ok_congr rfl
  rw [unknownDomain?_eq_none_iff]
  constructor
  · rintro ⟨⟨nb, h⟩, hclocks⟩
    obtain ⟨b1, hdomains, h⟩ := except_bind_eq_ok.mp h
    obtain ⟨xs, hxs, h⟩ := except_bind_eq_ok.mp h
    obtain ⟨b3, hdrivers, h⟩ := except_bind_eq_ok.mp h
    obtain ⟨i, hi, -⟩ := except_bind_eq_ok.mp h
    exact ⟨htable_iff.mp ⟨b1, hdomains⟩, Statement.traverseAll_ok_iff.mp ⟨xs, hxs⟩,
      (traverseDrivers_ok_iff fun _ => rfl).mp ⟨b3, hdrivers⟩, ⟨i, hi⟩, hclocks⟩
  · rintro ⟨htable, hstatements, hdrivers, ⟨i, hi⟩, hclocks⟩
    refine ⟨?_, hclocks⟩
    obtain ⟨xs, hxs⟩ := Statement.traverseAll_ok_iff.mpr hstatements
    obtain ⟨b1, hb1⟩ := htable_iff.mpr htable
    obtain ⟨b3, hb3⟩ : ∃ nb, traverseDrivers (Fragment.domainLowering σ) (b.lowering σ) (b1.addStatements xs)
        b.driverPairs = .ok nb := (traverseDrivers_ok_iff fun _ => rfl).mpr hdrivers
    exact ⟨_, except_bind_eq_ok.mpr ⟨b1, hb1, except_bind_eq_ok.mpr ⟨xs, hxs,
      except_bind_eq_ok.mpr ⟨b3, hb3, except_bind_eq_ok.mpr ⟨i, hi, rfl⟩⟩⟩⟩⟩

/-- A fragment that can be lowered knows every domain that it needs. -/
theorem Lowers.known (h : b.Lowers σ) (hd : b.Needs d) : (b.domain? d).isSome = true := by
  cases hd with
  | clocked hd hn =>
    obtain ⟨e, he, rfl, -⟩ := drives_iff.mp hn
    exact h.clocks e.1 (mem_driverDomains he) hd
  | driven hn hdomain =>
    obtain ⟨e, he, -, hkey⟩ := drives_iff.mp hn
    obtain ⟨o, ho⟩ := h.drivers e he
    exact known_of_lowerNet ho ((Net.domain?_congr hkey).trans hdomain)
  | mentioned hx hv hrefers =>
    obtain ⟨ys, hys⟩ := h.statements _ hx
    exact Statement.known_of_traverse hys _ hv d hrefers

/-- What a fragment needs means the same elsewhere, so its statements and drivers are lowered alike there. -/
theorem lowered_alike (h : ∀ d, b.Needs d → b'.domain? d = b.domain? d) :
    (∀ x ∈ b.statements, ∀ {ys}, x.traverse (b.lowering σ) = .ok ys → x.traverse (b'.lowering σ) = .ok ys) ∧
      ∀ e ∈ b.driverPairs, b'.lowerNet σ e.2 = b.lowerNet σ e.2 := by
  constructor
  · intro x hx ys hys
    refine Statement.traverse_congr (fun _ => rfl) (fun _ => rfl) (fun v hv w hw => ?_) hys
    exact Value.Agrees.traversed (fun d hrefers => (h d (.mentioned hx hv hrefers)).symm) hw
  · intro e he
    exact lowerNet_congr fun d hd => h d (.driven (drives_iff.mpr ⟨e, he, rfl, rfl⟩) hd)

/-- Of fragments that could each be lowered, the host can still be after taking the others over exactly when it knows
every domain that they need, provided that it means nothing else by a name than they do. -/
theorem Gathers.lowers_iff {host : Body} {taken : List Body} (h : host.Gathers taken b) (hhost : host.Lowers σ)
    (htaken : ∀ x ∈ taken, x.Lowers σ)
    (hshared : ∀ x ∈ taken, ∀ d cd, host.domain? d = some cd → x.domain? d = some cd) :
    b.Lowers σ ↔ ∀ x ∈ taken, ∀ d, x.Needs d → (host.domain? d).isSome = true := by
  have hdomain : b.domain? = host.domain? := domain?_congr h.domains
  have hlowering : b.lowering σ = host.lowering σ := lowering_congr h.domains
  constructor
  · intro hb x hx d hneeds
    rw [← hdomain]
    refine hb.known ?_
    cases hneeds with
    | clocked hd hn => exact .clocked hd ((h.drives d _).mpr (Or.inr ⟨x, hx, hn⟩))
    | driven hn hdomain => exact .driven ((h.drives _ _).mpr (Or.inr ⟨x, hx, hn⟩)) hdomain
    | mentioned hy hv hrefers =>
      refine .mentioned ?_ hv hrefers
      rw [h.statements]
      exact mem_append_right _ (mem_flatMap.mpr ⟨x, hx, hy⟩)
  · intro hknown
    have halike : ∀ x ∈ taken, ∀ d, x.Needs d → host.domain? d = x.domain? d := by
      intro x hx d hd
      obtain ⟨cd, hcd⟩ := isSome_iff_exists.mp (hknown x hx d hd)
      rw [hcd, hshared x hx d cd hcd]
    refine ⟨h.domains ▸ hhost.table, ?_, ?_, ?_, ?_⟩
    · intro y hy
      rw [h.statements] at hy
      rw [hlowering]
      rcases mem_append.mp hy with hy | hy
      · exact hhost.statements y hy
      · obtain ⟨x, hx, hy⟩ := mem_flatMap.mp hy
        obtain ⟨ys, hys⟩ := (htaken x hx).statements y hy
        exact ⟨ys, (lowered_alike (halike x hx)).1 y hy hys⟩
    · intro e he
      have hnet : b.lowerNet σ e.2 = host.lowerNet σ e.2 := lowerNet_congr fun d _ => congrFun hdomain d
      rw [hnet]
      rcases h.pairs e he with he | ⟨x, hx, he⟩
      · exact hhost.drivers e he
      · rw [(lowered_alike (halike x hx)).2 e he]
        exact (htaken x hx).drivers e he
    · rw [hlowering, h.cell]
      exact hhost.cell
    · intro d hd hcomb
      rw [hdomain]
      rcases (h.used d).mp hd with hd | ⟨x, hx, n, hn⟩
      · exact hhost.clocks d hd hcomb
      · exact hknown x hx d (.clocked hcomb hn)

end Body

namespace Fragment

variable {σ : Arenas}
variable {f : Fragment}

theorem traverseAll_ok {cs : List (String × Fragment)}
    (h : ∀ c ∈ cs, ∃ f', c.2.traverse (domainLowering σ) = .ok f') : ∃ cs', traverseAll (domainLowering σ) cs = .ok cs' := by
  induction cs with
  | nil => exact ⟨[], rfl⟩
  | cons c cs ih =>
    obtain ⟨⟨f', hf'⟩, hrest⟩ := forall_mem_cons.mp h
    obtain ⟨others, hothers⟩ := ih hrest
    exact ⟨_, except_bind_eq_ok.mpr ⟨f', hf', except_bind_eq_ok.mpr ⟨others, hothers, rfl⟩⟩⟩

/-- A tree is lowered when every fragment of it is. -/
theorem lowerDomains_ok_iff : (∃ f', f.lowerDomains σ = .ok f') ↔ ∀ b ∈ f.bodies, b.Lowers σ := by
  unfold lowerDomains
  constructor
  · rintro ⟨f', h⟩ b hb
    have hall : List.Forall₂ (fun b _ => b.Lowers σ) f.bodies f'.bodies := by
      refine traverse_bodies ?_ h
      exact fun hknown hbody => Body.traverse_ok_iff.mp ⟨⟨_, hbody⟩, hknown⟩
    obtain ⟨-, -, hlowers⟩ := forall₂_mem_left hall hb
    exact hlowers
  · intro h
    induction f with
    | node b cs ih =>
      obtain ⟨⟨nb, hbody⟩, hknown⟩ := Body.traverse_ok_iff.mpr (h b (body_mem_bodies _))
      obtain ⟨cs', hchildren⟩ := traverseAll_ok fun c hc => ih c hc fun x hx => h x (bodies_of_child hc hx)
      refine ⟨node nb cs', except_bind_eq_ok.mpr ⟨cs', hchildren, except_bind_eq_ok.mpr ⟨_, rfl,
        except_bind_eq_ok.mpr ⟨nb, hbody, ?_⟩⟩⟩⟩
      unfold domainLowering
      dsimp only
      rw [hknown]

/-- In a tree with shared domains every fragment means the same as those above it by what they know. -/
theorem Shared.meansAlike (h : f.Shared) : f.OnEdges Body.MeansAlike := by
  intro g hg c hc d cd hd
  obtain ⟨hname, hknows⟩ := Body.knows_of_domain? hd
  have hchild := h g hg c hc cd hknows.mem
  rw [← hname]
  exact hchild

/-- Fragments and what was gathered in them are lowered in a resolved tree when they are one by one. -/
theorem lowerDomains_gathered_iff {f' : Fragment} {groups : List (Body × List Body)}
    (hlower : ∃ g, f.lowerDomains σ = .ok g) (hperm : (groups.flatMap fun p => p.1 :: p.2).Perm f.bodies)
    (hgathers : List.Forall₂ (fun p b => p.1.Gathers p.2 b) groups f'.bodies)
    (halike : ∀ p ∈ groups, ∀ x ∈ p.2, p.1.MeansAlike x) :
    (∃ g, f'.lowerDomains σ = .ok g) ↔
      ∀ p ∈ groups, ∀ x ∈ p.2, ∀ d, x.Needs d → (p.1.domain? d).isSome = true := by
  have hbodies := lowerDomains_ok_iff.mp hlower
  have hmem : ∀ p ∈ groups, ∀ x ∈ p.1 :: p.2, x.Lowers σ := fun p hp x hx =>
    hbodies x (hperm.mem_iff.mp (mem_flatMap.mpr ⟨p, hp, hx⟩))
  have hone : ∀ p ∈ groups, ∀ b, p.1.Gathers p.2 b →
      (b.Lowers σ ↔ ∀ x ∈ p.2, ∀ d, x.Needs d → (p.1.domain? d).isSome = true) := fun p hp b hb =>
    hb.lowers_iff (hmem p hp p.1 (by simp)) (fun x hx => hmem p hp x (mem_cons_of_mem _ hx)) (halike p hp)
  rw [lowerDomains_ok_iff]
  constructor
  · intro h p hp
    obtain ⟨b, hb, hgather⟩ := forall₂_mem_left hgathers hp
    exact (hone p hp b hgather).mp (h b hb)
  · intro h b hb
    obtain ⟨p, hp, hgather⟩ := forall₂_mem_right hgathers hb
    exact (hone p hp b hgather).mpr (h p hp)

/-- Flattening a tree with propagated domains whose lowering succeeds. Resolving ends, and each fragment of the result
is a fragment of the tree with those that it took over. Its lowering succeeds exactly when every domain that a fragment
taken over needs is known to the fragment that took it over. Then statements and drivers are lowered as they would have
been before, and driver domains denote the records that they denoted. The only domains that can be missing are local. -/
theorem lowerDomains_flattened_iff {a : Nat} {σ' : Arenas} {ensureSync : Bool} {mode : ConflictMode}
    {f₀ f g : Fragment} (ha : a < σ.list.size) (hf₀ : f₀.NumberedBy a σ)
    (hpropagate : (f₀.propagateDomains a ensureSync).run.run σ = (.ok f, σ'))
    (hlower : f.lowerDomains σ' = .ok g) (hmode : mode = .warn ∨ mode = .silent) :
    ∃ (r : Resolution) (groups : List (Body × List Body)), f.resolveConflicts σ' mode = .ok r ∧
      (groups.flatMap fun p => p.1 :: p.2).Perm f.bodies ∧
      List.Forall₂ (fun p b => p.1.Gathers p.2 b) groups r.fragment.bodies ∧
      ((∃ g', r.fragment.lowerDomains σ' = .ok g') ↔
        ∀ p ∈ groups, ∀ x ∈ p.2, ∀ d, x.Needs d → (p.1.domain? d).isSome = true) ∧
      ((∃ g', r.fragment.lowerDomains σ' = .ok g') → ∀ p ∈ groups, ∀ x ∈ p.2,
        (∀ y ∈ x.statements, y.traverse (p.1.lowering σ') = y.traverse (x.lowering σ')) ∧
        ∀ e ∈ x.driverPairs, p.1.lowerNet σ' e.2 = x.lowerNet σ' e.2 ∧
          (e.1 ≠ combDomain → p.1.domain? e.1 = x.domain? e.1)) ∧
      ∀ p ∈ groups, ∀ x ∈ p.2, ∀ d, x.Needs d → p.1.domain? d = none →
        ∃ cd, x.domain? d = some cd ∧ cd.isLocal = true := by
  obtain ⟨f₁, -, -, hsharing⟩ := propagateDomains_sharing ha hf₀ hpropagate
  have hnot : mode ≠ .error := by
    rintro rfl
    simp at hmode
  obtain ⟨r, hr⟩ : ∃ r, f.resolveConflicts σ' mode = .ok r := resolveWith_ends hnot le_rfl
  have htree := resolveWith_gathered Body.tabular_meansAlike hsharing.shared.meansAlike hr
  obtain ⟨groups, hperm, hgathers, halike⟩ := htree.gathered.groups Body.tabular_meansAlike
  have hiff := lowerDomains_gathered_iff ⟨g, hlower⟩ hperm hgathers halike
  refine ⟨r, groups, hr, hperm, hgathers, hiff, ?_, ?_⟩
  · intro hok p hp x hx
    have hneeds : ∀ d, x.Needs d → p.1.domain? d = x.domain? d := by
      intro d hd
      obtain ⟨cd, hcd⟩ := isSome_iff_exists.mp (hiff.mp hok p hp x hx d hd)
      rw [hcd, halike p hp x hx d cd hcd]
    obtain ⟨hstatements, hdrivers⟩ := Body.lowered_alike hneeds
    refine ⟨fun y hy => ?_, fun e he => ⟨hdrivers e he, fun hcomb => ?_⟩⟩
    · have hx : x ∈ f.bodies := hperm.mem_iff.mp (mem_flatMap.mpr ⟨p, hp, mem_cons_of_mem _ hx⟩)
      obtain ⟨ys, hys⟩ := (lowerDomains_ok_iff.mp ⟨g, hlower⟩ x hx).statements y hy
      rw [hys, hstatements y hy hys]
    · exact hneeds e.1 (.clocked hcomb (Body.drives_iff.mpr ⟨e, he, rfl, rfl⟩))
  · intro p hp x hx d hd hnone
    have hnode : ∀ y ∈ p.1 :: p.2, ∃ h ∈ f.nodes, h.body = y := by
      intro y hy
      exact mem_bodies_iff.mp (hperm.mem_iff.mp (mem_flatMap.mpr ⟨p, hp, hy⟩))
    obtain ⟨h, hh, rfl⟩ := hnode x (mem_cons_of_mem _ hx)
    obtain ⟨k, hk, hhost⟩ := hnode p.1 (by simp)
    have hlowers : h.body.Lowers σ' := lowerDomains_ok_iff.mp ⟨g, hlower⟩ _ (mem_bodies_iff.mpr ⟨h, hh, rfl⟩)
    obtain ⟨cd, hcd⟩ := isSome_iff_exists.mp (hlowers.known hd)
    refine ⟨cd, hcd, ?_⟩
    -- A domain that is not local would be known to the host as well.
    by_contra hlocal
    rw [Bool.not_eq_true] at hlocal
    obtain ⟨hname, hknows⟩ := Body.knows_of_domain? hcd
    have htop := (knows_iff_of_closed hsharing.lifted hsharing.shared hh hlocal).mp hknows
    have hknows' := (knows_iff_of_closed hsharing.lifted hsharing.shared hk hlocal).mpr htop
    unfold Body.Knows at hknows'
    rw [hhost, hname, hnone] at hknows'
    cases hknows'

/-- A fragment and its child that drive one signal. The child drives another by the clock of a domain of its own. -/
def clashing (isLocal : Bool) : Fragment :=
  .node { Body.empty with
      statements := [.assign (.signal ⟨0, 3⟩) (.const 0 (.unsigned 1))]
      drivers := [(combDomain, ⟨[.signal ⟨0, 3⟩]⟩)] }
    [("c", leaf { Body.empty with
      statements := [.assign (.signal ⟨0, 3⟩) (.const 1 (.unsigned 1)), .assign (.signal ⟨0, 4⟩) (.net (.clock "d"))]
      drivers := [(combDomain, ⟨[.signal ⟨0, 3⟩]⟩), ("d", ⟨[.signal ⟨0, 4⟩]⟩)]
      domains := [tick 1 "d" isLocal] })]

def clashingArenas : Arenas := ⟨#[⟨Array.replicate 4 ⟨"$signal", .unsigned 1, 0, false, [], none⟩, 1, 0⟩]⟩

theorem clashing_numbered (isLocal : Bool) : (clashing isLocal).NumberedBy 0 clashingArenas := by
  have hdomains : (clashing isLocal).bodies.flatMap Body.domains = [tick 1 "d" isLocal] := rfl
  refine numberedBy_of_list hdomains ?_ ?_
  · rw [forall_mem_singleton]
    exact le_rfl
  · simp

theorem exists_ok_of_isSome {α : Type} {x : Except Failure α} (h : x.toOption.isSome = true) : ∃ y, x = .ok y := by
  cases x with
  | error => cases h
  | ok y => exact ⟨y, rfl⟩

/-- With a domain that is not local the child may be merged: nothing that it needs is lost. -/
theorem lowerDomains_flattened_clashing : ∃ f σ' r g,
    ((clashing false).propagateDomains 0 false).run.run clashingArenas = (.ok f, σ') ∧
      f.resolveConflicts σ' .silent = .ok r ∧ r.fragment.lowerDomains σ' = .ok g := by
  have hall : (((clashing false).propagateDomains 0 false).run.run clashingArenas).1.toOption.map (fun f =>
      ((f.lowerDomains (((clashing false).propagateDomains 0 false).run.run clashingArenas).2).toOption.isSome,
        f.bodies.all fun b => b.domains.all (!·.isLocal))) = some (true, true) := by decide +kernel
  obtain ⟨f, hf, hfacts⟩ := map_eq_some_iff.mp hall
  rw [Prod.mk.injEq] at hfacts
  have hrun := eq_ok_of_toOption hf
  obtain ⟨g, hg⟩ := exists_ok_of_isSome hfacts.1
  obtain ⟨r, groups, hr, hperm, -, hiff, -, hmissing⟩ :=
    lowerDomains_flattened_iff (by decide) (clashing_numbered false) hrun hg (Or.inr rfl)
  have hknown : ∀ p ∈ groups, ∀ x ∈ p.2, ∀ d, x.Needs d → (p.1.domain? d).isSome = true := by
    intro p hp x hx d hd
    by_contra hnone
    obtain ⟨cd, hcd, hlocal⟩ := hmissing p hp x hx d hd (by simpa using hnone)
    have hx := hperm.mem_iff.mp (mem_flatMap.mpr ⟨p, hp, mem_cons_of_mem _ hx⟩)
    have hnot := all_eq_true.mp (all_eq_true.mp hfacts.2 x hx) cd (mem_of_find?_eq_some hcd)
    rw [hlocal] at hnot
    cases hnot
  obtain ⟨g', hg'⟩ := hiff.mpr hknown
  exact ⟨f, _, r, g', hrun, hr, hg'⟩

/-- With a local domain the merged child loses what its driver is clocked by. -/
theorem not_forall_lowerDomains_flattened : ¬ ∀ (a : Nat) (σ σ' : Arenas) (ensureSync : Bool) (mode : ConflictMode)
    (f₀ f g : Fragment) (r : Resolution), a < σ.list.size → f₀.NumberedBy a σ →
    (f₀.propagateDomains a ensureSync).run.run σ = (.ok f, σ') → f.lowerDomains σ' = .ok g →
    mode = .warn ∨ mode = .silent → f.resolveConflicts σ' mode = .ok r → ∃ g', r.fragment.lowerDomains σ' = .ok g' := by
  intro h
  have hall : (((clashing true).propagateDomains 0 false).run.run clashingArenas).1.toOption.map (fun f =>
      ((f.lowerDomains (((clashing true).propagateDomains 0 false).run.run clashingArenas).2).toOption.isSome,
        (f.resolveConflicts (((clashing true).propagateDomains 0 false).run.run clashingArenas).2
          .silent).toOption.map fun r => (r.fragment.lowerDomains
            (((clashing true).propagateDomains 0 false).run.run clashingArenas).2).toOption.isSome)) =
              some (true, some false) := by decide +kernel
  obtain ⟨f, hf, hfacts⟩ := map_eq_some_iff.mp hall
  rw [Prod.mk.injEq] at hfacts
  have hrun := eq_ok_of_toOption hf
  obtain ⟨g, hg⟩ := exists_ok_of_isSome hfacts.1
  obtain ⟨r, hr, hfails⟩ := map_eq_some_iff.mp hfacts.2
  obtain ⟨r', hr'⟩ := exists_ok_of_isSome (isSome_iff_exists.mpr ⟨r, hr⟩)
  rw [hr'] at hr
  cases hr
  obtain ⟨g', hg'⟩ := h 0 _ _ _ .silent _ f g r (by decide) (clashing_numbered true) hrun hg (Or.inr rfl) hr'
  rw [hg'] at hfails
  cases hfails

end Fragment
end Rtl
