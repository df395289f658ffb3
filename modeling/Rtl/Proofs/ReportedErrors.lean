import Mathlib
import Rtl.Proofs.Crashes
import Rtl.Proofs.NetNames
import Rtl.Proofs.Targets

/-!
# Which errors a preparation reports

A design error that arises in a guarded step of a preparation is reported with the name of the step in front of it. The
last steps, which derive ports and give names, are not guarded: a design error that arises there leaves the preparation
as it is. The only one that can arise there is about a left side that cannot be written, and the passes before let one
through only where a left side refers to a reset that the domain does not have.
-/
namespace Rtl

open List

namespace Failure

variable {f : Failure}

/-- The failure is an error that some step has put its name in front of. -/
def IsReported (f : Failure) : Prop := f.isCrash = false ∧ f.contexts ≠ []

/-- The failure is a design error that no step has put its name in front of. -/
def IsRaised (f : Failure) : Prop := ∃ e, f = .design e

theorem isReported_within (text : String) (h : f.isCrash = false) : (f.within text).IsReported := by
  have hwithin : f.within text = { f with contexts := text :: f.contexts } := if_neg (by rw [h]; decide)
  rw [hwithin]
  exact ⟨h, cons_ne_nil _ _⟩

theorem IsReported.not_isRaised (h : f.IsReported) : ¬ f.IsRaised := by
  rintro ⟨e, rfl⟩
  exact h.2 rfl

theorem not_isRaised_within (text : String) (f : Failure) : ¬ (f.within text).IsRaised := by
  cases hcrash : f.isCrash with
  | true =>
    rintro ⟨e, he⟩
    have hwithin : f.within text = f := if_pos hcrash
    rw [← hwithin, he] at hcrash
    cases hcrash
  | false => exact (isReported_within text hcrash).not_isRaised

end Failure

namespace Usage

variable {σ : Arenas}
variable {u : Usage}

theorem addBindings_ok_iff {ps : List Binding} :
    (∃ u', u.addBindings σ ps = .ok u') ↔ AllNets (fun _ => True) (ps.flatMap Binding.written) := by
  have hassigned {v : Value} : (∃ t, v.assigned σ = .ok t) ↔ AllNets (fun _ => True) v.written := by
    simp only [Value.assigned_eq_ok]
    exact Value.targets_ok_iff
  induction ps generalizing u with
  | nil => exact iff_of_true ⟨u, rfl⟩ fun _ hv => absurd hv not_mem_nil
  | cons p ps ih =>
    rw [addBindings, flatMap_cons, AllNets, forall_mem_append, Binding.written]
    cases p.dir with
    | input => exact ih.trans ⟨fun h => ⟨fun _ hv => absurd hv not_mem_nil, h⟩, And.right⟩
    | output | inout => exact (exists_ok_bind fun _ => ih).trans (and_congr_left fun _ => hassigned)

theorem addStatements_ok_iff {xs : List Statement} :
    (∃ u', u.addStatements σ xs = .ok u') ↔ ∀ x ∈ xs, ∃ t, x.targets = .ok t := by
  induction xs generalizing u with
  | nil => exact iff_of_true ⟨u, rfl⟩ fun _ hx => absurd hx not_mem_nil
  | cons x xs ih =>
    rw [addStatements, forall_mem_cons]
    refine (exists_ok_bind fun _ => ih).trans ?_
    simp only [Statement.assigned_eq_ok]

end Usage

namespace Body

variable {σ : Arenas}
variable {b : Body}

theorem usage_ok_iff : (∃ u, b.usage σ = .ok u) ↔
    (b.cell = none → ∀ x ∈ b.statements, ∃ t, x.targets = .ok t) ∧
      ∀ i, b.cell = some i → AllNets (fun _ => True) (i.ports.flatMap Binding.written) := by
  unfold usage
  cases b.cell with
  | some => exact Usage.addBindings_ok_iff.trans (by simp)
  | none => exact (exists_ok_pure.trans Usage.addStatements_ok_iff).trans (by simp)

/-- Ports are derived and names are given if everything that the body writes is a net. -/
theorem usage_names_ok_iff :
    ((∃ u, b.usage σ = .ok u) ∧ ∃ t, b.names σ = .ok t) ↔ AllNets (fun _ => True) b.written := by
  have hstatements : (∀ x ∈ b.statements, ∃ t, x.targets = .ok t) ↔
      AllNets (fun _ => True) (Statement.bodyWritten b.statements) := by
    simp only [Statement.targets_ok_iff, AllNets, Statement.mem_bodyWritten]
    constructor
    · rintro h u ⟨x, hx, hu⟩
      exact h x hx u hu
    · exact fun h x hx u hu => h u ⟨x, hx, hu⟩
  have hcell : (∀ i, b.cell = some i → AllNets (fun _ => True) (i.ports.flatMap Binding.written)) ↔
      AllNets (fun _ => True) (b.cell.toList.flatMap fun i => i.ports.flatMap Binding.written) := by
    cases b.cell <;> simp [AllNets]
  rw [usage_ok_iff, names_ok_iff, hstatements, hcell]
  constructor
  · rintro ⟨⟨-, hports⟩, hbody⟩
    exact forall_mem_append.mpr ⟨hbody, hports⟩
  · intro h
    obtain ⟨hbody, hports⟩ := forall_mem_append.mp h
    exact ⟨⟨fun _ => hbody, hports⟩, hbody⟩

end Body

namespace Fragment

variable {σ : Arenas}
variable {f : Fragment}
variable {ports : NetSet}

theorem propagateChildren_ok_iff {driven request : NetSet} {cs : List (String × Fragment)}
    (ih : ∀ c ∈ cs, ∀ ports, (∃ f', c.2.propagatePorts σ ports = .ok f') ↔ ∀ b ∈ c.2.bodies, ∃ u, b.usage σ = .ok u)
    {s : PortState} : (∃ r, propagateChildren σ driven ports request s cs = .ok r) ↔
      ∀ c ∈ cs, ∀ b ∈ c.2.bodies, ∃ u, b.usage σ = .ok u := by
  induction cs generalizing s with
  | nil => exact iff_of_true ⟨(s, []), rfl⟩ fun _ hc => absurd hc not_mem_nil
  | cons c cs ihcs =>
    obtain ⟨name, f⟩ := c
    obtain ⟨ihc, ihrest⟩ := forall_mem_cons.mp ih
    rw [propagateChildren, forall_mem_cons]
    refine (exists_ok_bind fun f' => ?_).trans (and_congr_left fun _ => ihc request)
    exact exists_ok_pure.trans (ihcs ihrest)

theorem propagatePorts_ok_iff : (∃ f', f.propagatePorts σ ports = .ok f') ↔ ∀ b ∈ f.bodies, ∃ u, b.usage σ = .ok u := by
  induction f generalizing ports with
  | node b cs ih =>
    rw [propagatePorts, forall_bodies_node]
    refine exists_ok_bind fun u => exists_ok_pure.trans ?_
    exact propagateChildren_ok_iff fun c hc ports => ih c hc

/-- The last steps of a preparation succeed if everything that the fragments of the tree write is a net. -/
theorem finished_iff (σ : Arenas) (ports : NetSet) (path : String) :
    (∃ f' t, f.propagatePorts σ ports = .ok f' ∧ f'.names σ path = .ok t) ↔ f.WritesOnly fun _ => True := by
  have hnames {f' : Fragment} (h : f.propagatePorts σ ports = .ok f') :
      (∃ t, f'.names σ path = .ok t) ↔ ∀ b ∈ f.bodies, ∃ t, b.names σ = .ok t := by
    have hsame : List.Forall₂ (fun b b' => (∃ t, b'.names σ = .ok t) ↔ ∃ t, b.names σ = .ok t) f.bodies f'.bodies := by
      refine (propagatePorts_bodies h).imp ?_
      intro b b' hb
      rw [Body.names_ok_iff, Body.names_ok_iff, hb]
    rw [names_ok_iff]
    exact (forall₂_forall_iff hsame fun _ _ _ hiff => hiff.symm).symm
  constructor
  · rintro ⟨f', t, hports, ht⟩ b hb
    refine Body.usage_names_ok_iff.mp ⟨propagatePorts_ok_iff.mp ⟨f', hports⟩ b hb, (hnames hports).mp ⟨t, ht⟩ b hb⟩
  · intro h
    have hboth : ∀ b ∈ f.bodies, (∃ u, b.usage σ = .ok u) ∧ ∃ t, b.names σ = .ok t := fun b hb =>
      Body.usage_names_ok_iff.mpr (h b hb)
    obtain ⟨f', hports⟩ := propagatePorts_ok_iff.mpr fun b hb => (hboth b hb).1
    obtain ⟨t, ht⟩ := (hnames hports).mpr fun b hb => (hboth b hb).2
    exact ⟨f', t, hports, ht⟩

end Fragment

namespace Prepare

variable {a : Nat} {opts : PrepareOptions} {f : Fragment} {s t : PrepareState}
variable {σ : Arenas}
variable {α : Type} {text : String} {e : Failure} {f' : Fragment} {x : Step α}

theorem fails_context (h : (context text x).run.run s = (.error e, t)) :
    ∃ e', x.run.run s = (.error e', t) ∧ e = e'.within ("prepare: " ++ text) := by
  cases hx : x.run.run s with
  | mk result =>
    cases result with
    | ok => cases (run_tryCatch_of_gives hx).symm.trans h
    | error e' =>
      cases (run_tryCatch_of_error hx).symm.trans h
      exact ⟨e', rfl, rfl⟩

theorem isReported_of_context (hx : Tame x) (h : (context text x).run.run s = (.error e, t)) : e.IsReported := by
  obtain ⟨e', he', rfl⟩ := fails_context h
  exact Failure.isReported_within _ (hx ⟨t, he'⟩)

theorem lowerSamples_tame (hf : ∀ b ∈ f.bodies, ∀ v ∈ b.values, ∀ u ∈ v.leaves, Delays.Samplable u) :
    Tame (lowerSamples a f) :=
  tame_get.bind fun _ => (tame_modify _).bind fun _ => tame_ofExcept (Fragment.lowerSamples_tame hf)

theorem propagateDomains_tame (ensureSync : Bool) (f : Fragment) : Tame (propagateDomains a ensureSync f) := by
  refine tame_get.bind fun s => (tame_modify _).bind fun _ => tame_ofExcept fun _ e he => ?_
  exact Fragment.propagateDomains_tame ensureSync f ⟨_, Prod.ext he rfl⟩

theorem resolveConflicts_tame (mode : ConflictMode) (f : Fragment) : Tame (resolveConflicts mode f) :=
  tame_get.bind fun _ => (tame_ofExcept (Fragment.resolveConflicts_tame _ _ _)).bind fun _ => (tame_modify _).map

theorem gives_lowerSamples (h : f.lowerSamples s.arenas a = (.ok f', σ)) :
    Gives (context "lower samples" (lowerSamples a f)) s f' { s with arenas := σ } := by
  refine gives_context.mpr (gives_bind.mpr ⟨s, s, gives_get.mpr ⟨rfl, rfl⟩, ?_⟩)
  rw [h]
  exact gives_bind.mpr ⟨(), _, gives_modify.mpr rfl, gives_ofExcept.mpr ⟨rfl, rfl⟩⟩

theorem gives_propagateDomains {ensureSync : Bool}
    (h : (f.propagateDomains a ensureSync).run.run s.arenas = (.ok f', σ)) :
    Gives (context "propagate domains" (propagateDomains a ensureSync f)) s f' { s with arenas := σ } := by
  refine gives_context.mpr (gives_bind.mpr ⟨s, s, gives_get.mpr ⟨rfl, rfl⟩, ?_⟩)
  rw [h]
  exact gives_bind.mpr ⟨(), _, gives_modify.mpr rfl, gives_ofExcept.mpr ⟨rfl, rfl⟩⟩

theorem gives_resolveConflicts {mode : ConflictMode} {r : Fragment.Resolution} (h : f.resolveConflicts s.arenas mode = .ok r) :
    Gives (context "resolve hierarchy conflicts" (resolveConflicts mode f)) s r.fragment
      { s with warnings := s.warnings ++ mode.warnings r.conflicts } := by
  refine gives_context.mpr (gives_bind.mpr ⟨s, s, gives_get.mpr ⟨rfl, rfl⟩, ?_⟩)
  refine gives_bind.mpr ⟨r, s, gives_ofExcept.mpr ⟨h, rfl⟩, ?_⟩
  exact gives_bind.mpr ⟨(), _, gives_modify.mpr rfl, gives_pure.mpr ⟨rfl, rfl⟩⟩

/-- The steps of a preparation that are not guarded. -/
def finish (opts : PrepareOptions) (σ : Arenas) (f : Fragment) : Step Prepared := do
  let ports ← MonadExcept.ofExcept (NetSet.empty.ofValues σ opts.ports)
  let f ← Value.raise (f.propagatePorts σ ports)
  return ⟨f, ← Value.raise (f.names σ "top")⟩

theorem ofValues_ok (σ : Arenas) (acc : NetSet) {vs : List Value} (h : ∀ v ∈ vs, ∃ n, v = .net n) :
    ∃ ns, acc.ofValues σ vs = .ok ns := by
  induction vs generalizing acc with
  | nil => exact ⟨acc, rfl⟩
  | cons v vs ih =>
    obtain ⟨⟨n, rfl⟩, hrest⟩ := forall_mem_cons.mp h
    exact ih (acc.insert n) hrest

/-- The steps that are not guarded succeed if all fragments write nets only, and raise a design error otherwise. -/
theorem finish_cases (hports : ∀ v ∈ opts.ports, ∃ n, v = .net n) (σ : Arenas) (f : Fragment) (s : PrepareState) :
    ((f.WritesOnly fun _ => True) ∧ ∃ p, (finish opts σ f).run.run s = (.ok p, s)) ∨
      (¬ (f.WritesOnly fun _ => True) ∧ ∃ e, (finish opts σ f).run.run s = (.error (.design e), s)) := by
  obtain ⟨ports, hasked⟩ := ofValues_ok σ .empty hports
  rw [← Fragment.finished_iff σ ports "top"]
  unfold finish
  rw [run_bind_of_gives (gives_ofExcept.mpr ⟨hasked, rfl⟩)]
  cases hderived : f.propagatePorts σ ports with
  | error e => exact Or.inr ⟨by simp, e, rfl⟩
  | ok f' =>
    rw [run_bind_of_gives (gives_raise.mpr ⟨rfl, rfl⟩)]
    cases hnames : f'.names σ "top" with
    | error e => exact Or.inr ⟨by simp [hnames], e, rfl⟩
    | ok t => exact Or.inl ⟨⟨f', t, rfl, hnames⟩, _, rfl⟩

/-- A preparation whose guarded steps succeed does what is left on the tree that they made. -/
theorem run_of_lowered {g f1 f2 : Fragment} (hflattens : Flattens a opts f s.arenas g σ)
    (hresets : g.insertDomainResets σ = .ok f1) (hlower : f1.lowerDomains σ = .ok f2) :
    ∃ u, (run a opts f).run.run s = (finish opts σ f2).run.run u := by
  obtain ⟨g1, σ1, g2, r, hsamples, hdomains, hconflicts, rfl⟩ := hflattens
  refine ⟨{ s with arenas := σ, warnings := s.warnings ++ opts.conflicts.warnings r.conflicts }, ?_⟩
  unfold run
  rw [run_bind_of_gives (gives_lowerSamples hsamples), run_bind_of_gives (gives_propagateDomains hdomains),
    run_bind_of_gives (gives_resolveConflicts hconflicts), run_bind_of_gives (gives_get.mpr ⟨rfl, rfl⟩),
    run_bind_of_gives (gives_context.mpr (gives_raise.mpr ⟨hresets, rfl⟩)),
    run_bind_of_gives (gives_context.mpr (gives_ofExcept.mpr ⟨hlower, rfl⟩))]
  rfl

/-- A preparation fails in a guarded step, or with what is left on the tree that the guarded steps made. What it fails
with in a guarded step is not raised, and is reported if the samples are of values that can be sampled. -/
theorem run_fails (h : (run a opts f).run.run s = (.error e, t)) :
    (¬ e.IsRaised ∧ ((∀ b ∈ f.bodies, ∀ v ∈ b.values, ∀ u ∈ v.leaves, Delays.Samplable u) → e.IsReported)) ∨
      ∃ g σ f1 f2 u, Flattens a opts f s.arenas g σ ∧ g.insertDomainResets σ = .ok f1 ∧ f1.lowerDomains σ = .ok f2 ∧
        (finish opts σ f2).run.run u = (.error e, t) := by
  have hguarded {α : Type} {text : String} {x : Step α} {s : PrepareState}
      (hx : (∀ b ∈ f.bodies, ∀ v ∈ b.values, ∀ u ∈ v.leaves, Delays.Samplable u) → Tame x)
      (hfails : (context text x).run.run s = (.error e, t)) :
      ¬ e.IsRaised ∧ ((∀ b ∈ f.bodies, ∀ v ∈ b.values, ∀ u ∈ v.leaves, Delays.Samplable u) → e.IsReported) := by
    refine ⟨?_, fun hf => isReported_of_context (hx hf) hfails⟩
    obtain ⟨e', -, rfl⟩ := fails_context hfails
    exact e'.not_isRaised_within _
  rcases fails_bind h with hfails | ⟨g1, s1, hsamples, h1⟩
  · exact Or.inl (hguarded lowerSamples_tame hfails)
  rcases fails_bind h1 with hfails | ⟨g2, s2, hdomains, h2⟩
  · exact Or.inl (hguarded (fun _ => propagateDomains_tame _ _) hfails)
  rcases fails_bind h2 with hfails | ⟨g, s3, hconflicts, h3⟩
  · exact Or.inl (hguarded (fun _ => resolveConflicts_tame _ _) hfails)
  rw [run_bind_of_gives (gives_get.mpr ⟨rfl, rfl⟩)] at h3
  rcases fails_bind h3 with hfails | ⟨f1, s4, hgresets, h4⟩
  · exact Or.inl (hguarded (fun _ => tame_raise _) hfails)
  rcases fails_bind h4 with hfails | ⟨f2, s5, hglower, h5⟩
  · exact Or.inl (hguarded (fun _ => tame_ofExcept (Fragment.lowerDomains_tame _ _)) hfails)
  obtain ⟨hresets, -⟩ := gives_raise.mp (gives_context.mp hgresets)
  obtain ⟨hlower, -⟩ := gives_ofExcept.mp (gives_context.mp hglower)
  have hpropagated := gives_run.mp (propagateDomains_inv (gives_context.mp hdomains))
  obtain ⟨r, hr, rfl, harenas⟩ := resolveConflicts_inv (gives_context.mp hconflicts)
  rw [← harenas] at hpropagated hr
  exact Or.inr ⟨_, s3.arenas, f1, f2, s5, ⟨g1, s1.arenas, g2, r, lowerSamples_inv (gives_context.mp hsamples),
    hpropagated, hr, rfl⟩, hresets, hlower, h5⟩

/-- A preparation raises an error if, on the tree whose conflicts are resolved, the guarded steps that are left succeed
and some fragment writes what is no net or refers to a reset that is not there. -/
theorem run_raises_iff (hports : ∀ v ∈ opts.ports, ∃ n, v = .net n) :
    (∃ e t, (run a opts f).run.run s = (.error e, t) ∧ e.IsRaised) ↔
      ∃ g σ f1 f2, Flattens a opts f s.arenas g σ ∧ g.insertDomainResets σ = .ok f1 ∧ f1.lowerDomains σ = .ok f2 ∧
        ∃ b ∈ g.bodies, ¬ AllNets (fun n => ¬ b.Grounds n) b.written := by
  have hlowered {g f1 f2 : Fragment} {σ : Arenas} (hresets : g.insertDomainResets σ = .ok f1)
      (hlower : f1.lowerDomains σ = .ok f2) :
      ¬ (f2.WritesOnly fun _ => True) ↔ ∃ b ∈ g.bodies, ¬ AllNets (fun n => ¬ b.Grounds n) b.written := by
    rw [Fragment.lowered_writesOnly_iff hresets hlower]
    push Not
    rfl
  constructor
  · rintro ⟨e, t, h, he⟩
    rcases run_fails h with ⟨hnot, -⟩ | ⟨g, σ, f1, f2, u, hflattens, hresets, hlower, hfinish⟩
    · exact absurd he hnot
    · refine ⟨g, σ, f1, f2, hflattens, hresets, hlower, (hlowered hresets hlower).mp ?_⟩
      rcases finish_cases hports σ f2 u with ⟨-, p, hok⟩ | ⟨hwrites, -⟩
      · cases hok.symm.trans hfinish
      · exact hwrites
  · rintro ⟨g, σ, f1, f2, hflattens, hresets, hlower, hwrites⟩
    obtain ⟨u, hrun⟩ := run_of_lowered hflattens hresets hlower
    rcases finish_cases hports σ f2 u with ⟨hall, -⟩ | ⟨-, e, herror⟩
    · exact absurd hall ((hlowered hresets hlower).mpr hwrites)
    · exact ⟨_, u, hrun.trans herror, e, rfl⟩

end Prepare

/-- Every net but a reset reference that allows a domain without a reset. -/
def Net.Firm : Net → Prop
  | .reset _ allow => allow = false
  | .signal _ | .clock _ => True

theorem Net.Firm.renamed (mapping : List (String × String)) {n : Net} (h : n.Firm) : (n.renamed mapping).Firm := by
  cases n <;> exact h

theorem Net.Firm.not_grounds {n : Net} (h : n.Firm) (b : Body) : ¬ b.Grounds n := by
  rintro ⟨d, cd, rfl, -⟩
  cases h

namespace Work

variable {w : Workspace} {e : Option Elaboratable} {a : Nat} {opts : PrepareOptions} {reports : Bool}

/-- A preparation fails where the elaboration does, which it reports, or where the pipeline does. -/
theorem prepare_fails_iff {f : Failure} : (∃ w2, (prepare a opts reports e).run.run w = (.error f, w2)) ↔
    (∃ f' w1, (elaborate e).run.run w = (.error f', w1) ∧ f = f'.within "prepare: elaborate") ∨
      ∃ number w1 t, (elaborate e).run.run w = (.ok number, w1) ∧
        (Prepare.run a opts (w1.tree number)).run.run ⟨w1.arenas, []⟩ = (.error f, t) := by
  unfold prepare
  cases helaborate : (elaborate e).run.run w with
  | mk result w1 =>
    cases result with
    | error f' =>
      rw [run_bind_of_error (run_tryCatch_of_error helaborate)]
      constructor
      · rintro ⟨w2, h⟩
        cases h
        exact Or.inl ⟨f', w1, rfl, rfl⟩
      · rintro (⟨f1, w2, h, rfl⟩ | ⟨number, w2, t, h, -⟩)
        · cases h
          exact ⟨_, rfl⟩
        · cases h
    | ok number =>
      rw [run_bind_of_gives (gives_run.mpr (run_tryCatch_of_gives helaborate)),
        run_bind_of_gives (gives_get.mpr ⟨rfl, rfl⟩)]
      cases hrun : (Prepare.run a opts (w1.tree number)).run.run ⟨w1.arenas, []⟩ with
      | mk result t =>
        dsimp only
        rw [run_bind_of_gives (a := ⟨⟩) (gives_set.mpr rfl)]
        cases result with
        | error =>
          constructor
          · rintro ⟨w2, h⟩
            cases h
            exact Or.inr ⟨number, w1, t, rfl, hrun⟩
          · rintro (⟨f1, w2, h, -⟩ | ⟨number', w2, t', h, hfails⟩)
            · cases h
            · cases h
              cases hrun.symm.trans hfails
              exact ⟨_, rfl⟩
        | ok =>
          constructor
          · rintro ⟨w2, h⟩
            cases h
          · rintro (⟨f1, w2, h, -⟩ | ⟨number', w2, t', h, hfails⟩)
            · cases h
            · cases h
              cases hrun.symm.trans hfails

/-- What a preparation fails with is reported or raised, unless the elaboration crashes or samples something that cannot
be sampled. It is raised exactly where the elaboration and the passes succeed up to the lowering of references, and some
fragment of the tree whose conflicts are resolved writes what is no net or refers, on a left side, to a reset that its
domain does not have. In particular everything is reported if the fragments of the elaborated tree write only nets, and
no reset reference that allows a domain without a reset. -/
theorem prepare_reports (hports : ∀ v ∈ opts.ports, ∃ n, v = .net n)
    (helaborate : ∀ f w₁, (elaborate e).run.run w = (.error f, w₁) → f.isCrash = false)
    (hsamples : ∀ number w₁, (elaborate e).run.run w = (.ok number, w₁) →
      ∀ b ∈ (w₁.tree number).bodies, ∀ v ∈ b.values, ∀ u ∈ v.leaves, Delays.Samplable u) :
    (∀ f w₂, (prepare a opts reports e).run.run w = (.error f, w₂) → f.IsReported ∨ f.IsRaised) ∧
    ((∃ f w₂, (prepare a opts reports e).run.run w = (.error f, w₂) ∧ f.IsRaised) ↔
      ∃ number w₁ g σ f₁ f₂, (elaborate e).run.run w = (.ok number, w₁) ∧
        Prepare.Flattens a opts (w₁.tree number) w₁.arenas g σ ∧ g.insertDomainResets σ = .ok f₁ ∧
        f₁.lowerDomains σ = .ok f₂ ∧ ∃ b ∈ g.bodies, ¬ AllNets (fun n => ¬ b.Grounds n) b.written) ∧
    ∀ number w₁, (elaborate e).run.run w = (.ok number, w₁) → (w₁.tree number).WritesOnly Net.Firm →
      ∀ f w₂, (prepare a opts reports e).run.run w = (.error f, w₂) → f.IsReported := by
  have hcases : ∀ f w₂, (prepare a opts reports e).run.run w = (.error f, w₂) → f.IsReported ∨ f.IsRaised := by
    intro f w₂ h
    rcases prepare_fails_iff.mp ⟨w₂, h⟩ with ⟨f', w₁, hfails, rfl⟩ | ⟨number, w₁, t, hok, hfails⟩
    · exact Or.inl (Failure.isReported_within _ (helaborate f' w₁ hfails))
    · rcases Prepare.run_fails hfails with ⟨-, hreported⟩ | ⟨g, σ, f₁, f₂, u, -, -, -, hfinish⟩
      · exact Or.inl (hreported (hsamples number w₁ hok))
      · rcases Prepare.finish_cases hports σ f₂ u with ⟨-, p, hfinished⟩ | ⟨-, e, herror⟩
        · cases hfinished.symm.trans hfinish
        · cases herror.symm.trans hfinish
          exact Or.inr ⟨e, rfl⟩
  have hraises : (∃ f w₂, (prepare a opts reports e).run.run w = (.error f, w₂) ∧ f.IsRaised) ↔
      ∃ number w₁ g σ f₁ f₂, (elaborate e).run.run w = (.ok number, w₁) ∧
        Prepare.Flattens a opts (w₁.tree number) w₁.arenas g σ ∧ g.insertDomainResets σ = .ok f₁ ∧
        f₁.lowerDomains σ = .ok f₂ ∧ ∃ b ∈ g.bodies, ¬ AllNets (fun n => ¬ b.Grounds n) b.written := by
    constructor
    · rintro ⟨f, w₂, h, hraised⟩
      rcases prepare_fails_iff.mp ⟨w₂, h⟩ with ⟨f', w₁, -, rfl⟩ | ⟨number, w₁, t, hok, hfails⟩
      · exact absurd hraised (f'.not_isRaised_within _)
      · obtain ⟨g, σ, f₁, f₂, hrest⟩ := (Prepare.run_raises_iff hports).mp ⟨f, t, hfails, hraised⟩
        exact ⟨number, w₁, g, σ, f₁, f₂, hok, hrest⟩
    · rintro ⟨number, w₁, g, σ, f₁, f₂, hok, hrest⟩
      obtain ⟨f, t, hfails, hraised⟩ := (Prepare.run_raises_iff (s := ⟨w₁.arenas, []⟩) hports).mpr ⟨g, σ, f₁, f₂, hrest⟩
      obtain ⟨w₂, h⟩ := prepare_fails_iff.mpr (Or.inr ⟨number, w₁, t, hok, hfails⟩)
      exact ⟨f, w₂, h, hraised⟩
  refine ⟨hcases, hraises, ?_⟩
  intro number w₁ hok hfirm f w₂ h
  refine (hcases f w₂ h).resolve_right fun hraised => ?_
  obtain ⟨number', w₁', g, σ, f₁, f₂, hok', hflattens, -, -, b, hb, hwritten⟩ := hraises.mp ⟨f, w₂, h, hraised⟩
  cases hok.symm.trans hok'
  refine hwritten fun u hu => ?_
  obtain ⟨n, rfl, hn⟩ := hflattens.writesOnly (fun _ => trivial) Net.Firm.renamed hfirm b hb u hu
  exact ⟨n, rfl, hn.not_grounds b⟩

/-- A block that drives the reset of a domain without a reset. -/
def tied (allow : Bool) : Workspace :=
  { Workspace.empty with
    arenas := ⟨#[⟨#[wire "d_clk" 1], 1, 0⟩]⟩
    cells := #[⟨{ Body.empty with
      statements := [.assign (.net (.reset "d" allow)) (.const 1 (.unsigned 1))]
      drivers := [(combDomain, ⟨[.reset "d" allow]⟩)]
      domains := [{ pulse with rst := none }] }, []⟩] }

theorem exists_of_failed {α : Type} {x : Except Failure α × Workspace} (h : x.1.toOption.isNone = true) :
    ∃ f, x = (.error f, x.2) := by
  obtain ⟨r, w⟩ := x
  cases r with
  | error f => exact ⟨f, rfl⟩
  | ok => cases h

/-- A reset reference that does not allow a domain without a reset is refused by a report. -/
theorem prepare_reports_tied : ∃ f w₂,
    (prepare 0 ⟨[.signal ⟨0, 1⟩], false, .warn⟩ true (some (.fragment 0))).run.run (tied false) = (.error f, w₂) ∧
      f.IsReported := by
  have helaborate : (elaborate (some (.fragment 0))).run.run (tied false) = (.ok 0, tied false) := rfl
  obtain ⟨f, hfails⟩ : ∃ f, (prepare 0 ⟨[.signal ⟨0, 1⟩], false, .warn⟩ true (some (.fragment 0))).run.run (tied false) =
      (.error f, _) := exists_of_failed (by decide +kernel)
  have hports : ∀ v ∈ [Value.signal ⟨0, 1⟩], ∃ n, v = .net n := by
    intro v hv
    obtain rfl := mem_singleton.mp hv
    exact ⟨_, rfl⟩
  refine ⟨f, _, hfails, (prepare_reports hports ?_ ?_).2.2 0 (tied false) helaborate ?_ f _ hfails⟩
  · intro f' w₁ h
    cases helaborate.symm.trans h
  · intro number w₁ h
    cases helaborate.symm.trans h
    decide +kernel
  · intro b hb u hu
    obtain rfl := mem_singleton.mp hb
    obtain rfl := mem_singleton.mp hu
    exact ⟨_, rfl, rfl⟩

/-- A reset reference that does allow one is let through, and the error about it is raised, although elaboration
succeeds and nothing is asked for as a port. -/
theorem not_forall_prepare_reports : ¬ ∀ (w : Workspace) (e : Option Elaboratable) (a : Nat) (opts : PrepareOptions)
    (reports : Bool), (∀ v ∈ opts.ports, ∃ n, v = .net n) →
    (∀ f w₁, (elaborate e).run.run w = (.error f, w₁) → f.isCrash = false) →
    ∀ f w₂, (prepare a opts reports e).run.run w = (.error f, w₂) → ¬ f.IsRaised := by
  intro h
  have helaborate : (elaborate (some (.fragment 0))).run.run (tied true) = (.ok 0, tied true) := rfl
  have hraised : ((prepare 0 ⟨[], false, .warn⟩ true (some (.fragment 0))).run.run (tied true)).1 =
      .error (.design (.shape (.notAssignable "(const 1'd0)"))) := rfl
  refine h (tied true) (some (.fragment 0)) 0 ⟨[], false, .warn⟩ true (by simp) ?_ _ _ (Prod.ext hraised rfl) ⟨_, rfl⟩
  intro f' w₁ hf
  cases helaborate.symm.trans hf

end Work
end Rtl
