import Mathlib
import Rtl.Proofs.Driving

/-!
# Every sample of a fragment names a domain

A statement that is added to a clocked domain is given that domain where its samples name none, and what is left is
given `sync` when the builder is elaborated. Names that were given are kept each time, and with a name everywhere
nothing is left to fill in.
-/
namespace Rtl

namespace Value

/-- Names are filled in one after the other, whatever shapes the operators got in between. -/
theorem bare_relabel {v w : Value} {g g' : String → String} (h : w.bare = (v.relabel id g).bare) :
    (w.relabel id g').bare = (v.relabel id (g' ∘ g)).bare := by
  have hswap (u : Value) : (u.relabel id g').bare = u.bare.relabel id g' := by
    simp only [bare, relabel_relabel, Function.comp_id, Function.id_comp]
  rw [hswap, h, ← hswap, relabel_relabel, Function.comp_id]

/-- The domain of a sample in a fragment: the one it named, else the clocked one that its statement was added to. -/
def sampleDomain (added name : String) : String :=
  if name ≠ "" then name else if added ≠ combDomain ∧ added ≠ "" then added else syncDomain

/-- What becomes of a value in a statement that is added to a domain: the domain is filled in then, unless it is the
combinational one, and `sync` at the end. -/
def Completes (τ σ : Arenas) (added : String) (v w : Value) : Prop :=
  ∃ u, (if added = combDomain then u = v else v.Refills τ added u) ∧ u.Refills σ syncDomain w

/-- A sample gets the first domain that there is for it. -/
theorem Completes.bare {τ σ : Arenas} {added : String} {v w : Value} (h : v.Completes τ σ added w) :
    w.bare = (v.relabel id (sampleDomain added)).bare := by
  obtain ⟨u, hu, hw⟩ := h
  rw [hw.bare, filled]
  split at hu
  · rename_i hcomb
    have hnames : orDomain syncDomain = sampleDomain added := by
      funext name
      by_cases hname : name = "" <;> simp [orDomain, sampleDomain, hcomb, hname]
    rw [hu, hnames]
  · rename_i hclocked
    have hnames : orDomain syncDomain ∘ orDomain added = sampleDomain added := by
      funext name
      by_cases hname : name = "" <;> simp [orDomain, sampleDomain, hclocked, hname]
    rw [bare_relabel hu.bare, hnames]

end Value

namespace Statement

variable {σ : Arenas} {d : String} {x y : Statement} {xs ys : List Statement}

theorem fillSampleDomain_named (hd : d ≠ "") (h : fillSampleDomain σ d xs = .ok ys) : ∀ v ∈ bodyValues ys, v.Named := by
  obtain ⟨f, rfl, -, hf⟩ := fillSampleDomain_eq_ok h
  rw [bodyValues_mapValues]
  refine List.forall_mem_map.mpr fun v _ => Value.named_bare.mp ?_
  rw [hf]
  exact Value.named_bare.mpr (Value.named_filled hd v)

/-- A statement is placed with values that are refilled, unless it is combinational. -/
theorem placed_refills (h : Builder.placed σ d x = .ok [y]) : ∃ f, y = x.mapValues f ∧
    ∀ v ∈ x.values, if d = combDomain then f v = v else v.Refills σ d (f v) := by
  unfold Builder.placed at h
  split_ifs at h ⊢
  · obtain rfl := List.singleton_inj.mp (Except.ok.inj h)
    exact ⟨id, (mapValues_id x).symm, fun v _ => rfl⟩
  · obtain ⟨f, hy, hf⟩ := fillSampleDomain_eq_ok_iff.mp h
    refine ⟨f, List.singleton_inj.mp hy, fun v hv => hf v ?_⟩
    exact mem_bodyValues.mpr ⟨x, List.mem_singleton_self x, hv⟩

end Statement

namespace Builder

open Statement

variable {es : Additions}

/-- The assignments and properties of the elaborated fragment are those that were added, with a domain in all samples. -/
theorem Books.elaborated_samples {s : State Elaboratable} (h : Books es s) {fuel number top : Nat} {w w' : Workspace}
    (hb : w.builders[number]? = some s.block) (hg : Gives (Work.elaborateWith fuel (.builder number)) w top w') :
    ∃ s' u, Gives finish ⟨w.arenas, w.machines, w.reporter, s.block⟩ u s' ∧
      fillSampleDomain w'.arenas syncDomain s'.block.statements = .ok (w'.cell top).body.statements ∧
      ∀ x ∈ bodyActions (w'.cell top).body.statements, ∃ e ∈ es, ∃ τ f, x = e.2.mapValues f ∧
        ∀ v ∈ e.2.values, v.Completes τ w'.arenas e.1 (f v) := by
  obtain ⟨s', u, hfinish, hbody, -⟩ := Work.elaborateWith_builder_inv hb hg
  have hfilled := (body_inv hbody).1
  refine ⟨s', u, hfinish, hfilled, fun x hx => ?_⟩
  obtain ⟨hend, -⟩ := finish_carries (Q := Stems es) (R := Undriven) ⟨w.arenas, w.machines, w.reporter, s.block⟩ h.held
  obtain ⟨y, hy, f', rfl, hf', -⟩ := fillSampleDomain_actions hfilled hx
  obtain ⟨e, he, τ, hplaced⟩ := (hend.gives hfinish).1.statements y hy
  obtain ⟨f, rfl, hf⟩ := placed_refills hplaced
  refine ⟨e, he, τ, f' ∘ f, mapValues_mapValues fun _ _ => rfl, fun v hv => ⟨f v, hf v hv, hf' (f v) ?_⟩⟩
  rw [values_mapValues]
  exact List.mem_map_of_mem hv

/-- Filling in a domain gives the statements with all values refilled, so values whose samples all name a domain stay,
samples that name none get the domain, and operators over these get the shapes that their operands give them now. It
fails exactly if this leaves a shift without a shape, and nothing but domains changes exactly if these operators have
their shapes already. All samples name a domain then, and no domain that is filled in later changes anything. So in the
fragment of a builder all samples name a domain. Its statements are those of the finished builder with `sync` filled in,
and its assignments and properties are the statements that were added, with the domains that `sampleDomain` says. -/
theorem samples_named : (∀ (σ : Arenas) (d : String) (xs : List Statement), d ≠ "" →
      (∀ ys, fillSampleDomain σ d xs = .ok ys ↔ ∃ f, ys = xs.map (mapValues f) ∧ ∀ v ∈ bodyValues xs,
        v.Refills σ d (f v) ∧ (v.Named → f v = v) ∧ (f v).bare = (v.filled d).bare) ∧
      ((∃ e, fillSampleDomain σ d xs = .error e) ↔ ∃ v ∈ bodyValues xs, ∃ u ∈ v.subvalues, u.Shapeless σ d) ∧
      (fillSampleDomain σ d xs = .ok (xs.map (mapValues (Value.filled d))) ↔ ∀ v ∈ bodyValues xs, v.Settled σ) ∧
      ∀ ys, fillSampleDomain σ d xs = .ok ys →
        (∀ v ∈ bodyValues ys, v.Named) ∧ ∀ σ' d', fillSampleDomain σ' d' ys = .ok ys) ∧
    ∀ (arena : Nat) (reports : Bool) (s₀ s : State Elaboratable) (fs : List Frame) (es : Additions)
      (fuel number top : Nat) (w w' : Workspace), s₀.block = .create arena reports →
      Site.Reaches ⟨s₀, []⟩ es ⟨s, fs⟩ → w.builders[number]? = some s.block →
      (Work.elaborateWith fuel (.builder number)).run.run w = (.ok top, w') →
      (∀ v ∈ bodyValues (w'.cell top).body.statements, v.Named) ∧
      (∃ s' u, Gives finish ⟨w.arenas, w.machines, w.reporter, s.block⟩ u s' ∧
        fillSampleDomain w'.arenas syncDomain s'.block.statements = .ok (w'.cell top).body.statements) ∧
      ∀ x ∈ bodyActions (w'.cell top).body.statements, ∃ e ∈ es, ∃ τ f, x = e.2.mapValues f ∧ ∀ v ∈ e.2.values,
        v.Completes τ w'.arenas e.1 (f v) ∧ (f v).bare = (v.relabel id (Value.sampleDomain e.1)).bare := by
  refine ⟨fun σ d xs hd => ⟨fun ys => ?_, fillSampleDomain_eq_error_iff, fillSampleDomain_eq_filled_iff, ?_⟩, ?_⟩
  · rw [fillSampleDomain_eq_ok_iff]
    constructor
    · rintro ⟨f, hys, hf⟩
      exact ⟨f, hys, fun v hv => ⟨hf v hv, fun hnamed => (hf v hv).unique (.kept hnamed), (hf v hv).bare⟩⟩
    · rintro ⟨f, hys, hf⟩
      exact ⟨f, hys, fun v hv => (hf v hv).1⟩
  · intro ys h
    have hnamed := fillSampleDomain_named hd h
    exact ⟨hnamed, fun _ _ => fillSampleDomain_of_named hnamed⟩
  · intro arena reports s₀ s fs es fuel number top w w' hnew hreach hb helaborate
    obtain ⟨hbooks, -⟩ := hreach.books (books_create hnew)
    obtain ⟨s', u, hfinish, hfilled, hactions⟩ := hbooks.state.elaborated_samples hb helaborate
    refine ⟨fillSampleDomain_named (by decide) hfilled, ⟨s', u, hfinish, hfilled⟩, fun x hx => ?_⟩
    obtain ⟨e, he, τ, f, hx, hf⟩ := hactions x hx
    exact ⟨e, he, τ, f, hx, fun v hv => ⟨hf v hv, (hf v hv).bare⟩⟩

section Watched

/-- The first signal a cycle ago, in no domain. -/
def past : Value := .sample (.signal ⟨0, 1⟩) 1 ""

def watched : Build Elaboratable Unit := do
  addStatements "pix" [.assign (.signal ⟨0, 4⟩) past]
  ifThen (.value past)
    (comb [.assign (.signal ⟨0, 5⟩) past, .assign (.signal ⟨0, 6⟩) (.sample (.signal ⟨0, 1⟩) 1 "pix")])

theorem watched_leads : Moves Leads watched :=
  Leads.isPath.bind (addStatements_leads _ _) fun _ => inside_leads (.construct (.ifThen _)) (addStatements_leads _ _)

/-- A sample combined with a signal of four bits, as it was when the signal had two. -/
def masked (domain : String) (width : Int) : Statement :=
  .assign (.signal ⟨0, 5⟩) (.binary .and (.sample (.signal ⟨0, 1⟩) 1 domain) (.signal ⟨0, 2⟩) (.unsigned width))

/-- An operator over a sample that gets a domain is as wide as its operands are. In a fragment one sample has got the
domain of its statement, one has kept its own, and the others, the one that is tested among them, have got `sync`. -/
theorem samples_named_watched : (fillSampleDomain start.arenas "pix" [masked "" 2] = .ok [masked "pix" 4] ∧
      (∃ f, [masked "pix" 4] = [masked "" 2].map (mapValues f) ∧ ∀ v ∈ bodyValues [masked "" 2],
        v.Refills start.arenas "pix" (f v) ∧ (v.Named → f v = v) ∧ (f v).bare = (v.filled "pix").bare) ∧
      ∀ σ d, fillSampleDomain σ d [masked "pix" 4] = .ok [masked "pix" 4]) ∧
    ∃ es w, Site.Reaches ⟨start, []⟩ es ⟨(watched.run.run start).2, []⟩ ∧
      (Work.elaborate (some (.builder 0))).run.run (housed (watched.run.run start).2) = (.ok 0, w) ∧
      (w.cell 0).body.statements.map (Statement.text w.arenas) = ["(eq (sig x) (sample (sig c) @ pix[1]))",
        "(switch (cat (b (sample (sig c) @ sync[1]))) (case 1 (eq (sig y) (sample (sig c) @ sync[1])) " ++
          "(eq (sig z) (sample (sig c) @ pix[1]))))"] ∧
      (∀ v ∈ bodyValues (w.cell 0).body.statements, v.Named) ∧
      ∀ x ∈ bodyActions (w.cell 0).body.statements, ∃ e ∈ es, ∃ τ f, x = e.2.mapValues f ∧ ∀ v ∈ e.2.values,
        v.Completes τ w.arenas e.1 (f v) ∧ (f v).bare = (v.relabel id (Value.sampleDomain e.1)).bare := by
  constructor
  · have hfill : fillSampleDomain start.arenas "pix" [masked "" 2] = .ok [masked "pix" 4] := by rfl
    obtain ⟨hok, -, -, hagain⟩ := samples_named.1 start.arenas "pix" [masked "" 2] (by decide)
    exact ⟨hfill, (hok _).mp hfill, (hagain _ hfill).2⟩
  · obtain ⟨es, hreach⟩ := watched_leads start []
    have helaborate : (Work.elaborate (some (.builder 0))).run.run (housed (watched.run.run start).2) = (.ok 0, _) :=
      eq_ok_of_toOption (by decide +kernel)
    obtain ⟨hnamed, -, hactions⟩ := samples_named.2 0 false start _ [] es _ 0 0 _ _ rfl hreach (housed_builder _)
      ((Work.run_elaborate _ _).symm.trans helaborate)
    exact ⟨es, _, hreach, helaborate, by decide +kernel, hnamed, hactions⟩

/-- A shift of a sample by a signal that has become too wide since: it cannot be made again with a domain. -/
theorem not_forall_fillSampleDomain : ¬ ∀ (σ : Arenas) (d : String) (xs : List Statement), d ≠ "" →
    fillSampleDomain σ d xs = .ok (xs.map (mapValues (Value.filled d))) := by
  intro h
  have hwide := h ⟨#[⟨⟨[("a", 4), ("x", 100), ("y", 8)].map fun e =>
    ⟨e.1, .unsigned e.2, 0, false, [], none⟩⟩, 0, 0⟩]⟩ "d"
    [.assign (.signal ⟨0, 3⟩) (.binary .shl past (.signal ⟨0, 2⟩) (.unsigned 7))] (by decide)
  have hfails := congrArg (fun r => r.toOption.isSome) hwide
  exact absurd hfails (by decide +kernel)

end Watched

end Builder
end Rtl
