import Mathlib
import Rtl.Proofs.ControlFlow
import Rtl.Proofs.ControlLowering
import Rtl.Proofs.SampleTrees

/-!
# Delay registers

After lowering, a sample of a constant or a signal is read from a register at the end of a chain: the first register
takes over the value itself, each further one the register before it. The chains of different fragments have no
register in common, and every register is assigned once and driven in one domain. So in a clocked run the register
`n` cycles down the chain holds what the value was `n` edges ago.
-/
namespace Rtl

open List Option

variable {w : Value} {d' : String} {ys : List Statement}

theorem Shape.normalize_normalize (s : Shape) (n : Int) : s.normalize (s.normalize n) = s.normalize n := by
  unfold normalize
  split
  · exact Int.bmod_bmod
  · exact Int.emod_emod_of_dvd n dvd_rfl

namespace Value

variable {σ : Arenas} {v : Value}

/-- A constant in the range of its shape, or an issued signal whose reset value is. -/
def Source (σ : Arenas) : Value → Prop
  | .const n s => s.normalize n = n
  | .net (.signal id) => σ.Issued id ∧ (σ.shape id).normalize (σ.get id).reset = (σ.get id).reset
  | _ => False

theorem Source.isSteady (h : v.Source σ) : v.IsSteady := by
  cases v with
  | const => trivial
  | net n =>
    cases n with
    | signal => trivial
    | clock | reset => exact h.elim
  | _ => exact h.elim

theorem Source.plain_of_keeps {σ' : Arenas} (h : v.Source σ) (hk : σ.Keeps σ') : v.Plain σ' := by
  cases v with
  | const => trivial
  | net n =>
    cases n with
    | signal => exact hk.issued h.1
    | clock | reset => trivial
  | _ => exact h.elim

theorem Source.start_eq (h : v.Source σ) : (v.shape σ).normalize (v.start σ) = v.start σ := by
  cases v with
  | const => exact h
  | net n =>
    cases n with
    | signal => exact h.2
    | clock | reset => exact h.elim
  | _ => exact h.elim

/-- What can stand where something is assigned: no sample, no first-cycle flag, and only signals that are issued. -/
def Assignable (σ : Arenas) : Value → Prop
  | .sample _ _ _ => False
  | .initial => False
  | .net n => n.Issued σ
  | _ => True

/-- What a chain gives for a delay: the value itself without one, and a register with one. -/
def tap (reg : Value → String → Nat → Option SignalId) (v : Value) (d : String) : Nat → Option Value
  | 0 => some v
  | n + 1 => (reg v d (n + 1)).map .signal

/-- How the leaves of a fragment are replaced. Samples of constants and signals are read from the chains, any other
sample and the first-cycle flag from some constant or net, and constants and nets stay. -/
def Replaced (reg : Value → String → Nat → Option SignalId) : Value → Value → Prop
  | .sample v n d, w => w.IsAtom ∧ (v.IsSteady → 0 ≤ n → tap reg v d n.toNat = some w)
  | .initial, w => w.IsAtom
  | v, w => w = v

end Value

namespace Delays

/-- The register of a sample with a delay. -/
def registerOf? (d : Delays) (v : Value) (domain : String) : Nat → Option SignalId
  | 0 => none
  | n + 1 =>
    match d.cache.get? (.sample v (n + 1 : Nat) domain) with
    | some (.net (.signal r)) => some r
    | _ => none

section Fragment

variable {a : Nat} {base : Arenas} {t : State}
variable {v : Value} {n : Nat} {d : String} {r : SignalId}

theorem Linked.tap_eq (ht : Linked False a base t) (hv : v.IsSteady) (h : t.delays.cache.get? (.sample v n d) = some w) :
    Value.tap t.delays.registerOf? v d n = some w := by
  cases n with
  | zero => rw [ht.now hv h, Value.tap]
  | succ =>
    obtain ⟨r, prev, rfl, -⟩ := ht.link hv h
    rw [Value.tap, registerOf?, h]
    rfl

theorem Linked.replaced (ht : Linked False a base t) (h : Became t v w) : v.Replaced t.delays.registerOf? w := by
  cases v with
  | sample =>
    refine ⟨h.1, fun hv hn => ht.tap_eq hv ?_⟩
    rw [Int.toNat_of_nonneg hn]
    exact h.2
  | initial =>
    obtain ⟨id, -, rfl⟩ := h
    trivial
  | _ => exact h

theorem get?_of_registerOf? {d : Delays} {domain : String} (h : d.registerOf? v domain n = some r) :
    ∃ m, n = m + 1 ∧ d.cache.get? (.sample v (m + 1 : Nat) domain) = some (.signal r) := by
  cases n with
  | zero => cases h
  | succ m =>
    rw [registerOf?] at h
    split at h
    · rename_i r' hget
      cases h
      exact ⟨m, rfl, hget⟩
    · cases h

/-- A register takes over what the chain gives one cycle earlier. -/
theorem Linked.register (ht : Linked False a base t) (hv : v.IsSteady) (h : t.delays.registerOf? v d n = some r) :
    ∃ m prev, n = m + 1 ∧ Value.tap t.delays.registerOf? v d m = some prev ∧ t.delays.Line d r prev ∧
      (v.Plain base → RegisterFor base v (t.arenas.get r)) := by
  obtain ⟨m, rfl, hget⟩ := get?_of_registerOf? h
  obtain ⟨r', prev, hr', hprev, hline, hrecord⟩ := ht.link hv hget
  cases hr'
  exact ⟨m, prev, rfl, ht.tap_eq hv hprev, hline, hrecord⟩

/-- Registers of different samples are different. -/
theorem Linked.register_inj (ht : Linked False a base t) {v' : Value} {n' : Nat} (hv : v.IsSteady) (hp : v.Plain base)
    (hv' : v'.IsSteady) (hp' : v'.Plain base) (h : t.delays.registerOf? v d n = some r)
    (h' : t.delays.registerOf? v' d' n' = some r) : v = v' ∧ d = d' ∧ n = n' := by
  -- A register is new, so it is neither of the two values.
  have hsource : ∀ {w : Value} {e : String} {m : Nat} {q : SignalId}, w.Plain base →
      t.delays.registerOf? v e m = some q ∨ t.delays.registerOf? v' e m = some q → w ≠ .signal q := by
    rintro w e m q hw hq rfl
    have hline : ∃ prev, t.delays.Line e q prev := by
      rcases hq with hq | hq
      · obtain ⟨_, prev, -, -, hline, -⟩ := ht.register hv hq
        exact ⟨prev, hline⟩
      · obtain ⟨_, prev, -, -, hline, -⟩ := ht.register hv' hq
        exact ⟨prev, hline⟩
    exact (ht.fresh hline.choose_spec).1 hw
  induction n generalizing n' r with
  | zero => cases h
  | succ n ih =>
    obtain ⟨m, prev, hm, htap, hline, -⟩ := ht.register hv h
    obtain ⟨m', prev', rfl, htap', hline', -⟩ := ht.register hv' h'
    obtain rfl : n = m := by omega
    obtain ⟨rfl, rfl⟩ := line_unique ht.nodup hline hline'
    cases n with
    | zero =>
      obtain rfl := Option.some.inj htap
      cases m' with
      | zero => exact ⟨(Option.some.inj htap').symm, rfl, rfl⟩
      | succ =>
        obtain ⟨q, hq, hqv⟩ := map_eq_some_iff.mp htap'
        exact absurd hqv.symm (hsource hp (Or.inr hq))
    | succ =>
      obtain ⟨q, hq, rfl⟩ := map_eq_some_iff.mp htap
      cases m' with
      | zero => exact absurd (Option.some.inj htap') (hsource hp' (Or.inl hq))
      | succ =>
        obtain ⟨q', hq', heq⟩ := map_eq_some_iff.mp htap'
        cases heq
        obtain ⟨hvv, -, hnn⟩ := ih hq hq'
        exact ⟨hvv, rfl, by omega⟩

end Fragment

end Delays

namespace Statement

variable {xs : List Statement}

theorem mem_bodyWritten_append : w ∈ bodyWritten (xs ++ ys) ↔ w ∈ bodyWritten xs ∨ w ∈ bodyWritten ys := by
  simp only [mem_bodyWritten, mem_append, or_and_right, exists_or]

variable {tests : Value → Int} {w : Value}

theorem mem_bodyWritten_runAll_of (ih : ∀ x ∈ xs, w ∈ bodyWritten (run tests x) → w ∈ x.written)
    (h : w ∈ bodyWritten (runAll tests xs)) : w ∈ bodyWritten xs := by
  induction xs with
  | nil => exact h
  | cons x xs ihxs =>
    obtain ⟨ihx, ihrest⟩ := forall_mem_cons.mp ih
    rw [bodyWritten, mem_append]
    rw [runAll, mem_bodyWritten_append] at h
    exact h.imp ihx (ihxs ihrest)

theorem mem_armsWritten_runArms_of {arms : List Arm} {v : Int}
    (ih : ∀ a ∈ arms, ∀ x ∈ a.2, w ∈ bodyWritten (run tests x) → w ∈ x.written)
    (h : w ∈ bodyWritten (runArms tests v arms)) : w ∈ armsWritten arms := by
  induction arms with
  | nil => exact h
  | cons a arms iharms =>
    obtain ⟨patterns, body⟩ := a
    obtain ⟨iha, ihrest⟩ := forall_mem_cons.mp ih
    rw [armsWritten, mem_append]
    rw [runArms] at h
    split at h
    · exact Or.inl (mem_bodyWritten_runAll_of iha h)
    · exact Or.inr (iharms ihrest h)

theorem mem_written_of_run {x : Statement} (h : w ∈ bodyWritten (run tests x)) : w ∈ x.written := by
  induction x with
  | assign | property =>
    rw [run, bodyWritten, bodyWritten, append_nil] at h
    exact h
  | switch test arms ih =>
    rw [run] at h
    exact mem_armsWritten_runArms_of ih h

theorem mem_bodyWritten_runAll (h : w ∈ bodyWritten (runAll tests xs)) : w ∈ bodyWritten xs :=
  mem_bodyWritten_runAll_of (fun _ _ => mem_written_of_run) h

end Statement

namespace Fragment

variable {k : Nat}
variable {d : String} {f : Fragment} {path : List Nat} {id : SignalId}

/-- One statement of the fragment at the end of the path assigns the value to the signal, and nothing else in the tree
writes it. -/
def AssignedOnceAt (f : Fragment) (path : List Nat) (r : SignalId) (w : Value) : Prop :=
  (∃ g xs ys, f.at? path = some g ∧ g.body.statements = xs ++ .assign (.signal r) w :: ys ∧
    .signal r ∉ Statement.bodyWritten (xs ++ ys)) ∧
  ∀ path' g, f.at? path' = some g → path' ≠ path → .signal r ∉ Statement.bodyWritten g.body.statements

/-- The fragment at the end of the path drives the signal in the domain, and nothing else in the tree drives it. -/
def DrivenOnlyAt (f : Fragment) (path : List Nat) (d : String) (r : SignalId) : Prop :=
  (f.at? path).isSome ∧ ∀ path' g e, f.at? path' = some g → (g.body.Drives e (.signal r) ↔ path' = path ∧ e = d)

/-- The signal is reset-less and driven from one place, in a clocked domain. -/
structure Registered (σ : Arenas) (f : Fragment) (path : List Nat) (d : String) (id : SignalId) : Prop where
  driven : f.DrivenOnlyAt path d id
  clocked : d ≠ combDomain
  resetless : (σ.get id).resetless = true

/-- A clocked run of a tree: values for every instant, and the instants at which a domain has an edge, told by the
fragment that knows the domain and by the name it has there. Little is assumed, and of registers only: a register keeps
its value while there is no edge, and at an edge it takes over what the last assignment that is reached gives it. -/
structure ClockedRun (σ : Arenas) (f : Fragment) where
  values : Nat → Valuation σ
  edge : List Nat → String → Nat → Bool
  hold : ∀ {path d id k}, Registered σ f path d id → edge path d k = false →
    (values (k + 1)).value (.signal id) = (values k).value (.signal id)
  load : ∀ {path d id k g w xs ys}, Registered σ f path d id → edge path d k = true → f.at? path = some g →
    Statement.runAll (values k).value g.body.statements = xs ++ .assign (.signal id) w :: ys →
    .signal id ∉ Statement.bodyWritten ys → (values (k + 1)).value (.signal id) = (σ.shape id).normalize ((values k).value w)

namespace ClockedRun

variable {σ : Arenas} {f : Fragment} (run : f.ClockedRun σ) {path : List Nat} {d : String} {r : SignalId} {w : Value}

/-- The cycle of a domain at an instant: the number of edges before it. -/
def cycle (path : List Nat) (d : String) (k : Nat) : Nat := Nat.count (fun i => run.edge path d i = true) k

theorem load_of_assignedOnce (hassigned : f.AssignedOnceAt path r w) (hr : Registered σ f path d r)
    (hk : run.edge path d k = true) :
    (run.values (k + 1)).value (.signal r) = (σ.shape r).normalize ((run.values k).value w) := by
  obtain ⟨⟨g, xs, ys, hg, hstmts, hother⟩, -⟩ := hassigned
  have hrun : Statement.runAll (run.values k).value g.body.statements =
      Statement.runAll (run.values k).value xs ++ .assign (.signal r) w :: Statement.runAll (run.values k).value ys := by
    rw [hstmts, Statement.runAll_append]
    rfl
  refine run.load hr hk hg hrun fun hw => hother ?_
  exact Statement.mem_bodyWritten_append.mpr (Or.inr (Statement.mem_bodyWritten_runAll hw))

/-- After its first edge, a register holds what was assigned to it at the last one. -/
theorem held_since_edge (hassigned : f.AssignedOnceAt path r w) (hr : Registered σ f path d r)
    (hk : 1 ≤ run.cycle path d k) :
    ∃ j, run.edge path d j = true ∧ run.cycle path d j + 1 = run.cycle path d k ∧
      (run.values k).value (.signal r) = (σ.shape r).normalize ((run.values j).value w) := by
  induction k with
  | zero => exact absurd hk (by simp [cycle])
  | succ k ih =>
    have hcount : run.cycle path d (k + 1) = run.cycle path d k + if run.edge path d k = true then 1 else 0 :=
      Nat.count_succ _ _
    by_cases hedge : run.edge path d k = true
    · rw [if_pos hedge] at hcount
      exact ⟨k, hedge, hcount.symm, run.load_of_assignedOnce hassigned hr hedge⟩
    · rw [if_neg hedge, Nat.add_zero] at hcount
      rw [hcount] at hk ⊢
      obtain ⟨j, hj, hcycle, hvalue⟩ := ih hk
      refine ⟨j, hj, hcycle, ?_⟩
      rw [run.hold hr (Bool.not_eq_true _ ▸ hedge)]
      exact hvalue

end ClockedRun

theorem DrivenOnlyAt.unique {path' : List Nat} (h : f.DrivenOnlyAt path d id) (h' : f.DrivenOnlyAt path' d' id) :
    path = path' ∧ d = d' := by
  obtain ⟨g, hg⟩ := isSome_iff_exists.mp h.1
  exact (h'.2 path g d hg).mp ((h.2 path g d hg).mpr ⟨rfl, rfl⟩)

/-- Of two last assignments to a signal, both give the same. -/
theorem last_assignment_unique {w' : Value} {xs xs' ys' : List Statement}
    (h : xs ++ .assign (.signal id) w :: ys = xs' ++ .assign (.signal id) w' :: ys')
    (hys : .signal id ∉ Statement.bodyWritten ys) (hys' : .signal id ∉ Statement.bodyWritten ys') : w = w' := by
  have hwritten : ∀ {zs zs' : List Statement} {u : Value},
      .signal id ∈ Statement.bodyWritten (zs ++ .assign (.signal id) u :: zs') := by
    intro zs zs' u
    exact Statement.mem_bodyWritten.mpr ⟨.assign (.signal id) u, by simp, mem_singleton.mpr rfl⟩
  rcases append_eq_append_iff.mp h with ⟨zs, -, hzs⟩ | ⟨zs, -, hzs⟩
  · cases zs with
    | nil =>
      cases hzs
      rfl
    | cons =>
      cases hzs
      exact absurd hwritten hys
  · cases zs with
    | nil =>
      cases hzs
      rfl
    | cons =>
      cases hzs
      exact absurd hwritten hys'

/-- What a signal is after an instant, as far as a run fixes it. -/
structure Next (σ : Arenas) (f : Fragment) (edge : List Nat → String → Bool) (ρ : Valuation σ) (id : SignalId) (x : Int) :
    Prop where
  hold : ∀ {path d}, Registered σ f path d id → edge path d = false → (σ.shape id).normalize x = ρ.value (.signal id)
  load : ∀ {path d g w xs ys}, Registered σ f path d id → edge path d = true → f.at? path = some g →
    Statement.runAll ρ.value g.body.statements = xs ++ .assign (.signal id) w :: ys →
    .signal id ∉ Statement.bodyWritten ys → (σ.shape id).normalize x = (σ.shape id).normalize (ρ.value w)

theorem exists_next (σ : Arenas) (f : Fragment) (edge : List Nat → String → Bool) (ρ : Valuation σ) (id : SignalId)
    (x : Int) : ∃ y, Next σ f edge ρ id y ∧ ((∀ path d, ¬ Registered σ f path d id) → y = x) := by
  by_cases hreg : ∃ path d, Registered σ f path d id
  · obtain ⟨path, d, hreg⟩ := hreg
    have honly : ∀ {path' d'}, Registered σ f path' d' id → path = path' ∧ d = d' := fun h => hreg.driven.unique h.driven
    have hfixed : ∀ {y}, (∀ path d, ¬ Registered σ f path d id) → y = x := fun h => absurd hreg (h path d)
    by_cases hedge : edge path d = true
    · have hmoved : ∀ {path' d' p}, Registered σ f path' d' id → edge path' d' = false → p := by
        intro path' d' p hreg' hedge'
        obtain ⟨rfl, rfl⟩ := honly hreg'
        rw [hedge] at hedge'
        cases hedge'
      by_cases hlast : ∃ g w xs ys, f.at? path = some g ∧
          Statement.runAll ρ.value g.body.statements = xs ++ .assign (.signal id) w :: ys ∧
          .signal id ∉ Statement.bodyWritten ys
      · obtain ⟨g, w, xs, ys, hg, hrun, hys⟩ := hlast
        refine ⟨ρ.value w, ⟨hmoved, ?_⟩, hfixed⟩
        intro path' d' g' w' xs' ys' hreg' _ hg' hrun' hys'
        obtain ⟨rfl, rfl⟩ := honly hreg'
        obtain rfl := Option.some.inj (hg.symm.trans hg')
        rw [last_assignment_unique (hrun.symm.trans hrun') hys hys']
      · refine ⟨x, ⟨hmoved, ?_⟩, hfixed⟩
        intro path' d' g' w' xs' ys' hreg' _ hg' hrun' hys'
        obtain ⟨rfl, rfl⟩ := honly hreg'
        exact absurd ⟨g', w', xs', ys', hg', hrun', hys'⟩ hlast
    · refine ⟨ρ.leaf (.signal id), ⟨fun _ _ => rfl, ?_⟩, hfixed⟩
      intro path' d' g' w' xs' ys' hreg' hedge'
      obtain ⟨rfl, rfl⟩ := honly hreg'
      exact absurd hedge' hedge
  · have hnone : ∀ path d, ¬ Registered σ f path d id := fun path d h => hreg ⟨path, d, h⟩
    exact ⟨x, ⟨fun h => absurd h (hnone _ _), fun h => absurd h (hnone _ _)⟩, fun _ => rfl⟩

/-- Every choice of edges, and of values for what is not a register, is that of a run. -/
theorem ClockedRun.exists_of_inputs (σ : Arenas) (f : Fragment) (edge : List Nat → String → Nat → Bool)
    (inputs : Nat → SignalId → Int) :
    ∃ run : f.ClockedRun σ, run.edge = edge ∧ ∀ k id, (∀ path d, ¬ Registered σ f path d id) →
      (run.values k).value (.signal id) = (σ.shape id).normalize (inputs k id) := by
  have hnext : ∀ (k : Nat) (ρ : Valuation σ), ∃ ρ' : Valuation σ,
      (∀ id, Next σ f (fun path d => edge path d k) ρ id (ρ'.leaf (.signal id))) ∧
      ∀ id, (∀ path d, ¬ Registered σ f path d id) → ρ'.leaf (.signal id) = inputs (k + 1) id := by
    intro k ρ
    choose y hy hfixed using fun id => exists_next σ f (fun path d => edge path d k) ρ id (inputs (k + 1) id)
    exact ⟨.ofNets fun n => (n.signal?.map y).getD 0, hy, hfixed⟩
  choose next hlaws hfixed using hnext
  let values : Nat → Valuation σ := fun k =>
    Nat.rec (.ofNets fun n => (n.signal?.map (inputs 0)).getD 0) (fun k ρ => next k ρ) k
  refine ⟨⟨values, edge, ?_, ?_⟩, rfl, ?_⟩
  · intro path d id k hr hedge
    exact (hlaws k (values k) id).hold hr hedge
  · intro path d id k g w xs ys hr hedge hg hrun hys
    exact (hlaws k (values k) id).load hr hedge hg hrun hys
  · intro k id hid
    cases k with
    | zero => rfl
    | succ k =>
      change (σ.shape id).normalize ((next k (values k)).leaf (.signal id)) = _
      rw [hfixed k (values k) id hid]

/-- What a register `n` cycles down the chain of a constant or a signal is, in the tree and among the signals. -/
structure DelayRegister (σ σ' : Arenas) (f : Fragment) (reg : Value → String → Nat → Option SignalId)
    (path : List Nat) (v : Value) (d : String) (n : Nat) (r : SignalId) : Prop where
  fresh : ¬ σ.Issued r
  issued : σ'.Issued r
  shape : σ'.shape r = v.shape σ
  reset : (σ'.get r).reset = v.start σ
  registered : Registered σ' f path d r
  chained : ∃ m w, n = m + 1 ∧ Value.tap reg v d m = some w ∧ f.AssignedOnceAt path r w

/-- A register holds what its value was as many edges ago as the register is far down the chain. -/
theorem ClockedRun.delayed {σ σ' : Arenas} (run : f.ClockedRun σ') {reg : Value → String → Nat → Option SignalId}
    {v : Value} (hv : v.IsSteady) (hshape : v.shape σ' = v.shape σ)
    (hreg : ∀ {n r}, reg v d n = some r → DelayRegister σ σ' f reg path v d n r) {n : Nat} {r : SignalId}
    (hr : reg v d n = some r) (hk : n ≤ run.cycle path d k) :
    ∃ j, run.edge path d j = true ∧ run.cycle path d j + n = run.cycle path d k ∧
      (run.values k).value (.signal r) = (run.values j).value v := by
  have hgiven : ∀ {w : Value}, w.IsSteady → ∀ j, (w.shape σ').normalize ((run.values j).value w) = (run.values j).value w := by
    intro w hw j
    have hself : (run.values j).value w = (w.shape σ').normalize ((run.values j).leaf w) := by
      cases w with
      | const | net => rfl
      | _ => exact hw.elim
    rw [hself, Shape.normalize_normalize]
  induction n generalizing r k with
  | zero =>
    obtain ⟨m, -, hm, -⟩ := (hreg hr).chained
    exact absurd hm (Nat.succ_ne_zero m).symm
  | succ n ih =>
    have hregister := hreg hr
    obtain ⟨m, w, hm, htap, hassigned⟩ := hregister.chained
    obtain rfl : n = m := by omega
    obtain ⟨j, hj, hcycle, hvalue⟩ := run.held_since_edge hassigned hregister.registered (k := k) (by omega)
    rw [hregister.shape, ← hshape] at hvalue
    cases n with
    | zero =>
      obtain rfl := Option.some.inj htap
      exact ⟨j, hj, hcycle, hvalue.trans (hgiven hv j)⟩
    | succ =>
      -- The register before this one has the same shape, and what it held at the edge is older by the cycles left.
      obtain ⟨q, hq, rfl⟩ := map_eq_some_iff.mp htap
      obtain ⟨i, hi, hcycle', hvalue'⟩ := ih hq (k := j) (by omega)
      have hsame : (Value.signal q).shape σ' = v.shape σ' := (hreg hq).shape.trans hshape.symm
      have hheld := hgiven (w := .signal q) trivial j
      rw [hsame] at hheld
      exact ⟨i, hi, by omega, (hvalue.trans hheld).trans hvalue'⟩

/-- What is known of a tree whose statements and drivers were made by their constructors: samples are of constants,
nets and the first-cycle flag, no sample and no flag is assigned to, and written and driven signals are issued. -/
structure Grounded (σ : Arenas) (f : Fragment) : Prop where
  samples : ∀ b ∈ f.bodies, ∀ v ∈ b.values, ∀ u ∈ v.leaves, Delays.Samplable u
  written : ∀ b ∈ f.bodies, ∀ u ∈ Statement.bodyWritten b.statements, u.Assignable σ
  drivers : ∀ b ∈ f.bodies, ∀ d id, b.Drives d (.signal id) → σ.Issued id

instance (σ : Arenas) (n : Net) : Decidable (n.Issued σ) := by
  cases n <;> unfold Net.Issued Arenas.Issued <;> infer_instance

instance (σ : Arenas) (v : Value) : Decidable (v.Assignable σ) := by
  cases v <;> unfold Value.Assignable <;> infer_instance

/-- The drivers of a fragment are all there is to look at. -/
theorem grounded_iff {σ : Arenas} {f : Fragment} : f.Grounded σ ↔ ∀ b ∈ f.bodies,
    (∀ v ∈ b.values, ∀ u ∈ v.leaves, Delays.Samplable u) ∧
      (∀ u ∈ Statement.bodyWritten b.statements, u.Assignable σ) ∧ ∀ e ∈ b.driverPairs, e.2.Issued σ := by
  refine ⟨fun h b hb => ⟨h.samples b hb, h.written b hb, fun e he => ?_⟩, fun h => ⟨fun b hb => (h b hb).1,
    fun b hb => (h b hb).2.1, fun b hb d id hd => ?_⟩⟩
  · obtain ⟨d, n⟩ := e
    cases n with
    | signal id => exact h.drivers b hb d id (Body.drives_iff.mpr ⟨_, he, rfl, rfl⟩)
    | _ => trivial
  · obtain ⟨e, he, -, hkey⟩ := Body.drives_iff.mp hd
    have hissued := (h b hb).2.2 e he
    rwa [Net.key_eq_signal_iff.mp hkey] at hissued

instance (σ : Arenas) (f : Fragment) : Decidable (f.Grounded σ) := decidable_of_iff _ grounded_iff.symm

end Fragment

namespace Delays

variable {a : Nat} {σ σ' : Arenas} {f f' : Fragment} {E : List Nat → Arenas × State}
variable {r : SignalId} {p : List Nat} {g : Fragment} {d : String} {v w : Value} {n : Nat}
variable {path : List Nat}

/-- A register that is new is not what a rewritten statement writes. -/
theorem not_written_of_fresh {e : State} (hr : ¬ σ.Issued r) {xs : List Statement}
    (hxs : ∀ u ∈ Statement.bodyWritten xs, u.Assignable σ) (h : Statement.BodyRewritten (Became e) xs ys) :
    .signal r ∉ Statement.bodyWritten ys := by
  intro hw
  obtain ⟨y, hy, hw⟩ := Statement.mem_bodyWritten.mp hw
  obtain ⟨x, hx, hxy⟩ := forall₂_mem_right (Statement.bodyRewritten_iff.mp h) hy
  rcases hxy.mem_written Became.isLeaf hw with hu | ⟨u, hu, hru⟩
  · exact hr (hxs _ (Statement.mem_bodyWritten.mpr ⟨x, hx, hu⟩))
  · have hassign := hxs u (Statement.mem_bodyWritten.mpr ⟨x, hx, hu⟩)
    cases u with
    | const => cases hru
    | net =>
      cases hru
      exact hr hassign
    | sample | initial => exact hassign
    | unary | binary | mux | slice | part | cat | repl | proxy =>
      rw [Value.Rewritten] at hru
      simp [Value.signal] at hru

section

variable (h : Laid a σ σ' (fun p => f.at? p) (fun p => f'.at? p) E)
include h

/-- A register of one fragment is no register of another. -/
theorem Laid.line_apart {q : List Nat} {g' : Fragment}
    (hg : f.at? p = some g) (hg' : f.at? q = some g') {w' : Value} (hl : (E p).2.delays.Line d r w)
    (hl' : (E q).2.delays.Line d' r w') : p = q := by
  by_contra hne
  obtain ⟨_, -, hp, -⟩ := h.here hg
  obtain ⟨_, -, hq, -⟩ := h.here hg'
  obtain ⟨hnew, hissued, -⟩ := hp.linked.fresh hl
  obtain ⟨hnew', hissued', -⟩ := hq.linked.fresh hl'
  rcases h.apart hg hg' hne with hk | hk
  · exact hnew' (hk.issued hissued)
  · exact hnew (hk.issued hissued')

theorem Laid.fresh (hg : f.at? p = some g) (hl : (E p).2.delays.Line d r w) : ¬ σ.Issued r ∧ σ'.Issued r:= by
  obtain ⟨_, -, hp, hbefore, hafter, -⟩ := h.here hg
  obtain ⟨hnew, hissued, -⟩ := hp.linked.fresh hl
  exact ⟨fun hr => hnew (hbefore.issued hr), hafter.issued hissued⟩

/-- A line is the only thing in the tree that writes its register. -/
theorem Laid.assignedOnce (hf : f.Grounded σ)
    (hg : f.at? p = some g) (hl : (E p).2.delays.Line d r w) : f'.AssignedOnceAt p r w := by
  have hfresh := (h.fresh hg hl).1
  constructor
  · obtain ⟨g', hg', hstage, -⟩ := h.here hg
    obtain ⟨b1, hb1, -, -, hstmts⟩ := hstage.body
    have hnodup := hstage.linked.nodup
    obtain ⟨ls, ls', hsplit⟩ := append_of_mem hl.mem_lines
    rw [hsplit, map_append, map_cons, nodup_middle, nodup_cons, ← map_append] at hnodup
    refine ⟨g', b1.statements ++ ls.map (fun l => .assign (.signal l.1) l.2),
      ls'.map fun l => .assign (.signal l.1) l.2, hg', ?_, ?_⟩
    · rw [hstmts, assignments, hsplit, map_append, map_cons, append_assoc]
    · rw [append_assoc, ← map_append, Statement.mem_bodyWritten_append, mem_written_assignments]
      rintro (hw | hw)
      · exact not_written_of_fresh hfresh (hf.written _ (Fragment.mem_bodies_of_at? hg)) hb1.statements hw
      · exact hnodup.1 hw
  · intro q g' hg' hne hw
    cases hq : f.at? q with
    | none =>
      obtain ⟨id, rfl⟩ := h.new hg' hq
      cases hw
    | some =>
      obtain ⟨g'', hg'', hstage, -⟩ := h.here hq
      obtain rfl := Option.some.inj (hg''.symm.trans hg')
      obtain ⟨b1, hb1, -, -, hstmts⟩ := hstage.body
      rw [hstmts, Statement.mem_bodyWritten_append, assignments, mem_written_assignments] at hw
      rcases hw with hw | hw
      · exact not_written_of_fresh hfresh (hf.written _ (Fragment.mem_bodies_of_at? hq)) hb1.statements hw
      · obtain ⟨l, hmem, rfl⟩ := mem_map.mp hw
        obtain ⟨d', hl'⟩ := exists_line hmem
        exact hne (h.line_apart hq hg hl' hl)

/-- A line drives its register in its domain, and nothing else in the tree does. -/
theorem Laid.drivenOnly (hf : ∀ b ∈ f.bodies, ∀ d id, b.Drives d (.signal id) → σ.Issued id)
    (hg : f.at? p = some g) (hl : (E p).2.delays.Line d r w) : f'.DrivenOnlyAt p d r := by
  have hfresh := (h.fresh hg hl).1
  constructor
  · obtain ⟨g', hg', -⟩ := h.here hg
    rw [hg']
    rfl
  · intro q g' e hg'
    cases hq : f.at? q with
    | none =>
      obtain ⟨id, rfl⟩ := h.new hg' hq
      constructor
      · rintro ⟨_, hmem, -⟩
        cases hmem
      · rintro ⟨rfl, -⟩
        rw [hg] at hq
        cases hq
    | some =>
      obtain ⟨g'', hg'', hstage, -⟩ := h.here hq
      obtain rfl := Option.some.inj (hg''.symm.trans hg')
      rw [hstage.drives]
      constructor
      · rintro (hd | ⟨r', w', hr', hl'⟩)
        · exact absurd (hf _ (Fragment.mem_bodies_of_at? hq) e r hd) hfresh
        · cases hr'
          obtain rfl := h.line_apart hq hg hl' hl
          exact ⟨rfl, (line_unique hstage.linked.nodup hl' hl).1⟩
      · rintro ⟨rfl, rfl⟩
        exact Or.inr ⟨r, w, rfl, hl⟩

/-- The leaves of the lowered tree are constants and nets. -/
theorem Laid.atoms {b : Body} (hb : b ∈ f'.bodies) :
    ∀ v ∈ b.values, ∀ u ∈ v.leaves, u.IsAtom := by
  obtain ⟨g', hg', rfl⟩ := Fragment.mem_bodies_iff.mp hb
  obtain ⟨p, hp⟩ := Fragment.mem_nodes_iff_at?.mp hg'
  intro v hv u hu
  cases hq : f.at? p with
  | none =>
    obtain ⟨id, rfl⟩ := h.new hp hq
    obtain rfl : v = .signal id := mem_singleton.mp hv
    obtain rfl : u = .signal id := mem_singleton.mp hu
    trivial
  | some =>
    obtain ⟨g'', hg'', hstage, -⟩ := h.here hq
    obtain rfl := Option.some.inj (hg''.symm.trans hp)
    obtain ⟨b1, hb1, hcell, -, hstmts⟩ := hstage.body
    have hrewritten : v ∈ b1.values → u.IsAtom := by
      intro hv
      obtain ⟨w, -, hwv⟩ := hb1.mem_values hv
      obtain ⟨x, hx, hxu⟩ := forall₂_mem_right (hwv.leaves Became.isLeaf) hu
      exact hxu.isAtom (Value.isLeaf_of_mem_leaves hx)
    rw [Body.values, hcell, hstmts] at hv
    rcases mem_append.mp hv with hv | hv
    · obtain ⟨x, hx, hvx⟩ := Statement.mem_bodyValues.mp hv
      rcases mem_append.mp hx with hx | hx
      · exact hrewritten (mem_append_left _ (Statement.mem_bodyValues.mpr ⟨x, hx, hvx⟩))
      · obtain ⟨l, hl, rfl⟩ := mem_map.mp hx
        obtain ⟨d, hline⟩ := exists_line hl
        have hatom := hstage.linked.atom hline
        simp only [Statement.values, mem_cons, not_mem_nil, or_false] at hvx
        rcases hvx with rfl | rfl
        · obtain rfl : u = .signal l.1 := mem_singleton.mp hu
          trivial
        · rw [Value.leaves_of_isLeaf hatom.isLeaf, mem_singleton] at hu
          exact hu ▸ hatom
    · exact hrewritten (mem_append_right _ hv)

end

/-- The registers of a fragment, where there is one. -/
def registersAt (f : Fragment) (E : List Nat → Arenas × State) (path : List Nat) (v : Value) (d : String) (n : Nat) :
    Option SignalId := (f.at? path).bind fun _ => (E path).2.delays.registerOf? v d n

theorem registersAt_of_at? (hg : f.at? path = some g) : registersAt f E path = (E path).2.delays.registerOf? := by
  funext v d n
  rw [registersAt, hg]
  rfl

theorem exists_of_registersAt (h : registersAt f E path v d n = some r) :
    ∃ g, f.at? path = some g ∧ (E path).2.delays.registerOf? v d n = some r := by
  obtain ⟨g, hg, hr⟩ := bind_eq_some_iff.mp h
  exact ⟨g, hg, hr⟩

theorem Laid.delayRegister (h : Laid a σ σ' (fun p => f.at? p) (fun p => f'.at? p) E) (hf : f.Grounded σ)
    (hv : v.Source σ) (hr : registersAt f E path v d n = some r) :
    f'.DelayRegister σ σ' (registersAt f E path) path v d n r := by
  obtain ⟨g, hg, hreg⟩ := exists_of_registersAt hr
  obtain ⟨_, -, hstage, hbefore, hafter, -⟩ := h.here hg
  obtain ⟨m, w, rfl, htap, hline, hrecord⟩ := hstage.linked.register hv.isSteady hreg
  obtain ⟨hfresh, hissued⟩ := h.fresh hg hline
  obtain ⟨hshape, hstart⟩ := steady_kept hbefore hv.isSteady (hv.plain_of_keeps (.refl σ))
  have hreg' := hrecord (hv.plain_of_keeps hbefore)
  have hget : σ'.get r = (E path).2.arenas.get r := hafter.get (hstage.linked.fresh hline).2.1
  refine ⟨hfresh, hissued, ?_, ?_, ⟨h.drivenOnly hf.drivers hg hline, (hstage.linked.fresh hline).2.2, ?_⟩, ?_⟩
  · change (σ'.get r).shape = _
    rw [hget, hreg'.shape, hshape]
  · rw [hget, hreg'.reset, hshape, hstart, hv.start_eq]
  · rw [hget]
    exact hreg'.resetless
  · rw [registersAt_of_at? hg]
    exact ⟨m, w, rfl, htap, h.assignedOnce hf hg hline⟩

theorem Laid.registersAt_inj (h : Laid a σ σ' (fun p => f.at? p) (fun p => f'.at? p) E) {path' : List Nat}
    {v' : Value} {n' : Nat} (hv : v.Source σ) (hv' : v'.Source σ) (hr : registersAt f E path v d n = some r)
    (hr' : registersAt f E path' v' d' n' = some r) : path = path' ∧ v = v' ∧ d = d' ∧ n = n' := by
  obtain ⟨g, hg, hreg⟩ := exists_of_registersAt hr
  obtain ⟨g', hg', hreg'⟩ := exists_of_registersAt hr'
  obtain ⟨_, -, hstage, hbefore, -⟩ := h.here hg
  obtain ⟨_, -, hstage', -⟩ := h.here hg'
  obtain ⟨_, w, -, -, hline, -⟩ := hstage.linked.register hv.isSteady hreg
  obtain ⟨_, w', -, -, hline', -⟩ := hstage'.linked.register hv'.isSteady hreg'
  obtain rfl := h.line_apart hg hg' hline hline'
  exact ⟨rfl, hstage.linked.register_inj hv.isSteady (hv.plain_of_keeps hbefore) hv'.isSteady
    (hv'.plain_of_keeps hbefore) hreg hreg'⟩

end Delays

/-- The second body has the samples of the first replaced by what the chains give, and the assignments of the chains
added. -/
def Body.ReadsChains (reg : Value → String → Nat → Option SignalId) (b b' : Body) : Prop :=
  ∃ (b₁ : Body) (lines : List (SignalId × Value)), b.Rewritten (Value.Replaced reg) b₁ ∧ b'.cell = b₁.cell ∧
    b'.statements = b₁.statements ++ lines.map fun l => .assign (.signal l.1) l.2

theorem Delays.Stage.readsChains {a : Nat} {e : Arenas × State} {b b' : Body} (h : Stage a e b b') :
    b.ReadsChains e.2.delays.registerOf? b' := by
  obtain ⟨b1, hb1, hcell, -, hstmts⟩ := h.body
  exact ⟨b1, e.2.delays.lines, hb1.imp fun _ _ => h.linked.replaced, hcell, hstmts⟩

namespace Fragment

/-- Lowering leaves constants and nets, and reads every sample of a constant or a signal from a chain of registers.
Which register it is depends on the fragment, the value, the domain and the delay, and on nothing less. In a clocked
run the register holds at each cycle what the value was as many cycles before as the sample is late. -/
theorem lowerSamples_chains {σ σ' : Arenas} {a : Nat} {f f' : Fragment} (ha : a < σ.list.size) (hf : f.Grounded σ)
    (h : f.lowerSamples σ a = (.ok f', σ')) :
    (∀ b ∈ f'.bodies, ∀ v ∈ b.values, ∀ u ∈ v.leaves, u.IsAtom) ∧
    ∃ reg : List Nat → Value → String → Nat → Option SignalId,
      (∀ path g, f.at? path = some g → ∃ g', f'.at? path = some g' ∧ g.body.ReadsChains (reg path) g'.body) ∧
      (∀ path v d n r, v.Source σ → reg path v d n = some r → f'.DelayRegister σ σ' (reg path) path v d n r) ∧
      (∀ path path' v v' d d' n n' r, v.Source σ → v'.Source σ → reg path v d n = some r →
        reg path' v' d' n' = some r → path = path' ∧ v = v' ∧ d = d' ∧ n = n') ∧
      ∀ (run : f'.ClockedRun σ') path v d n r, v.Source σ → reg path v d n = some r →
        ∀ k, n ≤ run.cycle path d k → ∃ j, run.edge path d j = true ∧ run.cycle path d j + n = run.cycle path d k ∧
          (run.values k).value (.signal r) = (run.values j).value v := by
  obtain ⟨E, hE⟩ := lowerSamples_laid ha hf.samples h
  refine ⟨fun b hb => hE.atoms hb, Delays.registersAt f E, ?_, ?_, ?_, ?_⟩
  · intro path g hg
    obtain ⟨g', hg', hstage, -⟩ := hE.here hg
    refine ⟨g', hg', ?_⟩
    rw [Delays.registersAt_of_at? hg]
    exact hstage.readsChains
  · intro path v d n r hv hr
    exact hE.delayRegister hf hv hr
  · intro path path' v v' d d' n n' r hv hv' hr hr'
    exact hE.registersAt_inj hv hv' hr hr'
  · intro run path v d n r hv hr k hk
    have hshape := (Delays.steady_kept hE.keeps hv.isSteady (hv.plain_of_keeps (.refl σ))).1
    exact run.delayed hv.isSteady hshape (fun hr => hE.delayRegister hf hv hr) hr hk

section Late

/-- A four-bit signal that starts at 5, and two more. -/
def lateArenas : Arenas :=
  ⟨#[⟨#[⟨"a", ⟨4, false⟩, 5, false, [], none⟩, ⟨"y", ⟨4, false⟩, 0, false, [], none⟩,
    ⟨"z", ⟨4, false⟩, 0, false, [], none⟩], 0, 0⟩]⟩

private def copying (target : Nat) (delay : Int) : Body :=
  { Body.empty with
    statements := [.assign (.signal ⟨0, target⟩) (.sample (.signal ⟨0, 1⟩) delay "d")]
    drivers := [(combDomain, ⟨[.signal ⟨0, target⟩]⟩)] }

/-- The top reads the signal two cycles late, its child one cycle late. -/
def late : Fragment := .node (copying 2 2) [("u", .leaf (copying 3 1))]

theorem lowerSamples_chains_late : ∃ f' σ', late.lowerSamples lateArenas 0 = (.ok f', σ') ∧ ∃ r q q',
    f'.AssignedOnceAt [] q (.signal ⟨0, 1⟩) ∧ f'.AssignedOnceAt [] r (.signal q) ∧
    f'.AssignedOnceAt [0] q' (.signal ⟨0, 1⟩) ∧ q ≠ q' ∧ (σ'.get r).reset = 5 ∧
    ∃ run : f'.ClockedRun σ', ∀ k, 2 ≤ k → (run.values k).value (.signal r) = ((k - 2 : Nat) : Int) % 16 := by
  have hall : (late.lowerSamples lateArenas 0).1.toOption.map (fun f =>
      f.bodies.all fun b => b.driverPairs.all fun e => e.2.key ≠ .signal ⟨0, 1⟩) = some true := by decide +kernel
  obtain ⟨f', hf', hundriven⟩ := map_eq_some_iff.mp hall
  have hrun := eq_ok_of_toOption hf'
  obtain ⟨-, reg, hreads, hregister, hinj, hruns⟩ := lowerSamples_chains (by decide) (by decide +kernel) hrun
  have hissued : lateArenas.Issued ⟨0, 1⟩ := by unfold Arenas.Issued; decide
  have hsource : (Value.signal ⟨0, 1⟩).Source lateArenas := ⟨hissued, by decide⟩
  have htap : ∀ path {g target n}, late.at? path = some g → g.body = copying target n → 0 ≤ n →
      ∃ w, Value.tap (reg path) (.signal ⟨0, 1⟩) "d" n.toNat = some w := by
    intro path g target n hg hbody hn
    obtain ⟨g', -, b₁, lines, ⟨hstmts, -⟩, -, -⟩ := hreads path g hg
    rw [hbody] at hstmts
    obtain ⟨y, ys, -, ⟨lhs, w, -, -, hw⟩, -⟩ := hstmts
    exact ⟨w, hw.2 trivial hn⟩
  obtain ⟨_, htop⟩ := htap [] rfl rfl (by decide)
  obtain ⟨r, hr, -⟩ := map_eq_some_iff.mp htop
  change reg [] _ "d" 2 = _ at hr
  obtain ⟨_, hchild⟩ := htap [0] rfl rfl (by decide)
  obtain ⟨q', hq', -⟩ := map_eq_some_iff.mp hchild
  have hrr := hregister _ _ _ _ _ hsource hr
  obtain ⟨m, w, hm, hprev, hassigned⟩ := hrr.chained
  obtain rfl : m = 1 := by omega
  obtain ⟨q, hq, rfl⟩ := map_eq_some_iff.mp hprev
  have hfirst : ∀ {path q}, reg path (.signal ⟨0, 1⟩) "d" 1 = some q → f'.AssignedOnceAt path q (.signal ⟨0, 1⟩) := by
    intro path q hq
    obtain ⟨m, w, hm, hprev, hassigned⟩ := (hregister _ _ _ _ _ hsource hq).chained
    obtain rfl : m = 0 := by omega
    cases hprev
    exact hassigned
  refine ⟨f', _, hrun, r, q, q', hfirst hq, hassigned, hfirst hq', ?_, hrr.reset.trans (by decide), ?_⟩
  · rintro rfl
    exact absurd (hinj _ _ _ _ _ _ _ _ _ hsource hsource hq hq').1 (by decide)
  · -- The domain has an edge at every instant, and the signal, which nothing drives, counts the instants.
    obtain ⟨run, hedge, hinput⟩ := ClockedRun.exists_of_inputs (late.lowerSamples lateArenas 0).2 f'
      (fun _ _ _ => true) fun k _ => k
    have hcycle : ∀ k, run.cycle [] "d" k = k := by
      intro k
      rw [ClockedRun.cycle, hedge]
      simp
    have hfree : ∀ path d, ¬ Registered (late.lowerSamples lateArenas 0).2 f' path d ⟨0, 1⟩ := by
      rintro path d ⟨⟨hsome, hdriven⟩, -⟩
      obtain ⟨g, hg⟩ := isSome_iff_exists.mp hsome
      obtain ⟨e, he, -, hkey⟩ := Body.drives_iff.mp ((hdriven path g d hg).mpr ⟨rfl, rfl⟩)
      have hpairs := all_eq_true.mp hundriven _ (mem_bodies_of_at? hg)
      have hother := all_eq_true.mp hpairs e he
      simp only [ne_eq, decide_not, Bool.not_eq_true', decide_eq_false_iff_not] at hother
      exact hother hkey
    refine ⟨run, fun k hk => ?_⟩
    obtain ⟨j, -, hj, hvalue⟩ := hruns run _ _ _ _ _ hsource hr k (by rw [hcycle]; exact hk)
    rw [hcycle, hcycle] at hj
    have hshape : (late.lowerSamples lateArenas 0).2.shape ⟨0, 1⟩ = ⟨4, false⟩ := by decide +kernel
    rw [hvalue, hinput j _ hfree, hshape, show k - 2 = j by omega]
    rfl

/-- A cell with a sample for a parameter. -/
private def tuned : Fragment := .leaf { Body.empty with
  cell := some ⟨"BUF", [("P", .value (.sample (.signal ⟨0, 1⟩) 1 "d"))], [⟨"O", .signal ⟨0, 2⟩, .output⟩]⟩ }

/-- Parameters are handed on as they are, so that a sample among them outlives lowering. -/
theorem not_forall_lowerSamples_params_atoms : ¬ ∀ (a : Nat) (σ σ' : Arenas) (f f' : Fragment), a < σ.list.size →
    f.Grounded σ → f.lowerSamples σ a = (.ok f', σ') → ∀ b ∈ f'.bodies, ∀ i, b.cell = some i → ∀ x ∈ i.params,
    ∀ v, x.2 = .value v → ∀ u ∈ v.leaves, u.IsAtom := by
  intro h
  have hgrounded : tuned.Grounded lateArenas := by decide +kernel
  obtain ⟨f', hf'⟩ := isSome_iff_exists.mp
    (show (tuned.lowerSamples lateArenas 0).1.toOption.isSome = true by decide +kernel)
  have hrun := eq_ok_of_toOption hf'
  obtain ⟨E, hE⟩ := lowerSamples_laid (by decide) hgrounded.samples hrun
  obtain ⟨g', hg', hstage, -⟩ := hE.here (p := []) rfl
  cases hg'
  obtain ⟨b₁, hb₁, hcell, -⟩ := hstage.body
  obtain ⟨i, hi, hparams⟩ : ∃ i, f'.body.cell = some i ∧ i.params = [("P", .value (.sample (.signal ⟨0, 1⟩) 1 "d"))] := by
    have hrel := hb₁.cell
    rw [← hcell] at hrel
    revert hrel
    generalize f'.body.cell = c
    rintro (hi | -)
    exact ⟨_, rfl, hi.params⟩
  exact h 0 _ _ _ _ (by decide) hgrounded hrun f'.body (body_mem_bodies f') i hi _ (hparams ▸ mem_singleton.mpr rfl) _
    rfl (.sample (.signal ⟨0, 1⟩) 1 "d") (mem_singleton.mpr rfl)

end Late
end Fragment
end Rtl
