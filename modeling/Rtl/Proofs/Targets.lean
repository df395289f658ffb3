import Mathlib
import Rtl.Proofs.Gathering
import Rtl.Proofs.Persistence
import Rtl.Proofs.RenamedValues
import Rtl.Proofs.Resets
import Rtl.Proofs.SampleTrees

/-!
# What the passes make of left sides

Only nets can be assigned to. Whoever writes a left side, or binds an output of a cell, is checked then and there; the
passes rewrite both without checking them again. Lowering samples, propagating domains, resolving conflicts and
inserting resets leave nets where nets were. Lowering references does so with one exception: a reset reference that
allows a domain without a reset stands for a constant where the domain has none.
-/
namespace Rtl

open List

variable {σ : Arenas} {v : Value} {K : Net → Prop}

/-- All of the values are nets of this kind. -/
def AllNets (K : Net → Prop) (vs : List Value) : Prop := ∀ v ∈ vs, ∃ n, v = .net n ∧ K n

namespace Value

theorem targets_ok_iff : (∃ t, v.targets = .ok t) ↔ AllNets (fun _ => True) v.written := by
  have hnets : AllNets (fun _ => True) v.written ↔ v.written ∈ Set.range (List.map Value.net) := by
    rw [Set.range_list_map]
    simp [AllNets, eq_comm]
  rw [hnets]
  simp only [targets_eq_ok_iff]
  exact ⟨fun ⟨_, ns, hns, _⟩ => ⟨ns, hns.symm⟩, fun ⟨ns, hns⟩ => ⟨_, ns, hns.symm, rfl⟩⟩

end Value

namespace Statement

theorem bodyTargets_ok_iff (acc : NetSet) {xs : List Statement} :
    (∃ t, bodyTargets acc xs = .ok t) ↔ ∀ x ∈ xs, ∃ t, x.targets = .ok t := by
  induction xs generalizing acc with
  | nil => exact ⟨fun _ _ hx => absurd hx not_mem_nil, fun _ => ⟨acc, rfl⟩⟩
  | cons x xs ih =>
    rw [forall_mem_cons, bodyTargets]
    cases hx : x.targets with
    | error => simp
    | ok =>
      rw [ih]
      simp

theorem armsTargets_ok_iff {acc : NetSet} {arms : List Arm} :
    (∃ t, armsTargets acc arms = .ok t) ↔ ∀ a ∈ arms, ∀ x ∈ a.2, ∃ t, x.targets = .ok t := by
  induction arms generalizing acc with
  | nil => exact ⟨fun _ _ ha => absurd ha not_mem_nil, fun _ => ⟨acc, rfl⟩⟩
  | cons a arms ih =>
    obtain ⟨patterns, body⟩ := a
    rw [forall_mem_cons, armsTargets, ← bodyTargets_ok_iff acc]
    cases hbody : bodyTargets acc body with
    | error => simp
    | ok =>
      rw [ih]
      simp

/-- The targets of a statement are known if everything that it would write is a net. -/
theorem targets_ok_iff {x : Statement} : (∃ t, x.targets = .ok t) ↔ AllNets (fun _ => True) x.written := by
  induction x with
  | assign => exact Value.targets_ok_iff
  | switch test arms ih =>
    refine armsTargets_ok_iff.trans ?_
    simp only [AllNets, written, mem_armsWritten]
    constructor
    · rintro h u ⟨a, ha, x, hx, hu⟩
      exact (ih a ha x hx).mp (h a ha x hx) u hu
    · intro h a ha x hx
      exact (ih a ha x hx).mpr fun u hu => h u ⟨a, ha, x, hx, hu⟩
  | property =>
    refine iff_of_true ⟨_, rfl⟩ (forall_mem_cons.mpr ⟨⟨_, rfl, trivial⟩, ?_⟩)
    exact forall_mem_singleton.mpr ⟨_, rfl, trivial⟩

end Statement

theorem Statement.written_resetSwitch {rst : SignalId} {ids : List SignalId} {u : Value}
    (hu : u ∈ (resetSwitch σ rst ids).written) : ∃ id, u = .signal id := by
  obtain ⟨a, ha, x, hx, hu⟩ := mem_armsWritten.mp hu
  obtain rfl := mem_singleton.mp ha
  obtain ⟨id, -, rfl⟩ := mem_map.mp hx
  exact ⟨id, mem_singleton.mp hu⟩

namespace Body

variable {K K' : Net → Prop}
variable {b b' : Body}

theorem mem_written_append {xs : List Statement} (hcell : b'.cell = b.cell)
    (hstatements : b'.statements = b.statements ++ xs) {u : Value} :
    u ∈ b'.written ↔ u ∈ b.written ∨ ∃ x ∈ xs, u ∈ x.written := by
  unfold written
  rw [hcell, hstatements]
  simp only [mem_append, Statement.mem_bodyWritten, or_and_right, exists_or]
  exact or_right_comm

/-- Where nets become nets, a body that writes only nets does so still. -/
theorem Rewritten.allNets {L : Value → Value → Prop} (h : b.Rewritten L b')
    (hsignal : ∀ {id}, K (.signal id) → K' (.signal id)) (hL : ∀ {n w}, K n → L (.net n) w → ∃ n', w = .net n' ∧ K' n')
    (hb : AllNets K b.written) : AllNets K' b'.written := by
  have hleaf : ∀ u ∈ b.written, u.IsLeaf → ∀ u', L u u' → u'.IsLeaf := by
    intro u hu _ u' hu'
    obtain ⟨n, rfl, hn⟩ := hb u hu
    obtain ⟨n', rfl, -⟩ := hL hn hu'
    trivial
  intro u' hu'
  obtain ⟨u, hu, hx⟩ := forall₂_mem_right (h.written hleaf) hu'
  obtain ⟨n, rfl, hn⟩ := hb u hu
  rcases hx with ⟨id, hid, rfl⟩ | hx
  · cases hid
    exact ⟨_, rfl, hsignal hn⟩
  · exact hL hn hx

section Traversal

variable {m : Type → Type} [Monad m] [MonadExceptOf Failure m] {S : Type} [Outcome m S] {P : Pass m} {r : Traversal m}

/-- A traversal that makes nets of nets leaves a body that writes only nets. -/
theorem traverse_allNets (harenas : ∀ {s σ t}, Gives r.arenas s σ t → s = t)
    (hstatement : ∀ {x s o t}, Gives (r.statement x) s o t → o = none ∧ s = t)
    (hnet : ∀ {n s o t}, Gives (r.net n) s o t → s = t ∧ (K n → ∃ n', o.getD (.net n) = .net n' ∧ K n')) {s t : S}
    (hb : AllNets K b.written) (hg : Gives (b.traverse P r) s b' t) : AllNets K b'.written := by
  have hrewrites : Rewrites r (fun _ : S => True) (fun _ _ => True) (fun _ => True)
      fun _ u w => ∀ n, u = .net n → K n → ∃ n', w = .net n' ∧ K n' :=
    { refl := fun _ => trivial
      trans := fun _ _ => trivial
      mono := fun _ h => h
      arenas := harenas
      statement := hstatement
      leaf := by
        intro v s o t hleaf _ _ hg
        refine ⟨trivial, trivial, ?_⟩
        rintro n rfl
        rw [Value.traverse] at hg
        exact (hnet hg).2 }
  exact (hrewrites.rewritten (fun hg => (hnet hg).1) hg).allNets (fun hn => hn) (fun hn hw => hw _ rfl hn) hb

end Traversal

end Body

namespace Body

variable {σ : Arenas} {b : Body}

/-- The net is a reset reference that stands for zero in the fragment. -/
def Grounds (b : Body) (n : Net) : Prop := ∃ d cd, n = .reset d true ∧ b.domain? d = some cd ∧ cd.rst = none

/-- A net stands for a net unless it is grounded. -/
theorem lowerNet_net_iff {n : Net} {o : Option Value} (h : b.lowerNet σ n = .ok o) :
    (o.getD (.net n)).IsLeaf ∧ ((∃ m, o.getD (.net n) = .net m) ↔ ¬ b.Grounds n) := by
  obtain ⟨id, rfl, rfl⟩ | ⟨d, cd, rfl, hd, rfl⟩ | ⟨d, allow, cd, rst, rfl, hd, hr, rfl⟩ | ⟨d, cd, rfl, hd, hr, rfl⟩ :=
    lowerNet_eq_ok.mp h
  · exact ⟨trivial, iff_of_true ⟨_, rfl⟩ (by simp [Grounds])⟩
  · exact ⟨trivial, iff_of_true ⟨_, rfl⟩ (by simp [Grounds])⟩
  · exact ⟨trivial, iff_of_true ⟨_, rfl⟩ (by simp [Grounds, hd, hr])⟩
  · exact ⟨trivial, iff_of_false (by simp) (by simp [Grounds, hd, hr])⟩

/-- What a leaf becomes when references are lowered. -/
def LowersTo (σ : Arenas) (b : Body) : Value → Value → Prop
  | .net n, w => ∃ o, b.lowerNet σ n = .ok o ∧ w = o.getD (.net n)
  | .sample _ clocks domain, w => ∃ v, w = .sample v clocks domain
  | v, w => w = v

theorem LowersTo.isLeaf {w : Value} (h : b.LowersTo σ v w) (hv : v.IsLeaf) : w.IsLeaf := by
  cases v with
  | net =>
    obtain ⟨o, ho, rfl⟩ := h
    exact (lowerNet_net_iff ho).1
  | sample =>
    obtain ⟨v', rfl⟩ := h
    trivial
  | const | initial =>
    obtain rfl := h
    trivial
  | _ => exact hv.elim

theorem lowering_rewrites (σ : Arenas) (b : Body) :
    Rewrites (b.lowering σ) (fun _ : Unit => True) (fun _ _ => True) (fun _ => True) fun _ => b.LowersTo σ where
  refl _ := trivial
  trans _ _ := trivial
  mono _ h := h
  arenas _ := rfl
  statement h := ⟨(gives_pure.mp h).1.symm, rfl⟩
  leaf := by
    intro v s o t hleaf _ _ hg
    refine ⟨trivial, trivial, ?_⟩
    cases v with
    | net =>
      rw [Value.traverse] at hg
      exact ⟨o, except_mapError_eq_ok.mp (gives_except.mp hg), rfl⟩
    | sample =>
      rw [Value.traverse] at hg
      obtain ⟨o', s1, -, hg⟩ := gives_bind.mp hg
      obtain ⟨rfl, -⟩ := gives_pure.mp hg
      cases o' <;> exact ⟨_, rfl⟩
    | const | initial =>
      rw [Value.traverse] at hg
      obtain ⟨rfl, -⟩ := gives_pure.mp hg
      rfl
    | _ => exact hleaf.elim

end Body

theorem Value.Rewritten.isLeaf_of_net {L : Value → Value → Prop} {n : Net} (h : v.Rewritten L (.net n)) : v.IsLeaf := by
  cases v with
  | const | net | sample | initial => trivial
  | unary | binary | mux | slice | part | cat | repl | proxy => simp [Value.Rewritten] at h

/-- Lowering references leaves a body that writes only nets if it wrote only nets that are not grounded. -/
theorem Body.traverse_lowering_allNets {b b' : Body}
    (h : b.traverse (Fragment.domainLowering σ) (b.lowering σ) = .ok b') :
    AllNets (fun _ => True) b'.written ↔ AllNets (fun n => ¬ b.Grounds n) b.written := by
  have hrewritten := (b.lowering_rewrites σ).rewritten (s := ()) (t := ()) (fun _ => rfl) (gives_except.mpr h)
  constructor
  · intro hall u hu
    obtain ⟨u', hu', hx⟩ := forall₂_mem_left (hrewritten.written fun _ _ hleaf _ hw => hw.isLeaf hleaf) hu
    obtain ⟨m, rfl, -⟩ := hall u' hu'
    rcases hx with ⟨id, rfl, -⟩ | hx
    · refine ⟨.signal id, rfl, ?_⟩
      rintro ⟨d, cd, hn, -⟩
      cases hn
    · cases u with
      | net n =>
        obtain ⟨o, ho, hm⟩ := hx
        exact ⟨n, rfl, (lowerNet_net_iff ho).2.mp ⟨m, hm.symm⟩⟩
      | sample =>
        obtain ⟨v', hm⟩ := hx
        cases hm
      | const | initial => cases hx
      | _ => exact hx.isLeaf_of_net.elim
  · refine hrewritten.allNets (fun _ => trivial) ?_
    rintro n w hn ⟨o, ho, rfl⟩
    obtain ⟨m, hm⟩ := (lowerNet_net_iff ho).2.mpr hn
    exact ⟨m, hm, trivial⟩

theorem Gathered.allNets {R : Body → Body → Prop} {l l' : List Body} (h : Gathered R l l')
    (hl : ∀ b ∈ l, AllNets K b.written) : ∀ b ∈ l', AllNets K b.written := by
  refine h.forall_mem (P := fun b => AllNets K b.written) ?_ hl
  intro b sub _ hb hsub u hu
  rcases (Body.mem_written_append (b.merge_cell sub) (b.merge_statements sub)).mp hu with hu | ⟨x, hx, hu⟩
  · exact hb u hu
  · exact hsub u (mem_append_left _ (Statement.mem_bodyWritten.mpr ⟨x, hx, hu⟩))

namespace Fragment

variable {K : Net → Prop} {σ σ' : Arenas} {a : Nat}
variable {f f' : Fragment}

/-- The fragments of the tree write only nets of this kind. -/
def WritesOnly (K : Net → Prop) (f : Fragment) : Prop := ∀ b ∈ f.bodies, AllNets K b.written

theorem writesOnly_node {b : Body} {cs : List (String × Fragment)} :
    (node b cs).WritesOnly K ↔ AllNets K b.written ∧ ∀ c ∈ cs, c.2.WritesOnly K := forall_bodies_node

/-- Samples are lowered to registers, which are signals, and the first-cycle flag is the output of a cell. -/
theorem lowerSamples_writesOnly (hsignal : ∀ id, K (.signal id)) (hf : f.WritesOnly K)
    (h : f.lowerSamples σ a = (.ok f', σ')) : f'.WritesOnly K := by
  obtain ⟨t, hg, rfl⟩ := lowerSamples_inv h
  refine traverse_relates (Q := fun f f' => f.WritesOnly K → f'.WritesOnly K) ?_ hg hf
  intro b cs cs' f s t hchildren hg hf
  obtain ⟨hb, hcs⟩ := writesOnly_node.mp hf
  obtain ⟨nb, hbody, rfl⟩ := Delays.top_inv hg
  have hnb : AllNets K nb.written := by
    refine Body.traverse_allNets (fun h => (Delays.traversal_arenas h).2) Delays.traversal_statement ?_ hb hbody
    intro n s o t hg
    obtain ⟨rfl, rfl⟩ := gives_pure.mp hg
    exact ⟨rfl, fun hn => ⟨n, rfl, hn⟩⟩
  obtain ⟨hcell, -, hstatements, -⟩ := Delays.addChains_eq t.delays.chains nb
  refine writesOnly_node.mpr ⟨?_, forall_mem_append.mpr ⟨?_, ?_⟩⟩
  · intro u hu
    rcases (Body.mem_written_append hcell hstatements).mp hu with hu | ⟨x, hx, hu⟩
    · exact hnb u hu
    · obtain ⟨l, -, rfl⟩ := mem_map.mp hx
      exact ⟨.signal l.1, mem_singleton.mp hu, hsignal l.1⟩
  · intro c' hc'
    obtain ⟨c, hc, himp⟩ := forall₂_mem_right hchildren hc'
    exact himp (hcs c hc)
  · intro c hc
    obtain ⟨id, -, rfl⟩ := Option.map_eq_some_iff.mp (Option.mem_toList.mp hc)
    refine writesOnly_node.mpr ⟨?_, by simp⟩
    intro u hu
    exact ⟨.signal id, mem_singleton.mp hu, hsignal id⟩

/-- Propagation renames domains, which makes references of references. -/
theorem propagateDomains_writesOnly (hrenamed : ∀ mapping {n}, K n → K (n.renamed mapping)) {ensureSync : Bool}
    (hf : f.WritesOnly K) (hg : Gives (f.propagateDomains a ensureSync) σ f' σ') : f'.WritesOnly K := by
  have hpropagated : Propagated fun b b' => AllNets K b.written → AllNets K b'.written :=
    { domains := fun h hb => by
        rw [h]
        exact hb
      renamed := fun hg hb => by
        refine Body.traverse_allNets ?_ (fun h => ⟨(gives_pure.mp h).1.symm, (gives_pure.mp h).2⟩) ?_ hb hg
        · intro s σ t hg
          obtain ⟨s1, s2, hget, hg⟩ := gives_bind.mp hg
          exact (gives_get.mp hget).2.trans (gives_pure.mp hg).2
        · intro n s o t hg
          exact ⟨(Renamer.gives_net hg).1, fun hn => ⟨_, (Renamer.gives_net hg).2.1, hrenamed _ hn⟩⟩
      trans := fun h h' hb => h' (h hb) }
  exact (hpropagated.propagateDomains hg).forall_bodies hf fun hb h => h hb

theorem resolveConflicts_writesOnly {mode : ConflictMode} {r : Resolution} (hf : f.WritesOnly K)
    (h : f.resolveConflicts σ mode = .ok r) : r.fragment.WritesOnly K := by
  exact (resolveWith_gathered Body.tabular_any (fun _ _ _ _ => trivial) h).gathered.allNets hf

/-- Inserting resets adds signals to what is written, and keeps the tables of domains. -/
theorem insertDomainResets_written (h : f.insertDomainResets σ = .ok f') :
    List.Forall₂ (fun b b' => b'.domain? = b.domain? ∧ (∀ u ∈ b.written, u ∈ b'.written) ∧
      ∀ u ∈ b'.written, u ∈ b.written ∨ ∃ id, u = .signal id) f.bodies f'.bodies := by
  refine (insertControls_bodies h).imp ?_
  rintro b b' ⟨xs, hxs, rfl⟩
  have hcell : (b.withoutIdleDomains.addStatements xs).cell = b.cell := rfl
  have hstatements : (b.withoutIdleDomains.addStatements xs).statements = b.statements ++ xs := rfl
  refine ⟨rfl, fun u hu => (Body.mem_written_append hcell hstatements).mpr (Or.inl hu), fun u hu => ?_⟩
  refine ((Body.mem_written_append hcell hstatements).mp hu).imp id ?_
  rintro ⟨x, hx, hu⟩
  obtain ⟨rst, ids, rfl⟩ := Body.controlSwitches_switch hxs x hx
  exact Statement.written_resetSwitch hu

/-- The fragments of a tree whose references are lowered write only nets if, before resets were inserted, they wrote
only nets and none of these was grounded. -/
theorem lowered_writesOnly_iff {f1 f2 : Fragment} (hresets : f.insertDomainResets σ = .ok f1)
    (hlower : f1.lowerDomains σ = .ok f2) :
    f2.WritesOnly (fun _ => True) ↔ ∀ b ∈ f.bodies, AllNets (fun n => ¬ b.Grounds n) b.written := by
  have hlowered : List.Forall₂ (fun b b' => AllNets (fun _ => True) b'.written ↔ AllNets (fun n => ¬ b.Grounds n) b.written)
      f1.bodies f2.bodies :=
    traverse_bodies (fun _ hbody => Body.traverse_lowering_allNets hbody) hlower
  have hboth : List.Forall₂ (fun b b' => AllNets (fun _ => True) b'.written ↔ AllNets (fun n => ¬ b.Grounds n) b.written)
      f.bodies f2.bodies := by
    refine forall₂_trans ?_ (insertDomainResets_written hresets) hlowered
    rintro b b1 b2 ⟨hdomains, hkept, hadded⟩ hiff
    have hgrounds : b1.Grounds = b.Grounds := by
      unfold Body.Grounds
      rw [hdomains]
    rw [hiff, hgrounds]
    constructor
    · exact fun h u hu => h u (hkept u hu)
    · intro h u hu
      rcases hadded u hu with hu | ⟨id, rfl⟩
      · exact h u hu
      · exact ⟨.signal id, rfl, by simp [Body.Grounds]⟩
  exact (forall₂_forall_iff hboth fun _ _ _ hiff => hiff.symm).symm

end Fragment

/-- The passes up to the resolution of conflicts leave nets where nets were, and references of the sort they were. -/
theorem Prepare.Flattens.writesOnly (hsignal : ∀ id, K (.signal id))
    (hrenamed : ∀ mapping {n}, K n → K (n.renamed mapping)) {a : Nat} {opts : PrepareOptions} {f g : Fragment}
    {σ' : Arenas} (h : Flattens a opts f σ g σ') (hf : f.WritesOnly K) : g.WritesOnly K := by
  obtain ⟨f1, σ1, f2, r, hsamples, hdomains, hconflicts, rfl⟩ := h
  have hf1 := Fragment.lowerSamples_writesOnly hsignal hf hsamples
  have hf2 := Fragment.propagateDomains_writesOnly hrenamed hf1 (gives_run.mpr hdomains)
  exact Fragment.resolveConflicts_writesOnly hf2 hconflicts

end Rtl
