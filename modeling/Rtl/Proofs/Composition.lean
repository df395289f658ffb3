import Mathlib
import Rtl.Fragment.LowerSamples
import Rtl.Fragment.Rename
import Rtl.Proofs.Rewriting

/-!
# Properties that sequences of computations inherit

Some properties of computations need to be checked only of the smallest ones: that they leave a part of the state as it
was, or that they fail in no way but one. Such a property holds of a traversal as soon as it holds of what the
traversal does to a leaf, and of the lowering of samples as soon as it holds of what issues a register.
-/
namespace Rtl

open List

section Composition

variable {m : Type → Type} [Monad m] [MonadExceptOf Failure m] {S : Type} [Outcome m S]

/-- A property of checks and of results that a sequence has if its first part does and, whatever that gives, its
rest does. -/
structure Composes (P : ∀ α : Type, m α → Prop) : Prop where
  pure : ∀ {α : Type} (a : α), P _ (pure a : m α)
  raise : ∀ {α : Type} (x : Except DesignError α), P _ (Value.raise x : m α)
  andThen : ∀ {α β : Type} {x : m α} {f : α → m β}, P _ x → (∀ {a s t}, Gives x s a t → P _ (f a)) → P _ (x >>= f)

variable {P : ∀ α : Type, m α → Prop}

namespace Composes

variable {α β : Type} {x y : m α} {r : Traversal m}

theorem bind (h : Composes P) {f : α → m β} (hx : P _ x) (hf : ∀ a, P _ (f a)) : P _ (x >>= f) :=
  h.andThen hx fun _ => hf _

theorem map (h : Composes P) {f : α → β} (hx : P _ x) : P _ (x >>= fun a => Pure.pure (f a)) :=
  h.bind hx fun a => h.pure (f a)

theorem ite (_ : Composes P) {p : Prop} [Decidable p] (hx : P _ x) (hy : P _ y) : P _ (if p then x else y) := by
  split
  · exact hx
  · exact hy

theorem values (h : Composes P) {vs : List Value} (ih : ∀ v ∈ vs, P _ (v.traverse r)) : P _ (Value.traverseAll r vs) := by
  induction vs with
  | nil => exact h.pure none
  | cons v vs ihvs =>
    obtain ⟨ihv, ihrest⟩ := forall_mem_cons.mp ih
    rw [Value.traverseAll]
    exact h.bind ihv fun _ => h.bind (ihvs ihrest) fun _ => h.ite (h.pure _) (h.pure _)

theorem statements (h : Composes P) {xs : List Statement} (ih : ∀ x ∈ xs, P _ (x.traverse r)) :
    P _ (Statement.traverseAll r xs) := by
  induction xs with
  | nil => exact h.pure []
  | cons x xs ihxs =>
    obtain ⟨ihx, ihrest⟩ := forall_mem_cons.mp ih
    rw [Statement.traverseAll]
    exact h.bind ihx fun _ => h.map (ihxs ihrest)

theorem arms (h : Composes P) {as : List Arm} (ih : ∀ a ∈ as, ∀ x ∈ a.2, P _ (x.traverse r)) :
    P _ (Statement.traverseArms r as) := by
  induction as with
  | nil => exact h.pure []
  | cons a as ihas =>
    obtain ⟨iha, ihrest⟩ := forall_mem_cons.mp ih
    rw [Statement.traverseArms]
    exact h.bind (h.statements iha) fun _ => h.map (ihas ihrest)

end Composes

/-- A traversal that has the property at every leaf of kind `p`. -/
structure Traversal.Keeps (r : Traversal m) (P : ∀ α : Type, m α → Prop) (p : Value → Prop) : Prop
    extends Composes P where
  arenas : P _ r.arenas
  statement : ∀ x, P _ (r.statement x)
  const : ∀ v s, P _ (r.const v s)
  net : ∀ n, P _ (r.net n)
  initial : P _ r.initial
  sample : ∀ {v clocks domain}, p (.sample v clocks domain) →
    (∀ u ∈ v.leaves, p u) ∧ (P _ (v.traverse r) → P _ (r.sample v clocks domain (v.traverse r)))

namespace Traversal.Keeps

variable {r : Traversal m} {p : Value → Prop} {v : Value} {x : Statement}

theorem value (h : r.Keeps P p) (hv : ∀ u ∈ v.leaves, p u) : P _ (v.traverse r) := by
  induction v with
  | const v s => exact h.const v s
  | net n => exact h.net n
  | initial => exact h.initial
  | sample v clocks domain ih =>
    obtain ⟨hinner, hsample⟩ := h.sample (hv _ (mem_singleton_self _))
    exact hsample (ih hinner)
  | unary op a s ih =>
    rw [Value.traverse]
    refine h.bind (ih hv) fun a' => ?_
    cases a' with
    | none => exact h.pure none
    | some => exact h.map h.arenas
  | binary op a b s iha ihb =>
    obtain ⟨ha, hb⟩ := forall_mem_append.mp hv
    rw [Value.traverse]
    refine h.bind (iha ha) fun a' => h.bind (ihb hb) fun b' => h.ite (h.pure none) ?_
    exact h.bind h.arenas fun σ => h.map (h.raise _)
  | mux sel a b s ihsel iha ihb =>
    obtain ⟨hsel, hv⟩ := forall_mem_append.mp hv
    obtain ⟨ha, hb⟩ := forall_mem_append.mp hv
    rw [Value.traverse]
    refine h.bind (ihsel hsel) fun sel' => h.bind (iha ha) fun a' => h.bind (ihb hb) fun b' => ?_
    exact h.ite (h.pure none) (h.map h.arenas)
  | slice v i j ih | repl v count ih =>
    rw [Value.traverse]
    exact h.map (ih hv)
  | part v offset width stride ih iho =>
    obtain ⟨hvalue, hoffset⟩ := forall_mem_append.mp hv
    rw [Value.traverse]
    exact h.bind (ih hvalue) fun v' => h.bind (iho hoffset) fun o' => h.ite (h.pure none) (h.pure _)
  | cat parts ih =>
    rw [Value.traverse]
    exact h.map (h.values fun v hm => ih v hm fun u hu => hv u ((Value.mem_leaves_iff id).mpr ⟨v, hm, hu⟩))
  | proxy elems index ih ihi =>
    rw [Value.leaves_eq_flatMap id, forall_mem_flatMap, Value.operands, forall_mem_append] at hv
    rw [Value.traverse]
    refine h.bind (h.values fun v hm => ih v hm (hv.1 v hm)) fun _ => ?_
    exact h.bind (ihi (hv.2 index (mem_singleton_self index))) fun _ => h.ite (h.pure none) (h.pure _)

theorem traversed (h : r.Keeps P p) (hv : ∀ u ∈ v.leaves, p u) : P _ (v.traversed r) := h.map (h.value hv)

theorem ofStatement (h : r.Keeps P p) (hx : ∀ v ∈ x.values, ∀ u ∈ v.leaves, p u) : P _ (x.traverse r) := by
  have hunless : ∀ (x : Statement) {f : Option (List Statement) → m (List Statement)},
      (∀ out, f (some out) = Pure.pure out) → P _ (f none) → P _ (r.statement x >>= f) := by
    intro x f hsome hnone
    refine h.bind (h.statement x) fun o => ?_
    cases o with
    | some out =>
      rw [hsome]
      exact h.pure out
    | none => exact hnone
  induction x with
  | assign lhs rhs =>
    rw [Statement.traverse]
    refine hunless _ (fun _ => rfl) (h.bind (h.traversed (hx lhs (by simp [Statement.values]))) fun _ => ?_)
    exact h.map (h.traversed (hx rhs (by simp [Statement.values])))
  | switch test as ih =>
    rw [Statement.traverse]
    refine hunless _ (fun _ => rfl) (h.bind (h.traversed (hx test (by simp [Statement.values]))) fun _ => ?_)
    refine h.map (h.arms fun a ha x hm => ih a ha x hm fun v hv => hx v ?_)
    exact mem_cons_of_mem _ (Statement.mem_armsValues.mpr ⟨a, ha, x, hm, hv⟩)
  | property kind test =>
    rw [Statement.traverse]
    exact hunless _ (fun _ => rfl) (h.map (h.traversed (hx test (by simp [Statement.values]))))

theorem statements (h : r.Keeps P p) {xs : List Statement}
    (hxs : ∀ v ∈ Statement.bodyValues xs, ∀ u ∈ v.leaves, p u) : P _ (Statement.traverseAll r xs) :=
  h.toComposes.statements fun x hx => h.ofStatement fun v hv => hxs v (Statement.mem_bodyValues.mpr ⟨x, hx, hv⟩)

theorem cell (h : r.Keeps P p) {c : Option Instance}
    (hc : ∀ v ∈ c.toList.flatMap fun i => i.ports.map Binding.value, ∀ u ∈ v.leaves, p u) :
    P _ (Body.traverseCell r c) := by
  have hbindings : ∀ {ps : List Binding}, (∀ v ∈ ps.map Binding.value, ∀ u ∈ v.leaves, p u) →
      P _ (Body.traverseBindings r ps) := by
    intro ps hps
    induction ps with
    | nil => exact h.pure []
    | cons x ps ih =>
      obtain ⟨hx, hrest⟩ := forall_mem_cons.mp hps
      exact h.bind (h.traversed hx) fun _ => h.map (ih hrest)
  cases c with
  | none => exact h.pure none
  | some => exact h.map (hbindings fun v hv => hc v (mem_append_left _ hv))

end Traversal.Keeps

section Still

variable {V : Type} {view : S → V} {α : Type}

/-- A computation that leaves what is seen of the state as it found it whenever it succeeds. -/
def Still (view : S → V) (x : m α) : Prop := ∀ ⦃s a s'⦄, Gives x s a s' → view s = view s'

theorem Still.composes : Composes (m := m) fun _ => Still view where
  pure a := by
    intro s b s' hg
    rw [(gives_pure.mp hg).2]
  raise x := by
    intro s a s' hg
    rw [(gives_raise.mp hg).2]
  andThen hx hf := by
    intro s b s' hg
    obtain ⟨a, t, hgx, hgf⟩ := gives_bind.mp hg
    exact (hx hgx).trans (hf hgx hgf)

end Still
end Composition

/-- What sequences and looking at the state keep, renaming the nets and samples of a value keeps. -/
theorem Renamer.traversal_keeps {P : ∀ α : Type, Run Renamer.State α → Prop} (h : Composes P)
    (hget : P Renamer.State get) (mapping : List (String × String)) :
    (Renamer.traversal mapping).Keeps P fun _ => True where
  toComposes := h
  arenas := h.map hget
  statement _ := h.pure none
  const _ _ := h.pure none
  net n := by
    cases n with
    | signal => exact h.pure none
    | clock d | reset d allow =>
      dsimp only [Renamer.traversal]
      split
      · exact h.pure none
      · exact h.map (h.raise _)
  initial := h.pure none
  sample {v clocks domain} _ := by
    refine ⟨fun _ _ => trivial, fun hv => h.bind hv fun v' => ?_⟩
    split
    · exact h.pure none
    · exact h.bind (h.map hget) fun σ => h.map (h.raise _)

namespace Delays

variable {a : Nat} {P : ∀ α : Type, Run State α → Prop} {p q : Value → Prop} {v : Value}

/-- A property of the steps of lowering samples: looking up, noting, issuing, and describing the register of a value of
kind `p`, as all are that can be sampled. -/
structure Keeps (a : Nat) (P : ∀ α : Type, Run State α → Prop) (p : Value → Prop) : Prop extends Composes P where
  get : P State get
  note : ∀ {f : State → State}, (∀ s, (f s).arenas = s.arenas) → P Unit (modify f)
  issue : ∀ spec, P _ (issue a spec)
  spec : ∀ {v}, p v → ∀ σ clocks domain, P _ (MonadExcept.ofExcept (registerSpec σ v clocks domain))
  sampled : ∀ {v}, v.isSampled = true → p v

namespace Keeps

variable (h : Keeps a P p)
include h

theorem lookup? (sample : Value) : P _ (lookup? sample) := h.map h.get

theorem register (hv : p v) (clocks : Nat) (domain : String) : P _ (register a v clocks domain) :=
  h.bind h.get fun _ => h.bind (h.spec hv _ _ _) fun spec => h.issue spec

theorem chain (sample : Value) (domain : String) (reg : SignalId) (prev : Value) :
    P _ (chain sample domain reg prev) :=
  h.bind (h.note fun _ => rfl) fun _ => h.map (h.note fun _ => rfl)

theorem delay (hv : p v) (domain : String) (n : Nat) : P _ (delay a v domain n) := by
  induction n with
  | zero =>
    refine h.bind (h.lookup? _) fun o => ?_
    cases o with
    | some out => exact h.pure out
    | none => exact h.map (h.note fun _ => rfl)
  | succ n ih =>
    refine h.bind (h.lookup? _) fun o => ?_
    cases o with
    | some out => exact h.pure out
    | none => exact h.bind (h.register hv _ _) fun _ => h.bind ih fun _ => h.chain _ _ _ _

theorem lowerSample (hv : p v) {clocks : Int} {domain : String} {inner : Run State (Option Value)}
    (hinner : P _ inner) : P _ (lowerSample a v clocks domain inner) := by
  refine h.bind (h.lookup? _) fun o => ?_
  cases o with
  | some => exact h.pure _
  | none =>
    refine h.bind hinner fun o => h.ite (h.map (h.note fun _ => rfl)) (h.ite (h.bind h.get fun s => h.raise (.error _)) ?_)
    refine h.bind (h.register hv _ _) fun reg => h.bind h.get fun s => h.andThen (h.raise _) fun hg => ?_
    -- What a further sample can be made of can be delayed.
    have hsampled : (o.getD v).isSampled = true := by
      have hmade := (gives_raise.mp hg).1
      unfold Value.mkSample at hmade
      split at hmade
      · cases hmade
      · rename_i hnot
        simpa using hnot
    exact h.bind (h.delay (h.sampled hsampled) _ _) fun prev => h.map (h.chain _ _ _ _)

theorem lowerInitial : P _ (lowerInitial a) := by
  refine h.bind h.get fun s => ?_
  cases s.delays.initial with
  | some => exact h.pure _
  | none => exact h.bind (h.issue _) fun _ => h.map (h.note fun _ => rfl)

theorem traversal
    (hq : ∀ {v clocks domain}, q (.sample v clocks domain) → p v ∧ ∀ u ∈ v.leaves, q u) : (traversal a).Keeps P q where
  toComposes := h.toComposes
  arenas := h.map h.get
  statement _ := h.pure none
  const _ _ := h.pure none
  net _ := h.pure none
  initial := h.lowerInitial
  sample hv := ⟨(hq hv).2, h.lowerSample (hq hv).1⟩

end Keeps
end Delays
end Rtl
