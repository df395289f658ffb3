import Mathlib
import Rtl.Proofs.Arenas
import Rtl.Proofs.Nets
import Rtl.Proofs.Traversals
import Rtl.Proofs.Tree

/-!
# Values over leaves, and what a traversal makes of them

A value is built over leaves when each of its leaves is of a given kind and each of its operators has the shape that
its operands give it now. A traversal that turns leaves of one kind into values over leaves of another, shape for
shape, does so with whole values: operators are rebuilt with the shapes they had. A traversal that leaves the state
alone at every leaf leaves it alone altogether.
-/
namespace Rtl

open List

variable {vs : List Value} {v : Value} {xs : List Statement}

namespace Value

theorem mem_readsAll {acc : NetSet} {n : Net} : n ∈ readsAll acc vs ↔ n ∈ acc ∨ ∃ v ∈ vs, n ∈ v.reads := by
  induction vs generalizing acc with
  | nil => simp [readsAll]
  | cons v vs ih =>
    rw [readsAll, ih, NetSet.mem_union]
    simp only [mem_cons, exists_eq_or_imp, or_assoc]

theorem mem_reads_iff {n : Net} (hv : ¬ v.IsLeaf) : n ∈ v.reads ↔ ∃ c ∈ v.operands, n ∈ c.reads := by
  cases v <;> simp_all [reads, operands, IsLeaf, mem_readsAll, or_assoc, or_and_right, exists_or, or_comm]

mutual

/-- The leaves of the value are of kind `p`, and its operators have the shapes that their operands give. -/
def Built (p : Value → Prop) (σ : Arenas) : Value → Prop
  | .const n s => p (.const n s)
  | .net n => p (.net n)
  | .unary op a s => Built p σ a ∧ op.shape (a.shape σ) = s
  | .binary op a b s => Built p σ a ∧ Built p σ b ∧ op.shape? (a.shape σ) (b.shape σ) = some s
  | .mux sel a b s => Built p σ sel ∧ Built p σ a ∧ Built p σ b ∧ (a.shape σ).promote (b.shape σ) = s
  | .slice v _ _ => Built p σ v
  | .part v offset _ _ => Built p σ v ∧ Built p σ offset
  | .cat parts => BuiltAll p σ parts
  | .repl v _ => Built p σ v
  | .proxy elems index => BuiltAll p σ elems ∧ Built p σ index
  | .sample v clocks domain => p (.sample v clocks domain)
  | .initial => p .initial

def BuiltAll (p : Value → Prop) (σ : Arenas) : List Value → Prop
  | [] => True
  | v :: vs => Built p σ v ∧ BuiltAll p σ vs

end

variable {p q : Value → Prop} {σ σ' : Arenas}

theorem builtAll_iff : BuiltAll p σ vs ↔ ∀ v ∈ vs, v.Built p σ := by
  induction vs with
  | nil => simp [BuiltAll]
  | cons v vs ih => rw [BuiltAll, ih, forall_mem_cons]

theorem built_of_isLeaf (hv : v.IsLeaf) : v.Built p σ ↔ p v := by
  cases v <;> first | exact Iff.rfl | exact hv.elim

/-- Kinds of leaves that stay of a kind, with their shapes, when the arenas change from `σ` to `σ'`. -/
def Lasting (p q : Value → Prop) (σ σ' : Arenas) : Prop :=
  ∀ v, v.IsLeaf → p v → q v ∧ v.shape σ' = v.shape σ

/-- A kind of leaves that stay of the kind, with their shapes, when the arenas of a state grow. -/
def Steady {S : Type} (view : S → Arenas) (p : Arenas → Value → Prop) : Prop :=
  ∀ {s t}, (view s).Extends (view t) → Lasting (p (view s)) (p (view t)) (view s) (view t)

theorem built_iff (hv : ¬ v.IsLeaf) : v.Built p σ ↔ (∀ c ∈ v.operands, c.Built p σ) ∧ v.Current σ := by
  cases v <;> simp_all [Built, operands, Current, IsLeaf, builtAll_iff, and_assoc, or_imp, forall_and]

/-- What holds of the leaves holds of the value. -/
theorem Built.lasting (h : Lasting p q σ σ') (hb : v.Built p σ) : v.Built q σ' ∧ v.shape σ' = v.shape σ := by
  induction v using operands_induct with
  | const | net | sample | initial => exact h _ trivial hb
  | compound v hv ih =>
    obtain ⟨hops, hcurrent⟩ := (built_iff hv).mp hb
    have hshapes : v.operands.map (shape σ') = v.operands.map (shape σ) :=
      map_congr_left fun c hc => (ih c hc (hops c hc)).2
    have hcurrent' := ((like_self hv).current_iff hshapes hcurrent).mpr rfl
    exact ⟨(built_iff hv).mpr ⟨fun c hc => (ih c hc (hops c hc)).1, hcurrent'⟩, (like_self hv).shape rfl hshapes⟩

end Value

namespace Statement

variable {x : Statement}

/-- Induction on a statement, with all statements of the arms of a switch at hand. -/
@[induction_eliminator]
theorem induct {P : Statement → Prop} (assign : ∀ lhs rhs, P (.assign lhs rhs))
    (switch : ∀ test arms, (∀ a ∈ arms, ∀ x ∈ a.2, P x) → P (.switch test arms))
    (property : ∀ kind test check enable, P (.property kind test check enable)) (x : Statement) : P x :=
  @Statement.rec P (fun arms => ∀ a ∈ arms, ∀ x ∈ a.2, P x) (fun a => ∀ x ∈ a.2, P x) (fun xs => ∀ x ∈ xs, P x)
    assign (fun test arms h => switch test arms h) property (fun _ h => nomatch h)
    (fun _ _ ha has _ h => (mem_cons.mp h).elim (fun e => e ▸ ha) (has _)) (fun _ _ h => h)
    (fun _ h => nomatch h) (fun _ _ hx hxs _ h => (mem_cons.mp h).elim (fun e => e ▸ hx) (hxs _)) x

mutual

/-- The values that stand in a statement. -/
def values : Statement → List Value
  | .assign lhs rhs => [lhs, rhs]
  | .switch test arms => test :: armsValues arms
  | .property _ test _ _ => [test]

def bodyValues : List Statement → List Value
  | [] => []
  | x :: rest => values x ++ bodyValues rest

def armsValues : List (List String × List Statement) → List Value
  | [] => []
  | (_, body) :: rest => bodyValues body ++ armsValues rest

end

theorem mem_bodyValues : v ∈ bodyValues xs ↔ ∃ x ∈ xs, v ∈ x.values := by
  induction xs with
  | nil => simp [bodyValues]
  | cons x xs ih => simp [bodyValues, ih]

theorem mem_armsValues {arms : List Arm} : v ∈ armsValues arms ↔ ∃ a ∈ arms, ∃ x ∈ a.2, v ∈ x.values := by
  induction arms with
  | nil => simp [armsValues]
  | cons a arms ih => simp [armsValues, ih, mem_bodyValues]

mutual

/-- The values of the statement are built over leaves of kind `p`, and its patterns are as wide as what they are
matched against. -/
def Built (p : Value → Prop) (σ : Arenas) : Statement → Prop
  | .assign lhs rhs => lhs.Built p σ ∧ rhs.Built p σ
  | .switch test arms => test.Built p σ ∧ ArmsBuilt p σ (test.width σ) arms
  | .property _ test _ _ => test.Built p σ

def BodyBuilt (p : Value → Prop) (σ : Arenas) : List Statement → Prop
  | [] => True
  | x :: rest => Built p σ x ∧ BodyBuilt p σ rest

def ArmsBuilt (p : Value → Prop) (σ : Arenas) (width : Int) : List (List String × List Statement) → Prop
  | [] => True
  | (patterns, body) :: rest =>
    (∀ t ∈ patterns, (t.utf8ByteSize : Int) = width) ∧ BodyBuilt p σ body ∧ ArmsBuilt p σ width rest

end

variable {p q : Value → Prop} {σ σ' : Arenas}

theorem bodyBuilt_iff : BodyBuilt p σ xs ↔ ∀ x ∈ xs, x.Built p σ := by
  induction xs with
  | nil => simp [BodyBuilt]
  | cons x xs ih => rw [BodyBuilt, ih, forall_mem_cons]

theorem armsBuilt_iff {width : Int} {arms : List Arm} :
    ArmsBuilt p σ width arms ↔
      ∀ a ∈ arms, (∀ t ∈ a.1, (t.utf8ByteSize : Int) = width) ∧ ∀ x ∈ a.2, x.Built p σ := by
  induction arms with
  | nil => simp [ArmsBuilt]
  | cons a arms ih =>
    obtain ⟨patterns, body⟩ := a
    rw [ArmsBuilt, ih, bodyBuilt_iff, forall_mem_cons, and_assoc]

/-- What holds of the leaves holds of the statement. -/
theorem Built.lasting (h : Value.Lasting p q σ σ') (hx : x.Built p σ) : x.Built q σ' := by
  induction x with
  | assign => exact ⟨(hx.1.lasting h).1, (hx.2.lasting h).1⟩
  | switch test arms ih =>
    obtain ⟨htest, hshape⟩ := hx.1.lasting h
    have harms := armsBuilt_iff.mp hx.2
    refine ⟨htest, armsBuilt_iff.mpr fun a ha => ⟨?_, fun x hm => ih a ha x hm ((harms a ha).2 x hm)⟩⟩
    rw [Value.width, hshape]
    exact (harms a ha).1
  | property => exact (Value.Built.lasting h hx).1

theorem Built.value (hx : x.Built p σ) (hv : v ∈ x.values) : v.Built p σ := by
  induction x with
  | assign =>
    simp only [values, mem_cons, not_mem_nil, or_false] at hv
    rcases hv with rfl | rfl
    · exact hx.1
    · exact hx.2
  | switch test arms ih =>
    rcases mem_cons.mp hv with rfl | hv
    · exact hx.1
    · obtain ⟨a, ha, x, hm, hv⟩ := mem_armsValues.mp hv
      exact ih a ha x hm ((armsBuilt_iff.mp hx.2 a ha).2 x hm) hv
  | property => exact mem_singleton.mp hv ▸ hx

end Statement

namespace Statement

variable {x y : Statement} {xs ys : List Statement} {f g : Value → Value}

mutual

/-- The statement with the function applied to each value in it. -/
def mapValues (f : Value → Value) : Statement → Statement
  | .assign lhs rhs => .assign (f lhs) (f rhs)
  | .switch test arms => .switch (f test) (armsMapValues f arms)
  | .property kind test check enable => .property kind (f test) check enable

def bodyMapValues (f : Value → Value) : List Statement → List Statement
  | [] => []
  | x :: rest => mapValues f x :: bodyMapValues f rest

def armsMapValues (f : Value → Value) : List (List String × List Statement) → List (List String × List Statement)
  | [] => []
  | (patterns, body) :: rest => (patterns, bodyMapValues f body) :: armsMapValues f rest

end

theorem bodyMapValues_eq_map (xs : List Statement) : bodyMapValues f xs = xs.map (mapValues f) := by
  induction xs with
  | nil => rfl
  | cons x xs ih => rw [bodyMapValues, ih, map_cons]

theorem armsMapValues_eq_map (arms : List Arm) :
    armsMapValues f arms = arms.map fun a => (a.1, a.2.map (mapValues f)) := by
  induction arms with
  | nil => rfl
  | cons a arms ih => rw [armsMapValues, ih, bodyMapValues_eq_map, map_cons]

theorem mapValues_id (x : Statement) : x.mapValues id = x := by
  induction x with
  | assign | property => rfl
  | switch test arms ih =>
    rw [mapValues, armsMapValues_eq_map]
    refine congrArg (switch test) ((map_congr_left fun a ha => ?_).trans (map_id arms))
    rw [map_congr_left (ih a ha), map_id']
    rfl

theorem mapValues_mapValues {k : Value → Value} (h : ∀ v ∈ x.values, g (f v) = k v) :
    (x.mapValues f).mapValues g = x.mapValues k := by
  induction x with
  | assign lhs rhs => simp [mapValues, h lhs (by simp [values]), h rhs (by simp [values])]
  | property kind test => simp [mapValues, h test (by simp [values])]
  | switch test arms ih =>
    obtain ⟨htest, harms⟩ := forall_mem_cons.mp h
    simp only [mapValues, armsMapValues_eq_map, htest, map_map, switch.injEq, true_and]
    refine map_congr_left fun a ha => Prod.ext rfl ((map_map ..).trans (map_congr_left fun x hx => ?_))
    exact ih a ha x hx fun v hv => harms v (mem_armsValues.mpr ⟨a, ha, x, hx, hv⟩)

theorem bodyValues_eq (xs : List Statement) : bodyValues xs = xs.flatMap values := by
  induction xs with
  | nil => rfl
  | cons x xs ih => rw [bodyValues, ih, flatMap_cons]

theorem armsValues_eq (arms : List Arm) : armsValues arms = arms.flatMap fun a => a.2.flatMap values := by
  induction arms with
  | nil => rfl
  | cons a arms ih => rw [armsValues, ih, bodyValues_eq, flatMap_cons]

theorem values_mapValues (x : Statement) : (x.mapValues f).values = x.values.map f := by
  induction x with
  | assign | property => rfl
  | switch test arms ih =>
    simp only [mapValues, values, armsMapValues_eq_map, armsValues_eq, map_cons, map_flatMap, flatMap_map]
    refine congrArg _ (flatMap_congr fun a ha => flatMap_congr fun x hx => ih a ha x hx)

section Pure

variable {r : Traversal (Except Failure)} (hr : ∀ x, r.statement x = .ok none)
include hr

omit hr in
theorem traverseAll_eq_map (h : ∀ x ∈ xs, x.traverse r = .ok [x.mapValues f]) :
    traverseAll r xs = .ok (xs.map (mapValues f)) := by
  induction xs with
  | nil => rfl
  | cons x xs ih =>
    obtain ⟨hx, hxs⟩ := forall_mem_cons.mp h
    exact except_bind_eq_ok.mpr ⟨_, hx, except_bind_pure_eq_ok.mpr ⟨_, ih hxs, rfl⟩⟩

/-- A traversal without effects and without use for whole statements replaces each value by what becomes of it. -/
theorem traverse_eq_mapValues (h : ∀ v ∈ x.values, v.traversed r = .ok (f v)) :
    x.traverse r = .ok [x.mapValues f] := by
  induction x with
  | assign lhs rhs =>
    refine except_bind_eq_ok.mpr ⟨none, hr _, except_bind_eq_ok.mpr ⟨_, h lhs (by simp [values]), ?_⟩⟩
    exact except_bind_pure_eq_ok.mpr ⟨_, h rhs (by simp [values]), rfl⟩
  | property kind test =>
    refine except_bind_eq_ok.mpr ⟨none, hr _, except_bind_pure_eq_ok.mpr ⟨_, h test (by simp [values]), rfl⟩⟩
  | switch test arms ih =>
    obtain ⟨htest, harms⟩ := forall_mem_cons.mp h
    refine except_bind_eq_ok.mpr ⟨none, hr _, except_bind_eq_ok.mpr ⟨_, htest, ?_⟩⟩
    refine except_bind_pure_eq_ok.mpr ⟨_, ?_, rfl⟩
    clear htest h
    induction arms with
    | nil => rfl
    | cons a arms iharms =>
      obtain ⟨patterns, body⟩ := a
      obtain ⟨iha, ihrest⟩ := forall_mem_cons.mp ih
      obtain ⟨hbody, hrest⟩ := forall_mem_append.mp harms
      refine except_bind_eq_ok.mpr ⟨_, traverseAll_eq_map fun x hx => iha x hx fun v hv => ?_, ?_⟩
      · exact hbody v (mem_bodyValues.mpr ⟨x, hx, hv⟩)
      · rw [← bodyMapValues_eq_map]
        exact except_bind_pure_eq_ok.mpr ⟨_, iharms ihrest hrest, rfl⟩

omit hr in
theorem statement_none (hr : ∀ x, r.statement x = .ok none) {s t : Unit} {o : Option (List Statement)}
    (hg : Gives (r.statement x) s o t) : o = none ∧ s = t :=
  ⟨Except.ok.inj ((ok_of_gives hg).symm.trans (hr x)), rfl⟩

theorem exists_traversed_of (ih : ∀ x ∈ xs, ∀ {ys}, x.traverse r = .ok ys → ∀ v ∈ x.values, ∃ w, v.traversed r = .ok w)
    (h : traverseAll r xs = .ok ys) : ∀ v ∈ bodyValues xs, ∃ w, v.traversed r = .ok w := by
  intro v hv
  obtain ⟨x, hx, hv⟩ := mem_bodyValues.mp hv
  have hthreads := gives_statements (statement_none hr) (gives_of_ok h)
  obtain ⟨y, -, hy⟩ := forall₂_mem_left (hthreads.forall₂ fun _ _ _ _ _ hg => hg) hx
  exact ih x hx hy v hv

theorem exists_traversed (h : x.traverse r = .ok ys) : ∀ v ∈ x.values, ∃ w, v.traversed r = .ok w := by
  induction x generalizing ys with
  | assign =>
    obtain ⟨lhs', s1, rhs', hl, hr', rfl⟩ := gives_assign (statement_none hr) (gives_of_ok h)
    simpa [values] using ⟨⟨lhs', hl⟩, rhs', hr'⟩
  | property =>
    obtain ⟨test', ht, rfl⟩ := gives_property (statement_none hr) (gives_of_ok h)
    simpa [values] using ⟨test', ht⟩
  | switch test arms ih =>
    obtain ⟨test', s1, bs, ht, hbs, rfl⟩ := gives_switch (statement_none hr) (gives_of_ok h)
    refine forall_mem_cons.mpr ⟨⟨test', ht⟩, fun v hv => ?_⟩
    obtain ⟨a, ha, x, hx, hv⟩ := mem_armsValues.mp hv
    obtain ⟨b, -, hb⟩ := forall₂_mem_left ((gives_arms.mp hbs).forall₂ fun _ _ _ _ _ hg => hg.2) ha
    exact exists_traversed_of hr (ih a ha) hb v (mem_bodyValues.mpr ⟨x, hx, hv⟩)

/-- If it gives something, it does so for each of the values. What the function is elsewhere is up to choice. -/
theorem traverseAll_eq_ok (g : Value → Value) (h : traverseAll r xs = .ok ys) :
    ∃ f, ys = xs.map (mapValues f) ∧ (∀ v ∈ bodyValues xs, v.traversed r = .ok (f v)) ∧
      ∀ v, v.traversed r = .ok (f v) ∨ f v = g v := by
  let f (v : Value) : Value := (v.traversed r).toOption.getD (g v)
  have hf {v w : Value} (h : v.traversed r = .ok w) : v.traversed r = .ok (f v) := by
    simp only [f, h]
    rfl
  have hvalues : ∀ v ∈ bodyValues xs, v.traversed r = .ok (f v) := fun v hv =>
    (exists_traversed_of hr (fun _ _ => exists_traversed hr) h v hv).elim fun _ => hf
  have hmap := traverseAll_eq_map fun x hx => traverse_eq_mapValues hr fun v hv =>
    hvalues v (mem_bodyValues.mpr ⟨x, hx, hv⟩)
  refine ⟨f, Except.ok.inj (h.symm.trans hmap), hvalues, fun v => ?_⟩
  cases hv : v.traversed r with
  | ok => exact .inl (hv ▸ hf hv)
  | error => exact .inr (by simp only [f, hv]; rfl)

/-- What becomes of a statement is known from what becomes of its values. -/
theorem traverse_congr {r' : Traversal (Except Failure)} (hr' : ∀ x, r'.statement x = .ok none)
    (h : ∀ v ∈ x.values, ∀ w, v.traversed r = .ok w → v.traversed r' = .ok w) (hx : x.traverse r = .ok ys) :
    x.traverse r' = .ok ys := by
  have hvalues := exists_traversed hr hx
  choose! f hf using hvalues
  rw [← hx, traverse_eq_mapValues hr hf, traverse_eq_mapValues hr' fun v hv => h v hv _ (hf v hv)]

end Pure

end Statement

section Traversal

variable {m : Type → Type} [Monad m] [MonadExceptOf Failure m] {S : Type} [Outcome m S] {r : Traversal m} {s t : S}

/-- What a traversal makes of values: while `I` holds, a value of which `P` is known becomes one that `Q` relates to it,
and what is known of values stays true as the state moves on along `G`. This has to be said of leaves, and of constructs
whose operands are done. -/
structure Lifts (r : Traversal m) (I : S → Prop) (G : S → S → Prop) (P : S → Value → Prop)
    (Q : S → Value → Value → Prop) : Prop where
  refl : ∀ s, G s s
  trans : ∀ {s t u}, G s t → G t u → G s u
  before : ∀ {s t v}, G s t → P s v → P t v
  after : ∀ {s t v w}, G s t → Q s v w → Q t v w
  parts : ∀ {s v}, ¬ v.IsLeaf → P s v → ∀ c ∈ v.operands, P s c
  leaf : ∀ {v s o t}, v.IsLeaf → I s → P s v → Gives (v.traverse r) s o t → I t ∧ G s t ∧ Q t v (o.getD v)
  whole : ∀ {v s bs t o}, ¬ v.IsLeaf → P s v → Threads (Value.Becomes r) v.operands s bs t →
    v.Finishes r bs t o t → List.Forall₂ (Q t) v.operands (o.getD v).operands → Q t v (o.getD v)
  arenas : ∀ {s σ t}, Gives r.arenas s σ t → s = t
  statement : ∀ {x s o t}, Gives (r.statement x) s o t → o = none ∧ s = t

/-- Statements of one form are related by `X` if their values are related by `Q`. -/
structure Forms (G : S → S → Prop) (Q : S → Value → Value → Prop) (X : S → Statement → Statement → Prop) : Prop where
  after : ∀ {s t x y}, G s t → X s x y → X t x y
  assign : ∀ {s lhs lhs' rhs rhs'}, Q s lhs lhs' → Q s rhs rhs' → X s (.assign lhs rhs) (.assign lhs' rhs')
  switch : ∀ {s test test' as bs}, Q s test test' →
    List.Forall₂ (fun a b => b.1 = a.1 ∧ List.Forall₂ (X s) a.2 b.2) as bs → X s (.switch test as) (.switch test' bs)
  property : ∀ {s kind test test' check enable}, Q s test test' →
    X s (.property kind test check enable) (.property kind test' check enable)

namespace Lifts

variable {I : S → Prop} {G : S → S → Prop} {P : S → Value → Prop} {Q : S → Value → Value → Prop}
variable {X : S → Statement → Statement → Prop} {ys : List Statement}

theorem value (h : Lifts r I G P Q) {o : Option Value} (hI : I s) (hP : P s v) (hg : Gives (v.traverse r) s o t) :
    I t ∧ G s t ∧ Q t v (o.getD v) := by
  induction v using Value.operands_induct generalizing s o t with
  | const | net | sample | initial => exact h.leaf trivial hI hP hg
  | compound v hv ih =>
    obtain ⟨bs, s1, hbs, hf⟩ := (Value.gives_compound hv).mp hg
    obtain rfl := hf.same h.arenas
    have hrun := hbs.carry (p := P) (q := fun u v b => Q u v b.1) h.refl h.trans h.before h.after ?_ hI (h.parts hv hP)
    · refine ⟨hrun.1, hrun.2.1, h.whole hv hP hbs hf ?_⟩
      rw [(hf.form hv hbs).2, forall₂_map_right_iff]
      exact hrun.2.2
    · rintro c hc s b t hI hP ⟨o, hg, rfl⟩
      exact ih c hc hI hP hg

theorem traversed (h : Lifts r I G P Q) {w : Value} (hI : I s) (hP : P s v) (hg : Gives (v.traversed r) s w t) :
    I t ∧ G s t ∧ Q t v w := by
  obtain ⟨o, hgo, rfl⟩ := gives_bind_pure.mp hg
  exact h.value hI hP hgo

/-- What becomes of this statement. -/
def Over (r : Traversal m) (I : S → Prop) (G : S → S → Prop) (P : S → Value → Prop)
    (X : S → Statement → Statement → Prop) (x : Statement) : Prop :=
  ∀ {s y t}, I s → (∀ v ∈ x.values, P s v) → Gives (x.traverse r) s [y] t → I t ∧ G s t ∧ X t x y

variable (h : Lifts r I G P Q)
include h

theorem body (hX : Forms G Q X) (ih : ∀ x ∈ xs, Over r I G P X x) (hI : I s)
    (hP : ∀ x ∈ xs, ∀ v ∈ x.values, P s v) (hg : Gives (Statement.traverseAll r xs) s ys t) :
    I t ∧ G s t ∧ List.Forall₂ (X t) xs ys :=
  (Statement.gives_statements h.statement hg).carry (p := fun u (x : Statement) => ∀ v ∈ x.values, P u v) h.refl h.trans
    (fun hG hP v hv => h.before hG (hP v hv)) hX.after (fun x hx => ih x hx) hI hP

theorem arms (hX : Forms G Q X) {as bs : List Arm} (ih : ∀ a ∈ as, ∀ x ∈ a.2, Over r I G P X x)
    (hI : I s) (hP : ∀ a ∈ as, ∀ x ∈ a.2, ∀ v ∈ x.values, P s v) (hg : Gives (Statement.traverseArms r as) s bs t) :
    I t ∧ G s t ∧ List.Forall₂ (fun a b => b.1 = a.1 ∧ List.Forall₂ (X t) a.2 b.2) as bs := by
  refine (Statement.gives_arms.mp hg).carry (p := fun u (a : Arm) => ∀ x ∈ a.2, ∀ v ∈ x.values, P u v)
    (q := fun u (a b : Arm) => b.1 = a.1 ∧ List.Forall₂ (X u) a.2 b.2) h.refl h.trans
    (fun hG hP x hx v hv => h.before hG (hP x hx v hv)) (fun hG hab => ⟨hab.1, hab.2.imp fun _ _ => hX.after hG⟩) ?_ hI hP
  rintro a ha s b t hI hP ⟨hpatterns, hg⟩
  obtain ⟨hI1, hG1, hbody⟩ := h.body hX (ih a ha) hI hP hg
  exact ⟨hI1, hG1, hpatterns, hbody⟩

theorem ofStatement (hX : Forms G Q X) (x : Statement) : Over r I G P X x := by
  induction x with
  | assign lhs rhs =>
    intro s y t hI hP hg
    obtain ⟨lhs', s1, rhs', hgl, hgr, hy⟩ := Statement.gives_assign h.statement hg
    cases hy
    obtain ⟨hI1, hG1, hl⟩ := h.traversed hI (hP lhs (by simp [Statement.values])) hgl
    obtain ⟨hI2, hG2, hr⟩ := h.traversed hI1 (h.before hG1 (hP rhs (by simp [Statement.values]))) hgr
    exact ⟨hI2, h.trans hG1 hG2, hX.assign (h.after hG2 hl) hr⟩
  | switch test as ih =>
    intro s y t hI hP hg
    obtain ⟨htest, harms⟩ := forall_mem_cons.mp hP
    obtain ⟨test', s1, as', hgt, hga, hy⟩ := Statement.gives_switch h.statement hg
    cases hy
    obtain ⟨hI1, hG1, ht⟩ := h.traversed hI htest hgt
    obtain ⟨hI2, hG2, has⟩ := h.arms hX ih hI1
      (fun a ha x hx v hv => h.before hG1 (harms v (Statement.mem_armsValues.mpr ⟨a, ha, x, hx, hv⟩))) hga
    exact ⟨hI2, h.trans hG1 hG2, hX.switch (h.after hG2 ht) has⟩
  | property kind test =>
    intro s y t hI hP hg
    obtain ⟨test', hgt, hy⟩ := Statement.gives_property h.statement hg
    cases hy
    obtain ⟨hI1, hG1, ht⟩ := h.traversed hI (hP test (by simp [Statement.values])) hgt
    exact ⟨hI1, hG1, hX.property ht⟩

/-- What a traversal makes of values is all that has to be known of what it makes of statements. -/
theorem statements (hX : Forms G Q X) (hI : I s) (hP : ∀ x ∈ xs, ∀ v ∈ x.values, P s v)
    (hg : Gives (Statement.traverseAll r xs) s ys t) : I t ∧ G s t ∧ List.Forall₂ (X t) xs ys :=
  h.body hX (fun x _ => h.ofStatement hX x) hI hP hg

theorem cell {c c' : Option Instance} (hI : I s)
    (hP : ∀ i, c = some i → ∀ x ∈ i.ports, P s x.value) (hg : Gives (Body.traverseCell r c) s c' t) :
    I t ∧ G s t ∧ (c = none ∧ c' = none ∨ ∃ i ps, c = some i ∧ c' = some { i with ports := ps } ∧
      List.Forall₂ (fun x x' => x'.name = x.name ∧ x'.dir = x.dir ∧ Q t x.value x'.value) i.ports ps) := by
  obtain ⟨rfl, rfl, rfl⟩ | ⟨i, ps, rfl, hgp, rfl⟩ := Body.gives_cell.mp hg
  · exact ⟨hI, h.refl _, Or.inl ⟨rfl, rfl⟩⟩
  · have hports := (Body.gives_bindings.mp hgp).carry (I := I) (p := fun u x => P u x.value)
      (q := fun u (x x' : Binding) => x'.name = x.name ∧ x'.dir = x.dir ∧ Q u x.value x'.value) h.refl h.trans
      h.before (fun hG hx => ⟨hx.1, hx.2.1, h.after hG hx.2.2⟩) ?_ hI (hP i rfl)
    · exact ⟨hports.1, hports.2.1, Or.inr ⟨i, ps, rfl, rfl, hports.2.2⟩⟩
    · rintro x - s x' t hI hP ⟨v, hgv, rfl⟩
      obtain ⟨hI1, hG1, hv⟩ := h.traversed hI hP hgv
      exact ⟨hI1, hG1, rfl, rfl, hv⟩

end Lifts

/-- What becomes of a value between two states: the invariant `I` still holds, the arenas have grown, and the new value
is over leaves of kind `q` with the shape of the old. -/
structure Carried (view : S → Arenas) (I : S → Prop) (q : Arenas → Value → Prop) (s t : S) (v v' : Value) :
    Prop where
  inv : I t
  rel : (view s).Extends (view t)
  built : v'.Built (q (view t)) (view t)
  shape : v'.shape (view t) = v.shape (view s)

/-- A traversal that carries leaves of kind `p` over to values over leaves of kind `q`. -/
structure Carries (r : Traversal m) (view : S → Arenas) (I : S → Prop) (p q : Arenas → Value → Prop) : Prop where
  source : Value.Steady view p
  target : Value.Steady view q
  arenas : ∀ {s σ t}, Gives r.arenas s σ t → view s = σ ∧ s = t
  statement : ∀ {x s o t}, Gives (r.statement x) s o t → o = none ∧ s = t
  leaf : ∀ {v s o t}, v.IsLeaf → I s → p (view s) v → Gives (v.traverse r) s o t →
    Carried view I q s t v (o.getD v)

namespace Carries

variable {view : S → Arenas} {I : S → Prop} {p q : Arenas → Value → Prop}

/-- Whole values are carried over: they are over leaves of the new kind, with the shapes they had at the start. -/
theorem lifts (h : Carries r view I p q) (s0 : S) : Lifts r I (fun s t => (view s).Extends (view t))
    (fun s v => (view s0).Extends (view s) ∧ v.Built (p (view s0)) (view s0))
    fun t v w => w.Built (q (view t)) (view t) ∧ w.shape (view t) = v.shape (view s0) where
  refl _ := .refl _
  trans := .trans
  before hR hv := ⟨hv.1.trans hR, hv.2⟩
  after hR hw := by
    obtain ⟨hb, hs⟩ := hw.1.lasting (h.target hR)
    exact ⟨hb, hs.trans hw.2⟩
  parts hv hb c hc := ⟨hb.1, ((Value.built_iff hv).mp hb.2).1 c hc⟩
  leaf hleaf hI hb hg := by
    obtain ⟨hb', hs⟩ := hb.2.lasting (h.source hb.1)
    have hv := h.leaf hleaf hI ((Value.built_of_isLeaf hleaf).mp hb') hg
    exact ⟨hv.inv, hv.rel, hv.built, hv.shape.trans hs⟩
  whole {v s bs t o} hv hb hbs hf hall := by
    obtain ⟨-, hcurrent⟩ := (Value.built_iff hv).mp hb.2
    obtain ⟨hlike, hform⟩ := hf.form hv hbs
    have hshapes : (o.getD v).operands.map (Value.shape (view t)) = v.operands.map (Value.shape (view s0)) := by
      rw [← forall₂_eq_eq_eq, forall₂_map_left_iff, forall₂_map_right_iff]
      exact hall.flip.imp fun _ _ h => h.2
    have hnote := hf.note_eq hv hbs (fun hσ => (h.arenas hσ).1.symm) (hform ▸ hshapes) hcurrent
    refine ⟨(Value.built_iff hlike.not_isLeaf).mpr ⟨fun c hc => ?_, (hlike.current_iff hshapes hcurrent).mpr hnote⟩,
      hlike.shape hnote hshapes⟩
    obtain ⟨v, -, hw⟩ := forall₂_mem_right hall hc
    exact hw.1
  arenas hσ := (h.arenas hσ).2
  statement := h.statement

theorem forms (h : Carries r view I p q) (s0 : S) : Forms (fun s t => (view s).Extends (view t))
    (fun t v w => w.Built (q (view t)) (view t) ∧ w.shape (view t) = v.shape (view s0))
    fun t x y => x.Built (p (view s0)) (view s0) → y.Built (q (view t)) (view t) where
  after hR hxy hx := (hxy hx).lasting (h.target hR)
  assign hl hr _ := ⟨hl.1, hr.1⟩
  switch ht has hx := by
    refine ⟨ht.1, Statement.armsBuilt_iff.mpr fun b hb => ?_⟩
    obtain ⟨a, ha, hpatterns, hbody⟩ := forall₂_mem_right has hb
    obtain ⟨hfit, hbuilt⟩ := Statement.armsBuilt_iff.mp hx.2 a ha
    -- The test keeps its width, so the patterns still fit.
    rw [Value.width, ht.2, hpatterns]
    refine ⟨hfit, fun y hy => ?_⟩
    obtain ⟨x, hm, hxy⟩ := forall₂_mem_right hbody hy
    exact hxy (hbuilt x hm)
  property ht _ := ht.1

theorem statements (h : Carries r view I p q) {ys : List Statement} (hI : I s)
    (hx : ∀ x ∈ xs, x.Built (p (view s)) (view s)) (hg : Gives (Statement.traverseAll r xs) s ys t) :
    I t ∧ (view s).Extends (view t) ∧ ∀ y ∈ ys, y.Built (q (view t)) (view t) := by
  obtain ⟨ht, hR, hall⟩ := (h.lifts s).statements (h.forms s) hI
    (fun x hm v hv => ⟨.refl _, (hx x hm).value hv⟩) hg
  refine ⟨ht, hR, fun y hy => ?_⟩
  obtain ⟨x, hm, hxy⟩ := forall₂_mem_right hall hy
  exact hxy (hx x hm)

end Carries
end Traversal
end Rtl
