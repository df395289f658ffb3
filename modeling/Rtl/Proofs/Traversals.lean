import Mathlib
import Rtl.Proofs.Compounds
import Rtl.Proofs.Outcome

/-!
# What a traversal did, part by part

A traversal goes through values, statements, bodies and trees from left to right. If it gives a result, its parts gave
theirs, each from the state that the one before it left. Here this is said once for each construct, and once for lists:
what one element keeps and what becomes of it is enough to know what a whole list keeps and what becomes of each of its
elements in the end.
-/
namespace Rtl

open List

/-- Elements done one after the other, each from the state that the one before it left. -/
inductive Threads {S α β : Type} (R : α → S → β → S → Prop) : List α → S → List β → S → Prop
  | nil {s : S} : Threads R [] s [] s
  | cons {a : α} {as : List α} {b : β} {bs : List β} {s t u : S} (head : R a s b t) (tail : Threads R as t bs u) :
    Threads R (a :: as) s (b :: bs) u

namespace Threads

variable {S α β : Type} {R : α → S → β → S → Prop} {as : List α} {bs : List β} {s t : S}
variable {I : S → Prop}

theorem nil_iff : Threads R [] s bs t ↔ bs = [] ∧ s = t := by
  constructor
  · intro h
    cases h
    exact ⟨rfl, rfl⟩
  · rintro ⟨rfl, rfl⟩
    exact .nil

theorem cons_iff {a : α} : Threads R (a :: as) s bs t ↔ ∃ b u cs, R a s b u ∧ Threads R as u cs t ∧ bs = b :: cs := by
  constructor
  · intro h
    cases h with
    | cons head tail => exact ⟨_, _, _, head, tail, rfl⟩
  · rintro ⟨b, u, cs, head, tail, rfl⟩
    exact .cons head tail

theorem append_iff {as' : List α} :
    Threads R (as ++ as') s bs t ↔ ∃ bs1 u bs2, Threads R as s bs1 u ∧ Threads R as' u bs2 t ∧ bs = bs1 ++ bs2 := by
  induction as generalizing s bs with
  | nil => simp [nil_iff]
  | cons a as ih =>
    simp only [cons_append, cons_iff, ih]
    constructor
    · rintro ⟨b, u, _, hb, ⟨bs1, u', bs2, h1, h2, rfl⟩, rfl⟩
      exact ⟨b :: bs1, u', bs2, ⟨b, u, bs1, hb, h1, rfl⟩, h2, rfl⟩
    · rintro ⟨_, u', bs2, ⟨b, u, bs1, hb, h1, rfl⟩, h2, rfl⟩
      exact ⟨b, u, bs1 ++ bs2, hb, ⟨bs1, u', bs2, h1, h2, rfl⟩, rfl⟩

/-- Along a list `I` is kept and the states grow along `G`. What is required of an element is still true when its turn
comes, and what became of it stays true, so the end of the list knows what became of all. -/
theorem carry {G : S → S → Prop} {p : S → α → Prop} {q : S → α → β → Prop} (refl : ∀ s, G s s)
    (trans : ∀ {s t u}, G s t → G t u → G s u) (hp : ∀ {s t a}, G s t → p s a → p t a)
    (hq : ∀ {s t a b}, G s t → q s a b → q t a b) (h : Threads R as s bs t)
    (step : ∀ a ∈ as, ∀ {s b t}, I s → p s a → R a s b t → I t ∧ G s t ∧ q t a b) (hs : I s) (has : ∀ a ∈ as, p s a) :
    I t ∧ G s t ∧ List.Forall₂ (q t) as bs := by
  induction h with
  | nil => exact ⟨hs, refl _, .nil⟩
  | cons head tail ih =>
    obtain ⟨hstep, hsteps⟩ := forall_mem_cons.mp step
    obtain ⟨ha, has⟩ := forall_mem_cons.mp has
    obtain ⟨ht, hG, hab⟩ := hstep hs ha head
    obtain ⟨hu, hG', hrest⟩ := ih hsteps ht fun a ha => hp hG (has a ha)
    exact ⟨hu, trans hG hG', .cons (hq hG' hab) hrest⟩

theorem forall₂ {Q : α → β → Prop} (h : Threads R as s bs t) (step : ∀ a ∈ as, ∀ {s b t}, R a s b t → Q a b) :
    List.Forall₂ Q as bs :=
  (h.carry (I := fun _ => True) (G := fun _ _ => True) (p := fun _ _ => True) (q := fun _ => Q) (fun _ => trivial)
    (fun _ _ => trivial) (fun _ h => h) (fun _ h => h) (fun a ha _ _ _ _ _ h => ⟨trivial, trivial, step a ha h⟩) trivial
    fun _ _ => trivial).2.2

theorem imp {R' : α → S → β → S → Prop} (h : Threads R as s bs t)
    (step : ∀ a ∈ as, ∀ {s b t}, R a s b t → R' a s b t) : Threads R' as s bs t := by
  induction h with
  | nil => exact .nil
  | cons head tail ih =>
    obtain ⟨hstep, hsteps⟩ := forall_mem_cons.mp step
    exact .cons (hstep head) (ih hsteps)

theorem exists_of (step : ∀ a ∈ as, ∀ s, I s → ∃ b t, R a s b t ∧ I t) (hs : I s) :
    ∃ bs t, Threads R as s bs t ∧ I t := by
  induction as generalizing s with
  | nil => exact ⟨[], s, .nil, hs⟩
  | cons a as ih =>
    obtain ⟨hstep, hsteps⟩ := forall_mem_cons.mp step
    obtain ⟨b, t, hb, ht⟩ := hstep s hs
    obtain ⟨bs, u, hbs, hu⟩ := ih hsteps ht
    exact ⟨b :: bs, u, .cons hb hbs, hu⟩

theorem length_eq (h : Threads R as s bs t) : bs.length = as.length :=
  (h.forall₂ (Q := fun _ _ => True) fun _ _ _ _ _ _ => trivial).length_eq.symm

end Threads

/-- A whole of two parts: kept when both parts are, and made again otherwise. -/
def rebuilt {α β γ : Type} (c : α → β → γ) (x : α) (y : β) (ox : Option α) (oy : Option β) : Option γ :=
  if ox.isNone && oy.isNone then none else some (c (ox.getD x) (oy.getD y))

section Rebuilt

variable {α β γ : Type} {c : α → β → γ} {x : α} {y : β} {ox : Option α} {oy : Option β}

theorem map_getD {f : α → γ} : (ox.map f).getD (f x) = f (ox.getD x) := by
  cases ox <;> rfl

end Rebuilt

section Traversal

variable {m : Type → Type} [Monad m] [MonadExceptOf Failure m] {S : Type} [Outcome m S] {r : Traversal m} {s t : S}
variable {v : Value}

namespace Value

variable {d : String} {o : Option (List Value)}

theorem mkBinary_eq_ok {σ : Arenas} {op : BinaryOp} {a b : Value} :
    mkBinary σ op a b = .ok v ↔ ∃ sh, op.shape? (a.shape σ) (b.shape σ) = some sh ∧ v = .binary op a b sh := by
  rw [mkBinary]
  cases op.shape? (a.shape σ) (b.shape σ) <;> simp [eq_comm]

theorem mkClock_eq_ok : mkClock d = .ok v ↔ d ≠ combDomain ∧ v = .net (.clock d) := by
  rw [mkClock]
  split <;> simp [*, eq_comm]

theorem mkReset_eq_ok {allow : Bool} : mkReset d allow = .ok v ↔ d ≠ combDomain ∧ v = .net (.reset d allow) := by
  rw [mkReset]
  split <;> simp [*, eq_comm]

variable {vs : List Value}

/-- Two parts one after the other, and the whole of them. -/
theorem gives_rebuilt {α β γ : Type} {x : m (Option α)} {y : m (Option β)} {c : α → β → γ} {a : α} {b : β}
    {o : Option γ} : Gives (do
      let a' ← x
      let b' ← y
      if a'.isNone && b'.isNone then pure none else return some (c (a'.getD a) (b'.getD b))) s o t ↔
    ∃ oa s1 ob, Gives x s oa s1 ∧ Gives y s1 ob t ∧ o = rebuilt c a b oa ob := by
  have hwhole : ∀ (oa : Option α) (ob : Option β), (if (oa.isNone && ob.isNone) = true then (pure none : m (Option γ))
      else pure (some (c (oa.getD a) (ob.getD b)))) = pure (rebuilt c a b oa ob) := by
    intro oa ob
    rw [rebuilt]
    split <;> rfl
  simp only [hwhole, gives_bind, gives_pure]
  constructor
  · rintro ⟨oa, s1, hx, ob, s2, hy, rfl, rfl⟩
    exact ⟨oa, s1, ob, hx, hy, rfl⟩
  · rintro ⟨oa, s1, ob, hx, hy, rfl⟩
    exact ⟨oa, s1, hx, ob, t, hy, rfl, rfl⟩

theorem gives_traverseAll_nil : Gives (traverseAll r []) s o t ↔ none = o ∧ s = t :=
  gives_pure

theorem gives_traverseAll_cons : Gives (traverseAll r (v :: vs)) s o t ↔
    ∃ ov s1 ovs, Gives (v.traverse r) s ov s1 ∧ Gives (traverseAll r vs) s1 ovs t ∧
      o = rebuilt List.cons v vs ov ovs := gives_rebuilt

/-- What becomes of a value, and whether it is something new. -/
def Becomes (r : Traversal m) (v : Value) (s : S) (b : Value × Bool) (t : S) : Prop :=
  ∃ o, Gives (v.traverse r) s o t ∧ b = (o.getD v, o.isSome)

/-- A construct whose operands are done is kept if they all are, and otherwise made again over what they became. Only
an operator asks for the arenas in force. -/
def Finishes (r : Traversal m) (v : Value) (bs : List (Value × Bool)) (s : S) (o : Option Value) (t : S) : Prop :=
  if bs.any Prod.snd then
    ∃ w, o = some w ∧ v.Like w ∧ w.operands = bs.map Prod.fst ∧
      if v.isOperator then ∃ σ, Gives r.arenas s σ t ∧ w.Current σ else s = t
  else o = none ∧ s = t

section Finishes

variable {bs : List (Value × Bool)} {o : Option Value}

/-- An operator is made again over the arenas in force. -/
theorem finishes_operator {f : Arenas → Except DesignError Value} (hv : v.isOperator)
    (hf : ∀ σ w, f σ = .ok w ↔ v.Like w ∧ w.operands = bs.map Prod.fst ∧ w.Current σ) : v.Finishes r bs s o t ↔
      if bs.any Prod.snd then ∃ σ, Gives r.arenas s σ t ∧ ∃ w, f σ = .ok w ∧ some w = o else none = o ∧ s = t := by
  simp only [Finishes, hf, hv, if_true]
  split
  · constructor
    · rintro ⟨w, rfl, hlike, hops, σ, hσ, hw⟩
      exact ⟨σ, hσ, w, ⟨hlike, hops, hw⟩, rfl⟩
    · rintro ⟨σ, hσ, w, ⟨hlike, hops, hw⟩, rfl⟩
      exact ⟨w, rfl, hlike, hops, σ, hσ, hw⟩
  · rw [eq_comm]

/-- What is no operator is made of its operands alone. -/
theorem finishes_made (hv : v.isOperator = false) (hw : v.Like w) (hops : w.operands = bs.map Prod.fst) :
    v.Finishes r bs s o t ↔ (if bs.any Prod.snd then some w else none) = o ∧ s = t := by
  simp only [Finishes, hv]
  split
  · constructor
    · rintro ⟨u, rfl, hu, hops', hst⟩
      obtain rfl := (hw.symm.trans hu).ext (hops'.trans hops.symm) ((hu.note_eq hv).trans (hw.note_eq hv).symm)
      exact ⟨rfl, hst⟩
    · rintro ⟨rfl, hst⟩
      exact ⟨w, rfl, hw, hops, hst⟩
  · rw [eq_comm]

end Finishes

section Operands

variable {P : List (Value × Bool) → S → Prop}

theorem operands_nil : (∃ bs s1, Threads (Becomes r) [] s bs s1 ∧ P bs s1) ↔ P [] s := by
  simp [Threads.nil_iff]

theorem operands_cons {a : Value} {cs : List Value} : (∃ bs s1, Threads (Becomes r) (a :: cs) s bs s1 ∧ P bs s1) ↔
    ∃ oa s1, Gives (a.traverse r) s oa s1 ∧
      ∃ bs s2, Threads (Becomes r) cs s1 bs s2 ∧ P ((oa.getD a, oa.isSome) :: bs) s2 := by
  simp only [Threads.cons_iff, Becomes]
  constructor
  · rintro ⟨_, s2, ⟨_, s1, bs, ⟨oa, ha, rfl⟩, hbs, rfl⟩, h⟩
    exact ⟨oa, s1, ha, bs, s2, hbs, h⟩
  · rintro ⟨oa, s1, ha, bs, s2, hbs, h⟩
    exact ⟨_, s2, ⟨_, s1, bs, ⟨oa, ha, rfl⟩, hbs, rfl⟩, h⟩

end Operands

/-- Values of which none is new are the old ones. -/
theorem kept_of_threads {bs : List (Value × Bool)} (h : Threads (Becomes r) vs s bs t) (hbs : ¬ bs.any Prod.snd) :
    bs.map Prod.fst = vs := by
  induction h with
  | nil => rfl
  | cons head =>
    obtain ⟨o, -, rfl⟩ := head
    cases o <;> simp_all

/-- Values one after the other. -/
theorem gives_traverseAll {ovs : Option (List Value)} : Gives (traverseAll r vs) s ovs t ↔
    ∃ bs, Threads (Becomes r) vs s bs t ∧ ovs = if bs.any Prod.snd then some (bs.map Prod.fst) else none := by
  induction vs generalizing s ovs with
  | nil =>
    rw [gives_traverseAll_nil]
    simp only [Threads.nil_iff]
    constructor
    · rintro ⟨rfl, rfl⟩
      exact ⟨[], ⟨rfl, rfl⟩, rfl⟩
    · rintro ⟨_, ⟨rfl, rfl⟩, rfl⟩
      exact ⟨rfl, rfl⟩
  | cons v vs ih =>
    have hwhole {ov : Option Value} {bs : List (Value × Bool)} (hbs : ¬ bs.any Prod.snd → bs.map Prod.fst = vs) :
        rebuilt List.cons v vs ov (if bs.any Prod.snd then some (bs.map Prod.fst) else none) =
          if ((ov.getD v, ov.isSome) :: bs).any Prod.snd then some (ov.getD v :: bs.map Prod.fst) else none := by
      cases ov <;> by_cases h : bs.any Prod.snd <;> simp_all [rebuilt]
    rw [gives_traverseAll_cons]
    simp only [ih, Threads.cons_iff, Becomes]
    constructor
    · rintro ⟨ov, s1, _, hv, ⟨bs, hbs, rfl⟩, rfl⟩
      exact ⟨_, ⟨_, s1, bs, ⟨ov, hv, rfl⟩, hbs, rfl⟩, hwhole (kept_of_threads hbs)⟩
    · rintro ⟨_, ⟨_, s1, bs, ⟨ov, hv, rfl⟩, hbs, rfl⟩, rfl⟩
      exact ⟨ov, s1, _, hv, ⟨bs, hbs, rfl⟩, (hwhole (kept_of_threads hbs)).symm⟩

theorem gives_compound {o : Option Value} (hv : ¬ v.IsLeaf) : Gives (v.traverse r) s o t ↔
    ∃ bs s1, Threads (Becomes r) v.operands s bs s1 ∧ v.Finishes r bs s1 o t := by
  cases v with
  | const | net | sample | initial => exact absurd trivial hv
  | unary op a =>
    simp only [operands, operands_cons, operands_nil]
    refine gives_bind.trans (exists₂_congr fun oa s1 => and_congr_right fun _ => ?_)
    rw [finishes_operator (f := fun σ => .ok (mkUnary σ op (oa.getD a))) rfl fun σ w => ?_]
    · cases oa <;> simp [gives_bind, gives_pure]
    · constructor
      · rintro ⟨⟩
        exact ⟨.unary, rfl, rfl⟩
      · rintro ⟨⟨⟩, hops, hw⟩
        simp_all [operands, Current, mkUnary]
  | binary op a b =>
    simp only [operands, operands_cons, operands_nil]
    refine gives_bind.trans (exists₂_congr fun oa s1 => and_congr_right fun _ =>
      gives_bind.trans (exists₂_congr fun ob s2 => and_congr_right fun _ => ?_))
    rw [finishes_operator (f := fun σ => mkBinary σ op (oa.getD a) (ob.getD b)) rfl fun σ w => ?_]
    · cases oa <;> cases ob <;> simp [gives_bind, gives_pure, gives_raise]
    · rw [mkBinary_eq_ok]
      constructor
      · rintro ⟨sh', hsh, rfl⟩
        exact ⟨.binary, rfl, hsh⟩
      · rintro ⟨⟨⟩, hops, hw⟩
        simp_all [operands, Current]
  | mux sel a b =>
    simp only [operands, operands_cons, operands_nil]
    refine gives_bind.trans (exists₂_congr fun osel s1 => and_congr_right fun _ =>
      gives_bind.trans (exists₂_congr fun oa s2 => and_congr_right fun _ =>
        gives_bind.trans (exists₂_congr fun ob s3 => and_congr_right fun _ => ?_)))
    rw [finishes_operator (f := fun σ => .ok (mkMux σ (osel.getD sel) (oa.getD a) (ob.getD b))) rfl fun σ w => ?_]
    · cases osel <;> cases oa <;> cases ob <;> simp [gives_bind, gives_pure]
    · constructor
      · rintro ⟨⟩
        exact ⟨.mux, rfl, rfl⟩
      · rintro ⟨⟨⟩, hops, hw⟩
        simp_all [operands, Current, mkMux]
  | slice v i j =>
    simp only [operands, operands_cons, operands_nil]
    refine gives_bind_pure.trans (exists_congr fun ov => .trans ?_ (exists_congr fun s1 => and_congr_right fun _ =>
      (finishes_made (w := .slice (ov.getD v) i j) rfl .slice rfl).symm))
    cases ov <;> simp
  | repl v count =>
    simp only [operands, operands_cons, operands_nil]
    refine gives_bind_pure.trans (exists_congr fun ov => .trans ?_ (exists_congr fun s1 => and_congr_right fun _ =>
      (finishes_made (w := .repl (ov.getD v) count) rfl .repl rfl).symm))
    cases ov <;> simp
  | part v offset width stride =>
    simp only [operands, operands_cons, operands_nil]
    refine (gives_rebuilt (c := (part · · width stride))).trans ?_
    simp only [exists_and_left]
    refine exists₂_congr fun ov s1 => and_congr_right fun _ => exists_congr fun oo => .trans ?_ (exists_congr fun s2 =>
      and_congr_right fun _ => (finishes_made (w := .part (ov.getD v) (oo.getD offset) width stride) rfl .part rfl).symm)
    cases ov <;> cases oo <;> simp [rebuilt, eq_comm]
  | cat =>
    refine gives_bind_pure.trans ?_
    simp only [gives_traverseAll, operands]
    constructor
    · rintro ⟨_, ⟨bs, hbs, rfl⟩, rfl⟩
      refine ⟨bs, t, hbs, (finishes_made (w := .cat (bs.map Prod.fst)) rfl .cat rfl).mpr ⟨?_, rfl⟩⟩
      split <;> rfl
    · rintro ⟨bs, s1, hbs, hf⟩
      obtain ⟨rfl, rfl⟩ := (finishes_made rfl Like.cat rfl).mp hf
      refine ⟨_, ⟨bs, hbs, rfl⟩, ?_⟩
      split <;> rfl
  | proxy elems index =>
    refine gives_rebuilt.trans ?_
    simp only [gives_traverseAll, operands, Threads.append_iff]
    constructor
    · rintro ⟨_, s1, oi, ⟨bs, hbs, rfl⟩, hi, rfl⟩
      refine ⟨bs ++ [(oi.getD index, oi.isSome)], t, ⟨bs, s1, _, hbs, .cons ⟨oi, hi, rfl⟩ .nil, rfl⟩, ?_⟩
      refine (finishes_made (w := .proxy (bs.map Prod.fst) (oi.getD index)) rfl .proxy (by simp [operands])).mpr ⟨?_, rfl⟩
      have := kept_of_threads hbs
      cases oi <;> by_cases h : bs.any Prod.snd <;> simp_all [rebuilt]
    · rintro ⟨_, s2, ⟨bs, s1, _, hbs, hindex, rfl⟩, hf⟩
      obtain ⟨_, _, _, ⟨oi, hi, rfl⟩, ⟨⟩, rfl⟩ := Threads.cons_iff.mp hindex
      obtain ⟨rfl, rfl⟩ :=
        (finishes_made (w := .proxy (bs.map Prod.fst) (oi.getD index)) rfl .proxy (by simp [operands])).mp hf
      refine ⟨_, s1, oi, ⟨bs, hbs, rfl⟩, hi, ?_⟩
      have := kept_of_threads hbs
      cases oi <;> by_cases h : bs.any Prod.snd <;> simp_all [rebuilt]

namespace Finishes

variable {bs : List (Value × Bool)} {o : Option Value}
variable {s0 : S} {σ σ' : Arenas}

section

variable (h : v.Finishes r bs s o t)
include h

theorem none_iff : o = none ↔ ¬ bs.any Prod.snd := by
  unfold Finishes at h
  split at h
  · obtain ⟨w, rfl, -⟩ := h
    simp [*]
  · simp [*]

theorem same_or : s = t ∨ ∃ σ, Gives r.arenas s σ t := by
  unfold Finishes at h
  split at h
  · obtain ⟨w, -, -, -, h⟩ := h
    split at h
    · exact .inr (h.imp fun _ => And.left)
    · exact .inl h
  · exact .inl h.2

theorem same (harenas : ∀ {σ}, Gives r.arenas s σ t → s = t) : s = t := by
  obtain hst | ⟨σ, hσ⟩ := h.same_or
  · exact hst
  · exact harenas hσ

/-- What comes out is the same construct, over what its operands became. -/
theorem form (hv : ¬ v.IsLeaf) (hbs : Threads (Becomes r) v.operands s0 bs s) :
    v.Like (o.getD v) ∧ (o.getD v).operands = bs.map Prod.fst := by
  unfold Finishes at h
  split at h
  · obtain ⟨w, rfl, hlike, hops, -⟩ := h
    exact ⟨hlike, hops⟩
  · obtain ⟨rfl, -⟩ := h
    exact ⟨like_self hv, (kept_of_threads hbs ‹_›).symm⟩

/-- Like constructs over the same operands become the same. -/
theorem of_like {r' : Traversal m} (hlike : v.Like w)
    (harenas : ∀ {σ}, Gives r.arenas s σ t → ∃ σ', Gives r'.arenas s σ' t ∧ ∀ u : Value, u.Current σ → u.Current σ') :
    w.Finishes r' bs s o t := by
  unfold Finishes at h ⊢
  rw [hlike.isOperator_eq]
  split_ifs at h ⊢
  · obtain ⟨u, ho, hu, hops, σ, hσ, hcurrent⟩ := h
    obtain ⟨σ', hσ', hcurrent'⟩ := harenas hσ
    exact ⟨u, ho, hlike.symm.trans hu, hops, σ', hσ', hcurrent' u hcurrent⟩
  · obtain ⟨u, ho, hu, hops, hst⟩ := h
    exact ⟨u, ho, hlike.symm.trans hu, hops, hst⟩
  · exact h

/-- An operator that is made again has the shape that its operands give it now. -/
theorem current (ho : o ≠ none) (harenas : ∀ {τ}, Gives r.arenas s τ t → τ = σ) :
    (o.getD v).Current σ := by
  unfold Finishes at h
  split at h
  · obtain ⟨w, rfl, hlike, hops, h⟩ := h
    split at h
    · obtain ⟨τ, hτ, hw⟩ := h
      obtain rfl := harenas hτ
      exact hw
    · exact hlike.current (Bool.not_eq_true _ ▸ ‹_›) σ
  · exact absurd h.1 ho

/-- An operator whose operands keep their shapes keeps its own. -/
theorem note_eq (hv : ¬ v.IsLeaf) (hbs : Threads (Becomes r) v.operands s0 bs s)
    (harenas : ∀ {τ}, Gives r.arenas s τ t → τ = σ')
    (hshapes : (bs.map Prod.fst).map (Value.shape σ') = v.operands.map (Value.shape σ)) (hcurrent : v.Current σ) :
    (o.getD v).note = v.note := by
  by_cases ho : o = none
  · rw [ho]
    rfl
  · obtain ⟨hlike, hform⟩ := h.form hv hbs
    exact (hlike.current_iff (hform ▸ hshapes) hcurrent).mp (h.current ho harenas)

end

/-- A construct can be made again if its operands keep their shapes. -/
theorem exists_of_shapes (hv : ¬ v.IsLeaf) (hbs : Threads (Becomes r) v.operands s0 bs s)
    (harenas : Gives r.arenas s σ' s)
    (hshapes : (bs.map Prod.fst).map (Value.shape σ') = v.operands.map (Value.shape σ))
    (hcurrent : bs.any Prod.snd → v.Current σ) : ∃ o, v.Finishes r bs s o s := by
  unfold Finishes
  split
  · obtain ⟨w, hlike, hops, hnote⟩ := Like.exists_over hv ((bs.length_map (f := Prod.fst)).trans hbs.length_eq)
    have hw := (hlike.current_iff (hops ▸ hshapes) (hcurrent ‹_›)).mpr hnote
    refine ⟨some w, w, rfl, hlike, hops, ?_⟩
    split
    · exact ⟨σ', harenas, hw⟩
    · rfl
  · exact ⟨none, rfl, rfl⟩

end Finishes

theorem gives_traversed {w : Value} : Gives (v.traversed r) s w t ↔ ∃ o, Gives (v.traverse r) s o t ∧ o.getD v = w := by
  rw [traversed]
  exact gives_bind_pure

end Value

namespace Statement

variable {xs ys : List Statement} {as bs : List Arm}

section Whole

variable (hr : ∀ {x : Statement} {s : S} {o t}, Gives (r.statement x) s o t → o = none ∧ s = t)
variable {test : Value}
include hr

/-- A traversal that has no use for whole statements goes through their parts. -/
theorem gives_assign {lhs rhs : Value} (hg : Gives ((Statement.assign lhs rhs).traverse r) s ys t) :
    ∃ lhs' s1 rhs', Gives (lhs.traversed r) s lhs' s1 ∧ Gives (rhs.traversed r) s1 rhs' t ∧
      ys = [.assign lhs' rhs'] := by
  rw [traverse] at hg
  obtain ⟨o, s0, ho, hg⟩ := gives_bind.mp hg
  obtain ⟨rfl, rfl⟩ := hr ho
  obtain ⟨lhs', s1, hl, hg⟩ := gives_bind.mp hg
  obtain ⟨rhs', hrhs, rfl⟩ := gives_bind_pure.mp hg
  exact ⟨lhs', s1, rhs', hl, hrhs, rfl⟩

theorem gives_switch (hg : Gives ((Statement.switch test as).traverse r) s ys t) :
    ∃ test' s1 bs, Gives (test.traversed r) s test' s1 ∧ Gives (traverseArms r as) s1 bs t ∧
      ys = [.switch test' bs] := by
  rw [traverse] at hg
  obtain ⟨o, s0, ho, hg⟩ := gives_bind.mp hg
  obtain ⟨rfl, rfl⟩ := hr ho
  obtain ⟨test', s1, ht, hg⟩ := gives_bind.mp hg
  obtain ⟨bs, hbs, rfl⟩ := gives_bind_pure.mp hg
  exact ⟨test', s1, bs, ht, hbs, rfl⟩

theorem gives_property {kind : PropertyKind} {check enable : SignalId}
    (hg : Gives ((Statement.property kind test check enable).traverse r) s ys t) :
    ∃ test', Gives (test.traversed r) s test' t ∧ ys = [.property kind test' check enable] := by
  rw [traverse] at hg
  obtain ⟨o, s0, ho, hg⟩ := gives_bind.mp hg
  obtain ⟨rfl, rfl⟩ := hr ho
  obtain ⟨test', ht, rfl⟩ := gives_bind_pure.mp hg
  exact ⟨test', ht, rfl⟩

theorem gives_single {x : Statement} (hg : Gives (x.traverse r) s ys t) : ∃ y, ys = [y] := by
  cases x with
  | assign =>
    obtain ⟨lhs', s1, rhs', -, -, rfl⟩ := gives_assign hr hg
    exact ⟨_, rfl⟩
  | switch =>
    obtain ⟨test', s1, bs, -, -, rfl⟩ := gives_switch hr hg
    exact ⟨_, rfl⟩
  | property =>
    obtain ⟨test', -, rfl⟩ := gives_property hr hg
    exact ⟨_, rfl⟩

theorem gives_statements (hg : Gives (traverseAll r xs) s ys t) :
    Threads (fun x s y t => Gives (x.traverse r) s [y] t) xs s ys t := by
  induction xs generalizing s ys with
  | nil =>
    rw [traverseAll] at hg
    obtain ⟨rfl, rfl⟩ := gives_pure.mp hg
    exact .nil
  | cons x xs ih =>
    rw [traverseAll] at hg
    obtain ⟨here, s1, hx, hg⟩ := gives_bind.mp hg
    obtain ⟨others, hxs, rfl⟩ := gives_bind_pure.mp hg
    obtain ⟨y, rfl⟩ := gives_single hr hx
    exact .cons hx (ih hxs)

end Whole

theorem gives_arms : Gives (traverseArms r as) s bs t ↔
    Threads (fun a s b t => b.1 = a.1 ∧ Gives (traverseAll r a.2) s b.2 t) as s bs t := by
  induction as generalizing s bs with
  | nil =>
    rw [traverseArms, gives_pure, Threads.nil_iff]
    exact and_congr_left' eq_comm
  | cons a as ih =>
    obtain ⟨patterns, xs⟩ := a
    rw [traverseArms, gives_bind, Threads.cons_iff]
    simp only [gives_bind_pure, ih]
    constructor
    · rintro ⟨ys, s1, hys, cs, hcs, rfl⟩
      exact ⟨(patterns, ys), s1, cs, ⟨rfl, hys⟩, hcs, rfl⟩
    · rintro ⟨⟨_, ys⟩, s1, cs, ⟨rfl, hys⟩, hcs, rfl⟩
      exact ⟨ys, s1, hys, cs, hcs, rfl⟩

theorem traverseAll_append {r : Traversal (Except Failure)} {zs : List Statement}
    (h : traverseAll r (xs ++ ys) = .ok zs) :
    ∃ xs' ys', traverseAll r xs = .ok xs' ∧ traverseAll r ys = .ok ys' ∧ zs = xs' ++ ys' := by
  induction xs generalizing zs with
  | nil => exact ⟨[], zs, rfl, h, rfl⟩
  | cons x xs ih =>
    obtain ⟨here, hhere, h⟩ := except_bind_eq_ok.mp h
    obtain ⟨others, hothers, rfl⟩ := except_bind_pure_eq_ok.mp h
    obtain ⟨xs', ys', hxs, hys, rfl⟩ := ih hothers
    refine ⟨here ++ xs', ys', ?_, hys, (append_assoc _ _ _).symm⟩
    exact except_bind_eq_ok.mpr ⟨here, hhere, except_bind_eq_ok.mpr ⟨xs', hxs, rfl⟩⟩

end Statement

namespace Body

variable {P : Pass m} {b b' : Body}
variable {cds : List ClockDomain}

theorem gives_bindings {ps qs : List Binding} : Gives (traverseBindings r ps) s qs t ↔
    Threads (fun x s x' t => ∃ v, Gives (x.value.traversed r) s v t ∧ x' = { x with value := v }) ps s qs t := by
  induction ps generalizing s qs with
  | nil =>
    rw [traverseBindings, gives_pure, Threads.nil_iff]
    exact and_congr_left' eq_comm
  | cons x ps ih =>
    rw [traverseBindings, gives_bind, Threads.cons_iff]
    simp only [gives_bind_pure, ih]
    constructor
    · rintro ⟨v, s1, hv, others, hothers, rfl⟩
      exact ⟨_, s1, others, ⟨v, hv, rfl⟩, hothers, rfl⟩
    · rintro ⟨_, s1, others, ⟨v, hv, rfl⟩, hothers, rfl⟩
      exact ⟨v, s1, hv, others, hothers, rfl⟩

theorem gives_cell {c c' : Option Instance} : Gives (traverseCell r c) s c' t ↔
    c = none ∧ c' = none ∧ s = t ∨
      ∃ i ps, c = some i ∧ Gives (traverseBindings r i.ports) s ps t ∧ c' = some { i with ports := ps } := by
  cases c with
  | none => simp [traverseCell, gives_pure, eq_comm]
  | some => simp [traverseCell, gives_bind_pure, eq_comm]

theorem addDomain_inv {cd : ClockDomain} (h : b.addDomain cd = .ok b') :
    b' = { b with domains := b'.domains } ∧ ∀ x ∈ b'.domains, x ∈ b.domains ∨ x = cd := by
  unfold addDomain at h
  split at h
  · split at h
    · cases h
      exact ⟨rfl, fun x hx => Or.inl hx⟩
    · cases h
  · cases h
    refine ⟨rfl, ?_⟩
    intro x hx
    rw [mem_append, mem_singleton] at hx
    exact hx

/-- What holds of the state and the body when a table is empty, and is kept when one record is entered, holds once all
are. -/
theorem traverseDomains_induct {M : S → Body → Prop}
    (step : ∀ cd ∈ cds, ∀ {s cd' t b b'}, M s b → Gives (P.domain cd) s cd' t → b.addDomain cd' = .ok b' → M t b')
    (hs : M s b) (hg : Gives (traverseDomains P b cds) s b' t) : M t b' := by
  induction cds generalizing b s with
  | nil =>
    rw [traverseDomains] at hg
    obtain ⟨rfl, rfl⟩ := gives_pure.mp hg
    exact hs
  | cons cd cds ih =>
    obtain ⟨hstep, hsteps⟩ := forall_mem_cons.mp step
    rw [traverseDomains] at hg
    obtain ⟨cd', s1, hcd', hg⟩ := gives_bind.mp hg
    obtain ⟨b1, hadd, hg⟩ := gives_raise_bind.mp hg
    exact ih hsteps (hstep hs hcd' hadd) hg

theorem traverseDomains_same (hg : Gives (traverseDomains P b cds) s b' t) : b' = { b with domains := b'.domains } := by
  refine traverseDomains_induct (M := fun _ b' => b' = { b with domains := b'.domains }) ?_ rfl hg
  intro cd _ s cd' t b1 b2 hb1 _ hadd
  rw [(addDomain_inv hadd).1, hb1]

theorem traverseDrivers_inv (hnet : ∀ {n} {s : S} {o t}, Gives (r.net n) s o t → s = t) {ds : List (String × Net)}
    (hg : Gives (traverseDrivers P r b ds) s b' t) :
    s = t ∧ b' = { b with drivers := b'.drivers } ∧ (ds = [] → b' = b) := by
  induction ds generalizing b s with
  | nil =>
    rw [traverseDrivers] at hg
    obtain ⟨rfl, rfl⟩ := gives_pure.mp hg
    exact ⟨rfl, rfl, fun _ => rfl⟩
  | cons e ds ih =>
    obtain ⟨d, n⟩ := e
    rw [traverseDrivers] at hg
    obtain ⟨v, s1, hgv, hg⟩ := gives_bind.mp hg
    obtain ⟨o, hgn, rfl⟩ := Value.gives_traversed.mp hgv
    rw [Value.traverse] at hgn
    obtain rfl := hnet hgn
    split at hg
    · obtain ⟨rfl, hsame, -⟩ := ih hg
      exact ⟨rfl, by rw [hsame]; rfl, fun h => absurd h (cons_ne_nil _ _)⟩
    · obtain ⟨rfl, hsame, -⟩ := ih hg
      exact ⟨rfl, hsame, fun h => absurd h (cons_ne_nil _ _)⟩

/-- The parts of a traversed body: its table, its statements, its drivers and its cell are new. -/
theorem traverse_parts (hnet : ∀ {n} {s : S} {o t}, Gives (r.net n) s o t → s = t) (hg : Gives (b.traverse P r) s b' t) :
    ∃ s1 s2 b1 b2, Gives (traverseDomains P { b with statements := [], drivers := [], domains := [], cell := none }
        b.domains) s b1 s1 ∧
      Gives (Statement.traverseAll r b.statements) s1 b'.statements s2 ∧
      Gives (traverseDrivers P r (b1.addStatements b'.statements) b.driverPairs) s2 b2 s2 ∧
      Gives (traverseCell r b.cell) s2 b'.cell t ∧ (b1.addStatements b'.statements).drivers = [] ∧
      (b.driverPairs = [] → b'.drivers = []) ∧
      b' = { b with statements := b'.statements, drivers := b2.drivers, domains := b1.domains, cell := b'.cell } := by
  unfold traverse at hg
  obtain ⟨b1, s1, hdomains, hg⟩ := gives_bind.mp hg
  obtain ⟨xs, s2, hstatements, hg⟩ := gives_bind.mp hg
  obtain ⟨b2, s3, hdrivers, hg⟩ := gives_bind.mp hg
  obtain ⟨c, hcell, rfl⟩ := gives_bind_pure.mp hg
  have hsame1 := traverseDomains_same hdomains
  obtain ⟨rfl, hsame2, hidle⟩ := traverseDrivers_inv hnet hdrivers
  obtain rfl : b2.statements = xs := by
    rw [hsame2, hsame1]
    rfl
  have hnone : b1.drivers = [] := by rw [hsame1]
  refine ⟨s1, s2, b1, b2, hdomains, hstatements, hdrivers, hcell, hnone, fun h => ?_, ?_⟩
  · change b2.drivers = []
    rw [hidle h]
    exact hnone
  · rw [hsame2, hsame1]
    rfl

end Body

namespace Fragment

variable {P : Pass m} {f f' : Fragment}
variable {cs : List (String × Fragment)}

/-- What a pass does to one fragment, its children being done. -/
def traverseTop (P : Pass m) (b : Body) (cs : List (String × Fragment)) : m Fragment := do
  let r ← P.values b
  let nb ← b.traverse P r
  P.finish b (.node nb cs)

theorem gives_children {cs' : List (String × Fragment)} : Gives (traverseAll P cs) s cs' t ↔
    Threads (fun c s c' t => c'.1 = c.1 ∧ Gives (c.2.traverse P) s c'.2 t) cs s cs' t := by
  induction cs generalizing s cs' with
  | nil =>
    rw [traverseAll, gives_pure, Threads.nil_iff]
    exact and_congr_left' eq_comm
  | cons c cs ih =>
    obtain ⟨name, f⟩ := c
    rw [traverseAll, gives_bind, Threads.cons_iff]
    simp only [gives_bind_pure, ih]
    constructor
    · rintro ⟨f', s1, hf, others, hothers, rfl⟩
      exact ⟨(name, f'), s1, others, ⟨rfl, hf⟩, hothers, rfl⟩
    · rintro ⟨⟨_, f'⟩, s1, others, ⟨rfl, hf⟩, hothers, rfl⟩
      exact ⟨f', s1, hf, others, hothers, rfl⟩

theorem gives_node {b : Body} : Gives ((node b cs).traverse P) s f t ↔
    ∃ cs' s1, Threads (fun c s c' t => c'.1 = c.1 ∧ Gives (c.2.traverse P) s c'.2 t) cs s cs' s1 ∧
      Gives (traverseTop P b cs') s1 f t := by
  rw [traverse, gives_bind]
  simp only [gives_children]
  rfl

end Fragment

end Traversal
end Rtl
