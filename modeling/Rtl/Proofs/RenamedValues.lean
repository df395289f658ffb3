import Mathlib
import Rtl.Proofs.DomainBinding
import Rtl.Proofs.Rewriting

/-!
# Lowering what was renamed

Renaming replaces references to mapped domains, and lowering replaces all references by signals. Both build operators
again over what they changed, and a value that renaming changed has a reference in it, so lowering changes it too: no
operator keeps a shape that renaming gave it. So if a fragment after the renaming means by the new name of a domain what
it meant before by the old one, what was renamed is lowered to the same as before, down to the question whether anything
in it changed at all.
-/
namespace Rtl

variable {σ : Arenas}

theorem Arenas.shape_modifyArena {a : Nat} {f : Arena → Arena}
    (h : ∀ (x : Arena) (i : Nat), (f x).signals[i]?.map Signal.shape = x.signals[i]?.map Signal.shape) (id : SignalId) :
    (σ.modifyArena a f).shape id = σ.shape id := by
  have hget : ((σ.modifyArena a f).get? id).map Signal.shape = (σ.get? id).map Signal.shape := by
    unfold get?
    split
    · rfl
    · by_cases hlt : id.arena < σ.list.size
      · rw [arena_modifyArena σ a id.arena f hlt]
        split
        · exact h _ _
        · rfl
      · have hle : σ.list.size ≤ id.arena := Nat.le_of_not_lt hlt
        rw [arena_of_size_le hle, arena_of_size_le ((σ.size_modifyArena a f).trans_le hle)]
  unfold shape get
  revert hget
  cases (σ.modifyArena a f).get? id <;> cases σ.get? id <;> simp

theorem Arenas.shape_modify {s : SignalId} {f : Signal → Signal} (hf : ∀ r, (f r).shape = r.shape) (id : SignalId) :
    (σ.modify s f).shape id = σ.shape id := by
  unfold modify
  split
  · rfl
  · apply shape_modifyArena
    intro x i
    rw [Array.getElem?_modify]
    split
    · cases x.signals[i]? <;> simp [hf]
    · rfl

theorem Arenas.shape_nextDomain (σ : Arenas) (a : Nat) (id : SignalId) : (σ.nextDomain a).1.shape id = σ.shape id := by
  apply shape_modifyArena
  intro x i
  rfl

/-- A new record under another name changes no shape. -/
theorem ClockDomain.renamed_shape {σ' : Arenas} {a : Nat} {cd cd' : ClockDomain} {name : String}
    (h : cd.renamed σ a name = .ok (σ', cd')) (id : SignalId) : σ'.shape id = σ.shape id := by
  unfold renamed at h
  split at h
  · cases h
  · rw [Except.ok.injEq, Prod.mk.injEq] at h
    obtain ⟨rfl, -⟩ := h
    have hrename : ∀ (τ : Arenas) (s : SignalId) (text : String),
        (τ.modify s fun r => { r with name := text }).shape id = τ.shape id := by
      intro τ s text
      apply Arenas.shape_modify
      intro r
      rfl
    have hclk := (hrename (σ.nextDomain a).1 cd.clk (clkName name)).trans (σ.shape_nextDomain a id)
    cases cd.rst with
    | none => exact hclk
    | some rst => exact (hrename _ rst (rstName name)).trans hclk

namespace Value

/-- Samples stand nowhere in the value. -/
def SampleFree (v : Value) : Prop := ∀ u ∈ v.leaves, ∀ w n d, u ≠ .sample w n d

section Shapes

variable {σ σ' : Arenas}

theorem shape_congr (h : ∀ id, σ'.shape id = σ.shape id) (v : Value) : v.shape σ' = v.shape σ := by
  induction v with
  | const | unary | binary | mux | slice | part | initial => rfl
  | net n =>
    cases n with
    | signal id => exact h id
    | clock | reset => rfl
  | cat parts ih =>
    rw [shape, shape, shapes_eq_map, shapes_eq_map, List.map_congr_left ih]
  | repl v count ih => rw [shape, shape, ih]
  | proxy elems index ih =>
    rw [shape, shape, shapes_eq_map, shapes_eq_map, List.map_congr_left ih]
  | sample v n d ih => exact ih

theorem Current.congr (h : ∀ id, σ'.shape id = σ.shape id) {v : Value} (hv : v.Current σ) : v.Current σ' := by
  cases v <;> simp_all [Current, shape_congr h]

end Shapes
end Value

/-- The second fragment means by the new name of a domain the clock and the reset that the first meant by the old one,
and the arenas have the same shapes. -/
structure Body.Translates (mapping : List (String × String)) (σ σ' : Arenas) (b b' : Body) : Prop where
  shape : ∀ id, σ'.shape id = σ.shape id
  known : ∀ {d cd}, b.domain? d = some cd →
    ∃ cd', b'.domain? (Renamer.target mapping d) = some cd' ∧ cd'.clk = cd.clk ∧ cd'.rst = cd.rst

namespace Body.Translates

variable {mapping : List (String × String)} {σ σ' : Arenas} {b b' : Body}
variable {s t : Renamer.State}

/-- A net is lowered to the same under its new name. -/
theorem lowerNet (h : Translates mapping σ σ' b b') {n : Net} {o : Option Value} (hn : b.lowerNet σ n = .ok o) :
    b'.lowerNet σ' (n.renamed mapping) = .ok o ∧ (o = none → ∃ id, n = .signal id) := by
  obtain ⟨id, rfl, rfl⟩ | ⟨d, cd, rfl, hd, rfl⟩ | ⟨d, allow, cd, rst, rfl, hd, hr, rfl⟩ | ⟨d, cd, rfl, hd, hr, rfl⟩ :=
    Body.lowerNet_eq_ok.mp hn
  · exact ⟨rfl, fun _ => ⟨id, rfl⟩⟩
  · obtain ⟨cd', hcd', hclk, -⟩ := h.known hd
    refine ⟨Body.lowerNet_eq_ok.mpr (Or.inr (Or.inl ⟨_, cd', rfl, hcd', by rw [hclk]⟩)), by simp⟩
  · obtain ⟨cd', hcd', -, hrst⟩ := h.known hd
    exact ⟨Body.lowerNet_eq_ok.mpr (Or.inr (Or.inr (Or.inl ⟨_, _, cd', rst, rfl, hcd', hrst.trans hr, rfl⟩))), by simp⟩
  · obtain ⟨cd', hcd', -, hrst⟩ := h.known hd
    exact ⟨Body.lowerNet_eq_ok.mpr (Or.inr (Or.inr (Or.inr ⟨_, cd', rfl, hcd', hrst.trans hr, rfl⟩))), by simp⟩

/-- What was renamed is lowered to the same as before, and whatever renaming changed, lowering changes. -/
def Over (mapping : List (String × String)) (σ σ' : Arenas) (b b' : Body) (v : Value) : Prop :=
  ∀ {s o t o'}, v.SampleFree → Gives (v.traverse (Renamer.traversal mapping)) s o t →
    v.traverse (b.lowering σ) = .ok o' → (o.getD v).traverse (b'.lowering σ') = .ok o' ∧ (o' = none → o = none)

/-- What lowering makes of something does not depend on whether it was renamed before. -/
theorem getD_getD {α : Type} {o o' : Option α} (h : o' = none → o = none) (x : α) :
    o'.getD (o.getD x) = o'.getD x := by
  cases o' with
  | none =>
    rw [h rfl]
    rfl
  | some => rfl

theorem list {vs : List Value} (ih : ∀ v ∈ vs, Over mapping σ σ' b b' v) {bs cs : List (Value × Bool)} {u u' : Unit}
    (hfree : ∀ v ∈ vs, v.SampleFree) (hbs : Threads (Value.Becomes (Renamer.traversal mapping)) vs s bs t)
    (hcs : Threads (Value.Becomes (b.lowering σ)) vs u cs u') :
    Threads (Value.Becomes (b'.lowering σ')) (bs.map Prod.fst) u cs u' ∧ (¬ cs.any Prod.snd → ¬ bs.any Prod.snd) := by
  induction hbs generalizing u cs with
  | nil =>
    obtain ⟨rfl, rfl⟩ := Threads.nil_iff.mp hcs
    exact ⟨.nil, id⟩
  | cons head tail ihvs =>
    obtain ⟨ihv, ihrest⟩ := List.forall_mem_cons.mp ih
    obtain ⟨hv, hrest⟩ := List.forall_mem_cons.mp hfree
    obtain ⟨ov, hgv, rfl⟩ := head
    obtain ⟨_, u1, cs, ⟨ov', hlv, rfl⟩, htail, rfl⟩ := Threads.cons_iff.mp hcs
    obtain ⟨hv', hnone⟩ := ihv hv hgv hlv
    obtain ⟨hvs', hnones⟩ := ihvs ihrest hrest htail
    refine ⟨.cons ⟨ov', hv', by rw [getD_getD hnone]⟩ hvs', ?_⟩
    cases ov' <;> simp_all

/-- By induction on the value. Lowering is run on the parts that renaming left, and what it makes of them it also makes
of the parts before. -/
theorem value (h : Translates mapping σ σ' b b') (v : Value) : Over mapping σ σ' b b' v := by
  induction v using Value.operands_induct with
  | const | initial =>
    intro s o t o' _ hg hl
    obtain ⟨rfl, -⟩ := gives_pure.mp hg
    exact ⟨hl, fun _ => rfl⟩
  | net =>
    intro s o t o' _ hg hl
    rw [Value.traverse] at hg hl
    obtain ⟨-, hrenamed, hkept⟩ := Renamer.gives_net hg
    obtain ⟨hlowered, hsignal⟩ := h.lowerNet (except_mapError_eq_ok.mp hl)
    rw [hrenamed, Value.traverse]
    exact ⟨except_mapError_eq_ok.mpr hlowered, fun hnone => hkept (hsignal hnone)⟩
  | sample v n d =>
    intro s o t o' hfree
    exact absurd rfl (hfree _ (List.mem_singleton.mpr rfl) v n d)
  | compound v hv ih =>
    intro s o t o' hfree hg hl
    obtain ⟨bs, s1, hbs, hf⟩ := (Value.gives_compound hv).mp hg
    obtain ⟨cs, u, hcs, hf'⟩ := (Value.gives_compound hv).mp (gives_of_ok hl)
    have hparts : ∀ c ∈ v.operands, c.SampleFree := fun c hc u hu => hfree u ((Value.mem_leaves_iff hv).mpr ⟨c, hc, hu⟩)
    obtain ⟨hds, hnone⟩ := list ih hparts hbs hcs
    obtain ⟨hlike, hform⟩ := hf.form hv hbs
    rw [← hform] at hds
    refine ⟨ok_of_gives ((Value.gives_compound hlike.not_isLeaf).mpr ⟨cs, u, hds, hf'.of_like hlike fun hτ => ?_⟩),
      fun ho => hf.none_iff.mpr (hnone (hf'.none_iff.mp ho))⟩
    obtain rfl := except_pure_eq_ok.mp hτ
    exact ⟨σ', rfl, fun _ hcurrent => hcurrent.congr h.shape⟩

theorem traversed (h : Translates mapping σ σ' b b') {v w w' : Value} (hfree : v.SampleFree)
    (hg : Gives (v.traversed (Renamer.traversal mapping)) s w t) (hl : v.traversed (b.lowering σ) = .ok w') :
    w.traversed (b'.lowering σ') = .ok w' := by
  obtain ⟨o, hgo, rfl⟩ := Value.gives_traversed.mp hg
  obtain ⟨o', hlo, rfl⟩ := Value.gives_traversed.mp (gives_of_ok hl)
  obtain ⟨hlowered, hnone⟩ := h.value v hfree hgo hlo
  exact ok_of_gives (Value.gives_traversed.mpr ⟨o', hlowered, getD_getD hnone v⟩)

/-- One statement takes the place of a statement, and is lowered to the same. -/
def OverStatement (mapping : List (String × String)) (σ σ' : Arenas) (b b' : Body) (x : Statement) : Prop :=
  ∀ {s ys t zs}, (∀ v ∈ x.values, v.SampleFree) → Gives (x.traverse (Renamer.traversal mapping)) s ys t →
    x.traverse (b.lowering σ) = .ok zs → ∃ y, ys = [y] ∧ y.traverse (b'.lowering σ') = .ok zs

theorem body {xs ys zs : List Statement} (ih : ∀ x ∈ xs, OverStatement mapping σ σ' b b' x)
    (hfree : ∀ x ∈ xs, ∀ v ∈ x.values, v.SampleFree)
    (hg : Gives (Statement.traverseAll (Renamer.traversal mapping) xs) s ys t)
    (hl : Statement.traverseAll (b.lowering σ) xs = .ok zs) : Statement.traverseAll (b'.lowering σ') ys = .ok zs := by
  have hrun := Statement.gives_statements (fun ho => gives_none ho) hg
  clear hg
  induction hrun generalizing zs with
  | nil => exact hl
  | cons head tail ihxs =>
    obtain ⟨ihx, ihrest⟩ := List.forall_mem_cons.mp ih
    obtain ⟨hx, hrest⟩ := List.forall_mem_cons.mp hfree
    obtain ⟨here, hlx, hl⟩ := except_bind_eq_ok.mp hl
    obtain ⟨others, hlxs, hl⟩ := except_bind_eq_ok.mp hl
    obtain ⟨y, hy, hlowered⟩ := ihx hx head hlx
    cases hy
    exact except_bind_eq_ok.mpr ⟨here, hlowered, except_bind_eq_ok.mpr ⟨others, ihxs ihrest hrest hlxs, hl⟩⟩

theorem arms {as bs cs : List Arm} (ih : ∀ a ∈ as, ∀ x ∈ a.2, OverStatement mapping σ σ' b b' x)
    (hfree : ∀ a ∈ as, ∀ x ∈ a.2, ∀ v ∈ x.values, v.SampleFree)
    (hg : Gives (Statement.traverseArms (Renamer.traversal mapping) as) s bs t)
    (hl : Statement.traverseArms (b.lowering σ) as = .ok cs) : Statement.traverseArms (b'.lowering σ') bs = .ok cs := by
  have hrun := Statement.gives_arms.mp hg
  clear hg
  induction hrun generalizing cs with
  | nil => exact hl
  | @cons a as a' bs s t u head tail ihas =>
    obtain ⟨iha, ihrest⟩ := List.forall_mem_cons.mp ih
    obtain ⟨ha, hrest⟩ := List.forall_mem_cons.mp hfree
    obtain ⟨patterns, ys⟩ := a'
    obtain ⟨rfl, hgb⟩ := head
    obtain ⟨zs, hlb, hl⟩ := except_bind_eq_ok.mp hl
    obtain ⟨others, hlas, hl⟩ := except_bind_eq_ok.mp hl
    exact except_bind_eq_ok.mpr ⟨zs, body iha ha hgb hlb, except_bind_eq_ok.mpr ⟨others, ihas ihrest hrest hlas, hl⟩⟩

theorem statement (h : Translates mapping σ σ' b b') (x : Statement) : OverStatement mapping σ σ' b b' x := by
  have hrenaming : ∀ {x s o t}, Gives ((Renamer.traversal mapping).statement x) s o t → o = none ∧ s = t :=
    fun ho => gives_none ho
  have hlowering : ∀ {x} {s : Unit} {o t}, Gives ((b.lowering σ).statement x) s o t → o = none ∧ s = t :=
    fun ho => gives_none ho
  induction x with
  | assign lhs rhs =>
    intro s ys t zs hfree hg hl
    obtain ⟨lhs1, s1, rhs1, hgl, hgr, rfl⟩ := Statement.gives_assign hrenaming hg
    obtain ⟨lhs2, u, rhs2, hll, hlr, rfl⟩ := Statement.gives_assign hlowering (gives_of_ok hl)
    refine ⟨_, rfl, ?_⟩
    rw [Statement.traverse]
    exact except_bind_eq_ok.mpr ⟨none, rfl, except_bind_eq_ok.mpr ⟨lhs2,
      h.traversed (hfree lhs (by simp [Statement.values])) hgl hll, except_bind_eq_ok.mpr ⟨rhs2,
      h.traversed (hfree rhs (by simp [Statement.values])) hgr hlr, rfl⟩⟩⟩
  | switch test as ih =>
    intro s ys t zs hfree hg hl
    obtain ⟨test1, s1, as1, hgt, hga, rfl⟩ := Statement.gives_switch hrenaming hg
    obtain ⟨test2, u, as2, hlt, hla, rfl⟩ := Statement.gives_switch hlowering (gives_of_ok hl)
    have hfarms : ∀ a ∈ as, ∀ x ∈ a.2, ∀ v ∈ x.values, v.SampleFree := fun a ha x hx v hv =>
      hfree v (List.mem_cons_of_mem _ (Statement.mem_armsValues.mpr ⟨a, ha, x, hx, hv⟩))
    refine ⟨_, rfl, ?_⟩
    rw [Statement.traverse]
    exact except_bind_eq_ok.mpr ⟨none, rfl, except_bind_eq_ok.mpr ⟨test2,
      h.traversed (hfree test (by simp [Statement.values])) hgt hlt, except_bind_eq_ok.mpr ⟨as2,
      arms ih hfarms hga hla, rfl⟩⟩⟩
  | property kind test =>
    intro s ys t zs hfree hg hl
    obtain ⟨test1, hgt, rfl⟩ := Statement.gives_property hrenaming hg
    obtain ⟨test2, hlt, rfl⟩ := Statement.gives_property hlowering (gives_of_ok hl)
    refine ⟨_, rfl, ?_⟩
    rw [Statement.traverse]
    exact except_bind_eq_ok.mpr ⟨none, rfl, except_bind_eq_ok.mpr ⟨test2,
      h.traversed (hfree test (by simp [Statement.values])) hgt hlt, rfl⟩⟩

theorem bindings (h : Translates mapping σ σ' b b') {ps qs rs : List Binding} (hfree : ∀ p ∈ ps, p.value.SampleFree)
    (hg : Gives (traverseBindings (Renamer.traversal mapping) ps) s qs t)
    (hl : traverseBindings (b.lowering σ) ps = .ok rs) : traverseBindings (b'.lowering σ') qs = .ok rs := by
  have hrun := gives_bindings.mp hg
  clear hg
  induction hrun generalizing rs with
  | nil => exact hl
  | cons head tail ih =>
    obtain ⟨hp, hrest⟩ := List.forall_mem_cons.mp hfree
    obtain ⟨v, hgv, rfl⟩ := head
    obtain ⟨w, hlv, hl⟩ := except_bind_eq_ok.mp hl
    obtain ⟨others, hlo, hl⟩ := except_bind_eq_ok.mp hl
    exact except_bind_eq_ok.mpr ⟨w, h.traversed hp hgv hlv, except_bind_eq_ok.mpr ⟨others, ih hrest hlo, hl⟩⟩

theorem cell (h : Translates mapping σ σ' b b') {c c1 c2 : Option Instance}
    (hfree : ∀ i, c = some i → ∀ p ∈ i.ports, p.value.SampleFree)
    (hg : Gives (traverseCell (Renamer.traversal mapping) c) s c1 t) (hl : traverseCell (b.lowering σ) c = .ok c2) :
    traverseCell (b'.lowering σ') c1 = .ok c2 := by
  obtain ⟨rfl, rfl, -⟩ | ⟨i, qs, rfl, hgp, rfl⟩ := gives_cell.mp hg
  · exact hl
  · obtain ⟨rs, hlp, hl⟩ := except_bind_eq_ok.mp hl
    exact except_bind_eq_ok.mpr ⟨rs, h.bindings (hfree i rfl) hgp hlp, hl⟩

end Body.Translates
end Rtl
