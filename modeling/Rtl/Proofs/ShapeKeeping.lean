import Mathlib
import Rtl.Proofs.Rewriting
import Rtl.Proofs.Widths

/-!
# Traversals that keep shapes

A traversal keeps shapes when every leaf becomes a value of its shape. Then so does every value whose operators have the
shapes that their operands give them now: an operator can be made again over what its operands became, and gets the
shape that it had. If nets become nets, and nets of one key nets of one key, what can be assigned to can be assigned to
afterwards, and the nets written are the images of those written before.
-/
namespace Rtl

open List

/-- A net that is there already changes nothing, and neither does its image. -/
theorem NetSet.ofList_map_items {g : Net → Net} (hg : ∀ n n' : Net, n.key = n'.key → (g n).key = (g n').key)
    (ns : List Net) : ofList ((ofList ns).items.map g) = ofList (ns.map g) := by
  have hstep : ∀ (ns : List Net) (acc : NetSet), ofList ((acc.insertAll ns).items.map g) =
      (ofList (acc.items.map g)).insertAll (ns.map g) := by
    intro ns
    induction ns with
    | nil => exact fun _ => rfl
    | cons n ns ih =>
      intro acc
      refine (ih (acc.insert n)).trans (congrArg (insertAll · (ns.map g)) ?_)
      unfold insert
      split
      · rename_i hmem
        obtain ⟨n', hn', hkey⟩ := mem_iff.mp (contains_iff.mp hmem)
        refine (if_pos (contains_iff.mpr (mem_ofList.mpr ⟨g n', mem_map_of_mem hn', ?_⟩))).symm
        exact hg n' n hkey
      · rw [map_append, ofList, insertAll_append]
        rfl
  exact hstep ns .empty

namespace Value

variable {v : Value} {σ σ' : Arenas}

/-- All signals in the value have been issued. -/
def Issued (σ : Arenas) (v : Value) : Prop := ∀ u ∈ v.subvalues, ∀ id, u = .signal id → σ.Issued id

theorem issued_iff (hv : ¬ v.IsLeaf) : v.Issued σ ↔ ∀ c ∈ v.operands, c.Issued σ := by
  refine forall_subvalues.trans ((and_iff_right ?_).trans (forall_congr' fun c => by rw [mem_children_iff hv]; rfl))
  rintro id rfl
  exact absurd trivial hv

/-- The value can be traversed: its operators have the shapes that their operands give them, and its signals exist. -/
structure Firm (σ : Arenas) (v : Value) : Prop where
  sound : v.Sound σ
  issued : v.Issued σ

theorem Issued.shape_net (h : v.Issued σ) (hext : σ.Extends σ') {n : Net} (hn : .net n ∈ v.subvalues) :
    n.shape σ' = n.shape σ := by
  cases n with
  | signal id => exact hext.shape id (h _ hn id rfl)
  | clock | reset => rfl

theorem Issued.extend (h : v.Issued σ) (hext : σ.Extends σ') : v.Issued σ' ∧ v.shape σ' = v.shape σ :=
  ⟨fun u hu id hid => hext.issued id (h u hu id hid), shape_eq_of_nets fun _ => h.shape_net hext⟩

theorem Firm.extend (h : v.Firm σ) (hext : σ.Extends σ') : v.Firm σ' ∧ v.shape σ' = v.shape σ :=
  ⟨⟨h.sound.later fun _ => h.issued.shape_net hext, (h.issued.extend hext).1⟩, (h.issued.extend hext).2⟩

theorem Firm.parts (h : v.Firm σ) (hv : ¬ v.IsLeaf) : v.Current σ ∧ ∀ c ∈ v.operands, c.Firm σ := by
  obtain ⟨hsound, hissued⟩ := h
  obtain ⟨hadm, hparts⟩ := sound_iff.mp hsound
  refine ⟨?_, fun c hc => ⟨hparts c ((mem_children_iff hv).mpr hc), (issued_iff hv).mp hissued c hc⟩⟩
  cases v <;> first | exact hadm | trivial

end Value

section Traversal

open Value

variable {m : Type → Type} [Monad m] [MonadExceptOf Failure m] {S : Type} [Outcome m S] {r : Traversal m} {s t : S}
variable {view : S → Arenas} {I : S → Prop} {v : Value}

/-- From every state where `I` holds, the value becomes one of its shape, and `I` holds again. -/
def Traversal.KeepsShape (r : Traversal m) (view : S → Arenas) (I : S → Prop) (v : Value) : Prop :=
  ∀ ⦃s⦄, I s → v.Firm (view s) → (∃ o t, Gives (v.traverse r) s o t) ∧
    ∀ ⦃o t⦄, Gives (v.traverse r) s o t → I t ∧ (view s).Extends (view t) ∧ (o.getD v).Issued (view t) ∧
      (o.getD v).shape (view t) = v.shape (view s)

/-- Every leaf becomes a value of its shape. What becomes of a sample may depend on what becomes of the sampled value. -/
structure Traversal.KeepsShapes (r : Traversal m) (view : S → Arenas) (I : S → Prop) : Prop where
  arenas : ∀ {s σ t}, Gives r.arenas s σ t ↔ σ = view s ∧ s = t
  const : ∀ n sh, r.KeepsShape view I (.const n sh)
  net : ∀ n, r.KeepsShape view I (.net n)
  initial : r.KeepsShape view I .initial
  sample : ∀ {v} clocks d, r.KeepsShape view I v → r.KeepsShape view I (.sample v clocks d)

namespace Traversal.KeepsShapes

/-- Operands one after the other keep their shapes, whatever the later ones do. -/
theorem operands {vs : List Value} {bs : List (Value × Bool)} (hvs : ∀ v ∈ vs, r.KeepsShape view I v)
    (hfirm : ∀ v ∈ vs, v.Firm (view s)) (hs : I s) (h : Threads (Becomes r) vs s bs t) :
    I t ∧ (view s).Extends (view t) ∧ (∀ b ∈ bs, b.1.Issued (view t)) ∧
      (bs.map Prod.fst).map (shape (view t)) = vs.map (shape (view s)) := by
  have hrun := h.carry (G := fun s t => (view s).Extends (view t))
    (p := fun s' v => v.Firm (view s') ∧ v.shape (view s') = v.shape (view s))
    (q := fun t v b => b.1.Issued (view t) ∧ b.1.shape (view t) = v.shape (view s)) (fun _ => .refl _) .trans
    (fun hext hv => ⟨(hv.1.extend hext).1, (hv.1.extend hext).2.trans hv.2⟩)
    (fun hext hb => ⟨(hb.1.extend hext).1, (hb.1.extend hext).2.trans hb.2⟩) ?_ hs fun v hv => ⟨hfirm v hv, rfl⟩
  · refine ⟨hrun.1, hrun.2.1, fun b hb => (forall₂_mem_right hrun.2.2 hb).choose_spec.2.1, ?_⟩
    rw [← forall₂_eq_eq_eq, map_map, forall₂_map_left_iff, forall₂_map_right_iff]
    exact hrun.2.2.flip.imp fun _ _ hb => hb.2
  · rintro v hv s' b t' hs' ⟨hfirm', hshape⟩ ⟨o, ho, rfl⟩
    obtain ⟨ht', hext, hissued, hshape'⟩ := (hvs v hv hs' hfirm').2 ho
    exact ⟨ht', hext, hissued, hshape'.trans hshape⟩

/-- By induction on the value: a construct can be made again over operands of the shapes that they had. -/
theorem value (h : r.KeepsShapes view I) (v : Value) : r.KeepsShape view I v := by
  induction v using operands_induct with
  | const n sh => exact h.const n sh
  | net n => exact h.net n
  | initial => exact h.initial
  | sample v clocks d ih => exact h.sample clocks d ih
  | compound v hv ih =>
    intro s hs hfirm
    obtain ⟨hcurrent, hparts⟩ := hfirm.parts hv
    refine ⟨?_, fun o t hg => ?_⟩
    · obtain ⟨bs, t, hbs, -⟩ := Threads.exists_of (R := Becomes r) (I := fun t => I t ∧ (view s).Extends (view t))
        (fun c hc t ht => by
          obtain ⟨⟨o, t', ho⟩, hkeeps⟩ := ih c hc ht.1 ((hparts c hc).extend ht.2).1
          exact ⟨_, t', ⟨o, ho, rfl⟩, (hkeeps ho).1, ht.2.trans (hkeeps ho).2.1⟩) ⟨hs, .refl _⟩
      obtain ⟨o, ho⟩ := Finishes.exists_of_shapes hv hbs (h.arenas.mpr ⟨rfl, rfl⟩) (operands ih hparts hs hbs).2.2.2
        fun _ => hcurrent
      exact ⟨o, t, (gives_compound hv).mpr ⟨bs, t, hbs, ho⟩⟩
    · obtain ⟨bs, t', hbs, hf⟩ := (gives_compound hv).mp hg
      obtain rfl := hf.same fun hσ => (h.arenas.mp hσ).2
      obtain ⟨ht, hext, hissued, hshapes⟩ := operands ih hparts hs hbs
      obtain ⟨hlike, hform⟩ := hf.form hv hbs
      have hnote := hf.note_eq hv hbs (fun hσ => (h.arenas.mp hσ).1) hshapes hcurrent
      refine ⟨ht, hext, (issued_iff hlike.not_isLeaf).mpr ?_, hlike.shape hnote (hform ▸ hshapes)⟩
      rw [hform, forall_mem_map]
      exact hissued

/-- What becomes of the leaves is all that changes, apart from the shapes of operators. -/
theorem rewritten (h : r.KeepsShapes view I) {L : Value → Value → Prop}
    (hL : ∀ {v s o t}, v.IsLeaf → I s → Gives (v.traverse r) s o t → L v (o.getD v)) {o : Option Value} (hs : I s)
    (hfirm : v.Firm (view s)) (hg : Gives (v.traverse r) s o t) : v.Rewritten L (o.getD v) := by
  induction v using operands_induct generalizing s o t with
  | const | net | sample | initial => exact hL trivial hs hg
  | compound v hv ih =>
    obtain ⟨bs, t', hbs, hf⟩ := (gives_compound hv).mp hg
    obtain ⟨hlike, hform⟩ := hf.form hv hbs
    refine (rewritten_iff hv).mpr ⟨hlike, ?_⟩
    rw [hform, forall₂_map_right_iff]
    refine (hbs.carry (G := fun s t => (view s).Extends (view t)) (p := fun s c => c.Firm (view s))
      (q := fun _ c b => c.Rewritten L b.1) (fun _ => .refl _) .trans (fun hext hc => (hc.extend hext).1) (fun _ hb => hb)
      ?_ hs (hfirm.parts hv).2).2.2
    rintro c hc s' b t' hs' hfirm' ⟨o, ho, rfl⟩
    obtain ⟨ht', hext, -⟩ := (h.value c hs' hfirm').2 ho
    exact ⟨ht', hext, ih c hc hs' hfirm' ho⟩

end Traversal.KeepsShapes

/-- A traversal that keeps the shapes of leaves gives every value that can be built another one of its shape. If it turns
nets into nets, those of one key into those of one key, a value that can be assigned to becomes one, and the nets that
an assignment to it writes are the images of those that were written, in order and each once. -/
theorem traversed_keeps_shape (h : r.KeepsShapes view I) (hs : I s) (hv : Constructed (view s) v)
    (hissued : v.Issued (view s)) :
    (∃ w t, Gives (v.traversed r) s w t) ∧
    ∀ w t, Gives (v.traversed r) s w t → w.shape (view t) = v.shape (view s) ∧
      ∀ g : Net → Net, (∀ n n' : Net, n.key = n'.key → (g n).key = (g n').key) →
        (∀ n s o t, I s → Gives (r.net n) s o t → o.getD (.net n) = .net (g n)) →
        ∀ ts, v.targets = .ok ts → w.targets = .ok (.ofList (ts.items.map g)) := by
  have hfirm : v.Firm (view s) := ⟨hv.sound, hissued⟩
  obtain ⟨⟨o, t, ho⟩, hkeeps⟩ := h.value v hs hfirm
  refine ⟨⟨_, t, gives_traversed.mpr ⟨o, ho, rfl⟩⟩, fun w t hg => ?_⟩
  obtain ⟨o, ho, rfl⟩ := gives_traversed.mp hg
  refine ⟨(hkeeps ho).2.2.2, fun g hkeys hnet ts hts => ?_⟩
  have hrewritten := h.rewritten (L := fun u u' => ∀ n, u = .net n → u' = .net (g n))
    (fun _ hs hg n hn => by subst hn; exact hnet n _ _ _ hs hg) hs hfirm ho
  obtain ⟨ns, hns, rfl⟩ := targets_eq_ok_iff.mp hts
  have hwritten := hrewritten.written fun u hu _ u' hu' => by
    rw [hns] at hu
    obtain ⟨n, -, rfl⟩ := mem_map.mp hu
    rw [hu' n rfl]
    trivial
  rw [hns, forall₂_map_left_iff] at hwritten
  refine targets_eq_ok_iff.mpr ⟨ns.map g, ?_, NetSet.ofList_map_items hkeys ns⟩
  rw [map_map, eq_comm, ← forall₂_eq_eq_eq, forall₂_map_left_iff]
  exact hwritten.imp fun n u hu => (hu n rfl).symm

end Traversal

section Joined

open Value

/-- References to clocks and resets become those of one domain. Samples are left alone. -/
def joining : Traversal (Except Failure) :=
  { Traversal.identity (pure .empty) with
    net := fun
      | .signal _ => pure none
      | .clock _ => pure (some (.net (.clock "pix")))
      | .reset _ allow => pure (some (.net (.reset "pix" allow)))
    sample := fun _ _ _ _ => pure none }

def joinedNet : Net → Net
  | .clock _ => .clock "pix"
  | .reset _ allow => .reset "pix" allow
  | n => n

def clockPair : Value := .cat [.net (.clock "a"), .net (.clock "b")]

def clockSum : Value := .binary .add (.net (.clock "a")) (.net (.clock "b")) (.unsigned 2)

theorem joining_keepsShapes : joining.KeepsShapes (fun _ => .empty) fun _ => True := by
  have hleaf {v : Value} {o : Option Value} (h : v.traverse joining = .ok o)
      (hshape : (o.getD v).shape .empty = v.shape .empty) (hissued : v.Issued .empty → (o.getD v).Issued .empty) :
      joining.KeepsShape (fun _ => .empty) (fun _ => True) v := by
    refine fun s _ hfirm => ⟨⟨o, s, h⟩, fun o' t hg => ?_⟩
    obtain rfl := Except.ok.inj (h.symm.trans hg)
    exact ⟨trivial, .refl _, hissued hfirm.issued, hshape⟩
  refine ⟨?_, fun n sh => hleaf rfl rfl id, fun n => ?_, hleaf rfl rfl id, fun _ _ _ => hleaf rfl rfl id⟩
  · intro s σ t
    exact except_pure_eq_ok.trans (by simp [eq_comm])
  · cases n with
    | signal => exact hleaf rfl rfl fun h => h
    | clock | reset => exact hleaf rfl rfl fun _ => by simp [Issued, subvalues, signal]

theorem constructed_clocks : Constructed .empty (.part clockPair clockSum 1 1) := by
  have ha : Constructed .empty (.net (.clock "a")) := .clock (d := "a") rfl
  have hb : Constructed .empty (.net (.clock "b")) := .clock (d := "b") rfl
  have hcat : mkCat [.value (.net (.clock "a")), .value (.net (.clock "b"))] = .ok clockPair := by rfl
  have hadd : operator .empty "+" [.value (.net (.clock "a")), .value (.net (.clock "b"))] = .ok clockSum := by rfl
  have hpart : mkPart .empty clockPair clockSum 1 1 = .ok (.part clockPair clockSum 1 1) := by rfl
  exact .part (.cat (by simpa using ⟨ha, hb⟩) hcat) (.operator (by simpa using ⟨ha, hb⟩) hadd) hpart

/-- Two clocks become one, which is written once. -/
theorem traversed_keeps_shape_clocks : ∃ w, (part clockPair clockSum 1 1).traversed joining = .ok w ∧
    w.shape .empty = (part clockPair clockSum 1 1).shape .empty ∧
    (part clockPair clockSum 1 1).targets = .ok ⟨[.clock "a", .clock "b"]⟩ ∧ w.targets = .ok ⟨[.clock "pix"]⟩ := by
  have hissued : (part clockPair clockSum 1 1).Issued .empty := by
    simp [Issued, clockPair, clockSum, subvalues, subvaluesAll, signal]
  have hkeys : ∀ n n' : Net, n.key = n'.key → (joinedNet n).key = (joinedNet n').key := by
    intro n n' h
    cases n <;> cases n' <;> simp_all [joinedNet, Net.key]
  obtain ⟨⟨w, t, hw⟩, hkeeps⟩ := traversed_keeps_shape joining_keepsShapes (s := ()) trivial constructed_clocks hissued
  obtain ⟨hshape, himage⟩ := hkeeps w t hw
  refine ⟨w, hw, hshape, rfl, himage joinedNet hkeys ?_ ⟨[.clock "a", .clock "b"]⟩ rfl⟩
  intro n s o t _ hg
  cases n <;> cases hg <;> rfl

end Joined
end Rtl
