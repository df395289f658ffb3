import Mathlib
import Rtl.Proofs.Rewriting
import Rtl.Proofs.Widths

/-!
# Filling in the domains of samples

Where a sample names no domain, one is filled in, and what stands over it is made again. So operators over such samples
get the shapes that their operands give them now, and a shift may be left without one; everything else stays as it was.
Where these operators have their shapes already, only names in samples change.
-/
namespace Rtl

open List

namespace Value

variable {v w : Value} {vs : List Value} {σ : Arenas} {d : String}

mutual

/-- The value with other shapes of operators and other domains of samples. -/
def relabel (f : Shape → Shape) (g : String → String) : Value → Value
  | .const n s => .const n s
  | .net n => .net n
  | .unary op a s => .unary op (relabel f g a) (f s)
  | .binary op a b s => .binary op (relabel f g a) (relabel f g b) (f s)
  | .mux sel a b s => .mux (relabel f g sel) (relabel f g a) (relabel f g b) (f s)
  | .slice v start stop => .slice (relabel f g v) start stop
  | .part v offset width stride => .part (relabel f g v) (relabel f g offset) width stride
  | .cat parts => .cat (relabelAll f g parts)
  | .repl v count => .repl (relabel f g v) count
  | .proxy elems index => .proxy (relabelAll f g elems) (relabel f g index)
  | .sample v clocks domain => .sample (relabel f g v) clocks (g domain)
  | .initial => .initial

def relabelAll (f : Shape → Shape) (g : String → String) : List Value → List Value
  | [] => []
  | v :: vs => relabel f g v :: relabelAll f g vs

end

/-- The domain that is given, unless there is one. -/
def orDomain (d name : String) : String := if name = "" then d else name

/-- The value with the domain filled in where a sample names none. -/
def filled (d : String) : Value → Value := relabel id (orDomain d)

/-- The value without the shapes that its operators were given. -/
def bare : Value → Value := relabel (fun _ => default) id

section Relabel

variable {f f' : Shape → Shape} {g g' : String → String}

theorem relabelAll_eq_map (vs : List Value) : relabelAll f g vs = vs.map (relabel f g) := by
  induction vs with
  | nil => rfl
  | cons v vs ih => rw [relabelAll, ih, map_cons]

theorem children_relabel (v : Value) : (v.relabel f g).children = v.children.map (relabel f g) := by
  cases v <;> simp [relabel, children, relabelAll_eq_map]

theorem operands_relabel (v : Value) : (v.relabel f g).operands = v.operands.map (relabel f g) := by
  cases v <;> simp [relabel, operands, relabelAll_eq_map]

theorem like_relabel (hv : ¬ v.IsLeaf) : v.Like (v.relabel f g) := by
  cases v <;> first | constructor | exact absurd trivial hv

theorem note_relabel_id (v : Value) : (v.relabel id g).note = v.note := by
  cases v <;> rfl

theorem note_bare (v : Value) : v.bare.note = default := by
  cases v <;> rfl

theorem relabel_relabel (v : Value) : (v.relabel f g).relabel f' g' = v.relabel (f' ∘ f) (g' ∘ g) := by
  induction v using operands_induct with
  | const | net | initial => rfl
  | sample v clocks domain ih => simp [relabel, ih]
  | compound v => cases v <;> simp_all [relabel, relabelAll_eq_map, operands, IsLeaf]

theorem shape_relabel_id (σ : Arenas) (v : Value) : (v.relabel id g).shape σ = v.shape σ := by
  induction v using operands_induct with
  | const | net | initial => rfl
  | sample v clocks domain ih => exact ih
  | compound v hv ih =>
    refine (like_relabel hv).shape (note_relabel_id v) ?_
    rw [operands_relabel, map_map]
    exact map_congr_left ih

theorem written_relabel (v : Value) : (v.relabel f g).written = v.written.map (relabel f g) := by
  have hlist : ∀ {vs : List Value}, (∀ v ∈ vs, (v.relabel f g).written = v.written.map (relabel f g)) →
      writtenAll (relabelAll f g vs) = (writtenAll vs).map (relabel f g) := by
    intro vs ih
    induction vs with
    | nil => rfl
    | cons v vs ihvs =>
      obtain ⟨hv, hvs⟩ := forall_mem_cons.mp ih
      rw [relabelAll, writtenAll, writtenAll, hv, ihvs hvs, map_append]
  induction v with
  | slice v i j ih => exact ih
  | part v offset width stride ih => exact ih
  | cat parts ih => exact hlist ih
  | proxy elems index ih => exact hlist ih
  | const | net | unary | binary | mux | repl | sample | initial => rfl

theorem relabel_eq_net {n : Net} : v.relabel f g = .net n ↔ v = .net n := by
  cases v <;> simp [relabel]

theorem targets_relabel {t : NetSet} : (v.relabel f g).targets = .ok t ↔ v.targets = .ok t := by
  have hnets {us : List Value} {ns : List Net} : us.map (relabel f g) = ns.map .net ↔ us = ns.map .net := by
    simp only [← forall₂_eq_eq_eq, forall₂_map_left_iff, forall₂_map_right_iff, relabel_eq_net]
  simp only [targets_eq_ok_iff, written_relabel, hnets]

end Relabel

/-- All samples in the value name a domain. -/
def Named (v : Value) : Prop := ∀ u ∈ v.subvalues, ∀ w clocks, u ≠ .sample w clocks ""

theorem named_iff : v.Named ↔ (∀ w clocks, v ≠ .sample w clocks "") ∧ ∀ c ∈ v.children, c.Named := forall_subvalues

/-- Operators over samples that name no domain have the shapes that their operands give them now. -/
def Settled (σ : Arenas) (v : Value) : Prop := ∀ u ∈ v.subvalues, ¬ u.Named → u.Current σ

theorem settled_iff : v.Settled σ ↔ (¬ v.Named → v.Current σ) ∧ ∀ c ∈ v.children, c.Settled σ := forall_subvalues

theorem Named.settled (h : v.Named) : v.Settled σ := fun _ hu hopen =>
  absurd (fun _ ht => h _ (subvalues_trans ht hu)) hopen

theorem named_relabel {f : Shape → Shape} {g : String → String} : (v.relabel f g).Named ↔
    ∀ u ∈ v.subvalues, ∀ w clocks name, u = .sample w clocks name → g name ≠ "" := by
  induction v using children_induct with
  | h v ih =>
    rw [named_iff, forall_subvalues, children_relabel, forall_mem_map]
    refine and_congr ?_ (forall₂_congr ih)
    cases v <;> simp [relabel]

theorem named_bare : v.bare.Named ↔ v.Named := by
  refine named_relabel.trans (forall₂_congr fun u _ => ?_)
  constructor
  · rintro h w clocks rfl
    exact h w clocks "" rfl rfl
  · rintro h w clocks name rfl rfl
    exact h w clocks rfl

theorem named_filled (hd : d ≠ "") (v : Value) : (v.filled d).Named := by
  refine named_relabel.mpr fun _ _ _ _ name _ => ?_
  rw [orDomain]
  split <;> assumption

theorem shape_filled (v : Value) : (v.filled d).shape σ = v.shape σ := shape_relabel_id σ v

theorem named_of_children (h : v.children = []) : v.Named := by
  refine named_iff.mpr ⟨?_, by simp [h]⟩
  rintro w clocks rfl
  cases h

theorem named_iff_operands (hv : ¬ v.IsLeaf) : v.Named ↔ ∀ c ∈ v.operands, c.Named := by
  rw [named_iff, and_iff_right]
  · simp only [mem_children_iff hv]
  · rintro w clocks rfl
    exact hv trivial

/-- With a domain in all samples there is none to fill in. -/
theorem Named.filled_eq (h : v.Named) : v.filled d = v := by
  induction v using operands_induct with
  | const | net | initial => rfl
  | sample u clocks name ih =>
    obtain ⟨hname, hu⟩ := named_iff.mp h
    have hne : name ≠ "" := fun hname' => hname u clocks (hname' ▸ rfl)
    change sample (u.filled d) clocks (orDomain d name) = _
    rw [ih (hu u (mem_singleton_self u)), orDomain, if_neg hne]
  | compound v hv ih =>
    refine (like_relabel hv).ext ?_ (note_relabel_id v)
    rw [operands_relabel]
    exact (map_congr_left fun c hc => ih c hc ((named_iff_operands hv).mp h c hc)).trans (map_id _)

/-- What becomes of a value when the domain `d` is filled in. It is kept if all of its samples name a domain. Samples
without one get `d`, and constructs over them are made again, operators with the shapes that their operands give them
now. -/
inductive Refills (σ : Arenas) (d : String) : Value → Value → Prop
  | kept {v : Value} (hv : v.Named) : Refills σ d v v
  | sample {v w : Value} {clocks : Int} {name : String} (h : Refills σ d v w) :
    Refills σ d (.sample v clocks name) (.sample w clocks (orDomain d name))
  | again {v w : Value} (hopen : ¬ v.Named) (hlike : v.Like w)
    (hops : List.Forall₂ (Refills σ d) v.operands w.operands) (hcurrent : w.Current σ) : Refills σ d v w

theorem refills_sample {clocks : Int} {name : String} :
    (sample v clocks name).Refills σ d w ↔ ∃ u, v.Refills σ d u ∧ w = .sample u clocks (orDomain d name) := by
  constructor
  · intro h
    cases h with
    | kept hv =>
      obtain ⟨hname, hv⟩ := named_iff.mp hv
      have hne : name ≠ "" := fun hname' => hname v clocks (hname' ▸ rfl)
      exact ⟨v, .kept (hv v (mem_singleton_self v)), by rw [orDomain, if_neg hne]⟩
    | sample h => exact ⟨_, h, rfl⟩
    | again hopen hlike => cases hlike
  · rintro ⟨u, hu, rfl⟩
    exact .sample hu

theorem refills_iff (hv : ¬ v.IsLeaf) : v.Refills σ d w ↔ v.Named ∧ w = v ∨
    ¬ v.Named ∧ v.Like w ∧ List.Forall₂ (Refills σ d) v.operands w.operands ∧ w.Current σ := by
  constructor
  · intro h
    cases h with
    | kept hnamed => exact .inl ⟨hnamed, rfl⟩
    | sample => exact absurd trivial hv
    | again hopen hlike hops hcurrent => exact .inr ⟨hopen, hlike, hops, hcurrent⟩
  · rintro (⟨hnamed, rfl⟩ | ⟨hopen, hlike, hops, hcurrent⟩)
    · exact .kept hnamed
    · exact .again hopen hlike hops hcurrent

theorem Refills.operands (h : v.Refills σ d w) (hv : ¬ v.IsLeaf) :
    List.Forall₂ (Refills σ d) v.operands w.operands := by
  obtain ⟨hnamed, rfl⟩ | ⟨-, -, hops, -⟩ := (refills_iff hv).mp h
  · exact forall₂_same.mpr fun c hc => .kept ((named_iff_operands hv).mp hnamed c hc)
  · exact hops

section Traverse

variable {o : Option Value} {s t : Unit} {bs : List (Value × Bool)}

theorem refillsAll_of_threads
    (ih : ∀ v ∈ vs, ∀ {o}, v.traverse (Statement.sampleFiller σ d) = .ok o →
      (o = none ↔ v.Named) ∧ v.Refills σ d (o.getD v))
    (h : Threads (Becomes (Statement.sampleFiller σ d)) vs s bs t) :
    (¬ bs.any Prod.snd ↔ ∀ v ∈ vs, v.Named) ∧ List.Forall₂ (Refills σ d) vs (bs.map Prod.fst) := by
  induction h with
  | nil => simp
  | cons head tail ihvs =>
    obtain ⟨ihv, ihrest⟩ := forall_mem_cons.mp ih
    obtain ⟨o, ho, rfl⟩ := head
    obtain ⟨hnone, hv⟩ := ihv ho
    obtain ⟨hnones, hvs⟩ := ihvs ihrest
    refine ⟨?_, .cons hv hvs⟩
    rw [forall_mem_cons, ← hnone, ← hnones]
    cases o <;> simp

/-- By induction on the value. What is given back is nothing exactly for a value that is kept. -/
theorem refills_of_traverse (v : Value) : ∀ {o}, v.traverse (Statement.sampleFiller σ d) = .ok o →
    (o = none ↔ v.Named) ∧ v.Refills σ d (o.getD v) := by
  induction v using operands_induct with
  | const | net | initial =>
    intro o h
    obtain rfl := except_pure_eq_ok.mp h
    exact ⟨iff_of_true rfl (named_of_children rfl), .kept (named_of_children rfl)⟩
  | sample v clocks name ih =>
    intro o h
    obtain ⟨inner, hinner, h⟩ := except_bind_eq_ok.mp (h : (_ >>= _) = Except.ok o)
    obtain ⟨hnone, hv⟩ := ih hinner
    rw [refills_sample]
    by_cases hname : name = ""
    · subst hname
      obtain rfl := Except.ok.inj h
      exact ⟨iff_of_false (by simp) fun hn => (named_iff.mp hn).1 v clocks rfl, _, hv, rfl⟩
    · have ho : inner.map (sample · clocks name) = o := by
        split at h
        · exact absurd rfl hname
        · exact Except.ok.inj h
        · exact Except.ok.inj h
      rw [← ho, map_getD, orDomain, if_neg hname]
      refine ⟨?_, _, hv, rfl⟩
      rw [Option.map_eq_none_iff, hnone, named_iff (v := sample v clocks name)]
      simp [children, hname]
  | compound v hv ih =>
    intro o h
    obtain ⟨bs, s, hbs, hf⟩ := (gives_compound hv).mp (gives_of_ok h)
    obtain ⟨hnones, hops⟩ := refillsAll_of_threads ih hbs
    obtain ⟨hlike, hform⟩ := hf.form hv hbs
    have hnamed : o = none ↔ v.Named := hf.none_iff.trans (hnones.trans (named_iff_operands hv).symm)
    refine ⟨hnamed, ?_⟩
    by_cases ho : o = none
    · subst ho
      exact .kept (hnamed.mp rfl)
    · refine .again (fun hn => ho (hnamed.mpr hn)) hlike ?_ (hf.current ho fun hτ => (Except.ok.inj hτ).symm)
      rw [hform]
      exact hops

theorem exists_threads_of_refills {ws : List Value}
    (ih : ∀ v ∈ vs, ∀ {w}, v.Refills σ d w → v.traversed (Statement.sampleFiller σ d) = .ok w)
    (h : List.Forall₂ (Refills σ d) vs ws) :
    ∃ bs, Threads (Becomes (Statement.sampleFiller σ d)) vs () bs () ∧ bs.map Prod.fst = ws := by
  induction h with
  | nil => exact ⟨[], .nil, rfl⟩
  | cons hv hvs ihvs =>
    obtain ⟨ihv, ihrest⟩ := forall_mem_cons.mp ih
    obtain ⟨o, ho, rfl⟩ := except_bind_pure_eq_ok.mp (ihv hv)
    obtain ⟨bs, hbs, rfl⟩ := ihvs ihrest
    exact ⟨(_, _) :: bs, .cons ⟨o, ho, rfl⟩ hbs, rfl⟩

theorem Refills.traversed (h : v.Refills σ d w) : v.traversed (Statement.sampleFiller σ d) = .ok w := by
  induction v using operands_induct generalizing w with
  | const | net | initial =>
    cases h with
    | kept => rfl
    | again hopen hlike => cases hlike
  | sample v clocks name ih =>
    obtain ⟨u, hu, rfl⟩ := refills_sample.mp h
    obtain ⟨inner, hinner, rfl⟩ := except_bind_pure_eq_ok.mp (ih hu)
    refine except_bind_pure_eq_ok.mpr ?_
    by_cases hname : name = ""
    · subst hname
      exact ⟨_, except_bind_eq_ok.mpr ⟨inner, hinner, rfl⟩, rfl⟩
    · refine ⟨inner.map (Value.sample · clocks name), except_bind_eq_ok.mpr ⟨inner, hinner, ?_⟩, ?_⟩
      · cases inner <;> simp <;> rfl
      · rw [map_getD, orDomain, if_neg hname]
  | compound v hv ih =>
    obtain ⟨bs, hbs, hws⟩ := exists_threads_of_refills ih (h.operands hv)
    have hnones : ¬ bs.any Prod.snd ↔ v.Named :=
      (refillsAll_of_threads (fun c _ => refills_of_traverse c) hbs).1.trans (named_iff_operands hv).symm
    suffices hfinishes : ∃ o, v.Finishes (Statement.sampleFiller σ d) bs () o () ∧ o.getD v = w by
      obtain ⟨o, hf, hw⟩ := hfinishes
      exact except_bind_pure_eq_ok.mpr ⟨o, ok_of_gives ((gives_compound hv).mpr ⟨bs, (), hbs, hf⟩), hw⟩
    obtain ⟨hnamed, rfl⟩ | ⟨hopen, hlike, -, hcurrent⟩ := (refills_iff hv).mp h
    · refine ⟨none, ?_, rfl⟩
      rw [Finishes, if_neg (hnones.mpr hnamed)]
      exact ⟨rfl, rfl⟩
    · refine ⟨some w, ?_, rfl⟩
      rw [Finishes, if_pos (not_not.mp (mt hnones.mp hopen))]
      refine ⟨w, rfl, hlike, hws.symm, ?_⟩
      split
      · exact ⟨σ, rfl, hcurrent⟩
      · rfl

/-- The filler gives exactly what a value is refilled to. -/
theorem traversed_eq_ok_iff : v.traversed (Statement.sampleFiller σ d) = .ok w ↔ v.Refills σ d w := by
  refine ⟨fun h => ?_, Refills.traversed⟩
  obtain ⟨o, ho, rfl⟩ := except_bind_pure_eq_ok.mp h
  exact (v.refills_of_traverse ho).2

end Traverse

theorem Refills.unique {u : Value} (hw : v.Refills σ d w) (hu : v.Refills σ d u) : w = u :=
  Except.ok.inj (hw.traversed.symm.trans hu.traversed)

/-- Nothing changes but the domains of samples and the shapes of operators. -/
theorem Refills.bare (h : v.Refills σ d w) : w.bare = (v.filled d).bare := by
  induction v using operands_induct generalizing w with
  | const | net | initial =>
    cases h with
    | kept => rfl
    | again hopen hlike => cases hlike
  | sample v clocks name ih =>
    obtain ⟨u, hu, rfl⟩ := refills_sample.mp h
    exact congrArg (Value.sample · clocks (orDomain d name)) (ih hu)
  | compound v hv ih =>
    obtain ⟨hnamed, rfl⟩ | ⟨hopen, hlike, hops, hcurrent⟩ := (refills_iff hv).mp h
    · rw [hnamed.filled_eq]
    · have hbare : (v.filled d).bare.Like w.bare :=
        ((like_relabel hv).trans (like_relabel (like_relabel hv).not_isLeaf)).symm.trans
          (hlike.trans (like_relabel hlike.not_isLeaf))
      refine hbare.ext ?_ ((note_bare _).trans (note_bare _).symm)
      simp only [Value.bare, filled, operands_relabel]
      rw [← forall₂_eq_eq_eq, forall₂_map_left_iff, forall₂_map_right_iff, forall₂_map_right_iff]
      exact ((forall₂_mem hops).imp fun c c' ⟨hc, hcc⟩ => ih c hc hcc).flip

/-- A value is refilled to the filled one exactly if its operators over samples without a domain are settled. -/
theorem refills_filled_iff : v.Refills σ d (v.filled d) ↔ v.Settled σ := by
  induction v using operands_induct with
  | const | net | initial => exact iff_of_true (.kept (named_of_children rfl)) (named_of_children rfl).settled
  | sample v clocks name ih =>
    rw [settled_iff, refills_sample]
    constructor
    · rintro ⟨u, hu, heq⟩
      obtain ⟨rfl, -⟩ := Value.sample.inj heq
      exact ⟨fun _ => trivial, forall_mem_singleton.mpr (ih.mp hu)⟩
    · rintro ⟨-, hv⟩
      exact ⟨v.filled d, ih.mpr (hv v (mem_singleton_self v)), rfl⟩
  | compound v hv ih =>
    have hops : List.Forall₂ (Refills σ d) v.operands (v.filled d).operands ↔ ∀ c ∈ v.operands, c.Settled σ := by
      rw [filled, operands_relabel, forall₂_map_right_iff, forall₂_same]
      exact forall₂_congr ih
    have hcurrent : (v.filled d).Current σ ↔ v.Current σ := by
      refine (like_relabel hv).current_congr ?_ (note_relabel_id v)
      rw [operands_relabel, map_map]
      exact map_congr_left fun c _ => shape_filled c
    rw [refills_iff hv, settled_iff, hops, hcurrent]
    simp only [mem_children_iff hv]
    constructor
    · rintro (⟨hnamed, -⟩ | ⟨hopen, -, hparts, hself⟩)
      · exact ⟨absurd hnamed, fun c hc => ((named_iff_operands hv).mp hnamed c hc).settled⟩
      · exact ⟨fun _ => hself, hparts⟩
    · rintro ⟨hself, hparts⟩
      by_cases hnamed : v.Named
      · exact .inl ⟨hnamed, hnamed.filled_eq⟩
      · exact .inr ⟨hnamed, like_relabel hv, hparts, hself hnamed⟩

/-- An operator over samples without a domain that has no shape once they have one: a shift by too wide an amount. -/
def Shapeless (σ : Arenas) (d : String) (v : Value) : Prop :=
  ∃ op a b s a' b', v = .binary op a b s ∧ ¬ v.Named ∧ a.Refills σ d a' ∧ b.Refills σ d b' ∧
    op.shape? (a'.shape σ) (b'.shape σ) = none

theorem exists_refills_compound_iff (hv : ¬ v.IsLeaf) (hparts : ∀ c ∈ v.operands, ∃ c', c.Refills σ d c') :
    (∃ w, v.Refills σ d w) ↔ ¬ v.Shapeless σ d := by
  constructor
  · rintro ⟨w, h⟩ ⟨op, a, b, s, a', b', rfl, hopen, ha, hb, hnone⟩
    obtain ⟨hnamed, -⟩ | ⟨-, hlike, hops, hcurrent⟩ := (refills_iff hv).mp h
    · exact hopen hnamed
    · cases hlike with
      | binary =>
        obtain ⟨ha', hops⟩ := forall₂_cons.mp hops
        obtain ⟨hb', -⟩ := forall₂_cons.mp hops
        rw [ha.unique ha', hb.unique hb'] at hnone
        cases hnone.symm.trans hcurrent
  · intro hself
    by_cases hnamed : v.Named
    · exact ⟨v, .kept hnamed⟩
    · choose! f hf using hparts
      have hshape : ∀ op a b s a' b', v = .binary op a b s → v.operands.map f = [a', b'] →
          op.shape? (a'.shape σ) (b'.shape σ) ≠ none := by
        intro op a b s a' b' hbinary hops hnone
        subst hbinary
        cases hops
        exact hself ⟨op, a, b, s, f a, f b, rfl, hnamed, hf a (by simp [operands]), hf b (by simp [operands]), hnone⟩
      obtain ⟨w, hlike, hops, hcurrent⟩ := Like.exists_current hv (length_map f) hshape
      refine ⟨w, .again hnamed hlike ?_ hcurrent⟩
      rw [hops, forall₂_map_right_iff, forall₂_same]
      exact hf

/-- A value can be refilled exactly if no operator in it is left without a shape. -/
theorem exists_refills_iff : (∃ w, v.Refills σ d w) ↔ ∀ u ∈ v.subvalues, ¬ u.Shapeless σ d := by
  induction v using operands_induct with
  | const | net | initial =>
    refine iff_of_true ⟨_, .kept (named_of_children rfl)⟩ (forall_subvalues.mpr ⟨?_, fun c hc => absurd hc not_mem_nil⟩)
    rintro ⟨op, a, b, s, a', b', hv, -⟩
    cases hv
  | sample v clocks name ih =>
    have hsample : ¬ (sample v clocks name).Shapeless σ d := by
      rintro ⟨op, a, b, s, a', b', hv, -⟩
      cases hv
    rw [forall_subvalues, and_iff_right hsample]
    change _ ↔ ∀ c ∈ [v], ∀ u ∈ c.subvalues, ¬ u.Shapeless σ d
    rw [forall_mem_singleton, ← ih]
    constructor
    · rintro ⟨w, h⟩
      obtain ⟨u, hu, -⟩ := refills_sample.mp h
      exact ⟨u, hu⟩
    · rintro ⟨u, hu⟩
      exact ⟨_, .sample hu⟩
  | compound v hv ih =>
    rw [forall_subvalues]
    simp only [mem_children_iff hv]
    rw [← forall₂_congr ih]
    constructor
    · rintro ⟨w, h⟩
      have hparts : ∀ c ∈ v.operands, ∃ c', c.Refills σ d c' := by
        intro c hc
        obtain ⟨c', -, hcc⟩ := forall₂_mem_left (h.operands hv) hc
        exact ⟨c', hcc⟩
      exact ⟨(exists_refills_compound_iff hv hparts).mp ⟨w, h⟩, hparts⟩
    · rintro ⟨hself, hparts⟩
      exact (exists_refills_compound_iff hv hparts).mpr hself

/-- Exactly the values whose operators over samples without a domain are settled become the filled ones. -/
theorem traversed_eq_filled_iff : v.traversed (Statement.sampleFiller σ d) = .ok (v.filled d) ↔ v.Settled σ :=
  traversed_eq_ok_iff.trans refills_filled_iff

end Value

namespace Statement

variable {xs ys : List Statement}
variable {σ : Arenas} {d : String}

/-- Filling in a domain leaves everything but the values as it is, and of these everything but domains of samples and
shapes of operators. -/
theorem fillSampleDomain_eq_ok (h : fillSampleDomain σ d xs = .ok ys) :
    ∃ f, ys = xs.map (mapValues f) ∧ (∀ v ∈ bodyValues xs, v.traversed (sampleFiller σ d) = .ok (f v)) ∧
      ∀ v, (f v).bare = (v.filled d).bare := by
  obtain ⟨f, rfl, hvalues, hf⟩ := traverseAll_eq_ok (fun _ => rfl) (Value.filled d) h
  refine ⟨f, rfl, hvalues, fun v => ?_⟩
  obtain hv | hv := hf v
  · exact (Value.traversed_eq_ok_iff.mp hv).bare
  · rw [hv]

/-- Filling in a domain gives the statements with all values refilled. -/
theorem fillSampleDomain_eq_ok_iff : fillSampleDomain σ d xs = .ok ys ↔
    ∃ f, ys = xs.map (mapValues f) ∧ ∀ v ∈ bodyValues xs, v.Refills σ d (f v) := by
  constructor
  · intro h
    obtain ⟨f, hys, hf, -⟩ := fillSampleDomain_eq_ok h
    exact ⟨f, hys, fun v hv => Value.traversed_eq_ok_iff.mp (hf v hv)⟩
  · rintro ⟨f, rfl, hf⟩
    exact traverseAll_eq_map fun x hx => traverse_eq_mapValues (fun _ => rfl) fun v hv =>
      (hf v (mem_bodyValues.mpr ⟨x, hx, hv⟩)).traversed

/-- It fails exactly if some operator over a sample without a domain is left without a shape. -/
theorem fillSampleDomain_eq_error_iff : (∃ e, fillSampleDomain σ d xs = .error e) ↔
    ∃ v ∈ bodyValues xs, ∃ u ∈ v.subvalues, u.Shapeless σ d := by
  have hok : (∃ ys, fillSampleDomain σ d xs = .ok ys) ↔
      ∀ v ∈ bodyValues xs, ∀ u ∈ v.subvalues, ¬ u.Shapeless σ d := by
    simp only [← Value.exists_refills_iff]
    constructor
    · rintro ⟨ys, h⟩ v hv
      obtain ⟨f, -, hf⟩ := fillSampleDomain_eq_ok_iff.mp h
      exact ⟨f v, hf v hv⟩
    · intro h
      choose! f hf using h
      exact ⟨_, fillSampleDomain_eq_ok_iff.mpr ⟨f, rfl, hf⟩⟩
  have herror : (∃ e, fillSampleDomain σ d xs = .error e) ↔ ¬ ∃ ys, fillSampleDomain σ d xs = .ok ys := by
    cases fillSampleDomain σ d xs <;> simp
  rw [herror, hok]
  push Not
  rfl

theorem bodyValues_mapValues {f : Value → Value} : bodyValues (xs.map (mapValues f)) = (bodyValues xs).map f := by
  simp only [bodyValues_eq, flatMap_map, values_mapValues, map_flatMap]

theorem fillSampleDomain_eq_filled_iff :
    fillSampleDomain σ d xs = .ok (xs.map (mapValues (Value.filled d))) ↔ ∀ v ∈ bodyValues xs, v.Settled σ := by
  simp only [← Value.refills_filled_iff (d := d), fillSampleDomain_eq_ok_iff]
  constructor
  · rintro ⟨f, heq, hf⟩ v hv
    have hvalues := congrArg bodyValues heq
    rw [bodyValues_mapValues, bodyValues_mapValues] at hvalues
    rw [map_inj_left.mp hvalues v hv]
    exact hf v hv
  · exact fun h => ⟨_, rfl, h⟩

theorem fillSampleDomain_of_named (h : ∀ v ∈ bodyValues xs, v.Named) : fillSampleDomain σ d xs = .ok xs := by
  have hid : xs.map (mapValues id) = xs := (map_congr_left fun x _ => mapValues_id x).trans (map_id xs)
  exact fillSampleDomain_eq_ok_iff.mpr ⟨id, hid.symm, fun v hv => .kept (h v hv)⟩

end Statement
end Rtl
