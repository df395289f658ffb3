import Mathlib
import Rtl.Proofs.SampleChains

/-!
# Lowering samples

Lowering the samples of a fit tree gives a fit tree over constants and nets. Each sample becomes a register of its own
shape, whether it is new or was met before under the same key; the registers are assigned in the fragment that samples,
and the first-cycle flag becomes the output of a cell that stands alone.
-/
namespace Rtl

variable {σ σ' : Arenas} {cs : List (String × Fragment)} {f : Fragment} {a : Nat}

/-- A fit body over constants and nets. -/
abbrev Body.Plain (σ : Arenas) (b : Body) : Prop := b.Fit (Value.Plain σ) (Value.Plain σ) σ

/-- A fit tree over constants and nets. -/
abbrev Fragment.Plain (σ : Arenas) (f : Fragment) : Prop := f.Fit (Value.Plain σ) (Value.Plain σ) σ

theorem Fragment.plain_node {b : Body} :
    (node b cs).Plain σ ↔
      b.Plain σ ∧ (b.cell.isSome → cs = [] ∧ b.driverPairs = []) ∧ ∀ c ∈ cs, c.2.Plain σ := fit_node

theorem Fragment.Plain.mono (h : f.Plain σ) (hx : σ.Extends σ') : f.Plain σ' :=
  h.lasting (Value.lasting_plain hx) (Value.lasting_plain hx) hx

namespace Delays

variable {s t : State} {base : Arenas} {v w : Value} {b : Body}

/-- What a leaf has become stands for it. -/
theorem Became.plain (ht : Linked True a base t) (hv : v.IsLeaf) (htimed : v.Timed t.arenas) (h : Became t v w) :
    w.Plain t.arenas ∧ w.shape t.arenas = v.shape t.arenas := by
  cases v with
  | const | net =>
    obtain rfl := h
    exact ⟨htimed, rfl⟩
  | initial =>
    obtain ⟨id, hid, rfl⟩ := h
    exact ht.bit hid
  | sample v => exact ht.stands_of_get? (v := v) trivial htimed h.2
  | _ => exact hv.elim

theorem samplable_of_timed (h : v.Timed σ) : Samplable v := by
  cases v with
  | sample => exact Value.isSampled_of_plain h
  | _ => trivial

theorem traversal_carries (a : Nat) (base : Arenas) :
    Carries (traversal a) State.arenas (Linked True a base) Value.Timed Value.Plain where
  source := Value.lasting_timed
  target := Value.lasting_plain
  arenas := traversal_arenas
  statement := traversal_statement
  leaf {v s o t} hv hs hp hg := by
    obtain ⟨ht, hgrows, hbecame⟩ := leaf_became hs hv (samplable_of_timed hp) (fun _ => hp) hg
    obtain ⟨htimed, hshape⟩ := Value.lasting_timed hgrows.keeps.toExtends v hv hp
    obtain ⟨hplain, hsame⟩ := hbecame.plain ht hv htimed
    exact ⟨ht, hgrows.keeps.toExtends, hplain.built, hsame.trans hshape⟩

/-- Where there are no samples nothing is lowered: the delays stay as they are, whatever holds of them. -/
theorem traversal_carries_plain (a : Nat) (I : State → Prop) :
    Carries (traversal a) State.arenas I Value.Plain Value.Plain where
  source := Value.lasting_plain
  target := Value.lasting_plain
  arenas := traversal_arenas
  statement := traversal_statement
  leaf := by
    intro v s o t _ hs hp hg
    cases v with
    | const | net =>
      rw [Value.traverse] at hg
      obtain ⟨rfl, rfl⟩ := gives_pure.mp hg
      exact ⟨hs, .refl _, hp, rfl⟩
    | _ => exact hp.elim

theorem domainsKept (a : Nat) (I : State → Prop) : Body.DomainsKept (pass a) State.arenas I := by
  intro cd cd' s t hs hcd hg
  obtain ⟨rfl, rfl⟩ := gives_pure.mp hg
  exact ⟨hs, .refl _, hcd⟩

/-- The registers of a fragment that is no cell leave it fit. -/
theorem addChain_fit {chains : List (String × List (SignalId × Value))} (hb : b.Plain σ) (hcell : b.cell = none)
    (hlines : ∀ c ∈ chains, ∀ l ∈ c.2, σ.Issued l.1 ∧ l.2.Plain σ) :
    (chains.foldl (fun b c => addChain b c.1 c.2) b).Plain σ ∧
      (chains.foldl (fun b c => addChain b c.1 c.2) b).cell = none := by
  induction chains generalizing b with
  | nil => exact ⟨hb, hcell⟩
  | cons c chains ih =>
    obtain ⟨hc, hlines⟩ := List.forall_mem_cons.mp hlines
    refine ih (b := addChain b c.1 c.2) ⟨hb.ports, ?_, hb.domains, ?_, hb.bound⟩ hcell hlines
    · intro x hx
      rcases List.mem_append.mp hx with hx | hx
      · exact hb.statements x hx
      · obtain ⟨l, hl, rfl⟩ := List.mem_map.mp hx
        have hreg : (Value.signal l.1).Plain σ := (hc l hl).1
        exact ⟨hreg.built, (hc l hl).2.built⟩
    · intro hsome
      rw [show (addChain b c.1 c.2).cell = b.cell from rfl, hcell] at hsome
      cases hsome

theorem initialCell_fit {id : SignalId} (h : ClockDomain.IsBit σ id) : (initialCell id).Plain σ := by
  rw [initialCell, Fragment.leaf, Fragment.plain_node]
  refine ⟨⟨rfl, by simp [Body.empty], by simp [Body.empty], fun _ => rfl, ?_⟩, fun _ => ⟨rfl, rfl⟩, by simp⟩
  rintro i hi x hx
  cases hi
  obtain rfl := List.mem_singleton.mp hx
  have hid : (Value.signal id).Plain σ := h.1
  exact hid.built

theorem complete_fit (hs : Linked True a base s) (hb : b.Plain s.arenas) (hcell : b.cell = none)
    (hcs : ∀ c ∈ cs, c.2.Plain s.arenas) : (complete s.delays (.node b cs)).Plain s.arenas := by
  obtain ⟨hfit, hnone⟩ := addChain_fit hb hcell fun c hc l hl =>
    have hline : s.delays.Line c.1 l.1 l.2 := ⟨c, hc, rfl, hl⟩
    ⟨(hs.fresh hline).2.1, hs.plain trivial hline⟩
  rw [complete, Fragment.plain_node]
  refine ⟨hfit, ?_, ?_⟩
  · intro hsome
    rw [hnone] at hsome
    cases hsome
  · intro c hc
    rcases List.mem_append.mp hc with hc | hc
    · exact hcs c hc
    · obtain ⟨id, hid, rfl⟩ := Option.map_eq_some_iff.mp (Option.mem_toList.mp hc)
      exact initialCell_fit (hs.bit hid)

/-- A cell has nothing to lower, so its fragment gets neither registers nor children. -/
theorem cell_top_fit (hs : a < s.arenas.list.size) (hb : b.Fit (Value.Timed s.arenas) (Value.Plain s.arenas) s.arenas)
    (hcell : b.cell.isSome = true) (hdrivers : b.driverPairs = [])
    (hg : Gives (Fragment.traverseTop (pass a) b []) s f t) :
    a < t.arenas.list.size ∧ s.arenas.Extends t.arenas ∧ f.Plain t.arenas := by
  have hplain : b.Plain s.arenas := by
    refine ⟨hb.ports, ?_, hb.domains, hb.silent, hb.bound⟩
    rw [hb.silent hcell]
    simp
  obtain ⟨nb, hbody, rfl⟩ := top_inv hg
  have hcarries := traversal_carries_plain a fun s => s.delays = .empty
  obtain ⟨hempty, hx, hfit, hsome, hidle⟩ := Body.traverse_fit hcarries hcarries (fun hg => (traversal_net hg).2)
    (domainsKept a _) (s := { s with delays := .empty }) rfl hplain hbody
  refine ⟨hs.trans_eq hx.size.symm, hx, ?_⟩
  rw [hempty]
  exact Fragment.plain_node.mpr ⟨hfit, fun _ => ⟨rfl, hidle hdrivers⟩, fun c hc => nomatch hc⟩

theorem pass_finishes (a : Nat) :
    Fragment.Finishes (pass a) State.arenas (fun s => a < s.arenas.list.size) Value.Timed Value.Plain Value.Plain Value.Plain where
  source := Value.lasting_timed
  sourceCell := Value.lasting_plain
  target := Value.lasting_plain
  targetCell := Value.lasting_plain
  top := by
    intro b cs f s t hs hb hleaf hcs hg
    cases hcell : b.cell with
    | some =>
      have hsome : b.cell.isSome = true := by rw [hcell]; rfl
      obtain ⟨rfl, hdrivers⟩ := hleaf hsome
      exact cell_top_fit hs hb hsome hdrivers hg
    | none =>
      obtain ⟨nb, hbody, rfl⟩ := top_inv hg
      obtain ⟨hs3, hx, hfit, hsome, -⟩ := Body.traverse_fit (traversal_carries a s.arenas)
        (traversal_carries_plain a _) (fun hg => (traversal_net hg).2) (domainsKept a _) (linked_start hs) hb hbody
      have hnone : nb.cell = none := by
        rw [hcell] at hsome
        exact Option.not_isSome_iff_eq_none.mp (by simp [hsome])
      refine ⟨hs.trans_eq hx.size.symm, hx, complete_fit hs3 hfit hnone ?_⟩
      exact fun c hc => Fragment.Plain.mono (hcs c hc) hx

end Delays

theorem Fragment.lowerSamples_fit {f' : Fragment} (ha : a < σ.list.size) (hf : f.Fit (Value.Timed σ) (Value.Plain σ) σ)
    (h : f.lowerSamples σ a = (.ok f', σ')) : σ.Extends σ' ∧ f'.Plain σ' := by
  obtain ⟨t, hg, rfl⟩ := lowerSamples_inv h
  exact ((Delays.pass_finishes a).traverse (s := ⟨σ, .empty⟩) ha hf hg).2

end Rtl
