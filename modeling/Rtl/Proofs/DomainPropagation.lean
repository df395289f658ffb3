import Mathlib
import Rtl.Fragment.Domains
import Rtl.Proofs.SampleLowering

/-!
# Propagating clock domains

Lifting, separating, adding and sharing clock domains keeps a plain tree plain: references stay references, and every
record that a fragment gets has an issued clock and reset of one bit.
-/
namespace Rtl

open List

variable {b : Body}

namespace Net

/-- The net under the new names of domains. -/
def renamed (mapping : List (String × String)) : Net → Net
  | .signal id => .signal id
  | .clock d => .clock (Renamer.target mapping d)
  | .reset d allow => .reset (Renamer.target mapping d) allow

end Net

namespace Renamer

variable {s t : State} {r : Renamer} {f : Fragment}
variable {σ σ' : Arenas} {f' : Fragment} {o : Option Value} {mapping : List (String × String)}

/-- The records renamed so far are sound. -/
def Kept (s : State) : Prop := ∀ e ∈ s.renamed, e.2.Sound s.arenas

/-- A net is renamed to a net, and kept as it is unless its domain is mapped. -/
theorem gives_net {n : Net} (hg : Gives ((traversal mapping).net n) s o t) :
    s = t ∧ o.getD (.net n) = .net (n.renamed mapping) ∧ ((∃ id, n = .signal id) → o = none) := by
  cases n with
  | signal =>
    obtain ⟨rfl, rfl⟩ := gives_pure.mp hg
    exact ⟨rfl, rfl, fun _ => rfl⟩
  | clock d | reset d =>
    dsimp only [traversal] at hg
    rw [Net.renamed, target]
    cases htarget : target? mapping d with
    | none =>
      rw [htarget] at hg
      obtain ⟨rfl, rfl⟩ := gives_pure.mp hg
      exact ⟨rfl, rfl, by simp⟩
    | some =>
      rw [htarget] at hg
      obtain ⟨v, hmk, hg⟩ := gives_raise_bind.mp hg
      obtain ⟨rfl, rfl⟩ := gives_pure.mp hg
      simp only [Value.mkClock_eq_ok, Value.mkReset_eq_ok] at hmk
      exact ⟨rfl, hmk.2, by simp⟩

theorem traversal_net {n : Net} (hg : Gives ((traversal mapping).net n) s o t) :
    s = t ∧ ((Value.net n).Plain s.arenas → (o.getD (.net n)).Plain s.arenas ∧
      (o.getD (.net n)).shape s.arenas = n.shape s.arenas) := by
  obtain ⟨hst, hnet, -⟩ := gives_net hg
  refine ⟨hst, fun h => ?_⟩
  rw [hnet]
  cases n with
  | signal => exact ⟨h, rfl⟩
  | clock | reset => exact ⟨trivial, rfl⟩

/-- Renaming values changes no state, and a reference stays a reference. -/
theorem traversal_carries (mapping : List (String × String)) (I : State → Prop) :
    Carries (traversal mapping) State.arenas I Value.Plain Value.Plain where
  source := Value.lasting_plain
  target := Value.lasting_plain
  arenas := by
    intro s σ t hg
    replace hg := gives_get_bind.mp hg
    exact gives_pure.mp hg
  statement := gives_none
  leaf := by
    intro v s o t _ hs hp hg
    rw [Value.traverse.eq_def] at hg
    cases v with
    | const =>
      obtain ⟨rfl, rfl⟩ := gives_pure.mp hg
      exact ⟨hs, .refl _, hp, rfl⟩
    | net =>
      obtain ⟨rfl, hplain⟩ := traversal_net hg
      exact ⟨hs, .refl _, (hplain hp).1.built, (hplain hp).2⟩
    | _ => exact hp.elim

/-- A record is renamed if its name is mapped, and only once. -/
theorem rename_inv {cd x : ClockDomain} (hg : Gives (r.rename cd) s x t) :
    target? r.mapping cd.name = none ∧ x = cd ∧ t = s ∨ ∃ name, target? r.mapping cd.name = some name ∧
      ((∃ k, s.renamed.find? (·.1 = cd.id) = some (k, x)) ∧ t = s ∨ s.renamed.find? (·.1 = cd.id) = none ∧
        ∃ σ, cd.renamed s.arenas r.arena name = .ok (σ, x) ∧ t = ⟨σ, s.renamed ++ [(cd.id, x)]⟩) := by
  unfold rename at hg
  split at hg
  · rename_i hnone
    obtain ⟨rfl, rfl⟩ := gives_pure.mp hg
    exact Or.inl ⟨hnone, rfl, rfl⟩
  · rename_i name hsome
    refine Or.inr ⟨name, hsome, ?_⟩
    replace hg := gives_get_bind.mp hg
    dsimp only at hg
    split at hg
    · rename_i hfound
      obtain ⟨rfl, rfl⟩ := gives_pure.mp hg
      exact Or.inl ⟨⟨_, hfound⟩, rfl⟩
    · rename_i hmissing
      obtain ⟨⟨σ, out⟩, hrenamed, hg⟩ := gives_raise_bind.mp hg
      obtain ⟨u, s4, hset, hg⟩ := gives_bind.mp hg
      obtain rfl := gives_set.mp hset
      obtain ⟨rfl, rfl⟩ := gives_pure.mp hg
      exact Or.inr ⟨hmissing, σ, hrenamed, rfl⟩

theorem rename_kept (r : Renamer) : Body.DomainsKept r.pass State.arenas Kept := by
  intro cd cd' s t hs hcd hg
  obtain ⟨-, rfl, rfl⟩ | ⟨name, -, ⟨⟨k, hfound⟩, rfl⟩ | ⟨-, σ, hrenamed, rfl⟩⟩ := rename_inv hg
  · exact ⟨hs, .refl _, hcd⟩
  · exact ⟨hs, .refl _, hs _ (mem_of_find?_eq_some hfound)⟩
  · obtain ⟨hx, hsound⟩ := ClockDomain.renamed_sound hrenamed
    refine ⟨?_, hx, hsound hcd⟩
    intro e he
    rcases mem_append.mp he with he | he
    · exact (hs e he).mono hx
    · obtain rfl := mem_singleton.mp he
      exact hsound hcd

theorem top_inv {cs : List (String × Fragment)} (hg : Gives (Fragment.traverseTop r.pass b cs) s f t) :
    ∃ nb, Gives (b.traverse r.pass (traversal r.mapping)) s nb t ∧ f = .node nb cs := by
  obtain ⟨r', s1, hvalues, hg⟩ := gives_bind.mp hg
  obtain ⟨rfl, rfl⟩ := gives_pure.mp hvalues
  obtain ⟨nb, hbody, rfl⟩ := gives_bind_pure.mp hg
  exact ⟨nb, hbody, rfl⟩

theorem run_inv (hg : Gives (r.run f) σ f' σ') :
    ∃ t, Gives (f.traverse r.pass) ⟨σ, r.renamed⟩ f' t ∧ t.arenas = σ' := by
  replace hg := gives_get_bind.mp hg
  obtain ⟨u, σ3, hset, hg⟩ := gives_bind.mp hg
  obtain rfl := gives_set.mp hset
  obtain ⟨hresult, rfl⟩ := gives_ofExcept.mp hg
  exact ⟨_, gives_run.mpr (Prod.ext hresult rfl), rfl⟩

theorem pass_finishes (r : Renamer) :
    Fragment.Finishes r.pass State.arenas Kept Value.Plain Value.Plain Value.Plain Value.Plain where
  source := Value.lasting_plain
  sourceCell := Value.lasting_plain
  target := Value.lasting_plain
  targetCell := Value.lasting_plain
  top := by
    intro b cs f s t hs hb hleaf hcs hg
    obtain ⟨nb, hbody, rfl⟩ := top_inv hg
    have hcarries := traversal_carries r.mapping Kept
    obtain ⟨hs2, hx, hfit, hsome, hidle⟩ := Body.traverse_fit hcarries hcarries (fun hg => (traversal_net hg).1)
      (rename_kept r) hs hb hbody
    refine ⟨hs2, hx, Fragment.fit_node.mpr ⟨hfit, ?_, fun c hc => Fragment.Plain.mono (hcs c hc) hx⟩⟩
    intro hc
    obtain ⟨hnil, hdrivers⟩ := hleaf (hsome ▸ hc)
    exact ⟨hnil, hidle hdrivers⟩

theorem run_plain (hr : r.renamed = []) (hf : f.Plain σ) (hg : Gives (r.run f) σ f' σ') :
    σ.Extends σ' ∧ f'.Plain σ' := by
  obtain ⟨t, htree, rfl⟩ := run_inv hg
  have hstart : Kept ⟨σ, r.renamed⟩ := by
    intro e he
    rw [hr] at he
    cases he
  exact (r.pass_finishes.traverse hstart hf htree).2

end Renamer

namespace Body

variable {p q : Value → Prop} {σ : Arenas} {b b' : Body}
variable {cds : List ClockDomain} {refused : ClockDomain → DomainError}

theorem Fit.withDomains (h : b.Fit p q σ) (hsame : b' = { b with domains := b'.domains })
    (hsound : ∀ cd ∈ b'.domains, cd.Sound σ) : b'.Fit p q σ := by
  rw [hsame]
  exact ⟨h.ports, h.statements, hsound, h.silent, h.bound⟩

theorem takeDomains_inv (h : b.takeDomains refused cds = .ok b') :
    b' = { b with domains := b'.domains } ∧ ∀ x ∈ b'.domains, x ∈ b.domains ∨ x ∈ cds := by
  induction cds generalizing b with
  | nil =>
    cases h
    exact ⟨rfl, fun x hx => Or.inl hx⟩
  | cons cd cds ih =>
    rw [takeDomains] at h
    split at h
    · split at h
      · cases h
      · obtain ⟨hsame, hmem⟩ := ih h
        exact ⟨hsame, fun x hx => (hmem x hx).imp_right (mem_cons_of_mem _)⟩
    · obtain ⟨hsame, hmem⟩ := ih h
      refine ⟨hsame, ?_⟩
      intro x hx
      rcases hmem x hx with hx | hx
      · rcases mem_append.mp hx with hx | hx
        · exact Or.inl hx
        · exact Or.inr (mem_cons.mpr (Or.inl (mem_singleton.mp hx)))
      · exact Or.inr (mem_cons_of_mem _ hx)

theorem Fit.takeDomains (hb : b.Fit p q σ) (hcds : ∀ cd ∈ cds, cd.Sound σ) (h : b.takeDomains refused cds = .ok b') :
    b'.Fit p q σ ∧ b'.cell = b.cell ∧ b'.driverPairs = b.driverPairs := by
  obtain ⟨hsame, hmem⟩ := takeDomains_inv h
  refine ⟨hb.withDomains hsame fun cd hcd => (hmem cd hcd).elim (hb.domains cd) (hcds cd), ?_, ?_⟩
  · rw [hsame]
  · rw [hsame]
    rfl

theorem Fit.adoptAll {path : List String} {cs : List (String × Fragment)} (hb : b.Fit p q σ)
    (hcs : ∀ c ∈ cs, c.2.Fit p q σ) (h : b.adoptAll path cs = .ok b') :
    b'.Fit p q σ ∧ b'.cell = b.cell ∧ b'.driverPairs = b.driverPairs := by
  induction cs generalizing b with
  | nil =>
    cases h
    exact ⟨hb, rfl, rfl⟩
  | cons c cs ih =>
    obtain ⟨hc, hcs⟩ := forall_mem_cons.mp hcs
    obtain ⟨b1, hadopt, h⟩ := except_bind_eq_ok.mp h
    have hsound : ∀ cd ∈ c.2.body.domains.filter (!·.isLocal), cd.Sound σ := fun cd hcd =>
      (hc.bodies _ c.2.body_mem_bodies).domains cd (mem_of_mem_filter hcd)
    obtain ⟨hb1, hcell, hdrivers⟩ := hb.takeDomains hsound hadopt
    obtain ⟨hb', hcell', hdrivers'⟩ := ih hb1 hcs h
    exact ⟨hb', hcell'.trans hcell, hdrivers'.trans hdrivers⟩

end Body

namespace Fragment

variable {a : Nat} {path : List String} {σ σ' : Arenas}
variable {cs cs' : List (String × Fragment)} {f f' : Fragment} {inherited : List ClockDomain}
variable {ensureSync : Bool} {name : String} {defs : List Definer}

theorem create_inv {mapping : List (String × String)} {r : Renamer} (h : Renamer.create a mapping = .ok r) :
    r.arena = a ∧ r.renamed = [] := by
  obtain ⟨-, -, h⟩ := except_bind_eq_ok.mp h
  obtain rfl := except_pure_eq_ok.mp h
  exact ⟨rfl, rfl⟩

/-- One of the fragments is renamed, by a renamer that has renamed nothing yet. -/
def Separates (a : Nat) (x y : List (String × Fragment) × Arenas) : Prop :=
  ∃ (i : Nat) (name : String) (f f' : Fragment) (r : Renamer), r.arena = a ∧ r.renamed = [] ∧
    x.1[i]? = some (name, f) ∧ Gives (r.run f) x.2 f' y.2 ∧ y.1 = x.1.set i (name, f')

theorem separateDomain_inv {domain : String} (hg : Gives (separateDomain a domain defs cs) σ cs' σ') :
    Relation.ReflTransGen (Separates a) (cs, σ) (cs', σ') := by
  induction defs generalizing cs σ with
  | nil =>
    rw [separateDomain] at hg
    obtain ⟨rfl, rfl⟩ := gives_pure.mp hg
    exact .refl
  | cons d defs ih =>
    rw [separateDomain] at hg
    obtain ⟨r, hr, hg⟩ := gives_raise_bind.mp hg
    split at hg
    · exact ih hg
    · rename_i name f hf
      obtain ⟨f', σ2, hrun, hg⟩ := gives_bind.mp hg
      obtain ⟨ha, hnone⟩ := create_inv hr
      exact .head ⟨d.position, name, f, f', r, ha, hnone, hf, hrun, rfl⟩ (ih hg)

/-- Children are told apart by renaming one of them after the other. -/
theorem separateDomains_inv {domains : List String} (hg : Gives (separateDomains a path defs domains cs) σ cs' σ') :
    Relation.ReflTransGen (Separates a) (cs, σ) (cs', σ') := by
  induction domains generalizing cs σ with
  | nil =>
    rw [separateDomains] at hg
    obtain ⟨rfl, rfl⟩ := gives_pure.mp hg
    exact .refl
  | cons domain domains ih =>
    rw [separateDomains] at hg
    rcases gives_ite.mp hg with ⟨-, hg⟩ | ⟨-, hg⟩
    · exact ih hg
    · obtain ⟨u, -, hg⟩ := gives_raise_bind.mp hg
      obtain ⟨cs1, σ2, hone, hg⟩ := gives_bind.mp hg
      exact (separateDomain_inv hone).trans (ih hg)

theorem liftChildren_inv {position : Nat} (hg : Gives (liftChildren a path position cs) σ cs' σ') :
    Threads (fun c σ c' σ' => ∃ path, Gives (c.2.liftDomains a path) σ c'.2 σ') cs σ cs' σ' := by
  induction cs generalizing position cs' σ with
  | nil =>
    rw [liftChildren] at hg
    obtain ⟨rfl, rfl⟩ := gives_pure.mp hg
    exact .nil
  | cons c cs ih =>
    obtain ⟨name, f⟩ := c
    rw [liftChildren] at hg
    obtain ⟨f', σ1, hf, hg⟩ := gives_bind.mp hg
    obtain ⟨others, hothers, rfl⟩ := gives_bind_pure.mp hg
    exact .cons ⟨_, hf⟩ (ih hothers)

/-- To lift a tree, its children are lifted, told apart, and their domains adopted. -/
theorem liftDomains_inv (hg : Gives ((node b cs).liftDomains a path) σ f' σ') : ∃ cs1 σ1 cs2 b',
      Threads (fun c σ c' σ' => ∃ path, Gives (c.2.liftDomains a path) σ c'.2 σ') cs σ cs1 σ1 ∧
      Relation.ReflTransGen (Separates a) (cs1, σ1) (cs2, σ') ∧ b.adoptAll path cs2 = .ok b' ∧ f' = node b' cs2 := by
  rw [liftDomains] at hg
  obtain ⟨cs1, σ1, hlift, hg⟩ := gives_bind.mp hg
  obtain ⟨cs2, σ2, hseparate, hg⟩ := gives_bind.mp hg
  obtain ⟨b', hadopt, hg⟩ := gives_raise_bind.mp hg
  obtain ⟨rfl, rfl⟩ := gives_pure.mp hg
  exact ⟨cs1, σ1, cs2, b', liftChildren_inv hlift, separateDomains_inv hseparate, hadopt, rfl⟩

theorem shareChildren_inv (h : shareChildren inherited cs = .ok cs') :
    List.Forall₂ (fun c c' => c.2.shareDomains c.1 inherited = .ok c'.2) cs cs' := by
  induction cs generalizing cs' with
  | nil =>
    cases h
    exact .nil
  | cons c cs ih =>
    obtain ⟨f', hf, h⟩ := except_bind_eq_ok.mp h
    obtain ⟨others, hothers, rfl⟩ := except_bind_pure_eq_ok.mp h
    exact .cons hf (ih hothers)

theorem shareDomains_inv (h : (node b cs).shareDomains name inherited = .ok f') : ∃ b' cs',
      b.inheritDomains name inherited = .ok b' ∧
      List.Forall₂ (fun c c' => c.2.shareDomains c.1 b'.domains = .ok c'.2) cs cs' ∧ f' = node b' cs' := by
  rw [shareDomains] at h
  obtain ⟨b', hinherit, h⟩ := except_bind_eq_ok.mp h
  obtain ⟨cs', hshare, rfl⟩ := except_bind_pure_eq_ok.mp h
  exact ⟨b', cs', hinherit, shareChildren_inv hshare, rfl⟩

/-- The top has a default domain, or it gets a new one. -/
theorem ensureDomain_inv (hg : Gives (f.ensureDomain a) σ f' σ') :
    f' = f ∧ σ' = σ ∧ (∃ cd, f.body.domain? syncDomain = some cd) ∨
      f.body.domain? syncDomain = none ∧ ∃ cd b', ClockDomain.create σ a syncDomain .plain = .ok (σ', cd) ∧
        f.body.addDomain cd = .ok b' ∧ f' = node b' f.children := by
  cases f with
  | node =>
    rw [ensureDomain] at hg
    split at hg
    · rename_i cd hsome
      obtain ⟨rfl, rfl⟩ := gives_pure.mp hg
      exact Or.inl ⟨rfl, rfl, cd, hsome⟩
    · rename_i hnone
      replace hg := gives_get_bind.mp hg
      obtain ⟨⟨σ3, cd⟩, hcreate, hg⟩ := gives_raise_bind.mp hg
      obtain ⟨u, σ5, hset, hg⟩ := gives_bind.mp hg
      obtain rfl := gives_set.mp hset
      obtain ⟨b', hadd, hg⟩ := gives_raise_bind.mp hg
      obtain ⟨rfl, rfl⟩ := gives_pure.mp hg
      exact Or.inr ⟨hnone, cd, b', hcreate, hadd, rfl⟩

theorem propagateDomains_inv (hg : Gives (f.propagateDomains a ensureSync) σ f' σ') :
    ∃ f1 f2 σ1, Gives (f.liftDomains a ["top"]) σ f1 σ1 ∧
      (ensureSync = true ∧ Gives (f1.ensureDomain a) σ1 f2 σ' ∨ ensureSync = false ∧ f2 = f1 ∧ σ' = σ1) ∧
      f2.shareDomains "" [] = .ok f' := by
  obtain ⟨f1, σ1, hlift, hg⟩ := gives_bind.mp hg
  rcases gives_ite.mp hg with ⟨hyes, hg⟩ | ⟨hno, hg⟩
  · obtain ⟨f2, σ2, hensure, hg⟩ := gives_bind.mp hg
    obtain ⟨hshare, rfl⟩ := gives_raise.mp hg
    exact ⟨f1, f2, σ1, hlift, Or.inl ⟨hyes, hensure⟩, hshare⟩
  · obtain ⟨f2, σ2, hpure, hg⟩ := gives_bind.mp hg
    obtain ⟨rfl, rfl⟩ := gives_pure.mp hpure
    obtain ⟨hshare, rfl⟩ := gives_raise.mp hg
    exact ⟨f1, f1, σ1, hlift, Or.inr ⟨Bool.not_eq_true _ ▸ hno, rfl, rfl⟩, hshare⟩

theorem separated_plain {x y : List (String × Fragment) × Arenas} (h : Relation.ReflTransGen (Separates a) x y)
    (hx : ∀ c ∈ x.1, c.2.Plain x.2) : x.2.Extends y.2 ∧ (∀ c ∈ y.1, c.2.Plain y.2) ∧ y.1.length = x.1.length := by
  induction h with
  | refl => exact ⟨.refl _, hx, rfl⟩
  | tail _ hstep ih =>
    obtain ⟨hx1, hcs, hlen⟩ := ih
    obtain ⟨i, name, f, f', r, -, hnone, hf, hrun, hset⟩ := hstep
    obtain ⟨hx2, hf'⟩ := Renamer.run_plain hnone (hcs _ (mem_of_getElem? hf)) hrun
    rw [hset]
    refine ⟨hx1.trans hx2, ?_, length_set.trans hlen⟩
    intro c hc
    rcases mem_or_eq_of_mem_set hc with hc | rfl
    · exact (hcs c hc).mono hx2
    · exact hf'

theorem liftDomains_plain (hf : f.Plain σ) (hg : Gives (f.liftDomains a path) σ f' σ') :
    σ.Extends σ' ∧ f'.Plain σ' := by
  induction f generalizing path f' σ σ' with
  | node b cs ih =>
    obtain ⟨hb, hleaf, hcs⟩ := plain_node.mp hf
    obtain ⟨cs1, σ1, cs2, b', hlift, hseparated, hadopt, rfl⟩ := liftDomains_inv hg
    obtain ⟨-, hx1, hall⟩ := hlift.carry (I := fun _ => True) (G := Arenas.Extends)
      (p := fun σ (c : String × Fragment) => c.2.Plain σ) (q := fun σ _ (c : String × Fragment) => c.2.Plain σ) .refl .trans
      (fun hx hc => hc.mono hx) (fun hx hc => hc.mono hx)
      (fun c hc _ _ _ _ hp hone => ⟨trivial, ih c hc hp hone.choose_spec⟩) trivial hcs
    have hcs1 : ∀ c ∈ cs1, c.2.Plain σ1 := fun c hc => (forall₂_mem_right hall hc).choose_spec.2
    obtain ⟨hx2, hcs2, hlen⟩ := separated_plain hseparated hcs1
    have hx := hx1.trans hx2
    have hb2 : b.Plain σ' := hb.lasting (Value.lasting_plain hx) (Value.lasting_plain hx) hx
    obtain ⟨hb', hcell, hdrivers⟩ := hb2.adoptAll hcs2 hadopt
    refine ⟨hx, plain_node.mpr ⟨hb', ?_, hcs2⟩⟩
    intro hc
    obtain ⟨rfl, hnone⟩ := hleaf (hcell ▸ hc)
    exact ⟨length_eq_zero_iff.mp (hlen.trans hlift.length_eq), hdrivers.trans hnone⟩

theorem shareDomains_plain (hin : ∀ cd ∈ inherited, cd.Sound σ) (hf : f.Plain σ)
    (h : f.shareDomains name inherited = .ok f') : f'.Plain σ := by
  induction f generalizing name inherited f' with
  | node b cs ih =>
    obtain ⟨hb, hleaf, hcs⟩ := plain_node.mp hf
    obtain ⟨b', cs', hinherit, hchildren, rfl⟩ := shareDomains_inv h
    obtain ⟨hb', hcell, hdrivers⟩ := hb.takeDomains hin hinherit
    refine plain_node.mpr ⟨hb', ?_, ?_⟩
    · intro hc
      obtain ⟨rfl, hnone⟩ := hleaf (hcell ▸ hc)
      cases hchildren
      exact ⟨rfl, hdrivers.trans hnone⟩
    · intro c' hc'
      obtain ⟨c, hc, hshare⟩ := forall₂_mem_right hchildren hc'
      exact ih c hc hb'.domains (hcs c hc) hshare

theorem ensureDomain_plain (ha : a < σ.list.size) (hf : f.Plain σ) (hg : Gives (f.ensureDomain a) σ f' σ') :
    σ.Extends σ' ∧ f'.Plain σ' := by
  obtain ⟨rfl, rfl, -⟩ | ⟨-, cd, b', hcreate, hadd, rfl⟩ := ensureDomain_inv hg
  · exact ⟨.refl _, hf⟩
  · cases f with
    | node =>
      obtain ⟨hx, hsound⟩ := ClockDomain.create_sound hcreate ha
      obtain ⟨hb, hleaf, hcs⟩ := plain_node.mp (hf.mono hx)
      obtain ⟨hsame, hmem⟩ := Body.addDomain_inv hadd
      refine ⟨hx, plain_node.mpr ⟨hb.withDomains hsame ?_, ?_, hcs⟩⟩
      · intro x hx'
        rcases hmem x hx' with hx' | rfl
        · exact hb.domains x hx'
        · exact hsound
      · rw [hsame]
        exact hleaf

/-- Propagating domains through a plain tree leaves it plain. -/
theorem propagateDomains_plain (ha : a < σ.list.size) (hf : f.Plain σ)
    (hg : Gives (f.propagateDomains a ensureSync) σ f' σ') : σ.Extends σ' ∧ f'.Plain σ' := by
  obtain ⟨f1, f2, σ1, hlift, hensure, hshare⟩ := propagateDomains_inv hg
  obtain ⟨hx1, hf1⟩ := liftDomains_plain hf hlift
  obtain ⟨-, hensure⟩ | ⟨-, rfl, rfl⟩ := hensure
  · obtain ⟨hx2, hf2⟩ := ensureDomain_plain (ha.trans_eq hx1.size.symm) hf1 hensure
    exact ⟨hx1.trans hx2, shareDomains_plain (by simp) hf2 hshare⟩
  · exact ⟨hx1, shareDomains_plain (by simp) hf1 hshare⟩

end Fragment
end Rtl
