import Mathlib
import Rtl.Proofs.Persistence
import Rtl.Proofs.RenamedValues

/-!
# Renaming domains keeps the meaning of a tree

References, drivers and records are renamed each on its own, all by the one mapping at once, so that names may be
swapped or passed on. What keeps them together is that two records never come to bear one name in a fragment: their
numbers differ, and a table refuses the second. So a fragment means by the new name of a domain what it meant by the old
one, and lowering the renamed tree leaves the statements, cells and driven signals that lowering the tree left before.
-/
namespace Rtl

open List

variable {f f' : Fragment}

namespace Body

section Lowering

variable {σ σ' : Arenas} {b b' : Body}
variable {a n : Nat} {c : Body} {cds : List ClockDomain} {K : Set ClockDomain}

/-- A table without rivals can be copied. -/
theorem traverseDomains_of_known (hcds : ∀ cd ∈ cds, b.Knows cd) (hc : ∀ cd ∈ c.domains, b.Knows cd) :
    ∃ c', traverseDomains (Fragment.domainLowering σ) c cds = .ok c' := by
  induction cds generalizing c with
  | nil => exact ⟨c, rfl⟩
  | cons cd cds ih =>
    obtain ⟨hcd, hcds⟩ := forall_mem_cons.mp hcds
    obtain ⟨c1, hadd⟩ : ∃ c1, c.addDomain cd = .ok c1 := by
      unfold addDomain
      cases hd : c.domain? cd.name with
      | none => exact ⟨_, rfl⟩
      | some old =>
        obtain ⟨hname, hknows⟩ := knows_of_domain? hd
        have hsame : old = cd := (hc old hknows.mem).unique hcd hname
        dsimp only
        rw [if_pos (congrArg ClockDomain.id hsame)]
        exact ⟨c, rfl⟩
    have hc1 : ∀ x ∈ c1.domains, b.Knows x := by
      intro x hx
      rcases (addDomain_inv hadd).2 x hx with hx | rfl
      · exact hc x hx
      · exact hcd
    obtain ⟨c', hc'⟩ := ih hcds hc1
    exact ⟨c', except_bind_eq_ok.mpr ⟨cd, rfl, except_bind_eq_ok.mpr ⟨c1, except_raise_eq_ok.mpr hadd, hc'⟩⟩⟩

/-- A copied table has the records of the table. -/
theorem mem_traverseDomains (hK : ClockDomain.Roster a n σ' K) {c' : Body} (hc : c.RecordsIn K)
    (hcds : ∀ cd ∈ cds, cd ∈ K) (h : traverseDomains (Fragment.domainLowering σ) c cds = .ok c') :
    (∀ x, x ∈ c'.domains → x ∈ c.domains ∨ x ∈ cds) ∧ (∀ cd ∈ cds, c'.Knows cd) ∧ ∀ x, c.Knows x → c'.Knows x := by
  induction cds generalizing c with
  | nil =>
    cases h
    exact ⟨fun x hx => Or.inl hx, by simp, fun x hx => hx⟩
  | cons cd cds ih =>
    obtain ⟨hcd, hcds⟩ := forall_mem_cons.mp hcds
    obtain ⟨x, hx, h⟩ := except_bind_eq_ok.mp h
    obtain rfl := except_pure_eq_ok.mp hx
    obtain ⟨c1, hraise, h⟩ := except_bind_eq_ok.mp h
    have hadd := except_raise_eq_ok.mp hraise
    obtain ⟨hknows, hkept⟩ := addDomain_knows hK hc hcd hadd
    have hsource := (addDomain_inv hadd).2
    have hc1 : c1.RecordsIn K := by
      intro y hy
      rcases hsource y hy with hy | rfl
      · exact hc y hy
      · exact hcd
    obtain ⟨hmem, hknown, hkept'⟩ := ih hc1 hcds h
    refine ⟨fun y hy => ?_, forall_mem_cons.mpr ⟨hkept' _ hknows, hknown⟩, fun y hy => hkept' y (hkept y hy)⟩
    rcases hmem y hy with hy | hy
    · rcases hsource y hy with hy | rfl
      · exact Or.inl hy
      · exact Or.inr mem_cons_self
    · exact Or.inr (mem_cons_of_mem _ hy)

/-- A lowered body has the records of the body, none of them hidden by another. -/
theorem lowered_domains (hK : ClockDomain.Roster a n σ' K) (hb : b.RecordsIn K)
    (h : b.traverse (Fragment.domainLowering σ) (b.lowering σ) = .ok b') :
    (∀ x ∈ b'.domains, x ∈ b.domains) ∧ ∀ x ∈ b.domains, b'.Knows x := by
  obtain ⟨b1, b2, hdomains, -, -, hsame⟩ := lowered_parts h
  obtain ⟨hmem, hknown, -⟩ := mem_traverseDomains hK (by simp [RecordsIn]) hb hdomains
  have htable : b'.domains = b1.domains := by rw [hsame]
  constructor
  · intro x hx
    rw [htable] at hx
    rcases hmem x hx with hx | hx
    · cases hx
    · exact hx
  · intro x hx
    unfold Knows domain?
    rw [htable]
    exact hknown x hx

end Lowering

/-- What lowering makes of a body and of its renaming: they differ in the names of driver domains and in their records
only. -/
structure RenamedAs (mapping : List (String × String)) (ren : ClockDomain → ClockDomain) (c c' : Body) : Prop where
  same : c' = { c with drivers := c'.drivers, domains := c'.domains }
  drives : ∀ d' n, c'.Drives d' n ↔ ∃ d, Renamer.target mapping d = d' ∧ c.Drives d n
  source : ∀ x ∈ c'.domains, ∃ cd ∈ c.domains, ren cd = x
  known : ∀ cd ∈ c.domains, c'.domain? (Renamer.target mapping cd.name) = some (ren cd)

section Renaming

variable {r : Renamer} {σ σ' : Arenas} {b b1 c c' : Body} {s t : Renamer.State}

theorem renaming_net {mapping : List (String × String)} {n : Net} {v : Value}
    (hg : Gives ((Value.net n).traversed (Renamer.traversal mapping)) s v t) : v.net? = some (n.renamed mapping) := by
  obtain ⟨o, s1, hgo, hg⟩ := gives_bind.mp hg
  obtain ⟨rfl, -⟩ := gives_pure.mp hg
  rw [Value.traverse] at hgo
  rw [(Renamer.gives_net hgo).2.1]
  rfl

namespace Translates

/-- A net and the renamed net are lowered to the same net, or both to none. -/
theorem loweredNet? (h : Translates r.mapping σ σ' b b1) {n : Net} (hn : ∃ o, b.lowerNet σ n = .ok o) :
    (∃ o, b1.lowerNet σ' (n.renamed r.mapping) = .ok o) ∧
      b1.loweredNet? σ' (n.renamed r.mapping) = b.loweredNet? σ n := by
  obtain ⟨o, ho⟩ := hn
  obtain ⟨ho', hsignal⟩ := h.lowerNet ho
  refine ⟨⟨o, ho'⟩, ?_⟩
  rw [Body.loweredNet?, Body.loweredNet?, ho, ho']
  cases o with
  | some => rfl
  | none =>
    obtain ⟨id, hid⟩ := hsignal rfl
    rw [hid]
    rfl

/-- The renamed statements and the renamed cell are lowered to what the body has in the end. -/
theorem contents (h : Translates r.mapping σ σ' b b1) (hfree : ∀ v ∈ b.values, v.SampleFree)
    (hg : Gives (b.traverse r.pass (Renamer.traversal r.mapping)) s b1 t)
    (hl : b.traverse (Fragment.domainLowering σ) (b.lowering σ) = .ok c) :
    Statement.traverseAll (b1.lowering σ') b1.statements = .ok c.statements ∧
      traverseCell (b1.lowering σ') b1.cell = .ok c.cell := by
  have hnet : ∀ {n s o t}, Gives ((Renamer.traversal r.mapping).net n) s o t → s = t :=
    fun hg => (Renamer.traversal_net hg).1
  obtain ⟨_, _, _, _, -, hgx, -, hgc, -⟩ := traverse_parts hnet hg
  obtain ⟨_, _, -, hlx, hlc, -⟩ := lowered_parts hl
  have hfstatements : ∀ x ∈ b.statements, ∀ v ∈ x.values, v.SampleFree := fun x hx v hv =>
    hfree v (mem_append_left _ (Statement.mem_bodyValues.mpr ⟨x, hx, hv⟩))
  have hfcell : ∀ i, b.cell = some i → ∀ p ∈ i.ports, p.value.SampleFree := fun i hi p hp =>
    hfree p.value (mem_append_right _ (mem_flatMap.mpr ⟨i, Option.mem_toList.mpr hi, mem_map_of_mem hp⟩))
  exact ⟨Translates.body (fun x _ => h.statement x) hfstatements hgx hlx, h.cell hfcell hgc hlc⟩

/-- The drivers of a renamed body. -/
theorem renamed_drivers (hg : Gives (b.traverse r.pass (Renamer.traversal r.mapping)) s b1 t) :
    (∀ d n, b1.Drives d n ↔ ∃ e ∈ b.driverPairs, Renamer.target r.mapping e.1 = d ∧
      (e.2.renamed r.mapping).key = n.key) ∧
    (∀ p ∈ b1.driverPairs, ∃ e ∈ b.driverPairs, Renamer.target r.mapping e.1 = p.1 ∧ e.2.renamed r.mapping = p.2) ∧
    ∀ d ∈ b1.driverDomains, ∃ e ∈ b.driverPairs, Renamer.target r.mapping e.1 = d := by
  obtain ⟨hdrives, hpairs, hused⟩ := traverse_drivers renaming_net (fun hg => (Renamer.traversal_net hg).1) hg
  refine ⟨fun d n => ?_, fun p hp => ?_, hused⟩
  · rw [hdrives]
    simp only [Option.some.injEq, exists_eq_left']
    rfl
  · obtain ⟨e, he, hd, hn⟩ := hpairs p hp
    exact ⟨e, he, hd, Option.some.inj hn⟩

/-- The renamed body can be lowered. -/
theorem lowers (h : Translates r.mapping σ σ' b b1) (hcomb : Renamer.target r.mapping combDomain = combDomain)
    (hfree : ∀ v ∈ b.values, v.SampleFree) (hknown : ∀ x ∈ b1.domains, b1.Knows x)
    (hg : Gives (b.traverse r.pass (Renamer.traversal r.mapping)) s b1 t) (hlowers : b.Lowers σ)
    (hl : b.traverse (Fragment.domainLowering σ) (b.lowering σ) = .ok c) : b1.Lowers σ' := by
  obtain ⟨hstatements, hcell⟩ := h.contents hfree hg hl
  obtain ⟨-, hpairs, hused⟩ := renamed_drivers hg
  refine ⟨?_, ?_, ?_, ⟨_, hcell⟩, ?_⟩
  · exact traverseDomains_of_known hknown (by simp [Body.empty])
  · exact Statement.traverseAll_ok_iff.mp ⟨_, hstatements⟩
  · intro p hp
    obtain ⟨e, he, -, hnet⟩ := hpairs p hp
    rw [← hnet]
    exact (h.loweredNet? (hlowers.drivers e he)).1
  · intro d hd hne
    obtain ⟨e, he, rfl⟩ := hused d hd
    have hsource : e.1 ≠ combDomain := by
      intro heq
      apply hne
      rw [heq, hcomb]
    obtain ⟨cd, hcd⟩ := Option.isSome_iff_exists.mp (hlowers.clocks e.1 (mem_driverDomains he) hsource)
    obtain ⟨cd', hcd', -⟩ := h.known hcd
    exact Option.isSome_iff_exists.mpr ⟨cd', hcd'⟩

/-- The renamed body is lowered to what the body is lowered to, up to its drivers and records. -/
theorem same (h : Translates r.mapping σ σ' b b1) (hfree : ∀ v ∈ b.values, v.SampleFree)
    (hg : Gives (b.traverse r.pass (Renamer.traversal r.mapping)) s b1 t)
    (hl : b.traverse (Fragment.domainLowering σ) (b.lowering σ) = .ok c)
    (hl' : b1.traverse (Fragment.domainLowering σ') (b1.lowering σ') = .ok c') :
    c' = { c with drivers := c'.drivers, domains := c'.domains } := by
  obtain ⟨hstatements, hcell⟩ := h.contents hfree hg hl
  obtain ⟨_, _, _, _, -, -, -, -, -, -, hsame1⟩ := traverse_parts (fun hg => (Renamer.traversal_net hg).1) hg
  obtain ⟨_, _, -, -, -, hsame⟩ := lowered_parts hl
  obtain ⟨_, _, -, hlx', hlc', hsame'⟩ := lowered_parts hl'
  have hx : c'.statements = c.statements := Except.ok.inj (hlx'.symm.trans hstatements)
  have hc : c'.cell = c.cell := Except.ok.inj (hlc'.symm.trans hcell)
  rw [hx, hc, hsame1] at hsame'
  rw [hsame', hsame]

/-- The renamed body drives in the end what the body drives, under the new names. -/
theorem drives_iff (h : Translates r.mapping σ σ' b b1) (hlowers : b.Lowers σ)
    (hg : Gives (b.traverse r.pass (Renamer.traversal r.mapping)) s b1 t)
    (hl : b.traverse (Fragment.domainLowering σ) (b.lowering σ) = .ok c)
    (hl' : b1.traverse (Fragment.domainLowering σ') (b1.lowering σ') = .ok c') (d' : String) (n : Net) :
    c'.Drives d' n ↔ ∃ d, Renamer.target r.mapping d = d' ∧ c.Drives d n := by
  obtain ⟨hrenamed, hpairs, -⟩ := renamed_drivers hg
  rw [(lowered_drivers hl').1]
  constructor
  · rintro ⟨p, hp, hd, k, hk, hkey⟩
    obtain ⟨e, he, hdomain, hnet⟩ := hpairs p hp
    refine ⟨e.1, hdomain.trans hd, ((lowered_drivers hl).1 e.1 n).mpr ⟨e, he, rfl, k, ?_, hkey⟩⟩
    rw [← (h.loweredNet? (hlowers.drivers e he)).2, hnet]
    exact hk
  · rintro ⟨d, rfl, hd⟩
    obtain ⟨e, he, rfl, k, hk, hkey⟩ := ((lowered_drivers hl).1 d n).mp hd
    have hsame := (h.loweredNet? (hlowers.drivers e he)).2
    -- The renamed driver is in the table, perhaps as a reset that may be missing where this one may not.
    obtain ⟨p, hp, hdomain, hpkey⟩ := Body.drives_iff.mp ((hrenamed _ (e.2.renamed r.mapping)).mpr ⟨e, he, rfl, rfl⟩)
    exact ⟨p, hp, hdomain, k, (loweredNet?_of_key hpkey).trans (hsame.trans hk), hkey⟩

end Translates
end Renaming
end Body

namespace Renamer

variable {r : Renamer} {n : Nat} {K : Set ClockDomain} {I : State → Prop} {s t : State}
variable {cd x : ClockDomain} {a : Nat} {σ : Arenas}
variable {mapping : List (String × String)}

/-- Only the renaming of records changes the state, so what it keeps is kept throughout a tree. -/
theorem traverse_keeps (hI : ∀ {cd s x t}, cd ∈ K → I s → Gives (r.rename cd) s x t → I t) (hf : f.RecordsIn K)
    (hs : I s) (hg : Gives (f.traverse r.pass) s f' t) : I t := by
  refine (Fragment.traverse_carry (I := I) (G := fun _ _ => True) (p := fun _ f => f.RecordsIn K)
    (q := fun _ _ _ => True) (fun _ => trivial) (fun _ _ => trivial) (fun _ hf => hf) (fun _ h => h)
    (fun hf => (Fragment.recordsIn_node.mp hf).2) ?_ hs hf hg).1
  intro b cs cs' f s t hs hf _ hg
  obtain ⟨nb, hbody, -⟩ := top_inv hg
  have hnet : ∀ {n s o t}, Gives ((traversal r.mapping).net n) s o t → s = t := fun hg => (traversal_net hg).1
  have hquiet := traversal_quiet r.mapping
  obtain ⟨t1, t2, b1, b2, hdomains, hstatements, -, hcell, -⟩ := Body.traverse_parts hnet hbody
  obtain rfl : t1 = t2 := hquiet.statements (fun _ _ _ _ => trivial) hstatements
  obtain rfl : t1 = t := hquiet.cell (fun _ _ _ _ => trivial) hcell
  exact ⟨traverseDomains_keeps hI (Fragment.recordsIn_node.mp hf).1 hs hdomains, trivial, trivial⟩

/-- Every record made so far is the copy of one record of the roster under its new name, numbered later than `n`, and
no two records share a copy. -/
structure Books (r : Renamer) (n : Nat) (K : Set ClockDomain) (s : State) : Prop where
  tracks : r.Tracks n K s
  copies : ∀ e ∈ s.renamed, ∃ cd ∈ K, ∃ name, cd.id = e.1 ∧ target? r.mapping cd.name = some name ∧ n < e.2.id ∧
    e.2 = { cd with arena := r.arena, id := e.2.id, name := name }

theorem rename_books (hcd : cd ∈ K) (hs : r.Books n K s) (hg : Gives (r.rename cd) s x t) : r.Books n K t := by
  have htracks := (rename_tracks hs.tracks hcd hg).1
  obtain ⟨-, -, rfl⟩ | ⟨name, hsome, ⟨-, rfl⟩ | ⟨-, σ, hrenamed, rfl⟩⟩ := rename_inv hg
  · exact hs
  · exact hs
  · obtain ⟨hnew, hcopy⟩ := ClockDomain.renamed_newest hs.tracks.roster.place hrenamed
    have hstart := hs.tracks.roster.start
    have hid := hnew.id
    refine ⟨htracks, ?_⟩
    intro e he
    rcases mem_append.mp he with he | he
    · exact hs.copies e he
    · obtain rfl := mem_singleton.mp he
      exact ⟨cd, hcd, name, rfl, hsome, by dsimp only; omega, hcopy⟩

/-- The record that stands for another in the end. -/
def replacement (r : Renamer) (s : State) (cd : ClockDomain) : ClockDomain :=
  match target? r.mapping cd.name with
  | none => cd
  | some _ => ((s.renamed.find? (·.1 = cd.id)).map Prod.snd).getD cd

theorem StandsFor.eq_replacement (h : r.StandsFor s cd x) : r.replacement s cd = x := by
  unfold StandsFor at h
  unfold replacement
  cases htarget : target? r.mapping cd.name with
  | none =>
    rw [htarget] at h
    exact h.symm
  | some =>
    rw [htarget] at h
    dsimp only at h ⊢
    rw [h]
    rfl

/-- Records under mapped names are replaced, each by one new record that differs in its number and its name, and in
nothing else; all others are kept. -/
structure Replaces (a n : Nat) (mapping : List (String × String)) (K : Set ClockDomain)
    (ren : ClockDomain → ClockDomain) : Prop where
  kept : ∀ cd ∈ K, target? mapping cd.name = none → ren cd = cd
  moved : ∀ cd ∈ K, ∀ name, target? mapping cd.name = some name →
    n < (ren cd).id ∧ ren cd = { cd with arena := a, id := (ren cd).id, name := name }
  apart : ∀ cd ∈ K, ∀ cd' ∈ K, ren cd = ren cd' → cd = cd'

theorem Replaces.name {ren : ClockDomain → ClockDomain} (h : Replaces a n mapping K ren) (hcd : cd ∈ K) :
    (ren cd).name = target mapping cd.name ∧ (ren cd).clk = cd.clk ∧ (ren cd).rst = cd.rst := by
  cases htarget : target? mapping cd.name with
  | none =>
    rw [h.kept cd hcd htarget, target, htarget]
    exact ⟨rfl, rfl, rfl⟩
  | some name =>
    rw [(h.moved cd hcd name htarget).2, target, htarget]
    exact ⟨rfl, rfl, rfl⟩

theorem Books.replaces (hs : r.Books n K s) (hstart : ∀ cd ∈ K, cd.id ≤ n)
    (hstands : ∀ cd ∈ K, ∃ x, r.StandsFor s cd x) : Replaces r.arena n r.mapping K (r.replacement s) := by
  -- Where the name is mapped, the record was renamed, and the copy is remembered under its number.
  have hentry : ∀ cd ∈ K, ∀ name, target? r.mapping cd.name = some name →
      ∃ e ∈ s.renamed, e.1 = cd.id ∧ e.2 = r.replacement s cd := by
    intro cd hcd name hname
    obtain ⟨x, hx⟩ := hstands cd hcd
    rw [hx.eq_replacement]
    unfold StandsFor at hx
    rw [hname] at hx
    obtain ⟨e, he, rfl⟩ := Option.map_eq_some_iff.mp hx
    exact ⟨e, mem_of_find?_eq_some he, by simpa using find?_some he, rfl⟩
  have hkept : ∀ cd ∈ K, target? r.mapping cd.name = none → r.replacement s cd = cd := by
    intro cd _ hnone
    rw [replacement, hnone]
  have hmoved : ∀ cd ∈ K, ∀ name, target? r.mapping cd.name = some name → n < (r.replacement s cd).id ∧
      r.replacement s cd = { cd with arena := r.arena, id := (r.replacement s cd).id, name := name } := by
    intro cd hcd name hname
    obtain ⟨e, he, hid, hrep⟩ := hentry cd hcd name hname
    obtain ⟨cd', hcd', name', hid', hname', hlt, hcopy⟩ := hs.copies e he
    obtain rfl := hs.tracks.roster.unique cd' (Or.inl hcd') cd (Or.inl hcd) (hid'.trans hid)
    obtain rfl := Option.some.inj (hname'.symm.trans hname)
    rw [← hrep]
    exact ⟨hlt, hcopy⟩
  refine ⟨hkept, hmoved, ?_⟩
  intro cd hcd cd' hcd' hsame
  cases hname : target? r.mapping cd.name with
  | none =>
    cases hname' : target? r.mapping cd'.name with
    | none => rw [← hkept cd hcd hname, hsame, hkept cd' hcd' hname']
    | some name' =>
      have hlt := (hmoved cd' hcd' name' hname').1
      have hle := hstart cd hcd
      rw [← hsame, hkept cd hcd hname] at hlt
      omega
  | some name =>
    cases hname' : target? r.mapping cd'.name with
    | none =>
      have hlt := (hmoved cd hcd name hname).1
      have hle := hstart cd' hcd'
      rw [hsame, hkept cd' hcd' hname'] at hlt
      omega
    | some name' =>
      obtain ⟨e, he, hid, hrep⟩ := hentry cd hcd name hname
      obtain ⟨e', he', hid', hrep'⟩ := hentry cd' hcd' name' hname'
      have hone := hs.tracks.apart e he e' he' (by rw [hrep, hrep', hsame])
      exact hs.tracks.roster.unique cd (Or.inl hcd) cd' (Or.inl hcd') (by omega)

/-- A mapping that is accepted leaves the combinational domain alone. -/
theorem target_comb (h : check mapping = .ok ()) : target mapping combDomain = combDomain := by
  have hnone : ∀ e ∈ mapping, e.1 ≠ combDomain := by
    induction mapping with
    | nil => simp
    | cons e mapping ih =>
      obtain ⟨source, name⟩ := e
      rw [check] at h
      split at h
      · cases h
      · rename_i hsource
        split at h
        · cases h
        · exact forall_mem_cons.mpr ⟨hsource, ih h⟩
  have hfind : mapping.find? (·.1 = combDomain) = none := by
    rw [find?_eq_none]
    intro e he
    simpa using hnone e he
  rw [target, target?, hfind]
  rfl

theorem create_inv (h : create a mapping = .ok r) : r = ⟨a, mapping, []⟩ ∧ check mapping = .ok () := by
  obtain ⟨u, hcheck, rfl⟩ := except_bind_pure_eq_ok.mp h
  exact ⟨rfl, hcheck⟩

theorem books_start (hK : ClockDomain.Roster a n σ K) : Books ⟨a, mapping, []⟩ n K ⟨σ, []⟩ := by
  have hroster : State.roster ⟨σ, []⟩ K = K := by simp [State.roster]
  exact ⟨⟨by rw [hroster]; exact hK, by simp, by simp, by simp⟩, by simp⟩

theorem rename_shape (hs : ∀ id, s.arenas.shape id = σ.shape id) (hg : Gives (r.rename cd) s x t) :
    ∀ id, t.arenas.shape id = σ.shape id := by
  obtain ⟨-, -, rfl⟩ | ⟨name, -, ⟨-, rfl⟩ | ⟨-, σ1, hrenamed, rfl⟩⟩ := rename_inv hg
  · exact hs
  · exact hs
  · exact fun id => (ClockDomain.renamed_shape hrenamed id).trans (hs id)

theorem apply_inv {σ' : Arenas} {r' : Renamer} (h : r.apply σ f = (.ok f', σ', r')) :
    ∃ t, Gives (f.traverse r.pass) ⟨σ, r.renamed⟩ f' t ∧ t.arenas = σ' := by
  unfold apply at h
  cases hrun : (f.traverse r.pass).run.run ⟨σ, r.renamed⟩ with
  | mk result t =>
    rw [hrun] at h
    cases h
    exact ⟨t, gives_run.mpr hrun, rfl⟩

end Renamer

namespace Body

variable {r : Renamer} {a n : Nat} {K : Set ClockDomain} {t : Renamer.State} {σ σ' : Arenas} {b b1 c : Body}
variable {x : ClockDomain}

theorem Carried.mem_domains (h : b.Carried (r.StandsFor t) b1) :
    x ∈ b1.domains ↔ ∃ cd ∈ b.domains, r.replacement t cd = x := by
  constructor
  · intro hx
    obtain ⟨cd, hcd, hstands⟩ := h.source x hx
    exact ⟨cd, hcd, hstands.eq_replacement⟩
  · rintro ⟨cd, hcd, rfl⟩
    obtain ⟨x, hstands, hknows⟩ := h.known cd hcd
    rw [hstands.eq_replacement]
    exact hknows.mem

theorem Carried.knows (h : b.Carried (r.StandsFor t) b1) (hx : x ∈ b1.domains) : b1.Knows x := by
  obtain ⟨cd, hcd, hstands⟩ := h.source x hx
  obtain ⟨y, hstands', hknows⟩ := h.known cd hcd
  rw [hstands.unique hstands']
  exact hknows

theorem Carried.translates (h : b.Carried (r.StandsFor t) b1)
    (hren : Renamer.Replaces a n r.mapping K (r.replacement t)) (hb : b.RecordsIn K)
    (hshape : ∀ id, σ'.shape id = σ.shape id) : Translates r.mapping σ σ' b b1 := by
  refine ⟨hshape, ?_⟩
  intro d cd hd
  obtain ⟨hname, hknows⟩ := knows_of_domain? hd
  obtain ⟨x, hstands, hknows'⟩ := h.known cd hknows.mem
  obtain ⟨hname', hclk, hrst⟩ := hren.name (hb cd hknows.mem)
  rw [hstands.eq_replacement] at hname' hclk hrst
  refine ⟨x, ?_, hclk, hrst⟩
  rw [← hname, ← hname']
  exact hknows'

end Body

namespace Fragment

/-- The records of clock domains in the tree. -/
def records (f : Fragment) : Set ClockDomain := {cd | ∃ b ∈ f.bodies, cd ∈ b.domains}

theorem renamed_matches {r : Renamer} {s t : Renamer.State} (hg : Gives (f.traverse r.pass) s f' t) :
    f.Matches (fun b b' => ∃ s t, Gives (b.traverse r.pass (Renamer.traversal r.mapping)) s b' t) f' := by
  refine traverse_matches (P := r.pass) ?_ hg
  intro b cs f s t hg
  obtain ⟨nb, hbody, rfl⟩ := Renamer.top_inv hg
  exact ⟨nb, rfl, s, t, hbody⟩

end Fragment

namespace Renamer

/-- Each fragment of a renamed tree carries over the records of the fragment in its place, by one replacement. -/
theorem traverse_replaces {a : Nat} {mapping : List (String × String)} {σ : Arenas} {t : State} (ha : a < σ.list.size)
    (hf : f.NumberedBy a σ) (hg : Gives (f.traverse (pass ⟨a, mapping, []⟩)) ⟨σ, []⟩ f' t) :
    Replaces a (σ.arena a).domains mapping f.records (replacement ⟨a, mapping, []⟩ t) ∧
      ClockDomain.Roster a (σ.arena a).domains t.arenas (t.roster f.records) ∧
      f.Matches (fun b b' => b.Carried (StandsFor ⟨a, mapping, []⟩ t) b' ∧ b'.RecordsIn (t.roster f.records)) f' := by
  have hrecords : f.RecordsIn f.records := fun b hb cd hcd => ⟨b, hb, hcd⟩
  have hstart : Books ⟨a, mapping, []⟩ (σ.arena a).domains f.records ⟨σ, []⟩ := books_start (hf.roster ha)
  have hbooks := traverse_keeps rename_books hrecords hstart hg
  obtain ⟨htracks, -, hcarried⟩ := Fragment.traverse_tracks hstart.tracks hrecords hg
  have hstands : ∀ b ∈ f.bodies, ∀ cd ∈ b.domains, ∃ x, StandsFor ⟨a, mapping, []⟩ t cd x := by
    refine hcarried.symm.forall_bodies (P := fun _ => True) (fun _ _ => trivial) ?_
    intro b' b _ h cd hcd
    obtain ⟨x, hstands, -⟩ := h.known cd hcd
    exact ⟨x, hstands⟩
  refine ⟨?_, htracks.roster, hcarried.imp fun b hb b' h => ⟨h, fun x hx => ?_⟩⟩
  · exact hbooks.replaces (fun cd ⟨b, hb, hcd⟩ => hf.issued b hb cd hcd) fun cd ⟨b, hb, hcd⟩ => hstands b hb cd hcd
  · obtain ⟨cd, hcd, hstands⟩ := h.source x hx
    exact (htracks.standsFor (hrecords b hb cd hcd) hstands).1

/-- Let the records of a tree without samples be numbered by the arena of the renamer. If the tree can be lowered and
the mapping is accepted and can be applied, then the renamed tree can be lowered too. Fragment by fragment the two results
have the same statements, the same cell and all else the same, drive the same nets under the mapped names of the
domains, and have the same records up to one replacement for the whole tree: of each record under a mapped name by a new
one with another number and the new name, and of no other. -/
theorem lowerDomains_apply {a : Nat} {mapping : List (String × String)} {r r' : Renamer} {σ σ' : Arenas}
    {f f' g : Fragment} (ha : a < σ.list.size) (hf : f.NumberedBy a σ)
    (hfree : ∀ b ∈ f.bodies, ∀ v ∈ b.values, v.SampleFree) (hcreate : create a mapping = .ok r)
    (happly : r.apply σ f = (.ok f', σ', r')) (hlower : f.lowerDomains σ = .ok g) :
    ∃ ren g', f'.lowerDomains σ' = .ok g' ∧ g.Matches (Body.RenamedAs mapping ren) g' ∧
      f.Matches (fun b b' => ∀ x, x ∈ b'.domains ↔ ∃ cd ∈ b.domains, ren cd = x) f' ∧
      Replaces a (σ.arena a).domains mapping f.records ren := by
  obtain ⟨rfl, hcheck⟩ := create_inv hcreate
  obtain ⟨t, hg, rfl⟩ := apply_inv happly
  have hrecords : f.RecordsIn f.records := fun b hb cd hcd => ⟨b, hb, hcd⟩
  have hshape := traverse_keeps (fun _ => rename_shape) hrecords (fun _ => rfl) hg
  obtain ⟨hreplaces, hroster, hcarried⟩ := traverse_replaces ha hf hg
  have hpass := (Fragment.renamed_matches hg).and hcarried
  -- What the renamed fragment of each place is lowered to, against what the fragment was.
  have hpairs : f'.Matches (fun b₁ c => b₁.Lowers t.arenas ∧
      ∀ c', b₁.traverse (Fragment.domainLowering t.arenas) (b₁.lowering t.arenas) = .ok c' →
        Body.RenamedAs mapping (replacement ⟨a, mapping, []⟩ t) c c') g := by
    have hmember := hpass.imp fun b hb _ h => And.intro hb h
    refine hmember.symm.comp (Fragment.lowerDomains_matches hlower) ?_
    rintro b₁ b c ⟨hb, ⟨s₁, s₂, hbody⟩, hcarried, hb₁⟩ ⟨hknown, hl⟩
    have htranslates := hcarried.translates hreplaces (hrecords b hb) hshape
    have hlowers : b.Lowers σ := Body.traverse_ok_iff.mp ⟨⟨c, hl⟩, hknown⟩
    refine ⟨htranslates.lowers (target_comb hcheck) (hfree b hb) (fun x hx => hcarried.knows hx) hbody hlowers hl, ?_⟩
    intro c' hl'
    obtain ⟨hsource, hkeeps⟩ := Body.lowered_domains (hf.roster ha) (hrecords b hb) hl
    obtain ⟨hsource', hkeeps'⟩ := Body.lowered_domains hroster hb₁ hl'
    refine ⟨htranslates.same (hfree b hb) hbody hl hl', htranslates.drives_iff hlowers hbody hl hl', ?_, ?_⟩
    · intro x hx
      obtain ⟨cd, hcd, hx⟩ := hcarried.mem_domains.mp (hsource' x hx)
      exact ⟨cd, (hkeeps cd hcd).mem, hx⟩
    · intro cd hcd
      have hcd := hsource cd hcd
      rw [← (hreplaces.name (hrecords b hb cd hcd)).1]
      exact hkeeps' _ (hcarried.mem_domains.mpr ⟨cd, hcd, rfl⟩)
  have hlowers : ∀ b₁ ∈ f'.bodies, b₁.Lowers t.arenas :=
    hpairs.symm.forall_bodies (P := fun _ => True) (fun _ _ => trivial) fun _ h => h.1
  obtain ⟨g', hlower'⟩ := Fragment.lowerDomains_ok_iff.mpr hlowers
  refine ⟨_, g', hlower', ?_, ?_, hreplaces⟩
  · exact hpairs.symm.comp (Fragment.lowerDomains_matches hlower') fun h hl => h.2 _ hl.2
  · exact hcarried.imp fun b _ _ h x => h.1.mem_domains

/-- Domains that refer to each other across a tree: in statements, as what is driven, and at the port of a cell. -/
def crossing : Fragment :=
  .node { Body.empty with
      statements := [.assign (.signal ⟨0, 9⟩) (.net (.clock "b")), .assign (.signal ⟨0, 10⟩) (.net (.reset "a" true))]
      drivers := [("a", ⟨[.signal ⟨0, 9⟩]⟩), ("b", ⟨[.signal ⟨0, 10⟩]⟩)]
      domains := [Fragment.tick 1 "a" false, Fragment.tick 2 "b" false] }
    [("p", .node { Body.empty with
        statements := [.assign (.net (.clock "a")) (.net (.clock "c"))]
        drivers := [("d", ⟨[.clock "a"]⟩)]
        domains := [Fragment.tick 1 "a" false, Fragment.tick 3 "c" false, Fragment.tick 4 "d" true] }
      [("u", Fragment.leaf { Body.empty with
        domains := [Fragment.tick 3 "c" false]
        cell := some ⟨"BUF", [], [⟨"i", .net (.clock "c"), .input⟩]⟩ })])]

def crossingArenas : Arenas := ⟨#[⟨Array.replicate 10 ⟨"$signal", .unsigned 1, 0, false, [], none⟩, 4, 0⟩]⟩

/-- Two names are swapped and two passed on. -/
def crossingNames : List (String × String) := [("a", "b"), ("b", "a"), ("c", "d"), ("d", "e")]

theorem crossing_numbered : crossing.NumberedBy 0 crossingArenas := by
  have hdomains : crossing.bodies.flatMap Body.domains = [Fragment.tick 1 "a" false, Fragment.tick 2 "b" false,
      Fragment.tick 1 "a" false, Fragment.tick 3 "c" false, Fragment.tick 4 "d" true, Fragment.tick 3 "c" false] := rfl
  exact Fragment.numberedBy_of_list hdomains (by decide) (by decide)

theorem crossing_sampleFree : ∀ b ∈ crossing.bodies, ∀ v ∈ b.values, v.SampleFree := by
  have hnets : ∀ b ∈ crossing.bodies, ∀ v ∈ b.values, ∀ u ∈ v.leaves, u.net?.isSome = true := by decide
  intro b hb v hv u hu w n d hsample
  have hnet := hnets b hb v hv u hu
  rw [hsample] at hnet
  cases hnet

/-- The renamed tree lists its domains under their new names and is lowered to what the tree was lowered to. -/
theorem lowerDomains_apply_crossing : ∃ r f' σ' r' g, create 0 crossingNames = .ok r ∧
    r.apply crossingArenas crossing = (.ok f', σ', r') ∧ crossing.lowerDomains crossingArenas = .ok g ∧
    (f'.bodies.map fun b => b.domains.map fun cd => (cd.name, cd.id)) =
      [[("b", 6), ("a", 8)], [("b", 6), ("d", 5), ("e", 7)], [("d", 5)]] ∧
    ∃ ren g', f'.lowerDomains σ' = .ok g' ∧ g.Matches (Body.RenamedAs crossingNames ren) g' ∧
      crossing.Matches (fun b b' => ∀ x, x ∈ b'.domains ↔ ∃ cd ∈ b.domains, ren cd = x) f' ∧
      Replaces 0 4 crossingNames crossing.records ren := by
  have hcreate : create 0 crossingNames = .ok ⟨0, crossingNames, []⟩ := rfl
  have hnames : (apply ⟨0, crossingNames, []⟩ crossingArenas crossing).1.toOption.map (fun f' =>
      f'.bodies.map fun b => b.domains.map fun cd => (cd.name, cd.id)) =
        some [[("b", 6), ("a", 8)], [("b", 6), ("d", 5), ("e", 7)], [("d", 5)]] := by decide +kernel
  have hlowers : (crossing.lowerDomains crossingArenas).toOption.isSome = true := by decide +kernel
  obtain ⟨f', hf', hnames⟩ := Option.map_eq_some_iff.mp hnames
  obtain ⟨g, hlower⟩ := Fragment.exists_ok_of_isSome hlowers
  have happly := eq_ok_of_toOption hf'
  exact ⟨_, f', _, _, g, hcreate, happly, hlower, hnames,
    lowerDomains_apply (by decide) crossing_numbered crossing_sampleFree hcreate happly hlower⟩

end Renamer
end Rtl
