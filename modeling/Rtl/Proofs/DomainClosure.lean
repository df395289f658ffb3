import Mathlib
import Rtl.Proofs.DomainLowering
import Rtl.Proofs.DomainRecords

/-!
# Propagated domains are closed

After domains were propagated, parents and children agree: a child knows every domain of its parent, and a parent knows
every domain of its child that is not local, each as the same record. A local domain stays at or below a fragment that
declared it. A second propagation finds nothing to do.

Lifting is followed place by place. It may rename records, but what a fragment knew it still knows, under the same or
another name, and it gets no local domain that it did not have.
-/
namespace Rtl

open List

variable {n : Nat}

namespace Body

variable {b b' : Body}
variable {b'' : Body} {path : List String} {cs : List (String × Fragment)}

/-- What a fragment knew it still knows, up to renaming, and no two records as one. -/
def Keeps (n : Nat) (b b' : Body) : Prop :=
  ∃ ren : ClockDomain → ClockDomain, (∀ cd, b.Knows cd → (ren cd).DescendsFrom n cd ∧ b'.Knows (ren cd)) ∧
    ∀ cd cd', b.Knows cd → b.Knows cd' → ren cd = ren cd' → cd = cd'

theorem keeps_of_knows (h : ∀ x, b.Knows x → b'.Knows x) : b.Keeps n b' :=
  ⟨id, fun cd hcd => ⟨.refl n cd, h cd hcd⟩, fun _ _ _ _ hsame => hsame⟩

theorem Keeps.trans (h : b.Keeps n b') (h' : b'.Keeps n b'') : b.Keeps n b'' := by
  obtain ⟨ren, hren, hapart⟩ := h
  obtain ⟨ren', hren', hapart'⟩ := h'
  refine ⟨ren' ∘ ren, ?_, ?_⟩
  · intro cd hcd
    obtain ⟨hdescends, hknows⟩ := hren cd hcd
    obtain ⟨hdescends', hknows'⟩ := hren' (ren cd) hknows
    exact ⟨hdescends'.trans hdescends, hknows'⟩
  · intro cd cd' hcd hcd' hsame
    exact hapart cd cd' hcd hcd' (hapart' _ _ (hren cd hcd).2 (hren cd' hcd').2 hsame)

/-- A fragment still knows what it knew, up to renaming, and has no other local domains. -/
structure Follows (n : Nat) (b b' : Body) : Prop where
  locals : ∀ x ∈ b'.domains, x.isLocal = true → ∃ cd ∈ b.domains, x.DescendsFrom n cd
  keeps : b.Keeps n b'

theorem Follows.kept (h : b.Follows n b') (cd : ClockDomain) (hcd : b.Knows cd) :
    ∃ x, x.DescendsFrom n cd ∧ b'.Knows x := by
  obtain ⟨ren, hren, -⟩ := h.keeps
  exact ⟨ren cd, hren cd hcd⟩

theorem Follows.refl (n : Nat) (b : Body) : b.Follows n b where
  locals x hx _ := ⟨x, hx, .refl n x⟩
  keeps := keeps_of_knows fun _ hx => hx

theorem Follows.trans (h : b.Follows n b') (h' : b'.Follows n b'') : b.Follows n b'' where
  locals := by
    intro x hx hlocal
    obtain ⟨y, hy, hxy⟩ := h'.locals x hx hlocal
    obtain ⟨cd, hcd, hdescends⟩ := h.locals y hy (hxy.isLocal_eq ▸ hlocal)
    exact ⟨cd, hcd, hxy.trans hdescends⟩
  keeps := h.keeps.trans h'.keeps

theorem follows_of_knows (hkept : ∀ x, b.Knows x → b'.Knows x)
    (hmem : ∀ x ∈ b'.domains, x ∈ b.domains ∨ x.isLocal = false) : b.Follows n b' where
  locals := by
    intro x hx hlocal
    rcases hmem x hx with hx | hx
    · exact ⟨x, hx, .refl n x⟩
    · rw [hx] at hlocal
      cases hlocal
  keeps := keeps_of_knows hkept

/-- The child's domains that are not local are known to the parent. -/
def Adopts (b child : Body) : Prop := ∀ cd ∈ child.domains, cd.isLocal = false → b.Knows cd

/-- The parent's domains are known to the child. -/
def HandsDown (b child : Body) : Prop := ∀ cd ∈ b.domains, child.Knows cd

/-- A table that is known in full to one fragment has no two records under one name. -/
theorem HandsDown.knows {child : Body} (h : b.HandsDown child) {cd : ClockDomain} (hcd : cd ∈ b.domains) :
    b.Knows cd := by
  obtain ⟨x, hx⟩ := Option.isSome_iff_exists.mp (domain?_isSome.mpr ⟨cd, hcd, rfl⟩)
  obtain ⟨hname, hknows⟩ := knows_of_domain? hx
  obtain rfl := (h x hknows.mem).unique (h cd hcd) hname
  exact hknows

variable {a n : Nat} {σ : Arenas} {K : Set ClockDomain}

theorem adoptAll_spec (hK : ClockDomain.Roster a n σ K) (hb : b.RecordsIn K) (hcs : ∀ c ∈ cs, c.2.body.RecordsIn K)
    (h : b.adoptAll path cs = .ok b') :
    b'.RecordsIn K ∧ (∀ c ∈ cs, b'.Adopts c.2.body) ∧ (∀ x, b.Knows x → b'.Knows x) ∧
      ∀ x ∈ b'.domains, x ∈ b.domains ∨ x.isLocal = false := by
  induction cs generalizing b with
  | nil =>
    cases h
    exact ⟨hb, by simp, fun x hx => hx, fun x hx => Or.inl hx⟩
  | cons c cs ih =>
    obtain ⟨hc, hrest⟩ := forall_mem_cons.mp hcs
    obtain ⟨b1, hadopt, h⟩ := except_bind_eq_ok.mp h
    have hoffered : ∀ cd ∈ c.2.body.domains.filter (!·.isLocal), cd ∈ K := fun cd hcd =>
      hc cd (mem_of_mem_filter hcd)
    obtain ⟨hnew, hkept⟩ := takeDomains_knows hK hb hoffered hadopt
    obtain ⟨-, hmem⟩ := takeDomains_inv hadopt
    have hb1 : b1.RecordsIn K := fun x hx => (hmem x hx).elim (hb x) (hoffered x)
    obtain ⟨hb', hadopts, hkept', hmem'⟩ := ih hb1 hrest h
    refine ⟨hb', forall_mem_cons.mpr ⟨?_, hadopts⟩, fun x hx => hkept' x (hkept x hx), ?_⟩
    · intro cd hcd hlocal
      exact hkept' cd (hnew cd (mem_filter.mpr ⟨hcd, by simp [hlocal]⟩))
    · intro x hx
      rcases hmem' x hx with hx | hx
      · refine (hmem x hx).imp_right fun hx => ?_
        simpa using (mem_filter.mp hx).2
      · exact Or.inr hx

theorem adoptAll_known (h : ∀ c ∈ cs, b.Adopts c.2.body) : b.adoptAll path cs = .ok b := by
  induction cs with
  | nil => rfl
  | cons c cs ih =>
    obtain ⟨hc, hrest⟩ := forall_mem_cons.mp h
    have hknown : ∀ cd ∈ c.2.body.domains.filter (!·.isLocal), b.Knows cd := by
      intro cd hcd
      obtain ⟨hcd, hlocal⟩ := mem_filter.mp hcd
      exact hc cd hcd (by simpa using hlocal)
    exact except_bind_eq_ok.mpr ⟨b, takeDomains_known hknown, ih hrest⟩

end Body

namespace Fragment

variable {a n : Nat} {path : List String} {σ σ' : Arenas} {K : Set ClockDomain}
variable {cs : List (String × Fragment)} {f f' : Fragment}
variable {position : Nat} {ensureSync : Bool} {name : String} {defs : List Definer} {inherited : List ClockDomain}
variable {cs' : List (String × Fragment)}

/-- Domains of a child that are not local are known to its parent, in the whole tree. -/
def Lifted (f : Fragment) : Prop := f.OnEdges Body.Adopts

/-- Domains of a parent are known to its children, in the whole tree. -/
def Shared (f : Fragment) : Prop := f.OnEdges Body.HandsDown

/-- What lifting a list of fragments comes to: a longer roster, and lifted fragments that follow the old. -/
structure Lifting (a n : Nat) (σ : Arenas) (K : Set ClockDomain) (cs cs' : List (String × Fragment)) (σ' : Arenas)
    (K' : Set ClockDomain) : Prop where
  copied : ClockDomain.Copied a n σ K σ' K'
  records : ∀ c ∈ cs', c.2.RecordsIn K'
  lifted : ∀ c ∈ cs', c.2.Lifted
  follows : List.Forall₂ (fun c c' => c.2.Matches (Body.Follows n) c'.2) cs cs'

theorem Lifting.trans {K' K'' : Set ClockDomain} {cs'' : List (String × Fragment)} {σ1 σ2 : Arenas}
    (h : Lifting a n σ K cs cs' σ1 K') (h' : Lifting a n σ1 K' cs' cs'' σ2 K'') : Lifting a n σ K cs cs'' σ2 K'' where
  copied := h.copied.trans h'.copied
  records := h'.records
  lifted := h'.lifted
  follows := forall₂_trans (fun hmatch hmatch' => hmatch.trans .trans hmatch') h.follows h'.follows

theorem Lifting.refl (hK : ClockDomain.Roster a n σ K) (hrecords : ∀ c ∈ cs, c.2.RecordsIn K)
    (hlifted : ∀ c ∈ cs, c.2.Lifted) : Lifting a n σ K cs cs σ K where
  copied := .refl hK
  records := hrecords
  lifted := hlifted
  follows := forall₂_same.mpr fun c _ => .refl (Body.Follows.refl n) c.2

/-- Renaming a lifted tree leaves it lifted: both ends of an edge get the same new record. -/
theorem run_lifting {r : Renamer} (ha : r.arena = a) (hr : r.renamed = []) (hK : ClockDomain.Roster a n σ K)
    (hf : f.RecordsIn K) (hlifted : f.Lifted) (hg : Gives (r.run f) σ f' σ') :
    ∃ K', ClockDomain.Copied a n σ K σ' K' ∧ f'.RecordsIn K' ∧ f'.Lifted ∧ f.Matches (Body.Follows n) f' := by
  obtain ⟨K', T, hcopied, hmatch, hT, hunique, hinjective⟩ := run_carries ha hr hK hf hg
  refine ⟨K', hcopied, ?_, ?_, ?_⟩
  · refine hmatch.forall_bodies hf ?_
    intro b b' hb hcarried x hx
    obtain ⟨cd, hcd, hx⟩ := hcarried.source x hx
    exact (hT (hb cd hcd) hx).1
  · intro g' hg' c' hc' x hx hlocal
    obtain ⟨g, hg, c, hc, hparent, hchild⟩ := hmatch.edge hg' hc'
    obtain ⟨cd, hcd, hx⟩ := hchild.source x hx
    have hmem : c.2.body ∈ f.bodies :=
      mem_bodies_iff.mpr ⟨c.2, mem_nodes_trans hg (nodes_of_child hc (self_mem_nodes _)), rfl⟩
    have hdescends := (hT (hf _ hmem cd hcd) hx).2
    have hknows := hlifted g hg c hc cd hcd (hdescends.isLocal_eq ▸ hlocal)
    obtain ⟨y, hy, hknows'⟩ := hparent.known cd hknows.mem
    obtain rfl := hunique hx hy
    exact hknows'
  · refine hmatch.imp fun b hb b' hcarried => ⟨?_, ?_⟩
    · intro x hx _
      obtain ⟨cd, hcd, hx⟩ := hcarried.source x hx
      exact ⟨cd, hcd, (hT (hf b hb cd hcd) hx).2⟩
    · have hstands : ∀ cd, ∃ x, b.Knows cd → T cd x ∧ b'.Knows x := by
        intro cd
        by_cases hcd : b.Knows cd
        · obtain ⟨x, hx⟩ := hcarried.known cd hcd.mem
          exact ⟨x, fun _ => hx⟩
        · exact ⟨cd, fun h => absurd h hcd⟩
      choose ren hren using hstands
      refine ⟨ren, ?_, ?_⟩
      · exact fun cd hcd => ⟨(hT (hf b hb cd hcd.mem) (hren cd hcd).1).2, (hren cd hcd).2⟩
      · intro cd cd' hcd hcd' hsame
        exact hinjective (hf b hb cd hcd.mem) (hf b hb cd' hcd'.mem) (hren cd hcd).1 (hsame ▸ (hren cd' hcd').1)

theorem separated_lifting {x y : List (String × Fragment) × Arenas} (h : Relation.ReflTransGen (Separates a) x y)
    (hK : ClockDomain.Roster a n x.2 K) (hrecords : ∀ c ∈ x.1, c.2.RecordsIn K) (hlifted : ∀ c ∈ x.1, c.2.Lifted) :
    ∃ K', Lifting a n x.2 K x.1 y.1 y.2 K' := by
  induction h with
  | refl => exact ⟨K, .refl hK hrecords hlifted⟩
  | tail _ hstep ih =>
    obtain ⟨K1, hall⟩ := ih
    obtain ⟨i, name, f, f', r, ha, hnone, hf, hrun, hset⟩ := hstep
    have hmem := mem_of_getElem? hf
    obtain ⟨K2, hcopied, hf', hlifted', hmatch⟩ :=
      run_lifting ha hnone hall.copied.roster (hall.records _ hmem) (hall.lifted _ hmem) hrun
    refine ⟨K2, hall.trans ⟨hcopied, ?_, ?_, ?_⟩⟩
    · intro c hc
      rw [hset] at hc
      rcases mem_or_eq_of_mem_set hc with hc | rfl
      · exact (hall.records c hc).mono hcopied.grows
      · exact hf'
    · intro c hc
      rw [hset] at hc
      rcases mem_or_eq_of_mem_set hc with hc | rfl
      · exact hall.lifted c hc
      · exact hlifted'
    · rw [hset]
      exact forall₂_set (fun c => .refl (Body.Follows.refl n) c.2) hf hmatch

theorem children_lifting (hg : Threads (fun c σ c' σ' => ∃ path, Gives (c.2.liftDomains a path) σ c'.2 σ') cs σ cs' σ')
    (ih : ∀ c ∈ cs, ∀ {path f' σ σ' K}, ClockDomain.Roster a n σ K → c.2.RecordsIn K →
      Gives (c.2.liftDomains a path) σ f' σ' →
      ∃ K', ClockDomain.Copied a n σ K σ' K' ∧ f'.RecordsIn K' ∧ f'.Lifted ∧ c.2.Matches (Body.Follows n) f')
    (hK : ClockDomain.Roster a n σ K) (hrecords : ∀ c ∈ cs, c.2.RecordsIn K) : ∃ K', Lifting a n σ K cs cs' σ' K' := by
  induction hg generalizing K with
  | nil => exact ⟨K, .refl hK hrecords (by simp)⟩
  | cons head _ ihcs =>
    obtain ⟨ihc, ihrest⟩ := forall_mem_cons.mp ih
    obtain ⟨hc, hrest⟩ := forall_mem_cons.mp hrecords
    obtain ⟨path, hf⟩ := head
    obtain ⟨K1, hcopied, hf', hlifted, hmatch⟩ := ihc hK hc hf
    obtain ⟨K', hall⟩ := ihcs ihrest hcopied.roster (fun c hc => (hrest c hc).mono hcopied.grows)
    refine ⟨K', hcopied.trans hall.copied, ?_, ?_, .cons hmatch hall.follows⟩
    · exact forall_mem_cons.mpr ⟨hf'.mono hall.copied.grows, hall.records⟩
    · exact forall_mem_cons.mpr ⟨hlifted, hall.lifted⟩

/-- Lifting a tree whose records are on a roster lifts it, and every fragment follows the one in its place. -/
theorem liftDomains_lifted (hK : ClockDomain.Roster a n σ K) (hf : f.RecordsIn K)
    (hg : Gives (f.liftDomains a path) σ f' σ') :
    ∃ K', ClockDomain.Copied a n σ K σ' K' ∧ f'.RecordsIn K' ∧ f'.Lifted ∧ f.Matches (Body.Follows n) f' := by
  induction f generalizing path f' σ σ' K with
  | node b cs ih =>
    obtain ⟨hb, hcs⟩ := recordsIn_node.mp hf
    obtain ⟨cs1, σ1, cs2, b', hlift, hseparated, hadopt, rfl⟩ := liftDomains_inv hg
    obtain ⟨K1, hlifting⟩ := children_lifting hlift (fun c hc => ih c hc) hK hcs
    obtain ⟨K2, hsecond⟩ := separated_lifting hseparated hlifting.copied.roster hlifting.records hlifting.lifted
    have hall := hlifting.trans hsecond
    have hb2 : b.RecordsIn K2 := fun x hx => hall.copied.grows (hb x hx)
    obtain ⟨hb', hadopts, hkept, hmem⟩ := Body.adoptAll_spec hall.copied.roster hb2
      (fun c hc => hall.records c hc _ c.2.body_mem_bodies) hadopt
    refine ⟨K2, hall.copied, recordsIn_node.mpr ⟨hb', hall.records⟩, ?_, ?_⟩
    · exact onEdges_node.mpr fun c hc => ⟨hadopts c hc, hall.lifted c hc⟩
    · exact .node (Body.follows_of_knows hkept hmem) hall.follows

/-- A default domain is added at the top only, under a name that nothing there had. -/
theorem ensureDomain_lifted (hK : ClockDomain.Roster a n σ K) (hf : f.RecordsIn K) (hlifted : f.Lifted)
    (hg : Gives (f.ensureDomain a) σ f' σ') :
    (∃ K', (∀ x ∈ K', x ∈ K ∨ ∃ σ1, ClockDomain.create σ a syncDomain .plain = .ok (σ1, x)) ∧
      ClockDomain.Roster a n σ' K' ∧ f'.RecordsIn K') ∧ f'.Lifted ∧ f.Matches (Body.Follows n) f' ∧
      ∃ cd, f'.body.domain? syncDomain = some cd := by
  obtain ⟨rfl, rfl, hsome⟩ | ⟨hnone, cd, b', hcreate, hadd, rfl⟩ := ensureDomain_inv hg
  · exact ⟨⟨K, fun x hx => Or.inl hx, hK, hf⟩, hlifted, .refl (Body.Follows.refl n) _, hsome⟩
  · cases f with
    | node =>
      obtain ⟨hnew, hname, hlocal⟩ := ClockDomain.create_newest hK.place hcreate
      have hgrows : K ⊆ insert cd K := Set.subset_insert cd K
      have hK' := hK.insert hnew
      obtain ⟨hb, hcs⟩ := recordsIn_node.mp (hf.mono hgrows)
      obtain ⟨hknows, hkept⟩ := Body.addDomain_knows hK' hb (Set.mem_insert cd K) hadd
      obtain ⟨-, hmem⟩ := Body.addDomain_inv hadd
      refine ⟨⟨_, ?_, hK', recordsIn_node.mpr ⟨?_, hcs⟩⟩, ?_, ?_, cd, hname ▸ hknows⟩
      · exact fun x hx => hx.elim (fun hx => Or.inr ⟨_, hx ▸ hcreate⟩) Or.inl
      · intro x hx
        rcases hmem x hx with hx | rfl
        · exact hb x hx
        · exact Set.mem_insert x K
      · rw [Lifted, onEdges_node] at hlifted ⊢
        exact fun c hc => ⟨fun x hx hx' => hkept x ((hlifted c hc).1 x hx hx'), (hlifted c hc).2⟩
      · refine .node (Body.follows_of_knows hkept ?_) (forall₂_same.mpr fun c _ => .refl (Body.Follows.refl n) c.2)
        intro x hx
        rcases hmem x hx with hx | rfl
        · exact Or.inl hx
        · exact Or.inr hlocal

/-- What handing domains down comes to. -/
structure Sharing (inherited : List ClockDomain) (f f' : Fragment) : Prop where
  shared : f'.Shared
  lifted : f'.Lifted
  inherits : ∀ cd ∈ inherited, f'.body.Knows cd
  keeps : f.Matches (fun b b' => ∀ x, b.Knows x → b'.Knows x) f'
  sources : ∀ path g', f'.at? path = some g' → ∀ x ∈ g'.body.domains,
    x ∈ inherited ∨ ∃ above g, above <+: path ∧ f.at? above = some g ∧ x ∈ g.body.domains

/-- Handing the domains of a lifted tree down closes it. -/
theorem shareDomains_sharing (hK : ClockDomain.Roster a n σ K) (hin : ∀ cd ∈ inherited, cd ∈ K) (hf : f.RecordsIn K)
    (hlifted : f.Lifted) (h : f.shareDomains name inherited = .ok f') : Sharing inherited f f' := by
  induction f generalizing name inherited f' with
  | node b cs ih =>
    obtain ⟨hb, hcs⟩ := recordsIn_node.mp hf
    have hedges := onEdges_node.mp hlifted
    obtain ⟨b', cs', hinherit, hshare, rfl⟩ := shareDomains_inv h
    obtain ⟨hnew, hkept⟩ := Body.takeDomains_knows hK hb hin hinherit
    obtain ⟨-, hmem⟩ := Body.takeDomains_inv hinherit
    have hb' : ∀ cd ∈ b'.domains, cd ∈ K := fun x hx => (hmem x hx).elim (hb x) (hin x)
    have hchildren : List.Forall₂ (fun c c' => Sharing b'.domains c.2 c'.2) cs cs' :=
      (forall₂_mem hshare).imp fun c c' hone =>
        ih c hone.1 hb' (hcs c hone.1) (hedges c hone.1).2 hone.2
    refine ⟨?_, ?_, hnew, .node hkept (hchildren.imp fun _ _ h => h.keeps), ?_⟩
    · refine onEdges_node.mpr fun c' hc' => ?_
      obtain ⟨c, -, hc⟩ := forall₂_mem_right hchildren hc'
      exact ⟨hc.inherits, hc.shared⟩
    · refine onEdges_node.mpr fun c' hc' => ?_
      obtain ⟨c, hcmem, hc⟩ := forall₂_mem_right hchildren hc'
      refine ⟨?_, hc.lifted⟩
      intro x hx hlocal
      -- What the child has now it got from here or had before, and then it was adopted.
      rcases hc.sources [] c'.2 rfl x hx with hx | ⟨above, g, habove, hg, hx⟩
      · have hdown : b'.HandsDown c'.2.body := hc.inherits
        exact hdown.knows hx
      · obtain rfl := prefix_nil.mp habove
        cases hg
        exact hkept x ((hedges c hcmem).1 x hx hlocal)
    · intro path g' hg' x hx
      have hhere : x ∈ b'.domains → x ∈ inherited ∨ ∃ above g, above <+: path ∧ (node b cs).at? above = some g ∧
          x ∈ g.body.domains := by
        intro hx
        rcases hmem x hx with hx | hx
        · exact Or.inr ⟨[], _, nil_prefix, rfl, hx⟩
        · exact Or.inl hx
      cases path with
      | nil =>
        cases hg'
        exact hhere hx
      | cons i path =>
        obtain ⟨c', hi, hg'⟩ := at?_cons.mp hg'
        have hrel := forall₂_getElem? hchildren i
        rw [show cs'[i]? = some c' from hi] at hrel
        obtain ⟨c, hci, hc⟩ : ∃ c, cs[i]? = some c ∧ Sharing b'.domains c.2 c'.2 := by
          revert hrel
          generalize cs[i]? = o
          rintro (hc | -)
          exact ⟨_, rfl, hc⟩
        rcases hc.sources path g' hg' x hx with hx | ⟨above, g, habove, hg, hx⟩
        · exact hhere hx
        · refine Or.inr ⟨i :: above, g, ?_, at?_cons.mpr ⟨c, hci, hg⟩, hx⟩
          exact prefix_cons_inj i |>.mpr habove

/-- The definers of domains are children, and what they define is not local. -/
theorem mem_ofChildren {d : Definer} (h : d ∈ Definer.ofChildren position cs) :
    ∃ c ∈ cs, d.domain ∈ c.2.body.domains ∧ d.domain.isLocal = false := by
  induction cs generalizing position with
  | nil => cases h
  | cons c cs ih =>
    rw [Definer.ofChildren] at h
    rcases mem_append.mp h with h | h
    · obtain ⟨cd, hcd, rfl⟩ := mem_map.mp h
      obtain ⟨hcd, hlocal⟩ := mem_filter.mp hcd
      exact ⟨c, by simp, hcd, by simpa using hlocal⟩
    · obtain ⟨c', hc', hd⟩ := ih h
      exact ⟨c', mem_cons_of_mem _ hc', hd⟩

/-- Where the parent knows every definer's record, definers of one name agree. -/
theorem agree_of_known {b : Body} {domain : String} (h : ∀ d ∈ defs, b.Knows d.domain) :
    Definer.agree (defs.filter (·.domain.name = domain)) = true := by
  have hone : ∀ d ∈ defs.filter (·.domain.name = domain), ∀ e ∈ defs.filter (·.domain.name = domain),
      d.domain.id = e.domain.id := by
    intro d hd e he
    obtain ⟨hd, hdname⟩ := mem_filter.mp hd
    obtain ⟨he, hename⟩ := mem_filter.mp he
    rw [decide_eq_true_eq] at hdname hename
    rw [(h d hd).unique (h e he) (hdname.trans hename.symm)]
  revert hone
  generalize defs.filter (·.domain.name = domain) = here
  intro hone
  cases here with
  | nil => rfl
  | cons d =>
    rw [Definer.agree, all_eq_true]
    intro e he
    rw [decide_eq_true_eq]
    exact hone e (mem_cons_of_mem _ he) d (by simp)

theorem separateDomains_agreed {domains : List String}
    (h : ∀ domain, Definer.agree (defs.filter (·.domain.name = domain)) = true) :
    Gives (separateDomains a path defs domains cs) σ cs σ := by
  induction domains with
  | nil => exact gives_pure.mpr ⟨rfl, rfl⟩
  | cons domain domains ih =>
    rw [separateDomains]
    exact gives_ite.mpr (Or.inl ⟨h domain, ih⟩)

theorem liftChildren_lifted (h : ∀ c ∈ cs, ∀ path, Gives (c.2.liftDomains a path) σ c.2 σ) :
    Gives (liftChildren a path position cs) σ cs σ := by
  induction cs generalizing position with
  | nil => exact gives_pure.mpr ⟨rfl, rfl⟩
  | cons c cs ih =>
    obtain ⟨hc, hrest⟩ := forall_mem_cons.mp h
    rw [liftChildren]
    refine gives_bind.mpr ⟨_, _, hc _, gives_bind.mpr ⟨_, _, ih hrest, ?_⟩⟩
    exact gives_pure.mpr ⟨rfl, rfl⟩

/-- A lifted tree is lifted already: nothing is renamed and nothing is adopted. -/
theorem liftDomains_of_lifted (hf : f.Lifted) : Gives (f.liftDomains a path) σ f σ := by
  induction f generalizing path with
  | node b cs ih =>
    have hedges := onEdges_node.mp hf
    have hknown : ∀ d ∈ Definer.ofChildren 0 cs, b.Knows d.domain := by
      intro d hd
      obtain ⟨c, hc, hmem, hlocal⟩ := mem_ofChildren hd
      exact (hedges c hc).1 d.domain hmem hlocal
    have hadopt : b.adoptAll path cs = .ok b := Body.adoptAll_known fun c hc => (hedges c hc).1
    rw [liftDomains]
    refine gives_bind.mpr ⟨cs, σ, liftChildren_lifted fun c hc path => ih c hc (hedges c hc).2, ?_⟩
    refine gives_bind.mpr ⟨cs, σ, separateDomains_agreed fun domain => agree_of_known hknown, ?_⟩
    refine gives_bind.mpr ⟨b, σ, gives_raise.mpr ⟨hadopt, rfl⟩, ?_⟩
    exact gives_pure.mpr ⟨rfl, rfl⟩

/-- Where all domains are handed down already, nothing happens. -/
theorem shareDomains_of_shared (hf : f.Shared) (hin : ∀ cd ∈ inherited, f.body.Knows cd) :
    f.shareDomains name inherited = .ok f := by
  induction f generalizing name inherited with
  | node b cs ih =>
    have hedges := onEdges_node.mp hf
    have hchildren : ∀ rest, rest ⊆ cs → shareChildren b.domains rest = .ok rest := by
      intro rest hsub
      induction rest with
      | nil => rfl
      | cons c rest ihrest =>
        obtain ⟨hc, hrest⟩ := cons_subset.mp hsub
        have hshare : c.2.shareDomains c.1 b.domains = .ok c.2 := ih c hc (hedges c hc).2 (hedges c hc).1
        exact except_bind_eq_ok.mpr ⟨_, hshare, except_bind_eq_ok.mpr ⟨_, ihrest hrest, rfl⟩⟩
    rw [shareDomains]
    refine except_bind_eq_ok.mpr ⟨b, Body.takeDomains_known hin, ?_⟩
    exact except_bind_eq_ok.mpr ⟨cs, hchildren cs (List.Subset.refl cs), rfl⟩

/-- In a closed tree every fragment knows the same domains that are not local. -/
theorem knows_iff_of_closed {g : Fragment} (hlifted : f.Lifted) (hshared : f.Shared) (hg : g ∈ f.nodes)
    {cd : ClockDomain} (hlocal : cd.isLocal = false) : g.body.Knows cd ↔ f.body.Knows cd := by
  induction f with
  | node b cs ih =>
    rcases mem_nodes_node.mp hg with rfl | ⟨c, hc, hg⟩
    · rfl
    · obtain ⟨hadopts, hlifted'⟩ := onEdges_node.mp hlifted c hc
      obtain ⟨hdown, hshared'⟩ := onEdges_node.mp hshared c hc
      rw [ih c hc hlifted' hshared' hg]
      exact ⟨fun h => hadopts cd h.mem hlocal, fun h => hdown cd h.mem⟩

/-- The records of the tree bear numbers that the arena has issued, and no two bear the same. -/
structure NumberedBy (a : Nat) (σ : Arenas) (f : Fragment) : Prop where
  issued : ∀ b ∈ f.bodies, ∀ cd ∈ b.domains, cd.id ≤ (σ.arena a).domains
  unique : ∀ b ∈ f.bodies, ∀ cd ∈ b.domains, ∀ b' ∈ f.bodies, ∀ cd' ∈ b'.domains, cd.id = cd'.id → cd = cd'

theorem NumberedBy.roster (h : f.NumberedBy a σ) (ha : a < σ.list.size) :
    ClockDomain.Roster a (σ.arena a).domains σ {cd | ∃ b ∈ f.bodies, cd ∈ b.domains} where
  place := ha
  start := le_rfl
  issued := fun cd ⟨b, hb, hcd⟩ => h.issued b hb cd hcd
  unique := fun cd ⟨b, hb, hcd⟩ cd' ⟨b', hb', hcd'⟩ => h.unique b hb cd hcd b' hb' cd' hcd'

/-- A tree whose records are listed is numbered if the list is. -/
theorem numberedBy_of_list {cds : List ClockDomain} (h : f.bodies.flatMap Body.domains = cds)
    (hissued : ∀ cd ∈ cds, cd.id ≤ (σ.arena a).domains) (hunique : ∀ cd ∈ cds, ∀ cd' ∈ cds, cd.id = cd'.id → cd = cd') :
    f.NumberedBy a σ := by
  have hmem : ∀ b ∈ f.bodies, ∀ cd ∈ b.domains, cd ∈ cds := by
    intro b hb cd hcd
    rw [← h]
    exact mem_flatMap.mpr ⟨b, hb, hcd⟩
  constructor
  · intro b hb cd hcd
    exact hissued cd (hmem b hb cd hcd)
  · intro b hb cd hcd b' hb' cd' hcd'
    exact hunique cd (hmem b hb cd hcd) cd' (hmem b' hb' cd' hcd')

/-- The lifted tree between the two sweeps of a propagation, with a default domain at the top if one was asked for. Its
records are the old ones and copies of them, and the record of the default domain. -/
theorem propagateDomains_lifted (hK : ClockDomain.Roster a n σ K) (hf : f.RecordsIn K)
    (hg : Gives (f.propagateDomains a ensureSync) σ f' σ') :
    ∃ f1 K', ClockDomain.Roster a n σ' K' ∧
      (∀ x ∈ K', (∃ cd ∈ K, x.DescendsFrom n cd) ∨
        ∃ σ1 σ2, σ.Extends σ1 ∧ ClockDomain.create σ1 a syncDomain .plain = .ok (σ2, x)) ∧
      f1.RecordsIn K' ∧ f1.Lifted ∧ f.Matches (Body.Follows n) f1 ∧
      (ensureSync = true → ∃ cd, f1.body.domain? syncDomain = some cd) ∧ f1.shareDomains "" [] = .ok f' := by
  obtain ⟨f1, f2, σ1, hlift, hensure, hshare⟩ := propagateDomains_inv hg
  obtain ⟨K1, hcopied, hf1, hlifted, hfollows⟩ := liftDomains_lifted hK hf hlift
  obtain ⟨-, hensure⟩ | ⟨hno, rfl, rfl⟩ := hensure
  · obtain ⟨⟨K2, hadded, hK2, hf2⟩, hlifted2, hfollows2, hsync⟩ :=
      ensureDomain_lifted hcopied.roster hf1 hlifted hensure
    refine ⟨f2, K2, hK2, ?_, hf2, hlifted2, hfollows.trans .trans hfollows2, fun _ => hsync, hshare⟩
    intro x hx
    refine (hadded x hx).imp (hcopied.stems x) ?_
    rintro ⟨σ3, hcreate⟩
    exact ⟨σ1, σ3, hcopied.arenas, hcreate⟩
  · refine ⟨f2, K1, hcopied.roster, fun x hx => Or.inl (hcopied.stems x hx), hf1, hlifted, hfollows, ?_, hshare⟩
    rw [hno]
    simp

/-- Propagation comes down to handing the domains of a lifted tree down. -/
theorem propagateDomains_sharing (ha : a < σ.list.size) (hf : f.NumberedBy a σ)
    (hg : Gives (f.propagateDomains a ensureSync) σ f' σ') :
    ∃ f1, f.Matches (Body.Follows (σ.arena a).domains) f1 ∧
      (ensureSync = true → ∃ cd, f1.body.domain? syncDomain = some cd) ∧ Sharing [] f1 f' := by
  obtain ⟨f1, K, hK, -, hrecords, hlifted, hfollows, hsync, hshare⟩ :=
    propagateDomains_lifted (hf.roster ha) (fun b hb cd hcd => ⟨b, hb, hcd⟩) hg
  exact ⟨f1, hfollows, hsync, shareDomains_sharing hK (by simp) hrecords hlifted hshare⟩

/-- Propagating the domains of a closed tree again changes nothing. -/
theorem propagateDomains_of_closed (hlifted : f.Lifted) (hshared : f.Shared)
    (hsync : ensureSync = true → ∃ cd, f.body.domain? syncDomain = some cd) :
    Gives (f.propagateDomains a ensureSync) σ f σ := by
  have hshare : f.shareDomains "" [] = .ok f := shareDomains_of_shared hshared (by simp)
  refine gives_bind.mpr ⟨f, σ, liftDomains_of_lifted hlifted, ?_⟩
  cases ensureSync with
  | false => exact gives_raise.mpr ⟨hshare, rfl⟩
  | true =>
    obtain ⟨cd, hcd⟩ := hsync rfl
    refine gives_bind.mpr ⟨f, σ, ?_, gives_raise.mpr ⟨hshare, rfl⟩⟩
    cases f with
    | node =>
      rw [body_node] at hcd
      rw [ensureDomain, hcd]
      exact gives_pure.mpr ⟨rfl, rfl⟩

/-- Propagating domains through a tree whose records are numbered by the arena closes it: parents and children agree in
both directions, so all fragments know the same domains that are not local; what a fragment knew it still knows, up to
renaming; a local domain is found only at or below a fragment that declared it; and propagating again leaves the tree
and the arenas as they are. -/
theorem propagateDomains_closes {ensureSync : Bool} {f f' : Fragment} (ha : a < σ.list.size) (hf : f.NumberedBy a σ)
    (hg : (f.propagateDomains a ensureSync).run.run σ = (.ok f', σ')) :
    (∀ g ∈ f'.nodes, ∀ c ∈ g.children, (∀ cd ∈ g.body.domains, c.2.body.Knows cd) ∧
      ∀ cd ∈ c.2.body.domains, cd.isLocal = false → g.body.Knows cd) ∧
    (∀ g ∈ f'.nodes, ∀ h ∈ f'.nodes, ∀ cd, cd.isLocal = false → (g.body.Knows cd ↔ h.body.Knows cd)) ∧
    (∀ path g, f.at? path = some g → ∃ g', f'.at? path = some g' ∧
      ∀ cd, g.body.Knows cd → ∃ cd', cd'.DescendsFrom (σ.arena a).domains cd ∧ g'.body.Knows cd') ∧
    (∀ path g', f'.at? path = some g' → ∀ cd ∈ g'.body.domains, cd.isLocal = true →
      ∃ above g cd₀, above <+: path ∧ f.at? above = some g ∧ cd₀ ∈ g.body.domains ∧ cd₀.isLocal = true ∧
        cd.DescendsFrom (σ.arena a).domains cd₀) ∧
    (f'.propagateDomains a ensureSync).run.run σ' = (.ok f', σ') := by
  obtain ⟨f₁, hfollows, hsync, hsharing⟩ := propagateDomains_sharing ha hf hg
  have hlifted := hsharing.lifted
  have hshared := hsharing.shared
  refine ⟨fun g hg c hc => ⟨hshared g hg c hc, hlifted g hg c hc⟩, ?_, ?_, ?_, ?_⟩
  · intro g hg h hh cd hlocal
    rw [knows_iff_of_closed hlifted hshared hg hlocal, knows_iff_of_closed hlifted hshared hh hlocal]
  · intro path g hpath
    obtain ⟨g₁, hg₁, hfollow⟩ := hfollows.right hpath
    obtain ⟨g', hg', hkeeps⟩ := hsharing.keeps.right hg₁
    refine ⟨g', hg', ?_⟩
    intro cd hcd
    obtain ⟨cd', hdescends, hknows⟩ := hfollow.kept cd hcd
    exact ⟨cd', hdescends, hkeeps cd' hknows⟩
  · intro path g' hpath cd hcd hlocal
    rcases hsharing.sources path g' hpath cd hcd with hcd | ⟨above, g₁, habove, hg₁, hcd⟩
    · cases hcd
    · obtain ⟨g, hg, hfollow⟩ := hfollows.left hg₁
      obtain ⟨cd₀, hcd₀, hdescends⟩ := hfollow.locals cd hcd hlocal
      exact ⟨above, g, cd₀, habove, hg, hcd₀, hdescends.isLocal_eq ▸ hlocal, hdescends⟩
  · refine propagateDomains_of_closed hlifted hshared fun h => ?_
    obtain ⟨cd, hcd⟩ := hsync h
    obtain ⟨hname, hknows⟩ := Body.knows_of_domain? hcd
    exact ⟨cd, hname ▸ hsharing.keeps.body cd hknows⟩

/-- A domain made for an example, over two signals of the first arena. -/
def tick (id : Nat) (name : String) (isLocal : Bool) : ClockDomain :=
  ⟨0, id, name, ⟨0, 2 * id - 1⟩, some ⟨0, 2 * id⟩, false, false, isLocal⟩

/-- Two children that define different domains under one name. The second also has a local domain and a child. -/
def rivals : Fragment :=
  .node Body.empty [("p", leaf { Body.empty with domains := [tick 1 "d" false] }),
    ("q", .node { Body.empty with domains := [tick 2 "d" false, tick 3 "l" true] } [("r", leaf Body.empty)])]

def rivalArenas : Arenas := ⟨#[⟨Array.replicate 6 ⟨"$signal", .unsigned 1, 0, false, [], none⟩, 3, 0⟩]⟩

theorem rivals_numbered : rivals.NumberedBy 0 rivalArenas := by
  have hdomains : rivals.bodies.flatMap Body.domains = [tick 1 "d" false, tick 2 "d" false, tick 3 "l" true] := rfl
  exact numberedBy_of_list hdomains (by decide) (by decide)

/-- The rivals are told apart by name, the top knows both and a default domain, and the local domain stays below its
fragment. Nothing changes when domains are propagated again. -/
theorem propagateDomains_rivals : ∃ f' σ',
    (rivals.propagateDomains 0 true).run.run rivalArenas = (.ok f', σ') ∧
      (f'.bodies.map fun b => b.domains.map ClockDomain.name) =
        [["p_d", "q_d", "sync"], ["p_d", "q_d", "sync"], ["q_d", "l", "p_d", "sync"], ["q_d", "l", "p_d", "sync"]] ∧
      (f'.propagateDomains 0 true).run.run σ' = (.ok f', σ') := by
  have hnames : (((rivals.propagateDomains 0 true).run.run rivalArenas).1.toOption.map fun f' =>
      f'.bodies.map fun b => b.domains.map ClockDomain.name) =
        some [["p_d", "q_d", "sync"], ["p_d", "q_d", "sync"], ["q_d", "l", "p_d", "sync"], ["q_d", "l", "p_d", "sync"]] := by
    decide +kernel
  obtain ⟨f', hf', hnames⟩ := Option.map_eq_some_iff.mp hnames
  have hrun := eq_ok_of_toOption hf'
  exact ⟨f', _, hrun, hnames, (propagateDomains_closes (by decide) rivals_numbered hrun).2.2.2.2⟩

end Fragment
end Rtl
