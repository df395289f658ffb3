import Mathlib
import Rtl.Proofs.DomainRenaming

/-!
# Which records are the same domain

A table of domains takes a record under a name that is in use when the two records bear one number, and refuses it
otherwise. Numbers are counted arena by arena, so records of two arenas may share one, and then the second is dropped
without a word. Where no two records share a number this cannot happen: a table takes records exactly when no name
stands for two of them, and then it has all of them. Propagating domains through a tree and renaming them keep every
record where it was, as itself or as a copy under another name, no two as one, and make the numbers of the new tree
differ again.
-/
namespace Rtl

namespace Body

variable {b b' : Body} {cd : ClockDomain} {cds : List ClockDomain} {stop : Option ClockDomain}
variable {old : ClockDomain}

/-- What registering records one after the other comes to: the table in the end, and the record at which it stopped. -/
structure Registers (b : Body) (cds : List ClockDomain) (b' : Body) (stop : Option ClockDomain) : Prop where
  kept : ∀ x, b.Knows x → b'.Knows x
  source : ∀ x ∈ b'.domains, x ∈ b.domains ∨ x ∈ cds
  taken : stop = none → ∀ cd ∈ cds, ∃ old, b'.Knows old ∧ old.name = cd.name ∧ old.id = cd.id
  refused : ∀ cd, stop = some cd → cd ∈ cds ∧ ∃ old, b'.Knows old ∧ old.name = cd.name ∧ old.id ≠ cd.id

theorem registers_nil (b : Body) : b.Registers [] b none where
  kept _ hx := hx
  source _ hx := Or.inl hx
  taken := by simp
  refused := by simp

theorem registers_stop (cds : List ClockDomain) (h : b.domain? cd.name = some old) (hid : old.id ≠ cd.id) :
    b.Registers (cd :: cds) b (some cd) where
  kept _ hx := hx
  source _ hx := Or.inl hx
  taken := by simp
  refused := by
    rintro x ⟨⟩
    obtain ⟨hname, hknows⟩ := knows_of_domain? h
    exact ⟨List.mem_cons_self, old, hknows, hname, hid⟩

/-- The name is in use by a record of the same number: the table stays as it is. -/
theorem Registers.passed (h : b.Registers cds b' stop) (hold : b.domain? cd.name = some old) (hid : old.id = cd.id) :
    b.Registers (cd :: cds) b' stop where
  kept := h.kept
  source x hx := (h.source x hx).imp_right (List.mem_cons_of_mem cd)
  taken hstop := by
    obtain ⟨hname, hknows⟩ := knows_of_domain? hold
    exact List.forall_mem_cons.mpr ⟨⟨old, h.kept old hknows, hname, hid⟩, h.taken hstop⟩
  refused x hx := (h.refused x hx).imp_left (List.mem_cons_of_mem cd)

/-- The name is not in use: the record is added. -/
theorem Registers.added (h : ({ b with domains := b.domains ++ [cd] } : Body).Registers cds b' stop)
    (hnone : b.domain? cd.name = none) :
    b.Registers (cd :: cds) b' stop where
  kept x hx := h.kept x ((knows_concat hnone).2 x hx)
  source x hx := by
    rcases h.source x hx with hx | hx
    · rcases List.mem_append.mp hx with hx | hx
      · exact Or.inl hx
      · exact Or.inr (List.mem_cons.mpr (Or.inl (List.mem_singleton.mp hx)))
    · exact Or.inr (List.mem_cons_of_mem cd hx)
  taken hstop := List.forall_mem_cons.mpr ⟨⟨cd, h.kept cd (knows_concat hnone).1, rfl, rfl⟩, h.taken hstop⟩
  refused x hx := (h.refused x hx).imp_left (List.mem_cons_of_mem cd)

/-- Records that are given and records that are taken over are registered alike, up to the error for the one refused. -/
theorem domains_register (b : Body) (cds : List ClockDomain) : ∃ b' stop, b.Registers cds b' stop ∧
    b.addDomains cds = (b', stop.map fun cd => .name (.domainExists cd.name)) ∧
    ∀ refused, b.takeDomains refused cds = stop.elim (.ok b') fun cd => .error (.domain (refused cd)) := by
  induction cds generalizing b with
  | nil => exact ⟨b, none, b.registers_nil, rfl, fun _ => rfl⟩
  | cons cd cds ih =>
    simp only [addDomains, addDomain, takeDomains]
    cases hold : b.domain? cd.name with
    | none =>
      obtain ⟨b', stop, h, heq⟩ := ih { b with domains := b.domains ++ [cd] }
      exact ⟨b', stop, h.added hold, heq⟩
    | some old =>
      by_cases hid : old.id = cd.id
      · obtain ⟨b', stop, h, heq⟩ := ih b
        refine ⟨b', stop, h.passed hold hid, ?_⟩
        simp only [hid, ne_eq, not_true, if_true, if_false]
        exact heq
      · refine ⟨b, some cd, registers_stop cds hold hid, ?_⟩
        simp only [hid, ne_eq, not_false_eq_true, if_true, if_false]
        exact ⟨rfl, fun _ => rfl⟩

/-- No two of the records that are there or to be registered share a number. -/
def ToldApart (b : Body) (cds : List ClockDomain) : Prop :=
  ∀ x, x ∈ b.domains ∨ x ∈ cds → ∀ y, y ∈ b.domains ∨ y ∈ cds → x.id = y.id → x = y

/-- No name stands for two of the records that are known or to be registered. -/
def Compatible (b : Body) (cds : List ClockDomain) : Prop :=
  ∀ cd ∈ cds, ∀ x, b.Knows x ∨ x ∈ cds → x.name = cd.name → x = cd

/-- Where numbers tell records apart, all of them are taken or one is refused for another record of its name. -/
theorem Registers.complete (h : b.Registers cds b' stop) (hapart : b.ToldApart cds) :
    (stop = none → ∀ cd, b.Knows cd ∨ cd ∈ cds → b'.Knows cd) ∧ (stop = none ↔ b.Compatible cds) := by
  have hall : stop = none → ∀ cd, b.Knows cd ∨ cd ∈ cds → b'.Knows cd := by
    rintro hstop cd (hcd | hcd)
    · exact h.kept cd hcd
    · obtain ⟨old, hknows, -, hid⟩ := h.taken hstop cd hcd
      obtain rfl := hapart old (h.source old hknows.mem) cd (Or.inr hcd) hid
      exact hknows
  refine ⟨hall, ?_, ?_⟩
  · intro hstop cd hcd x hx hname
    exact (hall hstop x hx).unique (hall hstop cd (Or.inr hcd)) hname
  · intro hcompatible
    rw [Option.eq_none_iff_forall_not_mem]
    intro cd hstop
    obtain ⟨hcd, old, hknows, hname, hid⟩ := h.refused cd hstop
    -- The record in the way was there before or was registered on the way.
    have hbefore : b.Knows old ∨ old ∈ cds := by
      refine (h.source old hknows.mem).imp_left fun hold => ?_
      obtain ⟨x, hx⟩ := Option.isSome_iff_exists.mp (domain?_isSome.mpr ⟨old, hold, rfl⟩)
      obtain ⟨hxname, hxknows⟩ := knows_of_domain? hx
      rw [(h.kept x hxknows).unique hknows hxname] at hxknows
      exact hxknows
    exact hid (congrArg ClockDomain.id (hcompatible cd hcd old hbefore hname))

end Body

namespace Fragment

variable {a n : Nat} {σ σ' : Arenas} {f f' : Fragment}

theorem numberedBy_of_roster {K : Set ClockDomain} (hK : ClockDomain.Roster a n σ K) (hf : f.RecordsIn K) :
    f.NumberedBy a σ where
  issued b hb cd hcd := hK.issued cd (hf b hb cd hcd)
  unique b hb cd hcd b' hb' cd' hcd' := hK.unique cd (hf b hb cd hcd) cd' (hf b' hb' cd' hcd')

/-- Every record of a propagated tree stems from a record of the tree or is that of the default domain; every fragment
has kept what it knew; and numbers tell the records apart again. -/
theorem propagateDomains_records {ensureSync : Bool} (ha : a < σ.list.size) (hf : f.NumberedBy a σ)
    (hg : Gives (f.propagateDomains a ensureSync) σ f' σ') :
    f'.NumberedBy a σ' ∧ f.Matches (Body.Keeps (σ.arena a).domains) f' ∧
      ∀ x ∈ f'.records, (∃ cd ∈ f.records, x.DescendsFrom (σ.arena a).domains cd) ∨
        ∃ σ1 σ2, σ.Extends σ1 ∧ ClockDomain.create σ1 a syncDomain .plain = .ok (σ2, x) := by
  obtain ⟨f1, K, hK, hstems, hrecords, hlifted, hfollows, -, hshare⟩ :=
    propagateDomains_lifted (hf.roster ha) (fun b hb cd hcd => ⟨b, hb, hcd⟩) hg
  have hsharing := shareDomains_sharing hK (by simp) hrecords hlifted hshare
  have hrecords' : f'.RecordsIn K := by
    intro b' hb' x hx
    obtain ⟨g', hg', rfl⟩ := mem_bodies_iff.mp hb'
    obtain ⟨path, hpath⟩ := mem_nodes_iff_at?.mp hg'
    rcases hsharing.sources path g' hpath x hx with hx | ⟨above, g, -, habove, hx⟩
    · cases hx
    · exact hrecords g.body (mem_bodies_of_at? habove) x hx
  refine ⟨numberedBy_of_roster hK hrecords', ?_, fun x ⟨b, hb, hx⟩ => hstems x (hrecords' b hb x hx)⟩
  exact hfollows.comp hsharing.keeps fun h h' => h.keeps.trans (Body.keeps_of_knows h')

/-- A renamed tree has the records of the tree in their places, each under a mapped name replaced by one copy, and all
of them are known there; numbers tell the records apart again. -/
theorem renamed_records {mapping : List (String × String)} {r r' : Renamer} (ha : a < σ.list.size)
    (hf : f.NumberedBy a σ) (hcreate : Renamer.create a mapping = .ok r) (happly : r.apply σ f = (.ok f', σ', r')) :
    f'.NumberedBy a σ' ∧ ∃ ren, Renamer.Replaces a (σ.arena a).domains mapping f.records ren ∧
      f.Matches (fun b b' => (∀ x, x ∈ b'.domains ↔ ∃ cd ∈ b.domains, ren cd = x) ∧
        ∀ x ∈ b'.domains, b'.Knows x) f' := by
  obtain ⟨rfl, -⟩ := Renamer.create_inv hcreate
  obtain ⟨t, hg, rfl⟩ := Renamer.apply_inv happly
  obtain ⟨hreplaces, hroster, hcarried⟩ := Renamer.traverse_replaces ha hf hg
  refine ⟨numberedBy_of_roster hroster ?_, Renamer.replacement ⟨a, mapping, []⟩ t, hreplaces, ?_⟩
  · exact hcarried.forall_bodies (P := fun _ => True) (fun _ _ => trivial) fun _ h => h.2
  · exact hcarried.imp fun b _ _ h => ⟨fun x => h.1.mem_domains, fun x => h.1.knows⟩

/-- Where no two records share a number, no record is taken for another. A table accepts records exactly when no name
stands for two of them, has all of them then, and otherwise refuses one by its name, with an error in the name when it
was given and an error in the domain when it came from another fragment. In a tree numbered by an arena, propagation
and renaming leave every record that a fragment knows in its place, as itself or as its copy under another name, and
never two records as one; they add no record but a default domain; and the new tree is numbered by the arena. -/
theorem records_kept (b : Body) (cds : List ClockDomain) (a : Nat) (σ : Arenas) (f : Fragment) :
    (b.ToldApart cds →
      ((b.addDomains cds).2 = none ↔ b.Compatible cds) ∧
      ((b.addDomains cds).2 = none → ∀ cd, b.Knows cd ∨ cd ∈ cds → (b.addDomains cds).1.Knows cd) ∧
      (∀ e, (b.addDomains cds).2 = some e → ∃ cd ∈ cds, e = .name (.domainExists cd.name)) ∧
      ∀ refused : ClockDomain → DomainError,
        ((∃ b', b.takeDomains refused cds = .ok b') ↔ b.Compatible cds) ∧
        (∀ b', b.takeDomains refused cds = .ok b' → ∀ cd, b.Knows cd ∨ cd ∈ cds → b'.Knows cd) ∧
        ∀ e, b.takeDomains refused cds = .error e → ∃ cd ∈ cds, e = .domain (refused cd)) ∧
    (a < σ.list.size → f.NumberedBy a σ →
      (∀ ensureSync f' σ', (f.propagateDomains a ensureSync).run.run σ = (.ok f', σ') →
        f'.NumberedBy a σ' ∧ f.Matches (Body.Keeps (σ.arena a).domains) f' ∧
        ∀ x ∈ f'.records, (∃ cd ∈ f.records, x.DescendsFrom (σ.arena a).domains cd) ∨
          ∃ σ₁ σ₂, σ.Extends σ₁ ∧ ClockDomain.create σ₁ a syncDomain .plain = .ok (σ₂, x)) ∧
      ∀ mapping r f' σ' r', Renamer.create a mapping = .ok r → r.apply σ f = (.ok f', σ', r') →
        f'.NumberedBy a σ' ∧ ∃ ren, Renamer.Replaces a (σ.arena a).domains mapping f.records ren ∧
          f.Matches (fun b b' => (∀ x, x ∈ b'.domains ↔ ∃ cd ∈ b.domains, ren cd = x) ∧
            ∀ x ∈ b'.domains, b'.Knows x) f') := by
  refine ⟨?_, ?_⟩
  · intro hapart
    obtain ⟨b', stop, hadd, heq, htake⟩ := b.domains_register cds
    obtain ⟨hall, hiff⟩ := hadd.complete hapart
    rw [heq]
    refine ⟨by simpa using hiff, by simpa using hall, ?_, ?_⟩
    · intro e he
      obtain ⟨cd, hcd, rfl⟩ := Option.map_eq_some_iff.mp he
      exact ⟨cd, (hadd.refused cd hcd).1, rfl⟩
    · intro refused
      rw [htake]
      cases stop with
      | none =>
        refine ⟨iff_of_true ⟨b', rfl⟩ (hiff.mp rfl), ?_, ?_⟩
        · rintro _ ⟨⟩
          exact hall rfl
        · rintro e ⟨⟩
      | some cd =>
        refine ⟨iff_of_false ?_ fun h => absurd (hiff.mpr h) (by simp), ?_, ?_⟩
        · rintro ⟨_, ⟨⟩⟩
        · rintro _ ⟨⟩
        · rintro e ⟨⟩
          exact ⟨cd, (hadd.refused cd rfl).1, rfl⟩
  · intro ha hf
    exact ⟨fun _ _ _ hg => propagateDomains_records ha hf hg,
      fun _ _ _ _ _ hcreate happly => renamed_records ha hf hcreate happly⟩

/-- The second domain of a second arena. -/
def visitor : ClockDomain := ⟨1, 2, "d", ⟨1, 3⟩, some ⟨1, 4⟩, false, false, false⟩

/-- Two children that define different domains under one name, numbered by different arenas. -/
def neighbours : Fragment :=
  .node Body.empty [("p", leaf { Body.empty with domains := [tick 1 "d" false] }),
    ("q", leaf { Body.empty with domains := [visitor] })]

def neighbourArenas : Arenas :=
  ⟨#[⟨Array.replicate 6 ⟨"$signal", .unsigned 1, 0, false, [], none⟩, 3, 0⟩,
    ⟨Array.replicate 4 ⟨"$signal", .unsigned 1, 0, false, [], none⟩, 2, 0⟩]⟩

theorem neighbours_numbered : neighbours.NumberedBy 0 neighbourArenas := by
  have hdomains : neighbours.bodies.flatMap Body.domains = [tick 1 "d" false, visitor] := rfl
  exact numberedBy_of_list hdomains (by decide) (by decide)

/-- Together the two are refused, and propagation tells them apart by name. -/
theorem records_kept_neighbours :
    (∃ cd ∈ [tick 1 "d" false, visitor], (Body.empty.addDomains [tick 1 "d" false, visitor]).2 =
      some (.name (.domainExists cd.name))) ∧
    ∃ f' σ', (neighbours.propagateDomains 0 false).run.run neighbourArenas = (.ok f', σ') ∧
      (f'.bodies.map fun b => b.domains.map fun cd => (cd.name, cd.clk)) =
        [[("p_d", ⟨0, 1⟩), ("q_d", ⟨1, 3⟩)], [("p_d", ⟨0, 1⟩), ("q_d", ⟨1, 3⟩)], [("q_d", ⟨1, 3⟩), ("p_d", ⟨0, 1⟩)]] ∧
      f'.NumberedBy 0 σ' ∧ neighbours.Matches (Body.Keeps 3) f' := by
  have hapart : Body.empty.ToldApart [tick 1 "d" false, visitor] := by
    have hlist : ∀ x ∈ [tick 1 "d" false, visitor], ∀ y ∈ [tick 1 "d" false, visitor], x.id = y.id → x = y := by decide
    intro x hx y hy
    exact hlist x (hx.resolve_left (by simp [Body.empty])) y (hy.resolve_left (by simp [Body.empty]))
  obtain ⟨hadding, htree⟩ := records_kept Body.empty [tick 1 "d" false, visitor] 0 neighbourArenas neighbours
  obtain ⟨hiff, -, hrefused, -⟩ := hadding hapart
  have hnames : (((neighbours.propagateDomains 0 false).run.run neighbourArenas).1.toOption.map fun f' =>
      f'.bodies.map fun b => b.domains.map fun cd => (cd.name, cd.clk)) =
        some [[("p_d", ⟨0, 1⟩), ("q_d", ⟨1, 3⟩)], [("p_d", ⟨0, 1⟩), ("q_d", ⟨1, 3⟩)],
          [("q_d", ⟨1, 3⟩), ("p_d", ⟨0, 1⟩)]] := by
    decide +kernel
  obtain ⟨f', hf', hnames⟩ := Option.map_eq_some_iff.mp hnames
  have hrun := eq_ok_of_toOption hf'
  obtain ⟨hnumbered, hkeeps, -⟩ := (htree (by decide) neighbours_numbered).1 false _ _ hrun
  refine ⟨?_, f', _, hrun, hnames, hnumbered, hkeeps⟩
  cases hadded : (Body.empty.addDomains [tick 1 "d" false, visitor]).2 with
  | some e =>
    obtain ⟨cd, hcd, rfl⟩ := hrefused e hadded
    exact ⟨cd, hcd, rfl⟩
  | none =>
    have hsame := hiff.mp hadded visitor (by simp) (tick 1 "d" false) (Or.inr (by simp)) rfl
    exact absurd hsame (by decide)

/-- The first domains of two arenas, under one name, are different records, but the second is dropped and not
refused. -/
theorem not_forall_addDomains_refuses : ¬ ∀ (σ σ₁ σ₂ : Arenas) (a b : Nat) (name : String) (cd cd' : ClockDomain),
    a < σ.list.size → b < σ.list.size → ClockDomain.create σ a name .plain = .ok (σ₁, cd) →
    ClockDomain.create σ₁ b name .plain = .ok (σ₂, cd') → cd ≠ cd' → (Body.empty.addDomains [cd, cd']).2 ≠ none := by
  intro h
  exact h ⟨#[.empty, .empty]⟩ _ _ 0 1 "d" _ _ (by decide) (by decide) rfl rfl (by decide) (by decide)

end Fragment
end Rtl
