import Mathlib
import Rtl.Proofs.Composition
import Rtl.Proofs.DomainPropagation

/-!
# Records of clock domains

A record is compared by its number, so what a fragment knows is settled as long as no two records bear one number. A
roster says this of all records in sight. Numbers that an arena issues later are new to it, and renaming a tree turns
every record under the mapped name into one new record, wherever in the tree it stands. Lowering samples issues signals
only and copies records as they are.
-/
namespace Rtl

open List

variable {σ σ' : Arenas} {f f' : Fragment} {a : Nat} {cd' : ClockDomain} {cds : List ClockDomain} {b b' : Body}
  {cs : List (String × Fragment)}

namespace ClockDomain

variable {a n : Nat} {cd : ClockDomain} {σ : Arenas} {K : Set ClockDomain}
variable {cd0 : ClockDomain}

/-- The record is another or a copy of it under another name, numbered later than `n`. -/
def DescendsFrom (n : Nat) (cd cd₀ : ClockDomain) : Prop :=
  cd = cd₀ ∨ n < cd.id ∧ cd = { cd₀ with arena := cd.arena, id := cd.id, name := cd.name }

theorem DescendsFrom.refl (n : Nat) (cd : ClockDomain) : cd.DescendsFrom n cd := Or.inl rfl

theorem DescendsFrom.trans {cd1 : ClockDomain} (h : cd.DescendsFrom n cd1) (h1 : cd1.DescendsFrom n cd0) :
    cd.DescendsFrom n cd0 := by
  rcases h with rfl | ⟨hlt, hcopy⟩
  · exact h1
  · rcases h1 with rfl | ⟨-, hcopy1⟩
    · exact Or.inr ⟨hlt, hcopy⟩
    · refine Or.inr ⟨hlt, ?_⟩
      rw [hcopy1] at hcopy
      exact hcopy

theorem DescendsFrom.isLocal_eq (h : cd.DescendsFrom n cd0) : cd.isLocal = cd0.isLocal := by
  rcases h with rfl | ⟨-, hcopy⟩
  · rfl
  · rw [hcopy]

/-- All records of the set bear numbers that the arena has issued, no two the same. Counting started at `n`. -/
structure Roster (a n : Nat) (σ : Arenas) (K : Set ClockDomain) : Prop where
  place : a < σ.list.size
  start : n ≤ (σ.arena a).domains
  issued : ∀ cd ∈ K, cd.id ≤ (σ.arena a).domains
  unique : ∀ cd ∈ K, ∀ cd' ∈ K, cd.id = cd'.id → cd = cd'

/-- The arena issued the number of the record last. -/
structure Newest (a : Nat) (σ σ' : Arenas) (cd : ClockDomain) : Prop where
  size : σ'.list.size = σ.list.size
  id : cd.id = (σ.arena a).domains + 1
  domains : (σ'.arena a).domains = cd.id

/-- A record with a number just issued joins the roster. -/
theorem Roster.insert (h : Roster a n σ K) (hnew : Newest a σ σ' cd) : Roster a n σ' (insert cd K) where
  place := h.place.trans_eq hnew.size.symm
  start := by
    have hstart := h.start
    rw [hnew.domains, hnew.id]
    omega
  issued := by
    rintro x (rfl | hx)
    · exact hnew.domains.ge
    · have hissued := h.issued x hx
      rw [hnew.domains, hnew.id]
      omega
  unique := by
    have hfresh : ∀ x ∈ K, x.id ≠ cd.id := by
      intro x hx
      have hissued := h.issued x hx
      rw [hnew.id]
      omega
    rintro x (rfl | hx) y (rfl | hy) hid
    · rfl
    · exact absurd hid.symm (hfresh y hy)
    · exact absurd hid (hfresh x hx)
    · exact h.unique x hx y hy hid

/-- From one roster to the next only copies have joined, and the arenas have only grown. -/
structure Copied (a n : Nat) (σ : Arenas) (K : Set ClockDomain) (σ' : Arenas) (K' : Set ClockDomain) : Prop where
  grows : K ⊆ K'
  stems : ∀ x ∈ K', ∃ cd ∈ K, x.DescendsFrom n cd
  arenas : σ.Extends σ'
  roster : Roster a n σ' K'

theorem Copied.refl (h : Roster a n σ K) : Copied a n σ K σ K :=
  ⟨subset_rfl, fun x hx => ⟨x, hx, .refl n x⟩, .refl σ, h⟩

theorem Copied.trans {σ'' : Arenas} {K' K'' : Set ClockDomain} (h : Copied a n σ K σ' K')
    (h' : Copied a n σ' K' σ'' K'') : Copied a n σ K σ'' K'' where
  grows := h.grows.trans h'.grows
  stems := by
    intro x hx
    obtain ⟨y, hy, hxy⟩ := h'.stems x hx
    obtain ⟨cd, hcd, hdescends⟩ := h.stems y hy
    exact ⟨cd, hcd, hxy.trans hdescends⟩
  arenas := h.arenas.trans h'.arenas
  roster := h'.roster

end ClockDomain

namespace Arenas

theorem domains_modifyArena (σ : Arenas) (b : Nat) {f : Arena → Arena} (hf : ∀ x, (f x).domains = x.domains) (a : Nat) :
    ((σ.modifyArena b f).arena a).domains = (σ.arena a).domains := by
  by_cases ha : a < σ.list.size
  · rw [arena_modifyArena _ _ _ _ ha]
    split
    · exact hf _
    · rfl
  · have hle : σ.list.size ≤ a := Nat.le_of_not_lt ha
    rw [arena_of_size_le hle, arena_of_size_le ((σ.size_modifyArena _ _).trans_le hle)]

theorem domains_modify (σ : Arenas) (s : SignalId) (f : Signal → Signal) (a : Nat) :
    ((σ.modify s f).arena a).domains = (σ.arena a).domains := by
  unfold modify
  split
  · rfl
  · apply domains_modifyArena
    exact fun _ => rfl

theorem domains_nextDomain (ha : a < σ.list.size) : ((σ.nextDomain a).1.arena a).domains = (σ.nextDomain a).2 := by
  unfold nextDomain
  rw [arena_modifyArena _ _ _ _ ha, if_pos rfl]

theorem domains_issue {spec : SignalSpec} {id : SignalId} (h : σ.issue a spec = .ok (σ', id)) :
    σ'.list.size = σ.list.size ∧ (σ'.arena a).domains = (σ.arena a).domains := by
  obtain ⟨r, hpush, -⟩ := issue_inv h
  cases hpush
  refine ⟨σ.size_modifyArena _ _, ?_⟩
  apply domains_modifyArena
  exact fun _ => rfl

end Arenas

namespace ClockDomain

variable {name : String} {cd : ClockDomain}

theorem renamed_newest (ha : a < σ.list.size) (h : cd.renamed σ a name = .ok (σ', cd')) :
    Newest a σ σ' cd' ∧ cd' = { cd with arena := a, id := cd'.id, name := name } := by
  have hsize := (renamed_sound h).1.size
  unfold renamed at h
  split at h
  · cases h
  · rw [Except.ok.injEq, Prod.mk.injEq] at h
    obtain ⟨rfl, rfl⟩ := h
    refine ⟨⟨hsize, rfl, ?_⟩, rfl⟩
    have hclk := (Arenas.domains_modify (σ.nextDomain a).1 cd.clk (fun s => { s with name := clkName name }) a).trans
      (Arenas.domains_nextDomain ha)
    cases cd.rst with
    | none => exact hclk
    | some rst => exact (Arenas.domains_modify _ rst _ a).trans hclk

theorem create_newest {opts : DomainOptions} (ha : a < σ.list.size) (h : create σ a name opts = .ok (σ', cd)) :
    Newest a σ σ' cd ∧ cd.name = name ∧ cd.isLocal = opts.isLocal := by
  unfold create at h
  split at h
  · cases h
  · split at h
    · cases h
    · obtain ⟨⟨σ1, clk⟩, hclk, h⟩ := except_bind_eq_ok.mp h
      have hsize := σ.size_modifyArena a fun x => { x with domains := x.domains + 1 }
      have hnext := Arenas.domains_nextDomain ha
      obtain ⟨hsize1, hdomains1⟩ := Arenas.domains_issue hclk
      dsimp only at h
      split at h
      · rw [except_pure_eq_ok, Prod.mk.injEq] at h
        obtain ⟨rfl, rfl⟩ := h
        exact ⟨⟨hsize1.trans hsize, rfl, hdomains1.trans hnext⟩, rfl, rfl⟩
      · obtain ⟨⟨σ2, rst⟩, hrst, h⟩ := except_bind_eq_ok.mp h
        rw [except_pure_eq_ok, Prod.mk.injEq] at h
        obtain ⟨rfl, rfl⟩ := h
        obtain ⟨hsize2, hdomains2⟩ := Arenas.domains_issue hrst
        exact ⟨⟨hsize2.trans (hsize1.trans hsize), rfl, hdomains2.trans (hdomains1.trans hnext)⟩, rfl, rfl⟩

end ClockDomain

namespace Body

variable {a n : Nat} {σ : Arenas} {K : Set ClockDomain}
variable {b b' : Body} {cd : ClockDomain}
variable {refused : ClockDomain → DomainError}

/-- The record is the one that the fragment knows under its name. -/
def Knows (b : Body) (cd : ClockDomain) : Prop := b.domain? cd.name = some cd

theorem Knows.mem (h : b.Knows cd) : cd ∈ b.domains := mem_of_find?_eq_some h

theorem Knows.unique (h : b.Knows cd) (h' : b.Knows cd') (hname : cd.name = cd'.name) : cd = cd' := by
  unfold Knows at h h'
  rw [hname, h'] at h
  exact (Option.some.inj h).symm

theorem knows_of_domain? {d : String} (h : b.domain? d = some cd) : cd.name = d ∧ b.Knows cd := by
  have hname : cd.name = d := by simpa using find?_some h
  exact ⟨hname, by rw [Knows, hname, h]⟩

/-- A record at the end of a table is known unless its name was, and the records before it are known as before. -/
theorem knows_concat (h : b.domain? cd.name = none) :
    ({ b with domains := b.domains ++ [cd] } : Body).Knows cd ∧
      ∀ x, b.Knows x → ({ b with domains := b.domains ++ [cd] } : Body).Knows x := by
  constructor
  · change (b.domains ++ [cd]).find? _ = _
    rw [find?_append, show b.domains.find? _ = none from h]
    simp
  · intro x hx
    change (b.domains ++ [cd]).find? _ = _
    rw [find?_append, show b.domains.find? _ = some x from hx]
    rfl

/-- All records of the table are on the roster. -/
def RecordsIn (K : Set ClockDomain) (b : Body) : Prop := ∀ cd ∈ b.domains, cd ∈ K

theorem addDomain_knows (hK : ClockDomain.Roster a n σ K) (hb : b.RecordsIn K) (hcd : cd ∈ K)
    (h : b.addDomain cd = .ok b') : b'.Knows cd ∧ ∀ x, b.Knows x → b'.Knows x := by
  unfold addDomain at h
  split at h
  · rename_i old hold
    split at h
    · rename_i hid
      cases h
      obtain ⟨-, hknows⟩ := knows_of_domain? hold
      obtain rfl := hK.unique old (hb old hknows.mem) cd hcd hid
      exact ⟨hknows, fun x hx => hx⟩
    · cases h
  · rename_i hnone
    cases h
    exact knows_concat hnone

/-- A fragment that takes over records knows all of them afterwards, and still knows what it knew. -/
theorem takeDomains_knows (hK : ClockDomain.Roster a n σ K) (hb : b.RecordsIn K) (hcds : ∀ cd ∈ cds, cd ∈ K)
    (h : b.takeDomains refused cds = .ok b') : (∀ cd ∈ cds, b'.Knows cd) ∧ ∀ x, b.Knows x → b'.Knows x := by
  induction cds generalizing b with
  | nil =>
    cases h
    exact ⟨by simp, fun x hx => hx⟩
  | cons cd cds ih =>
    obtain ⟨hcd, hrest⟩ := forall_mem_cons.mp hcds
    rw [takeDomains] at h
    split at h
    · rename_i old hold
      split at h
      · cases h
      · rename_i hid
        obtain ⟨-, hknows⟩ := knows_of_domain? hold
        obtain rfl := hK.unique old (hb old hknows.mem) cd hcd (not_not.mp hid)
        obtain ⟨hnew, hkept⟩ := ih hb hrest h
        exact ⟨forall_mem_cons.mpr ⟨hkept _ hknows, hnew⟩, hkept⟩
    · rename_i hnone
      have hb1 : ({ b with domains := b.domains ++ [cd] } : Body).RecordsIn K := by
        intro x hx
        rcases mem_append.mp hx with hx | hx
        · exact hb x hx
        · exact mem_singleton.mp hx ▸ hcd
      obtain ⟨hnew, hkept⟩ := ih hb1 hrest h
      obtain ⟨hadded, hbefore⟩ := knows_concat hnone
      exact ⟨forall_mem_cons.mpr ⟨hkept _ hadded, hnew⟩, fun x hx => hkept x (hbefore x hx)⟩

theorem takeDomains_known (h : ∀ cd ∈ cds, b.Knows cd) : b.takeDomains refused cds = .ok b := by
  induction cds with
  | nil => rfl
  | cons cd cds ih =>
    obtain ⟨hcd, hcds⟩ := forall_mem_cons.mp h
    have hfound : b.domain? cd.name = some cd := hcd
    rw [takeDomains, hfound]
    simp [ih hcds]

/-- The records of the second table are those of the first, carried over by `T`. -/
structure Carried (T : ClockDomain → ClockDomain → Prop) (b b' : Body) : Prop where
  source : ∀ x ∈ b'.domains, ∃ cd ∈ b.domains, T cd x
  known : ∀ cd ∈ b.domains, ∃ x, T cd x ∧ b'.Knows x

theorem Carried.imp {T T' : ClockDomain → ClockDomain → Prop} (h : b.Carried T b') (hT : ∀ {cd x}, T cd x → T' cd x) :
    b.Carried T' b' := by
  constructor
  · intro x hx
    obtain ⟨cd, hcd, hx⟩ := h.source x hx
    exact ⟨cd, hcd, hT hx⟩
  · intro cd hcd
    obtain ⟨x, hx, hknows⟩ := h.known cd hcd
    exact ⟨x, hT hx, hknows⟩

end Body

namespace Renamer

variable {s t : State} {cd x : ClockDomain}

theorem traversal_quiet (mapping : List (String × String)) : (traversal mapping).Keeps (fun _ => Still id) fun _ => True :=
  traversal_keeps Still.composes (fun _ _ _ hg => (gives_get.mp hg).2) mapping

/-- The records a renamer has made so far, added to a roster. -/
def State.roster (s : State) (K : Set ClockDomain) : Set ClockDomain := K ∪ {cd | ∃ e ∈ s.renamed, e.2 = cd}

/-- Every record made so far is a copy of a record of the roster, remembered under its number. It has a number of its
own. -/
structure Tracks (r : Renamer) (n : Nat) (K : Set ClockDomain) (s : State) : Prop where
  roster : ClockDomain.Roster r.arena n s.arenas (s.roster K)
  copies : ∀ e ∈ s.renamed, ∃ cd ∈ K, cd.id = e.1 ∧ e.2.DescendsFrom n cd
  fresh : ∀ e ∈ s.renamed, ∀ cd ∈ K, cd.id ≠ e.2.id
  apart : ∀ e ∈ s.renamed, ∀ e' ∈ s.renamed, e.2.id = e'.2.id → e.1 = e'.1

/-- The renamer forgets no record that it has made, and the arenas only grow. -/
structure State.Grows (s t : State) : Prop where
  renamed : s.renamed <+: t.renamed
  arenas : s.arenas.Extends t.arenas

theorem State.Grows.refl (s : State) : s.Grows s := ⟨prefix_rfl, .refl _⟩

theorem State.Grows.trans {u : State} (h : s.Grows t) (h' : t.Grows u) : s.Grows u :=
  ⟨h.renamed.trans h'.renamed, h.arenas.trans h'.arenas⟩

/-- The record that stands for another from now on. -/
def StandsFor (r : Renamer) (s : State) (cd x : ClockDomain) : Prop :=
  match target? r.mapping cd.name with
  | none => x = cd
  | some _ => (s.renamed.find? (·.1 = cd.id)).map Prod.snd = some x

variable {r : Renamer} {n : Nat} {K : Set ClockDomain}

theorem StandsFor.mono (h : r.StandsFor s cd x) (ht : s.Grows t) : r.StandsFor t cd x := by
  unfold StandsFor at h ⊢
  split at h
  · exact h
  · obtain ⟨rest, hrest⟩ := ht.renamed
    obtain ⟨e, he, hx⟩ := Option.map_eq_some_iff.mp h
    rw [← hrest, find?_append, he]
    exact congrArg some hx

theorem StandsFor.unique {y : ClockDomain} (h : r.StandsFor s cd x) (h' : r.StandsFor s cd y) : x = y := by
  unfold StandsFor at h h'
  cases htarget : target? r.mapping cd.name with
  | none =>
    rw [htarget] at h h'
    exact h.trans h'.symm
  | some =>
    rw [htarget] at h h'
    exact Option.some.inj (h.symm.trans h')

variable (hs : r.Tracks n K s)
include hs

/-- What stands for a record of the roster is on the roster too, and descends from the record. -/
theorem Tracks.standsFor (hcd : cd ∈ K) (h : r.StandsFor s cd x) :
    x ∈ s.roster K ∧ x.DescendsFrom n cd := by
  unfold StandsFor at h
  split at h
  · subst h
    exact ⟨Or.inl hcd, .refl n x⟩
  · obtain ⟨e, he, rfl⟩ := Option.map_eq_some_iff.mp h
    have hmem := mem_of_find?_eq_some he
    have hid : e.1 = cd.id := by simpa using find?_some he
    obtain ⟨cd', hcd', hid', hdescends⟩ := hs.copies e hmem
    -- The number leads to one record of the roster only.
    obtain rfl := hs.roster.unique cd' (Or.inl hcd') cd (Or.inl hcd) (hid'.trans hid)
    exact ⟨Or.inr ⟨e, hmem, rfl⟩, hdescends⟩

/-- Different records of the roster never get the same record to stand for them. -/
theorem Tracks.injective (hcd : cd ∈ K) (hcd' : cd' ∈ K) (h : r.StandsFor s cd x)
    (h' : r.StandsFor s cd' x) : cd = cd' := by
  -- A copy stands for the record whose number it is remembered under, and is no record of the roster.
  have hcopy : ∀ {c : ClockDomain}, (s.renamed.find? (·.1 = c.id)).map Prod.snd = some x →
      ∃ e ∈ s.renamed, e.1 = c.id ∧ e.2 = x := by
    intro c hc
    obtain ⟨e, he, rfl⟩ := Option.map_eq_some_iff.mp hc
    exact ⟨e, mem_of_find?_eq_some he, by simpa using find?_some he, rfl⟩
  unfold StandsFor at h h'
  split at h
  · subst h
    split at h'
    · exact h'
    · obtain ⟨e, he, -, rfl⟩ := hcopy h'
      exact absurd rfl (hs.fresh e he _ hcd)
  · obtain ⟨e, he, hid, rfl⟩ := hcopy h
    split at h'
    · subst h'
      exact absurd rfl (hs.fresh e he _ hcd')
    · obtain ⟨e', he', hid', hsame⟩ := hcopy h'
      have hone := hs.apart e he e' he' (congrArg ClockDomain.id hsame.symm)
      exact hs.roster.unique cd (Or.inl hcd) cd' (Or.inl hcd') (hid.symm.trans (hone.trans hid'))

/-- Renaming one record settles what stands for it. -/
theorem rename_tracks (hcd : cd ∈ K) (hg : Gives (r.rename cd) s x t) :
    r.Tracks n K t ∧ s.Grows t ∧ r.StandsFor t cd x := by
  obtain ⟨hnone, rfl, rfl⟩ | ⟨name, hsome, ⟨⟨k, hfound⟩, rfl⟩ | ⟨hmissing, σ, hrenamed, rfl⟩⟩ := rename_inv hg
  · refine ⟨hs, .refl _, ?_⟩
    simp only [StandsFor, hnone]
  · refine ⟨hs, .refl _, ?_⟩
    simp only [StandsFor, hsome, hfound, Option.map_some]
  · obtain ⟨hnew, hcopy⟩ := ClockDomain.renamed_newest hs.roster.place hrenamed
    have hnewest : ∀ y ∈ s.roster K, y.id < x.id := by
      intro y hy
      have hissued := hs.roster.issued y hy
      have hid := hnew.id
      omega
    refine ⟨⟨?_, ?_, ?_, ?_⟩, ⟨prefix_append _ _, (ClockDomain.renamed_sound hrenamed).1⟩, ?_⟩
    · have hroster : State.roster ⟨σ, s.renamed ++ [(cd.id, x)]⟩ K = insert x (s.roster K) := by
        ext y
        constructor
        · rintro (hy | ⟨e, he, rfl⟩)
          · exact Or.inr (Or.inl hy)
          · rcases mem_append.mp he with he | he
            · exact Or.inr (Or.inr ⟨e, he, rfl⟩)
            · exact Or.inl (by rw [mem_singleton.mp he])
        · rintro (rfl | hy | ⟨e, he, rfl⟩)
          · exact Or.inr ⟨(cd.id, y), by simp, rfl⟩
          · exact Or.inl hy
          · exact Or.inr ⟨e, mem_append_left _ he, rfl⟩
      rw [hroster]
      exact hs.roster.insert hnew
    · intro e he
      rcases mem_append.mp he with he | he
      · exact hs.copies e he
      · obtain rfl := mem_singleton.mp he
        refine ⟨cd, hcd, rfl, Or.inr ⟨?_, ?_⟩⟩
        · have hstart := hs.roster.start
          have hid := hnew.id
          dsimp only
          omega
        · rw [hcopy]
    · intro e he y hy
      rcases mem_append.mp he with he | he
      · exact hs.fresh e he y hy
      · obtain rfl := mem_singleton.mp he
        exact (hnewest y (Or.inl hy)).ne
    · intro e he e' he' hsame
      rcases mem_append.mp he with he | he
      · rcases mem_append.mp he' with he' | he'
        · exact hs.apart e he e' he' hsame
        · obtain rfl := mem_singleton.mp he'
          exact absurd hsame (hnewest e.2 (Or.inr ⟨e, he, rfl⟩)).ne
      · obtain rfl := mem_singleton.mp he
        rcases mem_append.mp he' with he' | he'
        · exact absurd hsame (hnewest e'.2 (Or.inr ⟨e', he', rfl⟩)).ne'
        · rw [mem_singleton.mp he']
    · simp only [StandsFor, hsome, find?_append, hmissing]
      simp

/-- The records of a table are renamed one after the other; the new table knows what stands for each. -/
theorem traverseDomains_tracks (hb : b.RecordsIn (s.roster K)) (hcds : ∀ cd ∈ cds, cd ∈ K)
    (hg : Gives (Body.traverseDomains r.pass b cds) s b' t) :
    r.Tracks n K t ∧ s.Grows t ∧
      (∀ x ∈ b'.domains, x ∈ b.domains ∨ ∃ cd ∈ cds, r.StandsFor t cd x) ∧
      (∀ cd ∈ cds, ∃ x, r.StandsFor t cd x ∧ b'.Knows x) ∧ ∀ x, b.Knows x → b'.Knows x := by
  induction cds generalizing b s with
  | nil =>
    rw [Body.traverseDomains] at hg
    obtain ⟨rfl, rfl⟩ := gives_pure.mp hg
    exact ⟨hs, .refl s, fun x hx => Or.inl hx, by simp, fun x hx => hx⟩
  | cons cd cds ih =>
    obtain ⟨hcd, hcds⟩ := forall_mem_cons.mp hcds
    rw [Body.traverseDomains] at hg
    obtain ⟨x, s1, hrename, hg⟩ := gives_bind.mp hg
    obtain ⟨b1, hadd, hg⟩ := gives_raise_bind.mp hg
    obtain ⟨hs1, hgrows, hstands⟩ := rename_tracks hs hcd hrename
    have hx : x ∈ s1.roster K := (hs1.standsFor hcd hstands).1
    have hb0 : b.RecordsIn (s1.roster K) := by
      intro y hy
      refine (hb y hy).imp_right ?_
      rintro ⟨e, he, rfl⟩
      exact ⟨e, hgrows.renamed.subset he, rfl⟩
    obtain ⟨hknows, hkept⟩ := Body.addDomain_knows hs1.roster hb0 hx hadd
    have hb1 : b1.RecordsIn (s1.roster K) := by
      intro y hy
      rcases (Body.addDomain_inv hadd).2 y hy with hy | rfl
      · exact hb0 y hy
      · exact hx
    obtain ⟨ht, hgrows', hsource, hknown, hkept'⟩ := ih hs1 hb1 hcds hg
    refine ⟨ht, hgrows.trans hgrows', ?_, ?_, fun y hy => hkept' y (hkept y hy)⟩
    · intro y hy
      rcases hsource y hy with hy | ⟨cd', hcd', hy⟩
      · rcases (Body.addDomain_inv hadd).2 y hy with hy | rfl
        · exact Or.inl hy
        · exact Or.inr ⟨cd, by simp, hstands.mono hgrows'⟩
      · exact Or.inr ⟨cd', mem_cons_of_mem _ hcd', hy⟩
    · exact forall_mem_cons.mpr ⟨⟨x, hstands.mono hgrows', hkept' x hknows⟩, hknown⟩

theorem traverse_tracks (hb : b.RecordsIn K) (hg : Gives (b.traverse r.pass (traversal r.mapping)) s b' t) :
    r.Tracks n K t ∧ s.Grows t ∧ b.Carried (r.StandsFor t) b' := by
  have hquiet := traversal_quiet r.mapping
  obtain ⟨s1, s2, b1, b2, hdomains, hstatements, -, hcell, -, -, hparts⟩ :=
    Body.traverse_parts (fun hg => (traversal_net hg).1) hg
  obtain rfl : s1 = s2 := hquiet.statements (fun _ _ _ _ => trivial) hstatements
  obtain rfl : s1 = t := hquiet.cell (fun _ _ _ _ => trivial) hcell
  obtain ⟨hs1, hgrows, hsource, hknown, -⟩ := traverseDomains_tracks hs (by simp [Body.RecordsIn]) hb hdomains
  have htable : b'.domains = b1.domains := by rw [hparts]
  refine ⟨hs1, hgrows, ⟨?_, ?_⟩⟩
  · intro x hx
    rw [htable] at hx
    rcases hsource x hx with hx | hx
    · cases hx
    · exact hx
  · intro cd hcd
    obtain ⟨x, hx, hknows⟩ := hknown cd hcd
    refine ⟨x, hx, ?_⟩
    unfold Body.Knows Body.domain? at hknows ⊢
    rw [htable]
    exact hknows

end Renamer

namespace Fragment

variable {r : Renamer} {n : Nat} {K : Set ClockDomain}
variable {f : Fragment}

/-- All records of the tree are on the roster. -/
def RecordsIn (K : Set ClockDomain) (f : Fragment) : Prop := ∀ b ∈ f.bodies, b.RecordsIn K

theorem recordsIn_node : (node b cs).RecordsIn K ↔ b.RecordsIn K ∧ ∀ c ∈ cs, c.2.RecordsIn K := by
  constructor
  · intro h
    exact ⟨h b (body_mem_bodies _), fun c hc x hx => h x (mem_bodies_node.mpr (Or.inr ⟨c, hc, hx⟩))⟩
  · rintro ⟨hb, hcs⟩ x hx
    rcases mem_bodies_node.mp hx with rfl | ⟨c, hc, hx⟩
    · exact hb
    · exact hcs c hc x hx

theorem RecordsIn.mono {K' : Set ClockDomain} (h : f.RecordsIn K) (hK : K ⊆ K') : f.RecordsIn K' :=
  fun b hb cd hcd => hK (h b hb cd hcd)

/-- Renaming a tree carries every table over by what stands for each record in the end. -/
theorem traverse_tracks {s t : Renamer.State} (hs : r.Tracks n K s) (hf : f.RecordsIn K)
    (hg : Gives (f.traverse r.pass) s f' t) :
    r.Tracks n K t ∧ s.Grows t ∧ f.Matches (Body.Carried (r.StandsFor t)) f' := by
  refine traverse_carry (p := fun _ f => f.RecordsIn K) (q := fun t f f' => f.Matches (Body.Carried (r.StandsFor t)) f')
    .refl .trans (fun _ hf => hf)
    (fun hgrows hf => hf.imp fun _ _ _ hcarried => hcarried.imp fun hstands => hstands.mono hgrows)
    (fun hf => (recordsIn_node.mp hf).2) ?_ hs hf hg
  intro b cs cs' f s t hs hf hchildren hg
  obtain ⟨nb, hbody, rfl⟩ := Renamer.top_inv hg
  obtain ⟨ht, hgrows, hcarried⟩ := Renamer.traverse_tracks hs (recordsIn_node.mp hf).1 hbody
  refine ⟨ht, hgrows, .node hcarried (hchildren.imp fun _ _ h => ?_)⟩
  exact h.imp fun _ _ _ hc => hc.imp fun hstands => hstands.mono hgrows

/-- Every record of a tree that was renamed stands in the place of one record, and is known there. The new records are
numbered later than all before. -/
theorem run_carries (ha : r.arena = a) (hr : r.renamed = []) (hK : ClockDomain.Roster a n σ K) (hf : f.RecordsIn K)
    (hg : Gives (r.run f) σ f' σ') :
    ∃ K' T, ClockDomain.Copied a n σ K σ' K' ∧ f.Matches (Body.Carried T) f' ∧
      (∀ {cd x}, cd ∈ K → T cd x → x ∈ K' ∧ x.DescendsFrom n cd) ∧ (∀ {cd x y}, T cd x → T cd y → x = y) ∧
      ∀ {cd cd' x}, cd ∈ K → cd' ∈ K → T cd x → T cd' x → cd = cd' := by
  subst ha
  obtain ⟨t, htree, rfl⟩ := Renamer.run_inv hg
  have hstart : r.Tracks n K ⟨σ, r.renamed⟩ := by
    have hroster : Renamer.State.roster ⟨σ, r.renamed⟩ K = K := by
      simp [Renamer.State.roster, hr]
    exact ⟨by rw [hroster]; exact hK, by simp [hr], by simp [hr], by simp [hr]⟩
  obtain ⟨ht, hgrows, hmatch⟩ := traverse_tracks hstart hf htree
  refine ⟨t.roster K, r.StandsFor t, ?_, hmatch, ht.standsFor, Renamer.StandsFor.unique, ht.injective⟩
  refine ⟨fun cd hcd => Or.inl hcd, ?_, hgrows.arenas, ht.roster⟩
  rintro x (hx | ⟨e, he, rfl⟩)
  · exact ⟨x, hx, .refl n x⟩
  · obtain ⟨cd, hcd, -, hdescends⟩ := ht.copies e he
    exact ⟨cd, hcd, hdescends⟩

end Fragment

namespace Delays

variable {a : Nat}
variable {K : Set ClockDomain} {b : Body}
variable {s t : State}

/-- What numbering the domain records of an arena depends on. -/
def State.numbering (a : Nat) (s : State) : Nat × Nat := (s.arenas.list.size, (s.arenas.arena a).domains)

/-- Lowering the samples of a fragment issues signals and no domains. -/
theorem traversal_quiet (a : Nat) : (traversal a).Keeps (fun _ => Still (State.numbering a)) fun _ => True := by
  refine Keeps.traversal (p := fun _ => True) { Still.composes with
    get := ?_, note := ?_, issue := ?_, spec := ?_, sampled := fun _ => trivial } fun _ => ⟨trivial, fun _ _ => trivial⟩
  · intro s u t hg
    rw [(gives_get.mp hg).2]
  · intro f hf s u t hg
    rw [← gives_modify.mp hg, State.numbering, State.numbering, hf]
  · intro spec s id t hg
    obtain ⟨σ, hissue, rfl⟩ := issue_inv hg
    obtain ⟨hsize, hdomains⟩ := Arenas.domains_issue hissue
    exact Prod.ext hsize.symm hdomains.symm
  · intro v _ σ clocks domain s spec t hg
    rw [(gives_ofExcept.mp hg).2]

theorem traverseDomains_records (hb : b.RecordsIn K) (hcds : ∀ cd ∈ cds, cd ∈ K)
    (hg : Gives (Body.traverseDomains (pass a) b cds) s b' t) : s = t ∧ b'.RecordsIn K := by
  refine Body.traverseDomains_induct (M := fun u b => s = u ∧ b.RecordsIn K) ?_ ⟨rfl, hb⟩ hg
  rintro cd hcd u cd' t b b' ⟨rfl, hb⟩ hdomain hadd
  obtain ⟨rfl, rfl⟩ := gives_pure.mp hdomain
  refine ⟨rfl, fun x hx => ?_⟩
  rcases (Body.addDomain_inv hadd).2 x hx with hx | rfl
  · exact hb x hx
  · exact hcds _ hcd

theorem complete_records {d : Delays} (h : (Fragment.node b cs).RecordsIn K) :
    (complete d (.node b cs)).RecordsIn K := by
  obtain ⟨hb, hcs⟩ := Fragment.recordsIn_node.mp h
  have hchains : ∀ (chains : List (String × List (SignalId × Value))) (b : Body),
      (chains.foldl (fun b c => addChain b c.1 c.2) b).domains = b.domains := by
    intro chains
    induction chains with
    | nil => exact fun b => rfl
    | cons c chains ih => exact fun b => ih (addChain b c.1 c.2)
  refine Fragment.recordsIn_node.mpr ⟨?_, ?_⟩
  · unfold Body.RecordsIn
    rw [hchains]
    exact hb
  · intro c hc
    rcases mem_append.mp hc with hc | hc
    · exact hcs c hc
    · obtain ⟨id, -, rfl⟩ := Option.map_eq_some_iff.mp (Option.mem_toList.mp hc)
      exact Fragment.recordsIn_node.mpr ⟨(fun cd hcd => nomatch hcd), fun c hc => nomatch hc⟩

theorem traverseTop_records (hb : b.RecordsIn K) (hcs : ∀ c ∈ cs, c.2.RecordsIn K)
    (hg : Gives (Fragment.traverseTop (pass a) b cs) s f t) : s.numbering a = t.numbering a ∧ f.RecordsIn K := by
  have hquiet := traversal_quiet a
  obtain ⟨nb, hbody, rfl⟩ := top_inv hg
  obtain ⟨s1, s2, b1, b2, hdomains, hstatements, -, hcell, -, -, hparts⟩ := Body.traverse_parts
    (fun hg => (traversal_net hg).2) hbody
  obtain ⟨rfl, hrecords⟩ := traverseDomains_records (by simp [Body.RecordsIn]) hb hdomains
  refine ⟨(hquiet.statements (fun _ _ _ _ => trivial) hstatements).trans (hquiet.cell (fun _ _ _ _ => trivial) hcell), ?_⟩
  refine complete_records (Fragment.recordsIn_node.mpr ⟨?_, hcs⟩)
  rw [hparts]
  exact hrecords

end Delays

namespace Fragment

variable {K : Set ClockDomain} {a : Nat}

theorem traverse_records {s t : Delays.State} (hf : f.RecordsIn K) (hg : Gives (f.traverse (Delays.pass a)) s f' t) :
    s.numbering a = t.numbering a ∧ f'.RecordsIn K := by
  refine (traverse_carry (I := fun _ => True) (G := fun s t => s.numbering a = t.numbering a)
    (p := fun _ f => f.RecordsIn K) (q := fun _ _ f => f.RecordsIn K) (fun _ => rfl) .trans (fun _ hf => hf)
    (fun _ hf => hf) (fun hf => (recordsIn_node.mp hf).2) ?_ trivial hf hg).2
  intro b cs cs' f s t _ hf hchildren hg
  have hcs' : ∀ c ∈ cs', c.2.RecordsIn K := fun c hc => (forall₂_mem_right hchildren hc).choose_spec.2
  exact ⟨trivial, Delays.traverseTop_records (recordsIn_node.mp hf).1 hcs' hg⟩

/-- Lowering samples brings in no domain records and leaves the numbers given to records as they are. -/
theorem lowerSamples_records (hf : f.RecordsIn K) (h : f.lowerSamples σ a = (.ok f', σ')) :
    σ'.list.size = σ.list.size ∧ (σ'.arena a).domains = (σ.arena a).domains ∧ f'.RecordsIn K := by
  obtain ⟨t, hg, rfl⟩ := lowerSamples_inv h
  obtain ⟨hnumbering, hf'⟩ := traverse_records hf hg
  obtain ⟨hsize, hdomains⟩ := Prod.mk.inj hnumbering
  exact ⟨hsize.symm, hdomains.symm, hf'⟩

end Fragment
end Rtl
