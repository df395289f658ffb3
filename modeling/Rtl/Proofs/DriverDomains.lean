import Mathlib
import Rtl.Proofs.BareCells
import Rtl.Proofs.DelayRegisters
import Rtl.Proofs.DomainIdentity
import Rtl.Proofs.Resets

/-!
# From which domains a signal is driven

Flattening a hierarchy moves the entries of driver tables from fragment to fragment. It never changes the domain under
which an entry stands, and a reference to a clock or a reset means after a move what it meant before. So the domains
from which a signal is driven in the prepared tree are those from which it was driven before conflicts were resolved,
by whatever fragments. What flattening does bring about is that all entries for a signal end up in one table: when two
fragments drive it one is merged into the other, and a signal that they drove from two domains is then driven from two
domains by one fragment.

Cells are not looked into when conflicts are sought. They drive nothing but the registers that hold the samples at their
ports, which are new signals, each driven by one cell from one domain.
-/
namespace Rtl

namespace Body

variable {F : SignalId → Prop} {b host x : Body} {taken : List Body} {d : String} {n : Net} {id : SignalId} {σ : Arenas}

/-- The fragment drives the signal from the domain, by name or by a reference to a clock or a reset that it knows. -/
def DrivesFrom (b : Body) (d : String) (id : SignalId) : Prop := ∃ n, b.Drives d n ∧ b.resolveNet n = .signal id

theorem owns_signal_iff : b.Owns (.signal id) ↔ ∃ d, b.DrivesFrom d id := by
  constructor
  · rintro ⟨e, he, hk⟩
    exact ⟨e.1, e.2, drives_iff.mpr ⟨e, he, rfl, rfl⟩, Net.key_eq_signal_iff.mp hk⟩
  · rintro ⟨d, n, hd, hn⟩
    obtain ⟨e, he, -, hkey⟩ := drives_iff.mp hd
    refine ⟨e, he, (b.resolveNet_key_congr hkey).trans ?_⟩
    rw [hn]
    rfl

/-- The fragment drives nothing but some signals, and those by name. -/
def DrivesOnly (F : SignalId → Prop) (b : Body) : Prop := ∀ d n, b.Drives d n → ∃ id, n = .signal id ∧ F id

theorem DrivesOnly.of_owns (h : b.DrivesOnly F) (hid : b.Owns (.signal id)) : F id := by
  obtain ⟨d, n, hd, hn⟩ := owns_signal_iff.mp hid
  obtain ⟨id', rfl, hF⟩ := h d n hd
  cases hn
  exact hF

theorem DrivesOnly.merge {sub : Body} (h : b.DrivesOnly F) (hsub : sub.DrivesOnly F) : (b.merge sub).DrivesOnly F := by
  intro d n hd
  exact (merge_drives.mp hd).elim (h d n) (hsub d n)

theorem drivesOnly_of_idle (h : b.driverPairs = []) : b.DrivesOnly F :=
  fun d n hd => absurd hd (driverPairs_eq_nil_iff.mp h d n)

/-- The second fragment drives what the first drives, under renamed domains; signals stay what they are. -/
def RenamesDrivers (b b' : Body) : Prop :=
  ∃ rename : String → String, ∀ d n, b'.Drives d n →
    ∃ d₀ m, b.Drives d₀ m ∧ rename d₀ = d ∧ ∀ id, m = .signal id ↔ n = .signal id

theorem renamesDrivers_propagated : Fragment.Propagated RenamesDrivers where
  domains h := ⟨id, fun d n hd => ⟨d, n, by rw [h] at hd; exact hd, rfl, fun _ => Iff.rfl⟩⟩
  renamed {r b _ _ _} hg := by
    refine ⟨Renamer.target r.mapping, fun d n hd => ?_⟩
    obtain ⟨e, he, hdomain, hkey⟩ := ((Translates.renamed_drivers hg).1 d n).mp hd
    refine ⟨e.1, e.2, drives_iff.mpr ⟨e, he, rfl, rfl⟩, hdomain, fun id => ?_⟩
    rw [← Net.key_eq_signal_iff (n := n), ← hkey, Net.key_eq_signal_iff]
    cases e.2 <;> simp [Net.renamed]
  trans := by
    rintro b b' b'' ⟨f, hf⟩ ⟨g, hg⟩
    refine ⟨g ∘ f, fun d n hd => ?_⟩
    obtain ⟨d₁, m, hd₁, rfl, hm⟩ := hg d n hd
    obtain ⟨d₀, k, hd₀, rfl, hk⟩ := hf d₁ m hd₁
    exact ⟨d₀, k, hd₀, rfl, fun id => (hk id).trans (hm id)⟩

theorem RenamesDrivers.drivesOnly {b' : Body} (h : b.RenamesDrivers b') (hb : b.DrivesOnly F) : b'.DrivesOnly F := by
  obtain ⟨rename, h⟩ := h
  intro d n hd
  obtain ⟨d₀, m, hd₀, -, hm⟩ := h d n hd
  obtain ⟨id, hid, hF⟩ := hb d₀ m hd₀
  exact ⟨id, (hm id).mp hid, hF⟩

/-- A signal that no record of the fragment is about is driven by name only. -/
theorem DrivesFrom.drives (h : b.DrivesFrom d id) (hrecords : ∀ cd ∈ b.domains, .signal id ∉ cd.signals) :
    b.Drives d (.signal id) := by
  obtain ⟨n, hd, hn⟩ := h
  cases n with
  | signal id' =>
    cases hn
    exact hd
  | clock d' =>
    rw [resolveNet] at hn
    split at hn
    · rename_i cd hcd
      exact absurd (hn ▸ List.mem_cons_self) (hrecords cd (List.mem_of_find?_eq_some hcd))
    · cases hn
  | reset d' allow =>
    rw [resolveNet] at hn
    split at hn
    · rename_i cd hcd
      split at hn
      · rename_i rst hrst
        refine absurd (List.mem_cons_of_mem _ ?_) (hrecords cd (List.mem_of_find?_eq_some hcd))
        rw [hrst, ← hn]
        exact List.mem_cons_self
      · cases hn
    · cases hn

/-- The fragment knows the domains of the references that it drives. -/
def KnowsDriven (b : Body) : Prop := ∀ d n, b.Drives d n → ∀ d', n.domain? = some d' → (b.domain? d').isSome = true

/-- A reference to a known domain is resolved as it is in a fragment that knows the same and more. -/
theorem MeansAlike.resolveNet_eq (h : b.MeansAlike x) (hn : ∀ d, n.domain? = some d → (b.domain? d).isSome = true) :
    x.resolveNet n = b.resolveNet n := by
  cases n with
  | signal => rfl
  | clock d | reset d allow =>
    obtain ⟨cd, hd⟩ := Option.isSome_iff_exists.mp (hn d rfl)
    simp only [resolveNet, hd, h d cd hd]

/-- A host drives a signal from the domains from which it and those that it took over did. -/
theorem Gathers.drivesFrom_iff (h : host.Gathers taken b) (halike : ∀ x ∈ taken, host.MeansAlike x)
    (hknown : b.KnowsDriven) : b.DrivesFrom d id ↔ ∃ x ∈ host :: taken, x.DrivesFrom d id := by
  have hresolve : ∀ x ∈ host :: taken, ∀ d n, x.Drives d n → b.Drives d n ∧ x.resolveNet n = b.resolveNet n := by
    intro x hx d n hd
    rcases List.mem_cons.mp hx with rfl | hx
    · exact ⟨(h.drives d n).mpr (Or.inl hd), congrFun (resolveNet_congr h.domains.symm) n⟩
    · have hdrives : b.Drives d n := (h.drives d n).mpr (Or.inr ⟨x, hx, hd⟩)
      refine ⟨hdrives, ?_⟩
      have halike' : b.MeansAlike x := tabular_meansAlike.congr h.domains.symm h.cell.symm rfl (halike x hx)
      exact halike'.resolveNet_eq (hknown d n hdrives)
  constructor
  · rintro ⟨n, hd, hn⟩
    obtain ⟨x, hx, hdx⟩ : ∃ x ∈ host :: taken, x.Drives d n := by
      rcases (h.drives d n).mp hd with hd | ⟨x, hx, hd⟩
      · exact ⟨host, List.mem_cons_self, hd⟩
      · exact ⟨x, List.mem_cons_of_mem _ hx, hd⟩
    exact ⟨x, hx, n, hdx, (hresolve x hx d n hdx).2.trans hn⟩
  · rintro ⟨x, hx, n, hd, hn⟩
    obtain ⟨hdrives, hsame⟩ := hresolve x hx d n hd
    exact ⟨n, hdrives, hsame.symm.trans hn⟩

end Body

namespace Fragment

variable {F : SignalId → Prop} {σ σ' : Arenas} {mode : ConflictMode} {f : Fragment} {r : Resolution} {b : Body}
  {cs : List (String × Fragment)}
variable {id : SignalId}

/-- Some fragment of the tree drives the signal from the domain. -/
def DrivenFrom (f : Fragment) (d : String) (id : SignalId) : Prop := ∃ b ∈ f.bodies, b.DrivesFrom d id

/-- Resolving conflicts changes nothing about the domains from which a signal is driven, as long as the fragments know
in the end what they refer to. -/
theorem resolveConflicts_drivenFrom (hshared : f.Shared) (h : f.resolveConflicts σ mode = .ok r)
    (hknown : ∀ b ∈ r.fragment.bodies, b.KnowsDriven) {d : String} :
    r.fragment.DrivenFrom d id ↔ f.DrivenFrom d id := by
  have htree := resolveWith_gathered Body.tabular_meansAlike hshared.meansAlike h
  obtain ⟨groups, hperm, hgathers, halike⟩ := htree.gathered.groups Body.tabular_meansAlike
  constructor
  · rintro ⟨b, hb, hd⟩
    obtain ⟨p, hp, hgather⟩ := forall₂_mem_right hgathers hb
    obtain ⟨x, hx, hdx⟩ := (hgather.drivesFrom_iff (halike p hp) (hknown b hb)).mp hd
    exact ⟨x, hperm.mem_iff.mp (List.mem_flatMap.mpr ⟨p, hp, hx⟩), hdx⟩
  · rintro ⟨x, hx, hd⟩
    obtain ⟨p, hp, hx⟩ := List.mem_flatMap.mp (hperm.mem_iff.mpr hx)
    obtain ⟨b, hb, hgather⟩ := forall₂_mem_left hgathers hp
    exact ⟨b, hb, (hgather.drivesFrom_iff (halike p hp) (hknown b hb)).mpr ⟨x, hx, hd⟩⟩

theorem exists_at?_of_child {c : String × Fragment} {i : Nat} {x : Body} (hi : f.children[i]? = some c)
    (hx : x ∈ c.2.bodies) : ∃ q g, f.at? (i :: q) = some g ∧ g.body = x := by
  obtain ⟨g, hg, rfl⟩ := mem_bodies_iff.mp hx
  obtain ⟨q, hq⟩ := mem_nodes_iff_at?.mp hg
  exact ⟨q, g, at?_cons.mpr ⟨c, hi, hq⟩, rfl⟩

/-- What holds at one place of a tree at most holds of one body at most. -/
theorem pairwise_bodies {T : Body → Prop} (h : ∀ {p q g g'}, f.at? p = some g → f.at? q = some g' →
    T g.body → T g'.body → p = q) : f.bodies.Pairwise fun b b' => T b → ¬ T b' := by
  induction f with
  | node b cs ih =>
    rw [bodies_node, List.pairwise_cons, List.pairwise_flatMap]
    refine ⟨fun x hx hb hxT => ?_, fun c hc => ?_, List.pairwise_iff_getElem.mpr ?_⟩
    · obtain ⟨c, hc, hx⟩ := List.mem_flatMap.mp hx
      obtain ⟨i, hi⟩ := List.getElem?_of_mem hc
      obtain ⟨q, g, hg, rfl⟩ := exists_at?_of_child (f := node b cs) hi hx
      cases h (p := []) rfl hg hb hxT
    · obtain ⟨i, hi⟩ := List.getElem?_of_mem hc
      refine ih c hc fun hp hq hT hT' => ?_
      exact (List.cons.inj (h (at?_cons.mpr ⟨c, hi, hp⟩) (at?_cons.mpr ⟨c, hi, hq⟩) hT hT')).2
    · intro i j hi hj hij x hx y hy hT hT'
      obtain ⟨p, g, hg, rfl⟩ := exists_at?_of_child (f := node b cs) (List.getElem?_eq_getElem hi) hx
      obtain ⟨q, g', hg', rfl⟩ := exists_at?_of_child (f := node b cs) (List.getElem?_eq_getElem hj) hy
      exact hij.ne (List.cons.inj (h hg hg' hT hT')).1

/-- A signal that one fragment drove at most is driven by one at most after conflicts are resolved. -/
theorem resolveConflicts_one (hshared : f.Shared) (h : f.resolveConflicts σ mode = .ok r)
    (hknown : ∀ b ∈ r.fragment.bodies, b.KnowsDriven)
    (hone : f.bodies.Pairwise fun b b' => (∃ d, b.DrivesFrom d id) → ¬ ∃ d, b'.DrivesFrom d id) :
    r.fragment.bodies.Pairwise fun b b' => (∃ d, b.DrivesFrom d id) → ¬ ∃ d, b'.DrivesFrom d id := by
  have htree := resolveWith_gathered Body.tabular_meansAlike hshared.meansAlike h
  obtain ⟨groups, hperm, hgathers, halike⟩ := htree.gathered.groups Body.tabular_meansAlike
  obtain ⟨-, hgroups⟩ := List.pairwise_flatMap.mp ((hperm.pairwise_iff fun h hb hb' => h hb' hb).mpr hone)
  have hmembers := forall₂_mem (forall₂_mem hgathers).flip
  refine pairwise_of_forall₂ hmembers.flip hgroups ?_
  rintro p q b b' ⟨hb, hp, hgather⟩ ⟨hb', hq, hgather'⟩ hpq ⟨d, hd⟩ ⟨d', hd'⟩
  obtain ⟨x, hx, hdx⟩ := (hgather.drivesFrom_iff (halike p hp) (hknown b hb)).mp hd
  obtain ⟨y, hy, hdy⟩ := (hgather'.drivesFrom_iff (halike q hq) (hknown b' hb')).mp hd'
  exact hpq x hx y hy ⟨d, hdx⟩ ⟨d', hdy⟩

/-- Cells and what is below them drive nothing but some signals. -/
abbrev CellsDrive (F : SignalId → Prop) (f : Fragment) : Prop := f.InCells fun l => ∀ b ∈ l, b.DrivesOnly F

/-- Claims to signals that no cell drives can be told apart. -/
theorem separable_driven : Separable (fun k => ∃ id, k = .net (.signal id) ∧ ¬ F id) (fun _ _ => True)
    (fun l => ∀ b ∈ l, b.DrivesOnly F) where
  tabular := Body.tabular_any
  settles _ := Body.settles_of_signals (fun ⟨id, hid, _⟩ => ⟨id, Claim.net.inj hid⟩) _ _
  keeps h hl := h.forall_mem (fun _ _ _ hb hsub => hb.merge hsub) hl
  idle := by
    rintro f hf g hg k ⟨id, rfl, hF⟩ hk
    exact hF ((hf g.body (mem_bodies_iff.mpr ⟨g, hg, rfl⟩)).of_owns hk)

/-- After conflicts are resolved, no signal is driven by two fragments unless a cell drove it. -/
theorem resolveConflicts_apart (hf : f.CellsDrive F) (h : f.resolveConflicts σ mode = .ok r) :
    r.fragment.bodies.Pairwise fun b b' => ∀ id, ¬ F id → b.Owns (.signal id) → ¬ b'.Owns (.signal id) := by
  rw [bodies_eq_map_nodes, List.pairwise_map]
  have hapart := (resolveWith_exclusive separable_driven (fun _ _ _ _ => trivial) hf h).apart
  exact hapart.imp fun hgg id hF => hgg (.net (.signal id)) ⟨id, rfl, hF⟩

/-- The signal is driven by a cell or below one. -/
def DrivenByCell (f : Fragment) (id : SignalId) : Prop :=
  ∃ g ∈ f.nodes, g.body.cell.isSome ∧ ∃ b ∈ g.bodies, ∃ d, b.Drives d (.signal id)

theorem CellsDrive.drivenByCell (h : f.CellsDrive F) : f.CellsDrive f.DrivenByCell := by
  intro g hg hcell b hb d n hd
  obtain ⟨id, rfl, -⟩ := h g hg hcell b hb d n hd
  exact ⟨id, rfl, g, hg, hcell, b, hb, d, hd⟩

theorem CellsDrive.of_drivenByCell (h : f.CellsDrive F) (hid : f.DrivenByCell id) : F id := by
  obtain ⟨g, hg, hcell, b, hb, d, hd⟩ := hid
  obtain ⟨id', hsame, hF⟩ := h g hg hcell b hb d _ hd
  cases hsame
  exact hF

/-- Propagating domains renames the domains under which cells drive their signals. -/
theorem propagateDomains_cellsDrive {a : Nat} {ensureSync : Bool} {f' : Fragment} (hf : f.CellsDrive F)
    (hg : Gives (f.propagateDomains a ensureSync) σ f' σ') : f'.CellsDrive F := by
  have hmatches := Body.renamesDrivers_propagated.propagateDomains hg
  have hpersists := propagateDomains_persists hg
  intro g' hg' hcell b' hb'
  obtain ⟨path, hpath⟩ := mem_nodes_iff_at?.mp hg'
  obtain ⟨x', hx', rfl⟩ := mem_bodies_iff.mp hb'
  obtain ⟨rest, hrest⟩ := mem_nodes_iff_at?.mp hx'
  obtain ⟨g, hat, hr⟩ := hpersists.left hpath
  obtain ⟨x, hxat, hx⟩ := hmatches.left ((at?_append hpath).trans hrest)
  rw [at?_append hat] at hxat
  exact hx.drivesOnly (hf g (mem_nodes_iff_at?.mpr ⟨path, hat⟩) (hr.cell.symm.trans hcell) _ (mem_bodies_of_at? hxat))

/-- Where references are lowered after resets are inserted, the fragments know what they refer to. -/
theorem knowsDriven_of_passes {f1 f2 : Fragment} (hresets : f.insertDomainResets σ = .ok f1)
    (hlower : f1.lowerDomains σ = .ok f2) : ∀ b ∈ f.bodies, b.KnowsDriven := by
  intro b hb d n hd d' hn
  obtain ⟨b1, hb1, xs, -, rfl⟩ := forall₂_mem_left (insertControls_bodies hresets) hb
  have hdrives : (b.withoutIdleDomains.addStatements xs).Drives d n := Body.withoutIdleDomains_drives.mpr hd
  exact (lowerDomains_ok_iff.mp ⟨f2, hlower⟩ _ hb1).known (.driven hdrives hn)

/-- The signals that the fragments of the tree drive, and those of their domain records, are issued. -/
structure Anchored (σ : Arenas) (f : Fragment) : Prop where
  drivers : ∀ b ∈ f.bodies, ∀ d id, b.Drives d (.signal id) → σ.Issued id
  records : ∀ cd ∈ f.records, ∀ id, .signal id ∈ cd.signals → σ.Issued id

/-- The domain that is created for a tree is about new signals. -/
theorem create_apart {a : Nat} {name : String} {opts : DomainOptions} {cd : ClockDomain} (ha : a < σ.list.size)
    (h : ClockDomain.create σ a name opts = .ok (σ', cd)) (hid : σ.Issued id) : .signal id ∉ cd.signals := by
  unfold ClockDomain.create at h
  split at h
  · cases h
  · split at h
    · cases h
    · obtain ⟨⟨σ1, clk⟩, hclk, h⟩ := except_bind_eq_ok.mp h
      have hnext := σ.extends_nextDomain a
      have ha1 := ha.trans_eq hnext.size.symm
      obtain ⟨hkeeps, hnew, -⟩ := Arenas.issue_new hclk ha1
      have hid1 := hnext.issued id hid
      have hclock : id ≠ clk := fun heq => hnew (heq ▸ hid1)
      dsimp only at h
      split at h
      · obtain ⟨-, rfl⟩ := Prod.mk.inj (except_pure_eq_ok.mp h)
        simpa [ClockDomain.signals] using hclock
      · obtain ⟨⟨σ2, rst⟩, hrst, h⟩ := except_bind_eq_ok.mp h
        obtain ⟨-, rfl⟩ := Prod.mk.inj (except_pure_eq_ok.mp h)
        obtain ⟨-, hnew', -⟩ := Arenas.issue_new hrst (ha1.trans_eq hkeeps.size.symm)
        have hreset : id ≠ rst := fun heq => hnew' (heq ▸ hkeeps.issued hid1)
        simp [ClockDomain.signals, hclock, hreset]

/-- Propagating domains brings no signal that was issued into a record. -/
theorem propagateDomains_apart {a : Nat} {ensureSync : Bool} {f' : Fragment} (ha : a < σ.list.size)
    (hf : f.NumberedBy a σ) (hg : Gives (f.propagateDomains a ensureSync) σ f' σ') (hid : σ.Issued id)
    (hrecords : ∀ cd ∈ f.records, .signal id ∉ cd.signals) : ∀ cd ∈ f'.records, .signal id ∉ cd.signals := by
  intro x hx
  obtain ⟨-, -, hstems⟩ := propagateDomains_records ha hf hg
  obtain ⟨cd, hcd, rfl | ⟨-, hcopy⟩⟩ | ⟨σ1, σ2, hextends, hcreate⟩ := hstems x hx
  · exact hrecords x hcd
  · rw [hcopy]
    exact hrecords cd hcd
  · exact create_apart (ha.trans_eq hextends.size.symm) hcreate (hextends.issued id hid)

end Fragment

namespace Delays

variable {a : Nat} {σ σ' : Arenas} {f f' : Fragment} {E : List Nat → Arenas × State}

/-- After samples were lowered, cells that drove nothing drive registers, and what is below them drives nothing. -/
theorem Laid.cellsDrive (h : Laid a σ σ' (fun p => f.at? p) (fun p => f'.at? p) E) (hf : f.CellsAreLeaves) :
    f'.CellsDrive fun id => ¬ σ.Issued id := by
  intro g' hg' hcell b' hb'
  obtain ⟨path, hpath⟩ := Fragment.mem_nodes_iff_at?.mp hg'
  obtain ⟨x', hx', rfl⟩ := Fragment.mem_bodies_iff.mp hb'
  obtain ⟨rest, hrest⟩ := Fragment.mem_nodes_iff_at?.mp hx'
  cases hlook : f.at? path with
  | none =>
    obtain ⟨id, rfl⟩ := h.new hpath hlook
    have hself : (initialCell id).nodes = [initialCell id] := rfl
    rw [hself, List.mem_singleton] at hx'
    rw [hx']
    exact Body.drivesOnly_of_idle rfl
  | some g =>
    obtain ⟨g1, hg1, hstage, -⟩ := h.here hlook
    obtain rfl := Option.some.inj (hg1.symm.trans hpath)
    have hleaf := hf g (Fragment.mem_nodes_iff_at?.mpr ⟨path, hlook⟩) (hstage.cell_isSome.symm.trans hcell)
    obtain ⟨hchildren, hidle⟩ := hleaf
    cases rest with
    | nil =>
      obtain rfl := Option.some.inj hrest
      intro d n hd
      rcases (hstage.drives d n).mp hd with hd | ⟨r, w, rfl, hline⟩
      · exact absurd hd (Body.driverPairs_eq_nil_iff.mp hidle d n)
      · exact ⟨r, rfl, (h.fresh hlook hline).1⟩
    | cons i rest =>
      -- The cell had no children, so this one is the flag's.
      have hnone : f.at? (path ++ i :: rest) = none := by
        rw [Fragment.at?_append hlook, Fragment.at?, hchildren]
        rfl
      obtain ⟨id, rfl⟩ := h.new ((Fragment.at?_append hpath).trans hrest) hnone
      exact Body.drivesOnly_of_idle rfl

/-- A new signal that is driven after samples were lowered is a register, driven in one place from one domain. -/
theorem Laid.drivenOnly_of_drives (h : Laid a σ σ' (fun p => f.at? p) (fun p => f'.at? p) E) {path : List Nat}
    (hf : ∀ b ∈ f.bodies, ∀ d id, b.Drives d (.signal id) → σ.Issued id) {g' : Fragment} {d : String} {id : SignalId}
    (hid : ¬ σ.Issued id) (hg' : f'.at? path = some g') (hd : g'.body.Drives d (.signal id)) :
    σ'.Issued id ∧ f'.DrivenOnlyAt path d id := by
  cases hlook : f.at? path with
  | none =>
    obtain ⟨flag, rfl⟩ := h.new hg' hlook
    exact absurd hd (Body.driverPairs_eq_nil_iff.mp rfl d _)
  | some g =>
    obtain ⟨g1, hg1, hstage, -⟩ := h.here hlook
    obtain rfl := Option.some.inj (hg1.symm.trans hg')
    rcases (hstage.drives d _).mp hd with hd | ⟨r, w, hr, hline⟩
    · exact absurd (hf _ (Fragment.mem_bodies_of_at? hlook) d id hd) hid
    · cases hr
      exact ⟨(h.fresh hlook hline).2, h.drivenOnly hf hlook hline⟩

/-- A register of a cell is driven in one place from one domain after domains were propagated, too. -/
theorem Laid.register_once (h : Laid a σ σ' (fun p => f.at? p) (fun p => f'.at? p) E) (hf : f.Anchored σ)
    (hrecords : ∀ cd ∈ f'.records, cd ∈ f.records) (ha : a < σ'.list.size) (hnumbered : f'.NumberedBy a σ')
    {ensureSync : Bool} {g : Fragment} {σ'' : Arenas} (hg : Gives (f'.propagateDomains a ensureSync) σ' g σ'')
    {id : SignalId} (hid : ¬ σ.Issued id) (hcell : g.DrivenByCell id) :
    ∃ p d, ∀ q x e, g.at? q = some x → x.body.DrivesFrom e id → q = p ∧ e = d := by
  have hmatches := Body.renamesDrivers_propagated.propagateDomains hg
  obtain ⟨x, hx, -, b, hb, d', hd'⟩ := hcell
  obtain ⟨y, hy, rfl⟩ := Fragment.mem_bodies_iff.mp hb
  obtain ⟨p, hp⟩ := Fragment.mem_nodes_iff_at?.mp (Fragment.mem_nodes_trans hx hy)
  obtain ⟨y₀, hy₀, rename, hrename⟩ := hmatches.left hp
  obtain ⟨d, m, hd, -, hm⟩ := hrename d' _ hd'
  obtain rfl := (hm id).mpr rfl
  obtain ⟨hissued, -, honly⟩ := h.drivenOnly_of_drives hf.drivers hid hy₀ hd
  have hapart := Fragment.propagateDomains_apart ha hnumbered hg hissued fun cd hcd hmem =>
    hid (hf.records cd (hrecords cd hcd) id hmem)
  refine ⟨p, rename d, fun q z e hz he => ?_⟩
  have hdrives := he.drives fun cd hcd => hapart cd ⟨_, Fragment.mem_bodies_of_at? hz, hcd⟩
  have hplace : q = p := by
    obtain ⟨z₀, hz₀, rename', hrename'⟩ := hmatches.left hz
    obtain ⟨e₀, k, he₀, -, hk⟩ := hrename' e _ hdrives
    obtain rfl := (hk id).mpr rfl
    exact ((honly q z₀ e₀ hz₀).mp he₀).1
  subst hplace
  obtain rfl := Option.some.inj (hz.symm.trans hp)
  obtain ⟨e₀, k, he₀, rfl, hk⟩ := hrename e _ hdrives
  obtain rfl := (hk id).mpr rfl
  rw [((honly q y₀ e₀ hy₀).mp he₀).2]
  exact ⟨rfl, rfl⟩

end Delays

/-- A signal driven at one place only, from one domain. -/
theorem Fragment.driven_of_at? {g : Fragment} {id : SignalId} {p : List Nat} {d : String}
    (hone : ∀ q x e, g.at? q = some x → x.body.DrivesFrom e id → q = p ∧ e = d) :
    (g.bodies.Pairwise fun b b' => (∃ d, b.DrivesFrom d id) → ¬ ∃ d, b'.DrivesFrom d id) ∧
      ∀ d d', g.DrivenFrom d id → g.DrivenFrom d' id → d = d' := by
  have hdomain : ∀ {e}, g.DrivenFrom e id → e = d := by
    rintro e ⟨b, hb, he⟩
    obtain ⟨x, hx, rfl⟩ := Fragment.mem_bodies_iff.mp hb
    obtain ⟨q, hq⟩ := Fragment.mem_nodes_iff_at?.mp hx
    exact (hone q x e hq he).2
  refine ⟨Fragment.pairwise_bodies ?_, fun e e' he he' => (hdomain he).trans (hdomain he').symm⟩
  rintro q q' x x' hx hx' ⟨e, he⟩ ⟨e', he'⟩
  exact (hone q x e hx he).1.trans (hone q' x' e' hx' he').1.symm

namespace Prepare

/-- The tree whose conflicts are resolved: its samples lowered, its domains propagated. -/
def Propagates (a : Nat) (opts : PrepareOptions) (f : Fragment) (σ : Arenas) (g : Fragment) (σ' : Arenas) : Prop :=
  ∃ f₁ σ₁, f.lowerSamples σ a = (.ok f₁, σ₁) ∧
    (f₁.propagateDomains a opts.ensureSync).run.run σ₁ = (.ok g, σ')

/-- What a preparation that succeeds makes of driver tables. A signal is driven from the domains from which it was
driven before conflicts were resolved, and by one fragment only. Registers of cells, for which conflicts are not sought,
are driven from one domain. -/
theorem run_drivers {a : Nat} {opts : PrepareOptions} {f : Fragment} {p : Prepared} {s t : PrepareState}
    (ha : a < s.arenas.list.size) (hsamples : ∀ b ∈ f.bodies, ∀ v ∈ b.values, ∀ u ∈ v.leaves, Delays.Samplable u)
    (hleaves : f.CellsAreLeaves) (hnumbered : f.NumberedBy a s.arenas) (hg : Gives (run a opts f) s p t) :
    ∃ g, Propagates a opts f s.arenas g t.arenas ∧
      (∀ d id, (∃ b ∈ p.top.bodies, b.Drives d (.signal id)) ↔ g.DrivenFrom d id) ∧
      (∀ id, g.DrivenByCell id → ¬ s.arenas.Issued id) ∧
      (∀ id, ¬ g.DrivenByCell id →
        p.top.bodies.Pairwise fun b b' => ∀ d d', b.Drives d (.signal id) → ¬ b'.Drives d' (.signal id)) ∧
      (f.Anchored s.arenas → ∀ id, g.DrivenByCell id →
        (p.top.bodies.Pairwise fun b b' => ∀ d d', b.Drives d (.signal id) → ¬ b'.Drives d' (.signal id)) ∧
        ∀ d d', g.DrivenFrom d id → g.DrivenFrom d' id → d = d') := by
  obtain ⟨x, f1, f2, ports, ⟨g1, σ1, g, r, hlowered, hpropagated, hr, rfl⟩, hresets, hlower, hports⟩ := run_inv hg
  obtain ⟨E, hlaid⟩ := Fragment.lowerSamples_laid ha hsamples hlowered
  have hcells := Fragment.propagateDomains_cellsDrive (hlaid.cellsDrive hleaves) (gives_run.mpr hpropagated)
  obtain ⟨hsize, hnumbered1⟩ := Fragment.lowerSamples_numbered hnumbered hlowered
  obtain ⟨_, -, -, hsharing⟩ := Fragment.propagateDomains_sharing (ha.trans_eq hsize.symm) hnumbered1 hpropagated
  have hdrives : List.Forall₂ (fun b b' => ∀ d id, b'.Drives d (.signal id) ↔ b.DrivesFrom d id)
      r.fragment.bodies p.top.bodies :=
    (Fragment.resetTo_of_passes hresets hlower hports).imp fun _ _ h => h.drives
  have hknown := Fragment.knowsDriven_of_passes hresets hlower
  refine ⟨g, ⟨g1, σ1, hlowered, hpropagated⟩, ?_, fun id => hcells.of_drivenByCell, ?_, ?_⟩
  · intro d id
    rw [← Fragment.resolveConflicts_drivenFrom hsharing.shared hr hknown]
    exact (forall₂_exists_iff hdrives fun _ _ _ hiff => (hiff d id).symm).symm
  · intro id hid
    refine pairwise_of_forall₂ hdrives (Fragment.resolveConflicts_apart hcells.drivenByCell hr) ?_
    intro b c b' c' hb hc hapart d d' hd hd'
    have howns := Body.owns_signal_iff.mpr ⟨d, (hb d id).mp hd⟩
    exact hapart id hid howns (Body.owns_signal_iff.mpr ⟨d', (hc d' id).mp hd'⟩)
  · intro hanchored id hid
    obtain ⟨-, -, hrecords⟩ := Fragment.lowerSamples_records (K := f.records) (fun b hb cd hcd => ⟨b, hb, hcd⟩) hlowered
    obtain ⟨path, domain, hone⟩ := hlaid.register_once hanchored (fun cd ⟨b, hb, hcd⟩ => hrecords b hb cd hcd)
      (ha.trans_eq hsize.symm) hnumbered1 (gives_run.mpr hpropagated) (hcells.of_drivenByCell hid) hid
    obtain ⟨hplace, hdomain⟩ := Fragment.driven_of_at? hone
    refine ⟨pairwise_of_forall₂ hdrives (Fragment.resolveConflicts_one hsharing.shared hr hknown hplace) ?_, hdomain⟩
    intro b c b' c' hb hc hapart d d' hd hd'
    exact hapart ⟨d, (hb d id).mp hd⟩ ⟨d', (hc d' id).mp hd'⟩

end Prepare

namespace Work

/-- If a block elaborates to a tree whose cells are leaves, and its preparation succeeds, with whatever options, then
the domains from which a signal is driven in the prepared tree are those from which it was driven, by whatever
fragments, when domains were propagated and conflicts not yet resolved. Any signal that no cell drives is in the driver
table of one fragment at most, and it stands there under one domain exactly if it was driven from one domain before. A
cell drives new registers only. Where the tree knew issued signals only, these are in one driver table each, under one
domain. -/
theorem prepare_driverDomains {w w₁ w₂ : Workspace} {e : Option Elaboratable} {a number top : Nat}
    {opts : PrepareOptions} {reports : Bool} {names : List (String × NetTable String)}
    (helaborate : (elaborate e).run.run w = (.ok number, w₁)) (ha : a < w₁.arenas.list.size)
    (hsamples : ∀ b ∈ (w₁.tree number).bodies, ∀ v ∈ b.values, ∀ u ∈ v.leaves, Delays.Samplable u)
    (hleaves : (w₁.tree number).CellsAreLeaves) (hnumbered : (w₁.tree number).NumberedBy a w₁.arenas)
    (hprepare : (prepare a opts reports e).run.run w = (.ok (top, names), w₂)) :
    ∃ g, Prepare.Propagates a opts (w₁.tree number) w₁.arenas g w₂.arenas ∧
      (∀ d id, (∃ b ∈ (w₂.tree top).bodies, b.Drives d (.signal id)) ↔ g.DrivenFrom d id) ∧
      (∀ id, g.DrivenByCell id → ¬ w₁.arenas.Issued id) ∧
      (∀ id, ¬ g.DrivenByCell id →
        ((w₂.tree top).bodies.Pairwise fun b b' => ∀ d d', b.Drives d (.signal id) → ¬ b'.Drives d' (.signal id)) ∧
        ((∀ b ∈ (w₂.tree top).bodies, ∀ d d', b.Drives d (.signal id) → b.Drives d' (.signal id) → d = d') ↔
          ∀ d d', g.DrivenFrom d id → g.DrivenFrom d' id → d = d')) ∧
      ((w₁.tree number).Anchored w₁.arenas → ∀ id, g.DrivenByCell id →
        ((w₂.tree top).bodies.Pairwise fun b b' => ∀ d d', b.Drives d (.signal id) → ¬ b'.Drives d' (.signal id)) ∧
        ∀ b ∈ (w₂.tree top).bodies, ∀ d d', b.Drives d (.signal id) → b.Drives d' (.signal id) → d = d') := by
  obtain ⟨p, s, hrun, htop, harenas⟩ := prepare_inv (gives_run.mpr helaborate) (gives_run.mpr hprepare)
  obtain ⟨g, hpropagates, hdriven, hcells, hapart, hregisters⟩ :=
    Prepare.run_drivers (s := ⟨w₁.arenas, []⟩) ha hsamples hleaves hnumbered hrun
  rw [htop, harenas]
  have hone {id : SignalId} (hbefore : ∀ d d', g.DrivenFrom d id → g.DrivenFrom d' id → d = d') :
      ∀ b ∈ p.top.bodies, ∀ d d', b.Drives d (.signal id) → b.Drives d' (.signal id) → d = d' :=
    fun b hb d d' hd hd' => hbefore d d' ((hdriven d id).mp ⟨b, hb, hd⟩) ((hdriven d' id).mp ⟨b, hb, hd'⟩)
  refine ⟨g, hpropagates, hdriven, hcells, fun id hid => ⟨hapart id hid, ?_, hone⟩, fun hanchored id hid => ?_⟩
  · -- Both entries have come into one table.
    intro hone d d' hd hd'
    obtain ⟨b, hb, hbd⟩ := (hdriven d id).mpr hd
    obtain ⟨b', hb', hbd'⟩ := (hdriven d' id).mpr hd'
    obtain rfl : b = b' := by
      by_contra hne
      have hsymm : Std.Symm fun x y : Body => ∀ d d', x.Drives d (.signal id) → ¬ y.Drives d' (.signal id) :=
        ⟨fun _ _ h d d' hy hx => h d' d hx hy⟩
      exact (hapart id hid).forall hb hb' hne d d' hbd hbd'
    exact hone b hb d d' hbd hbd'
  · obtain ⟨hplace, hbefore⟩ := hregisters hanchored id hid
    exact ⟨hplace, hone hbefore⟩

/-- A block that drives a wire in the comb domain, over one that drives it too, from a domain of its choice, and over a
cell that reads it with a delay. -/
def joined (domain : String) : Workspace :=
  let program : Work Unit := do
    let lower ← newBuilder 0 (Builder.addStatements domain [.assign (.signal ⟨0, 1⟩) (.const 1 (.unsigned 1))])
    discard <| newBuilder 0 do
      Builder.comb [.assign (.signal ⟨0, 1⟩) (.const 0 (.unsigned 1))]
      Builder.addSubmodule "lower" (some (.builder lower))
      Builder.addSubmodule "u" (some (.fragment 0))
  (program.run.run { Workspace.empty with
    arenas := ⟨#[⟨#[wire "x" 1], 0, 0⟩]⟩
    cells := #[⟨{ Body.empty with
      cell := some ⟨"BUF", [], [⟨"I", .sample (.signal ⟨0, 1⟩) 1 "sync", .input⟩]⟩ }, []⟩] }).2

/-- The blocks after elaboration, as fragments. -/
def joinedFragments (domain : String) : Workspace := ((elaborate (some (.builder 1))).run.run (joined domain)).2

section Joined

variable {domain : String} (h : domain = combDomain ∨ domain = syncDomain)
include h

private theorem joined_elaborates :
    (elaborate (some (.builder 1))).run.run (joined domain) = (.ok 2, joinedFragments domain) := by
  rcases h with rfl | rfl <;> rfl

private theorem joined_samplable :
    ∀ b ∈ ((joinedFragments domain).tree 2).bodies, ∀ v ∈ b.values, ∀ u ∈ v.leaves, Delays.Samplable u := by
  rcases h with rfl | rfl <;> decide +kernel

private theorem joined_leaves : ((joinedFragments domain).tree 2).CellsAreLeaves := by
  rcases h with rfl | rfl <;> decide +kernel

private theorem joined_records : ((joinedFragments domain).tree 2).bodies.flatMap Body.domains = [] := by
  rcases h with rfl | rfl <;> rfl

private theorem joined_numbered : ((joinedFragments domain).tree 2).NumberedBy 0 (joinedFragments domain).arenas :=
  Fragment.numberedBy_of_list (joined_records h) (by simp) (by simp)

private theorem joined_anchored : ((joinedFragments domain).tree 2).Anchored (joinedFragments domain).arenas := by
  have hgrounded : ((joinedFragments domain).tree 2).Grounded (joinedFragments domain).arenas := by
    rcases h with rfl | rfl <;> decide +kernel
  refine ⟨hgrounded.drivers, fun cd ⟨b, hb, hcd⟩ => ?_⟩
  have hmem := List.mem_flatMap.mpr ⟨b, hb, hcd⟩
  rw [joined_records h] at hmem
  cases hmem

end Joined

/-- A wire that both blocks drive in the comb domain is driven by one fragment in the end, from one domain, and so is the
register that the cell drives. -/
theorem prepare_driverDomains_joined : ∃ names w₂ g,
    (prepare 0 .plain true (some (.builder 1))).run.run (joined combDomain) = (.ok (4, names), w₂) ∧
      Prepare.Propagates 0 .plain ((joinedFragments combDomain).tree 2) (joinedFragments combDomain).arenas g
        w₂.arenas ∧
      ((w₂.tree 4).bodies.Pairwise fun b b' => ∀ d d', b.Drives d (.signal ⟨0, 1⟩) → ¬ b'.Drives d' (.signal ⟨0, 1⟩)) ∧
      ((∀ b ∈ (w₂.tree 4).bodies, ∀ d d', b.Drives d (.signal ⟨0, 1⟩) → b.Drives d' (.signal ⟨0, 1⟩) → d = d') ↔
        ∀ d d', g.DrivenFrom d ⟨0, 1⟩ → g.DrivenFrom d' ⟨0, 1⟩ → d = d') ∧
      ∀ id, g.DrivenByCell id →
        ((w₂.tree 4).bodies.Pairwise fun b b' => ∀ d d', b.Drives d (.signal id) → ¬ b'.Drives d' (.signal id)) ∧
        ∀ b ∈ (w₂.tree 4).bodies, ∀ d d', b.Drives d (.signal id) → b.Drives d' (.signal id) → d = d' := by
  have h : combDomain = combDomain ∨ combDomain = syncDomain := Or.inl rfl
  obtain ⟨names, hprepare⟩ : ∃ names, (prepare 0 .plain true (some (.builder 1))).run.run (joined combDomain) =
      (.ok (4, names), _) := exists_of_stored (by decide +kernel)
  obtain ⟨g, hpropagates, -, hcells, hothers, hregisters⟩ := prepare_driverDomains (joined_elaborates h) (by decide +kernel)
    (joined_samplable h) (joined_leaves h) (joined_numbered h) hprepare
  have hissued : (joinedFragments combDomain).arenas.Issued ⟨0, 1⟩ := by
    unfold Arenas.Issued
    decide +kernel
  obtain ⟨hapart, hone⟩ := hothers ⟨0, 1⟩ fun hcell => hcells _ hcell hissued
  exact ⟨names, _, g, hprepare, hpropagates, hapart, hone, hregisters (joined_anchored h)⟩

/-- A wire that the upper block drives in the comb domain and the lower one from a clock is driven by one fragment in
the end, and from both domains. -/
theorem not_forall_prepare_oneDomain : ¬ ∀ (w w₁ w₂ : Workspace) (e : Option Elaboratable) (a number top : Nat)
    (opts : PrepareOptions) (reports : Bool) (names : List (String × NetTable String)),
    (elaborate e).run.run w = (.ok number, w₁) → a < w₁.arenas.list.size →
    (∀ b ∈ (w₁.tree number).bodies, ∀ v ∈ b.values, ∀ u ∈ v.leaves, Delays.Samplable u) →
    (w₁.tree number).CellsAreLeaves → (w₁.tree number).NumberedBy a w₁.arenas →
    opts.conflicts = .warn ∨ opts.conflicts = .silent →
    (prepare a opts reports e).run.run w = (.ok (top, names), w₂) →
    ∀ b ∈ (w₂.tree top).bodies, ∀ d d' id, b.Drives d (.signal id) → b.Drives d' (.signal id) → d = d' := by
  intro hall
  have h : syncDomain = combDomain ∨ syncDomain = syncDomain := Or.inr rfl
  obtain ⟨names, hprepare⟩ : ∃ names, (prepare 0 .plain true (some (.builder 1))).run.run (joined syncDomain) =
      (.ok (4, names), _) := exists_of_stored (by decide +kernel)
  have hone := hall _ _ _ _ 0 2 4 _ _ names (joined_elaborates h) (by decide +kernel) (joined_samplable h)
    (joined_leaves h) (joined_numbered h) (Or.inl rfl) hprepare _ (Fragment.body_mem_bodies _) combDomain syncDomain
    ⟨0, 1⟩ (by unfold Body.Drives; decide +kernel) (by unfold Body.Drives; decide +kernel)
  exact absurd hone (by decide)

end Work
end Rtl
