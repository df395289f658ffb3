import Mathlib
import Rtl.Check
import Rtl.Proofs.DomainLowering

/-!
# The contract of a prepared tree

The check goes over the fragments of a tree in order and notes the path of what drives each signal. It finds nothing
exactly when every fragment is acceptable on its own and no signal is noted under two paths; a tree of ready fragments
whose drivers lie apart and whose children's ports all lead somewhere is such a tree. Deriving the ports of a tree
connects the ports of every child: what a child takes in comes from a port of its parent, from the parent itself or from
a sibling; what it gives out was asked for by its parent.
-/
namespace Rtl

open List

variable {σ : Arenas} {u : Usage}

namespace Value

variable {path : String}

theorem issuesAll_eq_nil_iff {vs : List Value} : issuesAll σ path vs = [] ↔ ∀ v ∈ vs, v.issues σ path = [] := by
  induction vs with
  | nil => simp [issuesAll]
  | cons v vs ih => rw [issuesAll, append_eq_nil_iff, ih, forall_mem_cons]

/-- Nothing is left to lower in a value over constants and signals. -/
theorem issues_of_concrete {v : Value} (h : v.Built Concrete σ) : v.issues σ path = [] := by
  induction v with
  | const => rfl
  | net n =>
    cases n with
    | signal => rfl
    | clock | reset => exact h.elim
  | unary op a s iha =>
    rw [issues, iha h.1]
  | binary op a b s iha ihb =>
    rw [issues, iha h.1, ihb h.2.1, nil_append]
  | mux sel a b s ihsel iha ihb =>
    rw [issues, ihsel h.1, iha h.2.1, ihb h.2.2.1, nil_append, nil_append]
  | slice v i j ih => rw [issues, ih h]
  | part v offset width stride ih iho => rw [issues, ih h.1, iho h.2, nil_append]
  | cat parts ih =>
    rw [issues]
    exact issuesAll_eq_nil_iff.mpr fun v hv => ih v hv (builtAll_iff.mp h v hv)
  | repl v count ih => rw [issues, ih h]
  | proxy elems index ih ihi =>
    rw [issues, ihi h.2, append_nil]
    exact issuesAll_eq_nil_iff.mpr fun v hv => ih v hv (builtAll_iff.mp h.1 v hv)
  | sample | initial => exact h.elim

end Value

namespace Statement

variable {σ : Arenas} {path : String}
variable {test : Value}

theorem patternIssues_eq_nil_iff {patterns : List String} :
    patternIssues σ path test patterns = [] ↔ ∀ t ∈ patterns, (t.utf8ByteSize : Int) = test.width σ := by
  unfold patternIssues
  rw [map_eq_nil_iff, filter_eq_nil_iff]
  simp

theorem bodyIssues_eq_nil_iff {xs : List Statement} : bodyIssues σ path xs = [] ↔ ∀ x ∈ xs, x.issues σ path = [] := by
  induction xs with
  | nil => simp [bodyIssues]
  | cons x xs ih => rw [bodyIssues, append_eq_nil_iff, ih, forall_mem_cons]

theorem armIssues_eq_nil_iff {arms : List Arm} :
    armIssues σ path test arms = [] ↔
      ∀ a ∈ arms, (∀ t ∈ a.1, (t.utf8ByteSize : Int) = test.width σ) ∧ ∀ x ∈ a.2, x.issues σ path = [] := by
  induction arms with
  | nil => simp [armIssues]
  | cons a arms ih =>
    rw [armIssues, append_eq_nil_iff, append_eq_nil_iff, patternIssues_eq_nil_iff, bodyIssues_eq_nil_iff, ih,
      forall_mem_cons]

/-- Statements over constants and signals whose patterns fit pass the check. -/
theorem issues_of_concrete {x : Statement} (h : x.Built Value.Concrete σ) : x.issues σ path = [] := by
  induction x with
  | assign =>
    rw [issues, Value.issues_of_concrete h.1, Value.issues_of_concrete h.2, nil_append]
  | property => rw [issues, Value.issues_of_concrete h]
  | switch test arms ih =>
    rw [issues, Value.issues_of_concrete h.1, nil_append, armIssues_eq_nil_iff]
    intro a ha
    obtain ⟨hwidth, hxs⟩ := armsBuilt_iff.mp h.2 a ha
    exact ⟨hwidth, fun x hx => ih a ha x hx (hxs x hx)⟩

end Statement

namespace Body

variable {b : Body}

/-- A fragment without anything left to lower, whose drivers are signals in domains that it knows. -/
structure Ready (σ : Arenas) (b : Body) : Prop where
  statements : ∀ x ∈ b.statements, x.Built Value.Concrete σ
  bound : ∀ i, b.cell = some i → ∀ x ∈ i.ports, x.value.Built Value.Concrete σ
  drivers : ∀ e ∈ b.driverPairs, (∃ id, e.2 = .signal id) ∧ (e.1 ≠ combDomain → (b.domain? e.1).isSome = true)

theorem Ready.valueIssues (h : b.Ready σ) (path : String) : b.valueIssues σ path = [] := by
  unfold Body.valueIssues
  rw [Statement.bodyIssues_eq_nil_iff.mpr fun x hx => Statement.issues_of_concrete (h.statements x hx), append_nil]
  cases hcell : b.cell with
  | none => rfl
  | some i => exact flatMap_eq_nil_iff.mpr fun x hx => Value.issues_of_concrete (h.bound i hcell x hx)

/-- No signal is driven by both. -/
def Apart (b b' : Body) : Prop :=
  ∀ id, (∃ e ∈ b.driverPairs, e.2 = .signal id) → ¬ ∃ e ∈ b'.driverPairs, e.2 = .signal id

theorem apart_iff_key_ne {b' : Body} (hb : ∀ e ∈ b.driverPairs, ∃ id, e.2 = .signal id) :
    b.Apart b' ↔ ∀ e ∈ b.driverPairs, ∀ e' ∈ b'.driverPairs, e.2.key ≠ e'.2.key := by
  constructor
  · intro h e he e' he' hkey
    obtain ⟨id, hid⟩ := hb e he
    refine h id ⟨e, he, hid⟩ ⟨e', he', ?_⟩
    rw [hid] at hkey
    cases hn : e'.2 with
    | signal => rw [hn] at hkey; cases hkey; rfl
    | clock | reset => rw [hn] at hkey; cases hkey
  · rintro h id ⟨e, he, hid⟩ ⟨e', he', hid'⟩
    exact h e he e' he' (by rw [hid, hid'])

section Drivers

variable {σ : Arenas} {path : String} {b : Body} {drivenBy : NetTable String} {d : String} {n : Net}
  {ds : List (String × Net)}

/-- A driver passes if it is a signal in a known domain that no other path is noted for. -/
theorem checkDriver_eq_nil_iff :
    (b.checkDriver σ path drivenBy d n).1 = [] ↔
      ((∃ id, n = .signal id) ∧ (d ≠ combDomain → (b.domain? d).isSome = true)) ∧
        ∀ other, drivenBy.get? n = some other → other = path := by
  have hknown : ¬ (d ≠ combDomain ∧ (b.domain? d).isNone = true) ↔ (d ≠ combDomain → (b.domain? d).isSome = true) := by
    rw [not_and, Option.isNone_iff_eq_none, Option.isSome_iff_ne_none]
  unfold checkDriver
  cases n with
  | clock | reset => simp
  | signal =>
    dsimp only
    rw [← hknown]
    split
    · rename_i other hother
      split
      · rename_i hne
        simp [hother, hne]
      · rename_i heq
        simp [hother, not_not.mp heq]
    · rename_i hnone
      simp [hnone]

theorem checkDriver_table (h : (b.checkDriver σ path drivenBy d n).1 = []) :
    (b.checkDriver σ path drivenBy d n).2 = drivenBy.set n path := by
  obtain ⟨⟨⟨id, rfl⟩, -⟩, hfree⟩ := checkDriver_eq_nil_iff.mp h
  unfold checkDriver
  dsimp only
  split
  · rename_i other hother
    rw [if_neg (not_not.mpr (hfree other hother))]
  · rfl

theorem checkDrivers_cons_eq_nil_iff {e : String × Net} :
    (b.checkDrivers σ path drivenBy (e :: ds)).1 = [] ↔ (b.checkDriver σ path drivenBy e.1 e.2).1 = [] ∧
      (b.checkDrivers σ path (b.checkDriver σ path drivenBy e.1 e.2).2 ds).1 = [] := append_eq_nil_iff

/-- The table after the drivers of a fragment: each of their signals is noted, with the path of the fragment. -/
theorem checkDrivers_table (h : (b.checkDrivers σ path drivenBy ds).1 = []) (n : Net) (other : String) :
    (b.checkDrivers σ path drivenBy ds).2.get? n = some other ↔
      drivenBy.get? n = some other ∨ (other = path ∧ ∃ e ∈ ds, e.2.key = n.key) := by
  induction ds generalizing drivenBy with
  | nil => simp [checkDrivers]
  | cons e ds ih =>
    obtain ⟨hhere, hrest⟩ := checkDrivers_cons_eq_nil_iff.mp h
    have hfree := (checkDriver_eq_nil_iff.mp hhere).2
    have hcons : (b.checkDrivers σ path drivenBy (e :: ds)).2 =
      (b.checkDrivers σ path (b.checkDriver σ path drivenBy e.1 e.2).2 ds).2 := rfl
    rw [hcons, ih hrest, checkDriver_table hhere, NetTable.get?_set]
    simp only [mem_cons, exists_eq_or_imp]
    split
    · rename_i hkey
      constructor
      · rintro (hpath | ⟨rfl, e', he', hkey'⟩)
        · exact Or.inr ⟨(Option.some.inj hpath).symm, Or.inl hkey⟩
        · exact Or.inr ⟨rfl, Or.inl hkey⟩
      · rintro (hold | ⟨rfl, -⟩)
        · rw [← NetTable.get?_congr hkey] at hold
          exact Or.inl (by rw [hfree other hold])
        · exact Or.inl rfl
    · rename_i hkey
      simp [hkey]

/-- The drivers of a fragment pass if they are signals in known domains that no other path is noted for. -/
theorem checkDrivers_eq_nil_iff :
    (b.checkDrivers σ path drivenBy ds).1 = [] ↔
      (∀ e ∈ ds, (∃ id, e.2 = .signal id) ∧ (e.1 ≠ combDomain → (b.domain? e.1).isSome = true)) ∧
        ∀ e ∈ ds, ∀ other, drivenBy.get? e.2 = some other → other = path := by
  induction ds generalizing drivenBy with
  | nil => simp [checkDrivers]
  | cons e ds ih =>
    -- A signal that the same fragment drives twice is noted with its own path.
    have hnoted : (∀ e' ∈ ds, ∀ other, (drivenBy.set e.2 path).get? e'.2 = some other → other = path) ↔
        ∀ e' ∈ ds, e.2.key ≠ e'.2.key → ∀ other, drivenBy.get? e'.2 = some other → other = path := by
      refine forall₂_congr fun e' _ => ?_
      rw [NetTable.get?_set]
      split
      · rename_i hkey
        simp [hkey, eq_comm]
      · rename_i hkey
        simp [hkey]
    rw [checkDrivers_cons_eq_nil_iff, forall_mem_cons, forall_mem_cons]
    constructor
    · rintro ⟨hhere, hrest⟩
      rw [ih, checkDriver_table hhere, hnoted] at hrest
      obtain ⟨hdriver, hfree⟩ := checkDriver_eq_nil_iff.mp hhere
      refine ⟨⟨hdriver, hrest.1⟩, hfree, fun e' he' other hother => ?_⟩
      by_cases hkey : e.2.key = e'.2.key
      · exact hfree other (by rw [NetTable.get?_congr hkey, hother])
      · exact hrest.2 e' he' hkey other hother
    · rintro ⟨⟨hdriver, hdrivers⟩, hfree, hfrees⟩
      have hhere := checkDriver_eq_nil_iff (σ := σ) |>.mpr ⟨hdriver, hfree⟩
      rw [ih, checkDriver_table hhere, hnoted]
      exact ⟨hhere, hdrivers, fun e' he' _ => hfrees e' he'⟩

end Drivers

/-- What the check collects from statements is what ports are derived from. -/
theorem connections_eq_map {xs : List Statement} :
    connections σ u.driven u.used xs = (u.addStatements σ xs).map fun u' => (u'.driven, u'.used) := by
  induction xs generalizing u with
  | nil => rfl
  | cons x xs ih =>
    rw [connections, Usage.addStatements]
    cases x.assigned σ with
    | error => rfl
    | ok written => exact ih (u := ⟨u.driven.union written, u.used.union x.reads, u.both⟩)

theorem siblingHas_iff {cs : List (String × Fragment)} {i : Nat} {n : Net} {dir : Direction} :
    siblingHas cs i n dir = true ↔ ∃ j c, cs[j]? = some c ∧ j ≠ i ∧ c.2.HasPort dir n := by
  unfold siblingHas
  rw [any_eq_true]
  constructor
  · rintro ⟨⟨c, j⟩, hj, hport⟩
    rw [Bool.and_eq_true, decide_eq_true_eq, decide_eq_true_eq] at hport
    exact ⟨j, c, mem_zipIdx_iff_getElem?.mp hj, hport.1, hport.2⟩
  · rintro ⟨j, c, hj, hij, hport⟩
    refine ⟨(c, j), mem_zipIdx_iff_getElem?.mpr hj, ?_⟩
    rw [Bool.and_eq_true, decide_eq_true_eq, decide_eq_true_eq]
    exact ⟨hij, hport⟩

theorem mem_drivenDomains {cd : ClockDomain} (h : cd ∈ b.drivenDomains) : cd ∈ b.driverDomains.filterMap b.domain? := by
  obtain ⟨d, hd, hcd⟩ := mem_filterMap.mp h
  exact mem_filterMap.mpr ⟨d, mem_of_mem_filter hd, hcd⟩

end Body

namespace Fragment

variable {σ : Arenas} {f f' : Fragment}
variable {ports : NetSet}

/-- In a tree with derived ports every port of a child leads somewhere: to a port of the parent, to the parent's own
statements or to a sibling. -/
theorem PortsDerived.isConnected (h : PortsDerived σ ports u f f') (hf : f.Portless) {used : NetSet}
    (hused : ∀ n ∈ u.used, n ∈ used) {i : Nat} {c : String × Fragment} (hi : f'.children[i]? = some c) {n : Net}
    {dir : Direction} (hport : c.2.HasPort dir n) : f'.body.isConnected u.driven used f'.children i n dir = true := by
  have hc := mem_of_getElem? hi
  unfold Body.isConnected
  cases dir with
  | input =>
    simp only [Bool.or_eq_true]
    by_cases hdriven : n ∈ u.driven
    · exact Or.inl (Or.inr hdriven)
    by_cases hout : ∃ c' ∈ f'.children, c'.2.HasPort .output n
    · obtain ⟨c', hc', hout⟩ := hout
      obtain ⟨j, hj⟩ := mem_iff_getElem?.mp hc'
      refine Or.inr (Body.siblingHas_iff.mpr ⟨j, c', hj, ?_, hout⟩)
      rintro rfl
      rw [hi, Option.some.injEq] at hj
      subst hj
      cases hport.unique hout
    · -- Nobody below gives the net out, so the parent takes it in, unless it gives it out itself.
      have hnone : ∀ c' ∈ f'.children, ¬ c'.2.HasPort .output n := fun c' hc' hout' => hout ⟨c', hc', hout'⟩
      refine Or.inl (Or.inl ?_)
      by_cases hown : f'.HasPort .output n
      · exact hown.contains
      · have hin : f'.HasPort .input n :=
          (h.input_iff n).mpr ⟨hown, hdriven, Or.inr ((existsThen_of_forall hnone).mpr ⟨c, hc, hport⟩)⟩
        exact hin.contains
  | output =>
    simp only [Bool.or_eq_true]
    obtain ⟨c0, hc0, -, hr⟩ := forall₂_mem_right h.children hc
    obtain ⟨u', hderived⟩ := propagatePorts_derived (hf.child hc0) hr
    have hrequest := ((hderived.output_iff n).mp hport).1
    rcases NetSet.mem_union.mp hrequest with hn | hn
    · exact Or.inl (Or.inr (hused n hn))
    · have hown : f'.HasPort .output n := (h.output_iff n).mpr ⟨hn, Or.inr ⟨c, hc, hport⟩⟩
      exact Or.inl (Or.inl hown.contains)
  | inout => exact h.inout_of_child n c hc hport

/-- No port of a child is open in a tree with derived ports. -/
theorem PortsDerived.portIssues (h : PortsDerived σ ports u f f') (hf : f.Portless)
    (hleaf : f.body.cell.isSome → f.children = []) (path : String) :
    f'.body.portIssues σ path f'.children = .ok [] := by
  unfold Body.portIssues
  split
  · rfl
  · rename_i hne
    have hcell : f.body.cell = none := by
      by_contra hsome
      have hnil := hleaf (Option.isSome_iff_ne_none.mpr hsome)
      have hchildren := h.children
      rw [hnil, forall₂_nil_left_iff] at hchildren
      rw [hchildren] at hne
      exact hne rfl
    have husage := h.usage
    unfold Body.usage at husage
    rw [hcell] at husage
    obtain ⟨u0, hu0, rfl⟩ := except_bind_pure_eq_ok.mp husage
    have hsame := h.body
    have hstatements : f'.body.statements = f.body.statements := by rw [hsame]
    have hdomains : f'.body.driverDomains.filterMap f'.body.domain? = f.body.driverDomains.filterMap f.body.domain? := by
      rw [hsame]
      rfl
    have hconn : Body.connections σ .empty .empty f'.body.statements = .ok (u0.driven, u0.used) := by
      rw [hstatements]
      refine (Body.connections_eq_map (u := .empty)).trans ?_
      rw [hu0]
      rfl
    refine except_bind_eq_ok.mpr ⟨_, hconn, except_pure_eq_ok.mpr (flatMap_eq_nil_iff.mpr ?_)⟩
    rintro ⟨c, i⟩ hci
    have hi := mem_zipIdx_iff_getElem?.mp hci
    rw [map_eq_nil_iff, filter_eq_nil_iff]
    rintro ⟨n, dir⟩ hentry
    obtain ⟨c0, hc0, -, hr⟩ := forall₂_mem_right h.children (mem_of_getElem? hi)
    have hport : c.2.HasPort dir n :=
      (propagatePorts_distinct (hf.child hc0) hr).get?_eq_some_iff.mpr ⟨_, hentry, rfl, rfl⟩
    have hused : ∀ m ∈ u0.used.insertAll (f.body.drivenDomains.flatMap ClockDomain.signals),
        m ∈ u0.used.insertAll ((f'.body.driverDomains.filterMap f'.body.domain?).flatMap ClockDomain.signals) := by
      intro m hm
      rw [NetSet.mem_insertAll] at hm ⊢
      refine hm.imp_right ?_
      rintro ⟨x, hx, hkey⟩
      obtain ⟨cd, hcd, hx⟩ := mem_flatMap.mp hx
      rw [hdomains]
      exact ⟨x, mem_flatMap.mpr ⟨cd, Body.mem_drivenDomains hcd, hx⟩, hkey⟩
    have hconnected := h.isConnected hf hused hi hport
    simpa using hconnected

theorem propagatePorts_nodes (hf : f.Portless) (h : f.propagatePorts σ ports = .ok f') :
    ∀ g' ∈ f'.nodes, ∃ g ∈ f.nodes, g.Portless ∧ ∃ ports u, PortsDerived σ ports u g g' := by
  induction f generalizing ports f' with
  | node b cs ih =>
    obtain ⟨u, hu⟩ := propagatePorts_derived hf h
    intro g' hg'
    rw [← node_eta f', mem_nodes_node, node_eta] at hg'
    rcases hg' with rfl | ⟨c', hc', hg'⟩
    · exact ⟨_, self_mem_nodes _, hf, ports, u, hu⟩
    · obtain ⟨c, hc, -, hr⟩ := forall₂_mem_right hu.children hc'
      obtain ⟨g, hg, hrest⟩ := ih c hc (hf.child hc) hr g' hg'
      exact ⟨g, nodes_of_child hc hg, hrest⟩

/-- Deriving ports changes nothing but ports. -/
theorem propagatePorts_bodies (h : f.propagatePorts σ ports = .ok f') :
    List.Forall₂ Body.SameButPorts f.bodies f'.bodies := by
  induction f generalizing ports f' with
  | node b cs ih =>
    have hsame := propagatePorts_sameButPorts h
    obtain ⟨u, cs', s, -, hall, rfl, rfl⟩ := propagatePorts_inv h
    refine forall₂_bodies_node hsame ?_
    refine (forall₂_mem hall).imp ?_
    exact fun c c' hone => ih c hone.1 hone.2.2

section Checked

variable {σ : Arenas} {path : String}
variable {f : Fragment}

/-- The check went on from the findings `s` without a new issue. -/
def Findings.Kept (s : Findings) (result : Findings × Option DesignError) : Prop :=
  result.2 = none ∧ result.1.issues = s.issues

/-- What the check asks of a fragment on its own. -/
structure Acceptable (σ : Arenas) (path : String) (g : Fragment) : Prop where
  values : g.body.valueIssues σ path = []
  drivers : ∀ e ∈ g.body.driverPairs,
    (∃ id, e.2 = .signal id) ∧ (e.1 ≠ combDomain → (g.body.domain? e.1).isSome = true)
  ports : g.body.portIssues σ path g.children = .ok []

section Steps

variable (σ path) (b : Body) (cs : List (String × Fragment)) (s : Findings)

theorem checkBody_drivenBy :
    (checkBody σ path b cs s).1.drivenBy = (b.checkDrivers σ path s.drivenBy b.driverPairs).2 := by
  unfold checkBody
  dsimp only
  split <;> rfl

theorem checkBody_issues : s.issues <+: (checkBody σ path b cs s).1.issues := by
  unfold checkBody
  dsimp only [Findings.add]
  split
  · simp only [append_assoc, prefix_append]
  · simp only [append_assoc, prefix_append]

/-- A fragment passes if it is acceptable and no other path is noted for what it drives. -/
theorem checkBody_kept_iff : s.Kept (checkBody σ path b cs s) ↔ Acceptable σ path (node b cs) ∧
    ∀ e ∈ b.driverPairs, ∀ other, s.drivenBy.get? e.2 = some other → other = path := by
  have hdrivers : (b.checkDrivers σ path s.drivenBy b.driverPairs).1 = [] ↔ _ := Body.checkDrivers_eq_nil_iff
  unfold Findings.Kept checkBody
  dsimp only [Findings.add]
  constructor
  · split
    · rename_i found hports
      rintro ⟨-, hissues⟩
      simp only [append_assoc, append_right_eq_self, append_eq_nil_iff] at hissues
      obtain ⟨hvalues, hfound, rfl⟩ := hissues
      exact ⟨⟨hvalues, (hdrivers.mp hfound).1, hports⟩, (hdrivers.mp hfound).2⟩
    · rintro ⟨hstop, -⟩
      cases hstop
  · rintro ⟨⟨hvalues, hsignals, hports⟩, hfree⟩
    rw [body_node] at hvalues
    rw [body_node, children_node] at hports
    rw [hports, hvalues, hdrivers.mpr ⟨hsignals, hfree⟩]
    simp

variable {σ path b cs s}

/-- What a fragment that passes leaves free for a later one: what was free before and the fragment does not drive. -/
theorem free_after_iff (h : s.Kept (checkBody σ path b cs s)) (b' : Body) (path' : String) :
    (∀ e ∈ b'.driverPairs, ∀ other, (checkBody σ path b cs s).1.drivenBy.get? e.2 = some other → other = path') ↔
      (∀ e ∈ b'.driverPairs, ∀ other, s.drivenBy.get? e.2 = some other → other = path') ∧
        (path = path' ∨ b.Apart b') := by
  obtain ⟨hok, hfree⟩ := (checkBody_kept_iff σ path b cs s).mp h
  have hsignals : ∀ e ∈ b.driverPairs, ∃ id, e.2 = .signal id := fun e he => (hok.drivers e he).1
  have htable := Body.checkDrivers_table (Body.checkDrivers_eq_nil_iff (σ := σ) (b := b) |>.mpr ⟨hok.drivers, hfree⟩)
  rw [body_node] at htable
  rw [checkBody_drivenBy, Body.apart_iff_key_ne hsignals]
  constructor
  · intro hall
    refine ⟨fun e he other hother => hall e he other ((htable _ _).mpr (Or.inl hother)), ?_⟩
    by_contra hnot
    push Not at hnot
    obtain ⟨hne, e, he, e', he', hkey⟩ := hnot
    exact hne (hall e' he' path ((htable _ _).mpr (Or.inr ⟨rfl, e, he, hkey⟩)))
  · rintro ⟨hbefore, hapart⟩ e' he' other hother
    rcases (htable _ _).mp hother with hother | ⟨rfl, e, he, hkey⟩
    · exact hbefore e' he' other hother
    · exact hapart.resolve_right fun hne => hne e he e' he' hkey

end Steps

mutual

/-- The fragments of a tree with the paths they are reported under, parents first. -/
def located (path : String) : Fragment → List (String × Fragment)
  | .node b cs => (path, .node b cs) :: locatedIn path 0 cs

def locatedIn (path : String) (position : Nat) : List (String × Fragment) → List (String × Fragment)
  | [] => []
  | (name, f) :: rest => located (path ++ "." ++ childLabel position name) f ++ locatedIn path (position + 1) rest

end

theorem map_located (path : String) (f : Fragment) : (f.located path).map Prod.snd = f.nodes := by
  induction f generalizing path with
  | node b cs ih =>
    have hcs : ∀ position, (locatedIn path position cs).map Prod.snd = cs.flatMap fun c => c.2.nodes := by
      induction cs with
      | nil => exact fun _ => rfl
      | cons c cs ihcs =>
        obtain ⟨hc, hrest⟩ := forall_mem_cons.mp ih
        intro position
        rw [locatedIn, map_append, hc, ihcs hrest, flatMap_cons]
    rw [located, map_cons, hcs, nodes_node]

theorem mem_nodes_iff_located {g : Fragment} : g ∈ f.nodes ↔ ∃ x ∈ f.located path, x.2 = g := by
  rw [← map_located path f, mem_map]

/-- Checks located fragments one after the other. -/
def checkAll (σ : Arenas) (s : Findings) : List (String × Fragment) → Findings × Option DesignError
  | [] => (s, none)
  | (path, g) :: rest =>
    match checkBody σ path g.body g.children s with
    | (s, some e) => (s, some e)
    | (s, none) => checkAll σ s rest

section Run

variable {s t : Findings} {e : DesignError} {x : String × Fragment} {l : List (String × Fragment)}

theorem checkAll_stopped (h : checkBody σ x.1 x.2.body x.2.children s = (t, some e)) :
    checkAll σ s (x :: l) = (t, some e) := by
  rw [checkAll, h]

theorem checkAll_passed (h : checkBody σ x.1 x.2.body x.2.children s = (t, none)) :
    checkAll σ s (x :: l) = checkAll σ t l := by
  rw [checkAll, h]

theorem checkAll_append_stopped (h : checkAll σ s l = (t, some e)) (l' : List (String × Fragment)) :
    checkAll σ s (l ++ l') = (t, some e) := by
  induction l generalizing s with
  | nil => cases h
  | cons x l ih =>
    obtain ⟨⟨u, o⟩, hrun⟩ : ∃ r, checkBody σ x.1 x.2.body x.2.children s = r := ⟨_, rfl⟩
    cases o with
    | some => rw [cons_append, checkAll_stopped hrun, ← h, checkAll_stopped hrun]
    | none =>
      rw [checkAll_passed hrun] at h
      rw [cons_append, checkAll_passed hrun, ih h]

theorem checkAll_append_passed (h : checkAll σ s l = (t, none)) (l' : List (String × Fragment)) :
    checkAll σ s (l ++ l') = checkAll σ t l' := by
  induction l generalizing s with
  | nil =>
    cases h
    rfl
  | cons x l ih =>
    obtain ⟨⟨u, o⟩, hrun⟩ : ∃ r, checkBody σ x.1 x.2.body x.2.children s = r := ⟨_, rfl⟩
    cases o with
    | some =>
      rw [checkAll_stopped hrun] at h
      cases h
    | none =>
      rw [checkAll_passed hrun] at h
      rw [cons_append, checkAll_passed hrun, ih h]

/-- The check of a tree goes over its fragments in order. -/
theorem checkTree_eq_checkAll : checkTree σ path s f = checkAll σ s (f.located path) := by
  induction f generalizing path s with
  | node b cs ih =>
    have hcs : ∀ position s, checkChildren σ path s position cs = checkAll σ s (locatedIn path position cs) := by
      induction cs with
      | nil => exact fun _ _ => rfl
      | cons c cs ihcs =>
        obtain ⟨hc, hrest⟩ := forall_mem_cons.mp ih
        intro position s
        rw [checkChildren, locatedIn, hc]
        obtain ⟨⟨u, o⟩, hrun⟩ :
          ∃ r, checkAll σ s (located (path ++ "." ++ childLabel position c.1) c.2) = r := ⟨_, rfl⟩
        cases o with
        | some => rw [checkAll_append_stopped hrun, hrun]
        | none =>
          rw [checkAll_append_passed hrun, hrun]
          exact ihcs hrest _ _
    rw [checkTree, located]
    obtain ⟨⟨u, o⟩, hrun⟩ : ∃ r, checkBody σ path b cs s = r := ⟨_, rfl⟩
    cases o with
    | some => rw [checkAll_stopped hrun, hrun]
    | none =>
      rw [checkAll_passed hrun, hrun]
      exact hcs _ _

theorem checkAll_issues (σ : Arenas) (s : Findings) (l : List (String × Fragment)) :
    s.issues <+: (checkAll σ s l).1.issues := by
  induction l generalizing s with
  | nil => exact prefix_rfl
  | cons x l ih =>
    have hbody := checkBody_issues σ x.1 x.2.body x.2.children s
    obtain ⟨⟨u, o⟩, hrun⟩ : ∃ r, checkBody σ x.1 x.2.body x.2.children s = r := ⟨_, rfl⟩
    rw [hrun] at hbody
    cases o with
    | some => rwa [checkAll_stopped hrun]
    | none =>
      rw [checkAll_passed hrun]
      exact hbody.trans (ih u)

theorem checkAll_cons_kept_iff :
    s.Kept (checkAll σ s (x :: l)) ↔ s.Kept (checkBody σ x.1 x.2.body x.2.children s) ∧
      (checkBody σ x.1 x.2.body x.2.children s).1.Kept
        (checkAll σ (checkBody σ x.1 x.2.body x.2.children s).1 l) := by
  have hbody := checkBody_issues σ x.1 x.2.body x.2.children s
  unfold Findings.Kept
  obtain ⟨⟨u, o⟩, hrun⟩ : ∃ r, checkBody σ x.1 x.2.body x.2.children s = r := ⟨_, rfl⟩
  rw [hrun] at hbody ⊢
  cases o with
  | some =>
    rw [checkAll_stopped hrun]
    simp
  | none =>
    rw [checkAll_passed hrun]
    constructor
    · rintro ⟨hnone, hissues⟩
      have hrest := checkAll_issues σ u l
      rw [hissues] at hrest
      have hsame : u.issues = s.issues := hrest.eq_of_length_le hbody.length_le
      exact ⟨⟨rfl, hsame⟩, hnone, hissues.trans hsame.symm⟩
    · rintro ⟨⟨-, hsame⟩, hnone, hissues⟩
      exact ⟨hnone, hissues.trans hsame⟩

/-- Fragments pass one after the other if each is acceptable, no other path is noted for what they drive, and no two of
them drive the same signal, unless they are reported under the same path. -/
theorem checkAll_kept_iff :
    s.Kept (checkAll σ s l) ↔ (∀ x ∈ l, Acceptable σ x.1 x.2) ∧
      (∀ x ∈ l, ∀ e ∈ x.2.body.driverPairs, ∀ other, s.drivenBy.get? e.2 = some other → other = x.1) ∧
      l.Pairwise fun x y => x.1 = y.1 ∨ x.2.body.Apart y.2.body := by
  induction l generalizing s with
  | nil => simp [checkAll, Findings.Kept]
  | cons x l ih =>
    rw [checkAll_cons_kept_iff, ih, forall_mem_cons, forall_mem_cons, pairwise_cons]
    constructor
    · rintro ⟨hkept, hok, hfree, hapart⟩
      obtain ⟨hhere, hfreehere⟩ := (checkBody_kept_iff _ _ _ _ _).mp hkept
      rw [node_eta] at hhere
      simp only [free_after_iff hkept] at hfree
      exact ⟨⟨hhere, hok⟩, ⟨hfreehere, fun y hy => (hfree y hy).1⟩, fun y hy => (hfree y hy).2, hapart⟩
    · rintro ⟨⟨hhere, hok⟩, ⟨hfreehere, hfree⟩, hfirst, hapart⟩
      rw [← node_eta x.2] at hhere
      have hkept := (checkBody_kept_iff _ _ _ _ _).mpr ⟨hhere, hfreehere⟩
      simp only [free_after_iff hkept]
      exact ⟨hkept, hok, fun y hy => ⟨hfree y hy, hfirst y hy⟩, hapart⟩

end Run

/-- The check has nothing to say about a tree exactly when every fragment is acceptable and no two fragments drive the
same signal, unless they are reported under the same path. -/
theorem check_eq_nil_iff : f.check σ = ([], none) ↔
    (∀ x ∈ f.located "top", Acceptable σ x.1 x.2) ∧
      (f.located "top").Pairwise fun x y => x.1 = y.1 ∨ x.2.body.Apart y.2.body := by
  have hkept : f.check σ = ([], none) ↔ Findings.Kept ⟨[], .empty⟩ (checkAll σ ⟨[], .empty⟩ (f.located "top")) := by
    unfold Fragment.check Findings.Kept
    rw [checkTree_eq_checkAll, Prod.mk.injEq, and_comm]
  rw [hkept, checkAll_kept_iff]
  simp

/-- A tree whose fragments are ready, apart and connected. -/
structure Passing (σ : Arenas) (f : Fragment) : Prop where
  ready : ∀ b ∈ f.bodies, b.Ready σ
  connected : ∀ g ∈ f.nodes, ∀ path, g.body.portIssues σ path g.children = .ok []
  apart : f.bodies.Pairwise Body.Apart

/-- The check has nothing to say about a tree whose fragments are ready, apart and connected. -/
theorem Passing.check (h : f.Passing σ) : f.check σ = ([], none) := by
  rw [check_eq_nil_iff]
  constructor
  · intro x hx
    have hnode : x.2 ∈ f.nodes := mem_nodes_iff_located.mpr ⟨x, hx, rfl⟩
    have hready := h.ready _ (mem_bodies_iff.mpr ⟨x.2, hnode, rfl⟩)
    exact ⟨hready.valueIssues _, hready.drivers, h.connected _ hnode _⟩
  · have hapart := h.apart
    rw [bodies_eq_map_nodes, ← map_located "top" f, pairwise_map, pairwise_map] at hapart
    exact hapart.imp Or.inr

end Checked
end Fragment
end Rtl
