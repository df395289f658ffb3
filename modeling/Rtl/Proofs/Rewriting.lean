import Mathlib
import Rtl.Proofs.Leaves
import Rtl.Proofs.Merging
import Rtl.Proofs.Passes

/-!
# Rewriting values and statements leaf by leaf

A traversal that looks only at constants, nets, samples and first-cycle flags changes what stands at the leaves of an
expression and nothing else of its form; operators over something new are built again. So what such a traversal makes
of a value or a statement is known from what it makes of a leaf. Because a traversal may remember what it met, what
becomes of a leaf is said of the state at the end, and has to survive whatever the traversal does after it.
-/
namespace Rtl

open List

theorem forall₂_concat_iff {α β : Type} {R : α → β → Prop} {as : List α} {bs : List β} {a : α} {b : β} :
    List.Forall₂ R (as ++ [a]) (bs ++ [b]) ↔ List.Forall₂ R as bs ∧ R a b := by
  rw [← forall₂_reverse_iff, reverse_concat, reverse_concat, forall₂_cons, forall₂_reverse_iff,
    and_comm]

variable {as bs : List Arm} {w : Value}

namespace Value

variable {v w : Value} {vs : List Value}
variable {t : NetSet}

mutual

/-- The constants, nets, samples and first-cycle flags that a value is built over, from left to right. -/
def leaves : Value → List Value
  | .unary _ a _ => leaves a
  | .binary _ a b _ => leaves a ++ leaves b
  | .mux sel a b _ => leaves sel ++ (leaves a ++ leaves b)
  | .slice v _ _ => leaves v
  | .part v offset _ _ => leaves v ++ leaves offset
  | .cat parts => leavesAll parts
  | .repl v _ => leaves v
  | .proxy elems index => leavesAll elems ++ leaves index
  | v => [v]

def leavesAll : List Value → List Value
  | [] => []
  | v :: vs => leaves v ++ leavesAll vs

end

theorem leavesAll_eq_flatMap (vs : List Value) : leavesAll vs = vs.flatMap leaves := by
  induction vs with
  | nil => rfl
  | cons v vs ih => rw [leavesAll, ih, flatMap_cons]

theorem leaves_eq_flatMap (hv : ¬ v.IsLeaf) : v.leaves = v.operands.flatMap leaves := by
  cases v <;> simp_all [leaves, operands, IsLeaf, leavesAll_eq_flatMap]

theorem mem_leaves_iff (hv : ¬ v.IsLeaf) : w ∈ v.leaves ↔ ∃ c ∈ v.operands, w ∈ c.leaves := by
  rw [leaves_eq_flatMap hv, mem_flatMap]

theorem isLeaf_of_mem_leaves (h : w ∈ v.leaves) : w.IsLeaf := by
  induction v using operands_induct with
  | const | net | sample | initial =>
    obtain rfl := mem_singleton.mp h
    trivial
  | compound v hv ih =>
    obtain ⟨c, hc, hw⟩ := (mem_leaves_iff hv).mp h
    exact ih c hc hw

theorem leaves_of_isLeaf (h : v.IsLeaf) : v.leaves = [v] := by
  cases v <;> first | rfl | exact h.elim

mutual

/-- The leaves that an assignment to the value writes. Where the value cannot be assigned to, the part that stands in
the way is given as it is. -/
def written : Value → List Value
  | .slice v _ _ => written v
  | .part v _ _ _ => written v
  | .cat parts => writtenAll parts
  | .proxy elems _ => writtenAll elems
  | v => [v]

def writtenAll : List Value → List Value
  | [] => []
  | v :: vs => written v ++ writtenAll vs

end

theorem targetsAll_eq_ok_iff {acc : NetSet}
    (ih : ∀ v ∈ vs, ∀ {t}, v.targets = .ok t ↔ ∃ ns : List Net, v.written = ns.map .net ∧ t = .ofList ns) :
    targetsAll acc vs = .ok t ↔ ∃ ns : List Net, writtenAll vs = ns.map .net ∧ t = acc.insertAll ns := by
  induction vs generalizing acc with
  | nil => simp [targetsAll, writtenAll, NetSet.insertAll, eq_comm]
  | cons v vs ihvs =>
    obtain ⟨ihv, ihrest⟩ := forall_mem_cons.mp ih
    rw [targetsAll, writtenAll]
    constructor
    · intro h
      cases hv : v.targets with
      | error => rw [hv] at h; cases h
      | ok =>
        rw [hv] at h
        obtain ⟨ns, hns, rfl⟩ := ihv.mp hv
        obtain ⟨ms, hms, rfl⟩ := (ihvs ihrest).mp h
        refine ⟨ns ++ ms, by rw [hns, hms, map_append], ?_⟩
        rw [NetSet.insertAll_append, NetSet.union, NetSet.insertAll_ofList]
    · rintro ⟨ks, hks, rfl⟩
      obtain ⟨ns, ms, rfl, hns, hms⟩ := append_eq_map_iff.mp hks
      rw [ihv.mpr ⟨ns, hns.symm, rfl⟩]
      refine (ihvs ihrest).mpr ⟨ms, hms.symm, ?_⟩
      rw [NetSet.insertAll_append, NetSet.union, NetSet.insertAll_ofList]

/-- What an assignment to the value writes are nets, and it writes them in order. -/
theorem targets_eq_ok_iff : v.targets = .ok t ↔ ∃ ns : List Net, v.written = ns.map .net ∧ t = .ofList ns := by
  induction v generalizing t with
  | net n =>
    constructor
    · intro h
      exact ⟨[n], rfl, (Except.ok.inj h).symm⟩
    · rintro ⟨ns, hns, rfl⟩
      obtain ⟨m, rfl, hm⟩ := map_eq_singleton_iff.mp hns.symm
      cases hm
      rfl
  | slice v i j ih => exact ih
  | part v offset width stride ih => exact ih
  | cat parts ih | proxy elems index ih => exact targetsAll_eq_ok_iff ih
  | const | unary | binary | mux | repl | sample | initial =>
    refine iff_of_false (by simp [targets]) ?_
    rintro ⟨ns, hns, -⟩
    obtain ⟨m, -, hm⟩ := map_eq_singleton_iff.mp hns.symm
    cases hm

mutual

/-- The second value has the form of the first, with leaves related by `L`; the shapes of operators are not compared. -/
def Rewritten (L : Value → Value → Prop) : Value → Value → Prop
  | .unary op a _, w => ∃ a' s, w = .unary op a' s ∧ Rewritten L a a'
  | .binary op a b _, w => ∃ a' b' s, w = .binary op a' b' s ∧ Rewritten L a a' ∧ Rewritten L b b'
  | .mux sel a b _, w =>
    ∃ sel' a' b' s, w = .mux sel' a' b' s ∧ Rewritten L sel sel' ∧ Rewritten L a a' ∧ Rewritten L b b'
  | .slice v i j, w => ∃ v', w = .slice v' i j ∧ Rewritten L v v'
  | .part v offset width stride, w =>
    ∃ v' offset', w = .part v' offset' width stride ∧ Rewritten L v v' ∧ Rewritten L offset offset'
  | .cat parts, w => ∃ parts', w = .cat parts' ∧ RewrittenAll L parts parts'
  | .repl v count, w => ∃ v', w = .repl v' count ∧ Rewritten L v v'
  | .proxy elems index, w =>
    ∃ elems' index', w = .proxy elems' index' ∧ RewrittenAll L elems elems' ∧ Rewritten L index index'
  | v, w => L v w

def RewrittenAll (L : Value → Value → Prop) : List Value → List Value → Prop
  | [], ws => ws = []
  | v :: vs, ws => ∃ w ws', ws = w :: ws' ∧ Rewritten L v w ∧ RewrittenAll L vs ws'

end

variable {L L' : Value → Value → Prop}

theorem rewrittenAll_iff {ws : List Value} : RewrittenAll L vs ws ↔ List.Forall₂ (Rewritten L) vs ws := by
  induction vs generalizing ws with
  | nil =>
    rw [RewrittenAll]
    exact forall₂_nil_left_iff.symm
  | cons v vs ih =>
    rw [RewrittenAll, forall₂_cons_left_iff]
    constructor
    · rintro ⟨w, ws', rfl, hv, hvs⟩
      exact ⟨w, ws', hv, ih.mp hvs, rfl⟩
    · rintro ⟨w, ws', hv, hvs, rfl⟩
      exact ⟨w, ws', rfl, hv, ih.mpr hvs⟩

theorem rewritten_iff (hv : ¬ v.IsLeaf) :
    v.Rewritten L w ↔ v.Like w ∧ List.Forall₂ (Rewritten L) v.operands w.operands := by
  constructor
  · intro h
    cases v with
    | const | net | sample | initial => exact absurd trivial hv
    | unary =>
      obtain ⟨a', s', rfl, ha⟩ := h
      exact ⟨.unary, .cons ha .nil⟩
    | binary =>
      obtain ⟨a', b', s', rfl, ha, hb⟩ := h
      exact ⟨.binary, .cons ha (.cons hb .nil)⟩
    | mux =>
      obtain ⟨sel', a', b', s', rfl, hsel, ha, hb⟩ := h
      exact ⟨.mux, .cons hsel (.cons ha (.cons hb .nil))⟩
    | slice =>
      obtain ⟨v', rfl, hv⟩ := h
      exact ⟨.slice, .cons hv .nil⟩
    | repl =>
      obtain ⟨v', rfl, hv⟩ := h
      exact ⟨.repl, .cons hv .nil⟩
    | part =>
      obtain ⟨v', offset', rfl, hv, ho⟩ := h
      exact ⟨.part, .cons hv (.cons ho .nil)⟩
    | cat =>
      obtain ⟨parts', rfl, hparts⟩ := h
      exact ⟨.cat, rewrittenAll_iff.mp hparts⟩
    | proxy =>
      obtain ⟨elems', index', rfl, helems, hindex⟩ := h
      exact ⟨.proxy, forall₂_concat_iff.mpr ⟨rewrittenAll_iff.mp helems, hindex⟩⟩
  · rintro ⟨hlike, hops⟩
    cases hlike <;> simp_all [Rewritten, operands, rewrittenAll_iff, forall₂_concat_iff]

theorem rewritten_of_isLeaf (hv : v.IsLeaf) : v.Rewritten L w ↔ L v w := by
  cases v <;> first | exact Iff.rfl | exact hv.elim

/-- What holds of the leaves holds of the value. -/
theorem Rewritten.imp (h : v.Rewritten L w) (hL : ∀ u ∈ v.leaves, ∀ u', L u u' → L' u u') : v.Rewritten L' w := by
  induction v using operands_induct generalizing w with
  | const | net | sample | initial => exact hL _ (mem_singleton_self _) w h
  | compound v hv ih =>
    obtain ⟨hlike, hops⟩ := (rewritten_iff hv).mp h
    refine (rewritten_iff hv).mpr ⟨hlike, (forall₂_mem hops).imp ?_⟩
    rintro c c' ⟨hc, hcc⟩
    exact ih c hc hcc fun u hu => hL u ((mem_leaves_iff hv).mpr ⟨c, hc, hu⟩)

/-- Where leaves become leaves, those of the new value stand for those of the old one by one. -/
theorem Rewritten.leaves (hL : ∀ {x y}, L x y → x.IsLeaf → y.IsLeaf) (h : v.Rewritten L w) :
    List.Forall₂ L v.leaves w.leaves := by
  induction v using operands_induct generalizing w with
  | const | net | sample | initial =>
    rw [leaves_of_isLeaf (hL h trivial)]
    exact .cons h .nil
  | compound v hv ih =>
    obtain ⟨hlike, hops⟩ := (rewritten_iff hv).mp h
    rw [leaves_eq_flatMap hv, leaves_eq_flatMap hlike.not_isLeaf]
    exact rel_flatMap (forall₂_mem hops) fun c c' ⟨hc, hcc⟩ => ih c hc hcc

theorem written_of_isLeaf (h : v.IsLeaf) : v.written = [v] := by
  cases v <;> first | rfl | exact h.elim

/-- Where the leaves that a value writes become leaves, those that the new value writes stand for them one by one. -/
theorem Rewritten.written (h : v.Rewritten L w) (hL : ∀ u ∈ v.written, u.IsLeaf → ∀ u', L u u' → u'.IsLeaf) :
    List.Forall₂ (Rewritten L) v.written w.written := by
  have hlist : ∀ {vs ws : List Value}, (∀ v ∈ vs, ∀ {w}, v.Rewritten L w →
      (∀ u ∈ v.written, u.IsLeaf → ∀ u', L u u' → u'.IsLeaf) → List.Forall₂ (Rewritten L) v.written w.written) →
      RewrittenAll L vs ws → (∀ u ∈ writtenAll vs, u.IsLeaf → ∀ u', L u u' → u'.IsLeaf) →
      List.Forall₂ (Rewritten L) (writtenAll vs) (writtenAll ws) := by
    intro vs ws ih h hL
    induction vs generalizing ws with
    | nil =>
      cases h
      exact .nil
    | cons v vs ihvs =>
      obtain ⟨w, ws', rfl, hv, hvs⟩ := h
      obtain ⟨ihv, ihrest⟩ := forall_mem_cons.mp ih
      obtain ⟨hLv, hLrest⟩ := forall_mem_append.mp hL
      exact rel_append (ihv hv hLv) (ihvs ihrest hvs hLrest)
  have hself : ∀ {v w : Value}, v.written = [v] → w.written = [w] → v.Rewritten L w →
      List.Forall₂ (Rewritten L) v.written w.written := by
    intro v w hv hw hvw
    rw [hv, hw]
    exact .cons hvw .nil
  induction v generalizing w with
  | const | net | sample | initial =>
    exact hself rfl (written_of_isLeaf (hL _ (mem_singleton_self _) trivial w h)) h
  | unary | binary | mux | repl =>
    obtain ⟨hlike, -⟩ := (rewritten_iff id).mp h
    cases hlike
    exact hself rfl rfl h
  | slice v i j ih =>
    obtain ⟨v', rfl, hv⟩ := h
    exact ih (w := v') hv hL
  | part v offset width stride ih =>
    obtain ⟨v', o', rfl, hv, -⟩ := h
    exact ih (w := v') hv hL
  | cat parts ih =>
    obtain ⟨parts', rfl, hparts⟩ := h
    exact hlist (fun v hv => ih v hv) hparts hL
  | proxy elems index ih =>
    obtain ⟨elems', index', rfl, helems, -⟩ := h
    exact hlist (fun v hv => ih v hv) helems hL

end Value

namespace Statement

variable {w : Value} {xs : List Statement} {x y : Statement}
variable {ys : List Statement} {R : Value → Value → Prop}

mutual

/-- The leaves that a statement writes. A property writes its check and its enable signal. -/
def written : Statement → List Value
  | .assign lhs _ => lhs.written
  | .switch _ arms => armsWritten arms
  | .property _ _ check enable => [.signal check, .signal enable]

def bodyWritten : List Statement → List Value
  | [] => []
  | x :: rest => written x ++ bodyWritten rest

def armsWritten : List (List String × List Statement) → List Value
  | [] => []
  | (_, body) :: rest => bodyWritten body ++ armsWritten rest

end

theorem mem_bodyWritten : w ∈ bodyWritten xs ↔ ∃ x ∈ xs, w ∈ x.written := by
  induction xs with
  | nil => simp [bodyWritten]
  | cons x xs ih => simp [bodyWritten, ih]

theorem mem_armsWritten {arms : List Arm} : w ∈ armsWritten arms ↔ ∃ a ∈ arms, ∃ x ∈ a.2, w ∈ x.written := by
  induction arms with
  | nil => simp [armsWritten]
  | cons a arms ih => simp [armsWritten, ih, mem_bodyWritten]

mutual

/-- The second statement has the form of the first, with values rewritten by `L`. -/
def Rewritten (L : Value → Value → Prop) : Statement → Statement → Prop
  | .assign lhs rhs, y => ∃ lhs' rhs', y = .assign lhs' rhs' ∧ lhs.Rewritten L lhs' ∧ rhs.Rewritten L rhs'
  | .switch test arms, y => ∃ test' arms', y = .switch test' arms' ∧ test.Rewritten L test' ∧ ArmsRewritten L arms arms'
  | .property kind test check enable, y => ∃ test', y = .property kind test' check enable ∧ test.Rewritten L test'

def BodyRewritten (L : Value → Value → Prop) : List Statement → List Statement → Prop
  | [], ys => ys = []
  | x :: xs, ys => ∃ y ys', ys = y :: ys' ∧ Rewritten L x y ∧ BodyRewritten L xs ys'

def ArmsRewritten (L : Value → Value → Prop) :
    List (List String × List Statement) → List (List String × List Statement) → Prop
  | [], bs => bs = []
  | (patterns, body) :: as, bs =>
    ∃ body' bs', bs = (patterns, body') :: bs' ∧ BodyRewritten L body body' ∧ ArmsRewritten L as bs'

end

variable {L L' : Value → Value → Prop}

theorem bodyRewritten_iff : BodyRewritten L xs ys ↔ List.Forall₂ (Rewritten L) xs ys := by
  induction xs generalizing ys with
  | nil =>
    rw [BodyRewritten]
    exact forall₂_nil_left_iff.symm
  | cons x xs ih =>
    rw [BodyRewritten, forall₂_cons_left_iff]
    constructor
    · rintro ⟨y, ys', rfl, hx, hxs⟩
      exact ⟨y, ys', hx, ih.mp hxs, rfl⟩
    · rintro ⟨y, ys', hx, hxs, rfl⟩
      exact ⟨y, ys', rfl, hx, ih.mpr hxs⟩

theorem armsRewritten_iff : ArmsRewritten L as bs ↔
    List.Forall₂ (fun a b => b.1 = a.1 ∧ List.Forall₂ (Rewritten L) a.2 b.2) as bs := by
  induction as generalizing bs with
  | nil =>
    rw [ArmsRewritten]
    exact forall₂_nil_left_iff.symm
  | cons a as ih =>
    obtain ⟨patterns, body⟩ := a
    rw [ArmsRewritten, forall₂_cons_left_iff]
    constructor
    · rintro ⟨body', bs', rfl, hbody, has⟩
      exact ⟨(patterns, body'), bs', ⟨rfl, bodyRewritten_iff.mp hbody⟩, ih.mp has, rfl⟩
    · rintro ⟨⟨_, body'⟩, bs', ⟨rfl, hbody⟩, has, rfl⟩
      exact ⟨body', bs', rfl, bodyRewritten_iff.mpr hbody, ih.mpr has⟩

theorem Rewritten.imp (h : x.Rewritten L y) (hL : ∀ v ∈ x.values, ∀ u ∈ v.leaves, ∀ u', L u u' → L' u u') :
    x.Rewritten L' y := by
  induction x generalizing y with
  | assign lhs rhs =>
    obtain ⟨lhs', rhs', rfl, hl, hr⟩ := h
    exact ⟨lhs', rhs', rfl, hl.imp (hL lhs (by simp [values])), hr.imp (hL rhs (by simp [values]))⟩
  | switch test arms ih =>
    obtain ⟨test', arms', rfl, htest, harms⟩ := h
    refine ⟨test', arms', rfl, htest.imp (hL test (by simp [values])), armsRewritten_iff.mpr ?_⟩
    refine (forall₂_mem (armsRewritten_iff.mp harms)).imp ?_
    rintro a b ⟨ha, hpatterns, hbody⟩
    refine ⟨hpatterns, (forall₂_mem hbody).imp ?_⟩
    rintro x y ⟨hx, hxy⟩
    refine ih a ha x hx hxy fun v hv => hL v ?_
    exact mem_cons_of_mem _ (mem_armsValues.mpr ⟨a, ha, x, hx, hv⟩)
  | property kind test =>
    obtain ⟨test', rfl, htest⟩ := h
    exact ⟨test', rfl, htest.imp (hL test (by simp [values]))⟩

/-- The values of the new statement are the old ones, rewritten. -/
theorem Rewritten.mem_values (h : x.Rewritten L y) (hw : w ∈ y.values) : ∃ v ∈ x.values, v.Rewritten L w := by
  induction x generalizing y with
  | assign lhs rhs =>
    obtain ⟨lhs', rhs', rfl, hl, hr⟩ := h
    simp only [values, mem_cons, not_mem_nil, or_false] at hw
    rcases hw with rfl | rfl
    · exact ⟨lhs, by simp [values], hl⟩
    · exact ⟨rhs, by simp [values], hr⟩
  | switch test arms ih =>
    obtain ⟨test', arms', rfl, htest, harms⟩ := h
    rcases mem_cons.mp hw with rfl | hw
    · exact ⟨test, by simp [values], htest⟩
    · obtain ⟨b, hb, y, hy, hw⟩ := mem_armsValues.mp hw
      obtain ⟨a, ha, -, hbody⟩ := forall₂_mem_right (armsRewritten_iff.mp harms) hb
      obtain ⟨x, hx, hxy⟩ := forall₂_mem_right hbody hy
      obtain ⟨v, hv, hvw⟩ := ih a ha x hx hxy hw
      exact ⟨v, mem_cons_of_mem _ (mem_armsValues.mpr ⟨a, ha, x, hx, hv⟩), hvw⟩
  | property kind test =>
    obtain ⟨test', rfl, htest⟩ := h
    obtain rfl := mem_singleton.mp hw
    exact ⟨test, by simp [values], htest⟩

theorem forall₂_bodyWritten (h : List.Forall₂ (fun x y => List.Forall₂ R x.written y.written) xs ys) :
    List.Forall₂ R (bodyWritten xs) (bodyWritten ys) := by
  induction h with
  | nil => exact .nil
  | cons hx _ ih => exact rel_append hx ih

theorem forall₂_armsWritten
    (h : List.Forall₂ (fun a b => List.Forall₂ (fun x y => List.Forall₂ R x.written y.written) a.2 b.2) as bs) :
    List.Forall₂ R (armsWritten as) (armsWritten bs) := by
  induction h with
  | nil => exact .nil
  | cons ha _ ih => exact rel_append (forall₂_bodyWritten ha) ih

/-- What the new statement writes stands for what the old one writes, place by place. The signals of a property are not
rewritten. -/
theorem Rewritten.written (h : x.Rewritten L y) (hL : ∀ u ∈ x.written, u.IsLeaf → ∀ u', L u u' → u'.IsLeaf) :
    List.Forall₂ (fun u u' => (∃ id, u = .signal id ∧ u' = u) ∨ u.Rewritten L u') x.written y.written := by
  induction x generalizing y with
  | assign =>
    obtain ⟨lhs', rhs', rfl, hl, -⟩ := h
    exact (hl.written hL).imp fun _ _ => Or.inr
  | switch test arms ih =>
    obtain ⟨test', arms', rfl, -, harms⟩ := h
    refine forall₂_armsWritten
      ((forall₂_mem (armsRewritten_iff.mp harms)).imp ?_)
    rintro a b ⟨ha, -, hbody⟩
    refine (forall₂_mem hbody).imp ?_
    rintro x y ⟨hx, hxy⟩
    exact ih a ha x hx hxy fun u hu => hL u (mem_armsWritten.mpr ⟨a, ha, x, hx, hu⟩)
  | property kind test check enable =>
    obtain ⟨test', rfl, -⟩ := h
    exact .cons (Or.inl ⟨check, rfl, rfl⟩) (.cons (Or.inl ⟨enable, rfl, rfl⟩) .nil)

/-- A signal that the new statement writes is written by the old one, or stands for a leaf that is. -/
theorem Rewritten.mem_written (hL : ∀ {x y}, L x y → x.IsLeaf → y.IsLeaf) (h : x.Rewritten L y) {u' : Value}
    (hu' : u' ∈ y.written) : u' ∈ x.written ∨ ∃ u ∈ x.written, u.Rewritten L u' := by
  obtain ⟨u, hu, ⟨id, -, rfl⟩ | hx⟩ := forall₂_mem_right (h.written fun _ _ hleaf _ hu => hL hu hleaf) hu'
  · exact Or.inl hu
  · exact Or.inr ⟨u, hu, hx⟩

end Statement

/-- The second cell has the type and the parameters of the first, and its ports with values rewritten by `L`. -/
structure Instance.Rewritten (L : Value → Value → Prop) (i i' : Instance) : Prop where
  cell : i'.cell = i.cell
  params : i'.params = i.params
  ports : List.Forall₂ (fun x x' => x'.name = x.name ∧ x'.dir = x.dir ∧ x.value.Rewritten L x'.value) i.ports i'.ports

/-- The leaves that a port of a cell writes: those of what it is bound to, unless it is an input. -/
def Binding.written (x : Binding) : List Value :=
  match x.dir with
  | .input => []
  | .output | .inout => x.value.written

namespace Body

variable {L : Value → Value → Prop} {b b' : Body}

/-- The values of a body: those of its statements and those bound to the ports of its cell. -/
def values (b : Body) : List Value :=
  Statement.bodyValues b.statements ++ b.cell.toList.flatMap fun i => i.ports.map Binding.value

/-- The leaves that a body writes, in its statements and through the ports of its cell. -/
def written (b : Body) : List Value :=
  Statement.bodyWritten b.statements ++ b.cell.toList.flatMap fun i => i.ports.flatMap Binding.written

/-- The second body has the statements and the cell of the first with values rewritten by `L`, and its mark. -/
structure Rewritten (L : Value → Value → Prop) (b b' : Body) : Prop where
  statements : Statement.BodyRewritten L b.statements b'.statements
  cell : Option.Rel (Instance.Rewritten L) b.cell b'.cell
  flatten : b'.flatten = b.flatten

theorem Rewritten.imp {L' : Value → Value → Prop} (h : b.Rewritten L b') (hL : ∀ u u', L u u' → L' u u') :
    b.Rewritten L' b' where
  statements := Statement.bodyRewritten_iff.mpr
    ((Statement.bodyRewritten_iff.mp h.statements).imp fun _ _ hx => hx.imp fun _ _ u _ u' => hL u u')
  cell := by
    have hcell := h.cell
    revert hcell
    generalize b.cell = c
    generalize b'.cell = c'
    rintro (hi | -)
    · refine .some ⟨hi.cell, hi.params, hi.ports.imp ?_⟩
      rintro x x' ⟨hname, hdir, hx⟩
      exact ⟨hname, hdir, hx.imp fun u _ u' => hL u u'⟩
    · exact .none
  flatten := h.flatten

/-- The values of the new body are the old ones, rewritten. -/
theorem Rewritten.mem_values (h : b.Rewritten L b') (hw : w ∈ b'.values) : ∃ v ∈ b.values, v.Rewritten L w := by
  rcases mem_append.mp hw with hw | hw
  · obtain ⟨y, hy, hw⟩ := Statement.mem_bodyValues.mp hw
    obtain ⟨x, hx, hxy⟩ := forall₂_mem_right (Statement.bodyRewritten_iff.mp h.statements) hy
    obtain ⟨v, hv, hvw⟩ := hxy.mem_values hw
    exact ⟨v, mem_append_left _ (Statement.mem_bodyValues.mpr ⟨x, hx, hv⟩), hvw⟩
  · obtain ⟨i', hi', hw⟩ := mem_flatMap.mp hw
    obtain ⟨x', hx', rfl⟩ := mem_map.mp hw
    have hcell := h.cell
    rw [Option.mem_toList.mp hi'] at hcell
    obtain ⟨i, hi, hii⟩ : ∃ i, b.cell = some i ∧ i.Rewritten L i' := by
      revert hcell
      generalize b.cell = c
      rintro (hr | -)
      exact ⟨_, rfl, hr⟩
    obtain ⟨x, hx, -, -, hv⟩ := forall₂_mem_right hii.ports hx'
    refine ⟨x.value, mem_append_right _ (mem_flatMap.mpr ⟨i, Option.mem_toList.mpr hi, ?_⟩), hv⟩
    exact mem_map_of_mem hx

/-- What the new body writes stands for what the old one writes, place by place. -/
theorem Rewritten.written (h : b.Rewritten L b') (hL : ∀ u ∈ b.written, u.IsLeaf → ∀ u', L u u' → u'.IsLeaf) :
    List.Forall₂ (fun u u' => (∃ id, u = .signal id ∧ u' = u) ∨ u.Rewritten L u') b.written b'.written := by
  obtain ⟨hLstatements, hLcell⟩ := forall_mem_append.mp hL
  refine rel_append (Statement.forall₂_bodyWritten ?_) ?_
  · refine (forall₂_mem (Statement.bodyRewritten_iff.mp h.statements)).imp ?_
    rintro x y ⟨hx, hxy⟩
    exact hxy.written fun u hu => hLstatements u (Statement.mem_bodyWritten.mpr ⟨x, hx, hu⟩)
  · have hcell := h.cell
    revert hcell hLcell
    generalize b.cell = c
    generalize b'.cell = c'
    rintro hLcell (hi | -)
    · rename_i i i'
      change ∀ u ∈ i.ports.flatMap Binding.written ++ [], u.IsLeaf → ∀ u', L u u' → u'.IsLeaf at hLcell
      change List.Forall₂ _ (i.ports.flatMap Binding.written ++ []) (i'.ports.flatMap Binding.written ++ [])
      rw [append_nil] at hLcell ⊢
      rw [append_nil]
      refine rel_flatMap (forall₂_mem hi.ports) ?_
      rintro x x' ⟨hx, -, hdir, hvalue⟩
      have hLx : ∀ u ∈ x.written, u.IsLeaf → ∀ u', L u u' → u'.IsLeaf := fun u hu =>
        hLcell u (mem_flatMap.mpr ⟨x, hx, hu⟩)
      unfold Binding.written at hLx ⊢
      rw [hdir]
      cases hd : x.dir with
      | input => exact .nil
      | output | inout =>
        rw [hd] at hLx
        exact (hvalue.written hLx).imp fun _ _ => Or.inr
    · exact .nil

end Body

section Traversal

variable {m : Type → Type} [Monad m] [MonadExceptOf Failure m] {S : Type} [Outcome m S]
variable {b b' : Body}

/-- What the renewal of each record keeps is kept when a table is copied. -/
theorem traverseDomains_keeps {P : Pass m} {K : Set ClockDomain} {I : S → Prop}
    (hI : ∀ {cd s x t}, cd ∈ K → I s → Gives (P.domain cd) s x t → I t) {cds : List ClockDomain} {s t : S}
    (hcds : ∀ cd ∈ cds, cd ∈ K) (hs : I s) (hg : Gives (Body.traverseDomains P b cds) s b' t) : I t :=
  Body.traverseDomains_induct (M := fun s _ => I s) (fun cd hcd _ _ _ _ _ hs hx _ => hI (hcds cd hcd) hs hx) hs hg

/-- A traversal that only looks at leaves: while `I` holds, each leaf of kind `p` becomes one related to it by `L`, and
what it became stays true as the state moves on along `G`. -/
structure Rewrites (r : Traversal m) (I : S → Prop) (G : S → S → Prop) (p : Value → Prop)
    (L : S → Value → Value → Prop) : Prop where
  refl : ∀ s, G s s
  trans : ∀ {s t u}, G s t → G t u → G s u
  mono : ∀ {s t v v'}, G s t → L s v v' → L t v v'
  arenas : ∀ {s σ t}, Gives r.arenas s σ t → s = t
  statement : ∀ {x s o t}, Gives (r.statement x) s o t → o = none ∧ s = t
  leaf : ∀ {v s o t}, v.IsLeaf → I s → p v → Gives (v.traverse r) s o t → I t ∧ G s t ∧ L t v (o.getD v)

namespace Rewrites

variable {r : Traversal m} {I : S → Prop} {G : S → S → Prop} {p : Value → Prop} {L : S → Value → Value → Prop}
variable {xs ys : List Statement} {s t : S}
variable {P : Pass m}

section

variable (h : Rewrites r I G p L)
include h

/-- A traversal that rewrites leaves rewrites values. -/
theorem lifts :
    Lifts r I G (fun _ v => ∀ u ∈ v.leaves, p u) fun t => Value.Rewritten (L t) where
  refl := h.refl
  trans := h.trans
  before _ hp := hp
  after hG hv := hv.imp fun _ _ _ => h.mono hG
  parts hv hp c hc u hu := hp u ((Value.mem_leaves_iff hv).mpr ⟨c, hc, hu⟩)
  leaf {v s o t} hv hI hp hg := by
    obtain ⟨hI', hG, hL⟩ := h.leaf hv hI (hp v (by rw [Value.leaves_of_isLeaf hv]; exact mem_singleton_self v)) hg
    exact ⟨hI', hG, (Value.rewritten_of_isLeaf hv).mpr hL⟩
  whole hv _ hbs hf hops := (Value.rewritten_iff hv).mpr ⟨(hf.form hv hbs).1, hops⟩
  arenas := h.arenas
  statement := h.statement

theorem forms : Forms G (fun t => Value.Rewritten (L t)) fun t => Statement.Rewritten (L t) where
  after hG hxy := hxy.imp fun _ _ _ _ _ => h.mono hG
  assign hl hr := ⟨_, _, rfl, hl, hr⟩
  switch ht has := ⟨_, _, rfl, ht, Statement.armsRewritten_iff.mpr has⟩
  property ht := ⟨_, rfl, ht⟩

theorem statements (hI : I s) (hp : ∀ x ∈ xs, ∀ v ∈ x.values, ∀ u ∈ v.leaves, p u)
    (hg : Gives (Statement.traverseAll r xs) s ys t) : I t ∧ G s t ∧ Statement.BodyRewritten (L t) xs ys := by
  rw [Statement.bodyRewritten_iff]
  exact h.lifts.statements h.forms hI hp hg

theorem cell {c c' : Option Instance} (hI : I s)
    (hp : ∀ i, c = some i → ∀ x ∈ i.ports, ∀ u ∈ x.value.leaves, p u) (hg : Gives (Body.traverseCell r c) s c' t) :
    I t ∧ G s t ∧ Option.Rel (Instance.Rewritten (L t)) c c' := by
  obtain ⟨hI', hG, ⟨rfl, rfl⟩ | ⟨i, ps, rfl, rfl, hps⟩⟩ := h.lifts.cell hI hp hg
  · exact ⟨hI', hG, .none⟩
  · exact ⟨hI', hG, .some ⟨rfl, rfl, hps⟩⟩

/-- A traversal that rewrites leaves, and leaves nets and domain records alone, rewrites bodies. -/
theorem traverseBody (hdomain : ∀ {cd s cd' t}, Gives (P.domain cd) s cd' t → s = t)
    (hnet : ∀ {n s o t}, Gives (r.net n) s o t → o = none ∧ s = t) (hI : I s)
    (hp : ∀ v ∈ b.values, ∀ u ∈ v.leaves, p u) (hg : Gives (b.traverse P r) s b' t) :
    I t ∧ G s t ∧ b.Rewritten (L t) b' ∧
      ∀ d n, b'.Drives d n ↔ ∃ e ∈ b.driverPairs, P.driverDomain e.1 = d ∧ e.2.key = n.key := by
  obtain ⟨s1, s2, b1, b2, hgd, hgx, -, hgc, -, -, hparts⟩ := Body.traverse_parts (fun hg => (hnet hg).2) hg
  obtain rfl : s = s1 := traverseDomains_keeps (I := (s = ·)) (fun _ hs hg => hs.trans (hdomain hg))
    (fun cd _ => Set.mem_univ cd) rfl hgd
  have hpx : ∀ x ∈ b.statements, ∀ v ∈ x.values, ∀ u ∈ v.leaves, p u := fun x hx v hv =>
    hp v (mem_append_left _ (Statement.mem_bodyValues.mpr ⟨x, hx, hv⟩))
  have hpc : ∀ i, b.cell = some i → ∀ x ∈ i.ports, ∀ u ∈ x.value.leaves, p u := by
    intro i hi x hx
    refine hp x.value (mem_append_right _ (mem_flatMap.mpr ⟨i, Option.mem_toList.mpr hi, ?_⟩))
    exact mem_map_of_mem hx
  obtain ⟨hI2, hG2, hxs⟩ := h.statements hI hpx hgx
  obtain ⟨hI4, hG4, hcell⟩ := h.cell hI2 hpc hgc
  have hlater : Statement.BodyRewritten (L t) b.statements b'.statements :=
    Statement.bodyRewritten_iff.mpr ((Statement.bodyRewritten_iff.mp hxs).imp fun _ _ => h.forms.after hG4)
  refine ⟨hI4, h.trans hG2 hG4, ⟨hlater, hcell, by rw [hparts]⟩, fun d n => ?_⟩
  have hφ : ∀ {n s v t}, Gives ((Value.net n).traversed r) s v t → v.net? = some n := by
    intro n s v t hg
    obtain ⟨o, hgo, rfl⟩ := Value.gives_traversed.mp hg
    rw [Value.traverse] at hgo
    rw [(hnet hgo).1]
    rfl
  rw [(Body.traverse_drivers hφ (fun hg => (hnet hg).2) hg).1 d n]
  simp only [Option.some.injEq, exists_eq_left']

end

/-- A traversal that rewrites leaves whatever it met before, and nets without meeting anything new, rewrites bodies,
whatever it makes of domain records and drivers. -/
theorem rewritten {L : Value → Value → Prop}
    (h : Rewrites r (fun _ : S => True) (fun _ _ => True) (fun _ => True) fun _ => L)
    (hnet : ∀ {n s o t}, Gives (r.net n) s o t → s = t) (hg : Gives (b.traverse P r) s b' t) : b.Rewritten L b' := by
  obtain ⟨s1, s2, b1, b2, -, hgx, -, hgc, -, -, hparts⟩ := Body.traverse_parts hnet hg
  obtain ⟨-, -, hxs⟩ := h.statements trivial (fun _ _ _ _ _ _ => trivial) hgx
  obtain ⟨-, -, hcell⟩ := h.cell trivial (fun _ _ _ _ _ _ => trivial) hgc
  exact ⟨hxs, hcell, by rw [hparts]⟩

end Rewrites
end Traversal
end Rtl
