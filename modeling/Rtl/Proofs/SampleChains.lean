import Mathlib
import Rtl.Fragment.LowerSamples
import Rtl.Proofs.Rewriting
import Rtl.Proofs.SampleKeys

/-!
# The chains of one fragment

While the samples of a fragment are lowered, what was made of each of them is remembered under its key. A sample of a
constant or a signal that is `n + 1` cycles late is remembered as a register, and the register is assigned what the
sample `n` cycles late is remembered as. Each register is assigned by one line, and nothing that is remembered is ever
replaced.
-/
namespace Rtl

open List

namespace Arenas

/-- Every record of the first arenas is one of the second. -/
structure Keeps (σ σ' : Arenas) : Prop where
  size : σ'.list.size = σ.list.size
  get? : ∀ id r, σ.get? id = some r → σ'.get? id = some r

namespace Keeps

variable {σ σ' σ'' : Arenas}
variable {id : SignalId}

theorem refl (σ : Arenas) : σ.Keeps σ := ⟨rfl, fun _ _ => id⟩

theorem trans (h : σ.Keeps σ') (h' : σ'.Keeps σ'') : σ.Keeps σ'' :=
  ⟨h'.size.trans h.size, fun id r hr => h'.get? id r (h.get? id r hr)⟩

theorem issued (h : σ.Keeps σ') (hid : σ.Issued id) : σ'.Issued id := by
  obtain ⟨r, hr⟩ := Option.isSome_iff_exists.mp hid
  exact Option.isSome_iff_exists.mpr ⟨r, h.get? id r hr⟩

theorem get (h : σ.Keeps σ') (hid : σ.Issued id) : σ'.get id = σ.get id := by
  obtain ⟨r, hr⟩ := Option.isSome_iff_exists.mp hid
  unfold Arenas.get
  rw [hr, h.get? id r hr]

theorem toExtends (h : σ.Keeps σ') : σ.Extends σ' := extends_of_get? h.size fun id r hr => ⟨r, h.get? id r hr, rfl⟩

end Keeps

/-- A record is added behind those that are there. -/
theorem push_new (σ : Arenas) (a : Nat) (r : Signal) :
    σ.Keeps (σ.push a r).1 ∧ ¬ σ.Issued (σ.push a r).2 := by
  refine ⟨⟨σ.size_modifyArena a _, ?_⟩, ?_⟩
  · intro id r' hr'
    have hlt := lt_size_of_issued (Option.isSome_iff_exists.mpr ⟨r', hr'⟩)
    unfold get? at hr' ⊢
    split at hr'
    · cases hr'
    · rename_i hn
      rw [if_neg hn]
      unfold push
      rw [arena_modifyArena σ a id.arena _ hlt]
      split
      · have hbound := (Array.getElem?_eq_some_iff.mp hr').1
        rw [Array.getElem?_push, if_neg (by omega)]
        exact hr'
      · exact hr'
  · unfold Issued get? push
    simp [size]

/-- An issued signal is new and has the record that was asked for, its reset value wrapped into its shape. -/
theorem issue_new {σ σ' : Arenas} {a : Nat} {spec : SignalSpec} {id : SignalId} (h : σ.issue a spec = .ok (σ', id))
    (ha : a < σ.list.size) :
    σ.Keeps σ' ∧ ¬ σ.Issued id ∧ σ'.Issued id ∧ (σ'.get id).shape = spec.shape ∧
      (σ'.get id).reset = spec.shape.normalize spec.reset ∧ (σ'.get id).resetless = spec.resetless := by
  obtain ⟨r, hpush, -, hrecord⟩ := issue_inv h
  obtain ⟨hkeeps, hnew⟩ := push_new σ a r
  have hget := get?_push_new ha r
  rw [hpush] at hkeeps hnew hget
  refine ⟨hkeeps, hnew, Option.isSome_iff_exists.mpr ⟨r, hget⟩, ?_⟩
  unfold Arenas.get
  rw [hget]
  exact hrecord

end Arenas

namespace ValueTable

variable {α : Type}
variable {v : Value} {t : ValueTable α}

theorem get?_eq_some {a : α} (h : t.get? v = some a) : ∃ e ∈ t.entries, e.1.key = v.key ∧ e.2 = a := by
  obtain ⟨e, he, rfl⟩ := Option.map_eq_some_iff.mp h
  exact ⟨e, mem_of_find?_eq_some he, by simpa using find?_some he, rfl⟩

theorem entries_set (h : t.get? v = none) (a : α) : (t.set v a).entries = t.entries ++ [(v, a)] := by
  obtain ⟨es⟩ := t
  simp only [get?, Option.map_eq_none_iff, find?_eq_none] at h
  unfold set
  dsimp only
  induction es with
  | nil => rfl
  | cons e es ih =>
    obtain ⟨he, hes⟩ := forall_mem_cons.mp h
    rw [setEntry, if_neg (by simpa using he), ih hes, cons_append]

theorem get?_congr {w : Value} (h : v.key = w.key) : t.get? v = t.get? w := by
  unfold get?
  rw [h]

theorem get?_set (h : t.get? v = none) (w : Value) (a : α) :
    (t.set v a).get? w = if v.key = w.key then some a else t.get? w := by
  rw [get?, entries_set h, find?_append, Option.map_or, ← get?]
  by_cases hw : v.key = w.key
  · rw [← get?_congr hw, h, if_pos hw, find?_cons_of_pos (by simpa using hw)]
    rfl
  · rw [if_neg hw, find?_cons_of_neg (by simpa using hw)]
    exact Option.or_none

end ValueTable

/-- A signal has to be issued; references to clocks and resets need nothing. -/
def Net.Issued (σ : Arenas) : Net → Prop
  | .signal id => σ.Issued id
  | .clock _ | .reset _ _ => True

namespace Value

variable {σ σ' : Arenas} {v : Value}

/-- A constant or an issued net. -/
def Plain (σ : Arenas) : Value → Prop
  | .const _ _ => True
  | .net n => n.Issued σ
  | _ => False

/-- A constant, a net, the first-cycle flag, or a sample of one of them. -/
def Timed (σ : Arenas) : Value → Prop
  | .sample v _ _ => v = .initial ∨ v.Plain σ
  | .initial => True
  | v => v.Plain σ

theorem Plain.isLeaf (h : v.Plain σ) : v.IsLeaf := by
  cases v with
  | const | net => trivial
  | _ => exact h.elim

theorem Plain.built (h : v.Plain σ) : v.Built (Plain σ) σ := (built_of_isLeaf h.isLeaf).mpr h

theorem lasting_plain (hx : σ.Extends σ') : Lasting (Plain σ) (Plain σ') σ σ' := by
  intro v _ hv
  cases v with
  | const => exact ⟨trivial, rfl⟩
  | net n =>
    cases n with
    | signal id => exact ⟨hx.issued id hv, hx.shape id hv⟩
    | clock | reset => exact ⟨trivial, rfl⟩
  | _ => exact hv.elim

theorem Plain.mono (h : v.Plain σ) (hx : σ.Extends σ') :
    v.Plain σ' ∧ v.shape σ' = v.shape σ := lasting_plain hx v h.isLeaf h

theorem lasting_timed (hx : σ.Extends σ') : Lasting (Timed σ) (Timed σ') σ σ' := by
  intro v hleaf hv
  cases v with
  | const | net => exact lasting_plain hx _ hleaf hv
  | initial => exact ⟨trivial, rfl⟩
  | sample =>
    rcases hv with rfl | hv
    · exact ⟨Or.inl rfl, rfl⟩
    · obtain ⟨hv', hshape⟩ := hv.mono hx
      exact ⟨Or.inr hv', hshape⟩
  | _ => exact hleaf.elim

theorem isSampled_of_plain (h : v = .initial ∨ v.Plain σ) : v.isSampled = true := by
  rcases h with rfl | h
  · rfl
  · cases v with
    | const | net => rfl
    | _ => exact h.elim

/-- A constant or a net. -/
def IsAtom : Value → Prop
  | .const _ _ => True
  | .net _ => True
  | _ => False

theorem IsAtom.isSampled (h : v.IsAtom) : v.isSampled = true := by
  cases v with
  | const | net => rfl
  | _ => exact h.elim

theorem IsAtom.isLeaf (h : v.IsAtom) : v.IsLeaf := by
  cases v with
  | const | net => trivial
  | _ => exact h.elim

/-- The value that a register for a constant or a signal starts with. -/
def start (σ : Arenas) : Value → Int
  | .const n _ => n
  | .net (.signal id) => (σ.get id).reset
  | _ => 0

end Value

namespace Delays

variable {d : Delays} {t : State}
variable {w : Value} {domain e : String} {r : SignalId} {l : SignalId × Value}

/-- The assignments of registers, domain after domain. -/
def lines (d : Delays) : List (SignalId × Value) := d.chains.flatMap Prod.snd

/-- The register is assigned the value in the chain of the domain. -/
def Line (d : Delays) (domain : String) (r : SignalId) (w : Value) : Prop :=
  ∃ c ∈ d.chains, c.1 = domain ∧ (r, w) ∈ c.2

theorem Line.mem_lines (h : d.Line domain r w) : (r, w) ∈ d.lines := by
  obtain ⟨c, hc, -, hl⟩ := h
  exact mem_flatMap.mpr ⟨c, hc, hl⟩

theorem exists_line (h : l ∈ d.lines) : ∃ domain, d.Line domain l.1 l.2 := by
  obtain ⟨c, hc, hl⟩ := mem_flatMap.mp h
  exact ⟨c.1, c, hc, rfl, hl⟩

theorem exists_addTo {line : SignalId × Value} (chains : List (String × List (SignalId × Value))) :
    (∃ c ∈ addTo domain line chains, c.1 = e ∧ l ∈ c.2) ↔
      (∃ c ∈ chains, c.1 = e ∧ l ∈ c.2) ∨ domain = e ∧ l = line := by
  induction chains with
  | nil => simp [addTo]
  | cons c chains ih =>
    obtain ⟨d, ls⟩ := c
    rw [addTo]
    by_cases hd : d = domain
    · subst hd
      simp only [if_pos, mem_cons, exists_eq_or_imp, mem_append, not_mem_nil, or_false, and_or_left,
        or_assoc]
      exact or_congr_right or_comm
    · rw [if_neg hd]
      simp only [mem_cons, exists_eq_or_imp]
      rw [ih, or_assoc]

theorem lines_addTo_perm (domain : String) (line : SignalId × Value) (chains : List (String × List (SignalId × Value))) :
    ((addTo domain line chains).flatMap Prod.snd).Perm (line :: chains.flatMap Prod.snd) := by
  induction chains with
  | nil => simp [addTo]
  | cons c chains ih =>
    obtain ⟨d, ls⟩ := c
    rw [addTo]
    split
    · simp only [flatMap_cons, append_assoc]
      exact perm_middle
    · simp only [flatMap_cons]
      exact (ih.append_left ls).trans perm_middle

/-- One register is assigned in one domain, by one line. -/
theorem line_unique (hnodup : (d.lines.map Prod.fst).Nodup) {e' : String} {w' : Value} (h : d.Line e r w)
    (h' : d.Line e' r w') : e = e' ∧ w = w' := by
  obtain ⟨c, hc, rfl, hl⟩ := h
  obtain ⟨c', hc', rfl, hl'⟩ := h'
  unfold lines at hnodup
  generalize d.chains = chains at hnodup hc hc'
  induction chains with
  | nil => cases hc
  | cons c0 chains ih =>
    rw [flatMap_cons, map_append, nodup_append] at hnodup
    obtain ⟨hhead, htail, hapart⟩ := hnodup
    have hbelow : ∀ {x : String × List (SignalId × Value)} {v : Value}, x ∈ chains → (r, v) ∈ x.2 →
        r ∈ (chains.flatMap Prod.snd).map Prod.fst := fun hx hv =>
      mem_map.mpr ⟨_, mem_flatMap.mpr ⟨_, hx, hv⟩, rfl⟩
    rcases mem_cons.mp hc with rfl | hin
    · rcases mem_cons.mp hc' with rfl | hin'
      · have hsame := inj_on_of_nodup_map hhead hl hl' rfl
        exact ⟨rfl, (Prod.mk.inj hsame).2⟩
      · exact absurd rfl (hapart r (mem_map.mpr ⟨_, hl, rfl⟩) r (hbelow hin' hl'))
    · rcases mem_cons.mp hc' with rfl | hin'
      · exact absurd rfl (hapart r (mem_map.mpr ⟨_, hl', rfl⟩) r (hbelow hin hl))
      · exact ih htail hin hin'

/-- The record of a register for a constant or a signal: reset-less, with the shape and the reset value of what it
delays. -/
structure RegisterFor (σ : Arenas) (v : Value) (r : Signal) : Prop where
  shape : r.shape = v.shape σ
  reset : r.reset = (v.shape σ).normalize (v.start σ)
  resetless : r.resetless = true

/-- The sample `e.1` was lowered to `e.2`, a plain value of its shape. -/
structure Stands (σ : Arenas) (e : Value × Value) : Prop where
  sample : ∃ v n d, e.1 = .sample v n d
  timed : e.1.Timed σ
  plain : e.2.Plain σ
  shape : e.2.shape σ = e.1.shape σ

theorem Stands.mono {e : Value × Value} (h : Stands σ e) (hx : σ.Extends σ') : Stands σ' e := by
  obtain ⟨v, n, d, he⟩ := h.sample
  have hleaf : e.1.IsLeaf := by rw [he]; trivial
  obtain ⟨htimed, hshape⟩ := Value.lasting_timed hx e.1 hleaf h.timed
  obtain ⟨hplain, hshape'⟩ := h.plain.mono hx
  exact ⟨h.sample, htimed, hplain, by rw [hshape, hshape', h.shape]⟩

theorem shape_eq_of_key {v v' : Value} {n n' : Int} {d d' : String} (hv : (Value.sample v n d).Timed σ)
    (hv' : (Value.sample v' n' d').Timed σ) (h : (Value.sample v n d).key = (Value.sample v' n' d').key) :
    (Value.sample v n d).shape σ = (Value.sample v' n' d').shape σ :=
  Value.shape_eq_of_sample_key (Value.isSampled_of_plain hv) (Value.isSampled_of_plain hv') h σ

/-- What holds while the samples of a fragment are lowered, `base` being the arenas before. Where all signals that are
sampled are issued, what samples were lowered to stands for them. -/
structure Linked (timed : Prop) (a : Nat) (base : Arenas) (s : State) : Prop where
  arena : a < base.list.size
  keeps : base.Keeps s.arenas
  cache : ∀ e ∈ s.delays.cache.entries,
    (∃ v, ∃ n : Nat, ∃ d, e.1 = .sample v n d ∧ v.isSampled = true) ∧ e.2.IsAtom
  now : ∀ {v d out}, v.IsSteady → s.delays.cache.get? (.sample v 0 d) = some out → out = v
  link : ∀ {v} {n : Nat} {d out}, v.IsSteady → s.delays.cache.get? (.sample v (n + 1 : Nat) d) = some out →
    ∃ r prev, out = .signal r ∧ s.delays.cache.get? (.sample v n d) = some prev ∧ s.delays.Line d r prev ∧
      (v.Plain base → RegisterFor base v (s.arenas.get r))
  flag : ∀ {n d out}, s.delays.cache.get? (.sample .initial n d) = some out → s.delays.initial.isSome
  nodup : (s.delays.lines.map Prod.fst).Nodup
  fresh : ∀ {d r w}, s.delays.Line d r w → ¬ base.Issued r ∧ s.arenas.Issued r ∧ d ≠ combDomain
  atom : ∀ {d r w}, s.delays.Line d r w → w.IsAtom
  bit : ∀ {id}, s.delays.initial = some id → ClockDomain.IsBit s.arenas id
  stands : timed → ∀ e ∈ s.delays.cache.entries, Stands s.arenas e
  plain : timed → ∀ {d r w}, s.delays.Line d r w → w.Plain s.arenas

theorem linked_start {timed : Prop} {a : Nat} {σ : Arenas} (ha : a < σ.list.size) : Linked timed a σ ⟨σ, .empty⟩ where
  arena := ha
  keeps := .refl σ
  cache e he := absurd he not_mem_nil
  now _ h := by cases h
  link _ h := by cases h
  flag h := by cases h
  nodup := nodup_nil
  fresh := by
    rintro d r w ⟨c, hc, -⟩
    cases hc
  atom := by
    rintro d r w ⟨c, hc, -⟩
    cases hc
  bit h := by cases h
  stands _ e he := absurd he not_mem_nil
  plain := by
    rintro - d r w ⟨c, hc, -⟩
    cases hc

/-- From one state to a later one nothing is lost, and only new signals are assigned. -/
structure Grows (s t : State) : Prop where
  keeps : s.arenas.Keeps t.arenas
  cache : ∀ {x out}, s.delays.cache.get? x = some out → t.delays.cache.get? x = some out
  lines : ∀ {d r w}, s.delays.Line d r w → t.delays.Line d r w
  recent : ∀ {d r w}, t.delays.Line d r w → s.delays.Line d r w ∨ ¬ s.arenas.Issued r
  initial : ∀ {id}, s.delays.initial = some id → t.delays.initial = some id

namespace Grows

theorem refl (s : State) : Grows s s := ⟨.refl _, id, id, Or.inl, id⟩

theorem trans {s u : State} (h : Grows s t) (h' : Grows t u) : Grows s u where
  keeps := h.keeps.trans h'.keeps
  cache hx := h'.cache (h.cache hx)
  lines hl := h'.lines (h.lines hl)
  recent hl := by
    rcases h'.recent hl with hl | hl
    · exact h.recent hl
    · exact Or.inr fun hissued => hl (h.keeps.issued hissued)
  initial hid := h'.initial (h.initial hid)

end Grows

section Steps

variable {timed : Prop} {a : Nat} {base : Arenas} {s t : State}
variable {o : Option Value} {out v w : Value} {d : String} {σ : Arenas} {r : SignalId}
variable {n : Int} {clocks : Nat} {u : Unit} {s1 : State} {prev x : Value} {domain : String} {spec : SignalSpec}

theorem Linked.get?_inv (hs : Linked timed a base s) (h : s.delays.cache.get? (.sample v n d) = some out) :
    out.IsAtom ∧ ∃ w, ∃ k : Nat, ∃ e, (Value.sample w k e).key = (Value.sample v n d).key ∧ w.isSampled = true := by
  obtain ⟨e, he, hkey, rfl⟩ := ValueTable.get?_eq_some h
  obtain ⟨⟨w, k, d', heq, hw⟩, hatom⟩ := hs.cache e he
  rw [heq] at hkey
  exact ⟨hatom, w, k, d', hkey, hw⟩

/-- What is found for a sample stands for it. -/
theorem Linked.stands_of_get? (hs : Linked timed a base s) (ht : timed) (hv : (Value.sample v n d).Timed s.arenas)
    (h : s.delays.cache.get? (.sample v n d) = some out) :
    out.Plain s.arenas ∧ out.shape s.arenas = v.shape s.arenas := by
  obtain ⟨e, he, hkey, rfl⟩ := ValueTable.get?_eq_some h
  obtain ⟨⟨v', n', d', hsample⟩, htimed, hplain, hshape⟩ := hs.stands ht e he
  rw [hsample] at hkey htimed hshape
  exact ⟨hplain, hshape.trans (shape_eq_of_key htimed hv hkey)⟩

theorem Linked.withArenas (hs : Linked timed a base s) (hk : s.arenas.Keeps σ) :
    Linked timed a base { s with arenas := σ } where
  arena := hs.arena
  keeps := hs.keeps.trans hk
  cache := hs.cache
  now := hs.now
  link hv h := by
    obtain ⟨r, prev, hout, hprev, hline, hreg⟩ := hs.link hv h
    refine ⟨r, prev, hout, hprev, hline, fun hplain => ?_⟩
    rw [hk.get (hs.fresh hline).2.1]
    exact hreg hplain
  flag := hs.flag
  nodup := hs.nodup
  fresh hl := ⟨(hs.fresh hl).1, hk.issued (hs.fresh hl).2.1, (hs.fresh hl).2.2⟩
  atom := hs.atom
  bit hid := (hs.bit hid).mono hk.toExtends
  stands ht e he := (hs.stands ht e he).mono hk.toExtends
  plain ht := fun hl => ((hs.plain ht hl).mono hk.toExtends).1

theorem gives_lookup? (hg : Gives (lookup? x) s o t) : s = t ∧ s.delays.cache.get? x = o := by
  obtain ⟨ho, rfl⟩ := gives_read.mp hg
  exact ⟨rfl, ho⟩

theorem issue_inv {id : SignalId} (hg : Gives (issue a spec) s id t) :
    ∃ σ, s.arenas.issue a spec = .ok (σ, id) ∧ t = { s with arenas := σ } := by
  replace hg := gives_get_bind.mp hg
  obtain ⟨⟨σ, id'⟩, s3, hraise, hg⟩ := gives_bind.mp hg
  obtain ⟨hissue, rfl⟩ := gives_raise.mp hraise
  replace hg := gives_modify_bind.mp hg
  obtain ⟨rfl, rfl⟩ := gives_pure.mp hg
  exact ⟨σ, hissue, rfl⟩

/-- Issuing a signal leaves the delays alone. -/
theorem issue_linked (hs : Linked timed a base s) (hg : Gives (issue a spec) s r t) :
    Linked timed a base t ∧ Grows s t ∧ t.delays = s.delays ∧ ¬ s.arenas.Issued r ∧ t.arenas.Issued r ∧
      (t.arenas.get r).shape = spec.shape ∧ (t.arenas.get r).reset = spec.shape.normalize spec.reset ∧
      (t.arenas.get r).resetless = spec.resetless := by
  obtain ⟨σ, hissue, rfl⟩ := issue_inv hg
  have ha : a < s.arenas.list.size := hs.arena.trans_eq hs.keeps.size.symm
  obtain ⟨hkeeps, hnew, hissued, hrecord⟩ := Arenas.issue_new hissue ha
  exact ⟨hs.withArenas hkeeps, ⟨hkeeps, id, id, Or.inl, id⟩, rfl, hnew, hissued, hrecord⟩

theorem registerSpec_shape (h : registerSpec σ v clocks domain = .ok spec) : spec.shape = v.shape σ := by
  obtain ⟨⟨name, reset⟩, -, h⟩ := except_bind_eq_ok.mp h
  obtain rfl := except_pure_eq_ok.mp h
  cases v with
  | net n => cases n <;> rfl
  | _ => rfl

theorem registerSpec_steady (hv : v.IsSteady) (h : registerSpec σ v clocks domain = .ok spec) :
    spec.reset = v.start σ ∧ spec.resetless = true := by
  obtain ⟨⟨name, reset⟩, horigin, h⟩ := except_bind_eq_ok.mp h
  obtain rfl := except_pure_eq_ok.mp h
  cases v with
  | const =>
    cases horigin
    exact ⟨rfl, rfl⟩
  | net n =>
    cases n with
    | signal =>
      cases horigin
      exact ⟨rfl, rfl⟩
    | clock | reset => exact hv.elim
  | _ => exact hv.elim

/-- What a steady value is in the arenas does not change when they grow. -/
theorem steady_kept {σ' : Arenas} (hk : σ.Keeps σ') (hv : v.IsSteady) (hplain : v.Plain σ) :
    v.shape σ' = v.shape σ ∧ v.start σ' = v.start σ := by
  cases v with
  | const => exact ⟨rfl, rfl⟩
  | net n =>
    cases n with
    | signal =>
      have hget := hk.get hplain
      exact ⟨congrArg Signal.shape hget, congrArg Signal.reset hget⟩
    | clock | reset => exact hv.elim
  | _ => exact hv.elim

/-- A new register: nothing is assigned to it yet. -/
theorem register_linked (hs : Linked timed a base s) (hg : Gives (register a v clocks domain) s r t) :
    Linked timed a base t ∧ Grows s t ∧ t.delays = s.delays ∧ ¬ s.arenas.Issued r ∧ t.arenas.Issued r ∧
      t.arenas.shape r = v.shape s.arenas ∧ (v.IsSteady → v.Plain base → RegisterFor base v (t.arenas.get r)) := by
  replace hg := gives_get_bind.mp hg
  obtain ⟨spec, s3, hraise, hg⟩ := gives_bind.mp hg
  obtain ⟨hspec, rfl⟩ := gives_ofExcept.mp hraise
  obtain ⟨ht, hgrows, hdelays, hnew, hissued, hshape, hreset, hresetless⟩ := issue_linked hs hg
  refine ⟨ht, hgrows, hdelays, hnew, hissued, hshape.trans (registerSpec_shape hspec), fun hv hplain => ?_⟩
  obtain ⟨hstart, hless⟩ := registerSpec_steady hv hspec
  obtain ⟨hshape', hstart'⟩ := steady_kept hs.keeps hv hplain
  have hspecShape : spec.shape = v.shape base := (registerSpec_shape hspec).trans hshape'
  exact ⟨hshape.trans hspecShape, by rw [hreset, hspecShape, hstart, hstart'], hresetless.trans hless⟩

/-- A sample is remembered for the first time. What it is remembered as has to be right for a sample of a constant or
a signal, and a sample of the flag needs the flag. -/
theorem remember_linked {n : Nat} (hs : Linked timed a base s) (hnew : s.delays.cache.get? (.sample v n d) = none)
    (hv : v.isSampled = true) (hout : out.IsAtom) (hnow : v.IsSteady → n = 0 → out = v)
    (hlink : ∀ k, v.IsSteady → n = k + 1 → ∃ r prev, out = .signal r ∧
      s.delays.cache.get? (.sample v k d) = some prev ∧ s.delays.Line d r prev ∧
      (v.Plain base → RegisterFor base v (s.arenas.get r))) (hflag : v = .initial → s.delays.initial.isSome)
    (hstands : timed → Stands s.arenas (.sample v n d, out)) (hg : Gives (remember (.sample v n d) out) s u t) :
    Linked timed a base t ∧ Grows s t ∧ t.arenas = s.arenas ∧ t.delays.cache.get? (.sample v n d) = some out ∧
      ∀ x, x.key ≠ (Value.sample v n d).key → t.delays.cache.get? x = s.delays.cache.get? x := by
  obtain rfl := gives_modify.mp hg
  have hget : ∀ x, (s.delays.cache.set (.sample v n d) out).get? x =
      if (Value.sample v n d).key = x.key then some out else s.delays.cache.get? x :=
    fun x => ValueTable.get?_set hnew x out
  have hother : ∀ x, x.key ≠ (Value.sample v n d).key →
      (s.delays.cache.set (.sample v n d) out).get? x = s.delays.cache.get? x := by
    intro x hx
    rw [hget, if_neg fun h => hx h.symm]
  have hsame : (s.delays.cache.set (.sample v n d) out).get? (.sample v n d) = some out := by rw [hget, if_pos rfl]
  have hgrows : ∀ {x out'}, s.delays.cache.get? x = some out' →
      (s.delays.cache.set (.sample v n d) out).get? x = some out' := by
    intro x out' hx
    rw [hother x, hx]
    intro hkey
    rw [ValueTable.get?_congr hkey, hnew] at hx
    cases hx
  have hentries : (s.delays.cache.set (.sample v n d) out).entries = s.delays.cache.entries ++ [(.sample v n d, out)] :=
    ValueTable.entries_set hnew out
  refine ⟨⟨hs.arena, hs.keeps, ?_, ?_, ?_, ?_, hs.nodup, hs.fresh, hs.atom, hs.bit, fun ht => ?_, hs.plain⟩,
    ⟨.refl _, hgrows, id, Or.inl, id⟩, rfl, hsame, hother⟩
  · rw [hentries, forall_mem_append, forall_mem_singleton]
    exact ⟨hs.cache, ⟨v, n, d, rfl, hv⟩, hout⟩
  · intro w e out' hw h
    change (s.delays.cache.set (.sample v n d) out).get? _ = _ at h
    rw [hget] at h
    split at h
    · rename_i hkey
      obtain ⟨rfl, hn, rfl⟩ := hw.eq_of_sample_key hkey.symm
      cases h
      exact hnow hw (by exact_mod_cast hn)
    · exact hs.now hw h
  · intro w k e out' hw h
    change (s.delays.cache.set (.sample v n d) out).get? _ = _ at h
    rw [hget] at h
    split at h
    · rename_i hkey
      obtain ⟨rfl, hn, rfl⟩ := hw.eq_of_sample_key hkey.symm
      cases h
      obtain ⟨r, prev, hout, hprev, hline⟩ := hlink k hw (by exact_mod_cast hn)
      exact ⟨r, prev, hout, hgrows hprev, hline⟩
    · obtain ⟨r, prev, hout, hprev, hline⟩ := hs.link hw h
      exact ⟨r, prev, hout, hgrows hprev, hline⟩
  · intro k e out' h
    change (s.delays.cache.set (.sample v n d) out).get? _ = _ at h
    rw [hget] at h
    split at h
    · rename_i hkey
      exact hflag (Value.eq_of_initial_key (Value.sample_key_append hkey.symm))
    · exact hs.flag h
  · rw [hentries, forall_mem_append, forall_mem_singleton]
    exact ⟨hs.stands ht, hstands ht⟩

/-- The line of a register that has none yet. -/
theorem addLine_linked (hs : Linked timed a base s) (hr : ∀ d x, ¬ s.delays.Line d r x) (hnew : ¬ base.Issued r)
    (hissued : s.arenas.Issued r) (hd : domain ≠ combDomain) (hw : w.IsAtom) (hplain : timed → w.Plain s.arenas)
    (hg : Gives (addLine domain r w) s u t) :
    Linked timed a base t ∧ t.arenas = s.arenas ∧ t.delays.cache = s.delays.cache ∧ t.delays.initial = s.delays.initial ∧
      ∀ d r' w', t.delays.Line d r' w' ↔ s.delays.Line d r' w' ∨ domain = d ∧ (r', w') = (r, w) := by
  obtain rfl := gives_modify.mp hg
  have hline : ∀ d r' w', Line { s.delays with chains := addTo domain (r, w) s.delays.chains } d r' w' ↔
      s.delays.Line d r' w' ∨ domain = d ∧ (r', w') = (r, w) := fun d r' w' => exists_addTo s.delays.chains
  refine ⟨⟨hs.arena, hs.keeps, hs.cache, hs.now, ?_, hs.flag, ?_, ?_, ?_, hs.bit, hs.stands, fun ht => ?_⟩, rfl, rfl, rfl,
    hline⟩
  · intro v n d out hv h
    obtain ⟨r', prev, hout, hprev, hl, hreg⟩ := hs.link hv h
    exact ⟨r', prev, hout, hprev, (hline _ _ _).mpr (Or.inl hl), hreg⟩
  · have hperm := (lines_addTo_perm domain (r, w) s.delays.chains).map Prod.fst
    refine hperm.nodup_iff.mpr (nodup_cons.mpr ⟨?_, hs.nodup⟩)
    intro hmem
    obtain ⟨l, hl, hlr⟩ := mem_map.mp hmem
    obtain ⟨d, hl⟩ := exists_line (d := s.delays) hl
    exact hr d l.2 (by rw [← show l.1 = r from hlr]; exact hl)
  · intro d r' w' hl
    rcases (hline _ _ _).mp hl with hl | ⟨rfl, hrw⟩
    · exact hs.fresh hl
    · cases hrw
      exact ⟨hnew, hissued, hd⟩
  · intro d r' w' hl
    rcases (hline _ _ _).mp hl with hl | ⟨rfl, hrw⟩
    · exact hs.atom hl
    · cases hrw
      exact hw
  · intro d r' w' hl
    rcases (hline _ _ _).mp hl with hl | ⟨rfl, hrw⟩
    · exact hs.plain ht hl
    · cases hrw
      exact hplain ht

/-- A register takes over what a sample was remembered as, and is remembered in turn. -/
theorem chain_linked {n : Nat} (hs : Linked timed a base s)
    (habsent : s.delays.cache.get? (.sample v (n + 1 : Nat) d) = none) (hv : v.isSampled = true)
    (hr : ∀ e x, ¬ s.delays.Line e r x) (hnew : ¬ base.Issued r) (hissued : s.arenas.Issued r) (hd : d ≠ combDomain)
    (hprev : prev.IsAtom) (hsteady : v.IsSteady → s.delays.cache.get? (.sample v n d) = some prev ∧
      (v.Plain base → RegisterFor base v (s.arenas.get r))) (hflag : v = .initial → s.delays.initial.isSome)
    (htimed : timed → (v = .initial ∨ v.Plain s.arenas) ∧ prev.Plain s.arenas)
    (hshape : timed → s.arenas.shape r = v.shape s.arenas)
    (hg : Gives (chain (.sample v (n + 1 : Nat) d) d r prev) s out t) :
    Linked timed a base t ∧ t.arenas = s.arenas ∧ out = .signal r ∧
      t.delays.cache.get? (.sample v (n + 1 : Nat) d) = some out ∧
      (∀ x, x.key ≠ (Value.sample v (n + 1 : Nat) d).key → t.delays.cache.get? x = s.delays.cache.get? x) ∧
      t.delays.initial = s.delays.initial ∧
      ∀ e r' w', t.delays.Line e r' w' ↔ s.delays.Line e r' w' ∨ d = e ∧ (r', w') = (r, prev) := by
  obtain ⟨u, s1, hline, hg⟩ := gives_bind.mp hg
  obtain ⟨u', s2, hmem, hg⟩ := gives_bind.mp hg
  obtain ⟨rfl, rfl⟩ := gives_pure.mp hg
  obtain ⟨hs1, harenas, hcache, hinit, hlines⟩ := addLine_linked hs hr hnew hissued hd hprev
    (fun ht => (htimed ht).2) hline
  have hatom : (Value.signal r).IsAtom := trivial
  have hstep := remember_linked hs1 (by rw [hcache]; exact habsent) hv hatom
    (fun _ h => absurd h (Nat.succ_ne_zero n)) ?_ (fun h => by rw [hinit]; exact hflag h) ?_ hmem
  · obtain ⟨hs2, hgrows, harenas2, hsame, hother⟩ := hstep
    obtain rfl := gives_modify.mp hmem
    refine ⟨hs2, harenas2.trans harenas, rfl, hsame, ?_, hinit, hlines⟩
    intro x hx
    rw [hother x hx, hcache]
  · rintro k hk hnk
    obtain rfl : n = k := by omega
    obtain ⟨hprev, hreg⟩ := hsteady hk
    refine ⟨r, prev, rfl, by rw [hcache]; exact hprev, (hlines _ _ _).mpr (Or.inr ⟨rfl, rfl⟩), ?_⟩
    rw [harenas]
    exact hreg
  · intro ht
    rw [harenas]
    exact ⟨⟨v, _, d, rfl⟩, (htimed ht).1, hissued, hshape ht⟩

/-- Between two states a sample was lowered, or found to be lowered already. -/
structure Settles (timed : Prop) (a : Nat) (base : Arenas) (s t : State) (x out : Value) : Prop where
  linked : Linked timed a base t
  grows : Grows s t
  atom : out.IsAtom
  found : t.delays.cache.get? x = some out

theorem Settles.of_found (hs : Linked timed a base s) (h : s.delays.cache.get? (.sample v n d) = some out) :
    Settles timed a base s s (.sample v n d) out :=
  ⟨hs, .refl s, (hs.get?_inv h).1, h⟩

theorem Settles.after (hg : Grows s s1) (h : Settles timed a base s1 t x out) :
    Settles timed a base s t x out := ⟨h.linked, hg.trans h.grows, h.atom, h.found⟩

/-- A sample with a delay: its register is issued, what it sampled one cycle before is settled, and the two are
chained. The value is traversed between the two samples, which is why `w` stands where `v` was. -/
theorem chained_settles {n : Nat} {s2 : State} (hs : Linked timed a base s) (hv : v.isSampled = true)
    (hd : d ≠ combDomain) (habsent : s.delays.cache.get? (.sample v (n + 1 : Nat) d) = none)
    (hreg : Gives (register a v (n + 1) d) s r s1)
    (hprev : Linked timed a base s1 → Settles timed a base s1 s2 (.sample w n d) prev ∧
      s2.delays.cache.get? (.sample v (n + 1 : Nat) d) = s1.delays.cache.get? (.sample v (n + 1 : Nat) d))
    (hw : v.IsSteady → w = v) (hflag : v = .initial → s.delays.initial.isSome)
    (htimed : timed → (v = .initial ∨ v.Plain s.arenas) ∧ w.Plain s.arenas)
    (hg : Gives (chain (.sample v (n + 1 : Nat) d) d r prev) s2 out t) :
    Settles timed a base s t (.sample v (n + 1 : Nat) d) out ∧
      ∀ x, x.key ≠ (Value.sample v (n + 1 : Nat) d).key → t.delays.cache.get? x = s2.delays.cache.get? x := by
  obtain ⟨hs1, hg1, hdelays, hnew, hissued, hshape, hrecord⟩ := register_linked hs hreg
  obtain ⟨hp, hsame⟩ := hprev hs1
  have hg2 : Grows s s2 := hg1.trans hp.grows
  have habsent2 : s2.delays.cache.get? (.sample v (n + 1 : Nat) d) = none := by rw [hsame, hdelays, habsent]
  have hlineless : ∀ e x, ¬ s2.delays.Line e r x := by
    intro e x hl
    rcases hp.grows.recent hl with hl | hl
    · rw [hdelays] at hl
      exact hnew (hs.fresh hl).2.1
    · exact hl hissued
  have hsteady : v.IsSteady → s2.delays.cache.get? (.sample v n d) = some prev ∧
      (v.Plain base → RegisterFor base v (s2.arenas.get r)) := by
    intro hvs
    refine ⟨hw hvs ▸ hp.found, fun hplain => ?_⟩
    rw [hp.grows.keeps.get hissued]
    exact hrecord hvs hplain
  have hflag2 : v = .initial → s2.delays.initial.isSome := by
    intro hvi
    obtain ⟨id, hid⟩ := Option.isSome_iff_exists.mp (hflag hvi)
    rw [hg2.initial hid]
    rfl
  have hsample : timed → (Value.sample v (n + 1 : Nat) d).Timed s2.arenas ∧ v.shape s2.arenas = v.shape s.arenas :=
    fun ht => Value.lasting_timed hg2.keeps.toExtends (.sample v (n + 1 : Nat) d) trivial (htimed ht).1
  have hplain : timed → prev.Plain s2.arenas := fun ht =>
    (hp.linked.stands_of_get? ht (Or.inr ((htimed ht).2.mono hg2.keeps.toExtends).1) hp.found).1
  have hreg2 : timed → s2.arenas.shape r = v.shape s2.arenas := fun ht => by
    rw [hp.grows.keeps.toExtends.shape r hissued, hshape, (hsample ht).2]
  obtain ⟨ht, harenas, rfl, hfound, hother, hinit, hlines⟩ := chain_linked hp.linked habsent2 hv hlineless
    (fun h => hnew (hs.keeps.issued h)) (hp.grows.keeps.issued hissued) hd hp.atom hsteady hflag2
    (fun ht => ⟨(hsample ht).1, hplain ht⟩) hreg2 hg
  refine ⟨⟨ht, ⟨?_, ?_, ?_, ?_, ?_⟩, trivial, hfound⟩, hother⟩
  · rw [harenas]
    exact hg2.keeps
  · intro x out hx
    rw [hother x, hg2.cache hx]
    intro hkey
    rw [ValueTable.get?_congr hkey, habsent] at hx
    cases hx
  · intro e r' w' hl
    exact (hlines _ _ _).mpr (Or.inl (hg2.lines hl))
  · intro e r' w' hl
    rcases (hlines _ _ _).mp hl with hl | ⟨-, hrw⟩
    · exact hg2.recent hl
    · cases hrw
      exact Or.inr hnew
  · intro id hid
    rw [hinit]
    exact hg2.initial hid

/-- A chain for a constant or a net, whose samples are the only ones it remembers. -/
theorem delay_settles {n : Nat} (hs : Linked timed a base s) (hv : v.IsAtom) (hd : d ≠ combDomain)
    (hplain : timed → v.Plain s.arenas) (hg : Gives (delay a v d n) s out t) :
    Settles timed a base s t (.sample v n d) out ∧
      ∀ x, (∀ k : Nat, k ≤ n → x.key ≠ (Value.sample v k d).key) → t.delays.cache.get? x = s.delays.cache.get? x := by
  have hflag : v = .initial → s.delays.initial.isSome := by
    rintro rfl
    exact hv.elim
  induction n generalizing s out t with
  | zero =>
    rw [delay] at hg
    obtain ⟨o, s1, hlook, hg⟩ := gives_bind.mp hg
    obtain ⟨rfl, hfound⟩ := gives_lookup? hlook
    cases o with
    | some =>
      obtain ⟨rfl, rfl⟩ := gives_pure.mp hg
      exact ⟨.of_found hs hfound, fun _ _ => rfl⟩
    | none =>
      obtain ⟨u, hmem, rfl⟩ := gives_bind_pure.mp hg
      obtain ⟨ht, hgrows, -, hsame, hother⟩ := remember_linked (n := 0) hs hfound hv.isSampled hv (fun _ _ => rfl)
        (fun _ _ h => absurd h.symm (Nat.succ_ne_zero _)) hflag
        (fun ht => ⟨⟨v, _, d, rfl⟩, Or.inr (hplain ht), hplain ht, rfl⟩) hmem
      exact ⟨⟨ht, hgrows, hv, hsame⟩, fun x hx => hother x (hx 0 le_rfl)⟩
  | succ n ih =>
    rw [delay] at hg
    obtain ⟨o, s1, hlook, hg⟩ := gives_bind.mp hg
    obtain ⟨rfl, hfound⟩ := gives_lookup? hlook
    cases o with
    | some =>
      obtain ⟨rfl, rfl⟩ := gives_pure.mp hg
      exact ⟨.of_found hs hfound, fun _ _ => rfl⟩
    | none =>
      obtain ⟨r, s2, hreg, hg⟩ := gives_bind.mp hg
      obtain ⟨prev, s3, hprev, hg⟩ := gives_bind.mp hg
      obtain ⟨hs2, hgrows, hdelays, -⟩ := register_linked hs hreg
      obtain ⟨hp, hothers⟩ := ih hs2 (fun ht => ((hplain ht).mono hgrows.keeps.toExtends).1) hprev
        (fun h => by rw [hdelays]; exact hflag h)
      have hsame := hothers (.sample v (n + 1 : Nat) d) fun k hk hkey => by
        have hkn := Value.clocks_of_sample_key hkey
        omega
      obtain ⟨hset, hother⟩ := chained_settles hs hv.isSampled hd hfound hreg (fun _ => ⟨hp, hsame⟩) (fun _ => rfl)
        hflag (fun ht => ⟨Or.inr (hplain ht), hplain ht⟩) hg
      refine ⟨hset, fun x hx => ?_⟩
      rw [hother x (hx (n + 1) le_rfl), hothers x fun k hk => hx k (by omega), hdelays]

/-- The flag is made once and leaves the samples alone. -/
theorem lowerInitial_linked (hs : Linked timed a base s) (hg : Gives (lowerInitial a) s o t) :
    Linked timed a base t ∧ Grows s t ∧ t.delays.cache = s.delays.cache ∧
      ∃ id, t.delays.initial = some id ∧ o = some (.signal id) := by
  replace hg := gives_get_bind.mp hg
  cases hid : s.delays.initial with
  | some id =>
    rw [hid] at hg
    obtain ⟨rfl, rfl⟩ := gives_pure.mp hg
    exact ⟨hs, .refl s, rfl, id, hid, rfl⟩
  | none =>
    rw [hid] at hg
    obtain ⟨id, s3, hissue, hg⟩ := gives_bind.mp hg
    replace hg := gives_modify_bind.mp hg
    obtain ⟨rfl, rfl⟩ := gives_pure.mp hg
    obtain ⟨hs3, hgrows, hdelays, -, hissued, hshape, -⟩ := issue_linked hs hissue
    refine ⟨⟨hs3.arena, hs3.keeps, hs3.cache, hs3.now, hs3.link, fun _ => rfl, hs3.nodup, hs3.fresh, hs3.atom, ?_,
      hs3.stands, hs3.plain⟩, ⟨hgrows.keeps, hgrows.cache, hgrows.lines, hgrows.recent, ?_⟩, by rw [hdelays], id, rfl, rfl⟩
    · rintro id' hid'
      cases hid'
      exact ⟨hissued, hshape⟩
    · intro id' hid'
      rw [hid] at hid'
      cases hid'

/-- What a sample samples, traversed: a constant or a net stays, the flag becomes its signal. -/
structure Inner (timed : Prop) (a : Nat) (base : Arenas) (s t : State) (v w : Value) : Prop where
  linked : Linked timed a base t
  grows : Grows s t
  cache : t.delays.cache = s.delays.cache
  value : v.IsAtom ∧ w = v ∨ v = .initial ∧ ∃ id, t.delays.initial = some id ∧ w = .signal id

theorem inner_traversed (hs : Linked timed a base s) (hv : v.isSampled = true) (hg : Gives (v.traverse (traversal a)) s o t) :
    Inner timed a base s t v (o.getD v) := by
  cases v with
  | const | net =>
    rw [Value.traverse] at hg
    obtain ⟨rfl, rfl⟩ := gives_pure.mp hg
    exact ⟨hs, .refl s, rfl, Or.inl ⟨trivial, rfl⟩⟩
  | initial =>
    rw [Value.traverse] at hg
    obtain ⟨ht, hgrows, hcache, id, hid, rfl⟩ := lowerInitial_linked hs hg
    exact ⟨ht, hgrows, hcache, Or.inr ⟨rfl, id, hid, rfl⟩⟩
  | _ => cases hv

theorem mkSample_inv (h : Value.mkSample σ v n d = .ok w) : 0 ≤ n ∧ d ≠ combDomain := by
  unfold Value.mkSample at h
  split at h
  · cases h
  · split at h
    · cases h
    · rename_i hn
      split at h
      · cases h
      · rename_i hd
        exact ⟨by omega, hd⟩

theorem lowerSample_settles {inner : Run State (Option Value)} (hs : Linked timed a base s) (hv : v.isSampled = true)
    (htimed : timed → v = .initial ∨ v.Plain s.arenas)
    (hinner : ∀ {w t}, Gives inner s w t → Inner timed a base s t v (w.getD v))
    (hg : Gives (lowerSample a v n d inner) s o t) :
    Settles timed a base s t (.sample v n d) (o.getD (.sample v n d)) := by
  rw [lowerSample] at hg
  obtain ⟨found, s1, hlook, hg⟩ := gives_bind.mp hg
  obtain ⟨rfl, hfound⟩ := gives_lookup? hlook
  cases found with
  | some =>
    obtain ⟨rfl, rfl⟩ := gives_pure.mp hg
    exact .of_found hs hfound
  | none =>
    obtain ⟨o', s2, hw, hg⟩ := gives_bind.mp hg
    obtain ⟨hs2, hgrows, hcache, hvalue⟩ := hinner hw
    dsimp only at hg
    generalize o'.getD v = w at hg hvalue
    have habsent : s2.delays.cache.get? (.sample v n d) = none := by rw [hcache, hfound]
    have hatom : w.IsAtom := by
      rcases hvalue with ⟨hv, rfl⟩ | ⟨-, id, -, rfl⟩
      · exact hv
      · trivial
    have hsteady : v.IsSteady → w = v := by
      rintro hvs
      rcases hvalue with ⟨-, hwv⟩ | ⟨rfl, -⟩
      · exact hwv
      · exact hvs.elim
    have hflag : v = .initial → s2.delays.initial.isSome := by
      rintro rfl
      rcases hvalue with ⟨hv, -⟩ | ⟨-, id, hid, -⟩
      · exact hv.elim
      · rw [hid]
        rfl
    have hsample : timed → (Value.sample v n d).Timed s2.arenas := fun ht =>
      (Value.lasting_timed hgrows.keeps.toExtends (.sample v n d) trivial (htimed ht)).1
    have hstands : timed → w.Plain s2.arenas ∧ w.shape s2.arenas = v.shape s2.arenas := by
      intro ht
      rcases hvalue with ⟨hv, rfl⟩ | ⟨rfl, id, hid, rfl⟩
      · rcases htimed ht with rfl | hplain
        · exact hv.elim
        · exact ⟨(hplain.mono hgrows.keeps.toExtends).1, rfl⟩
      · exact hs2.bit hid
    rcases gives_ite.mp hg with ⟨rfl, hg⟩ | ⟨hn, hg⟩
    · obtain ⟨u, hmem, rfl⟩ := gives_bind_pure.mp hg
      obtain ⟨ht, hgrows', -, hsame, -⟩ := remember_linked (n := 0) hs2 habsent hv hatom (fun h _ => hsteady h)
        (fun _ _ h => absurd h.symm (Nat.succ_ne_zero _)) hflag
        (fun ht => ⟨⟨v, _, d, rfl⟩, hsample ht, (hstands ht).1, (hstands ht).2⟩) hmem
      exact .after hgrows ⟨ht, hgrows', hatom, hsame⟩
    · rcases gives_ite.mp hg with ⟨-, hg⟩ | ⟨-, hg⟩
      · obtain ⟨s3, s4, -, hg⟩ := gives_bind.mp hg
        exact absurd hg not_gives_throw
      · obtain ⟨r, s3, hreg, hg⟩ := gives_bind.mp hg
        replace hg := gives_get_bind.mp hg
        obtain ⟨_, hmk, hg⟩ := gives_raise_bind.mp hg
        obtain ⟨prev, s7, hprev, hg⟩ := gives_bind.mp hg
        obtain ⟨out, hchain, rfl⟩ := gives_bind_pure.mp hg
        obtain ⟨hn', hd⟩ := mkSample_inv hmk
        obtain ⟨k, rfl⟩ : ∃ k : Nat, n = (k + 1 : Nat) := ⟨(n - 1).toNat, by omega⟩
        refine .after hgrows (chained_settles hs2 hv hd habsent hreg (fun hs3 => ?_) hsteady hflag
          (fun ht => ⟨hsample ht, (hstands ht).1⟩) hchain).1
        have hgrows3 := (register_linked hs2 hreg).2.1
        obtain ⟨hset, hother⟩ := delay_settles hs3 hatom hd
          (fun ht => ((hstands ht).1.mono hgrows3.keeps.toExtends).1) hprev
        refine ⟨hset, hother _ fun j hj hkey => ?_⟩
        rcases hvalue with ⟨-, rfl⟩ | ⟨rfl, id, -, rfl⟩
        · have hjk := Value.clocks_of_sample_key hkey
          omega
        · -- The flag and its signal are sampled under different keys.
          have hsame := (Value.IsSteady.eq_of_sample_key (v := .signal id) trivial hkey.symm).1
          exact absurd hsame (by simp [Value.signal])

/-- What a leaf has become by the time the state is `t`. -/
def Became (t : State) : Value → Value → Prop
  | .sample v n d, w => w.IsAtom ∧ t.delays.cache.get? (.sample v n d) = some w
  | .initial, w => ∃ id, t.delays.initial = some id ∧ w = .signal id
  | v, w => w = v

theorem Became.isLeaf (h : Became t v w) (hv : v.IsLeaf) : w.IsLeaf := by
  cases v with
  | const | net =>
    obtain rfl := h
    trivial
  | sample => exact h.1.isLeaf
  | initial =>
    obtain ⟨id, -, rfl⟩ := h
    trivial
  | _ => exact hv.elim

theorem Became.isAtom (h : Became t v w) (hv : v.IsLeaf) : w.IsAtom := by
  cases v with
  | const | net =>
    obtain rfl := h
    trivial
  | sample => exact h.1
  | initial =>
    obtain ⟨id, -, rfl⟩ := h
    trivial
  | _ => exact hv.elim

/-- Samples are of values that can be sampled. -/
def Samplable : Value → Prop
  | .sample v _ _ => v.isSampled = true
  | _ => True

instance : DecidablePred Samplable
  | .sample v _ _ => inferInstanceAs (Decidable (v.isSampled = true))
  | .const _ _ | .net _ | .unary _ _ _ | .binary _ _ _ _ | .mux _ _ _ _ | .slice _ _ _ | .part _ _ _ _ | .cat _ | .repl _ _
  | .proxy _ _ | .initial => .isTrue trivial

theorem traversal_arenas (hg : Gives (traversal a).arenas s σ t) : s.arenas = σ ∧ s = t := by
  replace hg := gives_get_bind.mp hg
  exact gives_pure.mp hg

theorem traversal_statement {x : Statement} {o : Option (List Statement)}
    (hg : Gives ((traversal a).statement x) s o t) : o = none ∧ s = t := by
  obtain ⟨rfl, rfl⟩ := gives_pure.mp hg
  exact ⟨rfl, rfl⟩

theorem traversal_net {n : Net} (hg : Gives ((traversal a).net n) s o t) : o = none ∧ s = t := by
  obtain ⟨rfl, rfl⟩ := gives_pure.mp hg
  exact ⟨rfl, rfl⟩

theorem leaf_became (hs : Linked timed a base s) (hleaf : v.IsLeaf) (hv : Samplable v) (htimed : timed → v.Timed s.arenas)
    (hg : Gives (v.traverse (traversal a)) s o t) : Linked timed a base t ∧ Grows s t ∧ Became t v (o.getD v) := by
  cases v with
  | const | net =>
    rw [Value.traverse] at hg
    obtain ⟨rfl, rfl⟩ := gives_pure.mp hg
    exact ⟨hs, .refl s, rfl⟩
  | initial =>
    rw [Value.traverse] at hg
    obtain ⟨ht, hgrows, -, id, hid, rfl⟩ := lowerInitial_linked hs hg
    exact ⟨ht, hgrows, id, hid, rfl⟩
  | sample =>
    rw [Value.traverse] at hg
    have hset := lowerSample_settles hs hv htimed (fun hw => inner_traversed hs hv hw) hg
    exact ⟨hset.linked, hset.grows, hset.atom, hset.found⟩
  | _ => exact hleaf.elim

/-- Lowering the samples of a fragment rewrites its leaves by what is remembered at the end. -/
theorem traversal_rewrites (a : Nat) (base : Arenas) :
    Rewrites (traversal a) (Linked False a base) Grows Samplable Became where
  refl := .refl
  trans := .trans
  mono := by
    intro s t v v' hg h
    cases v with
    | sample => exact ⟨h.1, hg.cache h.2⟩
    | initial =>
      obtain ⟨id, hid, rfl⟩ := h
      exact ⟨id, hg.initial hid, rfl⟩
    | _ => exact h
  arenas h := (traversal_arenas h).2
  statement := traversal_statement
  leaf hleaf hs hp hg := leaf_became hs hleaf hp False.elim hg

/-- What lowering does to a fragment above its children: it starts with no registers, and puts in what it has come to
need. -/
theorem top_inv {b : Body} {cs : List (String × Fragment)} {f : Fragment}
    (hg : Gives (Fragment.traverseTop (pass a) b cs) s f t) :
    ∃ nb, Gives (b.traverse (pass a) (traversal a)) { s with delays := .empty } nb t ∧
      f = complete t.delays (.node nb cs) := by
  obtain ⟨r, s1, hvalues, hg⟩ := gives_bind.mp hg
  replace hvalues := gives_modify_bind.mp hvalues
  obtain ⟨rfl, rfl⟩ := gives_pure.mp hvalues
  obtain ⟨nb, s3, hbody, hg⟩ := gives_bind.mp hg
  replace hg := gives_get_bind.mp hg
  obtain ⟨rfl, rfl⟩ := gives_pure.mp hg
  exact ⟨nb, hbody, rfl⟩

end Steps
end Delays

theorem Fragment.lowerSamples_inv {σ σ' : Arenas} {a : Nat} {f f' : Fragment} (h : f.lowerSamples σ a = (.ok f', σ')) :
    ∃ t, Gives (f.traverse (Delays.pass a)) ⟨σ, .empty⟩ f' t ∧ t.arenas = σ' := by
  cases hrun : (f.traverse (Delays.pass a)).run.run ⟨σ, .empty⟩ with
  | mk result t =>
    unfold lowerSamples at h
    rw [hrun] at h
    obtain ⟨rfl, rfl⟩ := Prod.mk.inj h
    exact ⟨t, gives_run.mpr hrun, rfl⟩

end Rtl
