import Mathlib
import Rtl.Proofs.KeyTexts
import Rtl.Proofs.Leaves

/-!
# Keys tell the structure of values

The key of a value writes its structure down in one line: commas between parts, parentheses and brackets around them,
and the names of domains as they are. As long as no such name contains one of these marks, the line can be read in one
way only: a key may be followed by nothing or by a mark, and then the key and what follows it are both determined. A
name with a mark in it can pass for several parts.
-/
namespace Rtl

open List

variable {us vs : List Char}

/-- The characters that keys put between and around parts. -/
def IsMark (c : Char) : Prop := c = ',' ∨ c = '(' ∨ c = ')' ∨ c = '[' ∨ c = ']'

instance (c : Char) : Decidable (IsMark c) := inferInstanceAs (Decidable (_ ∨ _))

/-- A text without marks. -/
def Unmarked (text : String) : Prop := ∀ c ∈ text.toList, ¬ IsMark c

/-- What may follow a key: nothing, or a mark and anything after it. -/
def Stops (rest : List Char) : Prop := ∀ c ∈ rest.head?, IsMark c

theorem stops_cons {c : Char} (h : IsMark c) (cs : List Char) : Stops (c :: cs) := by
  intro c' h'
  cases h'
  exact h

theorem Stops.endsNumeral {rest : List Char} (h : Stops rest) : EndsNumeral rest := by
  intro c hc
  rcases h c hc with rfl | rfl | rfl | rfl | rfl <;> decide

/-- A text without marks ends at the first mark. -/
theorem unmarked_append_inj {x y : String} (hx : Unmarked x) (hy : Unmarked y) (hus : Stops us) (hvs : Stops vs)
    (h : x.toList ++ us = y.toList ++ vs) : x = y ∧ us = vs := by
  obtain ⟨htext, hrest⟩ := span_append_inj hx hy (fun c hc => not_not_intro (hus c hc))
    (fun c hc => not_not_intro (hvs c hc)) h
  exact ⟨String.toList_inj.mp htext, hrest⟩

namespace Value

variable {vs ws : List Value} {v : Value} {symbol : String} {operands : List Value} {a b : Int}

mutual

/-- The names of domains in a value. -/
def domainNames : Value → List String
  | .const _ _ | .initial | .net (.signal _) => []
  | .net (.clock d) => [d]
  | .net (.reset d _) => [d]
  | .unary _ a _ => domainNames a
  | .binary _ a b _ => domainNames a ++ domainNames b
  | .mux sel a b _ => domainNames sel ++ (domainNames a ++ domainNames b)
  | .slice v _ _ => domainNames v
  | .part v offset _ _ => domainNames v ++ domainNames offset
  | .cat parts => domainNamesAll parts
  | .repl v _ => domainNames v
  | .proxy elems index => domainNamesAll elems ++ domainNames index
  | .sample v _ domain => domain :: domainNames v

def domainNamesAll : List Value → List String
  | [] => []
  | v :: vs => domainNames v ++ domainNamesAll vs

end

/-- No domain in the value has a mark in its name. -/
def Delimited (v : Value) : Prop := ∀ d ∈ v.domainNames, Unmarked d

theorem forall_domainNamesAll {P : String → Prop} :
    (∀ d ∈ domainNamesAll vs, P d) ↔ ∀ v ∈ vs, ∀ d ∈ v.domainNames, P d := by
  induction vs with
  | nil => simp [domainNamesAll]
  | cons v vs ih => rw [domainNamesAll, forall_mem_append, forall_mem_cons, ih]

theorem delimited_cat {parts : List Value} : (cat parts).Delimited ↔ ∀ v ∈ parts, v.Delimited :=
  forall_domainNamesAll

theorem delimited_part {offset : Value} {width stride : Int} :
    (part v offset width stride).Delimited ↔ v.Delimited ∧ offset.Delimited := forall_mem_append

theorem delimited_proxy {elems : List Value} {index : Value} :
    (proxy elems index).Delimited ↔ (∀ v ∈ elems, v.Delimited) ∧ index.Delimited := by
  refine forall_mem_append.trans (and_congr_left' ?_)
  exact forall_domainNamesAll

theorem delimited_sample {clocks : Int} {domain : String} :
    (sample v clocks domain).Delimited ↔ Unmarked domain ∧ v.Delimited := forall_mem_cons

theorem delimited_operands (h : v.operator? = some (symbol, operands)) :
    v.Delimited ↔ ∀ u ∈ operands, u.Delimited := by
  cases v with
  | unary => cases h; simp [Delimited, domainNames]
  | binary | mux => cases h; simp [Delimited, domainNames, or_imp, forall_and]
  | _ => cases h

mutual

/-- The structure of a value: everything but the shapes that its operators were given when they were built. -/
def form : Value → Value
  | .const n s => .const n s
  | .net n => .net n
  | .unary op a _ => .unary op (form a) default
  | .binary op a b _ => .binary op (form a) (form b) default
  | .mux sel a b _ => .mux (form sel) (form a) (form b) default
  | .slice v start stop => .slice (form v) start stop
  | .part v offset width stride => .part (form v) (form offset) width stride
  | .cat parts => .cat (forms parts)
  | .repl v count => .repl (form v) count
  | .proxy elems index => .proxy (forms elems) (form index)
  | .sample v clocks domain => .sample (form v) clocks domain
  | .initial => .initial

def forms : List Value → List Value
  | [] => []
  | v :: vs => form v :: forms vs

end

theorem keys_forms (h : ∀ v ∈ vs, v.form.key = v.key) : keys (forms vs) = keys vs := by
  induction vs with
  | nil => rfl
  | cons v vs ih =>
    obtain ⟨hv, hvs⟩ := forall_mem_cons.mp h
    rw [forms, keys, keys, hv, ih hvs]

/-- A key shows nothing but structure. -/
theorem key_form (v : Value) : v.form.key = v.key := by
  induction v with
  | const | net | initial => rfl
  | unary op a s iha => rw [form, key, key, iha]
  | binary op a b s iha ihb => rw [form, key, key, iha, ihb]
  | mux sel a b s ihsel iha ihb => rw [form, key, key, ihsel, iha, ihb]
  | slice v start stop ih => rw [form, key, key, ih]
  | part v offset width stride ih iho => rw [form, key, key, ih, iho]
  | cat parts ih => rw [form, key, key, keys_forms ih]
  | repl v count ih => rw [form, key, key, ih]
  | proxy elems index ih ihi => rw [form, key, key, keys_forms ih, ihi]
  | sample v clocks domain ih => rw [form, key, key, ih]

/-- An operator's form is known from its symbol and the forms of its operands. -/
theorem form_eq_of_operator {w : Value} (hv : v.operator? = some (symbol, vs))
    (hw : w.operator? = some (symbol, ws)) (h : forms vs = forms ws) : v.form = w.form := by
  have hunary (op : UnaryOp) : UnaryOp.ofSymbol? op.symbol = some op := by cases op <;> rfl
  have hbinary (op : BinaryOp) : BinaryOp.ofSymbol? op.symbol = some op := by cases op <;> rfl
  cases v with
  | unary op =>
    cases hv
    cases w with
    | unary op' =>
      obtain ⟨hsymbol, rfl⟩ := Prod.mk.inj (Option.some.inj hw)
      have hop : op' = op := Option.some.inj ((hunary op').symm.trans ((congrArg _ hsymbol).trans (hunary op)))
      rw [form, form, hop, (List.cons.inj h).1]
    | binary | mux =>
      obtain ⟨-, rfl⟩ := Prod.mk.inj (Option.some.inj hw)
      simp [forms] at h
    | _ => cases hw
  | binary op =>
    cases hv
    cases w with
    | binary op' =>
      obtain ⟨hsymbol, rfl⟩ := Prod.mk.inj (Option.some.inj hw)
      have hop : op' = op := Option.some.inj ((hbinary op').symm.trans ((congrArg _ hsymbol).trans (hbinary op)))
      obtain ⟨ha, hb⟩ := List.cons.inj h
      rw [form, form, hop, ha, (List.cons.inj hb).1]
    | unary | mux =>
      obtain ⟨-, rfl⟩ := Prod.mk.inj (Option.some.inj hw)
      simp [forms] at h
    | _ => cases hw
  | mux =>
    cases hv
    cases w with
    | mux =>
      cases hw
      obtain ⟨hsel, hab⟩ := List.cons.inj h
      obtain ⟨ha, hb⟩ := List.cons.inj hab
      rw [form, form, hsel, ha, (List.cons.inj hb).1]
    | unary | binary =>
      obtain ⟨-, rfl⟩ := Prod.mk.inj (Option.some.inj hw)
      simp [forms] at h
    | _ => cases hw
  | _ => cases hv

/-- The value can be told from a text that starts with its key, and so can what follows. -/
def ReadsBack (v : Value) : Prop :=
  ∀ ⦃w : Value⦄ ⦃rest rest' : List Char⦄, v.Delimited → w.Delimited → Stops rest → Stops rest' →
    v.key.toList ++ rest = w.key.toList ++ rest' → v.form = w.form ∧ rest = rest'

/-- No key starts with a mark. -/
theorem mark_ne_key {c : Char} (hc : IsMark c) (cs : List Char) (w : Value) (rest : List Char) :
    c :: cs ≠ w.key.toList ++ rest := by
  intro h
  have hmark : genusOfKey (c :: cs) = .initial := by rcases hc with rfl | rfl | rfl | rfl | rfl <;> rfl
  have hgenus : w.genus = .initial := by rw [← genusOfKey_append w rest, ← h, hmark]
  cases w with
  | initial =>
    obtain rfl : c = 'i' := (List.cons.inj h).1
    exact absurd hc (by decide)
  | _ => cases hgenus

section Parts

-- The mark that stands behind a list of parts.
variable {close : Char} (hclose : IsMark close) (hcomma : close ≠ ',') {rest rest' : List Char}
include hclose hcomma

omit hcomma in
theorem stops_later (vs : List Value) (rest : List Char) : Stops (laterText vs ++ close :: rest) := by
  cases vs with
  | nil => exact stops_cons hclose _
  | cons => exact stops_cons (by decide) _

theorem laterText_append_inj (ih : ∀ v ∈ vs, v.ReadsBack) (hvs : ∀ v ∈ vs, v.Delimited)
    (hws : ∀ w ∈ ws, w.Delimited) (h : laterText vs ++ close :: rest = laterText ws ++ close :: rest') :
    forms vs = forms ws ∧ rest = rest' := by
  induction vs generalizing ws with
  | nil =>
    cases ws with
    | nil => exact ⟨rfl, (List.cons.inj h).2⟩
    | cons => exact absurd (List.cons.inj h).1 hcomma
  | cons v vs hind =>
    cases ws with
    | nil => exact absurd (List.cons.inj h).1.symm hcomma
    | cons w ws =>
      obtain ⟨ihv, ihvs⟩ := forall_mem_cons.mp ih
      obtain ⟨hv, hvs⟩ := forall_mem_cons.mp hvs
      obtain ⟨hw, hws⟩ := forall_mem_cons.mp hws
      simp only [laterText, cons_append, append_assoc, List.cons.injEq, true_and] at h
      obtain ⟨hform, htail⟩ := ihv hv hw (stops_later hclose vs _) (stops_later hclose ws _) h
      obtain ⟨hforms, hrest⟩ := hind ihvs hvs hws htail
      rw [forms, forms, hform, hforms]
      exact ⟨rfl, hrest⟩

/-- A list of parts is read back up to the mark behind it. -/
theorem partsText_append_inj (ih : ∀ v ∈ vs, v.ReadsBack) (hvs : ∀ v ∈ vs, v.Delimited)
    (hws : ∀ w ∈ ws, w.Delimited) (h : partsText vs ++ close :: rest = partsText ws ++ close :: rest') :
    forms vs = forms ws ∧ rest = rest' := by
  cases vs with
  | nil =>
    cases ws with
    | nil => exact ⟨rfl, (List.cons.inj h).2⟩
    | cons w =>
      rw [partsText, partsText, append_assoc] at h
      exact absurd h (mark_ne_key hclose _ w _)
  | cons v =>
    cases ws with
    | nil =>
      rw [partsText, partsText, append_assoc] at h
      exact absurd h.symm (mark_ne_key hclose _ v _)
    | cons =>
      -- Behind a comma the two lists are the later parts of longer ones.
      refine laterText_append_inj hclose hcomma ih hvs hws ?_
      exact congrArg (',' :: ·) h

end Parts

theorem symbol_no_parenthesis {v : Value}
    (h : v.operator? = some (symbol, operands)) : ∀ c ∈ symbol.toList, c ≠ '(' := by
  cases v with
  | unary op => cases h; cases op <;> simp [UnaryOp.symbol]
  | binary op => cases h; cases op <;> simp [BinaryOp.symbol]
  | mux => cases h; simp [muxSymbol]
  | _ => cases h

theorem genus_eq_operator_iff : v.genus = .operator ↔ ∃ symbol operands, v.operator? = some (symbol, operands) := by
  cases v <;> simp [genus, operator?]

theorem readsBack_operator (hop : v.operator? = some (symbol, operands))
    (ih : ∀ u ∈ operands, u.ReadsBack) : v.ReadsBack := by
  intro w rest rest' hv hw hrest hrest' h
  have hgenus := genus_eq_operator_iff.mpr ⟨symbol, operands, hop⟩
  obtain ⟨symbol', operands', hop'⟩ := genus_eq_operator_iff.mp ((genus_eq_of_key h).symm.trans hgenus)
  rw [toList_key_operator hop, toList_key_operator hop'] at h
  simp only [operatorText, cons_append, append_assoc, List.cons.injEq, true_and, nil_append] at h
  have hparenthesis (cs : List Char) : ∀ c ∈ ('(' :: cs).head?, ¬ c ≠ '(' := by simp
  obtain ⟨hsymbol, h⟩ := span_append_inj (symbol_no_parenthesis hop) (symbol_no_parenthesis hop') (hparenthesis _)
    (hparenthesis _) h
  obtain ⟨hforms, htail⟩ := partsText_append_inj (by decide) (by decide) ih ((delimited_operands hop).mp hv)
    ((delimited_operands hop').mp hw) (List.cons.inj h).2
  obtain rfl := String.toList_inj.mp hsymbol
  exact ⟨form_eq_of_operator hop hop' hforms, htail⟩

/-- The flag of a reset reference is the word behind its last colon. -/
theorem reset_text_inj {d d' : String} {allow allow' : Bool}
    (h : d ++ ":" ++ signText allow = d' ++ ":" ++ signText allow') : d = d' ∧ allow = allow' := by
  have htext := congrArg (List.reverse ∘ String.toList) h
  simp only [Function.comp, String.toList_append, reverse_append] at htext
  have hend : ∀ {x y : List Char}, "eurt:".toList ++ x ≠ "eslaf:".toList ++ y := by
    intro x y hxy
    exact absurd (List.cons.inj (List.cons.inj hxy).2).1 (by decide)
  cases allow <;> cases allow'
  · exact ⟨String.toList_inj.mp (reverse_injective (append_cancel_left (append_cancel_left htext))), rfl⟩
  · exact absurd htext.symm hend
  · exact absurd htext hend
  · exact ⟨String.toList_inj.mp (reverse_injective (append_cancel_left (append_cancel_left htext))), rfl⟩

theorem unmarked_reset {d : String} (h : Unmarked d) (allow : Bool) : Unmarked (d ++ ":" ++ signText allow) := by
  have hsign : Unmarked (signText allow) := by cases allow <;> simp [Unmarked, signText, IsMark]
  intro c hc
  simp only [String.toList_append, mem_append] at hc
  rcases hc with (hc | hc) | hc
  · exact h c hc
  · obtain rfl : c = ':' := by simpa using hc
    decide
  · exact hsign c hc

theorem readsBack_net (n : Net) : (net n).ReadsBack := by
  intro w rest rest' hv hw hrest hrest' h
  have hgenus := genus_eq_of_key h
  cases n with
  | signal =>
    cases w with
    | net m =>
      cases m with
      | signal =>
        obtain ⟨rfl, htail⟩ := signal_key_inj hrest.endsNumeral hrest'.endsNumeral h
        exact ⟨rfl, htail⟩
      | clock | reset => exact absurd (rank_eq_of_key h) (by simp [Net.key, NetKey.rank])
    | _ => cases hgenus
  | clock d =>
    cases w with
    | net m =>
      cases m with
      | clock d' =>
        rw [toList_key, toList_key] at h
        simp only [keyText, cons_append, List.cons.injEq, true_and] at h
        obtain ⟨rfl, htail⟩ := unmarked_append_inj (hv d (mem_singleton_self d))
          (hw d' (mem_singleton_self d')) hrest hrest' h
        exact ⟨rfl, htail⟩
      | signal | reset => exact absurd (rank_eq_of_key h) (by simp [Net.key, NetKey.rank])
    | _ => cases hgenus
  | reset d allow =>
    cases w with
    | net m =>
      cases m with
      | reset d' allow' =>
        rw [toList_key, toList_key] at h
        simp only [keyText, cons_append, List.cons.injEq, true_and] at h
        obtain ⟨hword, htail⟩ := unmarked_append_inj (unmarked_reset (hv d (mem_singleton_self d)) allow)
          (unmarked_reset (hw d' (mem_singleton_self d')) allow') hrest hrest' h
        obtain ⟨rfl, rfl⟩ := reset_text_inj hword
        exact ⟨rfl, htail⟩
      | signal | clock => exact absurd (rank_eq_of_key h) (by simp [Net.key, NetKey.rank])
    | _ => cases hgenus

theorem stops_comma (rest : List Char) : Stops (',' :: rest) := stops_cons (by decide) rest

theorem stops_close (rest : List Char) : Stops (')' :: rest) := stops_cons (by decide) rest

theorem intText_comma_inj {vs : List Char}
    (h : (toString a).toList ++ ',' :: us = (toString b).toList ++ ',' :: vs) : a = b ∧ us = vs := by
  obtain ⟨hab, hrest⟩ := intText_append_inj (stops_comma _).endsNumeral (stops_comma _).endsNumeral h
  exact ⟨hab, (List.cons.inj hrest).2⟩

theorem intText_close_inj {us vs : List Char}
    (h : (toString a).toList ++ ')' :: us = (toString b).toList ++ ')' :: vs) : a = b ∧ us = vs := by
  obtain ⟨hab, hrest⟩ := intText_append_inj (stops_close _).endsNumeral (stops_close _).endsNumeral h
  exact ⟨hab, (List.cons.inj hrest).2⟩

/-- Only a value of the same genus has to be told apart. -/
theorem readsBack_of_genus (h : ∀ w rest rest', v.genus = w.genus → v.Delimited → w.Delimited → Stops rest → Stops rest' →
    keyText v ++ rest = keyText w ++ rest' → v.form = w.form ∧ rest = rest') : v.ReadsBack := by
  intro w rest rest' hv hw hrest hrest' hkeys
  refine h w rest rest' (genus_eq_of_key hkeys) hv hw hrest hrest' ?_
  rwa [toList_key, toList_key] at hkeys

theorem readsBack_slice (ih : v.ReadsBack) (start stop : Int) : (slice v start stop).ReadsBack := by
  refine readsBack_of_genus fun w rest rest' hgenus hv hw _ _ h => ?_
  cases w with
  | slice w start' stop' =>
    simp only [keyText, cons_append, append_assoc, List.cons.injEq, true_and, nil_append] at h
    obtain ⟨hform, hstart⟩ := ih (w := w) hv hw (stops_comma _) (stops_comma _) h
    obtain ⟨rfl, hstop⟩ := intText_comma_inj (List.cons.inj hstart).2
    obtain ⟨rfl, htail⟩ := intText_close_inj hstop
    rw [form, form, hform]
    exact ⟨rfl, htail⟩
  | _ => cases hgenus

theorem readsBack_part {offset : Value} (ih : v.ReadsBack) (iho : offset.ReadsBack) (width stride : Int) :
    (part v offset width stride).ReadsBack := by
  refine readsBack_of_genus fun w rest rest' hgenus hv hw _ _ h => ?_
  cases w with
  | part w offset' width' stride' =>
    obtain ⟨hv, hoffset⟩ := delimited_part.mp hv
    obtain ⟨hw, hoffset'⟩ := delimited_part.mp hw
    simp only [keyText, cons_append, append_assoc, List.cons.injEq, true_and, nil_append] at h
    obtain ⟨hform, hnext⟩ := ih hv hw (stops_comma _) (stops_comma _) h
    obtain ⟨hindex, hwidth⟩ := iho hoffset hoffset' (stops_comma _) (stops_comma _) (List.cons.inj hnext).2
    obtain ⟨rfl, hstride⟩ := intText_comma_inj (List.cons.inj hwidth).2
    obtain ⟨rfl, htail⟩ := intText_close_inj hstride
    rw [form, form, hform, hindex]
    exact ⟨rfl, htail⟩
  | _ => cases hgenus

theorem readsBack_cat (ih : ∀ v ∈ vs, v.ReadsBack) : (cat vs).ReadsBack := by
  refine readsBack_of_genus fun w rest rest' hgenus hv hw _ _ h => ?_
  cases w with
  | cat parts' =>
    simp only [keyText, cons_append, append_assoc, List.cons.injEq, true_and, nil_append] at h
    obtain ⟨hforms, htail⟩ := partsText_append_inj (by decide) (by decide) ih (delimited_cat.mp hv)
      (delimited_cat.mp hw) h
    rw [form, form, hforms]
    exact ⟨rfl, htail⟩
  | _ => cases hgenus

theorem readsBack_repl (ih : v.ReadsBack) (count : Int) : (repl v count).ReadsBack := by
  refine readsBack_of_genus fun w rest rest' hgenus hv hw _ _ h => ?_
  cases w with
  | repl w count' =>
    simp only [keyText, cons_append, append_assoc, List.cons.injEq, true_and, nil_append] at h
    obtain ⟨hform, hcount⟩ := ih (w := w) hv hw (stops_comma _) (stops_comma _) h
    obtain ⟨rfl, htail⟩ := intText_close_inj (List.cons.inj hcount).2
    rw [form, form, hform]
    exact ⟨rfl, htail⟩
  | _ => cases hgenus

theorem readsBack_proxy {index : Value} (ih : ∀ v ∈ vs, v.ReadsBack) (ihi : index.ReadsBack) :
    (proxy vs index).ReadsBack := by
  refine readsBack_of_genus fun w rest rest' hgenus hv hw _ _ h => ?_
  cases w with
  | proxy elems' index' =>
    obtain ⟨helems, hindex⟩ := delimited_proxy.mp hv
    obtain ⟨helems', hindex'⟩ := delimited_proxy.mp hw
    simp only [keyText, cons_append, append_assoc, List.cons.injEq, true_and, nil_append] at h
    obtain ⟨hforms, hnext⟩ := partsText_append_inj (by decide) (by decide) ih helems helems' h
    obtain ⟨hform, htail⟩ := ihi hindex hindex' (stops_close _) (stops_close _) (List.cons.inj hnext).2
    rw [form, form, hforms, hform]
    exact ⟨rfl, (List.cons.inj htail).2⟩
  | _ => cases hgenus

theorem readsBack_sample (ih : v.ReadsBack) (clocks : Int) (domain : String) : (sample v clocks domain).ReadsBack := by
  refine readsBack_of_genus fun w rest rest' hgenus hv hw _ _ h => ?_
  cases w with
  | sample w clocks' domain' =>
    obtain ⟨hdomain, hv⟩ := delimited_sample.mp hv
    obtain ⟨hdomain', hw⟩ := delimited_sample.mp hw
    simp only [keyText, cons_append, append_assoc, List.cons.injEq, true_and, nil_append] at h
    obtain ⟨hform, hclocks⟩ := ih hv hw (stops_comma _) (stops_comma _) h
    obtain ⟨rfl, hname⟩ := intText_comma_inj (List.cons.inj hclocks).2
    obtain ⟨rfl, htail⟩ := unmarked_append_inj hdomain hdomain' (stops_close _) (stops_close _) hname
    rw [form, form, hform]
    exact ⟨rfl, (List.cons.inj htail).2⟩
  | _ => cases hgenus

/-- Every value can be told from its key, wherever the key stands. -/
theorem readsBack (v : Value) : v.ReadsBack := by
  induction v with
  | const n s =>
    intro w rest rest' hv hw hrest hrest' h
    have hgenus := genus_eq_of_key h
    cases w with
    | const => exact const_key_inj hrest.endsNumeral hrest'.endsNumeral h
    | _ => cases hgenus
  | net n => exact readsBack_net n
  | unary op a s iha => exact readsBack_operator rfl (by simpa using iha)
  | binary op a b s iha ihb => exact readsBack_operator rfl (by simpa using ⟨iha, ihb⟩)
  | mux sel a b s ihsel iha ihb => exact readsBack_operator rfl (by simpa using ⟨ihsel, iha, ihb⟩)
  | slice v start stop ih => exact readsBack_slice ih start stop
  | part v offset width stride ih iho => exact readsBack_part ih iho width stride
  | cat parts ih => exact readsBack_cat ih
  | repl v count ih => exact readsBack_repl ih count
  | proxy elems index ih ihi => exact readsBack_proxy ih ihi
  | sample v clocks domain ih => exact readsBack_sample ih clocks domain
  | initial =>
    intro w rest rest' hv hw hrest hrest' h
    have hgenus := genus_eq_of_key h
    cases w with
    | initial => exact ⟨rfl, List.append_cancel_left h⟩
    | _ => cases hgenus

/-- Values without marks in the names of their domains have one key exactly when they have one structure. With marks,
values of different structures can have one key. -/
theorem key_eq_iff_form_eq :
    (∀ v w : Value, v.Delimited → w.Delimited → (v.key = w.key ↔ v.form = w.form)) ∧
      ∃ v w : Value, v.key = w.key ∧ v.form ≠ w.form := by
  refine ⟨fun v w hv hw => ⟨fun h => ?_, fun h => ?_⟩, ?_⟩
  · have htext : v.key.toList ++ [] = w.key.toList ++ [] := by rw [h]
    have hnothing : Stops [] := by simp [Stops]
    exact (readsBack v hv hw hnothing hnothing htext).1
  · rw [← key_form v, ← key_form w, h]
  · refine ⟨.cat [.net (.clock "a,clk:b")], .cat [.net (.clock "a"), .net (.clock "b")], by decide, ?_⟩
    simp [form, forms]

/-- How references are grouped shows in the key; the shape that an operator was given does not. -/
theorem key_eq_iff_form_eq_grouped :
    let a := net (.clock "a")
    let b := net (.reset "b:true" false)
    let v := binary .add (cat [a, b]) (sample a 2 "") (.unsigned 3)
    (v.Delimited ∧ (binary .add (cat [a, b]) (sample a 2 "") default).Delimited ∧
        v.key = (binary .add (cat [a, b]) (sample a 2 "") default).key) ∧
      (v.Delimited ∧ (binary .add (cat [cat [a], b]) (sample a 2 "") (.unsigned 3)).Delimited ∧
        v.key ≠ (binary .add (cat [cat [a], b]) (sample a 2 "") (.unsigned 3)).key) := by
  intro a b v
  have hnames : Unmarked "a" ∧ Unmarked "b:true" ∧ Unmarked "" := by simp [Unmarked, IsMark]
  have hv : v.Delimited := by simp [v, a, b, Delimited, domainNames, domainNamesAll, hnames]
  have hw : (binary .add (cat [cat [a], b]) (sample a 2 "") (.unsigned 3)).Delimited := by
    simp [a, b, Delimited, domainNames, domainNamesAll, hnames]
  refine ⟨⟨hv, hv, (key_eq_iff_form_eq.1 _ _ hv hv).mpr rfl⟩, hv, hw, fun h => ?_⟩
  have hform := (key_eq_iff_form_eq.1 _ _ hv hw).mp h
  simp [v, a, b, form, forms] at hform

end Value
end Rtl
