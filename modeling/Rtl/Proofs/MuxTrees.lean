import Mathlib
import Rtl.Proofs.Widths

/-!
# Arrays as trees of multiplexers

An array that is indexed takes its shape from its elements in one pass, a tree of multiplexers by promoting two shapes
at a time. Over unbounded integers a tree has the least shape that holds every element, so neither the nesting nor the
order of the multiplexers matters. An array has that shape too, but never less than no bits, or one bit where signs are
mixed. With words for widths this stays so while the exact width is one.
-/
namespace Rtl

open List
namespace Shape

variable {shapes others : List Shape}
variable {isSigned : Bool}

attribute [ext] Shape

/-- The widest shape of a kind is the least bound on all of them, and zero. -/
theorem widest_le_iff {n : Int} :
    widest isSigned shapes ≤ n ↔ 0 ≤ n ∧ ∀ s ∈ shapes, s.isSigned = isSigned → s.width ≤ n := by
  induction shapes with
  | nil => simp [widest]
  | cons s shapes ih =>
    rw [widest, forall_mem_cons]
    split
    · rename_i hs
      rw [max_le_iff, ih]
      tauto
    · rename_i hs
      rw [ih]
      tauto

theorem widest_congr (h : ∀ s, s ∈ shapes ↔ s ∈ others) (isSigned : Bool) :
    widest isSigned shapes = widest isSigned others :=
  eq_of_forall_ge_iff fun n => by simp only [widest_le_iff, h]

theorem any_congr (h : ∀ s, s ∈ shapes ↔ s ∈ others) (p : Shape → Bool) : shapes.any p = others.any p := by
  rw [Bool.eq_iff_iff, any_eq_true, any_eq_true]
  simp only [h]

theorem exactJoin_congr (h : ∀ s, s ∈ shapes ↔ s ∈ others) : exactJoin shapes = exactJoin others := by
  simp only [exactJoin, any_congr h, widest_congr h]

/-- The bits that a shape asks for in a result with or without a sign: an unsigned one gains a bit beside a sign. -/
def counted (isSigned : Bool) (s : Shape) : Int := s.width + if isSigned && !s.isSigned then 1 else 0

/-- No shape asks for more bits than this beside the others. -/
def Bounded (shapes : List Shape) (n : Int) : Prop := ∀ s ∈ shapes, s.counted (shapes.any (·.isSigned)) ≤ n

/-- The bits that an indexed array has however narrow its elements are: a sign bit where only some of them are signed. -/
def leastWidth (shapes : List Shape) : Int :=
  if shapes.any (·.isSigned) && shapes.any (!·.isSigned) then 1 else 0

/-- Some element asks for as many bits as an indexed array has at least. -/
def Reached (shapes : List Shape) : Prop :=
  ∃ s ∈ shapes, leastWidth shapes ≤ s.counted (shapes.any (·.isSigned))

instance : Decidable (Reached shapes) := inferInstanceAs (Decidable (∃ s ∈ shapes, _))

theorem counted_mono {wider : Bool} (s : Shape) (h : isSigned = true → wider = true) :
    s.counted isSigned ≤ s.counted wider := by
  unfold counted
  cases isSigned with
  | true => rw [h rfl]
  | false =>
    simp only [Bool.false_and, Bool.false_eq_true, if_false]
    split <;> omega

theorem width_le_counted (isSigned : Bool) (s : Shape) : s.width ≤ s.counted isSigned := by
  unfold counted
  split <;> omega

theorem Bounded.of_subset {n : Int} (h : Bounded others n) (hsub : shapes ⊆ others) : Bounded shapes n := by
  intro s hs
  refine (counted_mono s fun hany => ?_).trans (h s (hsub hs))
  obtain ⟨t, ht, hsign⟩ := any_eq_true.mp hany
  exact any_eq_true.mpr ⟨t, hsub ht, hsign⟩

theorem reached_iff : Reached shapes ↔ ¬ Bounded shapes (leastWidth shapes - 1) := by
  simp only [Reached, Bounded, not_forall, Int.le_sub_one_iff, not_lt, exists_prop]

theorem reached_congr (h : ∀ s, s ∈ shapes ↔ s ∈ others) : Reached shapes ↔ Reached others := by
  simp only [Reached, leastWidth, any_congr h, h]

/-- Elements of no negative width: an unsigned one beside a sign has the sign bit. -/
theorem reached_of_nonneg (hne : shapes ≠ []) (h : ∀ s ∈ shapes, 0 ≤ s.width) : Reached shapes := by
  by_cases hboth : (shapes.any (·.isSigned) && shapes.any (!·.isSigned)) = true
  · obtain ⟨hsigned, hunsigned⟩ := Bool.and_eq_true_iff.mp hboth
    obtain ⟨s, hs, hsign⟩ := any_eq_true.mp hunsigned
    refine ⟨s, hs, ?_⟩
    rw [leastWidth, hboth, if_pos rfl, counted, hsigned, hsign]
    exact Int.le_add_of_nonneg_left (h s hs)
  · obtain ⟨s, hs⟩ := exists_mem_of_ne_nil _ hne
    refine ⟨s, hs, ?_⟩
    rw [leastWidth, if_neg hboth]
    exact (h s hs).trans (width_le_counted _ s)

/-- The exact width is the least bound on the bits that the elements ask for, and on those that an array has anyway. -/
theorem exactJoin_le_iff {n : Int} :
    (exactJoin shapes).width ≤ n ↔ leastWidth shapes ≤ n ∧ Bounded shapes n := by
  have hsigned (s : Shape) (hsign : s.isSigned = true) : s.counted (shapes.any (·.isSigned)) = s.width := by
    rw [counted, hsign, Bool.not_true, Bool.and_false, if_neg Bool.false_ne_true, add_zero]
  have hunsigned (s : Shape) (hs : s ∈ shapes) (hsign : s.isSigned = false) :
      s.counted (shapes.any (·.isSigned)) = s.width + leastWidth shapes := by
    have hany : shapes.any (!·.isSigned) = true := any_eq_true.mpr ⟨s, hs, by rw [hsign]; rfl⟩
    rw [counted, leastWidth, hsign, hany]
    rfl
  have hleast : 0 ≤ leastWidth shapes := by
    unfold leastWidth
    split <;> decide
  change max (widest true shapes) (widest false shapes + leastWidth shapes) ≤ n ↔ _
  rw [max_le_iff, ← le_sub_iff_add_le, widest_le_iff, widest_le_iff]
  constructor
  · intro ⟨⟨_, htrue⟩, hn, hfalse⟩
    refine ⟨sub_nonneg.mp hn, fun s hs => ?_⟩
    cases hsign : s.isSigned with
    | true => exact (hsigned s hsign).trans_le (htrue s hs hsign)
    | false => exact (hunsigned s hs hsign).trans_le (le_sub_iff_add_le.mp (hfalse s hs hsign))
  · intro ⟨hn, hall⟩
    refine ⟨⟨hleast.trans hn, fun s hs hsign => ?_⟩, sub_nonneg.mpr hn, fun s hs hsign => ?_⟩
    · exact hsigned s hsign ▸ hall s hs
    · exact le_sub_iff_add_le.mpr (hunsigned s hs hsign ▸ hall s hs)

/-- A group of shapes beside a sign: where none of its own is signed, each of them gains a bit. -/
theorem bounded_sub_iff {n : Int} (isSigned : Bool) (h : shapes.any (·.isSigned) = true → isSigned = true) :
    Bounded shapes (n - if isSigned && !shapes.any (·.isSigned) then 1 else 0) ↔
      ∀ s ∈ shapes, s.counted isSigned ≤ n := by
  refine forall₂_congr fun s hs => ?_
  cases hany : shapes.any (·.isSigned) with
  | true => simp [h hany]
  | false =>
    have hsign : s.isSigned = false := by simpa using any_eq_false.mp hany s hs
    simp [counted, hsign, le_sub_iff_add_le]

/-- Promoting two bounds bounds all shapes. -/
theorem exactPromote_le_iff {a b : Shape} {n : Int} (ha : a.isSigned = shapes.any (·.isSigned))
    (hb : b.isSigned = others.any (·.isSigned)) (hleft : ∀ {n}, a.width ≤ n ↔ Bounded shapes n)
    (hright : ∀ {n}, b.width ≤ n ↔ Bounded others n) :
    (a.exactPromote b).width ≤ n ↔ Bounded (shapes ++ others) n := by
  have hsigns : (shapes ++ others).any (·.isSigned) = (a.isSigned || b.isSigned) := by rw [any_append, ha, hb]
  rw [Bounded, hsigns, forall_mem_append, exactPromote, max_le_iff, ← le_sub_iff_add_le, ← le_sub_iff_add_le, hleft,
    hright]
  refine and_congr ?_ ?_
  · rw [← bounded_sub_iff (a.isSigned || b.isSigned) (by rw [← ha]; intro h; rw [h]; rfl), ha]
  · rw [← bounded_sub_iff (a.isSigned || b.isSigned) (by rw [← hb]; intro h; rw [h, Bool.or_true]), hb]

/-- A width that only the shapes bound is a word as they are. -/
theorem inWord_of_bounded {w : Int} (h : ∀ {n}, w ≤ n ↔ Bounded shapes n) (hne : shapes ≠ [])
    (hwords : ∀ s ∈ shapes, InWord s.width) (hfits : Bounded shapes (2 ^ 63 - 1)) : InWord w := by
  obtain ⟨s, hs⟩ := exists_mem_of_ne_nil _ hne
  have hlow : s.counted (shapes.any (·.isSigned)) ≤ w := h.mp le_rfl s hs
  exact ⟨(hwords s hs).1.trans ((width_le_counted _ s).trans hlow), Int.lt_of_le_sub_one (h.mpr hfits)⟩

theorem promote_nonneg {a b : Shape} (ha : 0 ≤ a.width) (hb : 0 ≤ b.width) : 0 ≤ (a.promote b).width := by
  unfold promote
  split
  · exact le_max_of_le_left ha
  · exact le_max_of_le_left ha
  · exact le_max_of_le_left ha
  · exact le_max_of_le_right hb

/-- The extra bit of the widest unsigned element may be one too many for a word. -/
theorem join_of_not_inWord (hwords : ∀ s ∈ shapes, InWord s.width) (h : ¬ InWord (exactJoin shapes).width) :
    join shapes = .signed (-2 ^ 63) ∧ shapes.any (·.isSigned) = true := by
  have hwidest (isSigned : Bool) : widest isSigned shapes ≤ 2 ^ 63 - 1 :=
    widest_le_iff.mpr ⟨by norm_num, fun s hs _ => Int.le_sub_one_of_lt (hwords s hs).2⟩
  have hsigned := hwidest true
  have hunsigned := hwidest false
  have hnonneg := widest_nonneg false shapes
  by_cases hboth : (shapes.any (·.isSigned) && shapes.any (!·.isSigned)) = true
  · have hfull : widest false shapes = 2 ^ 63 - 1 := by
      simp only [exactJoin, hboth, if_true, InWord] at h
      omega
    have hle : widest true shapes ≤ widest false shapes := hsigned.trans hfull.ge
    refine ⟨?_, (Bool.and_eq_true_iff.mp hboth).1⟩
    simp only [join, hboth, hle, decide_true, Bool.and_self, if_true]
    rw [hfull]
    decide
  · simp only [exactJoin, hboth, Bool.false_eq_true, if_false, InWord] at h
    omega

end Shape

namespace Value

variable {σ : Arenas} {leaves elems : List Value} {tree : Value}

/-- Multiplexers over the leaves, from left to right, nested in any way. -/
inductive MuxTree (σ : Arenas) : List Value → Value → Prop
  | leaf (v : Value) : MuxTree σ [v] v
  | node (sel : Value) {xs ys : List Value} {a b : Value} (ha : MuxTree σ xs a) (hb : MuxTree σ ys b) :
    MuxTree σ (xs ++ ys) (mkMux σ sel a b)

theorem MuxTree.ne_nil (h : MuxTree σ leaves tree) : leaves ≠ [] := by
  induction h with
  | leaf v => exact cons_ne_nil v []
  | node sel ha hb iha => exact append_ne_nil_of_left_ne_nil iha _

/-- The signs of the leaves, in the order of the leaves. -/
theorem MuxTree.isSigned_eq (h : MuxTree σ leaves tree) :
    (tree.shape σ).isSigned = (leaves.map (shape σ)).any (·.isSigned) := by
  induction h with
  | leaf v => exact (Bool.or_false _).symm
  | @node sel xs ys a b ha hb iha ihb =>
    rw [map_append, any_append, ← iha, ← ihb, mkMux, shape, Shape.promote]
    cases (a.shape σ).isSigned <;> cases (b.shape σ).isSigned <;> rfl

/-- A tree is as wide as the widest of its leaves asks for, while each leaf has its extra bit in a word. -/
theorem MuxTree.width_le_iff (h : MuxTree σ leaves tree) (hwords : ∀ s ∈ leaves.map (shape σ), InWord s.width)
    (hfits : Shape.Bounded (leaves.map (shape σ)) (2 ^ 63 - 1)) {n : Int} :
    tree.width σ ≤ n ↔ Shape.Bounded (leaves.map (shape σ)) n := by
  induction h generalizing n with
  | leaf v => simp [width, Shape.Bounded, Shape.counted]
  | @node sel xs ys a b ha hb iha ihb =>
    have hne : xs.map (shape σ) ≠ [] ∧ ys.map (shape σ) ≠ [] := by simpa using ⟨ha.ne_nil, hb.ne_nil⟩
    rw [map_append] at hwords hfits ⊢
    obtain ⟨hxs, hys⟩ := forall_mem_append.mp hwords
    have hleft := hfits.of_subset (subset_append_left _ _)
    have hright := hfits.of_subset (subset_append_right _ _)
    have hwhole {n : Int} := Shape.exactPromote_le_iff (n := n) ha.isSigned_eq hb.isSigned_eq (iha hxs hleft)
      (ihb hys hright)
    have hpromote : (a.shape σ).promote (b.shape σ) = (a.shape σ).exactPromote (b.shape σ) :=
      Shape.promote_eq (Shape.inWord_of_bounded (iha hxs hleft) hne.1 hxs hleft)
        (Shape.inWord_of_bounded (ihb hys hright) hne.2 hys hright)
        (Shape.inWord_of_bounded hwhole (append_ne_nil_of_left_ne_nil hne.1 _) hwords hfits)
    rw [width, mkMux, shape, hpromote]
    exact hwhole

theorem MuxTree.width_nonneg (h : MuxTree σ leaves tree) (hnonneg : ∀ e ∈ leaves, 0 ≤ e.width σ) :
    0 ≤ tree.width σ := by
  induction h with
  | leaf v => exact hnonneg v mem_cons_self
  | node sel ha hb iha ihb =>
    obtain ⟨hxs, hys⟩ := forall_mem_append.mp hnonneg
    exact Shape.promote_nonneg (iha hxs) (ihb hys)

/-- While the exact width is a word, a tree falls short of it only where no leaf asks for what an array has at least. -/
theorem MuxTree.shape_eq_iff (h : MuxTree σ leaves tree) (hwords : ∀ s ∈ leaves.map (shape σ), InWord s.width)
    (hword : InWord (Shape.exactJoin (leaves.map (shape σ))).width) :
    tree.shape σ = Shape.exactJoin (leaves.map (shape σ)) ↔ Shape.Reached (leaves.map (shape σ)) := by
  have hfits : Shape.Bounded (leaves.map (shape σ)) (2 ^ 63 - 1) :=
    (Shape.exactJoin_le_iff.mp (Int.le_sub_one_of_lt hword.2)).2
  have hwidth {n : Int} := h.width_le_iff (n := n) hwords hfits
  have hjoin := Shape.exactJoin_le_iff.mp (le_refl (Shape.exactJoin (leaves.map (shape σ))).width)
  rw [Shape.reached_iff, ← hwidth, not_le, Int.sub_one_lt_iff]
  constructor
  · intro hsame
    rw [width, hsame]
    exact hjoin.1
  · intro hleast
    refine Shape.ext (le_antisymm (hwidth.mpr hjoin.2) ?_) h.isSigned_eq
    exact Shape.exactJoin_le_iff.mpr ⟨hleast, hwidth.mp le_rfl⟩

/-- Every tree of multiplexers over the elements, in any order, has the shape of the indexed array as long as the exact
width of the elements is a word and some element has the least width of an array. Past a word, where the array has the
most negative width, the two differ unless the tree has that width too. Elements of no negative width reach the least
one, and then the exact width alone decides. -/
theorem muxTree_shape_iff {index : Value} (hwords : ∀ e ∈ elems, InWord (e.width σ)) (hperm : leaves.Perm elems)
    (htree : MuxTree σ leaves tree) :
    (InWord (Shape.exactJoin (elems.map (shape σ))).width →
      (tree.shape σ = (Value.proxy elems index).shape σ ↔ Shape.Reached (elems.map (shape σ)))) ∧
    (¬ InWord (Shape.exactJoin (elems.map (shape σ))).width →
      (tree.shape σ = (Value.proxy elems index).shape σ ↔ tree.width σ = -2 ^ 63)) ∧
    ((∀ e ∈ elems, 0 ≤ e.width σ) →
      (tree.shape σ = (Value.proxy elems index).shape σ ↔ InWord (Shape.exactJoin (elems.map (shape σ))).width)) := by
  have hmem (s : Shape) : s ∈ leaves.map (shape σ) ↔ s ∈ elems.map (shape σ) := (hperm.map _).mem_iff
  have hshapes : ∀ s ∈ elems.map (shape σ), InWord s.width := forall_mem_map.mpr hwords
  have hproxy : (Value.proxy elems index).shape σ = Shape.join (elems.map (shape σ)) := by rw [shape, shapes_eq_map]
  have hfits (hword : InWord (Shape.exactJoin (elems.map (shape σ))).width) :
      tree.shape σ = (Value.proxy elems index).shape σ ↔ Shape.Reached (elems.map (shape σ)) := by
    rw [hproxy, Shape.join_eq hword, ← Shape.reached_congr hmem, ← Shape.exactJoin_congr hmem]
    refine htree.shape_eq_iff (fun s hs => hshapes s ((hmem s).mp hs)) ?_
    rwa [Shape.exactJoin_congr hmem]
  have hpast (hword : ¬ InWord (Shape.exactJoin (elems.map (shape σ))).width) :
      tree.shape σ = (Value.proxy elems index).shape σ ↔ tree.width σ = -2 ^ 63 := by
    obtain ⟨hjoin, hsigned⟩ := Shape.join_of_not_inWord hshapes hword
    have hsign : (tree.shape σ).isSigned = true := by rw [htree.isSigned_eq, Shape.any_congr hmem, hsigned]
    rw [hproxy, hjoin, Shape.ext_iff, hsign]
    exact and_iff_left rfl
  refine ⟨hfits, hpast, fun hnonneg => ?_⟩
  by_cases hword : InWord (Shape.exactJoin (elems.map (shape σ))).width
  · have hne : elems.map (shape σ) ≠ [] := by
      intro hnil
      rw [map_eq_nil_iff.mp hnil, perm_nil] at hperm
      exact htree.ne_nil hperm
    rw [hfits hword]
    exact iff_of_true (Shape.reached_of_nonneg hne (forall_mem_map.mpr hnonneg)) hword
  · have hwide := htree.width_nonneg fun e he => hnonneg e (hperm.mem_iff.mp he)
    rw [hpast hword]
    exact iff_of_false (by omega) hword

/-- Two bits without a sign between a signed bit pair and a signed value of no bits, and a product of such values, which
is narrower than any array. -/
theorem muxTree_shape_iff_mixed :
    let pair := Value.const (-1) (.signed 2)
    let empty := Value.const 0 (.signed 0)
    let bits := Value.const 1 (.unsigned 2)
    (mkMux .empty .initial (mkMux .empty .initial empty bits) pair).shape .empty =
        (Value.proxy [pair, bits, empty] .initial).shape .empty ∧
      ∃ product, mkBinary .empty .mul empty empty = .ok product ∧
        (mkMux .empty .initial product product).shape .empty ≠
          (Value.proxy [product, product] .initial).shape .empty := by
  intro pair empty bits
  have htree : MuxTree .empty [empty, bits, pair] (mkMux .empty .initial (mkMux .empty .initial empty bits) pair) :=
    .node _ (.node _ (.leaf empty) (.leaf bits)) (.leaf pair)
  refine ⟨((muxTree_shape_iff (by decide) (reverse_perm [pair, bits, empty]) htree).2.2 (by decide)).mpr (by decide), ?_⟩
  refine ⟨.binary .mul empty empty (.signed (-1)), rfl, ?_⟩
  have htwice := MuxTree.node (σ := .empty) .initial (.leaf (.binary .mul empty empty (.signed (-1))))
    (.leaf (.binary .mul empty empty (.signed (-1))))
  exact mt ((muxTree_shape_iff (by decide) (.refl _) htwice).1 (by decide)).mp (by decide)

/-- As many unsigned bits as a width can count and one signed bit: the array has a negative width, the multiplexer a
single bit. -/
theorem not_forall_muxTree_shape : ¬ ∀ (σ : Arenas) (elems leaves : List Value) (tree index : Value),
    (∀ e ∈ elems, 0 ≤ e.width σ ∧ InWord (e.width σ)) → leaves.Perm elems → MuxTree σ leaves tree →
      tree.shape σ = (Value.proxy elems index).shape σ := by
  intro h
  have hsame := h .empty [.repl (.const 1 (.unsigned 1)) (2 ^ 63 - 1), .const 0 (.signed 1)] _ _ .initial (by decide)
    (.refl _) (.node .initial (.leaf _) (.leaf _))
  exact absurd hsame (by decide)

end Value
end Rtl
