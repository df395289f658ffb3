import Mathlib
import Rtl.MemoryPort
import Rtl.Proofs.Arenas
import Rtl.Proofs.Patterns
import Rtl.Proofs.Ranges

/-!
# Ports onto memories

The cell of a write port has one enable for each data bit: the bits of the enable signal of the port, lowest first, each
as often as the port has data bits for it. The address of a port has as many bits as the last word asks for, and at
least one.
-/
namespace Rtl

open List Int

variable {a : Nat} {σ : Arenas} {m : Memory}

namespace Value

mutual

/-- The bits of a value that only arranges the bits of signals, lowest first, as bits of these signals. -/
def wires (σ : Arenas) : Value → List (SignalId × Nat)
  | .net (.signal id) => (List.range (σ.shape id).width.toNat).map (id, ·)
  | .slice v start stop => ((wires σ v).take stop.toNat).drop start.toNat
  | .cat parts => wiresAll σ parts
  | .repl v count => (List.replicate count.toNat (wires σ v)).flatten
  | _ => []

def wiresAll (σ : Arenas) : List Value → List (SignalId × Nat)
  | [] => []
  | v :: vs => wires σ v ++ wiresAll σ vs

end

theorem wiresAll_eq_flatMap (σ : Arenas) (vs : List Value) : wiresAll σ vs = vs.flatMap (wires σ) := by
  induction vs with
  | nil => rfl
  | cons v vs ih => rw [wiresAll, ih, flatMap_cons]

end Value

/-- A shape for addresses has as many bits as the words of the memory ask for. -/
def Memory.Spans (m : Memory) (s : Shape) : Prop := ∃ w : Nat, s = .unsigned w ∧
  IsLeast { w : Nat | 1 ≤ w ∧ ∀ word : Int, 0 ≤ word → word < m.depth → (Shape.unsigned w).Holds word } w

theorem Memory.spans_addressShape (hdepth : 0 ≤ m.depth) (hword : InWord m.depth) : m.Spans m.addressShape := by
  have hwrap : wrap (m.depth - 1) = m.depth - 1 := wrap_of_inWord ⟨by omega, sub_lt_self m.depth one_pos |>.trans hword.2⟩
  refine ⟨bitsFor (max (m.depth - 1) 0) false, by rw [addressShape, hwrap], ?_⟩
  have hset : { w : Nat | 1 ≤ w ∧ ∀ word : Int, 0 ≤ word → word < m.depth → (Shape.unsigned w).Holds word } =
      { w : Nat | 1 ≤ w ∧ max (m.depth - 1) 0 < 2 ^ w } := by
    ext w
    have hpos : (0 : Int) < 2 ^ w := by positivity
    simp only [Set.mem_ofPred_eq, Shape.unsigned, Shape.holds_unsigned, toNat_natCast]
    refine and_congr_right fun _ => ⟨fun h => ?_, fun h word hlow hhigh => ⟨natCast_nonneg w, hlow, by omega⟩⟩
    by_cases hempty : m.depth = 0
    · omega
    · have hlast := h (m.depth - 1) (by omega) (by omega)
      omega
  rw [hset]
  exact Pattern.bitsFor_isLeast (le_max_right _ _)

/-- A memory that was made has no negative number of words. -/
theorem Memory.create_inv {width depth : Int} {name : String} {init : List Int}
    (h : (Memory.create σ a width depth name init).2 = .ok m) : m.width = width ∧ m.depth = depth ∧ 0 ≤ depth := by
  unfold Memory.create at h
  split at h
  · cases h
  · split at h
    · cases h
    · rename_i hdepth
      dsimp only at h
      split at h
      · cases h
      · cases h
        exact ⟨rfl, rfl, not_lt.mp hdepth⟩

namespace Instance

variable {σ : Arenas} {i : Instance} {name : String}

theorem bind_input (v : Value) (h : i.ports.any (·.name = name) = false) :
    i.bind σ .input name (.value v) = .ok { i with ports := i.ports ++ [⟨name, v, .input⟩] } := by
  simp [bind, Operand.cast, h]

end Instance

namespace WritePort

variable {σ σ' τ : Arenas} {a : Nat} {m : Memory} {domain : String} {granularity : Int} {p : WritePort}
variable {bits g n : Nat}

/-- What the parts of a write port are: its enable signal has a bit for each group of data bits. -/
theorem create_inv (ha : a < σ.list.size) (h : create σ a m domain granularity = .ok (σ', p)) (hwidth : 1 ≤ m.width) :
    0 < granularity ∧ granularity ∣ m.width ∧ p.granularity = granularity ∧
      σ'.shape p.en = .unsigned (m.width / granularity) ∧ σ'.shape p.addr = m.addressShape := by
  unfold create at h
  split at h
  · cases h
  split at h
  · cases h
  split at h
  · cases h
  rename_i hpos hdivides
  have hpos : 0 < granularity := by omega
  have hdivides : granularity ∣ m.width := dvd_of_tmod_eq_zero (by by_contra hne; exact hdivides ⟨by omega, hne⟩)
  obtain ⟨⟨σ1, addr⟩, haddr, h⟩ := except_bind_eq_ok.mp h
  obtain ⟨⟨σ2, data⟩, hdata, h⟩ := except_bind_eq_ok.mp h
  obtain ⟨⟨σ3, en⟩, hen, h⟩ := except_bind_eq_ok.mp h
  cases h
  obtain ⟨hext1, hissued1, hshape1⟩ := Arenas.issue_spec haddr ha
  have ha1 := ha.trans_eq hext1.size.symm
  obtain ⟨hext2, -⟩ := Arenas.issue_spec hdata ha1
  obtain ⟨hext3, -, hshape3⟩ := Arenas.issue_spec hen (ha1.trans_eq hext2.size.symm)
  refine ⟨hpos, hdivides, rfl, hshape3.trans ?_, ((hext2.trans hext3).shape _ hissued1).trans hshape1⟩
  change Shape.unsigned (enableWidth m granularity) = _
  rw [enableWidth, if_pos (by omega), tdiv_eq_ediv_of_nonneg (by omega)]

/-- An enable bit for its group of data bits. -/
def group (p : WritePort) (k : Nat) : Value := .repl (.slice (.signal p.en) k (k + 1)) p.granularity

theorem enableBits_eq (hen : τ.shape p.en = .unsigned bits) (hbits : InWord bits) (hg : 0 ≤ p.granularity) {i : Nat}
    (h : i + n = bits) : p.enableBits τ n i = .ok ((List.range' i n).map p.group) := by
  induction n generalizing i with
  | zero => rfl
  | succ n ih =>
    have hwidth : (Value.signal p.en).width τ = bits := congrArg Shape.width hen
    have hneg : wrap (-(bits : Int)) = -bits := wrap_of_inWord (by unfold InWord at *; omega)
    have hnext : wrap ((i : Int) + 1) = i + 1 := wrap_of_inWord (by unfold InWord at *; omega)
    have hbit : Value.bit τ (.signal p.en) i = .ok (.slice (.signal p.en) i (i + 1)) := by
      simp only [Value.bit, Value.mkSlice, hwidth, hneg, if_neg (not_lt.mpr (natCast_nonneg i)), hnext,
        Bool.or_eq_true, decide_eq_true_eq]
      rw [if_neg (by omega), if_neg (by omega), if_neg (by omega)]
    have hrepl : Value.mkRepl (.value (.slice (.signal p.en) i (i + 1))) p.granularity = .ok (p.group i) := by
      rw [Value.mkRepl, if_neg (not_lt.mpr hg)]
      rfl
    rw [enableBits, hbit, List.range'_succ, map_cons]
    refine except_bind_eq_ok.mpr ⟨_, rfl, except_bind_eq_ok.mpr ⟨_, hrepl, ?_⟩⟩
    exact except_bind_eq_ok.mpr ⟨_, ih (by omega), rfl⟩

theorem wires_group {k : Nat} (hen : τ.shape p.en = .unsigned bits) (hg : p.granularity = g) (hk : k < bits) :
    (p.group k).wires τ = List.replicate g (p.en, k) := by
  have hslice : (Value.slice (.signal p.en) k (k + 1)).wires τ = [(p.en, k)] := by
    change ((List.map (p.en, ·) (List.range (τ.shape p.en).width.toNat)).take (k + 1)).drop k = _
    simp only [hen, Shape.unsigned, toNat_natCast, ← map_take, take_range, Nat.min_eq_left hk,
      range_succ, map_append]
    exact drop_left' (by simp)
  rw [group, hg]
  change (List.replicate g ((Value.slice (.signal p.en) k (k + 1)).wires τ)).flatten = _
  rw [hslice, flatten_replicate_singleton]

/-- The bits of the first `n` groups. -/
theorem wires_groups (hen : τ.shape p.en = .unsigned bits) (hg : p.granularity = g) (hn : n ≤ bits) :
    (Value.wiresAll τ ((List.range n).map p.group)).length = n * g ∧
      ∀ j < n * g, (Value.wiresAll τ ((List.range n).map p.group))[j]? = some (p.en, j / g) := by
  rw [Value.wiresAll_eq_flatMap, flatMap_map]
  induction n with
  | zero => simp
  | succ n ih =>
    obtain ⟨hlength, hbits⟩ := ih (by omega)
    rw [range_succ, flatMap_append, flatMap_singleton, wires_group hen hg hn]
    refine ⟨by rw [length_append, hlength, length_replicate, Nat.succ_mul], fun j hj => ?_⟩
    obtain hlt | hge := lt_or_ge j (n * g)
    · rw [getElem?_append_left (hlength ▸ hlt), hbits j hlt]
    · rw [Nat.succ_mul] at hj
      rw [getElem?_append_right (hlength ▸ hge), hlength, getElem?_replicate_of_lt (by omega),
        Nat.div_eq_of_lt_le hge (by rw [Nat.succ_mul]; exact hj)]

theorem width_groups (hg : p.granularity = g) (hgroup : InWord g) (hword : InWord (n * g)) :
    (Value.cat ((List.range n).map p.group)).width τ = n * g := by
  have hwidth (k : Nat) : ((p.group k).shape τ).width = g := by
    have hone : wrap (((k : Int) + 1) - k) = 1 := by
      rw [add_sub_cancel_left]
      rfl
    change wrap (wrap (((k : Int) + 1) - k) * p.granularity) = g
    rw [hone, hg, one_mul, wrap_of_inWord hgroup]
  change Shape.totalWidth (Value.shapes τ ((List.range n).map p.group)) = n * g
  simp only [Value.shapes_eq_map, Shape.totalWidth_eq, map_map, Function.comp_def, hwidth, map_const',
    length_range, sum_replicate, nsmul_eq_mul]
  exact wrap_of_inWord hword

/-- The cell of a write port, with the enables of its data bits. -/
theorem cell_eq (hen : τ.shape p.en = .unsigned bits) (hbits : InWord bits) (hg : 0 ≤ p.granularity) :
    ∃ i, p.cell τ = .ok i ∧ i.cell = Instance.writeCell ∧
      i.port? "EN" = some ⟨"EN", .cat ((List.range bits).map p.group), .input⟩ := by
  have henables := enableBits_eq hen hbits hg (Nat.zero_add bits)
  rw [← range_eq_range'] at henables
  have hwidth : (τ.shape p.en).width.toNat = bits := by rw [hen]; rfl
  unfold cell
  rw [hwidth, henables]
  refine ⟨_, except_bind_eq_ok.mpr ⟨_, rfl, except_bind_eq_ok.mpr ⟨_, Instance.bind_input _ rfl, except_bind_eq_ok.mpr
    ⟨_, Instance.bind_input _ rfl, except_bind_eq_ok.mpr ⟨_, Instance.bind_input _ rfl, Instance.bind_input _ rfl⟩⟩⟩⟩, rfl, rfl⟩

end WritePort

/-- The address signal of a read port. -/
theorem ReadPort.create_addr {σ' : Arenas} {domain : String} {transparent : Bool} {p : ReadPort}
    (ha : a < σ.list.size) (h : create σ a m domain transparent = .ok (σ', p)) : σ'.shape p.addr = m.addressShape := by
  unfold create at h
  split at h
  · cases h
  obtain ⟨⟨σ1, addr⟩, haddr, h⟩ := except_bind_eq_ok.mp h
  obtain ⟨⟨σ2, data⟩, hdata, h⟩ := except_bind_eq_ok.mp h
  obtain ⟨hext1, hissued, hshape⟩ := Arenas.issue_spec haddr ha
  have ha1 := ha.trans_eq hext1.size.symm
  obtain ⟨hext2, -⟩ := Arenas.issue_spec hdata ha1
  have hlater {σ3 : Arenas} (hext : σ1.Extends σ3) : σ3.shape addr = m.addressShape :=
    (hext.shape addr hissued).trans hshape
  dsimp only at h
  split at h
  · obtain ⟨⟨σ3, en⟩, hen, h⟩ := except_bind_eq_ok.mp h
    cases h
    exact hlater (hext2.trans (Arenas.issue_spec hen (ha1.trans_eq hext2.size.symm)).1)
  · cases h
    exact hlater hext2

namespace Memory

/-- What ports onto a memory of at least one bit are, as long as the signals of the port keep their shapes: the enable
for what the cell enables, the address for the words that it can name. -/
theorem ports_fit {σ₀ σ σ' τ : Arenas} {a₀ a : Nat} {width depth : Int} {name domain : String} {init : List Int} {m : Memory}
    (hm : (create σ₀ a₀ width depth name init).2 = .ok m) (hwidth : 1 ≤ width) (hbits : InWord width)
    (hwords : InWord depth) (ha : a < σ.list.size) :
    (∀ granularity p, WritePort.create σ a m domain granularity = .ok (σ', p) →
      granularity ∣ width ∧
      (τ.shape p.en = σ'.shape p.en → τ.shape p.en = .unsigned (width / granularity) ∧
        ∃ i v, p.cell τ = .ok i ∧ i.cell = Instance.writeCell ∧ i.port? "EN" = some ⟨"EN", v, .input⟩ ∧
          v.width τ = width ∧ (v.wires τ).length = width ∧
          ∀ j : Nat, j < width → (v.wires τ)[j]? = some (p.en, j / granularity.toNat)) ∧
      (τ.shape p.addr = σ'.shape p.addr → m.Spans (τ.shape p.addr))) ∧
    ∀ transparent p, ReadPort.create σ a m domain transparent = .ok (σ', p) →
      τ.shape p.addr = σ'.shape p.addr → m.Spans (τ.shape p.addr) := by
  obtain ⟨rfl, rfl, hdepth⟩ := create_inv hm
  have hspans := spans_addressShape hdepth hwords
  refine ⟨fun granularity p hp => ?_, fun transparent p hp hkept => ?_⟩
  · obtain ⟨hpos, hdivides, rfl, henable, haddress⟩ := WritePort.create_inv ha hp hwidth
    refine ⟨hdivides, fun hkept => ?_, fun hkept => ?_⟩
    · have hen : τ.shape p.en = .unsigned (m.width / p.granularity) := hkept.trans henable
      refine ⟨hen, ?_⟩
      -- Widths are counted in bits from here on.
      obtain ⟨g, hg⟩ := eq_ofNat_of_zero_le hpos.le
      obtain ⟨bits, hcount⟩ := eq_ofNat_of_zero_le (ediv_nonneg (by omega : 0 ≤ m.width) hpos.le)
      have hproduct : (bits : Int) * g = m.width := by
        rw [← hcount, ← hg]
        exact Int.ediv_mul_cancel hdivides
      rw [hcount] at hen
      have hle : (bits : Int) ≤ m.width ∧ (g : Int) ≤ m.width :=
        ⟨hcount ▸ ediv_le_self _ (by omega), hg ▸ le_of_dvd (by omega) hdivides⟩
      have hword : InWord bits ∧ InWord g := by
        unfold InWord at *
        omega
      obtain ⟨i, hi, hcell, hport⟩ := WritePort.cell_eq hen hword.1 hpos.le
      obtain ⟨hlength, hwires⟩ := WritePort.wires_groups hen hg le_rfl
      zify at hlength
      refine ⟨i, _, hi, hcell, hport, ?_, hlength.trans hproduct, fun j hj => ?_⟩
      · rw [WritePort.width_groups hg hword.2 (hproduct ▸ hbits), hproduct]
      · rw [hg, toNat_natCast]
        apply hwires j
        zify
        omega
    · rw [hkept, haddress]
      exact hspans
  · rw [hkept, ReadPort.create_addr ha hp]
    exact hspans

/-- Five words of two nibbles. -/
def nibbles : Memory := ⟨0, 1, "nibbles", 8, 5, []⟩

/-- Their port for writing, after its data signal got another shape. -/
theorem ports_fit_nibbles : ∃ σ' p τ, WritePort.create ⟨#[.empty]⟩ 0 nibbles syncDomain 4 = .ok (σ', p) ∧
    σ'.reshape p.data (.unsigned 2) 0 = .ok τ ∧ τ.shape p.data ≠ σ'.shape p.data ∧
    (4 : Int) ∣ 8 ∧ τ.shape p.en = .unsigned 2 ∧
    (∃ i v, p.cell τ = .ok i ∧ i.cell = Instance.writeCell ∧ i.port? "EN" = some ⟨"EN", v, .input⟩ ∧ v.width τ = 8 ∧
      (v.wires τ).length = (8 : Int) ∧ ∀ j : Nat, (j : Int) < 8 → (v.wires τ)[j]? = some (p.en, j / 4)) ∧
    nibbles.Spans (τ.shape p.addr) := by
  have hm : (create ⟨#[.empty]⟩ 0 8 5 "nibbles" []).2 = .ok nibbles := rfl
  have ha : 0 < (⟨#[.empty]⟩ : Arenas).list.size := Nat.one_pos
  obtain ⟨σ', p, τ, hp, hτ, hdata, hen, haddr⟩ : ∃ σ' p τ,
      WritePort.create ⟨#[.empty]⟩ 0 nibbles syncDomain 4 = .ok (σ', p) ∧
      σ'.reshape p.data (.unsigned 2) 0 = .ok τ ∧ τ.shape p.data ≠ σ'.shape p.data ∧
      τ.shape p.en = σ'.shape p.en ∧ τ.shape p.addr = σ'.shape p.addr :=
    ⟨_, _, _, rfl, rfl, by decide, rfl, rfl⟩
  obtain ⟨hdivides, henables, hspans⟩ := (ports_fit hm (by decide) (by decide) (by decide) ha).1 4 p hp
  obtain ⟨hshape, hcell⟩ := henables hen
  exact ⟨σ', p, τ, hp, hτ, hdata, hdivides, hshape, hcell, hspans haddr⟩

end Memory
end Rtl
