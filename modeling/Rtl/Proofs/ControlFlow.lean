import Mathlib
import Rtl.Proofs.SampleDomains
import Rtl.Proofs.SampleLowering
import Rtl.Proofs.SwitchArms

/-!
# The control flow of builder calls

A program of builder calls has a control flow of its own: an if chain runs its first branch whose condition is not
zero, a switch its first arm that covers the value of the test. Beside it stands what the statements of the lowered
constructs do. The conditions of a chain are packed into one value, lowest first, and branch `i` asks for bit `i`.
-/
namespace Rtl

open List

/-- Values for expressions over the signals of `σ`. A sample that names no domain is one in the default domain. -/
structure Valuation (σ : Arenas) where
  leaf : Value → Int
  default_domain : ∀ {v v'}, v.traversed (Statement.sampleFiller σ syncDomain) = .ok v' → leaf v' = leaf v

namespace Valuation

variable {σ : Arenas}

mutual

/-- The value of an expression. Truth tests and concatenations are computed, all else has the value it was given; a
value is in the range of its shape. -/
def value (ρ : Valuation σ) : Value → Int
  | .unary .bool a _ => if value ρ a = 0 then 0 else 1
  | .cat parts => ((Value.cat parts).shape σ).normalize (packed ρ parts)
  | v => (v.shape σ).normalize (ρ.leaf v)

/-- Values side by side, the first one lowest. -/
def packed (ρ : Valuation σ) : List Value → Int
  | [] => 0
  | v :: vs => value ρ v % 2 ^ (v.width σ).toNat + 2 ^ (v.width σ).toNat * packed ρ vs

end

/-- The value of an operand. -/
def read (ρ : Valuation σ) (o : Operand) : Int :=
  match o.cast with
  | .ok v => ρ.value v
  | .error _ => 0

end Valuation

namespace Value

/-- The outermost construct of an expression. -/
inductive Head where
  | const
  | net (n : Net)
  | unary (op : UnaryOp)
  | binary
  | mux
  | slice
  | part
  | cat
  | repl
  | proxy
  | sample
  | initial

def head : Value → Head
  | .const _ _ => .const
  | .net n => .net n
  | .unary op _ _ => .unary op
  | .binary _ _ _ _ => .binary
  | .mux _ _ _ _ => .mux
  | .slice _ _ _ => .slice
  | .part _ _ _ _ => .part
  | .cat _ => .cat
  | .repl _ _ => .repl
  | .proxy _ _ => .proxy
  | .sample _ _ _ => .sample
  | .initial => .initial

/-- Expressions that have the value they are given: all but truth tests and concatenations. -/
def IsGiven (v : Value) : Prop := v.head ≠ .unary .bool ∧ v.head ≠ .cat

theorem head_relabel {f : Shape → Shape} {g : String → String} (v : Value) : (v.relabel f g).head = v.head := by
  cases v <;> rfl

end Value

namespace Valuation

variable {σ : Arenas} (ρ : Valuation σ)
variable {v : Value}
variable {i : Nat}

theorem value_of_isGiven (h : v.IsGiven) : ρ.value v = (v.shape σ).normalize (ρ.leaf v) := by
  unfold value
  split
  · exact absurd rfl h.1
  · exact absurd rfl h.2
  · rfl

/-- Filling in the default domain keeps the value of an expression. -/
theorem value_filled (hv : v.Settled σ) : ρ.value (v.filled syncDomain) = ρ.value v := by
  have hgiven {u : Value} (hu : u.IsGiven) (hsettled : u.Settled σ) : ρ.value (u.filled syncDomain) = ρ.value u := by
    have hu' : (u.filled syncDomain).IsGiven := by
      rw [Value.IsGiven, Value.filled, Value.head_relabel]
      exact hu
    rw [ρ.value_of_isGiven hu', ρ.value_of_isGiven hu, ρ.default_domain (Value.traversed_eq_filled_iff.mpr hsettled),
      Value.shape_filled]
  induction v with
  | unary op a sh ih =>
    by_cases hop : op = .bool
    · subst hop
      change ρ.value (.unary .bool (a.filled syncDomain) sh) = _
      rw [value, value, ih ((Value.settled_iff.mp hv).2 a (mem_singleton_self a))]
    · exact hgiven ⟨fun hhead => hop (Value.Head.unary.inj hhead), by simp [Value.head]⟩ hv
  | cat parts ih =>
    have hparts : ρ.packed (parts.map (Value.filled syncDomain)) = ρ.packed parts := by
      replace hv := (Value.settled_iff.mp hv).2
      change ∀ c ∈ parts, c.Settled σ at hv
      induction parts with
      | nil => rfl
      | cons v vs ihvs =>
        obtain ⟨ihv, ihrest⟩ := forall_mem_cons.mp ih
        obtain ⟨hv, hrest⟩ := forall_mem_cons.mp hv
        rw [map_cons, packed, packed, ihv hv, ihvs ihrest hrest, Value.width, Value.shape_filled, Value.width]
    have hcat : (Value.cat parts).filled syncDomain = .cat (parts.map (Value.filled syncDomain)) :=
      congrArg Value.cat (Value.relabelAll_eq_map parts)
    rw [hcat, value, value, hparts, ← hcat, Value.shape_filled]
  | const | net | binary | mux | slice | part | repl | proxy | sample | initial =>
    exact hgiven (by simp [Value.IsGiven, Value.head]) hv

theorem value_traversed {v' : Value} (hv : v.Settled σ)
    (h : v.traversed (Statement.sampleFiller σ syncDomain) = .ok v') : ρ.value v' = ρ.value v := by
  obtain rfl := Except.ok.inj (h.symm.trans (Value.traversed_eq_filled_iff.mpr hv))
  exact ρ.value_filled hv

/-- Any values of the nets are those of a valuation. -/
def ofNets (values : Net → Int) : Valuation σ where
  leaf v :=
    match v.head with
    | .net n => values n
    | _ => 0
  default_domain h := by
    have hhead := congrArg Value.head (Value.traversed_eq_ok_iff.mp h).bare
    simp only [Value.bare, Value.filled, Value.head_relabel] at hhead
    rw [hhead]

theorem normalize_odd_iff {s : Shape} (h : s.width = 1) (n : Int) : s.normalize n % 2 = 1 ↔ s.normalize n ≠ 0 := by
  unfold Shape.normalize
  rw [h, Int.toNat_one]
  change (if s.isSigned then n.bmod 2 else n % 2) % 2 = 1 ↔ (if s.isSigned then n.bmod 2 else n % 2) ≠ 0
  split
  · rw [Int.bmod_def]
    split <;> omega
  · omega

theorem value_odd_iff (h : v.width σ = 1) : ρ.value v % 2 = 1 ↔ ρ.value v ≠ 0 := by
  unfold value
  split
  · split <;> simp
  · exact normalize_odd_iff h _
  · exact normalize_odd_iff h _

theorem width_asBit (v : Value) : (v.asBit σ).width σ = 1 := by
  unfold Value.asBit
  split
  · assumption
  · rfl

theorem settled_asBit (hv : v.Settled σ) : (v.asBit σ).Settled σ := by
  unfold Value.asBit
  split
  · exact hv
  · exact Value.settled_iff.mpr ⟨fun _ => rfl, forall_mem_singleton.mpr hv⟩

theorem value_asBit_odd_iff (v : Value) : ρ.value (v.asBit σ) % 2 = 1 ↔ ρ.value v ≠ 0 := by
  rw [ρ.value_odd_iff (width_asBit v)]
  unfold Value.asBit
  split
  · rfl
  · rw [Value.mkUnary, value]
    split <;> simp [*]

/-- Single bits side by side: each is at its own place. -/
theorem packed_div_two_pow {vs : List Value} (hvs : ∀ v ∈ vs, v.width σ = 1) (hi : i < vs.length) :
    ρ.packed vs / 2 ^ i % 2 = ρ.value vs[i] % 2 := by
  induction vs generalizing i with
  | nil => exact absurd hi (Nat.not_lt_zero i)
  | cons v vs ih =>
    obtain ⟨hv, hrest⟩ := forall_mem_cons.mp hvs
    rw [packed, hv, Int.toNat_one, pow_one]
    cases i with
    | zero =>
      rw [pow_zero, Int.ediv_one, getElem_cons_zero]
      omega
    | succ =>
      have hhalf : (ρ.value v % 2 + 2 * ρ.packed vs) / 2 = ρ.packed vs := by omega
      rw [pow_succ', ← Int.ediv_ediv_of_nonneg (by decide), hhalf, getElem_cons_succ]
      exact ih hrest (Nat.lt_of_succ_lt_succ hi)

/-- Bit `i` of packed conditions says whether condition `i` holds. -/
theorem packedTests_bit {tests : List Value} (hwidth : (Value.cat (tests.map (Value.asBit σ))).width σ = tests.length)
    (hi : i < tests.length) : ρ.value (.cat (tests.map (Value.asBit σ))) / 2 ^ i % 2 = 1 ↔ ρ.value tests[i] ≠ 0 := by
  have hbits : ∀ v ∈ tests.map (Value.asBit σ), v.width σ = 1 := by
    intro v hv
    obtain ⟨t, -, rfl⟩ := mem_map.mp hv
    exact width_asBit t
  have hnorm : ρ.value (.cat (tests.map (Value.asBit σ))) =
      ρ.packed (tests.map (Value.asBit σ)) % 2 ^ tests.length := by
    rw [value]
    change (if false then _ else ρ.packed (tests.map (Value.asBit σ)) %
      (Nat.pow 2 ((Value.cat (tests.map (Value.asBit σ))).width σ).toNat : Nat)) = _
    rw [hwidth, Int.toNat_natCast, Nat.pow_eq]
    push_cast
    rfl
  rw [hnorm, Pattern.emod_two_pow_div _ hi, ρ.packed_div_two_pow hbits (by rw [length_map]; exact hi),
    getElem_map, ρ.value_asBit_odd_iff]

end Valuation

namespace Builder

/-- A call on a builder, with the calls of its body. -/
inductive Call where
  | add (domain : String) (stmts : List Statement)
  | ifThen (cond : Operand) (body : List Call)
  | elifThen (cond : Operand) (body : List Call)
  | orElse (body : List Call)
  | switch (test : Operand) (body : List Call)
  | case (patterns : List Operand) (body : List Call)
  | default (body : List Call)

/-- Induction on a call, with all calls of its body at hand. -/
theorem Call.induct {P : Call → Prop} (add : ∀ domain stmts, P (.add domain stmts))
    (ifThen : ∀ cond body, (∀ c ∈ body, P c) → P (.ifThen cond body))
    (elifThen : ∀ cond body, (∀ c ∈ body, P c) → P (.elifThen cond body))
    (orElse : ∀ body, (∀ c ∈ body, P c) → P (.orElse body))
    (switch : ∀ test body, (∀ c ∈ body, P c) → P (.switch test body))
    (case : ∀ patterns body, (∀ c ∈ body, P c) → P (.case patterns body))
    (default : ∀ body, (∀ c ∈ body, P c) → P (.default body)) (c : Call) : P c :=
  @Call.rec P (fun cs => ∀ c ∈ cs, P c) add ifThen elifThen orElse switch case default
    (fun _ h => absurd h not_mem_nil)
    (fun _ _ hc hcs _ h => (mem_cons.mp h).elim (fun e => e ▸ hc) (hcs _)) c

/-- A statement with the domain it is added to. -/
abbrev Selection := String × Statement

/-- The patterns that an arm keeps, in canonical form. -/
def keptPatterns (width : Int) (patterns : List Operand) : List String :=
  patterns.filterMap fun p => (Pattern.normalize p width).toOption.join

/-- An arm that keeps the patterns of an earlier one replaces its body. -/
def placeArm (width : Int) (patterns : List Operand) (body : List Selection) :
    List (List Operand × List Selection) → List (List Operand × List Selection)
  | [] => [(patterns, body)]
  | (ps, old) :: rest =>
    if keptPatterns width ps = keptPatterns width patterns then (ps, body) :: rest
    else (ps, old) :: placeArm width patterns body rest

/-- The body of the first arm that covers `v`. -/
def firstCovered (width v : Int) : List (List Operand × List Selection) → List Selection
  | [] => []
  | (patterns, body) :: rest =>
    if patterns.isEmpty || patterns.any (Pattern.covers width v) then body else firstCovered width v rest

namespace Call

variable {σ : Arenas}

/-- Whether a branch of the if chain that the call belongs to has been taken; `taken` says so for the calls before. -/
def chainTaken (ρ : Valuation σ) (taken : Bool) : Call → Bool
  | .ifThen cond _ => ρ.read cond ≠ 0
  | .elifThen cond _ => taken || ρ.read cond ≠ 0
  | _ => true

/-- The width of a test. -/
def testWidth (σ : Arenas) (test : Operand) : Int :=
  match test.cast with
  | .ok v => v.width σ
  | .error _ => 0

mutual

/-- The statements that a call selects, in order. -/
def select (ρ : Valuation σ) (taken : Bool) : Call → List Selection
  | .add domain stmts => stmts.map fun s => (domain, s)
  | .ifThen cond body => if ρ.read cond ≠ 0 then selectAll ρ true body else []
  | .elifThen cond body => if !taken && ρ.read cond ≠ 0 then selectAll ρ true body else []
  | .orElse body => if taken then [] else selectAll ρ true body
  | .switch test body => firstCovered (testWidth σ test) (ρ.read test) (armsAll ρ (testWidth σ test) [] body)
  | .case _ _ | .default _ => []

def selectAll (ρ : Valuation σ) (taken : Bool) : List Call → List Selection
  | [] => []
  | c :: cs => select ρ taken c ++ selectAll ρ (c.chainTaken ρ taken) cs

/-- The arms of a switch after a call in it. An arm whose patterns are all too wide is none. -/
def arms (ρ : Valuation σ) (width : Int) (acc : List (List Operand × List Selection)) :
    Call → List (List Operand × List Selection)
  | .case patterns body =>
    if !patterns.isEmpty && (keptPatterns width patterns).isEmpty then acc
    else placeArm width patterns (selectAll ρ true body) acc
  | .default body => placeArm width [] (selectAll ρ true body) acc
  | _ => acc

def armsAll (ρ : Valuation σ) (width : Int) (acc : List (List Operand × List Selection)) :
    List Call → List (List Operand × List Selection)
  | [] => acc
  | c :: cs => armsAll ρ width (arms ρ width acc c) cs

end

variable {α : Type}

mutual

/-- Makes a call, and the calls of its body inside of it. -/
def build : Call → Build α Unit
  | .add domain stmts => addStatements domain stmts
  | .ifThen cond body => Builder.ifThen cond (buildAll body)
  | .elifThen cond body => Builder.elifThen cond (buildAll body)
  | .orElse body => Builder.orElse (buildAll body)
  | .switch test body => Builder.switch test (buildAll body)
  | .case patterns body => Builder.case patterns (buildAll body)
  | .default body => Builder.default (buildAll body)

def buildAll : List Call → Build α Unit
  | [] => pure ()
  | c :: cs => do
    build c
    buildAll cs

end

mutual

/-- What the call tests satisfies `P`, and switches have tests of at least one bit. -/
def Asks (P : Value → Prop) (σ : Arenas) : Call → Prop
  | .add _ _ => True
  | .ifThen cond body | .elifThen cond body => (∀ v, cond.cast = .ok v → P v) ∧ AsksAll P σ body
  | .orElse body | .case _ body | .default body => AsksAll P σ body
  | .switch test body => (∀ v, test.cast = .ok v → P v ∧ 1 ≤ v.width σ) ∧ AsksAll P σ body

def AsksAll (P : Value → Prop) (σ : Arenas) : List Call → Prop
  | [] => True
  | c :: cs => Asks P σ c ∧ AsksAll P σ cs

end

theorem asksAll_iff {P : Value → Prop} {calls : List Call} : AsksAll P σ calls ↔ ∀ c ∈ calls, c.Asks P σ := by
  induction calls with
  | nil => simp [AsksAll]
  | cons c calls ih => rw [AsksAll, ih, forall_mem_cons]

end Call

/-- The form in which an added statement ends up: samples without a domain are in its own domain, or in the default one
where it has none. -/
def delivered (σ : Arenas) (domain : String) (s : Statement) : Except Failure (List Statement) :=
  placed σ domain s >>= Statement.fillSampleDomain σ syncDomain

def Delivered (σ : Arenas) (e : Selection) (s : Statement) : Prop := delivered σ e.1 e.2 = .ok [s]

end Builder
end Rtl
