import Peephole.Rule.Straight
import Peephole.Proofs.Machine.Sweep

/-!
# What contractions keep

Every contraction puts code in the place of a window that sweeps any operand
stack and any variables to the same result, unless the window itself traps.  It
never traps on a division.  The code is shorter than the window, or as long and
with fewer products.
-/

namespace Peephole

open Machine

/-- Wherever a window does not trap, some code sweeps to the same result; the
window never divides by zero. -/
def Covers (window code : List Instruction) : Prop :=
  ∀ stack locals,
    match sweep window stack locals with
    | .ok result => sweep code stack locals = .ok result
    | .error trap => trap ≠ .divisionByZero

/-- A window without jumps and labels, and code that can stand in its place. -/
structure Replaceable (window code : List Instruction) : Prop where
  plain : ∀ instruction ∈ window ++ code, instruction.label? = none ∧ instruction.target? = none
  covers : Covers window code
  lighter : code.length < window.length ∨
    code.length = window.length ∧ Instruction.binary .mul ∈ window
  productless : Instruction.binary .mul ∉ code

namespace Replaceable

variable {window code : List Instruction}

theorem definitions_eq_nil (hreplaceable : Replaceable window code) :
    Code.definitions window = [] ∧ Code.definitions code = [] := by
  have hplain : Code.definitions (window ++ code) = [] :=
    List.filterMap_eq_nil_iff.mpr fun instruction hinstruction =>
      (hreplaceable.plain instruction hinstruction).1
  simpa using hplain

theorem targets_eq_nil (hreplaceable : Replaceable window code) :
    Code.targets window = [] ∧ Code.targets code = [] := by
  have hplain : Code.targets (window ++ code) = [] :=
    List.filterMap_eq_nil_iff.mpr fun instruction hinstruction =>
      (hreplaceable.plain instruction hinstruction).2
  simpa using hplain

theorem window_ne_nil (hreplaceable : Replaceable window code) : window ≠ [] := by
  intro hwindow
  simpa [hwindow] using hreplaceable.lighter

end Replaceable

/-- The window of a contraction is what stands ahead, and its code can stand in
its place. -/
def Contraction.Fits (contraction : Contraction) (ahead : List Instruction) : Prop :=
  ∃ window rest, ahead = window ++ rest ∧ window.length = contraction.width ∧
    Replaceable window contraction.code

/-- Neither side has jumps or labels, and the code has no products and is shorter
than the window, unless it takes the place of a product. -/
def Code.slimmer (code window : List Instruction) : Bool :=
  (∀ instruction ∈ window ++ code, instruction.label? = none ∧ instruction.target? = none) ∧
    (code.length < window.length ∨
      code.length = window.length ∧ Instruction.binary .mul ∈ window) ∧
    Instruction.binary .mul ∉ code

theorem Contraction.fits_of_covers {window code : List Instruction}
    (hcovers : Covers window code) (hslimmer : Code.slimmer code window = true)
    (rest : List Instruction) :
    Contraction.Fits ⟨window.length, code⟩ (window ++ rest) := by
  obtain ⟨hplain, hlighter, hproductless⟩ := of_decide_eq_true hslimmer
  exact ⟨window, rest, rfl, rfl, hplain, hcovers, hlighter, hproductless⟩

namespace Straight

/-! ## Operand stacks -/

theorem covers_nop : Covers [.nop] [] := by
  intro stack locals
  simp [sweep, execute]

theorem covers_dup_store_pop (kind : Kind) (slot : Slot) :
    Covers [.dup, .store kind slot, .pop] [.store kind slot] := by
  intro stack locals
  cases stack with
  | nil => simp [sweep, execute]
  | cons top stack => by_cases hslot : slot.toNat < locals.length <;> simp [sweep, execute, hslot]

theorem covers_const_pop (value : Int32) : Covers [.const value, .pop] [] := by
  intro stack locals
  simp [sweep, execute]

theorem covers_dup_pop : Covers [.dup, .pop] [] := by
  intro stack locals
  cases stack <;> simp [sweep, execute]

/-- A window that loads a variable covers code that sweeps as it goes on. -/
theorem covers_load {kind : Kind} {slot : Slot} {window code : List Instruction}
    (hsweep : ∀ stack locals value, locals[slot.toNat]? = some value →
      ∃ result, sweep window (value :: stack) locals = .ok result ∧
        sweep code stack locals = .ok result) :
    Covers (.load kind slot :: window) code := by
  intro stack locals
  cases hvalue : locals[slot.toNat]? with
  | none => simp [sweep, execute, hvalue]
  | some value =>
      obtain ⟨result, hwindow, hcode⟩ := hsweep stack locals value hvalue
      simp [sweep, execute, hvalue, hwindow, hcode]

theorem covers_load_pop (kind : Kind) (slot : Slot) : Covers [.load kind slot, .pop] [] :=
  covers_load fun stack locals value _ => ⟨(stack, locals), by simp [sweep, execute]⟩

theorem set_eq_self {locals : List Int32} {index : Nat} {value : Int32}
    (hvalue : locals[index]? = some value) : locals.set index value = locals := by
  obtain ⟨hindex, rfl⟩ := List.getElem?_eq_some_iff.mp hvalue
  exact List.set_getElem_self hindex

theorem covers_load_store (kind : Kind) (slot : Slot) :
    Covers [.load kind slot, .store kind slot] [] := by
  refine covers_load fun stack locals value hvalue => ⟨(stack, locals), ?_, rfl⟩
  obtain ⟨hslot, -⟩ := List.getElem?_eq_some_iff.mp hvalue
  simp [sweep, execute, hslot, set_eq_self hvalue]

/-! ## Arithmetic -/

theorem div_neg_one (value : Int32) : value / -1 = -value := by
  apply Int32.toInt_inj.mp
  rw [Int32.toInt_div, Int32.toInt_neg]
  simp

theorem mod_neg_one (value : Int32) : value % -1 = 0 := by
  apply Int32.toInt_inj.mp
  rw [Int32.toInt_mod]
  simp

theorem covers_const_negate (value : Int32) : Covers [.const value, .negate] [.const (-value)] := by
  intro stack locals
  simp [sweep, execute]

theorem covers_const_const {left right value : Int32} {operator : Operator}
    (hvalue : operator.evaluate? left right = some value) :
    Covers [.const left, .const right, .binary operator] [.const value] := by
  intro stack locals
  simp [sweep, execute, hvalue]

/-- An operator whose right operand is a constant covers code that does the same
to the left one. -/
theorem covers_const_binary {value : Int32} {operator : Operator} {code : List Instruction}
    (result : Int32 → Int32)
    (hvalue : ∀ left, operator.evaluate? left value = some (result left))
    (hcode : ∀ left stack locals,
      sweep code (left :: stack) locals = .ok (result left :: stack, locals)) :
    Covers [.const value, .binary operator] code := by
  intro stack locals
  cases stack with
  | nil => simp [sweep, execute]
  | cons left stack => simp [sweep, execute, hvalue, hcode]

/-- A variable and a constant under an operator cover code that pushes the result. -/
theorem covers_load_const {slot : Slot} {factor : Int32} {operator : Operator}
    {code : List Instruction} (result : Int32 → Int32)
    (hvalue : ∀ value, operator.evaluate? value factor = some (result value))
    (hcode : ∀ stack locals value, locals[slot.toNat]? = some value →
      sweep code stack locals = .ok (result value :: stack, locals)) :
    Covers [.load .int slot, .const factor, .binary operator] code :=
  covers_load fun stack locals value hslot =>
    ⟨(result value :: stack, locals), by simp [sweep, execute, hvalue],
      hcode stack locals value hslot⟩

theorem covers_const_load {slot : Slot} {factor : Int32} {operator : Operator}
    {code : List Instruction} (result : Int32 → Int32)
    (hvalue : ∀ value, operator.evaluate? factor value = some (result value))
    (hcode : ∀ stack locals value, locals[slot.toNat]? = some value →
      sweep code stack locals = .ok (result value :: stack, locals)) :
    Covers [.const factor, .load .int slot, .binary operator] code := by
  intro stack locals
  cases hslot : locals[slot.toNat]? with
  | none => simp [sweep, execute, hslot]
  | some value => simp [sweep, execute, hslot, hvalue, hcode stack locals value hslot]

theorem covers_load_load_sub (slot : Slot) :
    Covers [.load .int slot, .load .int slot, .binary .sub] [.const 0] :=
  covers_load fun stack locals value hslot =>
    ⟨(0 :: stack, locals), by simp [sweep, execute, hslot, Operator.evaluate?]⟩

theorem covers_negate_negate : Covers [.negate, .negate] [] := by
  intro stack locals
  cases stack <;> simp [sweep, execute]

theorem covers_negate_binary {operator inverse : Operator}
    (hinverse : ∀ left right,
      operator.evaluate? left (-right) = inverse.evaluate? left right)
    (htotal : ∀ left right, ∃ value, inverse.evaluate? left right = some value) :
    Covers [.negate, .binary operator] [.binary inverse] := by
  intro stack locals
  rcases stack with _ | ⟨right, _ | ⟨left, stack⟩⟩
  · simp [sweep, execute]
  · simp [sweep, execute]
  · obtain ⟨value, hvalue⟩ := htotal left right
    simp [sweep, execute, hinverse, hvalue]

/-! ## Increments -/

theorem toInt32_of_amount? {value : Int} {amount : Int8} (hamount : amount? value = some amount) :
    amount.toInt32 = Int32.ofInt value := by
  rw [amount?] at hamount
  split at hamount
  · rename_i hrange
    obtain rfl := Option.some.inj hamount
    rw [← Int32.ofInt_int8ToInt, Int8.toInt_ofInt_of_le hrange.1 (by omega)]
  · simp at hamount

/-- Reading a variable, adding to it and writing it back covers an increment. -/
theorem covers_load_update {slot : Slot} {value : Int32} {amount : Int8} {operator : Operator}
    (hamount : ∀ old, operator.evaluate? old value = some (old + amount.toInt32)) :
    Covers [.load .int slot, .const value, .binary operator, .store .int slot]
      [.increment slot amount] := by
  refine covers_load fun stack locals old hslot => ?_
  obtain ⟨hindex, rfl⟩ := List.getElem?_eq_some_iff.mp hslot
  exact ⟨(stack, locals.set slot.toNat (locals[slot.toNat] + amount.toInt32)),
    by simp [sweep, execute, hamount, hindex]⟩

theorem covers_const_update {slot : Slot} {value : Int32} {amount : Int8} {operator : Operator}
    (hamount : ∀ old, operator.evaluate? value old = some (old + amount.toInt32)) :
    Covers [.const value, .load .int slot, .binary operator, .store .int slot]
      [.increment slot amount] := by
  intro stack locals
  cases hslot : locals[slot.toNat]? with
  | none => simp [sweep, execute, hslot]
  | some old =>
      obtain ⟨hindex, rfl⟩ := List.getElem?_eq_some_iff.mp hslot
      simp [sweep, execute, hamount, hindex]

theorem covers_increment_zero (slot : Slot) : Covers [.increment slot 0] [] := by
  intro stack locals
  cases hslot : locals[slot.toNat]? with
  | none => simp [sweep, execute, hslot]
  | some value => simp [sweep, execute, hslot, set_eq_self hslot]

theorem covers_increment_increment {slot : Slot} {left right amount : Int8}
    (hamount : amount? (left.toInt + right.toInt) = some amount) :
    Covers [.increment slot left, .increment slot right]
      (if amount = 0 then [] else [.increment slot amount]) := by
  have hsum : ∀ value : Int32,
      value + left.toInt32 + right.toInt32 = value + amount.toInt32 := by
    intro value
    rw [toInt32_of_amount? hamount, Int32.ofInt_add, Int32.add_assoc, Int32.ofInt_int8ToInt,
      Int32.ofInt_int8ToInt]
  intro stack locals
  cases hslot : locals[slot.toNat]? with
  | none => simp [sweep, execute, hslot]
  | some value =>
      obtain ⟨hindex, rfl⟩ := List.getElem?_eq_some_iff.mp hslot
      by_cases hzero : amount = 0
      · have hsame : ∀ value : Int32, value + left.toInt32 + right.toInt32 = value := by
          intro value
          rw [hsum, hzero]
          exact Int32.add_zero value
        simp [sweep, execute, hindex, hzero, hsame]
      · simp [sweep, execute, hindex, hzero, hsum]

/-! ## The contractions -/

section

variable {ahead : List Instruction} {contraction : Contraction}

theorem fits_removeNop (hcontraction : removeNop ahead = some contraction) :
    contraction.Fits ahead := by
  unfold removeNop at hcontraction
  split at hcontraction
  · obtain rfl := Option.some.inj hcontraction
    exact Contraction.fits_of_covers covers_nop rfl _
  · simp at hcontraction

theorem fits_simplifyDupStorePop (hcontraction : simplifyDupStorePop ahead = some contraction) :
    contraction.Fits ahead := by
  unfold simplifyDupStorePop at hcontraction
  split at hcontraction
  · obtain rfl := Option.some.inj hcontraction
    exact Contraction.fits_of_covers (covers_dup_store_pop _ _) rfl _
  · simp at hcontraction

theorem fits_removePushPop (hcontraction : removePushPop ahead = some contraction) :
    contraction.Fits ahead := by
  unfold removePushPop at hcontraction
  split at hcontraction
  · obtain rfl := Option.some.inj hcontraction
    exact Contraction.fits_of_covers (covers_load_pop _ _) rfl _
  · obtain rfl := Option.some.inj hcontraction
    exact Contraction.fits_of_covers (covers_const_pop _) rfl _
  · obtain rfl := Option.some.inj hcontraction
    exact Contraction.fits_of_covers covers_dup_pop rfl _
  · simp at hcontraction

theorem fits_removeLoadStoreSameSlot
    (hcontraction : removeLoadStoreSameSlot ahead = some contraction) :
    contraction.Fits ahead := by
  unfold removeLoadStoreSameSlot at hcontraction
  split at hcontraction
  · split at hcontraction
    · rename_i hsame
      obtain ⟨rfl, rfl⟩ := hsame
      obtain rfl := Option.some.inj hcontraction
      exact Contraction.fits_of_covers (covers_load_store _ _) rfl _
    · simp at hcontraction
  · simp at hcontraction

theorem fits_foldConstants (hcontraction : foldConstants ahead = some contraction) :
    contraction.Fits ahead := by
  unfold foldConstants at hcontraction
  split at hcontraction
  · obtain rfl := Option.some.inj hcontraction
    exact Contraction.fits_of_covers (covers_const_negate _) rfl _
  · obtain ⟨value, hvalue, rfl⟩ := Option.map_eq_some_iff.mp hcontraction
    exact Contraction.fits_of_covers (covers_const_const hvalue) rfl _
  · simp at hcontraction

/-- A product with a small factor is pushed by code without products. -/
theorem exists_of_product? {slot : Slot} {factor : Int32}
    (hcontraction : product? slot factor = some contraction) :
    ∃ code, ∃ result : Int32 → Int32, contraction = ⟨3, code⟩ ∧
      (∀ value, value * factor = result value) ∧
      (∀ stack locals value, locals[slot.toNat]? = some value →
        sweep code stack locals = .ok (result value :: stack, locals)) ∧
      Code.slimmer code [.load .int slot, .const factor, .binary .mul] = true ∧
      Code.slimmer code [.const factor, .load .int slot, .binary .mul] = true := by
  unfold product? at hcontraction
  split at hcontraction
  · rename_i hfactor
    refine ⟨[.const 0], fun _ => 0, (Option.some.inj hcontraction).symm, ?_, ?_, rfl, rfl⟩
    · simp [hfactor]
    · simp [sweep, execute]
  · split at hcontraction
    · rename_i hfactor
      refine ⟨[.load .int slot], id, (Option.some.inj hcontraction).symm, ?_, ?_, rfl, rfl⟩
      · simp [hfactor]
      · simp +contextual [sweep, execute]
    · split at hcontraction
      · rename_i hfactor
        refine ⟨[.load .int slot, .dup, .binary .add], fun value => value + value,
          (Option.some.inj hcontraction).symm, fun value => ?_, ?_, rfl, rfl⟩
        · rw [hfactor, Int32.mul_two]
        · simp +contextual [sweep, execute, Operator.evaluate?]
      · simp at hcontraction

theorem fits_simplifyMultiplication
    (hcontraction : simplifyMultiplication ahead = some contraction) :
    contraction.Fits ahead := by
  unfold simplifyMultiplication at hcontraction
  split at hcontraction
  · obtain ⟨code, result, rfl, hresult, hcode, hslimmer, -⟩ := exists_of_product? hcontraction
    refine Contraction.fits_of_covers (covers_load_const result (fun value => ?_) hcode) hslimmer _
    rw [Operator.evaluate?, hresult]
  · obtain ⟨code, result, rfl, hresult, hcode, -, hslimmer⟩ := exists_of_product? hcontraction
    refine Contraction.fits_of_covers (covers_const_load result (fun value => ?_) hcode) hslimmer _
    rw [Operator.evaluate?, Int32.mul_comm, hresult]
  · simp at hcontraction

theorem fits_of_identity? {value : Int32} {operator : Operator}
    (hcontraction : identity? value operator = some contraction) (rest : List Instruction) :
    contraction.Fits (.const value :: .binary operator :: rest) := by
  have hnothing : (∀ left, operator.evaluate? left value = some left) →
      Contraction.Fits ⟨2, []⟩ (.const value :: .binary operator :: rest) := fun hvalue =>
    Contraction.fits_of_covers
      (covers_const_binary id hvalue (fun _ _ _ => rfl)) rfl rest
  have hnegate : (∀ left, operator.evaluate? left value = some (-left)) →
      Contraction.Fits ⟨2, [.negate]⟩ (.const value :: .binary operator :: rest) := fun hvalue =>
    Contraction.fits_of_covers
      (covers_const_binary (fun left => -left) hvalue (by simp [sweep, execute])) rfl rest
  unfold identity? at hcontraction
  split at hcontraction
  · split at hcontraction
    · rename_i hvalue
      obtain rfl := Option.some.inj hcontraction
      exact hnothing (by simp [hvalue, Operator.evaluate?])
    · simp at hcontraction
  · split at hcontraction
    · rename_i hvalue
      obtain rfl := Option.some.inj hcontraction
      exact hnothing (by simp [hvalue, Operator.evaluate?])
    · simp at hcontraction
  · split at hcontraction
    · rename_i hvalue
      obtain rfl := Option.some.inj hcontraction
      exact hnothing (by simp [hvalue, Operator.evaluate?])
    · split at hcontraction
      · rename_i hvalue
        obtain rfl := Option.some.inj hcontraction
        exact hnegate (by simp [hvalue, Operator.evaluate?, Int32.mul_neg])
      · simp at hcontraction
  · split at hcontraction
    · rename_i hvalue
      obtain rfl := Option.some.inj hcontraction
      exact hnothing (by simp [hvalue, Operator.evaluate?])
    · split at hcontraction
      · rename_i hvalue
        obtain rfl := Option.some.inj hcontraction
        exact hnegate (by simp [hvalue, Operator.evaluate?, div_neg_one])
      · simp at hcontraction
  · simp at hcontraction

theorem fits_removeIdentityOperation
    (hcontraction : removeIdentityOperation ahead = some contraction) :
    contraction.Fits ahead := by
  unfold removeIdentityOperation at hcontraction
  split at hcontraction
  · split at hcontraction
    · rename_i hvalue
      obtain rfl := Option.some.inj hcontraction
      refine Contraction.fits_of_covers (covers_const_load id ?_ ?_) rfl _
      · simp [hvalue, Operator.evaluate?]
      · simp +contextual [sweep, execute]
    · simp at hcontraction
  · exact fits_of_identity? hcontraction _
  · simp at hcontraction

theorem fits_simplifyRemainderByOne
    (hcontraction : simplifyRemainderByOne ahead = some contraction) :
    contraction.Fits ahead := by
  unfold simplifyRemainderByOne at hcontraction
  split at hcontraction
  · split at hcontraction
    · rename_i hvalue
      obtain rfl := Option.some.inj hcontraction
      refine Contraction.fits_of_covers (covers_load_const (fun _ => 0) ?_ ?_) rfl _
      · rcases hvalue with rfl | rfl
        · simp [Operator.evaluate?]
        · simp [Operator.evaluate?, mod_neg_one]
      · simp [sweep, execute]
    · simp at hcontraction
  · simp at hcontraction

theorem fits_simplifySelfSubtraction
    (hcontraction : simplifySelfSubtraction ahead = some contraction) :
    contraction.Fits ahead := by
  unfold simplifySelfSubtraction at hcontraction
  split at hcontraction
  · split at hcontraction
    · rename_i hslot
      obtain rfl := hslot
      obtain rfl := Option.some.inj hcontraction
      exact Contraction.fits_of_covers (covers_load_load_sub _) rfl _
    · simp at hcontraction
  · simp at hcontraction

theorem fits_simplifyNegation (hcontraction : simplifyNegation ahead = some contraction) :
    contraction.Fits ahead := by
  unfold simplifyNegation at hcontraction
  split at hcontraction
  · split at hcontraction
    · rename_i hvalue
      obtain rfl := Option.some.inj hcontraction
      refine Contraction.fits_of_covers (covers_const_load (fun value => -value) ?_ ?_) rfl _
      · simp [hvalue, Operator.evaluate?]
      · simp +contextual [sweep, execute]
    · simp at hcontraction
  · obtain rfl := Option.some.inj hcontraction
    exact Contraction.fits_of_covers covers_negate_negate rfl _
  · obtain rfl := Option.some.inj hcontraction
    refine Contraction.fits_of_covers (covers_negate_binary ?_ ?_) rfl _
    · simp [Operator.evaluate?, Int32.sub_eq_add_neg]
    · simp [Operator.evaluate?]
  · obtain rfl := Option.some.inj hcontraction
    refine Contraction.fits_of_covers (covers_negate_binary ?_ ?_) rfl _
    · simp [Operator.evaluate?]
    · simp [Operator.evaluate?]
  · simp at hcontraction

theorem exists_of_update? {slot slot' : Slot} {value : Int}
    (hcontraction : update? slot slot' value = some contraction) :
    slot = slot' ∧ ∃ amount : Int8, amount.toInt32 = Int32.ofInt value ∧
      contraction = ⟨4, [.increment slot amount]⟩ := by
  unfold update? at hcontraction
  split at hcontraction
  · rename_i hslot
    obtain ⟨amount, hamount, rfl⟩ := Option.map_eq_some_iff.mp hcontraction
    exact ⟨hslot, amount, toInt32_of_amount? hamount, rfl⟩
  · simp at hcontraction

theorem fits_foldIncrement (hcontraction : foldIncrement ahead = some contraction) :
    contraction.Fits ahead := by
  unfold foldIncrement at hcontraction
  split at hcontraction
  · obtain ⟨rfl, amount, hamount, rfl⟩ := exists_of_update? hcontraction
    rw [Int32.ofInt_toInt] at hamount
    refine Contraction.fits_of_covers (covers_load_update fun old => ?_) rfl _
    rw [Operator.evaluate?, hamount]
  · obtain ⟨rfl, amount, hamount, rfl⟩ := exists_of_update? hcontraction
    rw [Int32.ofInt_toInt] at hamount
    refine Contraction.fits_of_covers (covers_const_update fun old => ?_) rfl _
    rw [Operator.evaluate?, hamount, Int32.add_comm]
  · obtain ⟨rfl, amount, hamount, rfl⟩ := exists_of_update? hcontraction
    rw [Int32.ofInt_neg, Int32.ofInt_toInt] at hamount
    refine Contraction.fits_of_covers (covers_load_update fun old => ?_) rfl _
    rw [Operator.evaluate?, hamount, Int32.sub_eq_add_neg]
  · simp at hcontraction

theorem fits_mergeIncrements (hcontraction : mergeIncrements ahead = some contraction) :
    contraction.Fits ahead := by
  unfold mergeIncrements at hcontraction
  split at hcontraction
  · split at hcontraction
    · rename_i hzero
      obtain rfl := hzero
      obtain rfl := Option.some.inj hcontraction
      exact Contraction.fits_of_covers (covers_increment_zero _) rfl _
    · split at hcontraction
      · split at hcontraction
        · rename_i hslot
          obtain rfl := hslot
          obtain ⟨amount, hamount, rfl⟩ := Option.map_eq_some_iff.mp hcontraction
          refine Contraction.fits_of_covers (covers_increment_increment hamount) ?_ _
          split <;> rfl
        · simp at hcontraction
      · simp at hcontraction
  · simp at hcontraction

end

end Straight

end Peephole
