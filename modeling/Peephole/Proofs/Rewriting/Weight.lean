import Peephole.Proofs.Rewriting

/-!
# The weight of code

Four numbers are compared one after the other: the instructions other than
labels, the products among them, the labels, and the sum of the labels that
jumps go to.  Every rewrite lowers the first of them that it changes, and none
makes the code longer.
-/

namespace Peephole

namespace Code

/-- The number of multiplications. -/
def products (code : List Instruction) : Nat :=
  code.count (.binary .mul)

/-- The sum of the labels that the jumps go to. -/
def targetSum : List Instruction → Nat
  | [] => 0
  | instruction :: code => instruction.target?.elim 0 UInt32.toNat + targetSum code

/-- The numbers that every rewrite lowers in the order of lists of digits. -/
def weight (code : List Instruction) : Nat × Nat × Nat × Nat :=
  (size code, products code, (definitions code).length, targetSum code)

/-- The lexicographic order of weights. -/
def Lighter : Nat × Nat × Nat × Nat → Nat × Nat × Nat × Nat → Prop :=
  Prod.Lex (· < ·) (Prod.Lex (· < ·) (Prod.Lex (· < ·) (· < ·)))

theorem wellFounded_lighter : WellFounded Lighter :=
  (Prod.lex Nat.lt_wfRel (Prod.lex Nat.lt_wfRel (Prod.lex Nat.lt_wfRel Nat.lt_wfRel))).wf

theorem lighter_iff {a b c d a' b' c' d' : Nat} :
    Lighter (a, b, c, d) (a', b', c', d') ↔
      a < a' ∨ a = a' ∧ (b < b' ∨ b = b' ∧ (c < c' ∨ c = c' ∧ d < d')) := by
  simp only [Lighter, Prod.lex_def]

variable {left right : List Instruction} {instruction : Instruction}

@[simp]
theorem products_append : products (left ++ right) = products left + products right :=
  List.count_append

@[simp]
theorem products_nil : products [] = 0 := rfl

@[simp]
theorem products_cons : products (instruction :: right) =
    products right + if instruction = .binary .mul then 1 else 0 := by
  by_cases hproduct : instruction = .binary .mul <;> simp [products, hproduct]

theorem products_singleton_of_target? {target : LabelId}
    (htarget : instruction.target? = some target) : products [instruction] = 0 := by
  refine List.count_eq_zero.mpr fun hmem => ?_
  rw [← List.mem_singleton.mp hmem] at htarget
  cases htarget

@[simp]
theorem targetSum_append : targetSum (left ++ right) = targetSum left + targetSum right := by
  induction left with
  | nil => simp [targetSum]
  | cons instruction left ih => simp [targetSum, ih, Nat.add_assoc]

theorem targetSum_singleton {target : LabelId} (htarget : instruction.target? = some target) :
    targetSum [instruction] = target.toNat := by
  simp [targetSum, htarget]

end Code

open Code

namespace Rewrites

variable {before after : List Instruction}

theorem lighter (hrewrites : Rewrites before after) : Lighter (weight after) (weight before) := by
  simp only [weight, lighter_iff]
  cases hrewrites with
  | contract hreplaceable =>
      rename_i front window code back
      have hlabels := hreplaceable.definitions_eq_nil
      have hwindow := size_eq_length hlabels.1
      have hcode := size_eq_length hlabels.2
      have hproductless : products code = 0 := List.count_eq_zero.mpr hreplaceable.productless
      rcases hreplaceable.lighter with hshorter | ⟨hlength, hproduct⟩
      · left
        simp only [size_append]
        omega
      · right
        have hproducts : 0 < products window := List.count_pos_iff.mpr hproduct
        simp only [size_append, products_append]
        omega
  | storeLoad havoids hdead =>
      left
      simp only [size_append, size_cons, Instruction.label?, if_true]
      omega
  | deadLabel hdead => simp
  | gotoNext =>
      left
      simp
  | unreachable hlabel =>
      left
      simp [hlabel]
  | chain hjump hlanding hsmaller =>
      rename_i front back left right jump target final
      have hretarget := Instruction.target?_retarget hjump final
      have hlabel := Instruction.label?_eq_none_of_target? hjump
      have hlabel' := Instruction.label?_eq_none_of_target? hretarget
      have hproducts := products_singleton_of_target? hjump
      have hproducts' := products_singleton_of_target? hretarget
      have hsum := targetSum_singleton hjump
      have hsum' := targetSum_singleton hretarget
      have hlt := UInt32.lt_iff_toNat_lt.mp hsmaller
      refine .inr ⟨?_, .inr ⟨?_, .inr ⟨?_, ?_⟩⟩⟩
      · simp [hlabel, hlabel']
      · rw [products_append, products_append, products_append, products_append, hproducts,
          hproducts']
      · simp [hlabel, hlabel']
      · rw [targetSum_append, targetSum_append, targetSum_append, targetSum_append, hsum, hsum']
        omega
  | constantTaken hcheck =>
      left
      simp
  | constantPassed hcheck =>
      left
      simp only [size_append, size_cons]
      simp
  | throughTaken hlanding hcheck =>
      left
      simp
  | throughPassed hlanding hcheck =>
      left
      simp
  | throughSplit hlanding hcheck hfresh hbare =>
      left
      have hsize := congrArg size hlanding
      simp at hsize ⊢
      omega
  | invert =>
      left
      simp
  | collapse hvalues hholds hfinish =>
      left
      simp

/-- The code never gets longer: where a rewrite puts in a label, it takes out an
instruction. -/
theorem length_le (hrewrites : Rewrites before after) : after.length ≤ before.length := by
  cases hrewrites with
  | contract hreplaceable =>
      have hle := hreplaceable.lighter
      simp only [List.length_append]
      omega
  | throughSplit hlanding hcheck hfresh hbare =>
      have hlength := congrArg List.length hlanding
      simp only [List.length_append, List.length_cons, List.length_nil] at hlength ⊢
      omega
  | _ =>
      simp only [List.length_append, List.length_cons, List.length_nil]
      omega

theorem size_le (hrewrites : Rewrites before after) : size after ≤ size before := by
  have hlighter := hrewrites.lighter
  rw [weight, weight, lighter_iff] at hlighter
  omega

/-- A rewrite that puts in a label takes out an instruction. -/
theorem size_lt_of_mem_definitions (hrewrites : Rewrites before after) {id : LabelId}
    (hid : id ∈ definitions after) (hnew : id ∉ definitions before) :
    size after < size before := by
  cases hrewrites with
  | contract hreplaceable =>
      have hlabels := hreplaceable.definitions_eq_nil.2
      simp only [definitions_append, hlabels, List.append_nil, List.mem_append] at hid hnew
      grind
  | chain hjump hlanding hsmaller =>
      rename_i front back left right jump target final
      have hretarget := Instruction.target?_retarget hjump final
      have hlabel := Instruction.label?_eq_none_of_target? hretarget
      simp only [definitions_append, definitions_cons, hlabel, List.mem_append, Option.toList_none,
        definitions_nil, List.append_nil] at hid hnew
      grind
  | throughSplit hlanding hcheck hfresh hbare =>
      have hsize := congrArg size hlanding
      simp at hsize ⊢
      omega
  | _ =>
      simp only [mem_definitions, List.mem_append, List.mem_cons, List.not_mem_nil,
        reduceCtorEq] at hid hnew
      grind

end Rewrites

end Peephole
