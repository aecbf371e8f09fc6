import Mathlib.LinearAlgebra.Lagrange
import Mathlib.Algebra.Field.ZMod
import Abcperf.Lib.Outcome

/-! The Lagrange coefficients with which shares of a secret are combined. The direct computation has
the differences the wrong way round, and the one with precomputed inverses takes the positions of
the parties for their ids. -/

namespace Abcperf.Splitee

open Lib Lib.Outcome Finset Polynomial

variable {F : Type} [Field F]

structure LagrangeCoefficients (F : Type) where
  positivePrecomputedInverse : List F
  negativePrecomputedInverse : List F

def calculateLagrangeCoefficientsUnoptimized (partySet : List F) : List F :=
  (List.finRange partySet.length).map fun i =>
    (List.finRange partySet.length).foldl (fun partyCoefficient j =>
      if j = i then partyCoefficient
      else partyCoefficient * (partySet[j] * (partySet[i] - partySet[j])⁻¹)) 1

/-- The sum that `combine_randomness` forms of the shares, in the exponent. -/
def combineRandomness (senderIds resultShares : List F) : F :=
  ((calculateLagrangeCoefficientsUnoptimized senderIds).zipWith (· * ·) resultShares).sum

namespace LagrangeCoefficients

variable (lagrange : LagrangeCoefficients F)

def denomInv (i j : Nat) : Outcome F :=
  unwrap (if i < j then lagrange.negativePrecomputedInverse[j - i]?
    else lagrange.positivePrecomputedInverse[i - j]?)

def calculateLagrangeCoefficientsOptimized (partySet : List F) : Outcome (List F) :=
  (List.finRange partySet.length).mapM fun i =>
    (List.finRange partySet.length).foldlM (fun partyCoefficient j =>
      if j = i then pure partyCoefficient
      else do
        let denomInv ← lagrange.denomInv i.val j.val
        return partyCoefficient * (partySet[j] * denomInv)) 1

def precomputeInverse (numberOfParties : Nat) : LagrangeCoefficients F where
  positivePrecomputedInverse := lagrange.positivePrecomputedInverse ++
    0 :: (List.range' 1 (numberOfParties - 1)).map fun i : Nat => (i : F)⁻¹
  negativePrecomputedInverse := lagrange.negativePrecomputedInverse ++
    0 :: (List.range' 1 (numberOfParties - 1)).map fun i : Nat => (0 - i : F)⁻¹

end LagrangeCoefficients

theorem foldl_skip {k : Nat} (i : Fin k) (factor : Fin k → F) :
    (List.finRange k).foldl (fun product j => if j = i then product else product * factor j) 1 =
      ∏ j ∈ univ.erase i, factor j := by
  have step : (fun (product : F) j => if j = i then product else product * factor j) =
      fun product j => product * if j = i then 1 else factor j := by
    funext product j
    split <;> simp
  rw [step, ← List.foldl_map (g := fun left right : F => left * right), ← List.prod_eq_foldl,
    ← Fin.prod_univ_def, prod_ite]
  simp [filter_ne']

theorem calculateLagrangeCoefficientsUnoptimized_eq (partySet : List F) :
    calculateLagrangeCoefficientsUnoptimized partySet =
      (List.finRange partySet.length).map fun i =>
        ∏ j ∈ univ.erase i, partySet[j] * (partySet[i] - partySet[j])⁻¹ := by
  simp only [calculateLagrangeCoefficientsUnoptimized, foldl_skip]

/-- The factor `xⱼ / (xᵢ - xⱼ)` is minus that of the interpolation at zero. -/
theorem basis_eval_zero (partySet : List F) (i : Fin partySet.length) :
    ∏ j ∈ univ.erase i, partySet[j] * (partySet[i] - partySet[j])⁻¹ =
      (-1) ^ (partySet.length - 1) * (Lagrange.basis univ partySet.get i).eval 0 := by
  have signs : (-1 : F) ^ (partySet.length - 1) = ∏ _j ∈ univ.erase i, -1 := by simp
  rw [signs, Lagrange.basis, Polynomial.eval_prod, ← prod_mul_distrib]
  refine prod_congr rfl fun j _ => ?_
  simp [Lagrange.basisDivisor, mul_comm]

section

variable {partySet : List F} (distinct : partySet.Nodup) {f : Polynomial F}
  (degree : f.degree < partySet.length)
include distinct degree

theorem combineRandomness_eq :
    combineRandomness partySet (partySet.map f.eval) = (-1) ^ (partySet.length - 1) * f.eval 0 := by
  have interpolated : f = Lagrange.interpolate univ partySet.get fun i => f.eval (partySet.get i) :=
    Lagrange.eq_interpolate distinct.injective_get.injOn (by simpa using degree)
  have values : partySet.map f.eval =
      (List.finRange partySet.length).map fun i => f.eval (partySet.get i) := by
    conv_lhs => rw [← List.ofFn_get partySet, List.map_ofFn, List.ofFn_eq_map]
    rfl
  rw [combineRandomness, calculateLagrangeCoefficientsUnoptimized_eq, values, List.zipWith_map,
    List.zipWith_self, ← Fin.sum_univ_def]
  conv_rhs => rw [interpolated]
  rw [Lagrange.interpolate_apply, Polynomial.eval_finsetSum, mul_sum]
  refine sum_congr rfl fun i _ => ?_
  rw [basis_eval_zero, Polynomial.eval_mul, Polynomial.eval_C]
  ring

/-- An even number of parties reconstructs the negative of the secret. -/
theorem reconstructs_iff (nonempty : partySet ≠ []) :
    combineRandomness partySet (partySet.map f.eval) = f.eval 0 ↔
      Odd partySet.length ∨ f.eval 0 = 0 ∨ (2 : F) = 0 := by
  rw [combineRandomness_eq distinct degree]
  have positive := List.length_pos_iff.mpr nonempty
  rcases Nat.even_or_odd partySet.length with even | odd
  · rw [(Nat.Even.sub_odd positive even odd_one).neg_one_pow, neg_one_mul, neg_eq_iff_add_eq_zero,
      ← two_mul, mul_eq_zero]
    simp [Nat.not_odd_iff_even.mpr even, or_comm]
  · simp [odd, (Nat.Odd.sub_odd odd odd_one).neg_one_pow]

end

instance prime_five : Fact (Nat.Prime 5) := ⟨Nat.prime_five⟩

theorem reconstructs_three :
    combineRandomness [1, 2, 4] ([1, 2, 4].map (X ^ 2 + C 3 : Polynomial (ZMod 5)).eval) =
      (X ^ 2 + C 3 : Polynomial (ZMod 5)).eval 0 :=
  (reconstructs_iff (by decide) (by rw [degree_X_pow_add_C two_pos]; decide) (by simp)).mpr
    (.inl (by decide))

/-- Parties 1 and 2 with the secret 1. -/
theorem two_reconstruct_negative :
    combineRandomness [1, 2] ([1, 2].map (1 : Polynomial (ZMod 3)).eval) ≠
      (1 : Polynomial (ZMod 3)).eval 0 := by
  rw [combineRandomness_eq (by decide) (by simp)]
  simp
  decide

/-- An even and an odd number of parties reconstruct values of opposite sign. -/
theorem reconstructions_agree_iff {partySet otherSet : List F} (distinct : partySet.Nodup)
    (otherDistinct : otherSet.Nodup) {f : Polynomial F} (degree : f.degree < partySet.length)
    (otherDegree : f.degree < otherSet.length) :
    combineRandomness partySet (partySet.map f.eval) = combineRandomness otherSet
      (otherSet.map f.eval) ↔
      (Odd partySet.length ↔ Odd otherSet.length) ∨ f.eval 0 = 0 ∨ (2 : F) = 0 := by
  rw [combineRandomness_eq distinct degree, combineRandomness_eq otherDistinct otherDegree]
  by_cases zero : f.eval 0 = 0
  · simp [zero]
  have nonzero : f ≠ 0 := fun isZero => zero (by simp [isZero])
  have sign {parties : List F} (degree : f.degree < parties.length) :
      (-1 : F) ^ (parties.length - 1) = if Odd parties.length then 1 else -1 := by
    cases parties with
    | nil => simp [nonzero] at degree
    | cons party parties => simp [Nat.odd_add_one, neg_one_pow_eq_ite]
  have negative : (-1 : F) = 1 ↔ (2 : F) = 0 := by
    rw [neg_eq_iff_add_eq_zero, one_add_one_eq_two]
  rw [mul_left_inj' zero, sign degree, sign otherDegree]
  by_cases odd : Odd partySet.length <;> by_cases other : Odd otherSet.length <;>
    simp [odd, other, zero, negative, @eq_comm F 1 (-1)]

theorem two_and_one_disagree :
    combineRandomness [1, 2] ([1, 2].map (1 : Polynomial (ZMod 3)).eval) ≠
    combineRandomness [2] ([2].map (1 : Polynomial (ZMod 3)).eval) :=
  (reconstructions_agree_iff (by decide) (by decide) (by simp) (by simp)).not.mpr (by simp; decide)

namespace LagrangeCoefficients

def precomputed (numberOfParties : Nat) : LagrangeCoefficients F :=
  precomputeInverse ⟨[], []⟩ numberOfParties

theorem denomInv_precomputed {numberOfParties i j : Nat} (inside : i < numberOfParties)
    (other : j < numberOfParties) (different : j ≠ i) :
    (precomputed numberOfParties).denomInv i j = .ok ((i : F) - j)⁻¹ := by
  rcases Nat.lt_or_gt_of_ne different with less | more
  · obtain ⟨distance, rfl⟩ := Nat.exists_eq_add_of_lt less
    have listed : distance < numberOfParties - 1 := by omega
    simp [denomInv, precomputed, precomputeInverse, listed, add_assoc, unwrap, add_comm]
  · obtain ⟨distance, rfl⟩ := Nat.exists_eq_add_of_lt more
    have listed : distance < numberOfParties - 1 := by omega
    simp [denomInv, precomputed, precomputeInverse, listed, add_assoc, unwrap, add_comm, -inv_neg]

theorem optimized_eq {numberOfParties : Nat} {partySet : List F}
    (few : partySet.length ≤ numberOfParties) :
    (precomputed numberOfParties).calculateLagrangeCoefficientsOptimized partySet =
      .ok ((List.finRange partySet.length).map fun i =>
        ∏ j ∈ univ.erase i, partySet[j] * ((i.val : F) - j.val)⁻¹) := by
  have step (i j : Fin partySet.length) (product : F) :
      (if j = i then pure product
      else do
        let denomInv ← (precomputed numberOfParties).denomInv i j
        return product * (partySet[j] * denomInv)) =
      (pure (if j = i then product else product * (partySet[j] * ((i.val : F) - j.val)⁻¹)) :
        Outcome F) := by
    split
    · rfl
    next different =>
    rw [denomInv_precomputed (i.isLt.trans_le few) (j.isLt.trans_le few)
      (Fin.val_ne_iff.mpr different)]
    rfl
  simp only [calculateLagrangeCoefficientsOptimized, step, List.foldlM_pure, List.mapM_pure,
    foldl_skip]
  rfl

/-- The factors agree where the ids lie as far apart as their positions, for instance if they are
consecutive and in order. -/
theorem optimized_eq_unoptimized_iff {numberOfParties : Nat} {partySet : List F}
    (large : ∀ number ∈ List.range' 1 numberOfParties, (number : F) ≠ 0) (distinct : partySet.Nodup)
    (ids : partySet ⊆ (List.range' 1 numberOfParties).map Nat.cast) :
    (precomputed numberOfParties).calculateLagrangeCoefficientsOptimized partySet =
      .ok (calculateLagrangeCoefficientsUnoptimized partySet) ↔
      ∀ i : Fin partySet.length, ∏ j ∈ univ.erase i, (partySet[i] - partySet[j]) =
        ∏ j ∈ univ.erase i, ((i.val : F) - j.val) := by
  have few : partySet.length ≤ numberOfParties := by
    simpa using (distinct.subperm ids).length_le
  have nonzero (j : Fin partySet.length) : partySet[j] ≠ 0 := by
    obtain ⟨id, inside, same⟩ := List.mem_map.mp (ids (List.getElem_mem j.isLt))
    exact same ▸ large id inside
  rw [optimized_eq few, calculateLagrangeCoefficientsUnoptimized_eq]
  simp only [Except.ok.injEq, List.map_inj_left, List.mem_finRange, true_implies]
  refine forall_congr' fun i => ?_
  have scaled := prod_ne_zero_iff.mpr fun j (_ : j ∈ univ.erase i) => nonzero j
  rw [prod_mul_distrib, prod_mul_distrib, mul_right_inj' scaled, prod_inv_distrib,
    prod_inv_distrib, inv_inj, eq_comm]

theorem optimized_eq_unoptimized_ascending :
    (precomputed 2).calculateLagrangeCoefficientsOptimized [(1 : ZMod 3), 2] =
      .ok (calculateLagrangeCoefficientsUnoptimized [1, 2]) :=
  (optimized_eq_unoptimized_iff (by decide) (by decide) (by decide)).mpr (by decide)

theorem optimized_ne_unoptimized :
    (precomputed 2).calculateLagrangeCoefficientsOptimized [(2 : ZMod 3), 1] ≠
      .ok (calculateLagrangeCoefficientsUnoptimized [2, 1]) := by
  decide +kernel

end LagrangeCoefficients

end Abcperf.Splitee
