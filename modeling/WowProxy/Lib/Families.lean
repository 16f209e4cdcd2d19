/-
  Lib/Families.lean --- sums over a family of machines: how many of them are in a
  phase, how much is left for them to do, and how a step of one of them changes
  that.
-/
import Mathlib.Algebra.BigOperators.Fin
import Mathlib.Algebra.Order.BigOperators.Group.Finset

set_option autoImplicit false

namespace WowProxy.Lib.Families

universe u v

variable {ι : Type u} {β : Type v} [Fintype ι]

/-- The weights of all members. -/
def total (weight : β → Nat) (w : ι → β) : Nat := ∑ i, weight (w i)

/-- How many members are in a phase. -/
def count (P : β → Bool) (w : ι → β) : Nat := total (fun b => (P b).toNat) w

theorem count_eq_card (P : β → Bool) (w : ι → β) :
    count P w = (Finset.univ.filter fun i => P (w i) = true).card := by
  rw [Finset.card_filter]
  refine Finset.sum_congr rfl fun i _ => ?_
  show (P (w i)).toNat = _
  cases P (w i) <;> rfl

/-- A step of one member moves its weight. -/
theorem total_update [DecidableEq ι] (weight : β → Nat) (w : ι → β) (i : ι) (b : β) :
    total weight (Function.update w i b) + weight (w i) = total weight w + weight b := by
  have hafter : total weight (Function.update w i b) =
      weight b + ∑ j ∈ Finset.univ.erase i, weight (w j) := by
    rw [total, ← Finset.add_sum_erase _ _ (Finset.mem_univ i), Function.update_self]
    congr 1
    refine Finset.sum_congr rfl fun j hj => ?_
    rw [Function.update_of_ne (Finset.ne_of_mem_erase hj)]
  have hbefore : total weight w = weight (w i) + ∑ j ∈ Finset.univ.erase i, weight (w j) :=
    (Finset.add_sum_erase _ _ (Finset.mem_univ i)).symm
  omega

theorem count_update [DecidableEq ι] (P : β → Bool) (w : ι → β) (i : ι) (b : β) :
    count P (Function.update w i b) + (P (w i)).toNat = count P w + (P b).toNat :=
  total_update _ w i b

/-- A member in the phase is counted. -/
theorem count_pos {P : β → Bool} {w : ι → β} {i : ι} (h : P (w i) = true) : 0 < count P w := by
  have hle : (P (w i)).toNat ≤ count P w :=
    Finset.single_le_sum (fun j _ => Nat.zero_le (P (w j)).toNat) (Finset.mem_univ i)
  rw [h] at hle
  exact hle

theorem count_mono {P Q : β → Bool} (h : ∀ b, P b = true → Q b = true) (w : ι → β) :
    count P w ≤ count Q w :=
  Finset.sum_le_sum fun i _ => Bool.toNat_le_toNat (h (w i))

theorem count_le_card (P : β → Bool) (w : ι → β) : count P w ≤ Fintype.card ι := by
  calc count P w ≤ ∑ _i : ι, 1 := Finset.sum_le_sum fun i _ => Bool.toNat_le _
    _ = Fintype.card ι := by rw [Finset.sum_const, Finset.card_univ, smul_eq_mul, mul_one]

theorem count_eq_zero {P : β → Bool} {w : ι → β} (h : ∀ i, P (w i) = false) : count P w = 0 :=
  Finset.sum_eq_zero fun i _ => congrArg Bool.toNat (h i)

end WowProxy.Lib.Families
