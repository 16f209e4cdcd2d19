/-
  Common/CJsonNumber.lean --- the number that `parse_number` of `common/cJSON.c` stores.

  `Common/CJsonParse.lean` keeps the decimal that the digits of a number spell.  The
  source computes a `double` on the way through them, with an exponent of type `int`,
  and an `int` from it.  Here this is done over any `double` that represents the integers
  of 53 bits; for a decimal that is such an integer nothing is rounded.
-/
import WowProxy.Common.CJsonParse

set_option autoImplicit false

namespace WowProxy

open WowProxy.Lib.JsonText

/-- The integers that a `double` represents without gaps. -/
def Fits53 (n : Int) : Prop := n.natAbs ≤ 2 ^ 53

/-- The values of `double`, both zeros being one, and what `parse_number` uses of them. -/
structure DoubleArith where
  Value : Type
  ofInt : Int → Value
  add : Value → Value → Value
  mul : Value → Value → Value
  /-- `pow(10.0, y)` -/
  pow10 : Value → Value
  /-- the conversion to `int` -/
  toInt : Value → Int
  add_ofInt : ∀ m n, Fits53 m → Fits53 n → Fits53 (m + n) →
    add (ofInt m) (ofInt n) = ofInt (m + n)
  mul_ofInt : ∀ m n, Fits53 m → Fits53 n → Fits53 (m * n) →
    mul (ofInt m) (ofInt n) = ofInt (m * n)
  pow10_zero : pow10 (ofInt 0) = ofInt 1
  toInt_ofInt : ∀ n : Int, -2 ^ 31 ≤ n → n < 2 ^ 31 → toInt (ofInt n) = n

/-- Integers of any size are such an arithmetic; nothing is ever rounded in it. -/
instance : Inhabited DoubleArith where
  default :=
    { Value := Int
      ofInt := id
      add := Int.add
      mul := Int.mul
      pow10 := fun y => Int.pow 10 y.toNat
      toInt := id
      add_ofInt := fun _ _ _ _ _ => rfl
      mul_ofInt := fun _ _ _ _ _ => rfl
      pow10_zero := rfl
      toInt_ofInt := fun _ _ _ => rfl }

namespace DoubleArith

variable (D : DoubleArith)

/-- The loops over the digits: `n=(n*10.0)+(*num++ -'0')`. -/
def digits (n : D.Value) (ds : List UInt8) : D.Value :=
  ds.foldl (fun n b => D.add (D.mul n (D.ofInt 10)) (D.ofInt (b.toNat - 48 : Nat))) n

/-- `scale--` for every digit of the fraction. -/
def scale (frac : List UInt8) : D.Value :=
  frac.foldl (fun scale _ => D.add scale (D.ofInt (-1))) (D.ofInt 0)

/-- `parse_number` behind the sign: `valuedouble` and `valueint`.  It has no value where
the exponent overflows its `int`. -/
def parseUnsigned (sign : Int) (num : List UInt8) :
    Option ((D.Value × Int) × List UInt8) := do
  let b ← num.head?
  let (int, num) ← CJson.parseInteger (if b = 48 then num.tail else num)
  let (frac, num) ← CJson.parseFraction num
  let (subscale, num) ← CJson.parseExponent num
  if subscale.natAbs < 2 ^ 31 then
    let n := D.digits (D.digits (D.ofInt 0) int) frac
    let n := D.mul (D.mul (D.ofInt sign) n) (D.pow10 (D.add (D.scale frac) (D.ofInt subscale)))
    return ((n, D.toInt n), num)
  else none

/-- `parse_number`. -/
def parseNumber (num : List UInt8) : Option ((D.Value × Int) × List UInt8) := do
  let b ← num.head?
  if b = 45 then D.parseUnsigned (-1) num.tail else D.parseUnsigned 1 num

/-! ## Integers of 53 bits -/

theorem le_digitsFrom (n : Nat) (ds : List UInt8) : n ≤ digitsFrom n ds := by
  induction ds generalizing n with
  | nil => exact Nat.le_refl n
  | cons b ds ih =>
    have hstep := ih (n * 10 + (b.toNat - 48))
    show n ≤ digitsFrom (n * 10 + (b.toNat - 48)) ds
    omega

/-- The loops over the digits of such an integer do not round. -/
theorem digits_exact {n : Nat} {ds : List UInt8} (h : digitsFrom n ds ≤ 2 ^ 53) :
    D.digits (D.ofInt n) ds = D.ofInt (digitsFrom n ds) := by
  induction ds generalizing n with
  | nil => rfl
  | cons b ds ih =>
    have hnext : n * 10 + (b.toNat - 48) ≤ 2 ^ 53 := Nat.le_trans (le_digitsFrom _ ds) h
    have hmul : D.mul (D.ofInt n) (D.ofInt 10) = D.ofInt ((n : Int) * 10) :=
      D.mul_ofInt n 10 (by unfold Fits53; omega) (by unfold Fits53; omega)
        (by unfold Fits53; omega)
    have hadd : D.add (D.ofInt ((n : Int) * 10)) (D.ofInt (b.toNat - 48 : Nat)) =
        D.ofInt ((n * 10 + (b.toNat - 48) : Nat) : Int) := by
      rw [D.add_ofInt _ _ (by unfold Fits53; omega) (by unfold Fits53; omega)
        (by unfold Fits53; omega)]
      congr 1
    rw [digits, List.foldl_cons, hmul, hadd]
    exact ih h

/-- The scale of a fraction is exact. -/
theorem scale_exact {frac : List UInt8} (h : frac.length < 2 ^ 31) :
    D.scale frac = D.ofInt (-frac.length) := by
  have hfrom : ∀ (ds : List UInt8) (k : Nat), k + ds.length < 2 ^ 31 →
      ds.foldl (fun scale _ => D.add scale (D.ofInt (-1))) (D.ofInt (-(k : Int))) =
        D.ofInt (-(k + ds.length : Nat)) := by
    intro ds
    induction ds with
    | nil => exact fun k _ => rfl
    | cons b ds ih =>
      intro k hk
      rw [List.length_cons] at hk
      rw [List.foldl_cons, D.add_ofInt _ _ (by unfold Fits53; omega) (by unfold Fits53; omega)
        (by unfold Fits53; omega), show (-(k : Int)) + -1 = -((k + 1 : Nat) : Int) by omega,
        ih (k + 1) (by omega), List.length_cons]
      congr 2
      omega
  have h0 := hfrom frac 0 (by omega)
  rw [Nat.zero_add] at h0
  exact h0

theorem length_digitsLoop {num ds rest : List UInt8}
    (h : CJson.digitsLoop num = some (ds, rest)) : num.length = ds.length + rest.length := by
  induction num generalizing ds with
  | nil => cases h
  | cons b num ih =>
    unfold CJson.digitsLoop at h
    split at h
    · obtain ⟨p, hp, hout⟩ := Option.map_eq_some_iff.mp h
      obtain ⟨rfl, rfl⟩ := Prod.mk.inj hout
      have hlen := ih hp
      simp only [List.length_cons]
      omega
    · obtain ⟨rfl, rfl⟩ := Prod.mk.inj (Option.some.inj h)
      simp

theorem length_parseInteger {num ds rest : List UInt8}
    (h : CJson.parseInteger num = some (ds, rest)) : num.length = ds.length + rest.length := by
  unfold CJson.parseInteger at h
  split at h
  · cases h
  · split at h
    · exact length_digitsLoop h
    · obtain ⟨rfl, rfl⟩ := Prod.mk.inj (Option.some.inj h)
      simp

theorem length_parseFraction {num ds rest : List UInt8}
    (h : CJson.parseFraction num = some (ds, rest)) : ds.length ≤ num.length := by
  unfold CJson.parseFraction at h
  split at h
  · cases h
  · split at h
    · split at h
      · cases h
      · split at h
        · have hlen := length_digitsLoop h
          simp only [List.length_cons] at hlen ⊢
          omega
        · obtain ⟨rfl, -⟩ := Prod.mk.inj (Option.some.inj h)
          simp
    · obtain ⟨rfl, -⟩ := Prod.mk.inj (Option.some.inj h)
      simp

/-- What is stored for the decimal `d`: its integer, and that as an `int` where it is one. -/
def Stores (d : Decimal) (n : D.Value × Int) : Prop :=
  n.1 = D.ofInt d.mantissa ∧ (-2 ^ 31 ≤ d.mantissa → d.mantissa < 2 ^ 31 → n.2 = d.mantissa)

theorem parseUnsigned_exact {sign : Int} (hsign : sign = 1 ∨ sign = -1) {num rest : List UInt8}
    (hlen : num.length < 2 ^ 31) {d : Decimal}
    (h : CJson.parseUnsigned sign num = some (d, rest)) (hexp : d.exponent = 0)
    (hfits : Fits53 d.mantissa) :
    ∃ n, D.parseUnsigned sign num = some (n, rest) ∧ D.Stores d n := by
  simp only [CJson.parseUnsigned, Option.bind_eq_bind, Option.bind_eq_some_iff, Option.pure_def,
    Option.some.injEq, Prod.mk.injEq, Prod.exists] at h
  obtain ⟨b, hb, int, num₁, hint, frac, num₂, hfrac, subscale, num₃, hexponent, rfl, rfl⟩ := h
  dsimp only at hexp hfits
  have hlens : (if b = 48 then num.tail else num).length ≤ num.length := by
    split
    · exact num.tail_sublist.length_le
    · exact Nat.le_refl _
  have hint' := length_parseInteger hint
  have hfrac' := length_parseFraction hfrac
  have hsubscale : subscale = frac.length := by omega
  have hN : digitsFrom 0 (int ++ frac) ≤ 2 ^ 53 := by
    unfold Fits53 at hfits
    rcases hsign with rfl | rfl <;> omega
  have hn : D.digits (D.digits (D.ofInt 0) int) frac = D.ofInt (digitsFrom 0 (int ++ frac)) := by
    rw [← D.digits_exact hN, digits, digits, digits, List.foldl_append]
    rfl
  have hscale : D.pow10 (D.add (D.scale frac) (D.ofInt subscale)) = D.ofInt 1 := by
    rw [D.scale_exact (by omega), D.add_ofInt _ _ (by unfold Fits53; omega)
      (by unfold Fits53; omega) (by unfold Fits53; omega),
      show -(frac.length : Int) + subscale = 0 by omega, D.pow10_zero]
  have hvalue : D.mul (D.mul (D.ofInt sign) (D.ofInt (digitsFrom 0 (int ++ frac))))
      (D.ofInt 1) = D.ofInt (sign * digitsFrom 0 (int ++ frac)) := by
    have hsmall : Fits53 sign := by
      unfold Fits53
      rcases hsign with rfl | rfl <;> decide
    rw [D.mul_ofInt _ _ hsmall (by unfold Fits53; omega) hfits,
      D.mul_ofInt _ _ hfits (by unfold Fits53; omega) (by rwa [Int.mul_one]), Int.mul_one]
  refine ⟨(D.ofInt (sign * digitsFrom 0 (int ++ frac)),
    D.toInt (D.ofInt (sign * digitsFrom 0 (int ++ frac)))), ?_, rfl, fun hlow hhigh => ?_⟩
  · have hrange : subscale.natAbs < 2 ^ 31 := by omega
    simp only [parseUnsigned, hb, hint, hfrac, hexponent, hn, hscale, hvalue, hrange, if_true,
      Option.bind_eq_bind, Option.bind_some, Option.pure_def]
  · exact D.toInt_ofInt _ hlow hhigh

end DoubleArith

/-- A decimal that `parse_number` stores as it is: an integer of at most 53 bits, read from
fewer than 2 GiB. -/
def StoredExactly (d : Decimal) : Prop :=
  ∀ (D : DoubleArith) (num rest : List UInt8), num.length < 2 ^ 31 →
    CJson.parseNumber num = some (d, rest) →
      ∃ n, D.parseNumber num = some (n, rest) ∧ D.Stores d n

/-- **Integers of 53 bits are stored without rounding.** -/
theorem storedExactly_of_fits {d : Decimal} (hexp : d.exponent = 0) (hfits : Fits53 d.mantissa) :
    StoredExactly d := by
  intro D num rest hlen h
  unfold CJson.parseNumber at h
  unfold DoubleArith.parseNumber
  cases num with
  | nil => cases h
  | cons b num =>
    rw [List.length_cons] at hlen
    simp only [List.head?_cons, Option.bind_eq_bind, Option.bind_some, List.tail_cons] at h ⊢
    split at h
    · rename_i hminus
      rw [if_pos hminus]
      exact D.parseUnsigned_exact (Or.inr rfl) (by omega) h hexp hfits
    · rename_i hplus
      rw [if_neg hplus]
      exact D.parseUnsigned_exact (Or.inl rfl) (by rw [List.length_cons]; omega) h hexp hfits

end WowProxy
