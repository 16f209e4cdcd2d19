/-
  Lib/ShiftRegister.lean --- linear feedback shift registers, most significant
  bit first.

  A register of width `w` is a `BitVec w`.  One shift moves every bit up by one
  place and, when a one falls out at the top, adds the feedback polynomial.
  Feeding a symbol adds it to the register and shifts `w` times; the checksum of
  a message is the register after feeding its symbols from the zero state.

  The file names no program.  Its two facts are the ones checksums rest on:
  shifting is linear over exclusive or, and with an odd polynomial it loses no
  information (`shift_eq_zero_iff`).  Together they give
  `checksum_append_eq_zero_iff`: the checksum of a message is the only symbol
  that brings the register back to zero.
-/
import Mathlib.Logic.Function.Iterate

set_option autoImplicit false

namespace WowProxy.Lib.ShiftRegister

variable {w : Nat}

/-! ## One shift -/

/-- Move the register up one place, feeding `poly` back when a one falls out. -/
def shift (poly x : BitVec w) : BitVec w :=
  if x.msb then (x <<< 1) ^^^ poly else x <<< 1

theorem xor_feedback_cancel (a b p : BitVec w) :
    (a ^^^ p) ^^^ (b ^^^ p) = a ^^^ b := by
  rw [BitVec.xor_assoc, BitVec.xor_comm p, BitVec.xor_assoc b,
    BitVec.xor_self, BitVec.xor_zero]

/-- Shifting is linear over exclusive or. -/
theorem shift_xor (poly x y : BitVec w) :
    shift poly (x ^^^ y) = shift poly x ^^^ shift poly y := by
  unfold shift
  rw [BitVec.msb_xor, BitVec.shiftLeft_xor_distrib]
  cases x.msb <;> cases y.msb
  · rfl
  · simp [BitVec.xor_assoc]
  · simp only [Bool.xor_false, if_true, Bool.false_eq_true, if_false]
    rw [BitVec.xor_assoc, BitVec.xor_comm (y <<< 1), ← BitVec.xor_assoc]
  · simp [xor_feedback_cancel]

@[simp] theorem shift_zero (poly : BitVec w) : shift poly 0#w = 0#w := by
  simp [shift]

/-- A register whose top bit is clear is recovered from its shifted value. -/
theorem eq_zero_of_shiftLeft_one_eq_zero {x : BitVec w} (hmsb : x.msb = false)
    (h : x <<< 1 = 0#w) : x = 0#w := by
  apply BitVec.eq_of_getLsbD_eq
  intro i hi
  rw [BitVec.getLsbD_zero]
  by_cases htop : i + 1 < w
  · have hbit : (x <<< 1).getLsbD (i + 1) = x.getLsbD i := by
      rw [BitVec.getLsbD_shiftLeft]
      simp only [htop, decide_true, Bool.true_and, Nat.add_sub_cancel]
      simp
    rw [← hbit, h, BitVec.getLsbD_zero]
  · have hlast : i = w - 1 := by omega
    rw [hlast, ← BitVec.msb_eq_getLsbD_last]
    exact hmsb

/-- With an odd polynomial no register but the zero one shifts to zero. -/
theorem shift_eq_zero_iff {poly : BitVec w} (hodd : poly.getLsbD 0 = true)
    (x : BitVec w) : shift poly x = 0#w ↔ x = 0#w := by
  constructor
  · intro h
    unfold shift at h
    split at h
    · -- The feedback leaves a one in the lowest place.
      have hlow : ((x <<< 1) ^^^ poly).getLsbD 0 = true := by
        rw [BitVec.getLsbD_xor, hodd]
        simp [BitVec.getLsbD_shiftLeft]
      rw [h, BitVec.getLsbD_zero] at hlow
      exact absurd hlow (by decide)
    · rename_i hmsb
      exact eq_zero_of_shiftLeft_one_eq_zero (by simpa using hmsb) h
  · rintro rfl
    exact shift_zero poly

theorem iterate_shift_eq_zero_iff {poly : BitVec w}
    (hodd : poly.getLsbD 0 = true) (n : Nat) (x : BitVec w) :
    (shift poly)^[n] x = 0#w ↔ x = 0#w := by
  induction n generalizing x with
  | zero => rfl
  | succ n ih => rw [Function.iterate_succ_apply, ih, shift_eq_zero_iff hodd]

/-! ## Feeding symbols -/

/-- Add one symbol to the register and shift it through. -/
def feed (poly state symbol : BitVec w) : BitVec w :=
  (shift poly)^[w] (state ^^^ symbol)

/-- The register after feeding `message` from the state `state`. -/
def checksumFrom (poly state : BitVec w) (message : List (BitVec w)) : BitVec w :=
  message.foldl (feed poly) state

/-- The register after feeding `message` from the zero state. -/
def checksum (poly : BitVec w) (message : List (BitVec w)) : BitVec w :=
  checksumFrom poly 0#w message

theorem feed_eq_zero_iff {poly : BitVec w} (hodd : poly.getLsbD 0 = true)
    (state symbol : BitVec w) : feed poly state symbol = 0#w ↔ symbol = state := by
  unfold feed
  rw [iterate_shift_eq_zero_iff hodd, BitVec.xor_eq_zero_iff, eq_comm]

theorem checksumFrom_append (poly state : BitVec w) (left right : List (BitVec w)) :
    checksumFrom poly state (left ++ right) =
      checksumFrom poly (checksumFrom poly state left) right :=
  List.foldl_append

/-- The checksum is the one symbol that brings the register back to zero. -/
theorem checksum_append_eq_zero_iff {poly : BitVec w}
    (hodd : poly.getLsbD 0 = true) (message : List (BitVec w)) (symbol : BitVec w) :
    checksum poly (message ++ [symbol]) = 0#w ↔ symbol = checksum poly message := by
  unfold checksum
  rw [checksumFrom_append]
  exact feed_eq_zero_iff hodd _ _

end WowProxy.Lib.ShiftRegister
