/-
  Lib/SerialRegister.lean --- a shift register fed one bit at a time, and the
  transmission errors it detects.

  Feeding a symbol of `w` bits is the same as feeding its bits, most significant
  first (`serial_bitsOf`).  Seen as one string of bits a message no longer has
  symbol boundaries, and the two classical facts about cyclic codes are short: a
  burst that fits in the register leaves it non-zero, because a register that is
  fed at most `w` bits holds exactly these bits shifted; and a polynomial with an
  even number of terms preserves parity, so an odd number of errors cannot vanish.
-/
import WowProxy.Lib.ShiftRegister
import Mathlib.Algebra.Ring.Parity

set_option autoImplicit false

namespace WowProxy.Lib.ShiftRegister

variable {w : Nat}

/-! ## Bits, most significant first -/

/-- The bits of a symbol in transmission order. -/
def bitsOf (x : BitVec w) : List Bool := (List.range w).map x.getMsbD

/-- A single bit in the top place. -/
def topBit (b : Bool) : BitVec w := if b then BitVec.twoPow w (w - 1) else 0#w

/-- The symbol whose first bits in transmission order are the given ones. -/
def ofBits : List Bool → BitVec w
  | [] => 0#w
  | b :: bits => topBit b ^^^ (ofBits bits >>> 1)

@[simp] theorem length_bitsOf (x : BitVec w) : (bitsOf x).length = w := by
  simp [bitsOf]

theorem getMsbD_topBit (b : Bool) (i : Nat) :
    (topBit b : BitVec w).getMsbD i = (decide (i = 0) && decide (0 < w) && b) := by
  cases b with
  | false => simp [topBit]
  | true =>
    rw [topBit, if_pos rfl, BitVec.getMsbD_eq_getLsbD, BitVec.getLsbD_twoPow]
    by_cases hi : i < w
    · by_cases h0 : i = 0
      · simp [h0, show 0 < w by omega, show w - 1 < w by omega]
      · simp [h0, show ¬ w - 1 = w - 1 - i by omega]
    · have hnot : i = 0 → ¬ 0 < w := by omega
      simpa [hi] using hnot

theorem getMsbD_ofBits (bits : List Bool) (i : Nat) :
    (ofBits bits : BitVec w).getMsbD i = (decide (i < w) && bits.getD i false) := by
  induction bits generalizing i with
  | nil => simp [ofBits]
  | cons b bits ih =>
    rw [ofBits, BitVec.getMsbD_xor, getMsbD_topBit, BitVec.getMsbD_ushiftRight]
    cases i with
    | zero => cases hw : decide (0 < w) <;> simp_all
    | succ i =>
      rw [ih]
      by_cases hi : i + 1 < w
      · simp [hi, show i < w by omega]
      · simp [hi]

theorem ofBits_bitsOf (x : BitVec w) : ofBits (bitsOf x) = x := by
  apply BitVec.eq_of_getMsbD_eq
  intro i hi
  rw [getMsbD_ofBits]
  simp [bitsOf, hi]

theorem bitsOf_ofBits {bits : List Bool} (hlen : bits.length = w) :
    bitsOf (ofBits bits : BitVec w) = bits := by
  apply List.ext_getElem (by simp [hlen])
  intro i hi hi'
  simp only [bitsOf, List.getElem_map, List.getElem_range, getMsbD_ofBits]
  simp [show i < w by omega, hi']

theorem bitsOf_xor (x y : BitVec w) :
    bitsOf (x ^^^ y) = List.zipWith xor (bitsOf x) (bitsOf y) := by
  simp [bitsOf, List.zipWith_map, List.zipWith_self]

/-! ## Feeding bits -/

/-- Add one bit at the top of the register and shift it through. -/
def feedBit (poly state : BitVec w) (b : Bool) : BitVec w := shift poly (state ^^^ topBit b)

/-- The register after feeding `bits` from the state `state`. -/
def serial (poly state : BitVec w) (bits : List Bool) : BitVec w :=
  bits.foldl (feedBit poly) state

theorem serial_append (poly state : BitVec w) (left right : List Bool) :
    serial poly state (left ++ right) = serial poly (serial poly state left) right :=
  List.foldl_append

/-- A symbol moved down one place comes back when its lowest bit was clear. -/
theorem shift_ushiftRight_one (poly : BitVec w) {x : BitVec w} (hlow : x.getLsbD 0 = false) :
    shift poly (x >>> 1) = x := by
  have hmsb : (x >>> 1).msb = false := by simp [BitVec.msb_ushiftRight]
  rw [shift, hmsb]
  simp only [Bool.false_eq_true, if_false]
  apply BitVec.eq_of_getLsbD_eq
  intro i hi
  rw [BitVec.getLsbD_shiftLeft, BitVec.getLsbD_ushiftRight]
  cases i with
  | zero => simp [hlow]
  | succ i => simp [hi, Nat.add_comm 1 i]

/-- A register that is fed at most `w` bits holds these bits, shifted through. -/
theorem serial_eq_iterate (poly state : BitVec w) {bits : List Bool} (hlen : bits.length ≤ w) :
    serial poly state bits = (shift poly)^[bits.length] (state ^^^ ofBits bits) := by
  induction bits generalizing state with
  | nil => simp [serial, ofBits]
  | cons b bits ih =>
    rw [List.length_cons] at hlen
    have hlow : (ofBits bits : BitVec w).getLsbD 0 = false := by
      have h := getMsbD_ofBits (w := w) bits (w - 1)
      rw [BitVec.getMsbD_eq_getLsbD, Nat.sub_self] at h
      simpa [show w - 1 < w by omega, show bits.length ≤ w - 1 by omega] using h
    show serial poly (feedBit poly state b) bits = _
    rw [ih _ (by omega), List.length_cons, Function.iterate_succ_apply, ofBits,
      ← BitVec.xor_assoc, shift_xor, shift_ushiftRight_one poly hlow]
    rfl

/-- **Feeding a symbol is feeding its bits.** -/
theorem serial_bitsOf (poly state symbol : BitVec w) :
    serial poly state (bitsOf symbol) = feed poly state symbol := by
  rw [serial_eq_iterate poly state (Nat.le_of_eq (length_bitsOf symbol)), length_bitsOf,
    ofBits_bitsOf]
  rfl

/-- The bits of a message in transmission order. -/
def messageBits (message : List (BitVec w)) : List Bool := message.flatMap bitsOf

theorem serial_messageBits (poly state : BitVec w) (message : List (BitVec w)) :
    serial poly state (messageBits message) = checksumFrom poly state message := by
  induction message generalizing state with
  | nil => rfl
  | cons symbol message ih =>
    show serial poly state (bitsOf symbol ++ messageBits message) = _
    rw [serial_append, serial_bitsOf, ih]
    rfl

/-! ## Errors -/

theorem feedBit_xor (poly x y : BitVec w) (b c : Bool) :
    feedBit poly (x ^^^ y) (xor b c) = feedBit poly x b ^^^ feedBit poly y c := by
  have htop : (topBit (xor b c) : BitVec w) = topBit b ^^^ topBit c := by
    cases b <;> cases c <;> simp [topBit]
  unfold feedBit
  rw [htop, ← shift_xor]
  congr 1
  ac_rfl

/-- The register is linear in state and message together. -/
theorem serial_xor (poly x y : BitVec w) {bits error : List Bool}
    (hlen : bits.length = error.length) :
    serial poly (x ^^^ y) (List.zipWith xor bits error) =
      serial poly x bits ^^^ serial poly y error := by
  induction bits generalizing x y error with
  | nil =>
    cases error with
    | nil => rfl
    | cons c error => cases hlen
  | cons b bits ih =>
    cases error with
    | nil => cases hlen
    | cons c error =>
      show serial poly (feedBit poly (x ^^^ y) (xor b c)) (List.zipWith xor bits error) = _
      rw [feedBit_xor, ih _ _ (Nat.succ.inj hlen)]
      rfl

/-- An error in a message that leaves the register at zero is seen exactly when
the error alone does not. -/
theorem serial_error (poly : BitVec w) {bits error : List Bool}
    (hlen : bits.length = error.length) (hzero : serial poly 0#w bits = 0#w) :
    serial poly 0#w (List.zipWith xor bits error) = serial poly 0#w error := by
  have h := serial_xor poly 0#w 0#w hlen
  rwa [BitVec.xor_self, hzero, BitVec.zero_xor] at h

theorem serial_replicate_false (poly state : BitVec w) (n : Nat) :
    serial poly state (List.replicate n false) = (shift poly)^[n] state := by
  induction n generalizing state with
  | zero => rfl
  | succ n ih =>
    show serial poly (feedBit poly state false) (List.replicate n false) = _
    rw [ih, Function.iterate_succ_apply]
    simp [feedBit, topBit]

/-- **A non-zero burst of at most `w` bits leaves the register non-zero.** -/
theorem serial_burst {poly : BitVec w} (hodd : poly.getLsbD 0 = true) (before after : Nat)
    {burst : List Bool} (hlen : burst.length ≤ w) (htrue : true ∈ burst) :
    serial poly 0#w (List.replicate before false ++ burst ++ List.replicate after false) ≠
      0#w := by
  rw [serial_append, serial_append, serial_replicate_false, serial_replicate_false,
    serial_eq_iterate poly _ hlen]
  rw [(iterate_shift_eq_zero_iff hodd before _).mpr rfl, BitVec.zero_xor]
  intro hzero
  rw [iterate_shift_eq_zero_iff hodd, iterate_shift_eq_zero_iff hodd] at hzero
  obtain ⟨i, hi, hbit⟩ := List.getElem_of_mem htrue
  have h := getMsbD_ofBits (w := w) burst i
  rw [hzero] at h
  simp [show i < w by omega, hi, hbit] at h

/-! ## Parity -/

/-- Whether an odd number of bits is set. -/
def parity : List Bool → Bool
  | [] => false
  | b :: bits => xor b (parity bits)

theorem parity_eq_odd_count (bits : List Bool) : parity bits = decide (Odd (bits.count true)) := by
  induction bits with
  | nil => rfl
  | cons b bits ih =>
    cases b with
    | false => simp [parity, ih]
    | true =>
      rw [parity, ih, List.count_cons_self, decide_eq_decide.mpr Nat.odd_add_one, decide_not,
        Bool.true_xor]

theorem parity_append (left right : List Bool) :
    parity (left ++ right) = xor (parity left) (parity right) := by
  induction left with
  | nil => simp [parity]
  | cons b left ih => simp [parity, ih]

theorem parity_zipWith_xor {left right : List Bool} (hlen : left.length = right.length) :
    parity (List.zipWith xor left right) = xor (parity left) (parity right) := by
  induction left generalizing right with
  | nil =>
    cases right with
    | nil => rfl
    | cons c right => cases hlen
  | cons b left ih =>
    cases right with
    | nil => cases hlen
    | cons c right =>
      simp only [List.zipWith_cons_cons, parity, ih (Nat.succ.inj hlen)]
      cases b <;> cases c <;> cases parity left <;> cases parity right <;> rfl

/-- A polynomial has an even number of terms when its terms below the leading one
are odd in number: `x + 1` divides it. -/
def EvenTerms (poly : BitVec w) : Prop := parity (bitsOf poly) = true

theorem parity_bitsOf_xor (x y : BitVec w) :
    parity (bitsOf (x ^^^ y)) = xor (parity (bitsOf x)) (parity (bitsOf y)) := by
  rw [bitsOf_xor, parity_zipWith_xor (by simp)]

/-- Shifting without feedback loses the top bit. -/
theorem parity_bitsOf_shiftLeft_one (x : BitVec w) :
    xor x.msb (parity (bitsOf (x <<< 1))) = parity (bitsOf x) := by
  cases w with
  | zero => simp [bitsOf, parity, BitVec.of_length_zero]
  | succ w =>
    have hleft : bitsOf (x <<< 1) = (List.range w).map (fun i => x.getMsbD (i + 1)) ++ [false] := by
      rw [bitsOf, List.range_succ, List.map_append, List.map_singleton]
      congr 1
      · apply List.map_congr_left
        intro i hi
        have hi : i < w := List.mem_range.mp hi
        simp [BitVec.getMsbD_shiftLeft]
      · simp [BitVec.getMsbD_shiftLeft]
    have hright : bitsOf x = x.msb :: (List.range w).map (fun i => x.getMsbD (i + 1)) := by
      rw [bitsOf, List.range_succ_eq_map, List.map_cons, List.map_map]
      rfl
    rw [hleft, hright, parity_append]
    simp [parity]

/-- With an even number of terms shifting preserves parity. -/
theorem parity_shift {poly : BitVec w} (heven : EvenTerms poly) (x : BitVec w) :
    parity (bitsOf (shift poly x)) = parity (bitsOf x) := by
  have hpoly : parity (bitsOf poly) = true := heven
  rw [← parity_bitsOf_shiftLeft_one x, shift]
  cases x.msb with
  | false => simp
  | true => simp [parity_bitsOf_xor, hpoly]

theorem parity_replicate_false (n : Nat) : parity (List.replicate n false) = false := by
  rw [parity_eq_odd_count, List.count_replicate]
  simp

theorem bitsOf_zero : bitsOf (0#w) = List.replicate w false := by
  have hbits : bitsOf (0#w) = (List.range w).map fun _ => false :=
    List.map_congr_left fun i _ => by simp [BitVec.getMsbD]
  rw [hbits, List.map_const', List.length_range]

theorem bitsOf_topBit (b : Bool) :
    bitsOf (topBit b : BitVec (w + 1)) = b :: List.replicate w false := by
  have hrest : (List.range w).map ((topBit b : BitVec (w + 1)).getMsbD ∘ Nat.succ) =
      (List.range w).map fun _ => false :=
    List.map_congr_left fun i _ => by simp [getMsbD_topBit]
  rw [bitsOf, List.range_succ_eq_map, List.map_cons, List.map_map, hrest, List.map_const',
    List.length_range, getMsbD_topBit]
  simp

/-- The parity of the register is the parity of everything that was fed. -/
theorem parity_serial {poly : BitVec (w + 1)} (heven : EvenTerms poly) (state : BitVec (w + 1))
    (bits : List Bool) :
    parity (bitsOf (serial poly state bits)) = xor (parity (bitsOf state)) (parity bits) := by
  induction bits generalizing state with
  | nil => simp [serial, parity]
  | cons b bits ih =>
    show parity (bitsOf (serial poly (feedBit poly state b) bits)) = _
    rw [ih, feedBit, parity_shift heven, parity_bitsOf_xor, bitsOf_topBit, parity,
      parity_replicate_false, Bool.xor_false, parity, Bool.xor_assoc]

/-- **An odd number of errors leaves the register non-zero.** -/
theorem serial_odd {poly : BitVec (w + 1)} (heven : EvenTerms poly) {error : List Bool}
    (hodd : Odd (error.count true)) : serial poly 0 error ≠ 0 := by
  intro hzero
  have h := parity_serial heven 0 error
  have hbits : bitsOf (0 : BitVec (w + 1)) = List.replicate (w + 1) false := bitsOf_zero
  rw [hzero, hbits, parity_replicate_false, parity_eq_odd_count, decide_eq_true hodd] at h
  exact absurd h (by decide)

end WowProxy.Lib.ShiftRegister
