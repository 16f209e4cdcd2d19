/-
  Common/BitErrors.lean --- the transmission errors that `reverse_crc_data` detects.

  A set of bit positions, counted over the whole body most significant bit first,
  is flipped.  As the body itself brings the register back to zero, the checksum of
  the changed body is that of the error alone; what the register makes of a burst
  and of an odd number of errors is in `Lib.SerialRegister`.
-/
import WowProxy.Common.Crc8
import WowProxy.Lib.SerialRegister
import Mathlib.Data.Finset.Card
import Mathlib.Data.Nat.Count
import Mathlib.Order.Interval.Finset.Nat

set_option autoImplicit false

namespace WowProxy

open WowProxy.Lib.ShiftRegister

/-! ## Flipping bits -/

/-- Whether each of the `count` positions from `start` on is flipped. -/
def flipsFrom (flips : Finset Nat) (start count : Nat) : List Bool :=
  (List.range' start count).map fun p => decide (p ∈ flips)

/-- Flip the bits of `body` whose positions are in `flips`; the first byte starts at
the position `start`. -/
def flipBitsFrom (flips : Finset Nat) : Nat → List UInt8 → List UInt8
  | _, [] => []
  | start, b :: body =>
    ⟨b.toBitVec ^^^ ofBits (flipsFrom flips start 8)⟩ :: flipBitsFrom flips (start + 8) body

/-- Flip the bits of `body` whose positions in transmission order are in `flips`. -/
def flipBits (flips : Finset Nat) (body : List UInt8) : List UInt8 := flipBitsFrom flips 0 body

/-- The bits of a byte string in transmission order. -/
def byteBits (data : List UInt8) : List Bool := messageBits (data.map UInt8.toBitVec)

theorem byteBits_cons (b : UInt8) (data : List UInt8) :
    byteBits (b :: data) = bitsOf b.toBitVec ++ byteBits data := rfl

theorem length_byteBits (data : List UInt8) : (byteBits data).length = 8 * data.length := by
  induction data with
  | nil => rfl
  | cons b data ih =>
    rw [byteBits_cons, List.length_append, length_bitsOf, ih, List.length_cons]
    omega

theorem length_flipBitsFrom (flips : Finset Nat) (start : Nat) (body : List UInt8) :
    (flipBitsFrom flips start body).length = body.length := by
  induction body generalizing start with
  | nil => rfl
  | cons b body ih => simp only [flipBitsFrom, List.length_cons, ih]

@[simp] theorem length_flipBits (flips : Finset Nat) (body : List UInt8) :
    (flipBits flips body).length = body.length :=
  length_flipBitsFrom flips 0 body

@[simp] theorem length_flipsFrom (flips : Finset Nat) (start count : Nat) :
    (flipsFrom flips start count).length = count := by
  simp [flipsFrom]

theorem flipsFrom_add (flips : Finset Nat) (start m n : Nat) :
    flipsFrom flips start (m + n) = flipsFrom flips start m ++ flipsFrom flips (start + m) n := by
  unfold flipsFrom
  rw [← List.map_append, List.range'_append_1]

/-- Flipping adds the error pattern to the bits of the body. -/
theorem byteBits_flipBitsFrom (flips : Finset Nat) (start : Nat) (body : List UInt8) :
    byteBits (flipBitsFrom flips start body) =
      List.zipWith xor (byteBits body) (flipsFrom flips start (8 * body.length)) := by
  induction body generalizing start with
  | nil => rfl
  | cons b body ih =>
    have hlen : 8 * (b :: body).length = 8 + 8 * body.length := by
      rw [List.length_cons]
      omega
    rw [flipBitsFrom, byteBits_cons, byteBits_cons, ih, hlen, flipsFrom_add,
      List.zipWith_append (by simp), bitsOf_xor, bitsOf_ofBits (length_flipsFrom _ _ _)]

/-! ## The error alone -/

theorem crcOf_eq_serial (data : List UInt8) :
    crcOf data = ⟨serial crcPoly 0#8 (byteBits data)⟩ :=
  congrArg UInt8.ofBitVec (serial_messageBits crcPoly 0#8 _).symm

/-- The changed body has the checksum of the error. -/
theorem crcOf_flipBits {body : List UInt8} (hbody : crcOf body = 0) (flips : Finset Nat) :
    crcOf (flipBits flips body) =
      ⟨serial crcPoly 0#8 (flipsFrom flips 0 (8 * body.length))⟩ := by
  rw [crcOf_eq_serial] at hbody ⊢
  have hzero : serial crcPoly 0#8 (byteBits body) = 0#8 := congrArg UInt8.toBitVec hbody
  rw [flipBits, byteBits_flipBitsFrom]
  exact congrArg UInt8.ofBitVec (serial_error crcPoly (by simp [length_byteBits]) hzero)

theorem crcPoly_odd : crcPoly.getLsbD 0 = true := by decide

/-- `x + 1` divides the polynomial. -/
theorem crcPoly_evenTerms : EvenTerms crcPoly := by
  unfold EvenTerms
  decide

theorem flipsFrom_eq_replicate {flips : Finset Nat} {start count : Nat}
    (hnone : ∀ p ∈ flips, ¬ (start ≤ p ∧ p < start + count)) :
    flipsFrom flips start count = List.replicate count false := by
  have hmap : flipsFrom flips start count = (List.range' start count).map fun _ => false := by
    apply List.map_congr_left
    intro p hp
    rw [List.mem_range'_1] at hp
    exact decide_eq_false fun hmem => hnone p hmem hp
  rw [hmap, List.map_const', List.length_range']

theorem true_mem_flipsFrom {flips : Finset Nat} {start count p : Nat} (hp : p ∈ flips)
    (hrange : start ≤ p ∧ p < start + count) : true ∈ flipsFrom flips start count :=
  List.mem_map.mpr ⟨p, List.mem_range'_1.mpr hrange, decide_eq_true hp⟩

theorem count_flipsFrom {flips : Finset Nat} {total : Nat} (hin : ∀ p ∈ flips, p < total) :
    (flipsFrom flips 0 total).count true = flips.card := by
  have hfilter : (Finset.range total).filter (· ∈ flips) = flips := by
    ext p
    simpa using hin p
  rw [← hfilter, ← Nat.count_eq_card_filter_range, Nat.count, flipsFrom, ← List.range_eq_range',
    List.count, List.countP_map, hfilter]
  congr 1
  funext p
  simp

/-- Errors within eight consecutive positions. -/
def Burst (flips : Finset Nat) : Prop := ∃ k, ∀ p ∈ flips, k ≤ p ∧ p < k + 8

theorem serial_flips_burst {flips : Finset Nat} {total : Nat} (hne : flips.Nonempty)
    (hin : ∀ p ∈ flips, p < total) (hburst : Burst flips) :
    serial crcPoly 0#8 (flipsFrom flips 0 total) ≠ 0#8 := by
  obtain ⟨k, hk⟩ := hburst
  obtain ⟨p, hp⟩ := hne
  have hkp := hk p hp
  have hptotal := hin p hp
  -- The window may end behind the last bit.
  obtain ⟨width, after, htotal, hwidth, hcover⟩ : ∃ width after, total = k + (width + after) ∧
      width ≤ 8 ∧ (total < k + 8 → after = 0) ∧ (k + 8 ≤ total → width = 8) :=
    ⟨min 8 (total - k), total - k - min 8 (total - k), by omega⟩
  have hbefore : flipsFrom flips 0 k = List.replicate k false :=
    flipsFrom_eq_replicate fun q hq => by
      have := hk q hq
      omega
  have hbehind : flipsFrom flips (0 + k + width) after = List.replicate after false :=
    flipsFrom_eq_replicate fun q hq => by
      have := hk q hq
      omega
  rw [htotal, flipsFrom_add, flipsFrom_add, hbefore, hbehind, ← List.append_assoc]
  exact serial_burst crcPoly_odd k after (by simpa using hwidth)
    (true_mem_flipsFrom hp (by omega))

/-! ## Detection -/

/-- A body made by `crc_data` brings the register back to zero. -/
theorem crcOf_body (payload : List UInt8) : crcOf (payload ++ [crcOf payload]) = 0 :=
  (crcOf_append_eq_zero_iff payload _).mpr rfl

/-- `reverse_crc_data` rejects a body with another checksum than zero. -/
theorem reverseCrcData_of_crc_ne_zero {body : List UInt8} (hcrc : crcOf body ≠ 0)
    (room : Option Nat) :
    reverseCrcData (some body) body.length room = some (-1, []) := by
  cases room with
  | none => rfl
  | some room =>
    simp only [reverseCrcData, isDataIntegrity, crc8_eq_checksum, Option.bind_eq_bind,
      Option.bind_some, if_neg hcrc]
    rfl

/-- **Flipping any non-empty set of bits of a body made by `crc_data` that lies within
eight consecutive positions or has an odd number of elements makes `reverse_crc_data`
reject it.** -/
theorem reverseCrcData_rejects (payload body : List UInt8) (room : Nat) (ret : Int)
    (hlen : payload.length + 1 < 2 ^ 31)
    (hcrc : crcData (some payload) payload.length room = some (ret, body))
    (flips : Finset Nat) (hin : ∀ p ∈ flips, p < 8 * body.length) (hne : flips.Nonempty)
    (herror : (∃ k, ∀ p ∈ flips, k ≤ p ∧ p < k + 8) ∨ Odd flips.card) (out : Option Nat) :
    reverseCrcData (some (flipBits flips body)) body.length out = some (-1, []) := by
  obtain ⟨-, hbody, -⟩ := crcData_eq_some (by omega) hcrc
  have hzero : crcOf body = 0 := by
    rw [hbody]
    exact crcOf_body payload
  have herr : serial crcPoly 0#8 (flipsFrom flips 0 (8 * body.length)) ≠ 0#8 := by
    rcases herror with hburst | hodd
    · exact serial_flips_burst hne hin hburst
    · rw [← count_flipsFrom hin] at hodd
      exact serial_odd crcPoly_evenTerms hodd
  have hne : crcOf (flipBits flips body) ≠ 0 := by
    rw [crcOf_flipBits hzero]
    exact fun h => herr (congrArg UInt8.toBitVec h)
  have hreject := reverseCrcData_of_crc_ne_zero hne out
  rwa [length_flipBits] at hreject

/-- A burst across the byte boundary in front of the checksum of `A`. -/
theorem reverseCrcData_rejects_boundary :
    reverseCrcData (some (flipBits {7, 8} [65, 192])) 2 (some 2) = some (-1, []) :=
  reverseCrcData_rejects [65] [65, 192] 2 2 (by decide) (by decide +kernel) {7, 8}
    (by decide) (by decide) (Or.inl ⟨7, by decide⟩) (some 2)

end WowProxy
