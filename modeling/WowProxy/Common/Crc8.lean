/-
  Common/Crc8.lean --- the checksum of `common/crc8.c` and the bodies it is
  appended to.

  `crc8` keeps its eight-bit register in bits 8 to 15 of a 32-bit word and adds
  the polynomial pre-shifted, as `0x1070 << 3`.  `crc8_eq_checksum` shows that
  the word never carries anything else, so that the loop computes the checksum
  of `Lib.ShiftRegister` for `x^8 + x^2 + x + 1`.  What a body accepted by
  `reverse_crc_data` looks like follows from the register, not from the loop.
-/
import WowProxy.Common.Config
import WowProxy.Lib.ShiftRegister

set_option autoImplicit false

namespace WowProxy

open WowProxy.Lib.ShiftRegister

/-! ## The loop -/

/-- One turn of the inner loop of `crc8`. -/
def crc8Bit (crc : UInt32) : UInt32 :=
  (if crc &&& 0x8000 ≠ 0 then crc ^^^ ((0x1070 : UInt32) <<< 3) else crc) <<< 1

/-- The body of the outer loop: one byte, then the eight inner turns. -/
def crc8Byte (crc : UInt32) (data : UInt8) : UInt32 :=
  crc8Bit^[8] (crc ^^^ (data.toUInt32 <<< 8))

/-- The outer loop counts `j` down to zero; it is undefined once it reads past
the buffer. -/
def crc8Loop : Nat → List UInt8 → UInt32 → Option UInt32
  | 0, _, crc => some crc
  | _ + 1, [], _ => none
  | j + 1, b :: data, crc => crc8Loop j data (crc8Byte crc b)

/-- `crc8(vptr, len)`.  A negative `len` never counts down to zero inside a
buffer. -/
def crc8 (vptr : List UInt8) (len : Int) : Option UInt8 :=
  match len with
  | .ofNat j => (crc8Loop j vptr 0).map fun crc : UInt32 => (crc >>> 8).toUInt8
  | .negSucc _ => none

/-- `is_data_integrity`: zero when the checksum is. -/
def isDataIntegrity (vptr : List UInt8) (len : Int) : Option UInt8 :=
  crc8 vptr len

/-- `crc_data(vptr, len, buf)` into a buffer of `room` bytes: the returned
length and the bytes written.  `vptr` is `none` when it is `NULL`. -/
def crcData (vptr : Option (List UInt8)) (len : Int) (room : Nat) :
    Option (Int × List UInt8) :=
  match vptr with
  | none => some (-1, [])
  | some data => do
    let crcVal ← crc8 data len
    let head ← memcpy room data (sizeT len)
    let last ← memcpy (room - sizeT len) [crcVal] 1
    return (len + 1, head ++ last)

/-- `reverse_crc_data(vptr, len, buf)`: the returned code and the bytes written
to `buf`, which has `room` bytes or is `NULL`. -/
def reverseCrcData (vptr : Option (List UInt8)) (len : Int) (room : Option Nat) :
    Option (Int × List UInt8) :=
  match vptr, room with
  | some data, some room => do
    let crcVal ← isDataIntegrity data len
    if crcVal = 0 then
      let copy ← memcpy room data (sizeT (len - 1))
      return (0, copy)
    else
      return (-1, [])
  | _, _ => some (-1, [])

/-! ## The loop is a shift register -/

/-- The polynomial `x^8 + x^2 + x + 1` without its leading term (`POLY`). -/
def crcPoly : BitVec 8 := 0x07#8

/-- The word that holds the register `state` in bits 8 to 15. -/
def crcWord (state : BitVec 8) : UInt32 := ⟨state.setWidth 32 <<< 8⟩

theorem crc8Bit_crcWord (state : BitVec 8) :
    crc8Bit (crcWord state) = crcWord (shift crcPoly state) := by
  revert state
  decide +kernel

theorem crc8Bit_iterate_crcWord (n : Nat) (state : BitVec 8) :
    crc8Bit^[n] (crcWord state) = crcWord ((shift crcPoly)^[n] state) := by
  induction n generalizing state with
  | zero => rfl
  | succ n ih => simp only [Function.iterate_succ_apply, crc8Bit_crcWord, ih]

theorem crcWord_xor (state : BitVec 8) (b : UInt8) :
    crcWord state ^^^ (b.toUInt32 <<< 8) = crcWord (state ^^^ b.toBitVec) := by
  apply UInt32.toBitVec_inj.mp
  show (state.setWidth 32 <<< 8) ^^^ (b.toBitVec.setWidth 32 <<< 8) =
    (state ^^^ b.toBitVec).setWidth 32 <<< 8
  rw [BitVec.setWidth_xor, BitVec.shiftLeft_xor_distrib]

theorem crc8Byte_crcWord (state : BitVec 8) (b : UInt8) :
    crc8Byte (crcWord state) b = crcWord (feed crcPoly state b.toBitVec) := by
  unfold crc8Byte feed
  rw [crcWord_xor, crc8Bit_iterate_crcWord]

theorem crcWord_high_byte (state : BitVec 8) :
    (crcWord state >>> 8).toUInt8 = ⟨state⟩ := by
  revert state
  decide +kernel

/-- The outer loop feeds the bytes it counts into the register. -/
theorem crc8Loop_crcWord (data : List UInt8) (rest : List UInt8) (state : BitVec 8) :
    crc8Loop data.length (data ++ rest) (crcWord state) =
      some (crcWord (checksumFrom crcPoly state (data.map UInt8.toBitVec))) := by
  induction data generalizing state with
  | nil => rfl
  | cons b data ih =>
    show crc8Loop data.length (data ++ rest) (crc8Byte (crcWord state) b) = _
    rw [crc8Byte_crcWord, ih]
    rfl

/-- The checksum byte of a byte string. -/
def crcOf (data : List UInt8) : UInt8 := ⟨checksum crcPoly (data.map UInt8.toBitVec)⟩

/-- `crc8` over a whole buffer is its checksum. -/
theorem crc8_eq_checksum (data : List UInt8) : crc8 data data.length = some (crcOf data) := by
  have h := crc8Loop_crcWord data [] 0#8
  rw [List.append_nil] at h
  have hzero : (0 : UInt32) = crcWord 0#8 := rfl
  show Option.map _ (crc8Loop data.length data 0) = _
  rw [hzero, h, Option.map_some, crcWord_high_byte]
  rfl

theorem crcOf_append_eq_zero_iff (data : List UInt8) (b : UInt8) :
    crcOf (data ++ [b]) = 0 ↔ b = crcOf data := by
  have hodd : crcPoly.getLsbD 0 = true := by decide
  have h := checksum_append_eq_zero_iff hodd (data.map UInt8.toBitVec) b.toBitVec
  have hmap : data.map UInt8.toBitVec ++ [b.toBitVec] = (data ++ [b]).map UInt8.toBitVec := by
    rw [List.map_append, List.map_singleton]
  rw [hmap] at h
  constructor
  · intro hz
    exact UInt8.toBitVec_inj.mp (h.mp (congrArg UInt8.toBitVec hz))
  · intro hb
    exact UInt8.toBitVec_inj.mp (h.mpr (congrArg UInt8.toBitVec hb))

/-! ## What `crc_data` makes -/

theorem memcpy_eq_some_iff {room n : Nat} {src copy : List UInt8} :
    memcpy room src n = some copy ↔ n ≤ src.length ∧ n ≤ room ∧ copy = src.take n := by
  unfold memcpy
  split <;> rename_i h
  · rw [Option.some.injEq, eq_comm]
    exact ⟨fun hcopy => ⟨h.1, h.2, hcopy⟩, fun hcopy => hcopy.2.2⟩
  · exact ⟨fun hnone => absurd hnone (by simp), fun hcopy => absurd ⟨hcopy.1, hcopy.2.1⟩ h⟩

/-- `crc_data` appends the checksum byte when the buffer has room for it. -/
theorem crcData_of_room {data : List UInt8} {room : Nat} (hlen : data.length < 2 ^ 64)
    (hroom : data.length + 1 ≤ room) :
    crcData (some data) data.length room =
      some ((data.length : Int) + 1, data ++ [crcOf data]) := by
  have hsize : sizeT (data.length : Int) = data.length :=
    sizeT_of_nonneg (by omega) (by omega)
  have hhead : memcpy room data data.length = some data := by
    rw [memcpy_eq_some (by omega) (by omega), List.take_length]
  have hlast : memcpy (room - data.length) [crcOf data] 1 = some [crcOf data] :=
    memcpy_eq_some (by simp) (by omega)
  simp only [crcData, crc8_eq_checksum, hsize, hhead, hlast, Option.bind_eq_bind,
    Option.bind_some, Option.pure_def]

/-- Whenever `crc_data` stays in its buffer, it writes the data and its checksum byte. -/
theorem crcData_eq_some {data body : List UInt8} {room : Nat} {ret : Int}
    (hlen : data.length < 2 ^ 64)
    (h : crcData (some data) data.length room = some (ret, body)) :
    ret = data.length + 1 ∧ body = data ++ [crcOf data] ∧ data.length + 1 ≤ room := by
  have hsize : sizeT (data.length : Int) = data.length :=
    sizeT_of_nonneg (by omega) (by omega)
  simp only [crcData, crc8_eq_checksum, hsize, Option.bind_eq_bind, Option.bind_some,
    Option.bind_eq_some_iff, Option.pure_def, Option.some.injEq, Prod.mk.injEq] at h
  obtain ⟨head, hhead, last, hlast, hret, hbody⟩ := h
  obtain ⟨-, -, rfl⟩ := memcpy_eq_some_iff.mp hhead
  obtain ⟨-, hroom, rfl⟩ := memcpy_eq_some_iff.mp hlast
  refine ⟨hret.symm, ?_, by omega⟩
  rw [← hbody, List.take_length]
  rfl

end WowProxy
