/-
  Common/ClientCrc8.lean --- the checksum of the Python client
  (`test/ss/client/crc8.py`) and its agreement with the server's.

  The client keeps a Python integer and looks the next one up in a table of 256
  literals.  `crcTable_eq` compares the table with eight turns of the register, entry by
  entry; with that, the client's loop and the server's compute the same byte
  of every string.
-/
import WowProxy.Common.Crc8

set_option autoImplicit false

namespace WowProxy.Client

open WowProxy.Lib.ShiftRegister

/-! ## The table -/

/-- `crcTable`. -/
def crcTable : List Nat :=
  [0x00, 0x07, 0x0e, 0x09, 0x1c, 0x1b, 0x12, 0x15, 0x38, 0x3f, 0x36, 0x31,
   0x24, 0x23, 0x2a, 0x2d, 0x70, 0x77, 0x7e, 0x79, 0x6c, 0x6b, 0x62, 0x65,
   0x48, 0x4f, 0x46, 0x41, 0x54, 0x53, 0x5a, 0x5d, 0xe0, 0xe7, 0xee, 0xe9,
   0xfc, 0xfb, 0xf2, 0xf5, 0xd8, 0xdf, 0xd6, 0xd1, 0xc4, 0xc3, 0xca, 0xcd,
   0x90, 0x97, 0x9e, 0x99, 0x8c, 0x8b, 0x82, 0x85, 0xa8, 0xaf, 0xa6, 0xa1,
   0xb4, 0xb3, 0xba, 0xbd, 0xc7, 0xc0, 0xc9, 0xce, 0xdb, 0xdc, 0xd5, 0xd2,
   0xff, 0xf8, 0xf1, 0xf6, 0xe3, 0xe4, 0xed, 0xea, 0xb7, 0xb0, 0xb9, 0xbe,
   0xab, 0xac, 0xa5, 0xa2, 0x8f, 0x88, 0x81, 0x86, 0x93, 0x94, 0x9d, 0x9a,
   0x27, 0x20, 0x29, 0x2e, 0x3b, 0x3c, 0x35, 0x32, 0x1f, 0x18, 0x11, 0x16,
   0x03, 0x04, 0x0d, 0x0a, 0x57, 0x50, 0x59, 0x5e, 0x4b, 0x4c, 0x45, 0x42,
   0x6f, 0x68, 0x61, 0x66, 0x73, 0x74, 0x7d, 0x7a, 0x89, 0x8e, 0x87, 0x80,
   0x95, 0x92, 0x9b, 0x9c, 0xb1, 0xb6, 0xbf, 0xb8, 0xad, 0xaa, 0xa3, 0xa4,
   0xf9, 0xfe, 0xf7, 0xf0, 0xe5, 0xe2, 0xeb, 0xec, 0xc1, 0xc6, 0xcf, 0xc8,
   0xdd, 0xda, 0xd3, 0xd4, 0x69, 0x6e, 0x67, 0x60, 0x75, 0x72, 0x7b, 0x7c,
   0x51, 0x56, 0x5f, 0x58, 0x4d, 0x4a, 0x43, 0x44, 0x19, 0x1e, 0x17, 0x10,
   0x05, 0x02, 0x0b, 0x0c, 0x21, 0x26, 0x2f, 0x28, 0x3d, 0x3a, 0x33, 0x34,
   0x4e, 0x49, 0x40, 0x47, 0x52, 0x55, 0x5c, 0x5b, 0x76, 0x71, 0x78, 0x7f,
   0x6a, 0x6d, 0x64, 0x63, 0x3e, 0x39, 0x30, 0x37, 0x22, 0x25, 0x2c, 0x2b,
   0x06, 0x01, 0x08, 0x0f, 0x1a, 0x1d, 0x14, 0x13, 0xae, 0xa9, 0xa0, 0xa7,
   0xb2, 0xb5, 0xbc, 0xbb, 0x96, 0x91, 0x98, 0x9f, 0x8a, 0x8d, 0x84, 0x83,
   0xde, 0xd9, 0xd0, 0xd7, 0xc2, 0xc5, 0xcc, 0xcb, 0xe6, 0xe1, 0xe8, 0xef,
   0xfa, 0xfd, 0xf4, 0xf3]

/-- `crcByte(oldCrc, byte)`; `none` is the `IndexError` of an index outside the table. -/
def crcByte (oldCrc byte : Nat) : Option Nat :=
  crcTable[(oldCrc &&& 0xFF) ^^^ (byte &&& 0xFF)]?

/-- `crc8(msg)`: the running checksum after the characters of `msg`, whose code points are
below 256; on these `ord` and `chr` agree with bytes. -/
def crc8 (msg : List UInt8) : Option Nat :=
  msg.foldlM (fun runningCRC c => crcByte runningCRC c.toNat) 0

/-- `chr(n)`; `none` is the `ValueError` of a number that is no byte. -/
def chr (n : Nat) : Option UInt8 := if n < 256 then some (UInt8.ofNat n) else none

/-- `crc8_data(msg)`. -/
def crc8Data (msg : List UInt8) : Option (List UInt8) := do
  let crc ← crc8 msg
  let last ← chr crc
  return msg ++ [last]

/-! ## The table is eight turns of the register -/

theorem crcTable_eq (x : BitVec 8) :
    crcTable[x.toNat]? = some ((shift crcPoly)^[8] x).toNat := by
  revert x
  decide +kernel

theorem and_byte (x : BitVec 8) : x.toNat &&& 0xFF = x.toNat := by
  have h : x.toNat &&& 0xFF = x.toNat % 2 ^ 8 := Nat.and_two_pow_sub_one_eq_mod x.toNat 8
  rw [h, Nat.mod_eq_of_lt x.isLt]

/-- One look-up is one byte fed into the register. -/
theorem crcByte_eq (state : BitVec 8) (b : UInt8) :
    crcByte state.toNat b.toNat = some (feed crcPoly state b.toBitVec).toNat := by
  have hbyte : b.toNat &&& 0xFF = b.toNat := and_byte b.toBitVec
  rw [crcByte, and_byte, hbyte, show b.toNat = b.toBitVec.toNat from rfl, ← BitVec.toNat_xor,
    crcTable_eq]
  rfl

theorem foldlM_crcByte (msg : List UInt8) (state : BitVec 8) :
    msg.foldlM (fun runningCRC c => crcByte runningCRC c.toNat) state.toNat =
      some (checksumFrom crcPoly state (msg.map UInt8.toBitVec)).toNat := by
  induction msg generalizing state with
  | nil => rfl
  | cons c msg ih =>
    rw [List.foldlM_cons, crcByte_eq, Option.bind_eq_bind, Option.bind_some, ih]
    rfl

/-- The client's checksum is the server's byte. -/
theorem crc8_eq (msg : List UInt8) : crc8 msg = some (crcOf msg).toNat :=
  foldlM_crcByte msg 0#8

theorem chr_toNat (b : UInt8) : chr b.toNat = some b := by
  rw [chr, if_pos b.toNat_lt, UInt8.ofNat_toNat]

/-- **The two implementations agree on every byte string, and every body that the client
builds passes the server's test.** -/
theorem crc8_agrees (m : List UInt8) :
    (∃ crc : UInt8, WowProxy.crc8 m m.length = some crc ∧ crc8 m = some crc.toNat) ∧
      ∃ body, crc8Data m = some body ∧ isDataIntegrity body body.length = some 0 := by
  refine ⟨⟨crcOf m, crc8_eq_checksum m, crc8_eq m⟩, m ++ [crcOf m], ?_, ?_⟩
  · rw [crc8Data, crc8_eq, Option.bind_eq_bind, Option.bind_some, chr_toNat]
    rfl
  · rw [isDataIntegrity, crc8_eq_checksum, (crcOf_append_eq_zero_iff m _).mpr rfl]

end WowProxy.Client
