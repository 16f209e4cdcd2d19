/-
  Threadpool/Frame.lean --- the frame on the wire: a two-byte big-endian length,
  the payload and its CRC byte.

  `convert_hex_to_int` and `convert_int_to_hex` come from `aidsock.c`; the body
  is the one `crc_data` builds and `reverse_crc_data` takes apart.  A `Payload`
  carries the bound that the length header imposes, so that `Payload.frame` is
  total and every frame in the modules above is well formed by construction.
-/
import WowProxy.Common.Crc8

set_option autoImplicit false

namespace WowProxy

/-! ## The length header -/

/-- `convert_hex_to_int(szBuf, headSize)`.  An `unsigned char` is never outside
`0 .. 255`, so the early return of the source is dead and has no counterpart. -/
def convertHexToInt (szBuf : List UInt8) (headSize : Nat) : Int :=
  (szBuf.take headSize).foldl (fun value b => value * 256 + b.toNat) 0

/-- `convert_int_to_hex(value, buf)`: the two header bytes, or `none` where it
returns `false` and leaves `buf` alone. -/
def convertIntToHex (value : Nat) : Option (List UInt8) :=
  if value > 0xffff then none
  else if value ≤ 0xff then some [0, UInt8.ofNat value]
  else some [UInt8.ofNat (value / 256), UInt8.ofNat (value % 256)]

theorem convertHexToInt_pair (hi lo : UInt8) (rest : List UInt8) :
    convertHexToInt (hi :: lo :: rest) headSize = 256 * hi.toNat + lo.toNat := by
  simp only [convertHexToInt, headSize, List.take_succ_cons, List.take_zero,
    List.foldl_cons, List.foldl_nil]
  omega

/-- Both branches of `convert_int_to_hex` write quotient and remainder. -/
theorem convertIntToHex_eq {value : Nat} (h : value ≤ 0xffff) :
    convertIntToHex value =
      some [UInt8.ofNat (value / 256), UInt8.ofNat (value % 256)] := by
  unfold convertIntToHex
  rw [if_neg (by omega)]
  split
  · rename_i hsmall
    have hdiv : value / 256 = 0 := by omega
    have hmod : value % 256 = value := by omega
    rw [hdiv, hmod]
    rfl
  · rfl

theorem convertHexToInt_convertIntToHex {value : Nat} {header : List UInt8}
    (h : convertIntToHex value = some header) (rest : List UInt8) :
    convertHexToInt (header ++ rest) headSize = value := by
  have hle : value ≤ 0xffff := by
    by_contra hgt
    simp [convertIntToHex, Nat.lt_of_not_le hgt] at h
  rw [convertIntToHex_eq hle, Option.some.injEq] at h
  subst h
  rw [List.cons_append, List.cons_append, List.nil_append, convertHexToInt_pair,
    UInt8.toNat_ofNat_of_lt' (by simp [UInt8.size]; omega),
    UInt8.toNat_ofNat_of_lt' (by simp [UInt8.size]; omega)]
  omega

/-- The header of a length is the only pair of bytes that decodes to it. -/
theorem convertIntToHex_of_convertHexToInt {header : List UInt8} {value : Nat}
    (hlen : header.length = headSize)
    (h : convertHexToInt header headSize = value) :
    convertIntToHex value = some header := by
  match header, hlen with
  | [hi, lo], _ =>
    rw [convertHexToInt_pair] at h
    have hhi := hi.toNat_lt
    have hlo := lo.toNat_lt
    have hdiv : value / 256 = hi.toNat := by omega
    have hmod : value % 256 = lo.toNat := by omega
    rw [convertIntToHex_eq (by omega), hdiv, hmod, UInt8.ofNat_toNat, UInt8.ofNat_toNat]

/-! ## The body -/

/-- `crc_data` appends the checksum byte. -/
theorem crcData_eq (data : List UInt8) (hlen : data.length < 2 ^ 31) :
    crcData (some data) data.length (data.length + 1) =
      some ((data.length : Int) + 1, data ++ [crcOf data]) :=
  crcData_of_room (by omega) (Nat.le_refl _)

/-- What `reverse_crc_data` does with a body of at least one byte: it compares
the last byte with the checksum of the rest. -/
theorem reverseCrcData_append (data : List UInt8) (b : UInt8)
    (hlen : data.length < 2 ^ 31) :
    reverseCrcData (some (data ++ [b])) (data.length + 1) (some (data.length + 1)) =
      if b = crcOf data then some (0, data) else some (-1, []) := by
  have hcrc : isDataIntegrity (data ++ [b]) (data.length + 1) = some (crcOf (data ++ [b])) := by
    have h := crc8_eq_checksum (data ++ [b])
    rw [List.length_append, List.length_singleton, Int.natCast_add, Int.natCast_one] at h
    exact h
  have hsize : sizeT ((data.length : Int) + 1 - 1) = data.length := by
    rw [Int.add_sub_cancel]
    exact sizeT_of_nonneg (by omega) (by omega)
  have hcopy : memcpy (data.length + 1) (data ++ [b]) data.length = some data := by
    rw [memcpy_eq_some (by simp) (by omega), List.take_left]
  simp only [reverseCrcData, hcrc, hsize, hcopy, Option.bind_eq_bind, Option.bind_some,
    Option.pure_def, crcOf_append_eq_zero_iff]

/-! ## Frames -/

/-- A payload short enough for the length header. -/
structure Payload where
  bytes : List UInt8
  bounded : bytes.length ≤ 65534
  deriving DecidableEq

namespace Payload

/-- The payload followed by its checksum byte. -/
def body (p : Payload) : List UInt8 := p.bytes ++ [crcOf p.bytes]

/-- The two header bytes of the body's length. -/
def header (p : Payload) : List UInt8 :=
  [UInt8.ofNat ((p.bytes.length + 1) / 256), UInt8.ofNat ((p.bytes.length + 1) % 256)]

/-- The frame of a payload. -/
def frame (p : Payload) : List UInt8 := p.header ++ p.body

@[simp] theorem length_body (p : Payload) : p.body.length = p.bytes.length + 1 := by
  simp [body]

@[simp] theorem length_header (p : Payload) : p.header.length = headSize := rfl

@[simp] theorem length_frame (p : Payload) : p.frame.length = p.bytes.length + 3 := by
  simp [frame, headSize]
  omega

theorem convertIntToHex_header (p : Payload) :
    convertIntToHex (p.bytes.length + 1) = some p.header :=
  convertIntToHex_eq (by have := p.bounded; omega)

theorem convertHexToInt_header (p : Payload) (rest : List UInt8) :
    convertHexToInt (p.header ++ rest) headSize = p.bytes.length + 1 := by
  have h := convertHexToInt_convertIntToHex p.convertIntToHex_header rest
  rw [h, Int.natCast_add, Int.natCast_one]

theorem crcData_body (p : Payload) :
    crcData (some p.bytes) p.bytes.length (p.bytes.length + 1) =
      some ((p.bytes.length : Int) + 1, p.body) :=
  crcData_eq p.bytes (by have := p.bounded; omega)

theorem reverseCrcData_body (p : Payload) :
    reverseCrcData (some p.body) (p.bytes.length + 1) (some (p.bytes.length + 1)) =
      some (0, p.bytes) := by
  rw [body, reverseCrcData_append p.bytes _ (by have := p.bounded; omega), if_pos rfl]

end Payload

/-- The payload `A`. -/
def payloadA : Payload := ⟨[65], by decide⟩

/-- Decoding inverts encoding on every payload that a frame can carry, and
accepts exactly the image of encoding. -/
theorem wireCodec_inverse :
    (∀ p : List UInt8, p.length ≤ 65534 →
      ∃ header body : List UInt8,
        convertIntToHex (p.length + 1) = some header ∧
        header.length = headSize ∧
        crcData (some p) p.length (p.length + 1) =
          some ((p.length : Int) + 1, body) ∧
        convertHexToInt (header ++ body) headSize = p.length + 1 ∧
        body.length = p.length + 1 ∧
        reverseCrcData (some ((header ++ body).drop headSize)) (p.length + 1)
          (some (p.length + 1)) = some (0, p)) ∧
    (∀ b p : List UInt8, 1 ≤ b.length → b.length ≤ 65535 →
      reverseCrcData (some b) b.length (some b.length) = some (0, p) →
      crcData (some p) p.length (p.length + 1) = some ((b.length : Int), b) ∧
      ∀ header : List UInt8, header.length = headSize →
        convertHexToInt header headSize = b.length →
        convertIntToHex (p.length + 1) = some header) := by
  constructor
  · intro p hp
    let q : Payload := ⟨p, hp⟩
    refine ⟨q.header, q.body, q.convertIntToHex_header, rfl, q.crcData_body,
      q.convertHexToInt_header q.body, q.length_body, ?_⟩
    have hdrop : (q.header ++ q.body).drop headSize = q.body :=
      List.drop_left' q.length_header
    rw [hdrop]
    exact q.reverseCrcData_body
  · intro b p hpos hle haccept
    -- Split off the last byte, the one `reverse_crc_data` checks.
    obtain ⟨data, last, rfl⟩ : ∃ data last, b = data ++ [last] :=
      ⟨b.dropLast, b.getLast (by rintro rfl; simp at hpos), (List.dropLast_concat_getLast _).symm⟩
    rw [List.length_append, List.length_singleton, Int.natCast_add, Int.natCast_one] at haccept
    rw [List.length_append, List.length_singleton] at hle
    rw [reverseCrcData_append data last (by omega)] at haccept
    split at haccept
    · rename_i hlast
      have hp : data = p := by simpa using haccept
      subst hp
      subst hlast
      refine ⟨?_, ?_⟩
      · rw [crcData_eq data (by omega)]
        simp
      · intro header hheader hvalue
        rw [List.length_append, List.length_singleton] at hvalue
        exact convertIntToHex_of_convertHexToInt hheader hvalue
    · simp at haccept

theorem wireCodec_inverse_abc :
    (∃ header body : List UInt8,
      convertIntToHex 4 = some header ∧
      header.length = headSize ∧
      crcData (some [97, 98, 99]) 3 4 = some (4, body) ∧
      convertHexToInt (header ++ body) headSize = 4 ∧
      body.length = 4 ∧
      reverseCrcData (some ((header ++ body).drop headSize)) 4 (some 4) =
        some (0, [97, 98, 99])) ∧
    crcData (some [97, 98, 99]) 3 4 = some (4, [97, 98, 99, 95]) := by
  refine ⟨wireCodec_inverse.1 [97, 98, 99] (by decide), ?_⟩
  exact (wireCodec_inverse.2 [97, 98, 99, 95] [97, 98, 99] (by decide) (by decide)
    (by decide +kernel)).1

end WowProxy
