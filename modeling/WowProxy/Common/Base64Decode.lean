/-
  Common/Base64Decode.lean --- `Base64decode` of `common/base64.c`, which gives back what
  `Base64encode` was given.

  The decoder looks for the first byte that is not a digit, writes three bytes for every
  four digits, and as many as the last two to four digits make.  The lengths are `int`s in
  the source and natural numbers here; they agree up to `base64MaxLen` bytes.
-/
import WowProxy.Common.Base64

set_option autoImplicit false

namespace WowProxy

/-! ## From the source -/

/-- `pr2six`. -/
def pr2six : List UInt8 :=
  [64, 64, 64, 64, 64, 64, 64, 64, 64, 64, 64, 64, 64, 64, 64, 64,
    64, 64, 64, 64, 64, 64, 64, 64, 64, 64, 64, 64, 64, 64, 64, 64,
    64, 64, 64, 64, 64, 64, 64, 64, 64, 64, 64, 62, 64, 64, 64, 63,
    52, 53, 54, 55, 56, 57, 58, 59, 60, 61, 64, 64, 64, 64, 64, 64,
    64, 0, 1, 2, 3, 4, 5, 6, 7, 8, 9, 10, 11, 12, 13, 14,
    15, 16, 17, 18, 19, 20, 21, 22, 23, 24, 25, 64, 64, 64, 64, 64,
    64, 26, 27, 28, 29, 30, 31, 32, 33, 34, 35, 36, 37, 38, 39, 40,
    41, 42, 43, 44, 45, 46, 47, 48, 49, 50, 51, 64, 64, 64, 64, 64] ++
  List.replicate 128 64

/-- `pr2six[b]`. -/
def base64Six (b : UInt8) : UInt8 := pr2six.getD b.toNat 64

/-- `nprbytes`: how many digits there are.  Without another byte behind them the search has
no end. -/
def base64Digits (bufcoded : List UInt8) : Option Nat :=
  bufcoded.findIdx? fun b => 63 < base64Six b

/-- `Base64decode_len(bufcoded)`. -/
def base64decodeLen (bufcoded : List UInt8) : Option Nat :=
  (base64Digits bufcoded).map fun nprbytes => (nprbytes + 3) / 4 * 3 + 1

/-- The bytes that two digits make, by the place of the first in its group. -/
def base64First (b b' : UInt8) : UInt8 := base64Six b <<< 2 ||| base64Six b' >>> 4

def base64Second (b b' : UInt8) : UInt8 := base64Six b <<< 4 ||| base64Six b' >>> 2

def base64Third (b b' : UInt8) : UInt8 := base64Six b <<< 6 ||| base64Six b'

/-- The loop, which runs while there are more than four digits: what it writes, and the
digits that are left. -/
def base64decodeLoop : List UInt8 → List UInt8 × List UInt8
  | b₀ :: b₁ :: b₂ :: b₃ :: b₄ :: bufin =>
    let rest := base64decodeLoop (b₄ :: bufin)
    (base64First b₀ b₁ :: base64Second b₁ b₂ :: base64Third b₂ b₃ :: rest.1, rest.2)
  | bufin => ([], bufin)

/-- What is written for the last digits. -/
def base64decodeLast : List UInt8 → List UInt8
  | b₀ :: b₁ :: b₂ :: b₃ :: _ => [base64First b₀ b₁, base64Second b₁ b₂, base64Third b₂ b₃]
  | [b₀, b₁, b₂] => [base64First b₀ b₁, base64Second b₁ b₂]
  | [b₀, b₁] => [base64First b₀ b₁]
  | _ => []

/-- `Base64decode(bufplain, bufcoded)`: what is written to `bufplain`, and the value that
is returned. -/
def base64decode (bufcoded : List UInt8) : Option (List UInt8 × Nat) := do
  let nprbytes ← base64Digits bufcoded
  let loop := base64decodeLoop (bufcoded.take nprbytes)
  let nbytesdecoded := (nprbytes + 3) / 4 * 3 - ((4 - loop.2.length) &&& 3)
  return (loop.1 ++ base64decodeLast loop.2 ++ [0], nbytesdecoded)

/-- `Base64encode_len(len)`.  From `base64MaxLen + 1` on the `int` overflows. -/
def base64encodeLen (len : Nat) : Nat := (len + 2) / 3 * 4 + 1

/-- The longest string whose encoding has a length that is an `int`. -/
def base64MaxLen : Nat := 1610612733

/-! ## Digits -/

/-- Bytes with the same bits. -/
theorem uint8_ext {a b : UInt8} (h : ∀ i (_ : i < 8), a.toBitVec[i] = b.toBitVec[i]) : a = b :=
  UInt8.toBitVec_inj.mp (BitVec.eq_of_getElem_eq h)

theorem toNat_lt_of_and {index : UInt8} (h : index &&& 0x3F = index) : index.toNat < 64 := by
  rw [← h, UInt8.toNat_and]
  exact Nat.lt_succ_of_le Nat.and_le_right

/-- A digit is found in the table at its place. -/
theorem base64Six_base64Digit {index : UInt8} (h : index &&& 0x3F = index) :
    base64Six (base64Digit index) = index := by
  have htable : (List.range 64).all (fun i =>
      base64Six (basis64.getD i 0) == UInt8.ofNat i) = true := by
    rw [basis64, ascii_ofList]
    decide +kernel
  have hindex := List.all_eq_true.mp htable index.toNat
    (List.mem_range.mpr (toNat_lt_of_and h))
  rw [beq_iff_eq, UInt8.ofNat_toNat] at hindex
  exact hindex

/-- The four indices that three bytes make. -/
def firstIndex (a : UInt8) : UInt8 := (a >>> 2) &&& 0x3F

def secondIndex (a b : UInt8) : UInt8 := ((a &&& 0x3) <<< 4) ||| ((b &&& 0xF0) >>> 4)

def thirdIndex (b c : UInt8) : UInt8 := ((b &&& 0xF) <<< 2) ||| ((c &&& 0xC0) >>> 6)

def fourthIndex (c : UInt8) : UInt8 := c &&& 0x3F

theorem firstIndex_and (a : UInt8) : firstIndex a &&& 0x3F = firstIndex a :=
  uint8_ext fun i hi => by
    match i, hi with
    | 0, _ | 1, _ | 2, _ | 3, _ | 4, _ | 5, _ | 6, _ | 7, _ => simp [firstIndex]

theorem secondIndex_and (a b : UInt8) : secondIndex a b &&& 0x3F = secondIndex a b :=
  uint8_ext fun i hi => by
    match i, hi with
    | 0, _ | 1, _ | 2, _ | 3, _ | 4, _ | 5, _ | 6, _ | 7, _ => simp [secondIndex]

theorem thirdIndex_and (b c : UInt8) : thirdIndex b c &&& 0x3F = thirdIndex b c :=
  uint8_ext fun i hi => by
    match i, hi with
    | 0, _ | 1, _ | 2, _ | 3, _ | 4, _ | 5, _ | 6, _ | 7, _ => simp [thirdIndex]

theorem fourthIndex_and (c : UInt8) : fourthIndex c &&& 0x3F = fourthIndex c :=
  uint8_ext fun i hi => by
    match i, hi with
    | 0, _ | 1, _ | 2, _ | 3, _ | 4, _ | 5, _ | 6, _ | 7, _ => simp [fourthIndex]

theorem base64First_digits (a b : UInt8) :
    base64First (base64Digit (firstIndex a)) (base64Digit (secondIndex a b)) = a := by
  rw [base64First, base64Six_base64Digit (firstIndex_and a),
    base64Six_base64Digit (secondIndex_and a b)]
  refine uint8_ext fun i hi => ?_
  match i, hi with
  | 0, _ | 1, _ | 2, _ | 3, _ | 4, _ | 5, _ | 6, _ | 7, _ => simp [firstIndex, secondIndex]

theorem base64Second_digits (a b c : UInt8) :
    base64Second (base64Digit (secondIndex a b)) (base64Digit (thirdIndex b c)) = b := by
  rw [base64Second, base64Six_base64Digit (secondIndex_and a b),
    base64Six_base64Digit (thirdIndex_and b c)]
  refine uint8_ext fun i hi => ?_
  match i, hi with
  | 0, _ | 1, _ | 2, _ | 3, _ | 4, _ | 5, _ | 6, _ | 7, _ => simp [secondIndex, thirdIndex]

theorem base64Third_digits (b c : UInt8) :
    base64Third (base64Digit (thirdIndex b c)) (base64Digit (fourthIndex c)) = c := by
  rw [base64Third, base64Six_base64Digit (thirdIndex_and b c),
    base64Six_base64Digit (fourthIndex_and c)]
  refine uint8_ext fun i hi => ?_
  match i, hi with
  | 0, _ | 1, _ | 2, _ | 3, _ | 4, _ | 5, _ | 6, _ | 7, _ => simp [thirdIndex, fourthIndex]

/-! ## Round trip -/

/-- The digits of an encoding, without what it is filled up with. -/
def digitsOf : List UInt8 → List UInt8
  | a :: b :: c :: rest =>
    base64Digit (firstIndex a) :: base64Digit (secondIndex a b) ::
      base64Digit (thirdIndex b c) :: base64Digit (fourthIndex c) :: digitsOf rest
  | [a, b] =>
    [base64Digit (firstIndex a), base64Digit (secondIndex a b), base64Digit (thirdIndex b 0)]
  | [a] => [base64Digit (firstIndex a), base64Digit (secondIndex a 0)]
  | [] => []

/-- An encoding is digits, filled up to groups of four. -/
theorem base64encode_eq_digitsOf (s : List UInt8) :
    ∃ fill, base64encode s = digitsOf s ++ List.replicate fill 61 ∧
      (digitsOf s).length + fill = (s.length + 2) / 3 * 4 := by
  induction s using base64encode.induct with
  | case1 a b c rest ih =>
    obtain ⟨fill, heq, hlength⟩ := ih
    refine ⟨fill, ?_, ?_⟩
    · rw [base64encode, heq]
      rfl
    · simp only [digitsOf, List.length_cons]
      omega
  | case2 a b =>
    refine ⟨1, ?_, by simp [digitsOf]⟩
    simp [base64encode, digitsOf, firstIndex, secondIndex, thirdIndex]
  | case3 a =>
    refine ⟨2, ?_, by simp [digitsOf]⟩
    simp [base64encode, digitsOf, firstIndex, secondIndex]
  | case4 => exact ⟨0, rfl, rfl⟩

theorem base64Six_digit_le {index : UInt8} (h : index &&& 0x3F = index) :
    ¬ 63 < base64Six (base64Digit index) := by
  rw [base64Six_base64Digit h, UInt8.lt_iff_toNat_lt]
  exact Nat.not_lt.mpr (Nat.le_of_lt_succ (toNat_lt_of_and h))

theorem base64Six_digitsOf (s : List UInt8) : ∀ b ∈ digitsOf s, ¬ 63 < base64Six b := by
  induction s using digitsOf.induct with
  | case1 a b c rest ih =>
    simp only [digitsOf, List.forall_mem_cons]
    exact ⟨base64Six_digit_le (firstIndex_and a), base64Six_digit_le (secondIndex_and a b),
      base64Six_digit_le (thirdIndex_and b c), base64Six_digit_le (fourthIndex_and c), ih⟩
  | case2 a b =>
    simp only [digitsOf, List.forall_mem_cons]
    exact ⟨base64Six_digit_le (firstIndex_and a), base64Six_digit_le (secondIndex_and a b),
      base64Six_digit_le (thirdIndex_and b 0), fun _ h => absurd h List.not_mem_nil⟩
  | case3 a =>
    simp only [digitsOf, List.forall_mem_cons]
    exact ⟨base64Six_digit_le (firstIndex_and a), base64Six_digit_le (secondIndex_and a 0),
      fun _ h => absurd h List.not_mem_nil⟩
  | case4 => exact fun _ h => absurd h List.not_mem_nil

/-- The search ends behind the last digit of an encoding. -/
theorem base64Digits_encode (s rest : List UInt8) :
    base64Digits (base64encode s ++ 0 :: rest) = some (digitsOf s).length ∧
      (base64encode s ++ 0 :: rest).take (digitsOf s).length = digitsOf s := by
  obtain ⟨fill, heq, -⟩ := base64encode_eq_digitsOf s
  rw [heq, List.append_assoc]
  refine ⟨?_, List.take_left⟩
  have hbehind : (List.replicate fill 61 ++ 0 :: rest).findIdx? (fun b => 63 < base64Six b) =
      some 0 := by
    cases fill <;> rfl
  rw [base64Digits, List.findIdx?_append, hbehind, List.findIdx?_eq_none_iff.mpr fun b hb =>
    decide_eq_false (base64Six_digitsOf s b hb)]
  simp

/-- What the digits of an encoding are decoded to. -/
theorem base64decodeLoop_digitsOf (s : List UInt8) :
    (base64decodeLoop (digitsOf s)).1 ++ base64decodeLast (base64decodeLoop (digitsOf s)).2 = s ∧
      ((digitsOf s).length + 3) / 4 * 3 =
        s.length + ((4 - (base64decodeLoop (digitsOf s)).2.length) &&& 3) := by
  induction s using digitsOf.induct with
  | case1 a b c rest ih =>
    have hfirst := base64First_digits a b
    have hsecond := base64Second_digits a b c
    have hthird := base64Third_digits b c
    rw [digitsOf]
    cases hdigits : digitsOf rest with
    | nil =>
      rw [hdigits] at ih
      obtain rfl : [] = rest := ih.1
      refine ⟨?_, by simp [base64decodeLoop]⟩
      simp only [base64decodeLoop, base64decodeLast, hfirst, hsecond, hthird, List.nil_append]
    | cons d ds =>
      rw [hdigits] at ih
      obtain ⟨hplain, hcount⟩ := ih
      refine ⟨?_, ?_⟩
      · simp only [base64decodeLoop, hfirst, hsecond, hthird, List.cons_append, hplain]
      · simp only [base64decodeLoop, List.length_cons] at hcount ⊢
        omega
  | case2 a b =>
    have hfirst := base64First_digits a b
    have hsecond := base64Second_digits a b 0
    refine ⟨?_, by simp [digitsOf, base64decodeLoop]⟩
    simp only [digitsOf, base64decodeLoop, base64decodeLast, hfirst, hsecond, List.nil_append]
  | case3 a =>
    have hfirst := base64First_digits a 0
    refine ⟨?_, by simp [digitsOf, base64decodeLoop]⟩
    simp only [digitsOf, base64decodeLoop, base64decodeLast, hfirst, List.nil_append]
  | case4 => exact ⟨rfl, rfl⟩

/-- An encoding is decoded to what was encoded. -/
theorem base64decode_encode (s rest : List UInt8) :
    base64decode (base64encode s ++ 0 :: rest) = some (s ++ [0], s.length) := by
  obtain ⟨hdigits, htake⟩ := base64Digits_encode s rest
  obtain ⟨hplain, hcount⟩ := base64decodeLoop_digitsOf s
  rw [base64decode, hdigits, Option.bind_eq_bind, Option.bind_some]
  dsimp only
  rw [htake, hplain, hcount, Nat.add_sub_cancel]
  rfl

/-- An encoding has the length that is asked for. -/
theorem length_base64encode (s : List UInt8) :
    (base64encode s).length + 1 = base64encodeLen s.length := by
  obtain ⟨fill, heq, hlength⟩ := base64encode_eq_digitsOf s
  rw [heq, List.length_append, List.length_replicate, hlength]
  rfl

/-- Exactly up to this length the length of the encoding is an `int`. -/
theorem base64encodeLen_lt_iff (len : Nat) :
    base64encodeLen len < 2 ^ 31 ↔ len ≤ base64MaxLen := by
  unfold base64encodeLen base64MaxLen
  omega

/-- **For every string whose encoding has a length that is an `int`, `Base64encode` fills
the buffer of `Base64encode_len` bytes, and `Base64decode` gives back what was encoded,
within the `Base64decode_len` bytes of its buffer.**  No length overflows on the way. -/
theorem base64decode_base64encode {s : List UInt8} (hlen : s.length ≤ base64MaxLen)
    (rest : List UInt8) :
    ((base64encode s).length + 1 = base64encodeLen s.length ∧ base64encodeLen s.length < 2 ^ 31) ∧
      base64decode (base64encode s ++ 0 :: rest) = some (s ++ [0], s.length) ∧
      ∃ nprbytes size, base64Digits (base64encode s ++ 0 :: rest) = some nprbytes ∧
        nprbytes + 3 < 2 ^ 31 ∧ base64decodeLen (base64encode s ++ 0 :: rest) = some size ∧
        s.length < size ∧ size < 2 ^ 31 := by
  obtain ⟨hdigits, -⟩ := base64Digits_encode s rest
  obtain ⟨-, hcount⟩ := base64decodeLoop_digitsOf s
  obtain ⟨fill, -, hfill⟩ := base64encode_eq_digitsOf s
  have hint := (base64encodeLen_lt_iff s.length).mpr hlen
  have hroom : (digitsOf s).length + 3 < 2 ^ 31 := by
    unfold base64MaxLen at hlen
    omega
  refine ⟨⟨length_base64encode s, hint⟩, base64decode_encode s rest, (digitsOf s).length,
    ((digitsOf s).length + 3) / 4 * 3 + 1, hdigits, hroom, ?_, ?_, ?_⟩
  · rw [base64decodeLen, hdigits, Option.map_some]
  · rw [hcount]
    exact Nat.lt_succ_of_le (Nat.le_add_right _ _)
  · omega

/-- A name, a colon and a password. -/
theorem base64decode_base64encode_credential :
    ((base64encode (ascii "A:b")).length + 1 = base64encodeLen 3 ∧ base64encodeLen 3 < 2 ^ 31) ∧
      base64decode (base64encode (ascii "A:b") ++ 0 :: [7]) = some (ascii "A:b" ++ [0], 3) ∧
      ∃ nprbytes size, base64Digits (base64encode (ascii "A:b") ++ 0 :: [7]) = some nprbytes ∧
        nprbytes + 3 < 2 ^ 31 ∧
        base64decodeLen (base64encode (ascii "A:b") ++ 0 :: [7]) = some size ∧
        3 < size ∧ size < 2 ^ 31 :=
  base64decode_base64encode (s := ascii "A:b") (by decide) [7]

end WowProxy
