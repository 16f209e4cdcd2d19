/-
  Common/CJsonParse.lean --- `cJSON_Parse` of `common/cJSON.c`.

  A pointer is the list of the bytes from it to the end of the object it points into,
  so that a read behind that end is seen.  `Parsed.fault` stands for it, for a write
  behind the string that `parse_string` allocates, and for a recursion that does not
  come to its end; a statement that a call has another outcome says that none of these
  happens.  Every `malloc` succeeds.

  A number is kept as the decimal its digits spell; what `parse_number` stores for it, a
  rounded `double` and an `int`, is in `Common/CJsonNumber.lean`.  The lengths that the
  source keeps in an `int` are natural numbers here; none is longer than the text.
-/
import WowProxy.Common.CJson
import WowProxy.Lib.JsonText

set_option autoImplicit false

namespace WowProxy

open WowProxy.Lib.JsonText

/-- What a call of the parser does. -/
inductive Parsed (α : Type) where
  /-- a read or a write outside an object, or no end -/
  | fault
  /-- `0` is returned -/
  | null
  /-- the item is filled, and the pointer behind its text is returned -/
  | item (a : α) (ptr : List UInt8)
  deriving DecidableEq

namespace Parsed

variable {α β : Type}

/-- What follows a call whose result is tested for `0`. -/
def bind (p : Parsed α) (f : α → List UInt8 → Parsed β) : Parsed β :=
  match p with
  | fault => fault
  | null => null
  | item a ptr => f a ptr

@[simp] theorem bind_item (a : α) (ptr : List UInt8) (f : α → List UInt8 → Parsed β) :
    (item a ptr).bind f = f a ptr := rfl

/-- Another item in the same place. -/
def map (f : α → β) (p : Parsed α) : Parsed β := p.bind fun a ptr => item (f a) ptr

/-- The part of a call that reads; `none` is a read outside. -/
def ofRead (r : Option (α × List UInt8)) : Parsed α :=
  match r with
  | none => fault
  | some (a, ptr) => item a ptr

end Parsed

namespace CJson

/-- `skip` of a pointer that is not `NULL`. -/
def skip : List UInt8 → Option (List UInt8)
  | [] => none
  | b :: ptr => if b ≠ 0 ∧ b ≤ 32 then skip ptr else some (b :: ptr)

/-- `p` on the pointer that `skip` returns. -/
def skipThen {α : Type} (ptr : List UInt8) (p : List UInt8 → Parsed α) : Parsed α :=
  match skip ptr with
  | none => .fault
  | some ptr => p ptr

/-- `!strncmp(value, literal, n)`, where `n` is the length of the literal. -/
def strncmpEq : List UInt8 → List UInt8 → Option Bool
  | _, [] => some true
  | [], _ :: _ => none
  | b :: value, c :: literal => if b = c then strncmpEq value literal else some false

/-! ## Numbers -/

/-- The loops of `parse_number` that run as long as `*num` is a digit. -/
def digitsLoop : List UInt8 → Option (List UInt8 × List UInt8)
  | [] => none
  | b :: num =>
    if isDigit b then (digitsLoop num).map fun p => (b :: p.1, p.2) else some ([], b :: num)

/-- `parse_number`: the fractional part. -/
def parseFraction : List UInt8 → Option (List UInt8 × List UInt8)
  | [] => none
  | b :: num =>
    if b = 46 then
      match num with
      | [] => none
      | d :: rest => if isDigit d then digitsLoop (d :: rest) else some ([], b :: d :: rest)
    else some ([], b :: num)

/-- `parse_number`: the exponent. -/
def parseExponent : List UInt8 → Option (Int × List UInt8)
  | [] => none
  | b :: num =>
    if b = 101 ∨ b = 69 then
      match num with
      | [] => none
      | s :: rest =>
        if s = 43 then (digitsLoop rest).map fun p => ((digitsFrom 0 p.1 : Int), p.2)
        else if s = 45 then (digitsLoop rest).map fun p => (-(digitsFrom 0 p.1 : Int), p.2)
        else (digitsLoop (s :: rest)).map fun p => ((digitsFrom 0 p.1 : Int), p.2)
    else some (0, b :: num)

/-- `parse_number`: the digits behind the one zero that may lead them. -/
def parseInteger : List UInt8 → Option (List UInt8 × List UInt8)
  | [] => none
  | b :: num => if 49 ≤ b ∧ b ≤ 57 then digitsLoop (b :: num) else some ([], b :: num)

/-- `parse_number` behind the sign: the decimal that its digits spell, before any
rounding. -/
def parseUnsigned (sign : Int) (num : List UInt8) : Option (Decimal × List UInt8) := do
  let b ← num.head?
  let (int, num) ← parseInteger (if b = 48 then num.tail else num)
  let (frac, num) ← parseFraction num
  let (subscale, num) ← parseExponent num
  return (⟨sign * digitsFrom 0 (int ++ frac), subscale - frac.length⟩, num)

/-- `parse_number`, with the decimal in place of the `double` and the `int` that are
stored; see `DoubleArith.parseNumber`. -/
def parseNumber (num : List UInt8) : Option (Decimal × List UInt8) := do
  let b ← num.head?
  if b = 45 then parseUnsigned (-1) num.tail else parseUnsigned 1 num

/-! ## Strings -/

/-- The digits `parse_hex4` still reads. -/
def parseHexFrom : Nat → Nat → List UInt8 → Option Nat
  | 0, h, _ => some h
  | _ + 1, _, [] => none
  | n + 1, h, b :: str =>
    match hexValue b with
    | none => some 0
    | some d => parseHexFrom n (h * 16 + d) str

/-- `parse_hex4`: the first byte that is no digit ends it with `0`. -/
def parseHex4 (str : List UInt8) : Option Nat := parseHexFrom 4 0 str

/-- A byte behind the first of a character: `((uc | 0x80) & 0xBF)`. -/
def continuationByte (uc : Nat) : UInt8 := UInt8.ofNat ((uc ||| 0x80) &&& 0xBF)

/-- The bytes written for `uc`, which is shifted by six behind each of them; the first one
has `firstByteMark[len]`. -/
def transcode (uc : Nat) : List UInt8 :=
  if uc < 0x80 then [UInt8.ofNat uc]
  else if uc < 0x800 then [UInt8.ofNat (uc >>> 6 ||| 0xC0), continuationByte uc]
  else if uc < 0x10000 then
    [UInt8.ofNat (uc >>> 6 >>> 6 ||| 0xE0), continuationByte (uc >>> 6), continuationByte uc]
  else
    [UInt8.ofNat (uc >>> 6 >>> 6 >>> 6 ||| 0xF0), continuationByte (uc >>> 6 >>> 6),
      continuationByte (uc >>> 6), continuationByte uc]

/-- Where the second half of a surrogate pair should follow, behind the first half `uc`. -/
def secondHalf (uc : Nat) : List UInt8 → Option (List UInt8 × List UInt8)
  | [] => none
  | b :: ptr =>
    if b ≠ 92 then some ([], b :: ptr)
    else
      match ptr with
      | [] => none
      | c :: rest =>
        if c ≠ 117 then some ([], b :: c :: rest)
        else
          match parseHex4 rest with
          | none => none
          | some uc2 =>
            if uc2 < 0xDC00 ∨ 0xDFFF < uc2 then some ([], rest.drop 4)
            else
              some (transcode (0x10000 + ((uc &&& 0x3FF) <<< 10 ||| (uc2 &&& 0x3FF))), rest.drop 4)

/-- `case 'u'`: the bytes written, and the pointer to go on from.  It moves by four bytes
even where `parse_hex4` has stopped before. -/
def unicodeEscape (ptr : List UInt8) : Option (List UInt8 × List UInt8) :=
  match parseHex4 ptr with
  | none => none
  | some uc =>
    if (0xDC00 ≤ uc ∧ uc ≤ 0xDFFF) ∨ uc = 0 then some ([], ptr.drop 4)
    else if 0xD800 ≤ uc ∧ uc ≤ 0xDBFF then secondHalf uc (ptr.drop 4)
    else some (transcode uc, ptr.drop 4)

/-- The byte a short escape stands for. -/
def unescape (c : UInt8) : UInt8 :=
  if c = 98 then 8 else if c = 102 then 12 else if c = 110 then 10
  else if c = 114 then 13 else if c = 116 then 9 else c

/-- The first loop of `parse_string`: the `len` that is allocated.  It steps over the byte
behind a backslash without a look at it. -/
def scanLength : List UInt8 → Option Nat
  | [] => none
  | [b] => if b = 34 ∨ b = 0 then some 0 else none
  | b :: c :: ptr =>
    if b = 34 ∨ b = 0 then some 0
    else if b = 92 then (scanLength ptr).map (· + 1)
    else (scanLength (c :: ptr)).map (· + 1)

/-- The second loop of `parse_string`: the bytes written, and where it stops. -/
def decodeFrom : Nat → List UInt8 → Option (List UInt8 × List UInt8)
  | 0, _ => none
  | _ + 1, [] => none
  | fuel + 1, b :: ptr =>
    if b = 34 ∨ b = 0 then some ([], b :: ptr)
    else if b ≠ 92 then (decodeFrom fuel ptr).map fun p => (b :: p.1, p.2)
    else
      match ptr with
      | [] => none
      | c :: ptr =>
        if c = 117 then
          match unicodeEscape ptr with
          | none => none
          | some (out, ptr) => (decodeFrom fuel ptr).map fun p => (out ++ p.1, p.2)
        else (decodeFrom fuel ptr).map fun p => (unescape c :: p.1, p.2)

/-- `parse_string`. -/
def parseString : List UInt8 → Parsed (List UInt8)
  | [] => .fault
  | b :: ptr =>
    if b ≠ 34 then .null
    else
      match scanLength ptr, decodeFrom (ptr.length + 1) ptr with
      | some len, some (out, ptr) =>
        -- `len + 1` bytes are allocated, and the last one written is the NUL
        if len < out.length then .fault
        else .item out (if ptr.head? = some 34 then ptr.tail else ptr)
      | _, _ => .fault

/-! ## Values -/

/-- A test of `parse_value` for a literal, and what it does when it fails. -/
def parseLiteral (literal : List UInt8) (v : Json Decimal) (value : List UInt8)
    (otherwise : Parsed (Json Decimal)) : Parsed (Json Decimal) :=
  match strncmpEq value literal with
  | none => .fault
  | some true => .item v (value.drop literal.length)
  | some false => otherwise

mutual

/-- `parse_value`. -/
def parseValue : Nat → List UInt8 → Parsed (Json Decimal)
  | 0, _ => .fault
  | fuel + 1, value =>
    parseLiteral (ascii "null") .null value <|
    parseLiteral (ascii "false") (.bool false) value <|
    parseLiteral (ascii "true") (.bool true) value <|
    match value with
    | [] => .fault
    | b :: rest =>
      if b = 34 then (parseString (b :: rest)).map .string
      else if b = 45 ∨ isDigit b = true then (Parsed.ofRead (parseNumber (b :: rest))).map .number
      else if b = 91 then parseArray fuel (b :: rest)
      else if b = 123 then parseObject fuel (b :: rest)
      else .null

/-- `parse_array`. -/
def parseArray : Nat → List UInt8 → Parsed (Json Decimal)
  | 0, _ => .fault
  | _ + 1, [] => .fault
  | fuel + 1, b :: value =>
    if b ≠ 91 then .null
    else
      skipThen value fun value =>
        if value.head? = some 93 then .item (.array []) value.tail
        else (parseItems fuel value).map .array

/-- `parse_array` from an item on. -/
def parseItems : Nat → List UInt8 → Parsed (List (Json Decimal))
  | 0, _ => .fault
  | fuel + 1, value =>
    skipThen value fun value =>
      (parseValue fuel value).bind fun child value =>
        skipThen value fun value =>
          if value.head? = some 44 then (parseItems fuel value.tail).map (child :: ·)
          else if value.head? = some 93 then .item [child] value.tail
          else .null

/-- `parse_object`. -/
def parseObject : Nat → List UInt8 → Parsed (Json Decimal)
  | 0, _ => .fault
  | _ + 1, [] => .fault
  | fuel + 1, b :: value =>
    if b ≠ 123 then .null
    else
      skipThen value fun value =>
        if value.head? = some 125 then .item (.object []) value.tail
        else (parseMembers fuel value).map .object

/-- `parse_object` from a member on. -/
def parseMembers : Nat → List UInt8 → Parsed (List (List UInt8 × Json Decimal))
  | 0, _ => .fault
  | fuel + 1, value =>
    skipThen value fun value =>
      (parseString value).bind fun string value =>
        skipThen value fun value =>
          if value.head? ≠ some 58 then .null
          else
            skipThen value.tail fun value =>
              (parseValue fuel value).bind fun child value =>
                skipThen value fun value =>
                  if value.head? = some 44 then
                    (parseMembers fuel value.tail).map ((string, child) :: ·)
                  else if value.head? = some 125 then .item [(string, child)] value.tail
                  else .null

end

/-- `cJSON_ParseWithOpts`. -/
def parseWithOpts (value : List UInt8) (requireNullTerminated : Bool) : Parsed (Json Decimal) :=
  skipThen value fun start =>
    (parseValue (3 * value.length + 1) start).bind fun c ptr =>
      if requireNullTerminated then
        skipThen ptr fun ptr => if ptr.head? = some 0 then .item c ptr else .null
      else .item c ptr

/-- `cJSON_Parse`. -/
def parse (value : List UInt8) : Parsed (Json Decimal) := parseWithOpts value false

end CJson

end WowProxy
