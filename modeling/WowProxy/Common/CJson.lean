/-
  Common/CJson.lean --- what the proxy does with `common/cJSON.c`: reading a
  parsed tree, and printing the object of a reply.

  A tree node keeps the members the proxy reads.  The parser is that of
  `Common/CJsonParse`; where nothing depends on it, `cJSON_Parse` is a parameter.
  `printReply` is what the printer of `Common/CJsonPrint` makes of the tree of a
  reply, which `print_replyTree` of `Threadpool/ReplyDelivery` shows.
-/
import Mathlib.Algebra.GroupWithZero.Nat
import WowProxy.Common.Config

set_option autoImplicit false

namespace WowProxy

/-! ## Trees -/

/-- A `cJSON` node: `valuestring`, which only a string has, the name `string` it
has as a member of an object, and its children. -/
inductive CJson where
  | item (valuestring : Option (List UInt8)) (string : Option (List UInt8)) (child : List CJson)

namespace CJson

/-- `valuestring`. -/
def valuestring : CJson → Option (List UInt8)
  | item v _ _ => v

/-- `string`. -/
def string : CJson → Option (List UInt8)
  | item _ s _ => s

/-- The chain of children. -/
def child : CJson → List CJson
  | item _ _ c => c

/-- `tolower` of the C locale. -/
def tolower (b : UInt8) : UInt8 := if 65 ≤ b ∧ b ≤ 90 then b + 32 else b

/-- `cJSON_strcasecmp(s1, s2) == 0`. -/
def strcasecmpEq : Option (List UInt8) → Option (List UInt8) → Bool
  | none, none => true
  | none, some _ => false
  | some _, none => false
  | some s1, some s2 => s1.map tolower == s2.map tolower

/-- `cJSON_GetArraySize`. -/
def getArraySize (array : CJson) : Nat := array.child.length

/-- `cJSON_GetArrayItem`. -/
def getArrayItem (array : CJson) (item : Nat) : Option CJson := array.child[item]?

/-- `cJSON_GetObjectItem`: the first member of that name, whatever its case. -/
def getObjectItem (object : CJson) (string : Option (List UInt8)) : Option CJson :=
  object.child.find? fun c => strcasecmpEq c.string string

end CJson

/-! ## Printing -/

/-- A lower-case hexadecimal digit. -/
def hexDigit (n : UInt8) : UInt8 := if n < 10 then 48 + n else 87 + n

/-- How `print_string_ptr` writes one byte. -/
def escapeByte (b : UInt8) : List UInt8 :=
  if 31 < b ∧ b ≠ 34 ∧ b ≠ 92 then [b]
  else if b = 92 then ascii "\\\\"
  else if b = 34 then ascii "\\\""
  else if b = 8 then ascii "\\b"
  else if b = 12 then ascii "\\f"
  else if b = 10 then ascii "\\n"
  else if b = 13 then ascii "\\r"
  else if b = 9 then ascii "\\t"
  else ascii "\\u00" ++ [hexDigit (b / 16), hexDigit (b % 16)]

/-- What the counting loop of `print_string_ptr` adds for one byte. -/
def escapeLength (b : UInt8) : Nat :=
  if b = 34 ∨ b = 92 ∨ b = 8 ∨ b = 12 ∨ b = 10 ∨ b = 13 ∨ b = 9 then 2
  else if b < 32 then 6 else 1

theorem length_escapeByte (b : UInt8) : (escapeByte b).length = escapeLength b := by
  have hall : ∀ x : BitVec 8, (escapeByte ⟨x⟩).length = escapeLength ⟨x⟩ := by
    decide +kernel
  exact hall b.toBitVec

theorem length_flatMap_escapeByte (msg : List UInt8) :
    (msg.flatMap escapeByte).length = (msg.map escapeLength).sum := by
  rw [List.length_flatMap]
  congr 1
  exact List.map_congr_left fun b _ => length_escapeByte b

/-- `print_string_ptr`. -/
def printStringPtr (str : List UInt8) : List UInt8 :=
  ascii "\"" ++ str.flatMap escapeByte ++ ascii "\""

/-- `print_object` of a top-level object with `fmt = 1`, given the names and the
printed values of its members. -/
def printObject (members : List (List UInt8 × List UInt8)) : List UInt8 :=
  ascii "\x7b\n" ++
    (List.intersperse (ascii ",\n")
      (members.map fun (name, value) =>
        ascii "\t" ++ printStringPtr name ++ ascii ":\t" ++ value)).flatten ++
    ascii "\n\x7d"

/-- `cJSON_Print` of the object that `write_sock_func` builds. -/
def printReply (isOpOk : Bool) (msg : List UInt8) : List UInt8 :=
  printObject
    [(ascii "isopok", ascii (if isOpOk then "true" else "false")),
     (ascii "message", printStringPtr msg)]

example : printReply true [65, 10] =
    ascii "\x7b\n\t\"isopok\":\ttrue,\n\t\"message\":\t\"A\\n\"\n\x7d" := by
  decide

end WowProxy
