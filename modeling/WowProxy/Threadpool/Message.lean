/-
  Threadpool/Message.lean --- from the bytes of one frame to its commands:
  `vaild_item`, `parse_object` and `analysis_message` of `aidsock.c`.

  `cJSON_Parse` and the lookup `value_for_key` in the command table are the two
  members of a `Decoder`, so every statement below holds for any JSON parser and
  any table.  `analysis_message` has no value where `reverse_crc_data` would copy
  out of its buffers, which is the case of a message that is only a header.
-/
import WowProxy.Common.CJson
import WowProxy.Lib.CString
import WowProxy.Threadpool.Frame

set_option autoImplicit false

namespace WowProxy

open WowProxy.Lib.CString

/-- What `analysis_message` looks things up in. -/
structure Decoder where
  /-- `cJSON_Parse` of a C string -/
  cJsonParse : List UInt8 → Option CJson
  /-- `value_for_key` -/
  valueForKey : Int → Option Command

/-- `JSONERROR`, as far as it is returned. -/
inductive JsonError where
  /-- `DEPRECATED` -/
  | deprecated
  /-- `PARAMNUMERR` -/
  | paramNumErr
  /-- `PARAMTYPEERR` -/
  | paramTypeErr
  /-- `COMMANDNOEXIST` -/
  | commandNoExist
  /-- `PARAMNULL` -/
  | paramNull
  deriving DecidableEq, Repr

/-- A command of an accepted message: the entries of `cmds`, `resp` and
`is2Pipe`. -/
structure ParsedCommand where
  /-- a C string -/
  cmd : List UInt8
  needRsp : Bool
  is2Pipe : Bool
  deriving DecidableEq, Repr

/-! ## Library functions -/

/-- White space of the C locale. -/
def isSpace (b : UInt8) : Bool := b == 32 || (9 ≤ b && b ≤ 13)

/-- A decimal digit. -/
def isDigit (b : UInt8) : Bool := 48 ≤ b && b ≤ 57

/-- The number the leading digits spell. -/
def digitsValue (s : List UInt8) : Int :=
  (s.takeWhile isDigit).foldl (fun n b => n * 10 + (b.toNat - 48)) 0

/-- `atoi`: the `long` that `strtol` reads, clamped to its range, as an `int`. -/
def atoi (s : List UInt8) : Int :=
  let clamp (n : Int) : Int := max (-2 ^ 63) (min n (2 ^ 63 - 1))
  match s.dropWhile isSpace with
  | 45 :: rest => toInt32 (clamp (-digitsValue rest))
  | 43 :: rest => toInt32 (clamp (digitsValue rest))
  | rest => toInt32 (clamp (digitsValue rest))

/-- The text `printf` makes of a template whose only directives are `%s` and `%%`,
with an argument for every `%s`.  Of any other template this says nothing. -/
def formatStrings : List UInt8 → List (List UInt8) → List UInt8
  | [], _ => []
  | [b], _ => if b = 37 then [] else [b]
  | b :: c :: rest, args =>
    if b = 37 then
      if c = 115 then args.headD [] ++ formatStrings rest args.tail
      else if c = 37 then 37 :: formatStrings rest args
      else formatStrings rest args
    else b :: formatStrings (c :: rest) args

/-- `snprintf(buf, size, ...)`: the text is cut to leave room for the
terminator. -/
def snprintf (size : Nat) (template : List UInt8) (args : List (List UInt8)) : List UInt8 :=
  (formatStrings template args).take (size - 1)

/-- `calloc(1, n)`: `NULL` beyond the largest object size. -/
def calloc (n : Nat) : Option Nat := if n < 2 ^ 63 then some n else none

/-! ## One command -/

/-- `vaild_item(cmds, keys, idx, op)`: the value named by the key at `idx`. -/
def vaildItem (cmds keys : CJson) (idx : Nat) : Except JsonError (List UInt8) :=
  match keys.getArrayItem idx with
  | none => .error .paramTypeErr
  | some obj =>
    match cmds.getObjectItem obj.valuestring with
    | none => .error .paramTypeErr
    | some obj =>
      match obj.valuestring with
      | none => .error .paramTypeErr
      | some op => .ok op

/-- The fall-through switch of `parse_object`: the parameters named by the keys
`1 .. n`, fetched from the last to the first. -/
def collectParms (cmds keys : CJson) :
    Nat → List (List UInt8) → Except JsonError (List (List UInt8))
  | 0, parms => .ok parms
  | idx + 1, parms =>
    match vaildItem cmds keys (idx + 1) with
    | .error e => .error e
    | .ok parm => collectParms cmds keys idx (parm :: parms)

/-- `sizeof(szBuf)` of `parse_object`: `MAX_BUF_SIZE * 2`. -/
def commandBufSize : Nat := maxBufSize * 2

/-- `parse_object(cmds, keys, value, fs)`. -/
def parseObject (d : Decoder) (cmds keys : Option CJson) : Except JsonError ParsedCommand :=
  match cmds, keys with
  | some cmds, some keys =>
    let parmSize := keys.getArraySize
    if parmSize > 5 ∨ parmSize ≤ 1 then .error .paramNumErr
    else
      match vaildItem cmds keys 0 with
      | .error e => .error e
      | .ok op =>
        match d.valueForKey (atoi op) with
        | none => .error .commandNoExist
        | some cmdObj =>
          if (parmSize : Int) - 1 ≠ cmdObj.paramNum then .error .paramNumErr
          else if cmdObj.deprecated then .error .deprecated
          else
            match collectParms cmds keys (parmSize - 1) [] with
            | .error e => .error e
            | .ok parms =>
              .ok { cmd := snprintf commandBufSize cmdObj.value parms,
                    needRsp := cmdObj.needRsp, is2Pipe := cmdObj.is2Pipe }
  | _, _ => .error .paramNull

/-! ## One message -/

/-- The loop of `analysis_message` over the first `keySize` entries of both
arrays, from entry `i` on. -/
def parseObjects (d : Decoder) (cmdsArray keysArray : CJson) (i : Nat) :
    Nat → Except JsonError (List ParsedCommand)
  | 0 => .ok []
  | n + 1 =>
    match parseObject d (cmdsArray.getArrayItem i) (keysArray.getArrayItem i) with
    | .error e => .error e
    | .ok cmd =>
      match parseObjects d cmdsArray keysArray (i + 1) n with
      | .error e => .error e
      | .ok cmds => .ok (cmd :: cmds)

/-- `analysis_message` from `cJSON_Parse` on.  The empty list stands for the
returned `0`: one bad command rejects the whole message. -/
def analysisJson (d : Decoder) (podata : List UInt8) : List ParsedCommand :=
  match d.cJsonParse podata with
  | none => []
  | some root =>
    match root.getObjectItem (some (ascii "values")), root.getObjectItem (some (ascii "keys")) with
    | some cmdsArray, some keysArray =>
      match parseObjects d cmdsArray keysArray 0
          (min keysArray.getArraySize cmdsArray.getArraySize) with
      | .error _ => []
      | .ok cmds => cmds
    | _, _ => []

/-- `analysis_message(original_msg, nbytes, ..)`. -/
def analysisMessage (d : Decoder) (originalMsg : Option (List UInt8)) (nbytes : Nat) :
    Option (List ParsedCommand) :=
  match originalMsg with
  | none => some []
  | some msg =>
    if nbytes = 0 then some []
    else
      let len := sizeT ((nbytes : Int) - headSize)
      match reverseCrcData (some (msg.drop headSize)) (toInt32 len) (calloc len) with
      | none => none
      | some (ret, data) =>
        if ret ≠ 0 then some []
        else (cstr (padded data len)).map (analysisJson d)

/-- The commands of a payload: `cJSON_Parse` sees it up to its first NUL. -/
def Decoder.commands (d : Decoder) (p : Payload) : List ParsedCommand :=
  analysisJson d (p.bytes.takeWhile (· ≠ 0))

/-- `analysis_message` accepts the frame of the payload. -/
def Decoder.accepts (d : Decoder) (p : Payload) : Prop := d.commands p ≠ []

theorem cstr_padded_succ (data : List UInt8) :
    cstr (padded data (data.length + 1)) = some (data.takeWhile (· ≠ 0)) := by
  rw [padded_eq_cons (by omega)]
  unfold cstr
  rw [if_pos (by simp)]
  congr 1
  rw [List.takeWhile_append]
  split
  · rename_i h
    have hall : data.takeWhile (· ≠ 0) = data :=
      (List.takeWhile_prefix _).eq_of_length h
    simp only [hall]
    simp
  · rfl

/-- A complete frame is analysed to the commands of its payload. -/
theorem analysisMessage_frame (d : Decoder) (p : Payload) :
    analysisMessage d (some p.frame) p.frame.length = some (d.commands p) := by
  have hb := p.bounded
  have hlen : sizeT ((p.frame.length : Int) - headSize) = p.bytes.length + 1 := by
    have hint : (p.frame.length : Int) - headSize = ((p.bytes.length + 1 : Nat) : Int) := by
      rw [p.length_frame]
      simp only [headSize]
      omega
    rw [hint, sizeT_of_nonneg (by omega) (by omega), Int.toNat_natCast]
  have hdrop : p.frame.drop headSize = p.body := List.drop_left' p.length_header
  have hint : toInt32 ((p.bytes.length + 1 : Nat) : Int) = (p.bytes.length : Int) + 1 := by
    rw [toInt32_of_small (by omega) (by omega), Int.natCast_add, Int.natCast_one]
  have hcalloc : calloc (p.bytes.length + 1) = some (p.bytes.length + 1) := by
    rw [calloc, if_pos (by omega)]
  have hpos : p.frame.length ≠ 0 := by rw [p.length_frame]; omega
  simp only [analysisMessage, hpos, if_false, hlen, hdrop, hint, hcalloc,
    p.reverseCrcData_body, ne_eq, not_true_eq_false, cstr_padded_succ, Option.map_some]
  rfl

end WowProxy
