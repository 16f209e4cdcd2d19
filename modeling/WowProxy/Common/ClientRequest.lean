/-
  Common/ClientRequest.lean --- the requests of the Python client
  (`test/ss/client/client.py`).

  A dictionary is the list of its items in the order of their insertion.  `json.dumps`
  is the one of the standard library with its default arguments, so what it returns is
  ASCII and a character of the string is a byte on the wire.
-/
import Mathlib.Data.List.Forall2
import WowProxy.Common.CJson
import WowProxy.Common.ClientCrc8
import WowProxy.Threadpool.Frame
import WowProxy.Lib.JsonText

set_option autoImplicit false

namespace WowProxy.Client

open WowProxy.Lib.JsonText

/-! ## The request as a Python value -/

/-- A `dict` of strings. -/
abbrev Dict : Type := List (String × String)

/-- `d[k] = v`. -/
def setItem (d : Dict) (k v : String) : Dict :=
  if k ∈ d.map Prod.fst then d.map fun item => if item.1 = k then (k, v) else item
  else d ++ [(k, v)]

/-- `d.update(e)`. -/
def update (d e : Dict) : Dict := e.foldl (fun d item => setItem d item.1 item.2) d

/-- The dictionary `{"values": vals, "keys": keys}`. -/
structure Request where
  vals : List Dict
  keys : List (List String)
  deriving DecidableEq

/-- `assembly_request(cmds)`. -/
def assemblyRequest (cmds : List (List Dict)) : Option Request :=
  let vals := cmds.map fun cmd => cmd.foldl update []
  let keys := cmds.map fun cmd => cmd.flatMap fun k => k.map Prod.fst
  if vals.length = 0 ∨ keys.length = 0 then none else some { vals, keys }

/-! ## `json.dumps` -/

/-- A hexadecimal digit of `'{:04x}'`. -/
def formatDigit (n : Nat) : UInt8 := hexDigit (UInt8.ofNat (n % 16))

/-- `'\\u{:04x}'.format(n)`. -/
def formatUnit (n : Nat) : List UInt8 :=
  [92, 117, formatDigit (n / 4096), formatDigit (n / 256), formatDigit (n / 16), formatDigit n]

/-- What `ensure_ascii` makes of a character. -/
def dumpsChar (c : Char) : List UInt8 :=
  if c = '\\' then [92, 92]
  else if c = '"' then [92, 34]
  else if c.toNat = 8 then [92, 98]
  else if c.toNat = 12 then [92, 102]
  else if c = '\n' then [92, 110]
  else if c = '\r' then [92, 114]
  else if c = '\t' then [92, 116]
  else if 32 ≤ c.toNat ∧ c.toNat ≤ 126 then [UInt8.ofNat c.toNat]
  else if c.toNat < 0x10000 then formatUnit c.toNat
  else
    let n := c.toNat - 0x10000
    formatUnit (0xd800 ||| (n >>> 10 &&& 0x3ff)) ++ formatUnit (0xdc00 ||| (n &&& 0x3ff))

/-- `json.dumps` of a string. -/
def dumpsString (s : String) : List UInt8 := 34 :: (s.toList.flatMap dumpsChar ++ [34])

/-- `', '.join(texts)`. -/
def joined (texts : List (List UInt8)) : List UInt8 := List.intercalate [44, 32] texts

/-- `json.dumps` of a list, given the texts of its elements. -/
def dumpsList (texts : List (List UInt8)) : List UInt8 := 91 :: (joined texts ++ [93])

/-- `json.dumps` of a dictionary, given the texts of its keys and values. -/
def dumpsItems (items : List (List UInt8 × List UInt8)) : List UInt8 :=
  123 :: (joined (items.map fun item => item.1 ++ 58 :: 32 :: item.2) ++ [125])

/-- `json.dumps` of a `dict` of strings. -/
def dumpsDict (d : Dict) : List UInt8 :=
  dumpsItems (d.map fun item => (dumpsString item.1, dumpsString item.2))

/-- `json.dumps(dic)`, where `dic` may be `None`. -/
def dumps : Option Request → List UInt8
  | none => ascii "null"
  | some dic =>
    dumpsItems
      [(dumpsString "values", dumpsList (dic.vals.map dumpsDict)),
       (dumpsString "keys", dumpsList (dic.keys.map fun ks => dumpsList (ks.map dumpsString)))]

/-- `n.to_bytes(2, 'big')`; `none` is the `OverflowError`. -/
def toBytes (n : Nat) : Option (List UInt8) :=
  if n < 2 ^ 16 then some [UInt8.ofNat (n / 256), UInt8.ofNat (n % 256)] else none

/-- What `test_performance` sends for the commands: the length of `crc_str`, its characters
but the last, and the code of the last. -/
def sendall (cmds : List (List Dict)) : Option (List UInt8) := do
  let crcStr ← crc8Data (dumps (assemblyRequest cmds))
  let length ← toBytes crcStr.length
  return length ++ crcStr

/-! ## What is sent is the frame of a JSON text -/

/-- The bytes of a string in UTF-8. -/
def utf8 (s : String) : List UInt8 := s.toList.flatMap String.utf8EncodeChar

theorem hex4_formatUnit {n : Nat} (h : n < 0x10000) :
    ∃ ds, formatUnit n = 92 :: 117 :: ds ∧ Hex4 n ds := by
  have hdigit : ∀ d : Nat, hexValue (formatDigit d) = some (d % 16) := by
    have hall : ∀ d : Fin 16, hexValue (hexDigit (UInt8.ofNat d)) = some d.val := by decide
    exact fun d => hall ⟨d % 16, Nat.mod_lt d (by decide)⟩
  refine ⟨_, rfl, rfl, ?_⟩
  simp only [hexFrom, List.foldlM_cons, List.foldlM_nil, hdigit, Option.map_some,
    Option.bind_eq_bind, Option.bind_some, Option.pure_def, Option.some.injEq]
  omega

theorem surrogate_bits {n : Nat} (h : n < 0x100000) :
    (0xd800 ||| (n >>> 10 &&& 0x3ff)) = 0xD800 + n / 0x400 ∧
      (0xdc00 ||| (n &&& 0x3ff)) = 0xDC00 + n % 0x400 := by
  have hand : ∀ m : Nat, m &&& 0x3ff = m % 1024 := fun m => Nat.and_two_pow_sub_one_eq_mod m 10
  have hor : ∀ mark m : Nat, m < 1024 → 1024 * mark ||| m = 1024 * mark + m :=
    fun mark m hm => (Nat.two_pow_add_eq_or_of_lt (i := 10) hm mark).symm
  refine ⟨?_, ?_⟩
  · rw [hand, Nat.shiftRight_eq_div_pow]
    have := hor 54 (n / 2 ^ 10 % 1024) (Nat.mod_lt _ (by decide))
    rw [show (0xd800 : Nat) = 1024 * 54 from rfl, this]
    omega
  · rw [hand]
    have := hor 55 (n % 1024) (Nat.mod_lt _ (by decide))
    rw [show (0xdc00 : Nat) = 1024 * 55 from rfl, this]

/-- What is written for a character denotes it. -/
theorem stringBody_dumpsChar (c : Char) : StringBody (String.utf8EncodeChar c) (dumpsChar c) := by
  have hshort : ∀ (d : Char) (b l : UInt8), (l, b) ∈ escapes → String.utf8EncodeChar d = [b] →
      StringBody (String.utf8EncodeChar d) [92, l] := by
    intro d b l hl hd
    rw [hd]
    exact .escape hl .nil
  have hval : ∀ d : Char, c.toNat = d.toNat → c = d := fun d h => Char.toNat_inj.mp h
  unfold dumpsChar
  split
  · rename_i h
    subst h
    exact hshort '\\' 92 92 (by decide) (by decide)
  split
  · rename_i h
    subst h
    exact hshort '"' 34 34 (by decide) (by decide)
  split
  · rename_i h
    obtain rfl := hval (Char.ofNat 8) h
    exact hshort (Char.ofNat 8) 8 98 (by decide) (by decide)
  split
  · rename_i h
    obtain rfl := hval (Char.ofNat 12) h
    exact hshort (Char.ofNat 12) 12 102 (by decide) (by decide)
  split
  · rename_i h
    subst h
    exact hshort '\n' 10 110 (by decide) (by decide)
  split
  · rename_i h
    subst h
    exact hshort '\r' 13 114 (by decide) (by decide)
  split
  · rename_i h
    subst h
    exact hshort '\t' 9 116 (by decide) (by decide)
  split
  · rename_i hbackslash hquote _ _ _ _ _ hrange
    have hutf8 : String.utf8EncodeChar c = [UInt8.ofNat c.toNat] := by
      unfold String.utf8EncodeChar
      rw [if_pos (show c.val.toNat ≤ 0x7f from (by omega : c.toNat ≤ 0x7f))]
      rfl
    have hbyte : (UInt8.ofNat c.toNat).toNat = c.toNat :=
      UInt8.toNat_ofNat_of_lt' (by simp only [UInt8.size]; omega)
    rw [hutf8]
    refine .plain ⟨?_, ?_, ?_⟩ .nil
    · rw [UInt8.le_iff_toNat_le, hbyte]
      exact hrange.1
    · intro h
      exact hquote (hval '"' (hbyte.symm.trans (congrArg UInt8.toNat h)))
    · intro h
      exact hbackslash (hval '\\' (hbyte.symm.trans (congrArg UInt8.toNat h)))
  split
  · rename_i hsmall
    obtain ⟨ds, hds, hhex⟩ := hex4_formatUnit hsmall
    have hbody := StringBody.unicode hhex .nil
    rw [List.append_nil, List.append_nil] at hbody
    rwa [hds]
  · rename_i hlarge
    have hrange : c.toNat < 0x110000 := by
      rcases c.valid with h | ⟨-, h⟩
      · exact Nat.lt_trans h (by decide)
      · exact h
    obtain ⟨hhigh, hlow⟩ := surrogate_bits (show c.toNat - 0x10000 < 0x100000 by omega)
    obtain ⟨hi, hhi, hhihex⟩ := hex4_formatUnit (show highSurrogate c < 0x10000 by
      unfold highSurrogate; omega)
    obtain ⟨lo, hlo, hlohex⟩ := hex4_formatUnit (show lowSurrogate c < 0x10000 by
      unfold lowSurrogate; omega)
    have hbody := StringBody.pair (by omega) hhihex hlohex .nil
    rw [List.append_nil, List.append_nil] at hbody
    dsimp only
    rw [hhigh, hlow]
    show StringBody _ (formatUnit (highSurrogate c) ++ formatUnit (lowSurrogate c))
    rw [hhi, hlo]
    exact hbody

theorem stringText_dumpsString (s : String) : StringText (utf8 s) (dumpsString s) :=
  .quoted (StringBody.flatMap s.toList fun c _ => stringBody_dumpsChar c)

/-- A dictionary as a JSON value. -/
def dictTree (d : Dict) : Json Decimal :=
  .object (d.map fun item => (utf8 item.1, .string (utf8 item.2)))

/-- A list of keys as a JSON value. -/
def keysTree (ks : List String) : Json Decimal := .array (ks.map fun k => .string (utf8 k))

/-- The request as a JSON value. -/
def requestTree : Option Request → Json Decimal
  | none => .null
  | some dic =>
    .object [(ascii "values", .array (dic.vals.map dictTree)),
      (ascii "keys", .array (dic.keys.map keysTree))]

theorem denotes_dumpsList {α : Type} {tree : α → Json Decimal} {text : α → List UInt8}
    (h : ∀ a, Denotes (tree a) (text a)) (as : List α) :
    Denotes (.array (as.map tree)) (dumpsList (as.map text)) := by
  refine denotes_array_intercalate (w := [32]) rfl ?_
  rw [List.forall₂_map_left_iff, List.forall₂_map_right_iff]
  exact List.forall₂_same.mpr fun a _ => h a

theorem denotes_dumpsItems {items : List (List UInt8 × List UInt8)}
    {members : List (List UInt8 × Json Decimal)}
    (h : List.Forall₂ (fun m item => StringText m.1 item.1 ∧ Denotes m.2 item.2) members items) :
    Denotes (.object members) (dumpsItems items) := by
  have hblank : [(32 : UInt8)].all isBlank = true := rfl
  refine denotes_object_intercalate hblank hblank ?_
  rw [List.forall₂_map_right_iff]
  exact h.imp fun m item hm => .member hm.1 hm.2

theorem denotes_dumpsDict (d : Dict) : Denotes (dictTree d) (dumpsDict d) := by
  refine denotes_dumpsItems ?_
  rw [List.forall₂_map_left_iff, List.forall₂_map_right_iff]
  exact List.forall₂_same.mpr fun item _ =>
    ⟨stringText_dumpsString item.1, .string (stringText_dumpsString item.2)⟩

/-- `json.dumps` writes a JSON text of the request. -/
theorem denotes_dumps (dic : Option Request) : Denotes (requestTree dic) (dumps dic) := by
  cases dic with
  | none => exact .null
  | some dic =>
    have hvalues : StringText (ascii "values") (dumpsString "values") :=
      stringText_dumpsString "values"
    have hkeys : StringText (ascii "keys") (dumpsString "keys") := stringText_dumpsString "keys"
    exact denotes_dumpsItems (.cons ⟨hvalues, denotes_dumpsList denotes_dumpsDict dic.vals⟩
      (.cons ⟨hkeys, denotes_dumpsList (fun ks => denotes_dumpsList
        (fun k => .string (stringText_dumpsString k)) ks) dic.keys⟩ .nil))

/-- What is sent is the frame of the text. -/
theorem sendall_frame {cmds : List (List Dict)} {frame : List UInt8}
    (h : sendall cmds = some frame) :
    ∃ p : Payload, p.bytes = dumps (assemblyRequest cmds) ∧ frame = p.frame := by
  rw [sendall] at h
  generalize dumps (assemblyRequest cmds) = text at h ⊢
  have hcrc : crc8Data text = some (text ++ [crcOf text]) := by
    rw [crc8Data, crc8_eq, Option.bind_eq_bind, Option.bind_some, chr_toNat]
    rfl
  rw [hcrc, Option.bind_eq_bind, Option.bind_some, List.length_append,
    List.length_singleton, toBytes] at h
  split at h
  · rename_i hlen
    exact ⟨⟨text, by omega⟩, rfl, (Option.some.inj h).symm⟩
  · exact absurd h (by simp)

/-! ## Commands whose keys differ -/

theorem setItem_new {d : Dict} {k : String} (hk : k ∉ d.map Prod.fst) (v : String) :
    setItem d k v = d ++ [(k, v)] := if_neg hk

theorem update_new {d e : Dict} (h : ((d ++ e).map Prod.fst).Nodup) : update d e = d ++ e := by
  induction e generalizing d with
  | nil => rw [List.append_nil]; rfl
  | cons item e ih =>
    have hk : item.1 ∉ d.map Prod.fst := by
      intro hmem
      rw [List.map_append, List.map_cons] at h
      exact (List.nodup_append.mp h).2.2 item.1 hmem item.1 List.mem_cons_self rfl
    rw [List.append_cons] at h
    show update (setItem d item.1 item.2) e = _
    rw [setItem_new hk, ih h, List.append_assoc]
    rfl

/-- The dictionary of a command has its items in the order they are given. -/
theorem foldl_update {cmd : List Dict} :
    ∀ {d : Dict}, ((d ++ cmd.flatten).map Prod.fst).Nodup →
      cmd.foldl update d = d ++ cmd.flatten := by
  induction cmd with
  | nil =>
    intro d _
    rw [List.flatten_nil, List.append_nil]
    rfl
  | cons e cmd ih =>
    intro d h
    rw [List.flatten_cons, ← List.append_assoc] at h
    have hpart : ((d ++ e).map Prod.fst).Nodup := by
      rw [List.map_append] at h
      exact (List.nodup_append.mp h).1
    rw [List.foldl_cons, update_new hpart, ih h, List.flatten_cons, List.append_assoc]

end WowProxy.Client
