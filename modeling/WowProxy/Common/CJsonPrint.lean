/-
  Common/CJsonPrint.lean --- `cJSON_Print` and `cJSON_PrintUnformatted` of
  `common/cJSON.c`, and that `cJSON_Parse` reads back what they print.

  Every function of the printer first computes how much it allocates and then writes its
  text with no further test, so a text that does not fit is a write outside the
  allocation.  Strings and names are C strings and not `NULL`.  A number is an `int`,
  which its double equals; the formats for other doubles are not embedded.  What is
  allocated is computed in `int`s: no size exceeds twice the length of the printed text
  by more than 21, so that they do not overflow while that text is below a gigabyte.
-/
import WowProxy.Common.CJsonAccepts

set_option autoImplicit false

namespace WowProxy.CJson

open WowProxy.Lib.JsonText

/-! ## The printer -/

/-- A string written into a `malloc` of `size` bytes, with its NUL; `none` is a write
outside. -/
def stored (size : Nat) (text : List UInt8) : Option (List UInt8) :=
  if text.length < size then some text else none

/-- The bytes that set `flag` in `print_string_ptr`. -/
def isFlagged (b : UInt8) : Bool := (0 < b && b < 32) || b == 34 || b == 92

/-- What `print_string_ptr` allocates. -/
def stringSize (str : List UInt8) : Nat :=
  if str.any isFlagged then (str.map escapeLength).sum + 3 else str.length + 3

/-- `print_string_ptr`: a string without a flagged byte is copied as it is. -/
def printString (str : List UInt8) : Option (List UInt8) :=
  stored (stringSize str)
    (if str.any isFlagged then printStringPtr str else 34 :: (str ++ [34]))

/-- What `print_number` allocates. -/
def numberSize (n : Int32) : Nat := if n = 0 then 2 else 21

/-- `sprintf(str, "%d", n)`. -/
def formatInt (n : Int) : List UInt8 :=
  if n < 0 then 45 :: natText n.natAbs else natText n.natAbs

/-- `print_number` of an `int`. -/
def printNumber (n : Int32) : Option (List UInt8) :=
  stored (numberSize n) (if n = 0 then ascii "0" else formatInt n.toInt)

/-- What stands between two entries of an array. -/
def separator (fmt : Bool) : List UInt8 := if fmt then [44, 32] else [44]

/-- The entries of an array, as they are copied. -/
def joinEntries (fmt : Bool) : List (List UInt8) → List UInt8
  | [] => []
  | [ret] => ret
  | ret :: entries => ret ++ separator fmt ++ joinEntries fmt entries

/-- What `print_array` allocates for its text. -/
def arraySize (fmt : Bool) (entries : List (List UInt8)) : Nat :=
  if entries = [] then 3
  else 5 + (entries.map fun ret => ret.length + 2 + if fmt then 1 else 0).sum

/-- `print_array`, when all entries are printed. -/
def printArray (fmt : Bool) (entries : List (List UInt8)) : Option (List UInt8) :=
  stored (arraySize fmt entries)
    (if entries = [] then ascii "[]" else 91 :: (joinEntries fmt entries ++ [93]))

/-- `depth` tabs, where the text is formatted. -/
def tabs (fmt : Bool) (depth : Nat) : List UInt8 := if fmt then List.replicate depth 9 else []

/-- The names and entries of an object, as they are copied. -/
def joinMembers (fmt : Bool) (depth : Nat) : List (List UInt8 × List UInt8) → List UInt8
  | [] => []
  | (str, ret) :: members =>
    tabs fmt depth ++ str ++ 58 :: tabs fmt 1 ++ ret ++ (if members = [] then [] else [44]) ++
      (if fmt then [10] else []) ++ joinMembers fmt depth members

/-- What `print_object` allocates for its text. -/
def objectSize (fmt : Bool) (depth : Nat) (members : List (List UInt8 × List UInt8)) : Nat :=
  if members = [] then if fmt then depth + 4 else 3
  else 7 + (if fmt then depth + 1 else 0) +
    (members.map fun m => m.2.length + m.1.length + 2 + if fmt then 2 + (depth + 1) else 0).sum

/-- `print_object`, when all names and entries are printed. -/
def printMembers (fmt : Bool) (depth : Nat) (members : List (List UInt8 × List UInt8)) :
    Option (List UInt8) :=
  stored (objectSize fmt depth members)
    (if members = [] then 123 :: (if fmt then 10 :: tabs fmt (depth - 1) else []) ++ [125]
    else 123 :: (if fmt then [10] else []) ++ joinMembers fmt (depth + 1) members ++
      tabs fmt depth ++ [125])

mutual

/-- `print_value(item, depth, fmt, 0)`. -/
def printValue (fmt : Bool) (depth : Nat) : Json Int32 → Option (List UInt8)
  | .null => stored 5 (ascii "null")
  | .bool b => if b then stored 5 (ascii "true") else stored 6 (ascii "false")
  | .number n => printNumber n
  | .string s => printString s
  | .array items => (printItems fmt (depth + 1) items).bind (printArray fmt)
  | .object members => (printEntries fmt (depth + 1) members).bind (printMembers fmt depth)
termination_by structural v => v

/-- The loop of `print_array` over its children. -/
def printItems (fmt : Bool) (depth : Nat) : List (Json Int32) → Option (List (List UInt8))
  | [] => some []
  | v :: items =>
    (printValue fmt depth v).bind fun ret =>
      (printItems fmt depth items).map (ret :: ·)
termination_by structural items => items

/-- The loop of `print_object` over its children. -/
def printEntries (fmt : Bool) (depth : Nat) :
    List (List UInt8 × Json Int32) → Option (List (List UInt8 × List UInt8))
  | [] => some []
  | (string, v) :: members =>
    (printString string).bind fun str =>
      (printValue fmt depth v).bind fun ret =>
        (printEntries fmt depth members).map ((str, ret) :: ·)
termination_by structural members => members

end

mutual

/-- The sizes of all texts that `print_value(item, depth, fmt, 0)` allocates. -/
def sizes (fmt : Bool) (depth : Nat) : Json Int32 → List Nat
  | .null => [5]
  | .bool b => if b then [5] else [6]
  | .number n => [numberSize n]
  | .string s => [stringSize s]
  | .array items =>
    itemSizes fmt (depth + 1) items ++
      ((printItems fmt (depth + 1) items).map (arraySize fmt)).toList
  | .object members =>
    memberSizes fmt (depth + 1) members ++
      ((printEntries fmt (depth + 1) members).map (objectSize fmt depth)).toList
termination_by structural v => v

/-- Those of the children of an array. -/
def itemSizes (fmt : Bool) (depth : Nat) : List (Json Int32) → List Nat
  | [] => []
  | v :: items => sizes fmt depth v ++ itemSizes fmt depth items
termination_by structural items => items

/-- Those of the names and children of an object. -/
def memberSizes (fmt : Bool) (depth : Nat) : List (List UInt8 × Json Int32) → List Nat
  | [] => []
  | (string, v) :: members =>
    stringSize string :: (sizes fmt depth v ++ memberSizes fmt depth members)
termination_by structural members => members

end

/-- `cJSON_Print`. -/
def print (item : Json Int32) : Option (List UInt8) := printValue true 0 item

/-- `cJSON_PrintUnformatted`. -/
def printUnformatted (item : Json Int32) : Option (List UInt8) := printValue false 0 item

/-! ## Strings -/

theorem stored_eq {size : Nat} {text : List UInt8} (h : text.length < size) :
    stored size text = some text := if_pos h

theorem length_of_stored {size : Nat} {text t : List UInt8} (h : stored size text = some t) :
    t = text ∧ text.length < size := by
  rw [stored] at h
  split at h
  · rename_i hlt
    exact ⟨(Option.some.inj h).symm, hlt⟩
  · exact absurd h (by simp)

theorem length_printStringPtr (str : List UInt8) :
    (printStringPtr str).length = (str.map escapeLength).sum + 2 := by
  rw [printStringPtr, List.length_append, List.length_append, length_flatMap_escapeByte]
  show 1 + _ + 1 = _
  omega

/-- A byte that is not flagged is its own escape. -/
theorem escapeByte_plain {b : UInt8} (hnul : b ≠ 0) (hb : isFlagged b = false) :
    escapeByte b = [b] := by
  have hall : ∀ x : BitVec 8, x ≠ 0 → isFlagged ⟨x⟩ = false → escapeByte ⟨x⟩ = [⟨x⟩] := by
    decide +kernel
  exact hall b.toBitVec (fun h => hnul (UInt8.toBitVec_inj.mp h)) hb

theorem flatMap_escapeByte_plain {str : List UInt8} (hnul : 0 ∉ str)
    (hplain : str.any isFlagged = false) : str.flatMap escapeByte = str := by
  induction str with
  | nil => rfl
  | cons b str ih =>
    rw [List.mem_cons, not_or] at hnul
    rw [List.any_cons, Bool.or_eq_false_iff] at hplain
    rw [List.flatMap_cons, escapeByte_plain (fun h => hnul.1 h.symm) hplain.1,
      ih hnul.2 hplain.2, List.singleton_append]

/-- Both ways of `print_string_ptr` fill what they allocate with the same text. -/
theorem printString_eq {str : List UInt8} (hnul : 0 ∉ str) :
    printString str = some (printStringPtr str) := by
  unfold printString stringSize
  split
  · exact stored_eq (by rw [length_printStringPtr]; omega)
  · rename_i hplain
    have htext : printStringPtr str = 34 :: (str ++ [34]) := by
      rw [printStringPtr, flatMap_escapeByte_plain hnul (Bool.not_eq_true _ ▸ hplain)]
      rfl
    rw [htext]
    exact stored_eq (by
      simp only [List.length_cons, List.length_append, List.length_nil]
      omega)

theorem hexFrom_escape (b : UInt8) :
    hexFrom 0 [48, 48, hexDigit (b / 16), hexDigit (b % 16)] = some b.toNat := by
  have hall : ∀ x : BitVec 8,
      hexFrom 0 [48, 48, hexDigit (⟨x⟩ / 16), hexDigit (⟨x⟩ % 16)] = some x.toNat := by
    decide +kernel
  exact hall b.toBitVec

/-- What is written for a byte denotes it. -/
theorem stringBody_escapeByte (b : UInt8) : StringBody [b] (escapeByte b) := by
  unfold escapeByte
  split
  · rename_i hb
    refine .plain ⟨?_, hb.2⟩ .nil
    have hlt := hb.1
    rw [UInt8.lt_iff_toNat_lt] at hlt
    rw [UInt8.le_iff_toNat_le]
    simp only [UInt8.reduceToNat] at hlt ⊢
    omega
  rename_i hlow
  split
  · rename_i h
    subst h
    exact .escape (c := 92) (by decide) .nil
  split
  · rename_i h
    subst h
    exact .escape (c := 34) (by decide) .nil
  split
  · rename_i h
    subst h
    exact .escape (c := 98) (by decide) .nil
  split
  · rename_i h
    subst h
    exact .escape (c := 102) (by decide) .nil
  split
  · rename_i h
    subst h
    exact .escape (c := 110) (by decide) .nil
  split
  · rename_i h
    subst h
    exact .escape (c := 114) (by decide) .nil
  split
  · rename_i h
    subst h
    exact .escape (c := 116) (by decide) .nil
  · rename_i hbackslash hquote _ _ _ _ _
    -- a control byte without a letter of its own is one of the first code points
    have hsmall : b.toNat < 32 := by
      by_contra hge
      refine hlow ⟨?_, hquote, hbackslash⟩
      rw [UInt8.lt_iff_toNat_lt]
      simp only [UInt8.reduceToNat]
      omega
    have hvalid : b.toNat.isValidChar := .inl (by omega)
    have hchar : (Char.ofNat b.toNat).toNat = b.toNat := by
      rw [Char.ofNat, dif_pos hvalid]
      rfl
    have hutf8 : String.utf8EncodeChar (Char.ofNat b.toNat) = [b] := by
      have hvalue : (Char.ofNat b.toNat).val.toNat = b.toNat := hchar
      unfold String.utf8EncodeChar
      rw [hvalue, if_pos (by omega), UInt8.ofNat_toNat]
    have hbody := StringBody.unicode (c := Char.ofNat b.toNat)
      ⟨rfl, (hexFrom_escape b).trans (congrArg some hchar.symm)⟩ .nil
    rwa [hutf8] at hbody

theorem stringText_printStringPtr (str : List UInt8) : StringText str (printStringPtr str) := by
  have hbody := StringBody.flatMap str fun b _ => stringBody_escapeByte b
  have hstr : str.flatMap (fun b => [b]) = str := List.flatMap_singleton' str
  rw [hstr] at hbody
  exact .quoted hbody

/-! ## Numbers -/

/-- The decimal of an `int`. -/
def intDecimal (n : Int32) : Decimal := ⟨n.toInt, 0⟩

theorem length_natText {n : Nat} (h : n < 10 ^ 10) : (natText n).length ≤ 10 := by
  rw [natText, List.length_map]
  exact (Nat.length_toDigits_le_iff (by decide) (by decide)).mpr h

theorem numberText_formatInt (n : Int) : NumberText ⟨n, 0⟩ (formatInt n) := by
  have hdigits : digitsFrom 0 (natText n.natAbs ++ []) = n.natAbs := by
    rw [List.append_nil, digitsFrom_natText]
  unfold formatInt
  split
  · have hneg := NumberText.negative (intPart_natText n.natAbs) .absent .absent
    rw [hdigits, List.append_nil, List.append_nil] at hneg
    have hvalue : -(n.natAbs : Int) = n := by omega
    rw [hvalue] at hneg
    exact hneg
  · have hpos := NumberText.positive (intPart_natText n.natAbs) .absent .absent
    rw [hdigits, List.append_nil, List.append_nil] at hpos
    have hvalue : (n.natAbs : Int) = n := by omega
    rw [hvalue] at hpos
    exact hpos

theorem printNumber_denotes (n : Int32) :
    ∃ t, printNumber n = some t ∧ Denotes (.number (intDecimal n)) t := by
  unfold printNumber numberSize
  split
  · rename_i h
    subst h
    refine ⟨ascii "0", stored_eq (by decide), .number ?_⟩
    exact numberText_formatInt 0
  · have hlow := n.le_toInt
    have hhigh := n.toInt_lt
    have hlen := length_natText (show n.toInt.natAbs < 10 ^ 10 by omega)
    refine ⟨formatInt n.toInt, stored_eq ?_, .number (numberText_formatInt n.toInt)⟩
    unfold formatInt
    split
    · rw [List.length_cons]
      omega
    · omega

/-! ## Arrays and objects -/

theorem length_separator (fmt : Bool) :
    (separator fmt).length = 1 + if fmt then 1 else 0 := by
  cases fmt <;> rfl

theorem joinEntries_cons (fmt : Bool) (ret : List UInt8) (rets : List (List UInt8)) :
    joinEntries fmt (ret :: rets) =
      ret ++ if rets = [] then [] else separator fmt ++ joinEntries fmt rets := by
  cases rets with
  | nil => rw [if_pos rfl, List.append_nil, joinEntries]
  | cons ret' rets =>
    rw [if_neg (List.cons_ne_nil ret' rets), joinEntries, List.append_assoc]
    exact fun h => List.cons_ne_nil ret' rets h

theorem length_joinEntries (fmt : Bool) : ∀ entries : List (List UInt8),
    (joinEntries fmt entries).length ≤
      (entries.map fun ret => ret.length + 2 + if fmt then 1 else 0).sum
  | [] => Nat.le_refl 0
  | [ret] => by
    rw [joinEntries, List.map_singleton, List.sum_singleton]
    omega
  | ret :: ret' :: entries => by
    have hrest := length_joinEntries fmt (ret' :: entries)
    have hsep := length_separator fmt
    rw [joinEntries, List.length_append, List.length_append, List.map_cons, List.sum_cons]
    · omega
    · simp

theorem length_tabs (fmt : Bool) (depth : Nat) :
    (tabs fmt depth).length = if fmt then depth else 0 := by
  cases fmt
  · rfl
  · exact List.length_replicate

theorem length_joinMembers (fmt : Bool) (depth : Nat) :
    ∀ members : List (List UInt8 × List UInt8),
      (joinMembers fmt depth members).length ≤
        (members.map fun m => m.2.length + m.1.length + 2 + if fmt then 2 + depth else 0).sum
  | [] => Nat.le_refl 0
  | (str, ret) :: members => by
    have hrest := length_joinMembers fmt depth members
    have hcomma : (if members = [] then [] else [(44 : UInt8)]).length ≤ 1 := by
      split <;> simp
    rw [List.map_cons, List.sum_cons]
    simp only [joinMembers, List.length_append, List.length_cons, length_tabs]
    cases fmt
    · simp only [Bool.false_eq_true, if_false, List.length_nil] at hrest ⊢
      omega
    · simp only [if_true, List.length_cons, List.length_nil] at hrest ⊢
      omega

theorem printArray_eq (fmt : Bool) {entries : List (List UInt8)} (hne : entries ≠ []) :
    printArray fmt entries = some (91 :: (joinEntries fmt entries ++ [93])) := by
  have hlen := length_joinEntries fmt entries
  rw [printArray, arraySize, if_neg hne, if_neg hne]
  refine stored_eq ?_
  simp only [List.length_cons, List.length_append, List.length_nil]
  omega

theorem printMembers_eq (fmt : Bool) (depth : Nat) {members : List (List UInt8 × List UInt8)}
    (hne : members ≠ []) :
    printMembers fmt depth members =
      some (123 :: (if fmt then [10] else []) ++ joinMembers fmt (depth + 1) members ++
        tabs fmt depth ++ [125]) := by
  have hlen := length_joinMembers fmt (depth + 1) members
  rw [printMembers, objectSize, if_neg hne, if_neg hne]
  refine stored_eq ?_
  simp only [List.length_cons, List.length_append, List.length_nil, length_tabs]
  cases fmt
  · simp only [Bool.false_eq_true, if_false, List.length_nil] at hlen ⊢
    omega
  · simp only [if_true, List.length_cons, List.length_nil] at hlen ⊢
    omega

theorem blank_tabs (fmt : Bool) (depth : Nat) : (tabs fmt depth).all isBlank = true := by
  cases fmt
  · rfl
  · rw [tabs, if_pos rfl, List.all_eq_true]
    intro b hb
    rw [(List.mem_replicate.mp hb).2]
    decide

theorem joinMembers_single (fmt : Bool) (depth : Nat) (str ret w : List UInt8) :
    joinMembers fmt depth [(str, ret)] ++ w =
      (tabs fmt depth ++ str) ++
        58 :: (tabs fmt 1 ++ (ret ++ ((if fmt then [10] else []) ++ w))) := by
  simp only [joinMembers, if_true, List.append_assoc, List.cons_append, List.nil_append]

theorem joinMembers_cons (fmt : Bool) (depth : Nat) (str ret w : List UInt8)
    {members : List (List UInt8 × List UInt8)} (hne : members ≠ []) :
    joinMembers fmt depth ((str, ret) :: members) ++ w =
      (tabs fmt depth ++ str) ++
        58 :: ((tabs fmt 1 ++ ret) ++
          44 :: ((if fmt then [10] else []) ++ (joinMembers fmt depth members ++ w))) := by
  simp only [joinMembers, if_neg hne, List.append_assoc, List.cons_append, List.nil_append]

theorem blank_newline (fmt : Bool) : (if fmt then [(10 : UInt8)] else []).all isBlank = true := by
  cases fmt <;> rfl

mutual

/-- What is printed at any depth, in either format, fits and denotes the value. -/
theorem printValue_denotes (fmt : Bool) (depth : Nat) : ∀ v : Json Int32, v.Strings (0 ∉ ·) →
    ∃ t, printValue fmt depth v = some t ∧ Denotes (v.map intDecimal) t
  | .null, _ => ⟨ascii "null", rfl, .null⟩
  | .bool true, _ => ⟨ascii "true", rfl, .true⟩
  | .bool false, _ => ⟨ascii "false", rfl, .false⟩
  | .number n, _ => printNumber_denotes n
  | .string s, hnul =>
    ⟨printStringPtr s, printString_eq hnul, .string (stringText_printStringPtr s)⟩
  | .array items, hnul => by
    obtain ⟨entries, hprint, hempty, hitems⟩ := printItems_denotes fmt (depth + 1) items hnul
    rw [printValue, hprint, Option.bind_some]
    by_cases hne : items = []
    · subst hne
      rw [hempty.mpr rfl]
      exact ⟨ascii "[]", rfl, .emptyArray (show [].all isBlank = true from rfl)⟩
    · exact ⟨_, printArray_eq fmt fun h => hne (hempty.mp h), .array (hitems hne)⟩
  | .object members, hnul => by
    obtain ⟨texts, hprint, hempty, hmembers⟩ := printEntries_denotes fmt (depth + 1) members hnul
    rw [printValue, hprint, Option.bind_some]
    by_cases hne : members = []
    · subst hne
      rw [hempty.mpr rfl]
      cases fmt
      · exact ⟨[123, 125], rfl, .emptyObject (show [].all isBlank = true from rfl)⟩
      · have hblank : (10 :: tabs true (depth - 1)).all isBlank = true := by
          rw [List.all_cons, blank_tabs]
          rfl
        refine ⟨123 :: ((10 :: tabs true (depth - 1)) ++ [125]), ?_, .emptyObject hblank⟩
        rw [printMembers, objectSize, if_pos rfl, if_pos rfl]
        refine stored_eq ?_
        simp only [if_true, List.length_append, List.length_cons, List.length_nil, length_tabs]
        omega
    · refine ⟨_, printMembers_eq fmt depth fun h => hne (hempty.mp h), ?_⟩
      have hlines := (hmembers hne (tabs fmt depth) (blank_tabs fmt depth)).lead (blank_newline fmt)
      have hobject := Denotes.object hlines
      rwa [← List.append_assoc, ← List.cons_append, ← List.cons_append] at hobject

theorem printItems_denotes (fmt : Bool) (depth : Nat) : ∀ items : List (Json Int32),
    ItemStrings (0 ∉ ·) items →
    ∃ entries, printItems fmt depth items = some entries ∧ (entries = [] ↔ items = []) ∧
      (items ≠ [] → DenotesItems (mapItems intDecimal items) (joinEntries fmt entries))
  | [], _ => ⟨[], rfl, ⟨fun _ => rfl, fun _ => rfl⟩, fun h => absurd rfl h⟩
  | v :: items, hnul => by
    obtain ⟨t, hprint, ht⟩ := printValue_denotes fmt depth v hnul.1
    obtain ⟨entries, hrest, hempty, hitems⟩ := printItems_denotes fmt depth items hnul.2
    refine ⟨t :: entries, ?_, by simp, fun _ => ?_⟩
    · rw [printItems, hprint, hrest]
      rfl
    · cases hentries : entries with
      | nil =>
        rw [hempty.mp hentries]
        exact .last ht (.refl t)
      | cons ret entries' =>
        have hne : items ≠ [] := fun h => by
          rw [hempty.mpr h] at hentries
          exact absurd hentries (by simp)
        have hsep : joinEntries fmt (t :: ret :: entries') =
            t ++ 44 :: ((if fmt then [32] else []) ++ joinEntries fmt (ret :: entries')) := by
          rw [joinEntries, separator]
          · cases fmt <;> simp
          · simp
        have hblank : (if fmt then [(32 : UInt8)] else []).all isBlank = true := by
          cases fmt <;> rfl
        rw [hsep, ← hentries]
        exact .cons ht (.refl t) ((hitems hne).lead hblank)

theorem printEntries_denotes (fmt : Bool) (depth : Nat) :
    ∀ members : List (List UInt8 × Json Int32), MemberStrings (0 ∉ ·) members →
    ∃ texts, printEntries fmt depth members = some texts ∧ (texts = [] ↔ members = []) ∧
      (members ≠ [] → ∀ w : List UInt8, w.all isBlank = true →
        DenotesMembers (mapMembers intDecimal members) (joinMembers fmt depth texts ++ w))
  | [], _ => ⟨[], rfl, ⟨fun _ => rfl, fun _ => rfl⟩, fun h => absurd rfl h⟩
  | (string, v) :: members, hnul => by
    obtain ⟨t, hprint, ht⟩ := printValue_denotes fmt depth v hnul.2.1
    obtain ⟨texts, hrest, hempty, hmembers⟩ := printEntries_denotes fmt depth members hnul.2.2
    have hname := stringText_printStringPtr string
    have hspaced : Spaced (printStringPtr string) (tabs fmt depth ++ printStringPtr string) :=
      (Spaced.refl _).lead (blank_tabs fmt depth)
    refine ⟨(printStringPtr string, t) :: texts, ?_, by simp, fun _ w hw => ?_⟩
    · rw [printEntries, printString_eq hnul.1, hprint, hrest]
      rfl
    · by_cases hne : members = []
      · have hend : ((if fmt then [(10 : UInt8)] else []) ++ w).all isBlank = true := by
          rw [List.all_append, blank_newline, hw]
          rfl
        rw [hempty.mpr hne, hne, joinMembers_single]
        exact .last hname hspaced ht ((Spaced.trail hend).lead (blank_tabs fmt 1))
      · rw [joinMembers_cons _ _ _ _ _ fun h => hne (hempty.mp h)]
        exact .cons hname hspaced ht ((Spaced.refl t).lead (blank_tabs fmt 1))
          ((hmembers hne w hw).lead (blank_newline fmt))

end

/-! ## Sizes -/

theorem printArray_some {fmt : Bool} {entries : List (List UInt8)} {t : List UInt8}
    (h : printArray fmt entries = some t) :
    t = if entries = [] then ascii "[]" else 91 :: (joinEntries fmt entries ++ [93]) :=
  (length_of_stored h).1

theorem printMembers_some {fmt : Bool} {depth : Nat} {members : List (List UInt8 × List UInt8)}
    {t : List UInt8} (h : printMembers fmt depth members = some t) :
    t = if members = [] then 123 :: (if fmt then 10 :: tabs fmt (depth - 1) else []) ++ [125]
      else 123 :: (if fmt then [10] else []) ++ joinMembers fmt (depth + 1) members ++
        tabs fmt depth ++ [125] :=
  (length_of_stored h).1

theorem length_formatInt_pos (n : Int) : 0 < (formatInt n).length := by
  have hdigits : 0 < (natText n.natAbs).length := by
    rw [natText, List.length_map]
    exact Nat.length_toDigits_pos
  unfold formatInt
  split
  · exact Nat.succ_pos _
  · exact hdigits

/-- No text is empty. -/
theorem length_pos_of_printValue {fmt : Bool} {depth : Nat} {v : Json Int32} {t : List UInt8}
    (h : printValue fmt depth v = some t) : 0 < t.length := by
  cases v with
  | null =>
    obtain ⟨rfl, -⟩ := length_of_stored h
    exact Nat.succ_pos _
  | bool b =>
    rw [printValue] at h
    split at h
    · obtain ⟨rfl, -⟩ := length_of_stored h
      exact Nat.succ_pos _
    · obtain ⟨rfl, -⟩ := length_of_stored h
      exact Nat.succ_pos _
  | number n =>
    obtain ⟨rfl, -⟩ := length_of_stored h
    split
    · exact Nat.succ_pos _
    · exact length_formatInt_pos n.toInt
  | string s =>
    obtain ⟨rfl, -⟩ := length_of_stored h
    split
    · rw [length_printStringPtr]
      exact Nat.succ_pos _
    · exact Nat.succ_pos _
  | array items =>
    rw [printValue] at h
    obtain ⟨entries, -, hout⟩ := Option.bind_eq_some_iff.mp h
    obtain rfl := printArray_some hout
    split
    · exact Nat.succ_pos _
    · exact Nat.succ_pos _
  | object members =>
    rw [printValue] at h
    obtain ⟨texts, -, hout⟩ := Option.bind_eq_some_iff.mp h
    obtain rfl := printMembers_some hout
    split
    · exact Nat.succ_pos _
    · rw [List.cons_append, List.cons_append, List.cons_append]
      exact Nat.succ_pos _

theorem length_le_joinEntries (fmt : Bool) {entries : List (List UInt8)} {ret : List UInt8}
    (h : ret ∈ entries) : ret.length ≤ (joinEntries fmt entries).length := by
  induction entries with
  | nil => exact absurd h List.not_mem_nil
  | cons first entries ih =>
    rw [joinEntries_cons, List.length_append]
    rcases List.mem_cons.mp h with rfl | hmem
    · omega
    · rw [if_neg (List.ne_nil_of_mem hmem), List.length_append]
      have := ih hmem
      omega

theorem length_le_joinMembers (fmt : Bool) (depth : Nat)
    {members : List (List UInt8 × List UInt8)} {m : List UInt8 × List UInt8}
    (h : m ∈ members) : m.1.length + m.2.length ≤ (joinMembers fmt depth members).length := by
  induction members with
  | nil => exact absurd h List.not_mem_nil
  | cons first members ih =>
    obtain ⟨str, ret⟩ := first
    simp only [joinMembers, List.length_append, List.length_cons]
    rcases List.mem_cons.mp h with rfl | hmem
    · dsimp only
      omega
    · have := ih hmem
      omega

/-- What the entries of an array add to its size is less than twice their text. -/
theorem sum_entries_le (fmt : Bool) {entries : List (List UInt8)}
    (hpos : ∀ ret ∈ entries, 0 < ret.length) :
    (entries.map fun ret => ret.length + 2 + if fmt then 1 else 0).sum ≤
      2 * (joinEntries fmt entries).length + 2 := by
  induction entries with
  | nil => exact Nat.zero_le _
  | cons ret entries ih =>
    obtain ⟨hret, hentries⟩ := List.forall_mem_cons.mp hpos
    have hrest := ih hentries
    have hflag : (if fmt then 1 else 0) ≤ 1 := by cases fmt <;> decide
    rw [List.map_cons, List.sum_cons, joinEntries_cons, List.length_append]
    by_cases hnil : entries = []
    · rw [if_pos hnil, hnil, List.map_nil, List.sum_nil]
      omega
    · rw [if_neg hnil, List.length_append, length_separator]
      omega

theorem arraySize_le {fmt : Bool} {entries : List (List UInt8)} {t : List UInt8}
    (hpos : ∀ ret ∈ entries, 0 < ret.length) (h : printArray fmt entries = some t) :
    arraySize fmt entries ≤ 2 * t.length + 21 := by
  have hsum := sum_entries_le fmt hpos
  obtain rfl := printArray_some h
  rw [arraySize]
  split
  · omega
  · simp only [List.length_cons, List.length_append, List.length_nil]
    omega

/-- What the entries of an object add to its size is what they take of its text, but for
the comma that the last one lacks. -/
theorem sum_members_le (fmt : Bool) (depth : Nat) (members : List (List UInt8 × List UInt8)) :
    (members.map fun m => m.2.length + m.1.length + 2 + if fmt then 2 + depth else 0).sum ≤
      (joinMembers fmt depth members).length + 1 := by
  induction members with
  | nil => exact Nat.zero_le _
  | cons m members ih =>
    obtain ⟨str, ret⟩ := m
    have hcomma : (if members = [] then [] else [(44 : UInt8)]).length =
        if members = [] then 0 else 1 := by split <;> rfl
    have hnil : members = [] → (joinMembers fmt depth members).length = 0 ∧
        (members.map fun m => m.2.length + m.1.length + 2 + if fmt then 2 + depth else 0).sum =
          0 := fun h => by
      subst h
      exact ⟨rfl, rfl⟩
    rw [List.map_cons, List.sum_cons]
    simp only [joinMembers, List.length_append, List.length_cons, length_tabs, hcomma]
    cases fmt
    · simp only [Bool.false_eq_true, if_false, List.length_nil] at ih hnil ⊢
      split
      · rename_i h
        have := hnil h
        omega
      · omega
    · simp only [if_true, List.length_cons, List.length_nil] at ih hnil ⊢
      split
      · rename_i h
        have := hnil h
        omega
      · omega

theorem objectSize_le {fmt : Bool} {depth : Nat} {members : List (List UInt8 × List UInt8)}
    {t : List UInt8} (h : printMembers fmt depth members = some t) :
    objectSize fmt depth members ≤ 2 * t.length + 21 := by
  have hsum := sum_members_le fmt (depth + 1) members
  obtain rfl := printMembers_some h
  rw [objectSize]
  split
  · cases fmt
    · simp only [Bool.false_eq_true, if_false]
      omega
    · simp only [if_true, List.length_append, List.length_cons, List.length_nil, length_tabs]
      omega
  · simp only [List.length_append, List.length_cons, List.length_nil, length_tabs]
    cases fmt
    · simp only [Bool.false_eq_true, if_false, List.length_nil] at hsum ⊢
      omega
    · simp only [if_true, List.length_cons, List.length_nil] at hsum ⊢
      omega

theorem stringSize_le {str t : List UInt8} (h : printString str = some t) :
    stringSize str ≤ 2 * t.length + 21 := by
  obtain ⟨rfl, -⟩ := length_of_stored h
  rw [stringSize]
  split
  · rw [length_printStringPtr]
    omega
  · simp only [List.length_cons, List.length_append, List.length_nil]
    omega

theorem numberSize_le (n : Int32) : numberSize n ≤ 21 := by
  rw [numberSize]
  split <;> omega

mutual

/-- No size that is computed on the way to a text exceeds twice its length by more than the
allowance for a number. -/
theorem sizes_le (fmt : Bool) (depth : Nat) : ∀ (v : Json Int32) {t : List UInt8},
    printValue fmt depth v = some t → ∀ n ∈ sizes fmt depth v, n ≤ 2 * t.length + 21
  | .null, t, _, n, hn => by
    have : n = 5 := List.mem_singleton.mp hn
    omega
  | .bool true, t, _, n, hn => by
    have : n = 5 := List.mem_singleton.mp hn
    omega
  | .bool false, t, _, n, hn => by
    have : n = 6 := List.mem_singleton.mp hn
    omega
  | .number k, t, _, n, hn => by
    have hsize : n = numberSize k := List.mem_singleton.mp hn
    have := numberSize_le k
    omega
  | .string s, t, h, n, hn => by
    have hsize : n = stringSize s := List.mem_singleton.mp hn
    rw [hsize]
    exact stringSize_le h
  | .array items, t, h, n, hn => by
    rw [printValue] at h
    obtain ⟨entries, hentries, hout⟩ := Option.bind_eq_some_iff.mp h
    rw [sizes, hentries, Option.map_some, Option.toList_some, List.mem_append,
      List.mem_singleton] at hn
    obtain ⟨hpos, hchildren⟩ := itemSizes_le fmt (depth + 1) items hentries
    rcases hn with hchild | rfl
    · obtain ⟨ret, hret, hle⟩ := hchildren n hchild
      have hinside := length_le_joinEntries fmt hret
      obtain rfl := printArray_some hout
      rw [if_neg (List.ne_nil_of_mem hret), List.length_cons, List.length_append]
      omega
    · exact arraySize_le hpos hout
  | .object members, t, h, n, hn => by
    rw [printValue] at h
    obtain ⟨texts, htexts, hout⟩ := Option.bind_eq_some_iff.mp h
    rw [sizes, htexts, Option.map_some, Option.toList_some, List.mem_append,
      List.mem_singleton] at hn
    rcases hn with hchild | rfl
    · obtain ⟨m, hm, hle⟩ := memberSizes_le fmt (depth + 1) members htexts n hchild
      have hinside := length_le_joinMembers fmt (depth + 1) hm
      obtain rfl := printMembers_some hout
      rw [if_neg (List.ne_nil_of_mem hm)]
      simp only [List.length_append, List.length_cons]
      omega
    · exact objectSize_le hout

theorem itemSizes_le (fmt : Bool) (depth : Nat) : ∀ (items : List (Json Int32))
    {entries : List (List UInt8)}, printItems fmt depth items = some entries →
      (∀ ret ∈ entries, 0 < ret.length) ∧
        ∀ n ∈ itemSizes fmt depth items, ∃ ret ∈ entries, n ≤ 2 * ret.length + 21
  | [], entries, h => by
    obtain rfl := Option.some.inj h
    exact ⟨fun ret hret => absurd hret List.not_mem_nil,
      fun n hn => absurd hn List.not_mem_nil⟩
  | v :: items, entries, h => by
    rw [printItems] at h
    obtain ⟨ret, hret, hrest⟩ := Option.bind_eq_some_iff.mp h
    obtain ⟨rets, hrets, rfl⟩ := Option.map_eq_some_iff.mp hrest
    obtain ⟨hpos, hchildren⟩ := itemSizes_le fmt depth items hrets
    refine ⟨List.forall_mem_cons.mpr ⟨length_pos_of_printValue hret, hpos⟩, fun n hn => ?_⟩
    rw [itemSizes, List.mem_append] at hn
    rcases hn with hfirst | hmore
    · exact ⟨ret, List.mem_cons_self, sizes_le fmt depth v hret n hfirst⟩
    · obtain ⟨ret', hret', hle⟩ := hchildren n hmore
      exact ⟨ret', List.mem_cons_of_mem ret hret', hle⟩

theorem memberSizes_le (fmt : Bool) (depth : Nat) :
    ∀ (members : List (List UInt8 × Json Int32)) {texts : List (List UInt8 × List UInt8)},
      printEntries fmt depth members = some texts → ∀ n ∈ memberSizes fmt depth members,
        ∃ m ∈ texts, n ≤ 2 * (m.1.length + m.2.length) + 21
  | [], texts, h, n, hn => absurd hn List.not_mem_nil
  | (string, v) :: members, texts, h, n, hn => by
    rw [printEntries] at h
    obtain ⟨str, hstr, hvalue⟩ := Option.bind_eq_some_iff.mp h
    obtain ⟨ret, hret, hrest⟩ := Option.bind_eq_some_iff.mp hvalue
    obtain ⟨rets, hrets, rfl⟩ := Option.map_eq_some_iff.mp hrest
    rw [memberSizes, List.mem_cons, List.mem_append] at hn
    rcases hn with rfl | hfirst | hmore
    · have hle := stringSize_le hstr
      refine ⟨(str, ret), List.mem_cons_self, ?_⟩
      dsimp only
      omega
    · have hle := sizes_le fmt depth v hret n hfirst
      refine ⟨(str, ret), List.mem_cons_self, ?_⟩
      dsimp only
      omega
    · obtain ⟨m, hm, hle⟩ := memberSizes_le fmt depth members hrets n hmore
      exact ⟨m, List.mem_cons_of_mem _ hm, hle⟩

end

/-! ## Round trip -/

/-- What `cJSON_Parse` makes of a printed text, wherever it stands in a larger one. -/
theorem parse_printValue (fmt : Bool) (depth : Nat) {v : Json Int32} (hnul : v.Strings (0 ∉ ·))
    {ptr : List UInt8} (hptr : Stops ptr) :
    ∃ t, printValue fmt depth v = some t ∧ parse (t ++ ptr) = .item (v.map intDecimal) ptr := by
  obtain ⟨t, hprint, ht⟩ := printValue_denotes fmt depth v hnul
  exact ⟨t, hprint, parse_denotes ht ((map_strings intDecimal _ v).mpr hnul) hptr⟩

end WowProxy.CJson
