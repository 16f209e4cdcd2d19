/-
  Common/CJsonBuffered.lean --- `cJSON_PrintBuffered` of `common/cJSON.c`, and that it
  prints what `cJSON_Print` does.

  One buffer grows as the text does.  A function writes at `offset`, behind what is there
  already, and whoever calls it finds the end of what it wrote by its terminator.  The
  bytes that `malloc` brings are arbitrary.  A write outside the buffer and an overflow
  of an `int` have no value.
-/
import WowProxy.Common.CJsonPrint
import WowProxy.Lib.CString

set_option autoImplicit false

namespace WowProxy.CJsonBuffered

open WowProxy.CJson
open WowProxy.Lib.CString
open WowProxy.Lib.JsonText

/-! ## From the source -/

/-- `printbuffer`: `length` is the number of bytes of the buffer. -/
structure PrintBuffer where
  buffer : List UInt8
  offset : Nat

/-- `INT_MAX` -/
def intMax : Nat := 2 ^ 31 - 1

/-- `pow2gt` -/
def pow2gt (x : Nat) : Nat :=
  let x := x - 1
  let x := x ||| x >>> 1
  let x := x ||| x >>> 2
  let x := x ||| x >>> 4
  let x := x ||| x >>> 8
  let x := x ||| x >>> 16
  x + 1

/-- A string and its terminator are written at `offset`. -/
def write (p : PrintBuffer) (text : List UInt8) : Option PrintBuffer :=
  if p.offset + text.length ≤ p.buffer.length then
    some { p with buffer :=
      p.buffer.take p.offset ++ text ++ p.buffer.drop (p.offset + text.length) }
  else none

/-- `update`: where the string at `offset` ends. -/
def update (p : PrintBuffer) : Option Nat :=
  (cstr (p.buffer.drop p.offset)).map fun str => p.offset + str.length

section Print

-- the bytes of a new allocation, for each size
variable (garbage : Nat → Nat → UInt8)

/-- `ensure`: room for `needed` bytes behind `offset`. -/
def ensure (p : PrintBuffer) (needed : Nat) : Option PrintBuffer :=
  let needed := needed + p.offset
  if intMax < needed then none
  else if needed ≤ p.buffer.length then some p
  else
    let newsize := pow2gt needed
    if intMax < newsize ∨ newsize < p.buffer.length then none
    else
      let newbuffer := (List.range newsize).map (garbage newsize)
      some { p with buffer := p.buffer ++ newbuffer.drop p.buffer.length }

/-- `ensure`, and a text written there. -/
def put (p : PrintBuffer) (needed : Nat) (text : List UInt8) : Option PrintBuffer :=
  (ensure garbage p needed).bind fun p => write p text

/-- `put`, behind which `offset` is advanced. -/
def putNext (p : PrintBuffer) (needed : Nat) (text : List UInt8) (len : Nat) :
    Option PrintBuffer :=
  (put garbage p needed text).map fun p => { p with offset := p.offset + len }

/-- A text of its own, with its terminator: what is returned points to it. -/
def putString (p : PrintBuffer) (needed : Nat) (text : List UInt8) :
    Option (Nat × PrintBuffer) :=
  (put garbage p needed (text ++ [0])).map fun q => (p.offset, q)

/-- `p->offset = update(p)`. -/
def advance (p : PrintBuffer) : Option PrintBuffer :=
  (update p).map fun offset => { p with offset }

/-- `print_number` of an `int`. -/
def printNumber (n : Int32) (p : PrintBuffer) : Option (Nat × PrintBuffer) :=
  if n = 0 then putString garbage p 2 (ascii "0")
  else putString garbage p 21 (formatInt n.toInt)

/-- `print_string_ptr` -/
def printString (str : List UInt8) (p : PrintBuffer) : Option (Nat × PrintBuffer) :=
  if str.any isFlagged then
    putString garbage p ((str.map escapeLength).sum + 3) (printStringPtr str)
  else putString garbage p (str.length + 3) (34 :: (str ++ [34]))

mutual

/-- `print_value(item, depth, fmt, p)`, with `print_array` and `print_object`.  The offset is
that of the pointer that is returned.  In `print_object` the variable that holds it counts
the tabs at the end, so that a formatted object returns its depth instead; this is the same
at the top level, and below it nobody looks at it. -/
def printValue (fmt : Bool) (depth : Nat) : Json Int32 → PrintBuffer → Option (Nat × PrintBuffer)
  | .null, p => putString garbage p 5 (ascii "null")
  | .bool b, p =>
    if b then putString garbage p 5 (ascii "true") else putString garbage p 6 (ascii "false")
  | .number n, p => printNumber garbage n p
  | .string s, p => printString garbage s p
  | .array items, p =>
    if items.isEmpty then putString garbage p 3 (ascii "[]")
    else
      (putNext garbage p 1 [91] 1).bind fun q =>
        (printItems fmt (depth + 1) items q).bind fun q =>
          (put garbage q 2 [93, 0]).map fun q => (p.offset, q)
  | .object members, p =>
    if members.isEmpty then
      putString garbage p (if fmt then depth + 4 else 3)
        (123 :: (if fmt then 10 :: tabs fmt (depth - 1) else []) ++ [125])
    else
      let len := if fmt then 2 else 1
      (putNext garbage p (len + 1) (123 :: (if fmt then [10] else []) ++ [0]) len).bind fun q =>
        (printMembers fmt (depth + 1) members q).bind fun q =>
          (put garbage q (if fmt then depth + 2 else 2) (tabs fmt depth ++ [125, 0])).map fun q =>
            (p.offset, q)
termination_by structural v => v

/-- The loop of `print_array` over its children. -/
def printItems (fmt : Bool) (depth : Nat) :
    List (Json Int32) → PrintBuffer → Option PrintBuffer
  | [], p => some p
  | v :: items, p =>
    (printValue fmt depth v p).bind fun r =>
      (advance r.2).bind fun p =>
        if items.isEmpty then some p
        else
          let len := if fmt then 2 else 1
          (putNext garbage p (len + 1) (separator fmt ++ [0]) len).bind fun p =>
            printItems fmt depth items p
termination_by structural items => items

/-- The loop of `print_object` over its children. -/
def printMembers (fmt : Bool) (depth : Nat) :
    List (List UInt8 × Json Int32) → PrintBuffer → Option PrintBuffer
  | [], p => some p
  | (string, v) :: members, p =>
    (if fmt then putNext garbage p depth (tabs fmt depth) depth else some p).bind fun p =>
    (printString garbage string p).bind fun r =>
    (advance r.2).bind fun p =>
    let len := if fmt then 2 else 1
    (putNext garbage p len (58 :: tabs fmt 1) len).bind fun p =>
    (printValue fmt depth v p).bind fun r =>
    (advance r.2).bind fun p =>
    let len := (if fmt then 1 else 0) + if members.isEmpty then 0 else 1
    (putNext garbage p (len + 1)
      ((if members.isEmpty then [] else [44]) ++ (if fmt then [10] else []) ++ [0]) len).bind
        fun p => printMembers fmt depth members p
termination_by structural members => members

end

/-- `cJSON_PrintBuffered`: where the string that is returned begins, and the buffer. -/
def printBuffered (item : Json Int32) (prebuffer : Nat) (fmt : Bool) :
    Option (Nat × PrintBuffer) :=
  printValue garbage fmt 0 item ⟨(List.range prebuffer).map (garbage prebuffer), 0⟩

end Print

/-! ## Room -/

/-- The string of a buffer in which a text is terminated. -/
theorem cstr_terminated {text : List UInt8} (hnul : 0 ∉ text) (rest : List UInt8) :
    cstr (text ++ 0 :: rest) = some text := by
  have hnul' : ∀ b ∈ text, decide (b ≠ 0) = true := fun b hb =>
    decide_eq_true fun h => hnul (h ▸ hb)
  rw [cstr, if_pos (List.mem_append_right _ List.mem_cons_self),
    List.takeWhile_append_of_pos hnul', List.takeWhile_cons]
  simp

/-- What the bits of a number are spread to, before one is added. -/
theorem le_pow2gt (x : Nat) : x ≤ pow2gt x := by
  have hor (y k : Nat) : y ≤ y ||| y >>> k := Nat.left_le_or
  have hle := ((((hor (x - 1) 1).trans (hor _ 2)).trans (hor _ 4)).trans (hor _ 8)).trans (hor _ 16)
  rw [pow2gt]
  omega

/-- Up to `2^30` the next power of two is an `int`. -/
theorem pow2gt_le {x : Nat} (h : x ≤ 2 ^ 30) : pow2gt x ≤ 2 ^ 30 := by
  have hor {y : Nat} (k : Nat) (hy : y < 2 ^ 30) : y ||| y >>> k < 2 ^ 30 :=
    Nat.or_lt_two_pow hy (Nat.lt_of_le_of_lt (Nat.shiftRight_le y k) hy)
  have hlt : x - 1 < 2 ^ 30 := by omega
  have hspread := hor 16 (hor 8 (hor 4 (hor 2 (hor 1 hlt))))
  rw [pow2gt]
  omega

/-- The text in front of `offset`. -/
def At (pre : List UInt8) (p : PrintBuffer) : Prop := p.offset = pre.length ∧ pre <+: p.buffer

/-- A string stands behind `pre`, with its terminator, and `offset` is in it or at its end. -/
def Writes (pre text : List UInt8) (q : PrintBuffer) : Prop :=
  pre.length ≤ q.offset ∧ q.offset ≤ pre.length + text.length ∧
    ∃ rest, q.buffer = pre ++ (text ++ 0 :: rest)

section Room

variable (garbage : Nat → Nat → UInt8) {pre : List UInt8} {p : PrintBuffer}

theorem ensure_spec (hp : At pre p) {needed : Nat} (hbound : pre.length + needed ≤ 2 ^ 30) :
    ∃ q, ensure garbage p needed = some q ∧ At pre q ∧
      pre.length + needed ≤ q.buffer.length := by
  obtain ⟨hoffset, hprefix⟩ := hp
  have hle := le_pow2gt (needed + p.offset)
  have hge := pow2gt_le (show needed + p.offset ≤ 2 ^ 30 by omega)
  have hmax : intMax = 2 ^ 31 - 1 := rfl
  rw [ensure]
  dsimp only
  rw [if_neg (by omega)]
  split
  · exact ⟨p, rfl, ⟨hoffset, hprefix⟩, by omega⟩
  · rw [if_neg (by omega)]
    refine ⟨_, rfl, ⟨hoffset, hprefix.trans (List.prefix_append _ _)⟩, ?_⟩
    rw [List.length_append, List.length_drop, List.length_map, List.length_range]
    omega

theorem put_spec (hp : At pre p) {needed : Nat} {text : List UInt8}
    (hbound : pre.length + needed ≤ 2 ^ 30) (htext : text.length ≤ needed) :
    ∃ q, put garbage p needed text = some q ∧ q.offset = pre.length ∧
      ∃ rest, q.buffer = pre ++ (text ++ rest) := by
  obtain ⟨q, hensure, ⟨hoffset, hprefix⟩, hroom⟩ := ensure_spec garbage hp hbound
  rw [put, hensure, Option.bind_some, write, if_pos (by omega)]
  refine ⟨_, rfl, hoffset, q.buffer.drop (q.offset + text.length), ?_⟩
  dsimp only
  rw [hoffset, ← List.prefix_iff_eq_take.mp hprefix, List.append_assoc]

theorem putNext_spec (hp : At pre p) (needed len : Nat) (text next tail : List UInt8)
    (hbound : pre.length + needed ≤ 2 ^ 30) (hroom : text.length ≤ needed)
    (htext : text = next ++ tail) (hlen : len = next.length) :
    ∃ q, putNext garbage p needed text len = some q ∧ At (pre ++ next) q := by
  obtain ⟨q, hput, hoffset, rest, hbuffer⟩ := put_spec garbage hp hbound hroom
  rw [putNext, hput, Option.map_some]
  refine ⟨_, rfl, ?_, ?_⟩
  · dsimp only
    rw [List.length_append, hoffset, hlen]
  · dsimp only
    rw [hbuffer, htext, List.append_assoc]
    exact (List.prefix_append_right_inj pre).mpr (List.prefix_append next _)

/-- A string whose end is written last. -/
theorem put_writes {body : List UInt8} (hp : At (pre ++ body) p) (needed : Nat)
    (text last : List UInt8) (hbound : (pre ++ body).length + needed ≤ 2 ^ 30)
    (hroom : text.length ≤ needed) (htext : text = last ++ [0]) :
    ∃ q, put garbage p needed text = some q ∧ Writes pre (body ++ last) q := by
  obtain ⟨q, hput, hoffset, rest, hbuffer⟩ := put_spec garbage hp hbound hroom
  rw [List.length_append] at hoffset
  refine ⟨q, hput, by omega, ?_, rest, ?_⟩
  · rw [hoffset, List.length_append]
    omega
  · rw [hbuffer, htext]
    simp only [List.append_assoc, List.singleton_append]

/-- What the plain printer can store is written. -/
theorem putString_spec (hp : At pre p) {needed : Nat} {text t : List UInt8}
    (ht : stored needed text = some t) (hbound : pre.length + needed ≤ 2 ^ 30) :
    ∃ q, putString garbage p needed text = some (pre.length, q) ∧ Writes pre t q := by
  rw [stored] at ht
  split at ht
  · rename_i hfits
    obtain rfl := Option.some.inj ht
    have hlength : (text ++ [0]).length ≤ needed := by
      rw [List.length_append, List.length_singleton]
      omega
    obtain ⟨q, hput, hoffset, rest, hbuffer⟩ := put_spec garbage hp hbound hlength
    rw [putString, hput, Option.map_some, hp.1]
    refine ⟨q, rfl, Nat.le_of_eq hoffset.symm, by omega, rest, ?_⟩
    rw [hbuffer, List.append_assoc, List.singleton_append]
  · exact absurd ht (by simp)

theorem advance_spec {text : List UInt8} {q : PrintBuffer} (hq : Writes pre text q)
    (hnul : 0 ∉ text) : ∃ q', advance q = some q' ∧ At (pre ++ text) q' := by
  obtain ⟨hlow, hhigh, rest, hbuffer⟩ := hq
  obtain ⟨k, hk⟩ : ∃ k, q.offset = pre.length + k := ⟨q.offset - pre.length, by omega⟩
  have hdrop : q.buffer.drop q.offset = text.drop k ++ 0 :: rest := by
    rw [hbuffer, hk, List.drop_length_add_append, List.drop_append_of_le_length (by omega)]
  have hcstr : cstr (q.buffer.drop q.offset) = some (text.drop k) := by
    rw [hdrop]
    exact cstr_terminated (fun h => hnul (List.mem_of_mem_drop h)) rest
  rw [advance, update, hcstr]
  refine ⟨_, rfl, ?_, ?_⟩
  · dsimp only
    rw [List.length_append, List.length_drop]
    omega
  · dsimp only
    rw [hbuffer]
    exact (List.prefix_append_right_inj pre).mpr (List.prefix_append text _)

end Room

/-! ## Trees -/

/-- A text is printed at `pre` if the plain printer has one that leaves room for the largest
allowance, which is that of a number. -/
def Fits (pre t : List UInt8) : Prop := pre.length + t.length + 21 ≤ 2 ^ 30

section Values

variable (garbage : Nat → Nat → UInt8) {pre : List UInt8} {p : PrintBuffer}

theorem printNumber_writes (hp : At pre p) {n : Int32} {t : List UInt8}
    (ht : CJson.printNumber n = some t) (hfits : Fits pre t) :
    ∃ q, printNumber garbage n p = some (pre.length, q) ∧ Writes pre t q := by
  rw [Fits] at hfits
  rw [CJson.printNumber, numberSize] at ht
  rw [printNumber]
  by_cases hzero : n = 0
  · rw [if_pos hzero, if_pos hzero] at ht
    rw [if_pos hzero]
    exact putString_spec garbage hp ht (by omega)
  · rw [if_neg hzero, if_neg hzero] at ht
    rw [if_neg hzero]
    exact putString_spec garbage hp ht (by omega)

theorem printString_writes (hp : At pre p) {str t : List UInt8}
    (ht : CJson.printString str = some t) (hfits : Fits pre t) :
    ∃ q, printString garbage str p = some (pre.length, q) ∧ Writes pre t q := by
  rw [Fits] at hfits
  rw [CJson.printString, stringSize] at ht
  rw [printString]
  by_cases hflag : str.any isFlagged = true
  · rw [if_pos hflag, if_pos hflag] at ht
    obtain ⟨rfl, -⟩ := length_of_stored ht
    rw [length_printStringPtr] at hfits
    rw [if_pos hflag]
    exact putString_spec garbage hp ht (by omega)
  · rw [if_neg hflag, if_neg hflag] at ht
    obtain ⟨rfl, -⟩ := length_of_stored ht
    rw [List.length_cons, List.length_append, List.length_singleton] at hfits
    rw [if_neg hflag]
    exact putString_spec garbage hp ht (by omega)

/-- There are as many texts as entries. -/
theorem printItems_eq_nil_iff {fmt : Bool} {depth : Nat} {items : List (Json Int32)}
    {entries : List (List UInt8)} (h : CJson.printItems fmt depth items = some entries) :
    entries = [] ↔ items = [] := by
  cases items with
  | nil =>
    obtain rfl := Option.some.inj h
    exact ⟨fun _ => rfl, fun _ => rfl⟩
  | cons v items =>
    rw [CJson.printItems] at h
    obtain ⟨ret, -, hrest⟩ := Option.bind_eq_some_iff.mp h
    obtain ⟨rets, -, rfl⟩ := Option.map_eq_some_iff.mp hrest
    exact ⟨fun h => absurd h (by simp), fun h => absurd h (by simp)⟩

theorem printEntries_eq_nil_iff {fmt : Bool} {depth : Nat}
    {members : List (List UInt8 × Json Int32)} {texts : List (List UInt8 × List UInt8)}
    (h : CJson.printEntries fmt depth members = some texts) : texts = [] ↔ members = [] := by
  cases members with
  | nil =>
    obtain rfl := Option.some.inj h
    exact ⟨fun _ => rfl, fun _ => rfl⟩
  | cons m members =>
    rw [CJson.printEntries] at h
    obtain ⟨str, -, hvalue⟩ := Option.bind_eq_some_iff.mp h
    obtain ⟨ret, -, hrest⟩ := Option.bind_eq_some_iff.mp hvalue
    obtain ⟨rets, -, rfl⟩ := Option.map_eq_some_iff.mp hrest
    exact ⟨fun h => absurd h (by simp), fun h => absurd h (by simp)⟩

/-- The tabs in front of a name. -/
theorem tabs_writes (hp : At pre p) (fmt : Bool) (depth : Nat)
    (hbound : pre.length + (tabs fmt depth).length ≤ 2 ^ 30) :
    ∃ q, (if fmt then putNext garbage p depth (tabs fmt depth) depth else some p) = some q ∧
      At (pre ++ tabs fmt depth) q := by
  have hlength := length_tabs fmt depth
  cases fmt with
  | false => exact ⟨p, rfl, by rwa [tabs, if_neg Bool.false_ne_true, List.append_nil]⟩
  | true =>
    rw [if_pos rfl] at hlength ⊢
    exact putNext_spec garbage hp depth depth _ _ [] (by omega) (Nat.le_of_eq hlength)
      (List.append_nil _).symm hlength.symm

/-- The brackets around the entries of an array. -/
theorem printArray_writes (hp : At pre p) (fmt : Bool) (depth : Nat) (v : Json Int32)
    (items : List (Json Int32)) (entries : List (List UInt8))
    (hfits : Fits pre (91 :: (joinEntries fmt entries ++ [93])))
    (hitems : ∀ {q : PrintBuffer}, At (pre ++ [91]) q →
      Fits (pre ++ [91]) (joinEntries fmt entries) →
      ∃ q₁, printItems garbage fmt (depth + 1) (v :: items) q = some q₁ ∧
        At (pre ++ [91] ++ joinEntries fmt entries) q₁) :
    ∃ q, printValue garbage fmt depth (.array (v :: items)) p = some (pre.length, q) ∧
      Writes pre (91 :: (joinEntries fmt entries ++ [93])) q := by
  simp only [Fits, List.length_cons, List.length_append, List.length_nil] at hfits
  obtain ⟨q, hopen, hq⟩ :=
    putNext_spec garbage hp 1 1 [91] [91] [] (by omega) (Nat.le_refl 1) rfl rfl
  obtain ⟨q₁, hentries, hq₁⟩ := hitems hq (by
    rw [Fits, List.length_append, List.length_singleton]
    omega)
  rw [List.append_assoc] at hq₁
  have hbound : (pre ++ ([91] ++ joinEntries fmt entries)).length + 2 ≤ 2 ^ 30 := by
    simp only [List.length_append, List.length_singleton]
    omega
  obtain ⟨q₂, hclose, hq₂⟩ := put_writes garbage hq₁ 2 [93, 0] [93] hbound (Nat.le_refl 2) rfl
  rw [printValue, if_neg (by simp), hopen, Option.bind_some, hentries, Option.bind_some, hclose,
    Option.map_some, hp.1]
  exact ⟨q₂, rfl, hq₂⟩

/-- What `fmt` adds at the end of a line. -/
theorem length_newline (fmt : Bool) :
    (if fmt then [(10 : UInt8)] else []).length = if fmt then 1 else 0 := by
  cases fmt <;> rfl

theorem printEmptyObject_writes (hp : At pre p) (fmt : Bool) (depth : Nat) {t : List UInt8}
    (ht : CJson.printMembers fmt depth [] = some t) (hfits : Fits pre t) :
    ∃ q, printValue garbage fmt depth (.object []) p = some (pre.length, q) ∧ Writes pre t q := by
  rw [Fits] at hfits
  have hstored : stored (if fmt then depth + 4 else 3)
      (123 :: (if fmt then 10 :: tabs fmt (depth - 1) else []) ++ [125]) = some t := ht
  rw [printValue, if_pos List.isEmpty_nil]
  refine putString_spec garbage hp hstored ?_
  obtain ⟨rfl, -⟩ := length_of_stored hstored
  cases fmt with
  | false =>
    simp only [Bool.false_eq_true, if_false, List.length_append, List.length_cons,
      List.length_nil] at hfits ⊢
    omega
  | true =>
    simp only [if_true, List.length_append, List.length_cons, List.length_nil,
      length_tabs] at hfits ⊢
    omega

/-- The braces around the members of an object, and the line ends and tabs beside them. -/
theorem printObject_writes (hp : At pre p) (fmt : Bool) (depth : Nat)
    (m : List UInt8 × Json Int32) (members : List (List UInt8 × Json Int32))
    (texts : List (List UInt8 × List UInt8))
    (hfits : Fits pre (123 :: (if fmt then [10] else []) ++ joinMembers fmt (depth + 1) texts ++
      tabs fmt depth ++ [125]))
    (hmembers : ∀ {q : PrintBuffer}, At (pre ++ 123 :: if fmt then [10] else []) q →
      Fits (pre ++ 123 :: if fmt then [10] else []) (joinMembers fmt (depth + 1) texts) →
      ∃ q₁, printMembers garbage fmt (depth + 1) (m :: members) q = some q₁ ∧
        At ((pre ++ 123 :: if fmt then [10] else []) ++ joinMembers fmt (depth + 1) texts) q₁) :
    ∃ q, printValue garbage fmt depth (.object (m :: members)) p = some (pre.length, q) ∧
      Writes pre (123 :: (if fmt then [10] else []) ++ joinMembers fmt (depth + 1) texts ++
        tabs fmt depth ++ [125]) q := by
  have hnl := length_newline fmt
  simp only [Fits, List.cons_append, List.length_cons, List.length_append, List.length_nil,
    length_tabs, hnl] at hfits
  have hlen : (if fmt then 2 else 1) = (123 :: if fmt then [(10 : UInt8)] else []).length := by
    cases fmt <;> rfl
  obtain ⟨q, hopen, hq⟩ := putNext_spec garbage hp ((if fmt then 2 else 1) + 1)
    (if fmt then 2 else 1) (123 :: (if fmt then [10] else []) ++ [0])
    (123 :: if fmt then [10] else []) [0] (by split <;> omega)
    (by rw [hlen, List.length_append, List.length_singleton]) rfl hlen
  obtain ⟨q₁, hmore, hq₁⟩ := hmembers hq (by
    rw [Fits, List.length_append, List.length_cons, hnl]
    omega)
  rw [List.append_assoc] at hq₁
  have hbound : (pre ++ ((123 :: if fmt then [10] else []) ++
      joinMembers fmt (depth + 1) texts)).length + (if fmt then depth + 2 else 2) ≤ 2 ^ 30 := by
    simp only [List.length_append, List.length_cons, hnl]
    cases fmt
    · simp only [Bool.false_eq_true, if_false] at hfits ⊢
      omega
    · simp only [if_true] at hfits ⊢
      omega
  have hroom : (tabs fmt depth ++ [125, 0]).length ≤ if fmt then depth + 2 else 2 := by
    rw [List.length_append, length_tabs]
    cases fmt
    · exact Nat.le_refl 2
    · exact Nat.le_refl (depth + 2)
  obtain ⟨q₂, hclose, hq₂⟩ := put_writes garbage hq₁ (if fmt then depth + 2 else 2)
    (tabs fmt depth ++ [125, 0]) (tabs fmt depth ++ [125]) hbound hroom
    (by rw [List.append_assoc]; rfl)
  rw [printValue, if_neg (by simp)]
  dsimp only
  rw [hopen, Option.bind_some, hmore, Option.bind_some, hclose, Option.map_some, hp.1]
  refine ⟨q₂, rfl, ?_⟩
  rw [List.append_assoc _ (tabs fmt depth)]
  exact hq₂

/-- The comma between two entries of an array. -/
theorem separator_writes (hp : At pre p) (fmt : Bool) (hbound : pre.length + 3 ≤ 2 ^ 30) :
    ∃ q, putNext garbage p ((if fmt then 2 else 1) + 1) (separator fmt ++ [0])
        (if fmt then 2 else 1) = some q ∧ At (pre ++ separator fmt) q := by
  have hlen : (if fmt then 2 else 1) = (separator fmt).length := by cases fmt <;> rfl
  exact putNext_spec garbage hp ((if fmt then 2 else 1) + 1) (if fmt then 2 else 1)
    (separator fmt ++ [0]) (separator fmt) [0] (by split <;> omega)
    (by rw [hlen, List.length_append, List.length_singleton]) rfl hlen

theorem length_colon (fmt : Bool) : (58 :: tabs fmt 1).length = if fmt then 2 else 1 := by
  cases fmt <;> rfl

/-- What stands in front of the value of a member: `k` is what goes on behind it. -/
theorem memberName_writes (hp : At pre p) (fmt : Bool) (depth : Nat) {string str : List UInt8}
    (hstr : CJson.printString string = some str) (hnul : 0 ∉ str)
    (hfits : Fits pre (tabs fmt depth ++ str ++ 58 :: tabs fmt 1)) :
    ∃ q, At (pre ++ tabs fmt depth ++ str ++ 58 :: tabs fmt 1) q ∧
      ∀ k : PrintBuffer → Option PrintBuffer,
        ((if fmt then putNext garbage p depth (tabs fmt depth) depth else some p).bind fun p =>
          (printString garbage string p).bind fun r =>
          (advance r.2).bind fun p =>
          (putNext garbage p (if fmt then 2 else 1) (58 :: tabs fmt 1)
            (if fmt then 2 else 1)).bind k) = k q := by
  have hcolon := length_colon fmt
  simp only [Fits, List.length_append, hcolon] at hfits
  obtain ⟨q, htabs, hq⟩ := tabs_writes garbage hp fmt depth (by omega)
  obtain ⟨q₁, hname, hq₁⟩ := printString_writes garbage hq hstr (by
    rw [Fits, List.length_append]
    omega)
  obtain ⟨q₂, hadvance, hq₂⟩ := advance_spec hq₁ hnul
  obtain ⟨q₃, hput, hq₃⟩ := putNext_spec garbage hq₂ (if fmt then 2 else 1)
    (if fmt then 2 else 1) (58 :: tabs fmt 1) (58 :: tabs fmt 1) []
    (by
      simp only [List.length_append]
      omega)
    (Nat.le_of_eq hcolon) (List.append_nil _).symm hcolon.symm
  refine ⟨q₃, hq₃, fun k => ?_⟩
  rw [htabs, Option.bind_some, hname, Option.bind_some, hadvance, Option.bind_some, hput,
    Option.bind_some]

/-- What stands behind the value of a member. -/
def memberEnd (fmt last : Bool) : List UInt8 :=
  (if last then [] else [44]) ++ if fmt then [10] else []

theorem length_memberEnd (fmt last : Bool) :
    (memberEnd fmt last).length = (if fmt then 1 else 0) + if last then 0 else 1 := by
  cases fmt <;> cases last <;> rfl

theorem memberEnd_writes (hp : At pre p) (fmt last : Bool)
    (hbound : pre.length + (memberEnd fmt last).length + 1 ≤ 2 ^ 30) :
    ∃ q, putNext garbage p ((if fmt then 1 else 0) + (if last then 0 else 1) + 1)
        ((if last then [] else [44]) ++ (if fmt then [10] else []) ++ [0])
        ((if fmt then 1 else 0) + if last then 0 else 1) = some q ∧
      At (pre ++ memberEnd fmt last) q := by
  have hlen := length_memberEnd fmt last
  exact putNext_spec garbage hp _ _ _ (memberEnd fmt last) [0] (by omega)
    (by
      show (memberEnd fmt last ++ [0]).length ≤ _
      rw [List.length_append, List.length_singleton, hlen]) rfl hlen.symm

mutual

/-- What the plain printer makes of a value is written into the buffer. -/
theorem printValue_writes (fmt : Bool) : ∀ (depth : Nat) (v : Json Int32) {pre : List UInt8}
    {p : PrintBuffer} {t : List UInt8}, At pre p → CJson.printValue fmt depth v = some t →
      0 ∉ t → Fits pre t →
      ∃ q, printValue garbage fmt depth v p = some (pre.length, q) ∧ Writes pre t q
  | depth, .null, pre, p, t, hp, ht, hnul, hfits => by
    rw [Fits] at hfits
    rw [printValue]
    exact putString_spec garbage hp ht (by omega)
  | depth, .bool b, pre, p, t, hp, ht, hnul, hfits => by
    rw [Fits] at hfits
    rw [printValue]
    cases b with
    | true => exact putString_spec garbage hp ht (by omega)
    | false => exact putString_spec garbage hp ht (by omega)
  | depth, .number n, pre, p, t, hp, ht, hnul, hfits => by
    rw [printValue]
    exact printNumber_writes garbage hp ht hfits
  | depth, .string s, pre, p, t, hp, ht, hnul, hfits => by
    rw [printValue]
    exact printString_writes garbage hp ht hfits
  | depth, .array [], pre, p, t, hp, ht, hnul, hfits => by
    rw [Fits] at hfits
    rw [printValue, if_pos List.isEmpty_nil]
    exact putString_spec garbage hp ht (by omega)
  | depth, .array (v :: items), pre, p, t, hp, ht, hnul, hfits => by
    rw [CJson.printValue] at ht
    obtain ⟨entries, hentries, hout⟩ := Option.bind_eq_some_iff.mp ht
    have hne : entries ≠ [] := fun h =>
      absurd ((printItems_eq_nil_iff hentries).mp h) (List.cons_ne_nil v items)
    rw [printArray_eq fmt hne] at hout
    obtain rfl := Option.some.inj hout
    simp only [List.mem_cons, List.mem_append, not_or] at hnul
    exact printArray_writes garbage hp fmt depth v items entries hfits fun hq hfits' =>
      printItems_writes fmt (depth + 1) (v :: items) hq hentries hnul.2.1 hfits'
  | depth, .object [], pre, p, t, hp, ht, hnul, hfits =>
    printEmptyObject_writes garbage hp fmt depth ht hfits
  | depth, .object (m :: members), pre, p, t, hp, ht, hnul, hfits => by
    rw [CJson.printValue] at ht
    obtain ⟨texts, htexts, hout⟩ := Option.bind_eq_some_iff.mp ht
    have hne : texts ≠ [] := fun h =>
      absurd ((printEntries_eq_nil_iff htexts).mp h) (List.cons_ne_nil m members)
    rw [printMembers_eq fmt depth hne] at hout
    obtain rfl := Option.some.inj hout
    have hnul' : 0 ∉ joinMembers fmt (depth + 1) texts := fun h => hnul (by simp [h])
    exact printObject_writes garbage hp fmt depth m members texts hfits fun hq hfits' =>
      printMembers_writes fmt (depth + 1) (m :: members) hq htexts hnul' hfits'

/-- And the entries of an array. -/
theorem printItems_writes (fmt : Bool) : ∀ (depth : Nat) (items : List (Json Int32))
    {pre : List UInt8} {p : PrintBuffer} {entries : List (List UInt8)}, At pre p →
      CJson.printItems fmt depth items = some entries → 0 ∉ joinEntries fmt entries →
      Fits pre (joinEntries fmt entries) →
      ∃ q, printItems garbage fmt depth items p = some q ∧ At (pre ++ joinEntries fmt entries) q
  | depth, [], pre, p, entries, hp, ht, hnul, hfits => by
    obtain rfl := Option.some.inj ht
    rw [printItems, joinEntries, List.append_nil]
    exact ⟨p, rfl, hp⟩
  | depth, v :: items, pre, p, entries, hp, ht, hnul, hfits => by
    rw [CJson.printItems] at ht
    obtain ⟨ret, hret, hrest⟩ := Option.bind_eq_some_iff.mp ht
    obtain ⟨rets, hrets, rfl⟩ := Option.map_eq_some_iff.mp hrest
    rw [joinEntries_cons] at hnul hfits ⊢
    have hnul' : 0 ∉ ret := fun h => hnul (List.mem_append_left _ h)
    have hret' : Fits pre ret := by
      rw [Fits, List.length_append] at hfits
      rw [Fits]
      omega
    obtain ⟨q, hprint, hq⟩ := printValue_writes fmt depth v hp hret hnul' hret'
    obtain ⟨q₁, hadvance, hq₁⟩ := advance_spec hq hnul'
    rw [printItems, hprint, Option.bind_some, hadvance, Option.bind_some]
    by_cases hempty : items = []
    · subst hempty
      obtain rfl := Option.some.inj hrets
      rw [if_pos rfl, List.append_nil]
      exact ⟨q₁, if_pos rfl, hq₁⟩
    · have hne : rets ≠ [] := fun h => hempty ((printItems_eq_nil_iff hrets).mp h)
      rw [if_neg hne] at hnul hfits ⊢
      simp only [Fits, List.length_append] at hfits
      simp only [List.mem_append, not_or] at hnul
      obtain ⟨q₂, hsep, hq₂⟩ := separator_writes garbage hq₁ fmt (by
        rw [List.length_append]
        omega)
      have hfits' : Fits (pre ++ ret ++ separator fmt) (joinEntries fmt rets) := by
        rw [Fits, List.length_append, List.length_append]
        omega
      obtain ⟨q₃, hitems, hq₃⟩ := printItems_writes fmt depth items hq₂ hrets hnul.2.2 hfits'
      rw [if_neg (by rwa [List.isEmpty_iff])]
      dsimp only
      rw [hsep, Option.bind_some, hitems]
      refine ⟨q₃, rfl, ?_⟩
      rw [List.append_assoc, List.append_assoc] at hq₃
      exact hq₃

/-- And the members of an object. -/
theorem printMembers_writes (fmt : Bool) : ∀ (depth : Nat)
    (members : List (List UInt8 × Json Int32)) {pre : List UInt8} {p : PrintBuffer}
    {texts : List (List UInt8 × List UInt8)}, At pre p →
      CJson.printEntries fmt depth members = some texts → 0 ∉ joinMembers fmt depth texts →
      Fits pre (joinMembers fmt depth texts) →
      ∃ q, printMembers garbage fmt depth members p = some q ∧
        At (pre ++ joinMembers fmt depth texts) q
  | depth, [], pre, p, texts, hp, ht, hnul, hfits => by
    obtain rfl := Option.some.inj ht
    rw [printMembers, joinMembers, List.append_nil]
    exact ⟨p, rfl, hp⟩
  | depth, (string, v) :: members, pre, p, texts, hp, ht, hnul, hfits => by
    rw [CJson.printEntries] at ht
    obtain ⟨str, hstr, hvalue⟩ := Option.bind_eq_some_iff.mp ht
    obtain ⟨ret, hret, hrest⟩ := Option.bind_eq_some_iff.mp hvalue
    obtain ⟨rets, hrets, rfl⟩ := Option.map_eq_some_iff.mp hrest
    have hjoin : joinMembers fmt depth ((str, ret) :: rets) =
        tabs fmt depth ++ str ++ 58 :: tabs fmt 1 ++ ret ++ memberEnd fmt members.isEmpty ++
          joinMembers fmt depth rets := by
      simp only [joinMembers, memberEnd, List.isEmpty_iff, printEntries_eq_nil_iff hrets,
        List.append_assoc]
    rw [hjoin] at hnul hfits ⊢
    simp only [Fits, List.length_append] at hfits
    simp only [List.mem_append, not_or] at hnul
    obtain ⟨q, hq, hname⟩ := memberName_writes garbage hp fmt depth hstr hnul.1.1.1.1.2 (by
      simp only [Fits, List.length_append]
      omega)
    obtain ⟨q₁, hprint, hq₁⟩ := printValue_writes fmt depth v hq hret hnul.1.1.2 (by
      simp only [Fits, List.length_append]
      omega)
    obtain ⟨q₂, hadvance, hq₂⟩ := advance_spec hq₁ hnul.1.1.2
    obtain ⟨q₃, hend, hq₃⟩ := memberEnd_writes garbage hq₂ fmt members.isEmpty (by
      simp only [List.length_append]
      omega)
    obtain ⟨q₄, hmore, hq₄⟩ := printMembers_writes fmt depth members hq₃ hrets hnul.2 (by
      simp only [Fits, List.length_append]
      omega)
    rw [printMembers]
    dsimp only
    rw [hname, hprint, Option.bind_some, hadvance, Option.bind_some, hend, Option.bind_some, hmore]
    refine ⟨q₄, rfl, ?_⟩
    simpa only [List.append_assoc] using hq₄

end

end Values

/-! ## The same text -/

/-- **`cJSON_PrintBuffered` writes the text that `cJSON_Print` does**, whatever the size of the
buffer it begins with and the bytes of the memory it gets: it never writes outside the
buffer, and the string that it returns is the whole allocation from its first byte on.  The
text leaves room for a number below `2^30`, behind which the sizes are not ints. -/
theorem printBuffered_eq (garbage : Nat → Nat → UInt8) (item : Json Int32) (prebuffer : Nat)
    (fmt : Bool) {t : List UInt8} (ht : CJson.printValue fmt 0 item = some t)
    (hnul : item.Strings (0 ∉ ·)) (hsmall : t.length + 21 ≤ 2 ^ 30) :
    ∃ p, printBuffered garbage item prebuffer fmt = some (0, p) ∧ cstr p.buffer = some t := by
  obtain ⟨t', ht', hdenotes⟩ := printValue_denotes fmt 0 item hnul
  obtain rfl := Option.some.inj (ht.symm.trans ht')
  have hzero : 0 ∉ t := hdenotes.zero_notMem
  obtain ⟨p, hprint, -, -, rest, hbuffer⟩ := printValue_writes garbage fmt 0 item
    (show At [] ⟨(List.range prebuffer).map (garbage prebuffer), 0⟩ from
      ⟨rfl, List.nil_prefix⟩) ht hzero (by rw [Fits, List.length_nil]; omega)
  refine ⟨p, hprint, ?_⟩
  rw [hbuffer, List.nil_append]
  exact cstr_terminated hzero rest

/-- An object with an array, formatted into a buffer of five bytes. -/
theorem printBuffered_eq_nested :
    ∃ p, printBuffered (fun _ _ => 255)
        (.object [(ascii "a", .array [.number 7, .string (ascii "b")])]) 5 true = some (0, p) ∧
      cstr p.buffer = some (ascii "\x7b\n\t\"a\":\t[7, \"b\"]\n\x7d") := by
  have hstring : (0 : UInt8) ∉ ascii "b" := by decide
  exact printBuffered_eq _ _ 5 true (by decide)
    ⟨by decide, ⟨trivial, hstring, trivial⟩, trivial⟩ (by decide)

end WowProxy.CJsonBuffered
