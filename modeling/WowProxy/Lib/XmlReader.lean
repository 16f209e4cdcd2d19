/-
  Lib/XmlReader.lean --- what a reader of XML makes of a byte string: its items, and
  the texts of the elements of one name.

  The reader works on bytes.  Character data comes one character at a time, with line
  breaks, references and CDATA sections as an application sees them.  Attributes are
  passed over.  Everything that decides where a text ends is here: what an item may
  contain, which items nest, and which bytes are characters at all.
-/
import Mathlib.Tactic.SplitIfs
import WowProxy.Lib.Text
import WowProxy.Lib.Utf8

set_option autoImplicit false

namespace WowProxy.Lib.XmlReader

open WowProxy.Lib.Text

/-- A byte string. -/
abbrev Bytes : Type := List UInt8

/-! ## Items -/

/-- A piece of a document. -/
inductive Item where
  /-- character data, as an application sees it -/
  | data (bytes : Bytes)
  /-- a start tag -/
  | start (name : Bytes)
  /-- an end tag -/
  | stop (name : Bytes)
  /-- the tag of an empty element -/
  | empty (name : Bytes)
  /-- a comment, a processing instruction or the declaration -/
  | other
  deriving DecidableEq, Repr

/-- The character data of an item. -/
def Item.bytes : Item → Bytes
  | data bytes => bytes
  | _ => []

/-- White space between tags and in them. -/
def isBlank (b : UInt8) : Bool := b == 32 || b == 9 || b == 10 || b == 13

/-- The first byte of a name. -/
def isNameStart (b : UInt8) : Bool :=
  (65 ≤ b && b ≤ 90) || (97 ≤ b && b ≤ 122) || b == 95 || b == 58 || 128 ≤ b

/-- A byte of a name. -/
def isNameChar (b : UInt8) : Bool :=
  isNameStart b || (48 ≤ b && b ≤ 57) || b == 45 || b == 46

/-- A name and what stands behind it. -/
def readName : Bytes → Option (Bytes × Bytes)
  | [] => none
  | b :: s =>
    if isNameStart b then some ((b :: s).takeWhile isNameChar, (b :: s).dropWhile isNameChar)
    else none

/-! ## Tags -/

/-- Where a reader of a start tag is, behind its name. -/
inductive TagState where
  /-- behind a name or a value -/
  | closed
  /-- behind white space -/
  | gap
  /-- in the name of an attribute -/
  | attribute
  /-- in front of the equals sign -/
  | equals
  /-- in front of the value -/
  | value
  /-- in a value that ends with this quote -/
  | quoted (quote : UInt8)
  /-- behind the slash of an empty element -/
  | slash
  deriving DecidableEq, Repr

/-- A byte in a start tag: the next state, or the end of the tag and whether the element
is empty. -/
def tagStep : TagState → UInt8 → Option (Sum TagState Bool)
  | .closed, b =>
    if b = 62 then some (.inr false)
    else if b = 47 then some (.inl .slash)
    else if isBlank b then some (.inl .gap)
    else none
  | .gap, b =>
    if b = 62 then some (.inr false)
    else if b = 47 then some (.inl .slash)
    else if isBlank b then some (.inl .gap)
    else if isNameStart b then some (.inl .attribute)
    else none
  | .attribute, b =>
    if isNameChar b then some (.inl .attribute)
    else if b = 61 then some (.inl .value)
    else if isBlank b then some (.inl .equals)
    else none
  | .equals, b =>
    if b = 61 then some (.inl .value)
    else if isBlank b then some (.inl .equals)
    else none
  | .value, b =>
    if b = 34 ∨ b = 39 then some (.inl (.quoted b))
    else if isBlank b then some (.inl .value)
    else none
  | .quoted quote, b =>
    if b = 60 then none
    else if b = quote then some (.inl .closed)
    else some (.inl (.quoted quote))
  | .slash, b => if b = 62 then some (.inr true) else none

/-- The rest of a start tag: whether the element is empty, and what stands behind. -/
def tagEnd : TagState → Bytes → Option (Bool × Bytes)
  | _, [] => none
  | st, b :: s =>
    match tagStep st b with
    | none => none
    | some (.inl next) => tagEnd next s
    | some (.inr isEmpty) => some (isEmpty, s)

/-- The rest of an end tag. -/
def stopEnd : Bytes → Option Bytes
  | [] => none
  | b :: s => if b = 62 then some s else if isBlank b then stopEnd s else none

/-! ## References -/

/-- The value of a digit. -/
def digitValue (base : Nat) (b : UInt8) : Option Nat :=
  let n := b.toNat
  let value := if 48 ≤ n ∧ n ≤ 57 then n - 48
    else if 97 ≤ n ∧ n ≤ 102 then n - 87
    else if 65 ≤ n ∧ n ≤ 70 then n - 55
    else base
  if value < base then some value else none

/-- The UTF-8 bytes of a character that XML allows. -/
def encode (n : Nat) : Option Bytes :=
  if n = 9 ∨ n = 10 ∨ n = 13 ∨ (32 ≤ n ∧ n < 0x80) then some [UInt8.ofNat n]
  else if 0x80 ≤ n ∧ n < 0x800 then
    some [UInt8.ofNat (0xC0 + n / 64), UInt8.ofNat (0x80 + n % 64)]
  else if 0x800 ≤ n ∧ n < 0x10000 ∧ ¬ (0xD800 ≤ n ∧ n < 0xE000) ∧ n ≠ 0xFFFE ∧ n ≠ 0xFFFF then
    some [UInt8.ofNat (0xE0 + n / 4096), UInt8.ofNat (0x80 + n / 64 % 64),
      UInt8.ofNat (0x80 + n % 64)]
  else if 0x10000 ≤ n ∧ n < 0x110000 then
    some [UInt8.ofNat (0xF0 + n / 262144), UInt8.ofNat (0x80 + n / 4096 % 64),
      UInt8.ofNat (0x80 + n / 64 % 64), UInt8.ofNat (0x80 + n % 64)]
  else none

/-- A character reference. -/
def charRef (base : Nat) (digits : Bytes) : Option Bytes :=
  if digits = [] then none
  else (digits.foldlM (fun n b => (digitValue base b).map (base * n + ·)) 0).bind encode

/-- The entities that need no declaration: `lt`, `gt`, `amp`, `apos` and `quot`. -/
def entities : List (Bytes × UInt8) :=
  [([108, 116], 60), ([103, 116], 62), ([97, 109, 112], 38), ([97, 112, 111, 115], 39),
    ([113, 117, 111, 116], 34)]

/-- What a reference stands for, by the text between its first and last byte. -/
def replacement (name : Bytes) : Option Bytes :=
  match name with
  | 35 :: 120 :: digits => charRef 16 digits
  | 35 :: digits => charRef 10 digits
  | _ => (entities.lookup name).map ([·])

/-- A reference, behind its ampersand. -/
def readReference (s : Bytes) : Option (Item × Bytes) :=
  let isRefChar := fun b => isNameChar b || b == 35
  match s.dropWhile isRefChar with
  | 59 :: rest => (replacement (s.takeWhile isRefChar)).map fun bytes => (.data bytes, rest)
  | _ => none

/-! ## Markup -/

/-- `--` -/
def commentEnd : Bytes := [45, 45]

/-- `]]>` -/
def cdataEnd : Bytes := [93, 93, 62]

/-- `?>` -/
def instructionEnd : Bytes := [63, 62]

/-- Line breaks as an application sees them. -/
def lineBreaks : Bool → Bytes → Bytes
  | _, [] => []
  | afterCr, b :: s =>
    if b = 13 then 10 :: lineBreaks true s
    else if afterCr ∧ b = 10 then lineBreaks false s
    else b :: lineBreaks false s

/-- A comment, behind `<!--`. -/
def readComment (s : Bytes) : Option (Item × Bytes) :=
  match search commentEnd s with
  | some (_ :: _ :: 62 :: rest) => some (.other, rest)
  | _ => none

/-- A CDATA section, behind `<![CDATA[`. -/
def readCdata (s : Bytes) : Option (Item × Bytes) :=
  (search cdataEnd s).map fun t =>
    (.data (lineBreaks false (s.take (s.length - t.length))), t.drop 3)

/-- A processing instruction or the declaration, behind `<?`. -/
def readInstruction (s : Bytes) : Option (Item × Bytes) :=
  (search instructionEnd s).map fun t => (.other, t.drop 2)

/-- An end tag, behind `</`. -/
def readStop (s : Bytes) : Option (Item × Bytes) :=
  (readName s).bind fun (name, s) => (stopEnd s).map fun rest => (.stop name, rest)

/-- A start tag, behind `<`. -/
def readStart (s : Bytes) : Option (Item × Bytes) :=
  (readName s).bind fun (name, s) =>
    (tagEnd .closed s).map fun (isEmpty, rest) =>
      (if isEmpty then .empty name else .start name, rest)

/-- `!--` -/
def commentStart : Bytes := [33, 45, 45]

/-- `![CDATA[` -/
def cdataStart : Bytes := [33, 91, 67, 68, 65, 84, 65, 91]

/-- Markup, behind `<`. -/
def readMarkup (s : Bytes) : Option (Item × Bytes) :=
  if commentStart <+: s then readComment (s.drop 3)
  else if cdataStart <+: s then readCdata (s.drop 8)
  else
    match s with
    | [] => none
    | b :: rest =>
      if b = 63 then readInstruction rest
      else if b = 47 then readStop rest
      else readStart s

/-- The first item of a text, and what stands behind it. -/
def item : Bytes → Option (Item × Bytes)
  | [] => none
  | b :: s =>
    if b = 60 then readMarkup s
    else if b = 38 then readReference s
    else if b = 13 then some (.data [10], if s.head? = some 10 then s.tail else s)
    else if cdataEnd <+: b :: s then none
    else some (.data [b], s)

/-- The text is made of these items. -/
inductive Lexes : Bytes → List Item → Prop where
  | nil : Lexes [] []
  | cons {s rest : Bytes} {i : Item} {is : List Item} (hitem : item s = some (i, rest))
      (hrest : Lexes rest is) : Lexes s (i :: is)

/-- The items of a text of at most `fuel` of them. -/
def items : Nat → Bytes → Option (List Item)
  | _, [] => some []
  | 0, _ :: _ => none
  | fuel + 1, s =>
    match item s with
    | none => none
    | some (i, rest) => (items fuel rest).map (i :: ·)

/-! ## Elements -/

/-- What a reader knows in the middle of a document. -/
structure Reading where
  /-- the open elements, innermost first, each with the character data in it so far -/
  stack : List (Bytes × Bytes)
  /-- the texts of the closed elements of the name that is looked for -/
  found : List Bytes
  /-- the root element has begun -/
  rooted : Bool
  deriving DecidableEq, Repr

/-- One item.  Elements nest, and there is one root. -/
def Reading.next (name : Bytes) (st : Reading) : Item → Option Reading
  | .other => some st
  | .data bytes =>
    match st.stack with
    | [] => if bytes.all isBlank then some st else none
    | (n, text) :: outer => some { st with stack := (n, text ++ bytes) :: outer }
  | .start n =>
    if st.stack = [] ∧ st.rooted = true then none
    else some { st with stack := (n, []) :: st.stack, rooted := true }
  | .empty n =>
    if st.stack = [] ∧ st.rooted = true then none
    else some { st with
      found := st.found ++ (if n = name then [[]] else []), rooted := true }
  | .stop n =>
    match st.stack with
    | [] => none
    | (m, text) :: outer =>
      if m = n then
        some { st with stack := outer, found := st.found ++ (if n = name then [text] else []) }
      else none

/-- The items of a document, one after the other. -/
def Reading.read (name : Bytes) (st : Reading) (is : List Item) : Option Reading :=
  is.foldlM (Reading.next name) st

/-- In front of a document. -/
def Reading.before : Reading := { stack := [], found := [], rooted := false }

/-- The texts of the elements of a name, if the document is well formed. -/
def elementTexts (name doc : Bytes) : Option (List Bytes) :=
  if Utf8.valid doc then
    match (items doc.length doc).bind (Reading.before.read name) with
    | none => none
    | some st => if st.stack = [] ∧ st.rooted = true then some st.found else none
  else none

example : elementTexts [97] [60, 98, 62, 60, 97, 62, 38, 108, 116, 59, 60, 47, 97, 62, 60, 47, 98,
    62] = some [[60]] := by
  decide +kernel

/-! ## What an item takes -/

theorem readName_split {s name rest : Bytes} (h : readName s = some (name, rest)) :
    s = name ++ rest ∧ name ≠ [] ∧ (60 : UInt8) ∉ name := by
  cases s with
  | nil => exact absurd h (by simp [readName])
  | cons b s =>
    rw [readName] at h
    split at h
    · rename_i hstart
      obtain ⟨rfl, rfl⟩ := Prod.mk.inj (Option.some.inj h)
      refine ⟨(List.takeWhile_append_dropWhile).symm, ?_, fun hmem => ?_⟩
      · have hchar : isNameChar b = true := by simp [isNameChar, hstart]
        simp [hchar]
      · exact absurd (List.mem_takeWhile_imp hmem) (by decide)
    · exact absurd h (by simp)

theorem tagStep_lt (st : TagState) : tagStep st 60 = none := by
  cases st <;> rfl

theorem tagEnd_split {s rest : Bytes} {st : TagState} {isEmpty : Bool}
    (h : tagEnd st s = some (isEmpty, rest)) : ∃ used, s = used ++ rest ∧ (60 : UInt8) ∉ used := by
  induction s generalizing st with
  | nil => exact absurd h (by simp [tagEnd])
  | cons b s ih =>
    have hb : b ≠ 60 := by
      rintro rfl
      rw [tagEnd, tagStep_lt] at h
      exact absurd h (by simp)
    rw [tagEnd] at h
    split at h
    · exact absurd h (by simp)
    · obtain ⟨used, hs, hnot⟩ := ih h
      refine ⟨b :: used, by rw [hs]; rfl, ?_⟩
      simp [hb.symm, hnot]
    · obtain ⟨-, rfl⟩ := Prod.mk.inj (Option.some.inj h)
      exact ⟨[b], rfl, by simp [hb.symm]⟩

theorem stopEnd_split {s rest : Bytes} (h : stopEnd s = some rest) :
    ∃ used, s = used ++ rest ∧ (60 : UInt8) ∉ used := by
  induction s with
  | nil => exact absurd h (by simp [stopEnd])
  | cons b s ih =>
    rw [stopEnd] at h
    split at h
    · rename_i hb
      obtain rfl := Option.some.inj h
      exact ⟨[b], rfl, by simp [hb]⟩
    · split at h
      · rename_i hblank
        obtain ⟨used, hs, hnot⟩ := ih h
        have hb : b ≠ 60 := by
          rintro rfl
          exact absurd hblank (by decide)
        refine ⟨b :: used, by rw [hs]; rfl, ?_⟩
        simp [hb.symm, hnot]
      · exact absurd h (by simp)

/-- A character is at most four bytes. -/
theorem length_encode {n : Nat} {bytes : Bytes} (h : encode n = some bytes) :
    bytes.length ≤ 4 ∧ (n < 10 → bytes.length ≤ 1) := by
  unfold encode at h
  split_ifs at h <;> obtain rfl := Option.some.inj h <;> simp <;> omega

/-- A character reference is longer than its character. -/
theorem length_charRef_ten {digits bytes : Bytes} (h : charRef 10 digits = some bytes) :
    bytes.length < digits.length + 3 := by
  unfold charRef at h
  split at h
  · exact absurd h (by simp)
  · obtain ⟨n, hn, hbytes⟩ := Option.bind_eq_some_iff.mp h
    have hlength := length_encode hbytes
    match digits, hn with
    | [b], hn =>
      have hsmall : n < 10 := by
        rw [List.foldlM_cons] at hn
        obtain ⟨first, hfirst, hrest⟩ := Option.bind_eq_some_iff.mp hn
        obtain rfl := Option.some.inj hrest
        obtain ⟨value, hvalue, rfl⟩ := Option.map_eq_some_iff.mp hfirst
        simp only [digitValue] at hvalue
        split_ifs at hvalue
        all_goals
          obtain rfl := Option.some.inj hvalue
          omega
      have := hlength.2 hsmall
      simp only [List.length_cons, List.length_nil]
      omega
    | _ :: _ :: _, _ =>
      simp only [List.length_cons]
      omega

theorem length_charRef_sixteen {digits bytes : Bytes} (h : charRef 16 digits = some bytes) :
    bytes.length < digits.length + 4 := by
  unfold charRef at h
  split at h
  · exact absurd h (by simp)
  · rename_i hne
    obtain ⟨n, -, hbytes⟩ := Option.bind_eq_some_iff.mp h
    have hlength := (length_encode hbytes).1
    have := List.length_pos_iff.mpr hne
    omega

/-- A reference is longer than what it stands for. -/
theorem length_replacement {name bytes : Bytes} (h : replacement name = some bytes) :
    bytes.length < name.length + 2 := by
  unfold replacement at h
  split at h
  · have := length_charRef_sixteen h
    simp only [List.length_cons]
    omega
  · have := length_charRef_ten h
    simp only [List.length_cons]
    omega
  · obtain ⟨b, -, rfl⟩ := Option.map_eq_some_iff.mp h
    simp

theorem length_lineBreaks (afterCr : Bool) (s : Bytes) :
    (lineBreaks afterCr s).length ≤ s.length := by
  induction s generalizing afterCr with
  | nil => exact Nat.le_refl 0
  | cons b s ih =>
    rw [lineBreaks]
    split_ifs
    · have := ih true
      simp only [List.length_cons]
      omega
    · have := ih false
      simp only [List.length_cons]
      omega
    · have := ih false
      simp only [List.length_cons]
      omega

/-- The ends of the markup that may contain a `<`. -/
def terminators : List Bytes := [commentEnd ++ [62], cdataEnd, instructionEnd]

/-- No `<` behind the first byte, unless the item ends in a terminator. -/
def Contained (used : Bytes) : Prop :=
  (60 : UInt8) ∉ used.tail ∨ ∃ t ∈ terminators, t <:+ used

/-- What an item takes from the text. -/
structure Takes (i : Item) (used : Bytes) : Prop where
  nonempty : used ≠ []
  contained : Contained used
  /-- the character data is no longer than the text of the item -/
  length_le : i.bytes.length ≤ used.length
  /-- and is this text only where it is one plain byte -/
  plain : i.bytes = used → ∃ b, used = [b] ∧ b ≠ 60 ∧ b ≠ 38 ∧ b ≠ 13

theorem Takes.of_length_lt {i : Item} {used : Bytes} (hcontained : Contained used)
    (hlength : i.bytes.length < used.length) : Takes i used where
  nonempty := by
    rintro rfl
    exact absurd hlength (Nat.not_lt_zero _)
  contained := hcontained
  length_le := hlength.le
  plain heq := by
    rw [heq] at hlength
    exact absurd hlength (Nat.lt_irrefl _)

theorem Contained.of_not_mem {b : UInt8} {used : Bytes} (h : (60 : UInt8) ∉ used) :
    Contained (b :: used) :=
  Or.inl h

theorem readReference_takes {s rest : Bytes} {i : Item} (h : readReference s = some (i, rest)) :
    ∃ used, s = used ++ rest ∧ Takes i (38 :: used) := by
  unfold readReference at h
  dsimp only at h
  split at h
  · rename_i hdrop
    obtain ⟨bytes, hbytes, heq⟩ := Option.map_eq_some_iff.mp h
    obtain ⟨rfl, rfl⟩ := Prod.mk.inj heq
    have hlength := length_replacement hbytes
    refine ⟨s.takeWhile (fun b => isNameChar b || b == 35) ++ [59], ?_,
      Takes.of_length_lt (Contained.of_not_mem ?_) ?_⟩
    · rw [List.append_assoc, List.singleton_append, ← hdrop, List.takeWhile_append_dropWhile]
    · rw [List.mem_append, not_or]
      exact ⟨fun hmem => absurd (List.mem_takeWhile_imp hmem) (by decide), by decide⟩
    · simp only [Item.bytes, List.length_cons, List.length_append, List.length_nil]
      omega
  · exact absurd h (by simp)

/-- Markup that ends in a terminator. -/
theorem Takes.of_terminator {i : Item} {front pre t : Bytes} (ht : t ∈ terminators)
    (hfront : front ≠ []) (hlength : i.bytes.length ≤ pre.length) :
    Takes i (front ++ (pre ++ t)) := by
  refine Takes.of_length_lt (Or.inr ⟨t, ht, ?_⟩) ?_
  · rw [← List.append_assoc]
    exact List.suffix_append _ t
  · have := List.length_pos_iff.mpr hfront
    simp only [List.length_append]
    omega

theorem readComment_takes {s rest front : Bytes} {i : Item} (hfront : front ≠ [])
    (h : readComment s = some (i, rest)) :
    ∃ used, s = used ++ rest ∧ Takes i (front ++ used) := by
  unfold readComment at h
  split at h
  · rename_i b c rest' hsearch
    obtain ⟨rfl, rfl⟩ := Prod.mk.inj (Option.some.inj h)
    obtain ⟨pre, behind, hs, ht⟩ := search_eq_some hsearch
    obtain ⟨rfl, htail⟩ := List.cons.inj ht
    obtain ⟨rfl, -⟩ := List.cons.inj htail
    refine ⟨pre ++ (commentEnd ++ [62]), ?_, Takes.of_terminator List.mem_cons_self hfront ?_⟩
    · rw [hs, List.append_assoc]
      rfl
    · exact Nat.zero_le _
  · exact absurd h (by simp)

theorem readCdata_takes {s rest front : Bytes} {i : Item} (hfront : front ≠ [])
    (h : readCdata s = some (i, rest)) :
    ∃ used, s = used ++ rest ∧ Takes i (front ++ used) := by
  obtain ⟨t, hsearch, heq⟩ := Option.map_eq_some_iff.mp h
  obtain ⟨rfl, rfl⟩ := Prod.mk.inj heq
  obtain ⟨pre, behind, rfl, rfl⟩ := search_eq_some hsearch
  have hlength : (lineBreaks false ((pre ++ (cdataEnd ++ behind)).take
      ((pre ++ (cdataEnd ++ behind)).length - (cdataEnd ++ behind).length))).length ≤
      pre.length := by
    refine (length_lineBreaks false _).trans ?_
    simp only [List.length_take, List.length_append]
    omega
  refine ⟨pre ++ cdataEnd, by rw [List.append_assoc]; rfl, Takes.of_terminator ?_ hfront hlength⟩
  exact List.mem_cons_of_mem _ List.mem_cons_self

theorem readInstruction_takes {s rest front : Bytes} {i : Item} (hfront : front ≠ [])
    (h : readInstruction s = some (i, rest)) :
    ∃ used, s = used ++ rest ∧ Takes i (front ++ used) := by
  obtain ⟨t, hsearch, heq⟩ := Option.map_eq_some_iff.mp h
  obtain ⟨rfl, rfl⟩ := Prod.mk.inj heq
  obtain ⟨pre, behind, rfl, rfl⟩ := search_eq_some hsearch
  refine ⟨pre ++ instructionEnd, by rw [List.append_assoc]; rfl,
    Takes.of_terminator ?_ hfront (Nat.zero_le _)⟩
  exact List.mem_cons_of_mem _ (List.mem_cons_of_mem _ List.mem_cons_self)

/-- A tag: nothing in it is a `<` but its first byte. -/
theorem Takes.of_tag {i : Item} {used : Bytes} (hnot : (60 : UInt8) ∉ used) (hi : i.bytes = []) :
    Takes i (60 :: used) := by
  refine Takes.of_length_lt (Contained.of_not_mem hnot) ?_
  rw [hi]
  exact Nat.zero_lt_succ _

theorem readStop_takes {s rest : Bytes} {i : Item} (h : readStop s = some (i, rest)) :
    ∃ used, s = used ++ rest ∧ Takes i (60 :: 47 :: used) := by
  obtain ⟨⟨name, behind⟩, hname, hend⟩ := Option.bind_eq_some_iff.mp h
  obtain ⟨rest', hstop, heq⟩ := Option.map_eq_some_iff.mp hend
  obtain ⟨rfl, rfl⟩ := Prod.mk.inj heq
  obtain ⟨rfl, -, hnot⟩ := readName_split hname
  obtain ⟨used, rfl, hused⟩ := stopEnd_split hstop
  refine ⟨name ++ used, (List.append_assoc _ _ _).symm, Takes.of_tag ?_ rfl⟩
  simp [hnot, hused]

theorem readStart_takes {s rest : Bytes} {i : Item} (h : readStart s = some (i, rest)) :
    ∃ used, s = used ++ rest ∧ Takes i (60 :: used) := by
  obtain ⟨⟨name, behind⟩, hname, hend⟩ := Option.bind_eq_some_iff.mp h
  obtain ⟨⟨isEmpty, rest'⟩, htag, heq⟩ := Option.map_eq_some_iff.mp hend
  obtain ⟨rfl, rfl⟩ := Prod.mk.inj heq
  obtain ⟨rfl, -, hnot⟩ := readName_split hname
  obtain ⟨used, rfl, hused⟩ := tagEnd_split htag
  refine ⟨name ++ used, (List.append_assoc _ _ _).symm, Takes.of_tag ?_ ?_⟩
  · simp [hnot, hused]
  · cases isEmpty <;> rfl

theorem readMarkup_takes {s rest : Bytes} {i : Item} (h : readMarkup s = some (i, rest)) :
    ∃ used, s = used ++ rest ∧ Takes i (60 :: used) := by
  unfold readMarkup at h
  split at h
  · rename_i hstart
    obtain ⟨behind, rfl⟩ := hstart
    have hdrop : (commentStart ++ behind).drop 3 = behind := rfl
    rw [hdrop] at h
    obtain ⟨used, rfl, htakes⟩ :=
      readComment_takes (List.cons_ne_nil 60 commentStart) h
    exact ⟨commentStart ++ used, (List.append_assoc _ _ _).symm, htakes⟩
  · split at h
    · rename_i hstart
      obtain ⟨behind, rfl⟩ := hstart
      have hdrop : (cdataStart ++ behind).drop 8 = behind := rfl
      rw [hdrop] at h
      obtain ⟨used, rfl, htakes⟩ := readCdata_takes (List.cons_ne_nil 60 cdataStart) h
      exact ⟨cdataStart ++ used, (List.append_assoc _ _ _).symm, htakes⟩
    · cases s with
      | nil => exact absurd h (by simp)
      | cons b s =>
        dsimp only at h
        split at h
        · rename_i hb
          obtain ⟨used, rfl, htakes⟩ := readInstruction_takes (List.cons_ne_nil 60 [63]) h
          exact ⟨63 :: used, by rw [hb]; rfl, htakes⟩
        · split at h
          · rename_i hb
            obtain ⟨used, rfl, htakes⟩ := readStop_takes h
            exact ⟨47 :: used, by rw [hb]; rfl, htakes⟩
          · exact readStart_takes h

/-- **What the first item of a text takes from it.** -/
theorem item_takes {s rest : Bytes} {i : Item} (h : item s = some (i, rest)) :
    ∃ used, s = used ++ rest ∧ Takes i used := by
  cases s with
  | nil => exact absurd h (by simp [item])
  | cons b s =>
    rw [item] at h
    split at h
    · rename_i hb
      obtain ⟨used, rfl, htakes⟩ := readMarkup_takes h
      exact ⟨60 :: used, by rw [hb]; rfl, htakes⟩
    · rename_i hlt
      split at h
      · rename_i hb
        obtain ⟨used, rfl, htakes⟩ := readReference_takes h
        exact ⟨38 :: used, by rw [hb]; rfl, htakes⟩
      · rename_i hamp
        split at h
        · rename_i hb
          obtain ⟨rfl, hrest⟩ := Prod.mk.inj (Option.some.inj h)
          by_cases hlf : s.head? = some 10
          · obtain ⟨s, rfl⟩ : ∃ s', s = 10 :: s' := by
              cases s with
              | nil => exact absurd hlf (by simp)
              | cons c s => exact ⟨s, by rw [Option.some.inj hlf]⟩
            obtain rfl : s = rest := hrest
            exact ⟨[13, 10], by rw [hb]; rfl,
              ⟨by simp, Or.inl (by decide), by decide, fun heq => absurd heq (by decide)⟩⟩
          · rw [if_neg hlf] at hrest
            exact ⟨[13], by rw [hb, hrest]; rfl,
              ⟨by simp, Or.inl (by decide), by decide, fun heq => absurd heq (by decide)⟩⟩
        · rename_i hcr
          split at h
          · exact absurd h (by simp)
          · obtain ⟨rfl, rfl⟩ := Prod.mk.inj (Option.some.inj h)
            exact ⟨[b], rfl, ⟨by simp, Or.inl (by simp), by simp [Item.bytes],
              fun _ => ⟨b, rfl, hlt, hamp, hcr⟩⟩⟩

/-- No item begins with the end of a CDATA section. -/
theorem item_cdataEnd (s : Bytes) : item (cdataEnd ++ s) = none := by
  have hstart : cdataEnd <+: 93 :: (93 :: 62 :: s) := ⟨s, rfl⟩
  show item (93 :: (93 :: 62 :: s)) = none
  rw [item, if_neg (by decide), if_neg (by decide), if_neg (by decide), if_pos hstart]

/-- A plain byte is an item. -/
theorem item_plain {b : UInt8} {s : Bytes} (hlt : b ≠ 60) (hamp : b ≠ 38) (hcr : b ≠ 13)
    (hcdata : ¬ cdataEnd <+: b :: s) : item (b :: s) = some (.data [b], s) := by
  rw [item, if_neg hlt, if_neg hamp, if_neg hcr, if_neg hcdata]

/-! ## All items -/

theorem items_eq_some_iff {fuel : Nat} {s : Bytes} {is : List Item} (hfuel : s.length ≤ fuel) :
    items fuel s = some is ↔ Lexes s is := by
  induction fuel generalizing s is with
  | zero =>
    obtain rfl := List.length_eq_zero_iff.mp (Nat.le_zero.mp hfuel)
    constructor
    · intro h
      obtain rfl := Option.some.inj h
      exact .nil
    · rintro (_ | ⟨hitem, -⟩)
      · rfl
      · exact absurd hitem (by simp [item])
  | succ fuel ih =>
    cases s with
    | nil =>
      constructor
      · intro h
        obtain rfl := Option.some.inj h
        exact .nil
      · rintro (_ | ⟨hitem, -⟩)
        · rfl
        · exact absurd hitem (by simp [item])
    | cons b s =>
      have hshorter {i : Item} {rest : Bytes} (hitem : item (b :: s) = some (i, rest)) :
          rest.length ≤ fuel := by
        obtain ⟨used, hsplit, htakes⟩ := item_takes hitem
        have hpos := List.length_pos_iff.mpr htakes.nonempty
        have hlength := congrArg List.length hsplit
        rw [List.length_append] at hlength
        omega
      have hitems : items (fuel + 1) (b :: s) =
          match item (b :: s) with
          | none => none
          | some (i, rest) => (items fuel rest).map (i :: ·) := rfl
      rw [hitems]
      constructor
      · intro h
        split at h
        · exact absurd h (by simp)
        · rename_i i rest hitem
          obtain ⟨is, his, rfl⟩ := Option.map_eq_some_iff.mp h
          exact .cons hitem ((ih (hshorter hitem)).mp his)
      · intro h
        cases h with
        | cons hitem hrest =>
          rw [hitem]
          dsimp only
          rw [(ih (hshorter hitem)).mpr hrest]
          rfl

theorem elementTexts_eq_some_iff {name doc : Bytes} {texts : List Bytes} :
    elementTexts name doc = some texts ↔
      Utf8.valid doc = true ∧ ∃ is, Lexes doc is ∧
        Reading.before.read name is = some { stack := [], found := texts, rooted := true } := by
  unfold elementTexts
  constructor
  · intro h
    split at h
    · rename_i hvalid
      split at h
      · exact absurd h (by simp)
      · rename_i st hst
        obtain ⟨is, his, hread⟩ := Option.bind_eq_some_iff.mp hst
        split at h
        · rename_i hdone
          obtain rfl := Option.some.inj h
          refine ⟨hvalid, is, (items_eq_some_iff (Nat.le_refl _)).mp his, ?_⟩
          rw [hread]
          obtain ⟨stack, found, rooted⟩ := st
          obtain ⟨rfl, rfl⟩ := hdone
          rfl
        · exact absurd h (by simp)
    · exact absurd h (by simp)
  · rintro ⟨hvalid, is, his, hread⟩
    rw [if_pos hvalid, (items_eq_some_iff (Nat.le_refl _)).mpr his, Option.bind_some, hread]
    rfl

end WowProxy.Lib.XmlReader
