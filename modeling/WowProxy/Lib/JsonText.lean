/-
  Lib/JsonText.lean --- JSON values and the texts that denote them.

  A text is a byte string, and so is a string value: the UTF-8 of its characters.  The
  grammar is that of the standard, white space and every kind of escape included.  A
  surrogate that stands alone denotes no character and has no place in it.  A number is
  kept as the decimal its text spells, before anything rounds it.
-/
import Mathlib.Algebra.Group.Int.Defs
import Mathlib.Data.List.Basic

set_option autoImplicit false

namespace WowProxy.Lib.JsonText

/-! ## Values -/

/-- A JSON value with numbers of type `ν`. -/
inductive Json (ν : Type) where
  | null
  | bool (b : Bool)
  | number (n : ν)
  | string (s : List UInt8)
  | array (items : List (Json ν))
  | object (members : List (List UInt8 × Json ν))

/-- The number `mantissa * 10 ^ exponent`. -/
structure Decimal where
  mantissa : Int
  exponent : Int
  deriving DecidableEq, Repr

section Values

variable {ν μ : Type}

mutual

/-- The same value with other numbers. -/
def Json.map (f : ν → μ) : Json ν → Json μ
  | .null => .null
  | .bool b => .bool b
  | .number n => .number (f n)
  | .string s => .string s
  | .array items => .array (mapItems f items)
  | .object members => .object (mapMembers f members)
termination_by structural v => v

/-- `Json.map` on every item. -/
def mapItems (f : ν → μ) : List (Json ν) → List (Json μ)
  | [] => []
  | v :: items => v.map f :: mapItems f items
termination_by structural items => items

/-- `Json.map` on the value of every member. -/
def mapMembers (f : ν → μ) : List (List UInt8 × Json ν) → List (List UInt8 × Json μ)
  | [] => []
  | (name, v) :: members => (name, v.map f) :: mapMembers f members
termination_by structural members => members

end

mutual

/-- Every string of the value, names included, has the property. -/
def Json.Strings (P : List UInt8 → Prop) : Json ν → Prop
  | .null => True
  | .bool _ => True
  | .number _ => True
  | .string s => P s
  | .array items => ItemStrings P items
  | .object members => MemberStrings P members
termination_by structural v => v

/-- `Json.Strings` of every item. -/
def ItemStrings (P : List UInt8 → Prop) : List (Json ν) → Prop
  | [] => True
  | v :: items => v.Strings P ∧ ItemStrings P items
termination_by structural items => items

/-- `Json.Strings` of every member, and of its name. -/
def MemberStrings (P : List UInt8 → Prop) : List (List UInt8 × Json ν) → Prop
  | [] => True
  | (name, v) :: members => P name ∧ v.Strings P ∧ MemberStrings P members
termination_by structural members => members

end

mutual

/-- Every number of the value has the property. -/
def Json.Numbers (P : ν → Prop) : Json ν → Prop
  | .null => True
  | .bool _ => True
  | .number n => P n
  | .string _ => True
  | .array items => ItemNumbers P items
  | .object members => MemberNumbers P members
termination_by structural v => v

/-- `Json.Numbers` of every item. -/
def ItemNumbers (P : ν → Prop) : List (Json ν) → Prop
  | [] => True
  | v :: items => v.Numbers P ∧ ItemNumbers P items
termination_by structural items => items

/-- `Json.Numbers` of the value of every member. -/
def MemberNumbers (P : ν → Prop) : List (List UInt8 × Json ν) → Prop
  | [] => True
  | (_, v) :: members => v.Numbers P ∧ MemberNumbers P members
termination_by structural members => members

end

mutual

/-- A weaker property of the numbers. -/
theorem Json.Numbers.imp {P Q : ν → Prop} (h : ∀ n, P n → Q n) :
    ∀ {v : Json ν}, v.Numbers P → v.Numbers Q
  | .null, _ => trivial
  | .bool _, _ => trivial
  | .number n, hn => h n hn
  | .string _, _ => trivial
  | .array _, hitems => itemNumbers_imp h hitems
  | .object _, hmembers => memberNumbers_imp h hmembers

theorem itemNumbers_imp {P Q : ν → Prop} (h : ∀ n, P n → Q n) :
    ∀ {items : List (Json ν)}, ItemNumbers P items → ItemNumbers Q items
  | [], _ => trivial
  | _ :: _, hitems => ⟨Json.Numbers.imp h hitems.1, itemNumbers_imp h hitems.2⟩

theorem memberNumbers_imp {P Q : ν → Prop} (h : ∀ n, P n → Q n) :
    ∀ {members : List (List UInt8 × Json ν)}, MemberNumbers P members → MemberNumbers Q members
  | [], _ => trivial
  | _ :: _, hmembers => ⟨Json.Numbers.imp h hmembers.1, memberNumbers_imp h hmembers.2⟩

end

/-- A property of the list of items that is one of each item. -/
theorem itemStrings_iff {P : List UInt8 → Prop} {items : List (Json ν)} :
    ItemStrings P items ↔ ∀ v ∈ items, v.Strings P := by
  induction items with
  | nil => simp [ItemStrings]
  | cons v items ih => simp [ItemStrings, ih]

theorem memberStrings_iff {P : List UInt8 → Prop} {members : List (List UInt8 × Json ν)} :
    MemberStrings P members ↔ ∀ m ∈ members, P m.1 ∧ m.2.Strings P := by
  induction members with
  | nil => simp [MemberStrings]
  | cons m members ih => simp [MemberStrings, ih, and_assoc]

mutual

/-- Other numbers leave the strings as they are. -/
theorem map_strings (f : ν → μ) (P : List UInt8 → Prop) :
    ∀ v : Json ν, (v.map f).Strings P ↔ v.Strings P
  | .null => Iff.rfl
  | .bool _ => Iff.rfl
  | .number _ => Iff.rfl
  | .string _ => Iff.rfl
  | .array items => mapItems_strings f P items
  | .object members => mapMembers_strings f P members

theorem mapItems_strings (f : ν → μ) (P : List UInt8 → Prop) :
    ∀ items : List (Json ν), ItemStrings P (mapItems f items) ↔ ItemStrings P items
  | [] => Iff.rfl
  | v :: items => and_congr (map_strings f P v) (mapItems_strings f P items)

theorem mapMembers_strings (f : ν → μ) (P : List UInt8 → Prop) :
    ∀ members : List (List UInt8 × Json ν),
      MemberStrings P (mapMembers f members) ↔ MemberStrings P members
  | [] => Iff.rfl
  | (_, v) :: members =>
    and_congr Iff.rfl (and_congr (map_strings f P v) (mapMembers_strings f P members))

end

end Values

/-! ## Numbers -/

/-- A decimal digit. -/
def isDigit (b : UInt8) : Bool := 48 ≤ b && b ≤ 57

/-- The number that digits behind the digits of `n` spell. -/
def digitsFrom (n : Nat) (ds : List UInt8) : Nat :=
  ds.foldl (fun n b => n * 10 + (b.toNat - 48)) n

theorem digitsFrom_append (n : Nat) (ds es : List UInt8) :
    digitsFrom n (ds ++ es) = digitsFrom (digitsFrom n ds) es := List.foldl_append

/-- The integer part: a zero, or digits that do not begin with one. -/
inductive IntPart : List UInt8 → Prop where
  | zero : IntPart [48]
  | digits {d : UInt8} {ds : List UInt8} (hd : 49 ≤ d ∧ d ≤ 57) (hds : ds.all isDigit = true) :
      IntPart (d :: ds)

/-- The digits behind the point, and the text with the point. -/
inductive FracPart : List UInt8 → List UInt8 → Prop where
  | absent : FracPart [] []
  | present {d : UInt8} {ds : List UInt8} (hds : (d :: ds).all isDigit = true) :
      FracPart (d :: ds) (46 :: d :: ds)

/-- The exponent, and its text. -/
inductive ExpPart : Int → List UInt8 → Prop where
  | absent : ExpPart 0 []
  | unsigned {e d : UInt8} {ds : List UInt8} (he : e = 101 ∨ e = 69)
      (hds : (d :: ds).all isDigit = true) : ExpPart (digitsFrom 0 (d :: ds)) (e :: d :: ds)
  | plus {e d : UInt8} {ds : List UInt8} (he : e = 101 ∨ e = 69)
      (hds : (d :: ds).all isDigit = true) :
      ExpPart (digitsFrom 0 (d :: ds)) (e :: 43 :: d :: ds)
  | minus {e d : UInt8} {ds : List UInt8} (he : e = 101 ∨ e = 69)
      (hds : (d :: ds).all isDigit = true) :
      ExpPart (-digitsFrom 0 (d :: ds)) (e :: 45 :: d :: ds)

/-- The text of a number. -/
inductive NumberText : Decimal → List UInt8 → Prop where
  | positive {int frac fracText expText : List UInt8} {e : Int} (hint : IntPart int)
      (hfrac : FracPart frac fracText) (hexp : ExpPart e expText) :
      NumberText ⟨digitsFrom 0 (int ++ frac), e - frac.length⟩ (int ++ (fracText ++ expText))
  | negative {int frac fracText expText : List UInt8} {e : Int} (hint : IntPart int)
      (hfrac : FracPart frac fracText) (hexp : ExpPart e expText) :
      NumberText ⟨-digitsFrom 0 (int ++ frac), e - frac.length⟩
        (45 :: (int ++ (fracText ++ expText)))

/-- The decimal text of a number. -/
def natText (n : Nat) : List UInt8 := (Nat.toDigits 10 n).map fun c => UInt8.ofNat c.toNat

theorem natText_of_lt {n : Nat} (h : n < 10) : natText n = [UInt8.ofNat (48 + n)] := by
  have hdigit : ∀ m : Fin 10, UInt8.ofNat (Nat.digitChar m).toNat = UInt8.ofNat (48 + m) := by
    decide
  rw [natText, Nat.toDigits_of_lt_base h]
  exact congrArg (fun b => [b]) (hdigit ⟨n, h⟩)

theorem natText_of_le {n : Nat} (h : 10 ≤ n) :
    natText n = natText (n / 10) ++ [UInt8.ofNat (48 + n % 10)] := by
  have hlast := natText_of_lt (Nat.mod_lt n (show 0 < 10 by decide))
  rw [natText, Nat.toDigits_of_lt_base (Nat.mod_lt n (by decide))] at hlast
  rw [natText, Nat.toDigits_of_base_le (by decide) h, List.map_append, hlast, natText]

theorem digit_byte {n : Nat} (h : n < 10) :
    (UInt8.ofNat (48 + n)).toNat = 48 + n ∧ isDigit (UInt8.ofNat (48 + n)) = true := by
  have hdigit : ∀ m : Fin 10, (UInt8.ofNat (48 + m)).toNat = 48 + m.val ∧
      isDigit (UInt8.ofNat (48 + m)) = true := by decide
  exact hdigit ⟨n, h⟩

/-- The text of a number spells it. -/
theorem digitsFrom_natText (n : Nat) : digitsFrom 0 (natText n) = n := by
  induction n using Nat.strongRecOn with
  | _ n ih =>
    by_cases h : n < 10
    · rw [natText_of_lt h]
      show 0 * 10 + ((UInt8.ofNat (48 + n)).toNat - 48) = n
      rw [(digit_byte h).1]
      omega
    · have hmod := Nat.mod_lt n (show 0 < 10 by decide)
      rw [natText_of_le (by omega), digitsFrom_append, ih (n / 10) (by omega)]
      show n / 10 * 10 + ((UInt8.ofNat (48 + n % 10)).toNat - 48) = n
      rw [(digit_byte hmod).1]
      omega

theorem natText_pos {n : Nat} (h : 0 < n) :
    ∃ d ds, natText n = d :: ds ∧ (49 ≤ d ∧ d ≤ 57) ∧ ds.all isDigit = true := by
  induction n using Nat.strongRecOn with
  | _ n ih =>
    by_cases hsmall : n < 10
    · refine ⟨UInt8.ofNat (48 + n), [], natText_of_lt hsmall, ?_, rfl⟩
      rw [UInt8.le_iff_toNat_le, UInt8.le_iff_toNat_le, (digit_byte hsmall).1]
      simp only [UInt8.reduceToNat]
      omega
    · obtain ⟨d, ds, htext, hd, hds⟩ := ih (n / 10) (by omega) (by omega)
      have hmod := Nat.mod_lt n (show 0 < 10 by decide)
      refine ⟨d, ds ++ [UInt8.ofNat (48 + n % 10)], ?_, hd, ?_⟩
      · rw [natText_of_le (by omega), htext, List.cons_append]
      · rw [List.all_append, hds, List.all_cons, (digit_byte hmod).2]
        rfl

/-- The text of a number has no leading zero. -/
theorem intPart_natText (n : Nat) : IntPart (natText n) := by
  rcases Nat.eq_zero_or_pos n with rfl | h
  · exact .zero
  · obtain ⟨d, ds, htext, hd, hds⟩ := natText_pos h
    rw [htext]
    exact .digits hd hds

/-! ## Strings -/

/-- A hexadecimal digit. -/
def hexValue (b : UInt8) : Option Nat :=
  if 48 ≤ b ∧ b ≤ 57 then some (b.toNat - 48)
  else if 65 ≤ b ∧ b ≤ 70 then some (b.toNat - 55)
  else if 97 ≤ b ∧ b ≤ 102 then some (b.toNat - 87)
  else none

/-- The number that hexadecimal digits behind those of `n` spell. -/
def hexFrom (n : Nat) (ds : List UInt8) : Option Nat :=
  ds.foldlM (fun n b => (hexValue b).map (n * 16 + ·)) n

/-- The four digits of a code unit. -/
def Hex4 (n : Nat) (ds : List UInt8) : Prop := ds.length = 4 ∧ hexFrom 0 ds = some n

/-- The letters of the short escapes, and what they stand for. -/
def escapes : List (UInt8 × UInt8) :=
  [(34, 34), (92, 92), (47, 47), (98, 8), (102, 12), (110, 10), (114, 13), (116, 9)]

/-- The first code unit of a character outside the basic plane. -/
def highSurrogate (c : Char) : Nat := 0xD800 + (c.toNat - 0x10000) / 0x400

/-- The second code unit of a character outside the basic plane. -/
def lowSurrogate (c : Char) : Nat := 0xDC00 + (c.toNat - 0x10000) % 0x400

/-- A string and its text between the quotes. -/
inductive StringBody : List UInt8 → List UInt8 → Prop where
  | nil : StringBody [] []
  | plain {b : UInt8} {s t : List UInt8} (hb : 32 ≤ b ∧ b ≠ 34 ∧ b ≠ 92) (h : StringBody s t) :
      StringBody (b :: s) (b :: t)
  | escape {c b : UInt8} {s t : List UInt8} (hc : (c, b) ∈ escapes) (h : StringBody s t) :
      StringBody (b :: s) (92 :: c :: t)
  | unicode {c : Char} {ds s t : List UInt8} (hds : Hex4 c.toNat ds) (h : StringBody s t) :
      StringBody (String.utf8EncodeChar c ++ s) (92 :: 117 :: (ds ++ t))
  | pair {c : Char} {hi lo s t : List UInt8} (hc : 0x10000 ≤ c.toNat)
      (hhi : Hex4 (highSurrogate c) hi) (hlo : Hex4 (lowSurrogate c) lo) (h : StringBody s t) :
      StringBody (String.utf8EncodeChar c ++ s) (92 :: 117 :: (hi ++ (92 :: 117 :: (lo ++ t))))

theorem StringBody.append {s t s' t' : List UInt8} (h : StringBody s t) (h' : StringBody s' t') :
    StringBody (s ++ s') (t ++ t') := by
  induction h with
  | nil => exact h'
  | plain hb _ ih => exact .plain hb ih
  | escape hc _ ih => exact .escape hc ih
  | unicode hds _ ih =>
    simp only [List.append_assoc, List.cons_append]
    exact .unicode hds ih
  | pair hc hhi hlo _ ih =>
    simp only [List.append_assoc, List.cons_append]
    exact .pair hc hhi hlo ih

/-- Bodies may be put together character by character. -/
theorem StringBody.flatMap {α : Type} {f g : α → List UInt8} :
    ∀ (as : List α), (∀ a ∈ as, StringBody (f a) (g a)) →
      StringBody (as.flatMap f) (as.flatMap g)
  | [], _ => .nil
  | a :: as, h =>
    (h a List.mem_cons_self).append (StringBody.flatMap as fun b hb => h b (.tail a hb))

/-- A string and its text. -/
inductive StringText : List UInt8 → List UInt8 → Prop where
  | quoted {s t : List UInt8} (h : StringBody s t) : StringText s (34 :: (t ++ [34]))

/-! ## Texts -/

/-- White space. -/
def isBlank (b : UInt8) : Bool := b == 32 || b == 9 || b == 10 || b == 13

/-- A text with white space around it. -/
inductive Spaced (t : List UInt8) : List UInt8 → Prop where
  | around {w w' : List UInt8} (hw : w.all isBlank = true) (hw' : w'.all isBlank = true) :
      Spaced t (w ++ (t ++ w'))

theorem Spaced.refl (t : List UInt8) : Spaced t t := by
  have hnil : ([] : List UInt8).all isBlank = true := rfl
  have h := Spaced.around (t := t) hnil hnil
  rwa [List.nil_append, List.append_nil] at h

mutual

/-- The text denotes the value. -/
inductive Denotes : Json Decimal → List UInt8 → Prop where
  | null : Denotes .null [110, 117, 108, 108]
  | true : Denotes (.bool true) [116, 114, 117, 101]
  | false : Denotes (.bool false) [102, 97, 108, 115, 101]
  | number {n : Decimal} {t : List UInt8} (h : NumberText n t) : Denotes (.number n) t
  | string {s t : List UInt8} (h : StringText s t) : Denotes (.string s) t
  | emptyArray {w : List UInt8} (hw : w.all isBlank = true) :
      Denotes (.array []) (91 :: (w ++ [93]))
  | array {items : List (Json Decimal)} {t : List UInt8} (h : DenotesItems items t) :
      Denotes (.array items) (91 :: (t ++ [93]))
  | emptyObject {w : List UInt8} (hw : w.all isBlank = true) :
      Denotes (.object []) (123 :: (w ++ [125]))
  | object {members : List (List UInt8 × Json Decimal)} {t : List UInt8}
      (h : DenotesMembers members t) : Denotes (.object members) (123 :: (t ++ [125]))

/-- The text of the items of an array. -/
inductive DenotesItems : List (Json Decimal) → List UInt8 → Prop where
  | last {v : Json Decimal} {t t' : List UInt8} (h : Denotes v t) (ht : Spaced t t') :
      DenotesItems [v] t'
  | cons {v : Json Decimal} {items : List (Json Decimal)} {t t' ts : List UInt8}
      (h : Denotes v t) (ht : Spaced t t') (hs : DenotesItems items ts) :
      DenotesItems (v :: items) (t' ++ 44 :: ts)

/-- The text of the members of an object. -/
inductive DenotesMembers : List (List UInt8 × Json Decimal) → List UInt8 → Prop where
  | last {name : List UInt8} {v : Json Decimal} {k k' t t' : List UInt8} (hk : StringText name k)
      (hk' : Spaced k k') (h : Denotes v t) (ht : Spaced t t') :
      DenotesMembers [(name, v)] (k' ++ 58 :: t')
  | cons {name : List UInt8} {v : Json Decimal} {members : List (List UInt8 × Json Decimal)}
      {k k' t t' ts : List UInt8} (hk : StringText name k) (hk' : Spaced k k') (h : Denotes v t)
      (ht : Spaced t t') (hs : DenotesMembers members ts) :
      DenotesMembers ((name, v) :: members) (k' ++ 58 :: (t' ++ 44 :: ts))

end

theorem Spaced.lead {t t' w : List UInt8} (h : Spaced t t') (hw : w.all isBlank = true) :
    Spaced t (w ++ t') := by
  obtain @⟨v, v', hv, hv'⟩ := h
  have hblank : (w ++ v).all isBlank = true := by rw [List.all_append, hw, hv]; rfl
  rw [← List.append_assoc]
  exact .around hblank hv'

theorem Spaced.trail {t w : List UInt8} (hw : w.all isBlank = true) : Spaced t (t ++ w) :=
  .around (show [].all isBlank = true from rfl) hw

/-- White space may stand in front of the first item. -/
theorem DenotesItems.lead {items : List (Json Decimal)} {ts w : List UInt8}
    (h : DenotesItems items ts) (hw : w.all isBlank = true) : DenotesItems items (w ++ ts) := by
  cases h with
  | last h ht => exact .last h (ht.lead hw)
  | cons h ht hs =>
    rw [← List.append_assoc]
    exact .cons h (ht.lead hw) hs

/-- White space may stand in front of the first member. -/
theorem DenotesMembers.lead {members : List (List UInt8 × Json Decimal)} {ts w : List UInt8}
    (h : DenotesMembers members ts) (hw : w.all isBlank = true) :
    DenotesMembers members (w ++ ts) := by
  cases h with
  | last hk hk' h ht =>
    rw [← List.append_assoc]
    exact .last hk (hk'.lead hw) h ht
  | cons hk hk' h ht hs =>
    rw [← List.append_assoc]
    exact .cons hk (hk'.lead hw) h ht hs

/-- Texts of items with a comma and white space between them. -/
theorem denotesItems_intercalate {w : List UInt8} (hw : w.all isBlank = true) :
    ∀ {items : List (Json Decimal)} {ts : List (List UInt8)}, List.Forall₂ Denotes items ts →
      items ≠ [] → DenotesItems items (List.intercalate (44 :: w) ts)
  | [], _, _, hne => absurd rfl hne
  | [v], [t], .cons h .nil, _ => by
    rw [List.intercalate_singleton]
    exact .last h (.refl t)
  | v :: v' :: items, t :: t' :: ts, .cons h hrest, _ => by
    rw [List.intercalate_cons_cons, List.append_assoc, List.cons_append]
    exact .cons h (.refl t) ((denotesItems_intercalate hw hrest (by simp)).lead hw)

/-- An array written with one separator. -/
theorem denotes_array_intercalate {w : List UInt8} (hw : w.all isBlank = true)
    {items : List (Json Decimal)} {ts : List (List UInt8)} (h : List.Forall₂ Denotes items ts) :
    Denotes (.array items) (91 :: (List.intercalate (44 :: w) ts ++ [93])) := by
  cases h with
  | nil => exact .emptyArray (show [].all isBlank = true from rfl)
  | cons hv hrest => exact .array (denotesItems_intercalate hw (.cons hv hrest) (by simp))

/-- The text of a member with white space behind the colon. -/
inductive MemberText (w : List UInt8) : List UInt8 × Json Decimal → List UInt8 → Prop where
  | member {name k t : List UInt8} {v : Json Decimal} (hk : StringText name k) (h : Denotes v t) :
      MemberText w (name, v) (k ++ 58 :: (w ++ t))

theorem denotesMembers_intercalate {w w' : List UInt8} (hw : w.all isBlank = true)
    (hw' : w'.all isBlank = true) :
    ∀ {members : List (List UInt8 × Json Decimal)} {ts : List (List UInt8)},
      List.Forall₂ (MemberText w') members ts → members ≠ [] →
      DenotesMembers members (List.intercalate (44 :: w) ts)
  | [], _, _, hne => absurd rfl hne
  | [_], [_], .cons (.member hk h) .nil, _ => by
    rw [List.intercalate_singleton]
    exact .last hk (.refl _) h ((Spaced.refl _).lead hw')
  | _ :: m' :: members, _ :: t' :: ts, .cons (.member hk h) hrest, _ => by
    rw [List.intercalate_cons_cons, List.append_assoc, List.append_assoc, List.cons_append,
      List.cons_append]
    exact .cons hk (.refl _) h ((Spaced.refl _).lead hw')
      ((denotesMembers_intercalate hw hw' hrest (by simp)).lead hw)

/-- An object written with one separator and one kind of colon. -/
theorem denotes_object_intercalate {w w' : List UInt8} (hw : w.all isBlank = true)
    (hw' : w'.all isBlank = true) {members : List (List UInt8 × Json Decimal)}
    {ts : List (List UInt8)} (h : List.Forall₂ (MemberText w') members ts) :
    Denotes (.object members) (123 :: (List.intercalate (44 :: w) ts ++ [125])) := by
  cases h with
  | nil => exact .emptyObject (show [].all isBlank = true from rfl)
  | cons hm hrest => exact .object (denotesMembers_intercalate hw hw' (.cons hm hrest) (by simp))

/-! ## No text has a NUL -/

theorem zero_notMem_of_all {p : UInt8 → Bool} (hp : p 0 = false) {t : List UInt8}
    (h : t.all p = true) : 0 ∉ t := by
  intro hmem
  rw [List.all_eq_true.mp h 0 hmem] at hp
  exact absurd hp (by decide)

theorem Hex4.zero_notMem {n : Nat} {ds : List UInt8} (h : Hex4 n ds) : 0 ∉ ds := by
  have hfrom : ∀ (ds : List UInt8) (m n : Nat), hexFrom m ds = some n → 0 ∉ ds := by
    intro ds
    induction ds with
    | nil => exact fun _ _ _ => List.not_mem_nil
    | cons d ds ih =>
      intro m n h
      rw [hexFrom, List.foldlM_cons] at h
      cases hd : hexValue d with
      | none => rw [hd] at h; exact absurd h (by simp)
      | some k =>
        rw [hd] at h
        have hne : (0 : UInt8) ≠ d := by
          rintro rfl
          exact absurd (hd.symm.trans (show hexValue 0 = none by decide)) (by simp)
        exact List.not_mem_cons_of_ne_of_not_mem hne (ih _ _ h)
  exact hfrom ds 0 n h.2

theorem StringBody.zero_notMem {s t : List UInt8} (h : StringBody s t) : 0 ∉ t := by
  induction h with
  | nil => exact List.not_mem_nil
  | @plain b _ _ hb _ ih =>
    have hne : 0 ≠ b := by
      rintro rfl
      exact absurd hb.1 (by decide)
    exact List.not_mem_cons_of_ne_of_not_mem hne ih
  | escape hc _ ih =>
    have hletters : escapes.all (fun e => e.1 != 0) = true := by decide
    have hne := bne_iff_ne.mp (List.all_eq_true.mp hletters _ hc)
    simp [hne.symm, ih]
  | unicode hds _ ih => simp [hds.zero_notMem, ih]
  | pair _ hhi hlo _ ih => simp [hhi.zero_notMem, hlo.zero_notMem, ih]

theorem StringText.zero_notMem {s t : List UInt8} (h : StringText s t) : 0 ∉ t := by
  obtain ⟨h⟩ := h
  simp [h.zero_notMem]

theorem Spaced.zero_notMem {t t' : List UInt8} (h : Spaced t t') (ht : 0 ∉ t) : 0 ∉ t' := by
  obtain ⟨hw, hw'⟩ := h
  simp [zero_notMem_of_all (p := isBlank) rfl hw, zero_notMem_of_all (p := isBlank) rfl hw', ht]

theorem NumberText.zero_notMem {n : Decimal} {t : List UInt8} (h : NumberText n t) : 0 ∉ t := by
  have hdigits : ∀ {ds : List UInt8}, ds.all isDigit = true → 0 ∉ ds :=
    fun h => zero_notMem_of_all (p := isDigit) rfl h
  have hint : ∀ {int : List UInt8}, IntPart int → 0 ∉ int := by
    intro int h
    cases h with
    | zero => decide
    | @digits d _ hd hds =>
      have hne : 0 ≠ d := by
        rintro rfl
        exact absurd hd.1 (by decide)
      exact List.not_mem_cons_of_ne_of_not_mem hne (hdigits hds)
  have hfrac : ∀ {frac t : List UInt8}, FracPart frac t → 0 ∉ t := by
    intro frac t h
    cases h with
    | absent => exact List.not_mem_nil
    | present hds => exact List.not_mem_cons_of_ne_of_not_mem (by decide) (hdigits hds)
  have hexp : ∀ {e : Int} {t : List UInt8}, ExpPart e t → 0 ∉ t := by
    have hne : ∀ {e : UInt8}, e = 101 ∨ e = 69 → (0 : UInt8) ≠ e := by
      rintro e (rfl | rfl) <;> decide
    intro e t h
    cases h with
    | absent => exact List.not_mem_nil
    | unsigned he hds => exact List.not_mem_cons_of_ne_of_not_mem (hne he) (hdigits hds)
    | plus he hds =>
      exact List.not_mem_cons_of_ne_of_not_mem (hne he)
        (List.not_mem_cons_of_ne_of_not_mem (by decide) (hdigits hds))
    | minus he hds =>
      exact List.not_mem_cons_of_ne_of_not_mem (hne he)
        (List.not_mem_cons_of_ne_of_not_mem (by decide) (hdigits hds))
  cases h with
  | positive hi hf he => simp [hint hi, hfrac hf, hexp he]
  | negative hi hf he => simp [hint hi, hfrac hf, hexp he]

mutual

/-- A text is a C string. -/
theorem Denotes.zero_notMem {v : Json Decimal} {t : List UInt8} : Denotes v t → 0 ∉ t
  | .null => by decide
  | .true => by decide
  | .false => by decide
  | .number h => h.zero_notMem
  | .string h => h.zero_notMem
  | .emptyArray hw => by simp [zero_notMem_of_all (p := isBlank) rfl hw]
  | .array h => by simp [h.zero_notMem]
  | .emptyObject hw => by simp [zero_notMem_of_all (p := isBlank) rfl hw]
  | .object h => by simp [h.zero_notMem]

theorem DenotesItems.zero_notMem {items : List (Json Decimal)} {t : List UInt8} :
    DenotesItems items t → 0 ∉ t
  | .last h ht => ht.zero_notMem h.zero_notMem
  | .cons h ht hs => by simp [ht.zero_notMem h.zero_notMem, hs.zero_notMem]

theorem DenotesMembers.zero_notMem {members : List (List UInt8 × Json Decimal)}
    {t : List UInt8} : DenotesMembers members t → 0 ∉ t
  | .last hk hk' h ht => by simp [hk'.zero_notMem hk.zero_notMem, ht.zero_notMem h.zero_notMem]
  | .cons hk hk' h ht hs => by
    simp [hk'.zero_notMem hk.zero_notMem, ht.zero_notMem h.zero_notMem, hs.zero_notMem]

end

end WowProxy.Lib.JsonText
