/-
  Common/CJsonAccepts.lean --- `cJSON_Parse` reads every text of the JSON grammar.

  The parser takes more than the grammar does, but a text of the grammar it reads to the
  value the text denotes, whatever its white space and its escapes, and hands back the
  pointer right behind it.  The one text it does not give back is the NUL character,
  which a C string cannot hold: its escape is dropped.
-/
import WowProxy.Common.CJsonNumber

set_option autoImplicit false

namespace WowProxy.CJson

open WowProxy.Lib.JsonText

/-! ## White space and literals -/

theorem skip_cons {b : UInt8} (hb : b = 0 ∨ 32 < b) (ptr : List UInt8) :
    skip (b :: ptr) = some (b :: ptr) := by
  have hstop : ¬ (b ≠ 0 ∧ b ≤ 32) := by
    rintro ⟨hne, hle⟩
    exact hb.elim hne fun hlt => absurd hle (UInt8.not_le.mpr hlt)
  rw [skip, if_neg hstop]

theorem skip_blank {w : List UInt8} (hw : w.all isBlank = true) (ptr : List UInt8) :
    skip (w ++ ptr) = skip ptr := by
  induction w with
  | nil => rfl
  | cons b w ih =>
    rw [List.all_cons, Bool.and_eq_true] at hw
    have hb : b ≠ 0 ∧ b ≤ 32 := by
      have hcases := hw.1
      simp only [isBlank, Bool.or_eq_true, beq_iff_eq] at hcases
      rcases hcases with ((rfl | rfl) | rfl) | rfl <;> decide
    rw [List.cons_append, skip, if_pos hb]
    exact ih hw.2

/-- White space in front of a byte that is none is skipped. -/
theorem skipThen_blank {α : Type} {w : List UInt8} (hw : w.all isBlank = true) {b : UInt8}
    (hb : b = 0 ∨ 32 < b) (ptr : List UInt8) (p : List UInt8 → Parsed α) :
    skipThen (w ++ b :: ptr) p = p (b :: ptr) := by
  rw [skipThen, skip_blank hw, skip_cons hb]

theorem skipThen_cons {α : Type} {b : UInt8} (hb : b = 0 ∨ 32 < b) (ptr : List UInt8)
    (p : List UInt8 → Parsed α) : skipThen (b :: ptr) p = p (b :: ptr) := by
  rw [skipThen, skip_cons hb]

theorem strncmpEq_append (literal ptr : List UInt8) :
    strncmpEq (literal ++ ptr) literal = some true := by
  induction literal with
  | nil => rw [strncmpEq]
  | cons c literal ih => rw [List.cons_append, strncmpEq, if_pos rfl, ih]

/-- A literal that begins otherwise is passed over. -/
theorem parseLiteral_ne {b c : UInt8} (hne : b ≠ c) (literal value : List UInt8)
    (v : Json Decimal) (otherwise : Parsed (Json Decimal)) :
    parseLiteral (c :: literal) v (b :: value) otherwise = otherwise := by
  rw [parseLiteral, strncmpEq, if_neg hne]

theorem parseLiteral_append (literal ptr : List UInt8) (v : Json Decimal)
    (otherwise : Parsed (Json Decimal)) :
    parseLiteral literal v (literal ++ ptr) otherwise = .item v ptr := by
  rw [parseLiteral, strncmpEq_append]
  dsimp only
  rw [List.drop_left]

/-! ## Numbers -/

/-- A pointer behind a number: to a byte that cannot continue it. -/
def Stops (ptr : List UInt8) : Prop :=
  ∃ b rest, ptr = b :: rest ∧ isDigit b = false ∧ b ≠ 46 ∧ b ≠ 101 ∧ b ≠ 69

/-- A pointer behind the digits of a number. -/
def StopsDigits (ptr : List UInt8) : Prop := ∃ b rest, ptr = b :: rest ∧ isDigit b = false

theorem digitsLoop_append {ds : List UInt8} (hds : ds.all isDigit = true) {ptr : List UInt8}
    (hptr : StopsDigits ptr) : digitsLoop (ds ++ ptr) = some (ds, ptr) := by
  induction ds with
  | nil =>
    obtain ⟨b, rest, rfl, hb⟩ := hptr
    rw [List.nil_append, digitsLoop, if_neg (by rw [hb]; decide)]
  | cons d ds ih =>
    rw [List.all_cons, Bool.and_eq_true] at hds
    rw [List.cons_append, digitsLoop, if_pos hds.1, ih hds.2]
    rfl

theorem Stops.digits {ptr : List UInt8} (h : Stops ptr) : StopsDigits ptr := by
  obtain ⟨b, rest, hptr, hb, -⟩ := h
  exact ⟨b, rest, hptr, hb⟩

theorem parseExponent_append {e : Int} {t ptr : List UInt8} (he : ExpPart e t)
    (hptr : Stops ptr) : parseExponent (t ++ ptr) = some (e, ptr) := by
  have hdigits := hptr.digits
  cases he with
  | absent =>
    obtain ⟨b, rest, rfl, -, -, hb, hb'⟩ := hptr
    show (if b = 101 ∨ b = 69 then _ else some ((0 : Int), b :: rest)) = _
    rw [if_neg (by rw [not_or]; exact ⟨hb, hb'⟩)]
  | @unsigned e d ds he hds =>
    have hd : isDigit d = true := (Bool.and_eq_true _ _ ▸ hds).1
    have hplus : d ≠ 43 := by rintro rfl; exact absurd hd (by decide)
    have hminus : d ≠ 45 := by rintro rfl; exact absurd hd (by decide)
    have hloop := digitsLoop_append hds hdigits
    rw [List.cons_append] at hloop
    simp [parseExponent, he, hplus, hminus, hloop]
  | @plus e d ds he hds =>
    have hloop := digitsLoop_append hds hdigits
    rw [List.cons_append] at hloop
    simp [parseExponent, he, hloop]
  | @minus e d ds he hds =>
    have hloop := digitsLoop_append hds hdigits
    rw [List.cons_append] at hloop
    simp [parseExponent, he, hloop]

/-- An exponent begins with no digit and no point. -/
theorem stops_exponent {e : Int} {t ptr : List UInt8} (he : ExpPart e t) (hptr : Stops ptr) :
    ∃ b rest, t ++ ptr = b :: rest ∧ isDigit b = false ∧ b ≠ 46 := by
  have hletter : ∀ b : UInt8, b = 101 ∨ b = 69 → isDigit b = false ∧ b ≠ 46 := by
    rintro b (rfl | rfl) <;> decide
  cases he with
  | absent =>
    obtain ⟨b, rest, rfl, hb, hpoint, -⟩ := hptr
    exact ⟨b, rest, rfl, hb, hpoint⟩
  | unsigned he => exact ⟨_, _, rfl, hletter _ he⟩
  | plus he => exact ⟨_, _, rfl, hletter _ he⟩
  | minus he => exact ⟨_, _, rfl, hletter _ he⟩

theorem parseFraction_append {ds t ptr : List UInt8} (ht : FracPart ds t)
    (hptr : ∃ b rest, ptr = b :: rest ∧ isDigit b = false ∧ b ≠ 46) :
    parseFraction (t ++ ptr) = some (ds, ptr) := by
  obtain ⟨b, rest, rfl, hb, hpoint⟩ := hptr
  cases ht with
  | absent =>
    show (if b = 46 then _ else some (([] : List UInt8), b :: rest)) = _
    rw [if_neg hpoint]
  | @present d ds hds =>
    have hd : isDigit d = true := (Bool.and_eq_true _ _ ▸ hds).1
    have hloop : digitsLoop (d :: (ds ++ b :: rest)) = some (d :: ds, b :: rest) :=
      digitsLoop_append hds ⟨b, rest, rfl, hb⟩
    simp [parseFraction, hd, hloop]

theorem stops_fraction {ds t ptr : List UInt8} (ht : FracPart ds t)
    (hptr : ∃ b rest, ptr = b :: rest ∧ isDigit b = false ∧ b ≠ 46) :
    StopsDigits (t ++ ptr) := by
  cases ht with
  | absent =>
    obtain ⟨b, rest, rfl, hb, -⟩ := hptr
    exact ⟨b, rest, rfl, hb⟩
  | present hds => exact ⟨46, _, rfl, by decide⟩

theorem parseUnsigned_append (sign : Int) {int frac fracText expText ptr : List UInt8} {e : Int}
    (hint : IntPart int) (hfrac : FracPart frac fracText) (hexp : ExpPart e expText)
    (hptr : Stops ptr) :
    parseUnsigned sign (int ++ (fracText ++ (expText ++ ptr))) =
      some (⟨sign * digitsFrom 0 (int ++ frac), e - frac.length⟩, ptr) := by
  have hdigits := stops_fraction hfrac (stops_exponent hexp hptr)
  have hfraction := parseFraction_append hfrac (stops_exponent hexp hptr)
  have hexponent := parseExponent_append hexp hptr
  cases hint with
  | zero =>
    obtain ⟨b, rest, hcons, hb⟩ := hdigits
    have hnot : ¬ (49 ≤ b ∧ b ≤ 57) := by
      rintro ⟨hlow, hhigh⟩
      have hdigit : isDigit b = true := by
        rw [isDigit, Bool.and_eq_true, decide_eq_true_iff, decide_eq_true_iff]
        exact ⟨UInt8.le_trans (by decide) hlow, hhigh⟩
      rw [hb] at hdigit
      exact absurd hdigit (by decide)
    have hzero : digitsFrom 0 (48 :: frac) = digitsFrom 0 frac := rfl
    rw [hcons] at hfraction ⊢
    simp [parseUnsigned, parseInteger, hnot, hfraction, hexponent, hzero]
  | @digits d ds hd hds =>
    have hne : d ≠ 48 := by
      rintro rfl
      exact absurd hd.1 (by decide)
    have hdigit : isDigit d = true := by
      rw [isDigit, Bool.and_eq_true, decide_eq_true_iff, decide_eq_true_iff]
      exact ⟨UInt8.le_trans (by decide) hd.1, hd.2⟩
    have hall : (d :: ds).all isDigit = true := by rw [List.all_cons, hdigit, hds]; rfl
    have hloop := digitsLoop_append hall hdigits
    rw [List.cons_append] at hloop ⊢
    simp [parseUnsigned, parseInteger, hne, hd.1, hd.2, hloop, hfraction, hexponent]

theorem parseNumber_append {n : Decimal} {t ptr : List UInt8} (ht : NumberText n t)
    (hptr : Stops ptr) : parseNumber (t ++ ptr) = some (n, ptr) := by
  cases ht with
  | @positive int frac fracText expText e hint hfrac hexp =>
    have hparse := parseUnsigned_append 1 hint hfrac hexp hptr
    have hminus : ∃ b rest, int ++ (fracText ++ (expText ++ ptr)) = b :: rest ∧ b ≠ 45 := by
      cases hint with
      | zero => exact ⟨_, _, rfl, by decide⟩
      | digits hd => exact ⟨_, _, rfl, by rintro rfl; exact absurd hd.1 (by decide)⟩
    obtain ⟨b, rest, hcons, hb⟩ := hminus
    rw [List.append_assoc, List.append_assoc]
    rw [hcons] at hparse ⊢
    simp [parseNumber, hb, hparse]
  | negative hint hfrac hexp =>
    have hparse := parseUnsigned_append (-1) hint hfrac hexp hptr
    rw [List.cons_append, List.append_assoc, List.append_assoc]
    simp [parseNumber, hparse]

/-- A number begins with a minus or a digit. -/
theorem numberText_head {n : Decimal} {t : List UInt8} (ht : NumberText n t) :
    ∃ b rest, t = b :: rest ∧ (b = 45 ∨ isDigit b = true) := by
  have hfirst : ∀ {int : List UInt8}, IntPart int →
      ∃ b rest, int = b :: rest ∧ isDigit b = true := by
    intro int hint
    cases hint with
    | zero => exact ⟨48, [], rfl, by decide⟩
    | @digits d ds hd hds =>
      refine ⟨d, ds, rfl, ?_⟩
      rw [isDigit, Bool.and_eq_true, decide_eq_true_iff, decide_eq_true_iff]
      exact ⟨UInt8.le_trans (by decide) hd.1, hd.2⟩
  cases ht with
  | positive hint =>
    obtain ⟨b, rest, rfl, hb⟩ := hfirst hint
    exact ⟨b, _, rfl, .inr hb⟩
  | negative hint => exact ⟨45, _, rfl, .inl rfl⟩

/-! ## Characters -/

theorem parseHexFrom_append {n : Nat} (ptr : List UInt8) :
    ∀ {ds : List UInt8} {h : Nat}, hexFrom h ds = some n →
      parseHexFrom ds.length h (ds ++ ptr) = some n
  | [], _, hn => hn
  | d :: ds, h, hn => by
    have hfold : ((hexValue d).map (h * 16 + ·)).bind (fun h => hexFrom h ds) = some n := hn
    cases hd : hexValue d with
    | none =>
      rw [hd] at hfold
      exact absurd hfold (by simp)
    | some v =>
      rw [hd] at hfold
      rw [List.length_cons, List.cons_append, parseHexFrom, hd]
      exact parseHexFrom_append ptr hfold

theorem parseHex4_append {n : Nat} {ds : List UInt8} (hds : Hex4 n ds) (ptr : List UInt8) :
    parseHex4 (ds ++ ptr) = some n := by
  have hparse := parseHexFrom_append ptr hds.2
  rwa [hds.1] at hparse

/-- A hexadecimal digit is no byte that `parse_string` looks for. -/
theorem hexValue_plain {b : UInt8} {v : Nat} (h : hexValue b = some v) :
    b ≠ 34 ∧ b ≠ 92 ∧ b ≠ 0 := by
  refine ⟨?_, ?_, ?_⟩ <;> rintro rfl <;> exact Option.some_ne_none v (h.symm.trans rfl)

theorem hexFrom_plain : ∀ {ds : List UInt8} {h n : Nat}, hexFrom h ds = some n →
    ∀ b ∈ ds, b ≠ 34 ∧ b ≠ 92 ∧ b ≠ 0
  | [], _, _, _, b, hb => absurd hb (by simp)
  | d :: ds, h, n, hn, b, hb => by
    have hfold : ((hexValue d).map (h * 16 + ·)).bind (fun h => hexFrom h ds) = some n := hn
    cases hd : hexValue d with
    | none =>
      rw [hd] at hfold
      exact absurd hfold (by simp)
    | some v =>
      rw [hd] at hfold
      rcases List.mem_cons.mp hb with rfl | hb
      · exact hexValue_plain hd
      · exact hexFrom_plain hfold b hb

theorem continuationByte_eq (uc : Nat) :
    continuationByte uc = UInt8.ofNat (uc % 64 + 128) := by
  have hbyte : ∀ x : Fin 256, (x.val ||| 0x80) &&& 0xBF = x.val % 64 + 128 := by
    decide +kernel
  have hlow : (uc ||| 0x80) &&& 0xBF = ((uc % 256) ||| 0x80) &&& 0xBF := by
    have hle : (uc ||| 0x80) &&& 0xBF < 2 ^ 8 := Nat.and_lt_two_pow _ (by decide)
    rw [← Nat.mod_eq_of_lt hle, Nat.and_mod_two_pow, Nat.or_mod_two_pow]
  rw [continuationByte, hlow, hbyte ⟨uc % 256, Nat.mod_lt _ (by decide)⟩]
  show UInt8.ofNat (uc % 256 % 64 + 128) = _
  rw [Nat.mod_mod_of_dvd uc (by decide)]

/-- A mark above the bits of a number is added. -/
theorem or_mark {n : Nat} (x : Nat) {i : Nat} (h : n < 2 ^ i) :
    n ||| 2 ^ i * x = n + 2 ^ i * x := by
  rw [Nat.or_comm, Nat.add_comm, Nat.two_pow_add_eq_or_of_lt h]

/-- The bytes written for a character are its UTF-8. -/
theorem transcode_char (c : Char) : transcode c.toNat = String.utf8EncodeChar c := by
  have hrange : c.toNat < 0x110000 := by
    rcases c.valid with h | ⟨-, h⟩
    · exact Nat.lt_trans h (by decide)
    · exact h
  have hvalue : c.val.toNat = c.toNat := rfl
  unfold transcode String.utf8EncodeChar
  simp only [hvalue, continuationByte_eq, Nat.shiftRight_eq_div_pow, Nat.div_div_eq_div_mul]
  by_cases h1 : c.toNat < 0x80
  · rw [if_pos h1, if_pos (by omega)]
  by_cases h2 : c.toNat < 0x800
  · have hmark := or_mark (n := c.toNat / 2 ^ 6) 3 (i := 6) (by omega)
    rw [if_neg h1, if_pos h2, if_neg (by omega), if_pos (by omega)]
    rw [show (0xC0 : Nat) = 2 ^ 6 * 3 from rfl, hmark,
      Nat.mod_eq_of_lt (a := c.toNat / 64) (by omega)]
    rfl
  by_cases h3 : c.toNat < 0x10000
  · have hmark := or_mark (n := c.toNat / (2 ^ 6 * 2 ^ 6)) 14 (i := 4) (by omega)
    rw [if_neg h1, if_neg h2, if_pos h3, if_neg (by omega), if_neg (by omega), if_pos (by omega)]
    rw [show (0xE0 : Nat) = 2 ^ 4 * 14 from rfl, hmark,
      Nat.mod_eq_of_lt (a := c.toNat / 4096) (by omega)]
    rfl
  · have hmark := or_mark (n := c.toNat / (2 ^ 6 * 2 ^ 6 * 2 ^ 6)) 30 (i := 3) (by omega)
    rw [if_neg h1, if_neg h2, if_neg h3, if_neg (by omega), if_neg (by omega), if_neg (by omega)]
    rw [show (0xF0 : Nat) = 2 ^ 3 * 30 from rfl, hmark,
      Nat.mod_eq_of_lt (a := c.toNat / 262144) (by omega)]
    rfl

/-- The two halves of a pair are put together again. -/
theorem join_surrogates {c : Char} (hc : 0x10000 ≤ c.toNat) :
    0x10000 + ((highSurrogate c &&& 0x3FF) <<< 10 ||| (lowSurrogate c &&& 0x3FF)) = c.toNat := by
  have hrange : c.toNat < 0x110000 := by
    rcases c.valid with h | ⟨-, h⟩
    · exact Nat.lt_trans h (by decide)
    · exact h
  have hhigh : highSurrogate c &&& 0x3FF = (c.toNat - 0x10000) / 0x400 := by
    rw [show (0x3FF : Nat) = 2 ^ 10 - 1 from rfl, Nat.and_two_pow_sub_one_eq_mod, highSurrogate]
    omega
  have hlow : lowSurrogate c &&& 0x3FF = (c.toNat - 0x10000) % 0x400 := by
    rw [show (0x3FF : Nat) = 2 ^ 10 - 1 from rfl, Nat.and_two_pow_sub_one_eq_mod, lowSurrogate]
    omega
  rw [hhigh, hlow, ← Nat.shiftLeft_add_eq_or_of_lt (by omega), Nat.shiftLeft_eq]
  omega

theorem unicodeEscape_char {c : Char} {ds : List UInt8} (hds : Hex4 c.toNat ds)
    (hne : c.toNat ≠ 0) (ptr : List UInt8) :
    unicodeEscape (ds ++ ptr) = some (String.utf8EncodeChar c, ptr) := by
  have hscalar : c.toNat < 0xD800 ∨ 0xDFFF < c.toNat ∧ c.toNat < 0x110000 := c.valid
  rw [unicodeEscape, parseHex4_append hds]
  dsimp only
  rw [if_neg (by omega), if_neg (by omega), transcode_char, ← hds.1, List.drop_left]

theorem secondHalf_unicode {uc uc2 : Nat} {rest : List UInt8} (h : parseHex4 rest = some uc2) :
    secondHalf uc (92 :: 117 :: rest) =
      if uc2 < 0xDC00 ∨ 0xDFFF < uc2 then some ([], rest.drop 4)
      else some (transcode (0x10000 + ((uc &&& 0x3FF) <<< 10 ||| (uc2 &&& 0x3FF))),
        rest.drop 4) := by
  unfold secondHalf
  dsimp only
  rw [if_neg (show ¬(92 : UInt8) ≠ 92 by decide), if_neg (show ¬(117 : UInt8) ≠ 117 by decide), h]

theorem unicodeEscape_pair {c : Char} {hi lo : List UInt8} (hc : 0x10000 ≤ c.toNat)
    (hhi : Hex4 (highSurrogate c) hi) (hlo : Hex4 (lowSurrogate c) lo) (ptr : List UInt8) :
    unicodeEscape (hi ++ (92 :: 117 :: (lo ++ ptr))) =
      some (String.utf8EncodeChar c, ptr) := by
  have hscalar : c.toNat < 0xD800 ∨ 0xDFFF < c.toNat ∧ c.toNat < 0x110000 := c.valid
  have hhigh : 0xD800 ≤ highSurrogate c ∧ highSurrogate c ≤ 0xDBFF := by
    unfold highSurrogate
    omega
  have hlow : 0xDC00 ≤ lowSurrogate c ∧ lowSurrogate c ≤ 0xDFFF := by
    unfold lowSurrogate
    omega
  have hjoin := join_surrogates hc
  have hdrop : ∀ rest, List.drop 4 (hi ++ rest) = rest := fun rest => by
    rw [← hhi.1, List.drop_left]
  have hdrop' : ∀ rest, List.drop 4 (lo ++ rest) = rest := fun rest => by
    rw [← hlo.1, List.drop_left]
  rw [unicodeEscape, parseHex4_append hhi]
  dsimp only
  rw [if_neg (by omega), if_pos hhigh, hdrop]
  rw [secondHalf_unicode (parseHex4_append hlo ptr), if_neg (by omega), hjoin, transcode_char,
    hdrop']

/-! ## Strings -/

theorem scanLength_plain {b : UInt8} (hb : b ≠ 34 ∧ b ≠ 92 ∧ b ≠ 0) (ptr : List UInt8) :
    scanLength (b :: ptr) = (scanLength ptr).map (· + 1) := by
  have hend : ¬ (b = 34 ∨ b = 0) := by rw [not_or]; exact ⟨hb.1, hb.2.2⟩
  cases ptr with
  | nil => simp [scanLength, hend]
  | cons c ptr => rw [scanLength, if_neg hend, if_neg hb.2.1]

theorem scanLength_escape (c : UInt8) (ptr : List UInt8) :
    scanLength (92 :: c :: ptr) = (scanLength ptr).map (· + 1) := by
  rw [scanLength, if_neg (by decide), if_pos rfl]

theorem scanLength_digits {ds : List UInt8} (hds : ∀ b ∈ ds, b ≠ 34 ∧ b ≠ 92 ∧ b ≠ 0)
    {ptr : List UInt8} {len : Nat} (hptr : scanLength ptr = some len) :
    scanLength (ds ++ ptr) = some (len + ds.length) := by
  induction ds with
  | nil => exact hptr
  | cons d ds ih =>
    rw [List.cons_append, scanLength_plain (hds d List.mem_cons_self),
      ih fun b hb => hds b (.tail d hb)]
    rfl

/-- What the first loop counts has room for the string. -/
theorem scanLength_body {s t : List UInt8} (h : StringBody s t) (ptr : List UInt8) :
    ∃ len, scanLength (t ++ 34 :: ptr) = some len ∧ s.length ≤ len := by
  have hchar : ∀ c : Char, (String.utf8EncodeChar c).length ≤ 4 := fun c => by
    rw [String.length_utf8EncodeChar]
    exact c.utf8Size_le_four
  induction h with
  | nil =>
    refine ⟨0, ?_, Nat.le_refl 0⟩
    cases ptr with
    | nil => rfl
    | cons c ptr => rw [List.nil_append, scanLength, if_pos (.inl rfl)]
  | @plain b s t hb _ ih =>
    obtain ⟨len, hlen, hle⟩ := ih
    have hne : b ≠ 0 := by
      rintro rfl
      exact absurd hb.1 (by decide)
    refine ⟨len + 1, ?_, by simp only [List.length_cons]; omega⟩
    rw [List.cons_append, scanLength_plain ⟨hb.2.1, hb.2.2, hne⟩, hlen]
    rfl
  | @escape c b s t _ _ ih =>
    obtain ⟨len, hlen, hle⟩ := ih
    refine ⟨len + 1, ?_, by simp only [List.length_cons]; omega⟩
    rw [List.cons_append, List.cons_append, scanLength_escape, hlen]
    rfl
  | @unicode c ds s t hds _ ih =>
    obtain ⟨len, hlen, hle⟩ := ih
    have hsize := hchar c
    refine ⟨len + ds.length + 1, ?_, by rw [List.length_append, hds.1]; omega⟩
    rw [List.cons_append, List.cons_append, scanLength_escape, List.append_assoc,
      scanLength_digits (hexFrom_plain hds.2) hlen]
    rfl
  | @pair c hi lo s t _ hhi hlo _ ih =>
    obtain ⟨len, hlen, hle⟩ := ih
    have hsize := hchar c
    refine ⟨len + lo.length + 1 + hi.length + 1, ?_, by
      rw [List.length_append, hhi.1, hlo.1]; omega⟩
    have hsecond : scanLength (92 :: 117 :: (lo ++ (t ++ 34 :: ptr))) =
        some (len + lo.length + 1) := by
      rw [scanLength_escape, scanLength_digits (hexFrom_plain hlo.2) hlen]
      rfl
    rw [List.cons_append, List.cons_append, scanLength_escape, List.append_assoc,
      List.cons_append, List.cons_append, List.append_assoc,
      scanLength_digits (hexFrom_plain hhi.2) hsecond]
    rfl

theorem decodeFrom_end {b : UInt8} (hb : b = 34 ∨ b = 0) (n : Nat) (ptr : List UInt8) :
    decodeFrom (n + 1) (b :: ptr) = some ([], b :: ptr) := by
  show (if b = 34 ∨ b = 0 then some ([], b :: ptr) else _) = _
  rw [if_pos hb]

theorem decodeFrom_plain {b : UInt8} (hb : b ≠ 34 ∧ b ≠ 92 ∧ b ≠ 0) (n : Nat)
    (ptr : List UInt8) :
    decodeFrom (n + 1) (b :: ptr) = (decodeFrom n ptr).map fun p => (b :: p.1, p.2) := by
  show (if b = 34 ∨ b = 0 then some ([], b :: ptr) else if b ≠ 92 then _ else _) = _
  rw [if_neg (by rw [not_or]; exact ⟨hb.1, hb.2.2⟩), if_pos hb.2.1]

theorem decodeFrom_escape {c : UInt8} (hc : c ≠ 117) (n : Nat) (ptr : List UInt8) :
    decodeFrom (n + 1) (92 :: c :: ptr) =
      (decodeFrom n ptr).map fun p => (unescape c :: p.1, p.2) := by
  show (if c = 117 then _ else _) = _
  rw [if_neg hc]

theorem decodeFrom_unicode {ptr : List UInt8} {out rest : List UInt8}
    (h : unicodeEscape ptr = some (out, rest)) (n : Nat) :
    decodeFrom (n + 1) (92 :: 117 :: ptr) =
      (decodeFrom n rest).map fun p => (out ++ p.1, p.2) := by
  conv_lhs => unfold decodeFrom
  rw [if_neg (by decide), if_neg (by decide)]
  dsimp only
  rw [if_pos rfl, h]

/-- The second loop writes the string and stops at the quote. -/
theorem decodeFrom_body {s t : List UInt8} (h : StringBody s t) (hnul : 0 ∉ s)
    (ptr : List UInt8) : ∀ {fuel : Nat}, t.length < fuel →
      decodeFrom fuel (t ++ 34 :: ptr) = some (s, 34 :: ptr) := by
  have hunicode : ∀ c : Char, 0 ∉ String.utf8EncodeChar c → c.toNat ≠ 0 := by
    intro c hc hzero
    have hnull : c = Char.ofNat 0 := by
      rw [← Char.ofNat_toNat c, hzero]
    exact hc (by rw [hnull]; decide)
  induction h with
  | nil =>
    intro fuel hfuel
    obtain ⟨n, rfl⟩ := Nat.exists_eq_succ_of_ne_zero (Nat.ne_of_gt hfuel)
    exact decodeFrom_end (.inl rfl) n ptr
  | @plain b s t hb _ ih =>
    intro fuel hfuel
    obtain ⟨n, rfl⟩ := Nat.exists_eq_succ_of_ne_zero (Nat.ne_of_gt (Nat.zero_lt_of_lt hfuel))
    rw [List.mem_cons, not_or] at hnul
    rw [List.length_cons] at hfuel
    rw [List.cons_append, decodeFrom_plain ⟨hb.2.1, hb.2.2, fun h0 => hnul.1 h0.symm⟩,
      ih hnul.2 (by omega)]
    rfl
  | @escape c b s t hc _ ih =>
    intro fuel hfuel
    obtain ⟨n, rfl⟩ := Nat.exists_eq_succ_of_ne_zero (Nat.ne_of_gt (Nat.zero_lt_of_lt hfuel))
    rw [List.mem_cons, not_or] at hnul
    simp only [List.length_cons] at hfuel
    have hletter : c ≠ 117 ∧ unescape c = b := by
      simp only [escapes, List.mem_cons, Prod.mk.injEq, List.not_mem_nil, or_false] at hc
      rcases hc with h | h | h | h | h | h | h | h <;> obtain ⟨rfl, rfl⟩ := h <;> decide
    rw [List.cons_append, List.cons_append, decodeFrom_escape hletter.1, ih hnul.2 (by omega),
      hletter.2]
    rfl
  | @unicode c ds s t hds _ ih =>
    intro fuel hfuel
    obtain ⟨n, rfl⟩ := Nat.exists_eq_succ_of_ne_zero (Nat.ne_of_gt (Nat.zero_lt_of_lt hfuel))
    rw [List.mem_append, not_or] at hnul
    simp only [List.length_cons, List.length_append] at hfuel
    rw [List.cons_append, List.cons_append, List.append_assoc,
      decodeFrom_unicode (unicodeEscape_char hds (hunicode c hnul.1) _), ih hnul.2 (by omega)]
    rfl
  | @pair c hi lo s t hc hhi hlo _ ih =>
    intro fuel hfuel
    obtain ⟨n, rfl⟩ := Nat.exists_eq_succ_of_ne_zero (Nat.ne_of_gt (Nat.zero_lt_of_lt hfuel))
    rw [List.mem_append, not_or] at hnul
    simp only [List.length_cons, List.length_append] at hfuel
    rw [List.cons_append, List.cons_append, List.append_assoc, List.cons_append,
      List.cons_append, List.append_assoc, decodeFrom_unicode (unicodeEscape_pair hc hhi hlo _),
      ih hnul.2 (by omega)]
    rfl

theorem parseString_append {s t : List UInt8} (h : StringText s t) (hnul : 0 ∉ s)
    (ptr : List UInt8) : parseString (t ++ ptr) = .item s ptr := by
  obtain ⟨hbody⟩ := h
  rename_i t
  obtain ⟨len, hlen, hle⟩ := scanLength_body hbody ptr
  have hdecode : decodeFrom ((t ++ 34 :: ptr).length + 1) (t ++ 34 :: ptr) =
      some (s, 34 :: ptr) := decodeFrom_body hbody hnul ptr (by rw [List.length_append]; omega)
  rw [List.cons_append, List.append_assoc, List.singleton_append, parseString,
    if_neg (by decide), hlen, hdecode]
  dsimp only
  rw [if_neg (by omega)]
  rfl

/-! ## Values -/

theorem skip_head {ptr ptr' : List UInt8} (h : skip ptr = some ptr') :
    ∃ b rest, ptr' = b :: rest ∧ (b = 0 ∨ 32 < b) := by
  induction ptr with
  | nil => exact absurd h (by simp [skip])
  | cons b ptr ih =>
    rw [skip] at h
    split at h
    · exact ih h
    · rename_i hstop
      refine ⟨b, ptr, (Option.some.inj h).symm, ?_⟩
      by_cases hzero : b = 0
      · exact .inl hzero
      · exact .inr (UInt8.not_le.mp fun hle => hstop ⟨hzero, hle⟩)

theorem skipThen_of_skip {α : Type} {ptr ptr' : List UInt8} (h : skip ptr = some ptr')
    (p : List UInt8 → Parsed α) : skipThen ptr' p = skipThen ptr p := by
  obtain ⟨b, rest, rfl, hb⟩ := skip_head h
  rw [skipThen_cons hb, skipThen, h]

/-- The first byte of a value. -/
def isValueStart (b : UInt8) : Bool :=
  b == 110 || b == 116 || b == 102 || b == 45 || isDigit b || b == 34 || b == 91 || b == 123

theorem stringText_head {s t : List UInt8} (h : StringText s t) : ∃ rest, t = 34 :: rest := by
  cases h
  exact ⟨_, rfl⟩

theorem denotes_head {v : Json Decimal} {t : List UInt8} (h : Denotes v t) :
    ∃ b rest, t = b :: rest ∧ isValueStart b = true := by
  cases h with
  | number h =>
    obtain ⟨b, rest, rfl, hb⟩ := numberText_head h
    refine ⟨b, rest, rfl, ?_⟩
    rcases hb with rfl | hb
    · decide
    · simp [isValueStart, hb]
  | string h =>
    cases h
    exact ⟨_, _, rfl, by decide⟩
  | _ => exact ⟨_, _, rfl, by decide⟩

theorem isValueStart_range {b : UInt8} (hb : isValueStart b = true) : 32 < b ∧ b ≠ 93 := by
  have hdigit : isDigit b = true → 32 < b ∧ b ≠ 93 := by
    intro h
    rw [isDigit, Bool.and_eq_true, decide_eq_true_iff, decide_eq_true_iff] at h
    refine ⟨UInt8.lt_of_lt_of_le (by decide) h.1, ?_⟩
    rintro rfl
    exact absurd h.2 (by decide)
  simp only [isValueStart, Bool.or_eq_true, beq_iff_eq] at hb
  rcases hb with ((((((rfl | rfl) | rfl) | rfl) | hb) | rfl) | rfl) | rfl
  case inl.inl.inl.inr => exact hdigit hb
  all_goals decide

/-- White space in front of a text is skipped, and not more. -/
theorem skip_spaced {t t' : List UInt8} (ht : Spaced t t') {b : UInt8} {rest : List UInt8}
    (hhead : t = b :: rest) (hb : 32 < b) (ptr : List UInt8) :
    ∃ w, w.all isBlank = true ∧ skip (t' ++ ptr) = some (t ++ (w ++ ptr)) ∧
      t.length ≤ t'.length := by
  obtain @⟨w, w', hw, hw'⟩ := ht
  refine ⟨w', hw', ?_, by simp only [List.length_append]; omega⟩
  rw [List.append_assoc, List.append_assoc, skip_blank hw, hhead, List.cons_append,
    skip_cons (.inr hb)]

/-- A number that is followed by white space, or by what ends an item, stops there. -/
theorem stops_blank {w : List UInt8} (hw : w.all isBlank = true) {b : UInt8}
    (hb : isDigit b = false ∧ b ≠ 46 ∧ b ≠ 101 ∧ b ≠ 69) (ptr : List UInt8) :
    Stops (w ++ b :: ptr) := by
  cases w with
  | nil => exact ⟨b, ptr, rfl, hb⟩
  | cons c w =>
    rw [List.all_cons, Bool.and_eq_true] at hw
    refine ⟨c, w ++ b :: ptr, rfl, ?_⟩
    have hcases := hw.1
    simp only [isBlank, Bool.or_eq_true, beq_iff_eq] at hcases
    rcases hcases with ((rfl | rfl) | rfl) | rfl <;> decide

theorem items_head {items : List (Json Decimal)} {ts : List UInt8} (h : DenotesItems items ts)
    (ptr : List UInt8) : ∃ b rest, skip (ts ++ ptr) = some (b :: rest) ∧ b ≠ 93 := by
  have hitem : ∀ {v : Json Decimal} {t t' : List UInt8}, Denotes v t → Spaced t t' →
      ∀ ptr, ∃ b rest, skip (t' ++ ptr) = some (b :: rest) ∧ b ≠ 93 := by
    intro v t t' h ht ptr
    obtain ⟨b, rest, hhead, hb⟩ := denotes_head h
    obtain ⟨hlow, hne⟩ := isValueStart_range hb
    obtain ⟨w, -, hskip, -⟩ := skip_spaced ht hhead hlow ptr
    exact ⟨b, rest ++ (w ++ ptr), by rw [hskip, hhead]; rfl, hne⟩
  cases h with
  | last h ht => exact hitem h ht ptr
  | cons h ht hs =>
    rw [List.append_assoc]
    exact hitem h ht _

theorem members_head {members : List (List UInt8 × Json Decimal)} {ts : List UInt8}
    (h : DenotesMembers members ts) (ptr : List UInt8) :
    ∃ rest, skip (ts ++ ptr) = some (34 :: rest) := by
  have hname : ∀ {name k k' : List UInt8}, StringText name k → Spaced k k' →
      ∀ ptr, ∃ rest, skip (k' ++ ptr) = some (34 :: rest) := by
    intro name k k' hk hk' ptr
    obtain ⟨rest, hhead⟩ := stringText_head hk
    obtain ⟨w, -, hskip, -⟩ := skip_spaced hk' hhead (by decide) ptr
    exact ⟨rest ++ (w ++ ptr), by rw [hskip, hhead]; rfl⟩
  cases h with
  | last hk hk' =>
    rw [List.append_assoc]
    exact hname hk hk' _
  | cons hk hk' =>
    rw [List.append_assoc]
    exact hname hk hk' _

/-- Where the literals are ruled out, `parse_value` looks at the first byte. -/
theorem parseValue_first {b : UInt8} (hb : b ≠ 110 ∧ b ≠ 102 ∧ b ≠ 116) (n : Nat)
    (rest : List UInt8) :
    parseValue (n + 1) (b :: rest) =
      if b = 34 then (parseString (b :: rest)).map .string
      else if b = 45 ∨ isDigit b = true then (Parsed.ofRead (parseNumber (b :: rest))).map .number
      else if b = 91 then parseArray n (b :: rest)
      else if b = 123 then parseObject n (b :: rest)
      else .null := by
  rw [parseValue]
  have hnull : ascii "null" = 110 :: ascii "ull" := by decide
  have hfalse : ascii "false" = 102 :: ascii "alse" := by decide
  have htrue : ascii "true" = 116 :: ascii "rue" := by decide
  rw [hnull, hfalse, htrue, parseLiteral_ne hb.1, parseLiteral_ne hb.2.1, parseLiteral_ne hb.2.2]

mutual

/-- **`parse_value` reads a text of the grammar to the value it denotes.** -/
theorem parseValue_denotes {v : Json Decimal} {t : List UInt8} (h : Denotes v t)
    (hnul : v.Strings (0 ∉ ·)) {fuel : Nat} (hfuel : 3 * t.length < fuel) {ptr : List UInt8}
    (hptr : Stops ptr) : parseValue fuel (t ++ ptr) = .item v ptr := by
  obtain ⟨n, rfl⟩ := Nat.exists_eq_succ_of_ne_zero (Nat.ne_of_gt (Nat.zero_lt_of_lt hfuel))
  match h with
  | .null =>
    show parseLiteral (ascii "null") _ (ascii "null" ++ ptr) _ = _
    rw [parseLiteral_append]
  | .true =>
    show parseLiteral (110 :: ascii "ull") .null (116 :: (ascii "rue" ++ ptr))
      (parseLiteral (102 :: ascii "alse") (.bool false) (116 :: (ascii "rue" ++ ptr))
        (parseLiteral (ascii "true") _ (ascii "true" ++ ptr) _)) = _
    rw [parseLiteral_ne (by decide), parseLiteral_ne (by decide), parseLiteral_append]
  | .false =>
    show parseLiteral (110 :: ascii "ull") .null (102 :: (ascii "alse" ++ ptr))
      (parseLiteral (ascii "false") _ (ascii "false" ++ ptr) _) = _
    rw [parseLiteral_ne (by decide), parseLiteral_append]
  | .number hnum =>
    obtain ⟨b, rest, rfl, hb⟩ := numberText_head hnum
    have hparse := parseNumber_append hnum hptr
    have hne : b ≠ 110 ∧ b ≠ 102 ∧ b ≠ 116 ∧ b ≠ 34 := by
      refine ⟨?_, ?_, ?_, ?_⟩ <;> rintro rfl <;> exact absurd hb (by decide)
    rw [List.cons_append] at hparse ⊢
    rw [parseValue_first ⟨hne.1, hne.2.1, hne.2.2.1⟩, if_neg hne.2.2.2, if_pos hb, hparse]
    rfl
  | .string hs =>
    have hparse := parseString_append hs hnul ptr
    obtain ⟨hbody⟩ := hs
    rw [List.cons_append] at hparse ⊢
    rw [parseValue_first (by decide), if_pos rfl, hparse]
    rfl
  | .emptyArray hw =>
    rename_i w
    obtain ⟨m, rfl⟩ := Nat.exists_eq_succ_of_ne_zero (n := n) (by
      simp only [List.length_cons] at hfuel
      omega)
    rw [List.cons_append, parseValue_first (by decide), if_neg (by decide), if_neg (by decide),
      if_pos rfl, parseArray, if_neg (by decide), List.append_assoc,
      List.singleton_append, skipThen_blank hw (by decide), List.head?_cons, if_pos rfl]
    rfl
  | .array hitems =>
    rename_i items ts
    simp only [List.length_cons, List.length_append, List.length_nil] at hfuel
    obtain ⟨m, rfl⟩ := Nat.exists_eq_add_of_le (show 2 ≤ n by omega)
    obtain ⟨b, rest, hskip, hb⟩ := items_head hitems (93 :: ptr)
    have hparse : parseItems (m + 1) (ts ++ 93 :: ptr) = .item items ptr :=
      parseItems_denotes hitems hnul (by omega) ptr
    rw [List.cons_append, parseValue_first (by decide), if_neg (by decide), if_neg (by decide),
      if_pos rfl, show 2 + m = m + 1 + 1 by omega, parseArray, if_neg (by decide),
      List.append_assoc, List.singleton_append, skipThen, hskip]
    dsimp only
    rw [List.head?_cons, if_neg (by simpa using hb), parseItems, skipThen_of_skip hskip]
    rw [parseItems] at hparse
    rw [hparse]
    rfl
  | .emptyObject hw =>
    rename_i w
    obtain ⟨m, rfl⟩ := Nat.exists_eq_succ_of_ne_zero (n := n) (by
      simp only [List.length_cons] at hfuel
      omega)
    rw [List.cons_append, parseValue_first (by decide), if_neg (by decide), if_neg (by decide),
      if_neg (by decide), if_pos rfl, parseObject, if_neg (by decide),
      List.append_assoc, List.singleton_append, skipThen_blank hw (by decide), List.head?_cons,
      if_pos rfl]
    rfl
  | .object hmembers =>
    rename_i members ts
    simp only [List.length_cons, List.length_append, List.length_nil] at hfuel
    obtain ⟨m, rfl⟩ := Nat.exists_eq_add_of_le (show 2 ≤ n by omega)
    obtain ⟨rest, hskip⟩ := members_head hmembers (125 :: ptr)
    have hparse : parseMembers (m + 1) (ts ++ 125 :: ptr) = .item members ptr :=
      parseMembers_denotes hmembers hnul (by omega) ptr
    rw [List.cons_append, parseValue_first (by decide), if_neg (by decide), if_neg (by decide),
      if_neg (by decide), if_pos rfl, show 2 + m = m + 1 + 1 by omega, parseObject,
      if_neg (by decide), List.append_assoc, List.singleton_append, skipThen, hskip]
    dsimp only
    rw [List.head?_cons, if_neg (by decide), parseMembers, skipThen_of_skip hskip]
    rw [parseMembers] at hparse
    rw [hparse]
    rfl

theorem parseItems_denotes {items : List (Json Decimal)} {ts : List UInt8}
    (h : DenotesItems items ts) (hnul : ItemStrings (0 ∉ ·) items) {fuel : Nat}
    (hfuel : 3 * ts.length + 1 < fuel) (ptr : List UInt8) :
    parseItems fuel (ts ++ 93 :: ptr) = .item items ptr := by
  obtain ⟨n, rfl⟩ := Nat.exists_eq_succ_of_ne_zero (Nat.ne_of_gt (Nat.zero_lt_of_lt hfuel))
  match h with
  | .last hv ht =>
    rename_i v t
    obtain ⟨b, rest, hhead, hb⟩ := denotes_head hv
    obtain ⟨w, hw, hskip, hlen⟩ :=
      skip_spaced ht hhead (isValueStart_range hb).1 (93 :: ptr)
    have hparse : parseValue n (t ++ (w ++ 93 :: ptr)) = .item v (w ++ 93 :: ptr) :=
      parseValue_denotes hv hnul.1 (by omega) (stops_blank hw (by decide) ptr)
    rw [Nat.succ_eq_add_one, parseItems, skipThen, hskip]
    dsimp only
    rw [hparse, Parsed.bind_item]
    rw [skipThen_blank hw (by decide), List.head?_cons, if_neg (by decide), if_pos rfl]
    rfl
  | .cons hv ht hs =>
    rename_i v items t t' ts
    simp only [List.length_cons, List.length_append] at hfuel
    obtain ⟨b, rest, hhead, hb⟩ := denotes_head hv
    rw [List.append_assoc, List.cons_append]
    obtain ⟨w, hw, hskip, hlen⟩ :=
      skip_spaced ht hhead (isValueStart_range hb).1 (44 :: (ts ++ 93 :: ptr))
    have hparse : parseValue n (t ++ (w ++ 44 :: (ts ++ 93 :: ptr))) =
        .item v (w ++ 44 :: (ts ++ 93 :: ptr)) :=
      parseValue_denotes hv hnul.1 (by omega) (stops_blank hw (by decide) _)
    have hparse' : parseItems n (ts ++ 93 :: ptr) = .item items ptr :=
      parseItems_denotes hs hnul.2 (by omega) ptr
    rw [Nat.succ_eq_add_one, parseItems, skipThen, hskip]
    dsimp only
    rw [hparse, Parsed.bind_item]
    rw [skipThen_blank hw (by decide), List.head?_cons, if_pos rfl, List.tail_cons, hparse']
    rfl

theorem parseMembers_denotes {members : List (List UInt8 × Json Decimal)} {ts : List UInt8}
    (h : DenotesMembers members ts) (hnul : MemberStrings (0 ∉ ·) members) {fuel : Nat}
    (hfuel : 3 * ts.length + 1 < fuel) (ptr : List UInt8) :
    parseMembers fuel (ts ++ 125 :: ptr) = .item members ptr := by
  obtain ⟨n, rfl⟩ := Nat.exists_eq_succ_of_ne_zero (Nat.ne_of_gt (Nat.zero_lt_of_lt hfuel))
  match h with
  | .last hk hk' hv ht =>
    rename_i name v k k' t t'
    simp only [List.length_cons, List.length_append] at hfuel
    obtain ⟨b, rest, hhead, hb⟩ := denotes_head hv
    rw [List.append_assoc, List.cons_append]
    obtain ⟨krest, hkhead⟩ := stringText_head hk
    obtain ⟨kw, hkw, hkskip, -⟩ := skip_spaced hk' hkhead (by decide) (58 :: (t' ++ 125 :: ptr))
    obtain ⟨w, hw, hskip, hlen⟩ :=
      skip_spaced ht hhead (isValueStart_range hb).1 (125 :: ptr)
    have hname := parseString_append hk hnul.1 (kw ++ 58 :: (t' ++ 125 :: ptr))
    have hparse : parseValue n (t ++ (w ++ 125 :: ptr)) = .item v (w ++ 125 :: ptr) :=
      parseValue_denotes hv hnul.2.1 (by omega) (stops_blank hw (by decide) ptr)
    rw [Nat.succ_eq_add_one, parseMembers, skipThen, hkskip]
    dsimp only
    rw [hname, Parsed.bind_item]
    rw [skipThen_blank hkw (by decide), List.head?_cons, if_neg (by simp), List.tail_cons,
      skipThen, hskip]
    dsimp only
    rw [hparse, Parsed.bind_item]
    rw [skipThen_blank hw (by decide), List.head?_cons, if_neg (by decide), if_pos rfl]
    rfl
  | .cons hk hk' hv ht hs =>
    rename_i name v members k k' t t' ts
    simp only [List.length_cons, List.length_append] at hfuel
    obtain ⟨b, rest, hhead, hb⟩ := denotes_head hv
    simp only [List.append_assoc, List.cons_append]
    obtain ⟨krest, hkhead⟩ := stringText_head hk
    obtain ⟨kw, hkw, hkskip, -⟩ := skip_spaced hk' hkhead (by decide)
      (58 :: (t' ++ 44 :: (ts ++ 125 :: ptr)))
    obtain ⟨w, hw, hskip, hlen⟩ :=
      skip_spaced ht hhead (isValueStart_range hb).1 (44 :: (ts ++ 125 :: ptr))
    have hname := parseString_append hk hnul.1 (kw ++ 58 :: (t' ++ 44 :: (ts ++ 125 :: ptr)))
    have hparse : parseValue n (t ++ (w ++ 44 :: (ts ++ 125 :: ptr))) =
        .item v (w ++ 44 :: (ts ++ 125 :: ptr)) :=
      parseValue_denotes hv hnul.2.1 (by omega) (stops_blank hw (by decide) _)
    have hparse' : parseMembers n (ts ++ 125 :: ptr) = .item members ptr :=
      parseMembers_denotes hs hnul.2.2 (by omega) ptr
    rw [Nat.succ_eq_add_one, parseMembers, skipThen, hkskip]
    dsimp only
    rw [hname, Parsed.bind_item]
    rw [skipThen_blank hkw (by decide), List.head?_cons, if_neg (by simp), List.tail_cons,
      skipThen, hskip]
    dsimp only
    rw [hparse, Parsed.bind_item]
    rw [skipThen_blank hw (by decide), List.head?_cons, if_pos rfl, List.tail_cons, hparse']
    rfl

end

/-- The pointer that `parse_value` returns for the text. -/
theorem parseValue_text {v : Json Decimal} {t w : List UInt8} (h : Denotes v t)
    (hnul : v.Strings (0 ∉ ·)) (hw : w.all isBlank = true) {ptr : List UInt8}
    (hptr : Stops ptr) :
    ∃ start, skip (w ++ (t ++ ptr)) = some start ∧
      parseValue (3 * (w ++ (t ++ ptr)).length + 1) start = .item v ptr := by
  obtain ⟨b, rest, hhead, hb⟩ := denotes_head h
  refine ⟨t ++ ptr, ?_, parseValue_denotes h hnul (by simp only [List.length_append]; omega) hptr⟩
  rw [skip_blank hw, hhead, List.cons_append, skip_cons (.inr (isValueStart_range hb).1)]

/-- `cJSON_Parse` reads a text of the grammar to the value it denotes. -/
theorem parse_denotes {v : Json Decimal} {t : List UInt8} (h : Denotes v t)
    (hnul : v.Strings (0 ∉ ·)) {ptr : List UInt8} (hptr : Stops ptr) :
    parse (t ++ ptr) = .item v ptr := by
  obtain ⟨start, hskip, hparse⟩ := parseValue_text h hnul (w := []) rfl hptr
  rw [List.nil_append] at hskip hparse
  rw [parse, parseWithOpts, skipThen, hskip]
  dsimp only
  rw [hparse]
  rfl

/-- **`cJSON_ParseWithOpts` reads every C string that is a text of the JSON grammar, with
white space around it, to the value the text denotes, unless a string of it has a NUL.  The
pointer it returns is right behind the text, or at the NUL where that is asked for.**  The
numbers are integers of 53 bits, which `parse_number` stores without rounding. -/
theorem parseWithOpts_standard {v : Json Decimal} {t w w' : List UInt8} (h : Denotes v t)
    (hnul : v.Strings (0 ∉ ·)) (hnumbers : v.Numbers fun d => d.exponent = 0 ∧ Fits53 d.mantissa)
    (hw : w.all isBlank = true) (hw' : w'.all isBlank = true) (requireNullTerminated : Bool)
    (mem : List UInt8) :
    parseWithOpts (w ++ (t ++ (w' ++ 0 :: mem))) requireNullTerminated =
        .item v (if requireNullTerminated then 0 :: mem else w' ++ 0 :: mem) ∧
      v.Numbers StoredExactly := by
  refine ⟨?_, hnumbers.imp fun d hd => storedExactly_of_fits hd.1 hd.2⟩
  obtain ⟨start, hskip, hparse⟩ := parseValue_text h hnul hw
    (stops_blank hw' (b := 0) (by decide) mem)
  rw [parseWithOpts, skipThen, hskip]
  dsimp only
  rw [hparse, Parsed.bind_item, skipThen_blank hw' (.inl rfl), List.head?_cons, if_pos rfl]
  cases requireNullTerminated <;> rfl

/-- A number and a string with an escape, in an array. -/
theorem parseWithOpts_standard_array :
    parseWithOpts ([32] ++ ([91, 45, 49, 53, 32, 44, 34, 92, 117, 48, 48, 101, 57, 34, 93] ++
        ([10] ++ 0 :: []))) true =
        .item (.array [.number ⟨-15, 0⟩, .string [195, 169]]) [0] ∧
      Json.Numbers StoredExactly (.array [.number ⟨-15, 0⟩, .string [195, 169]]) := by
  have hint : IntPart [49, 53] := .digits (by decide) rfl
  have hnumber : NumberText ⟨-15, 0⟩ [45, 49, 53] := .negative hint .absent .absent
  have hspaced : Spaced [45, 49, 53] [45, 49, 53, 32] :=
    .around (show [].all isBlank = true from rfl) (show [32].all isBlank = true from rfl)
  have hdigits : Hex4 'é'.toNat [48, 48, 101, 57] := ⟨rfl, rfl⟩
  have hstring : StringText [195, 169] [34, 92, 117, 48, 48, 101, 57, 34] :=
    .quoted (.unicode hdigits .nil)
  have hfits : Fits53 (-15) := by unfold Fits53; decide
  exact parseWithOpts_standard
    (.array (.cons (.number hnumber) hspaced (.last (.string hstring) (.refl _))))
    ⟨trivial, show 0 ∉ [195, 169] by decide, trivial⟩ ⟨⟨rfl, hfits⟩, trivial, trivial⟩
    rfl rfl true []

end WowProxy.CJson
