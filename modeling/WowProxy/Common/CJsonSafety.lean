/-
  Common/CJsonSafety.lean --- what `cJSON_Parse` reads and writes on texts it may reject.

  Both loops of `parse_string` trust an escape to be complete: the first steps over the
  byte behind a backslash, the second over the four bytes behind `\u`, without a look at
  what is there.  `Escaped` says that no escape of a C string is cut short, by a quote or by
  the NUL.  On every such string, well formed or not, the parser reads nothing behind the
  NUL, writes nothing behind what it allocates, and comes to an end.
-/
import WowProxy.Common.CJsonAccepts

set_option autoImplicit false

namespace WowProxy.CJson

open WowProxy.Lib.JsonText

/-! ## Complete escapes -/

/-- The four bytes behind `\u` are digits. -/
def FourDigits (ds : List UInt8) : Prop := ds.length = 4 ∧ ∀ d ∈ ds, (hexValue d).isSome = true

theorem fourDigits_of_all {ds : List UInt8} (hlength : ds.length = 4)
    (hdigits : ds.all (fun d => (hexValue d).isSome) = true) : FourDigits ds :=
  ⟨hlength, List.all_eq_true.mp hdigits⟩

/-- A pointer into a C string whose escapes are complete. -/
inductive Escaped : List UInt8 → Prop where
  | nul (ptr : List UInt8) : Escaped (0 :: ptr)
  | plain {b : UInt8} {ptr : List UInt8} (hb : b ≠ 92) (hnul : b ≠ 0) (h : Escaped ptr) :
      Escaped (b :: ptr)
  | short {c : UInt8} {ptr : List UInt8} (hc : c ≠ 117) (hnul : c ≠ 0) (h : Escaped ptr) :
      Escaped (92 :: c :: ptr)
  | unicode {ds ptr : List UInt8} (hds : FourDigits ds) (h : Escaped ptr) :
      Escaped (92 :: 117 :: (ds ++ ptr))

theorem Escaped.cons {ptr : List UInt8} (h : Escaped ptr) : ∃ b rest, ptr = b :: rest := by
  cases h <;> exact ⟨_, _, rfl⟩

/-- A byte that is no backslash and not the end is stepped over. -/
theorem Escaped.tail {b : UInt8} {ptr : List UInt8} (h : Escaped (b :: ptr)) (hb : b ≠ 92)
    (hnul : b ≠ 0) : Escaped ptr := by
  cases h with
  | nul => exact absurd rfl hnul
  | plain _ _ h => exact h
  | short => exact absurd rfl hb
  | unicode => exact absurd rfl hb

/-! ## Outcomes -/

/-- The call does not fault; what it returns has the property, and its pointer has moved
inside the string, past some byte of the last `n`. -/
def Safe {α : Type} (P : α → Prop) (n : Nat) : Parsed α → Prop
  | .fault => False
  | .null => True
  | .item a ptr => P a ∧ Escaped ptr ∧ ptr.length < n

theorem Safe.bind {α β : Type} {P : α → Prop} {Q : β → Prop} {n m : Nat} {p : Parsed α}
    {f : α → List UInt8 → Parsed β} (hp : Safe P n p)
    (hf : ∀ a ptr, P a → Escaped ptr → ptr.length < n → Safe Q m (f a ptr)) :
    Safe Q m (p.bind f) := by
  cases p with
  | fault => exact hp
  | null => trivial
  | item a ptr => exact hf a ptr hp.1 hp.2.1 hp.2.2

theorem Safe.map {α β : Type} {P : α → Prop} {Q : β → Prop} {n m : Nat} {p : Parsed α}
    {f : α → β} (hp : Safe P n p) (hnm : n ≤ m) (hf : ∀ a, P a → Q (f a)) :
    Safe Q m (p.map f) :=
  hp.bind fun a _ ha hptr hlen => ⟨hf a ha, hptr, Nat.lt_of_lt_of_le hlen hnm⟩

theorem skip_safe {ptr : List UInt8} (h : Escaped ptr) :
    ∃ ptr', skip ptr = some ptr' ∧ Escaped ptr' ∧ ptr'.length ≤ ptr.length := by
  induction ptr with
  | nil =>
    obtain ⟨b, rest, hcons⟩ := h.cons
    exact absurd hcons (by simp)
  | cons b ptr ih =>
    by_cases hb : b ≠ 0 ∧ b ≤ 32
    · have hne : b ≠ 92 := by
        rintro rfl
        exact absurd hb.2 (by decide)
      obtain ⟨ptr', hskip, hptr, hlen⟩ := ih (h.tail hne hb.1)
      refine ⟨ptr', ?_, hptr, Nat.le_succ_of_le hlen⟩
      rw [skip, if_pos hb, hskip]
    · exact ⟨b :: ptr, by rw [skip, if_neg hb], h, Nat.le_refl _⟩

theorem skipThen_safe {α : Type} {P : α → Prop} {m : Nat} {ptr : List UInt8}
    {p : List UInt8 → Parsed α} (h : Escaped ptr)
    (hp : ∀ b rest, Escaped (b :: rest) → (b :: rest).length ≤ ptr.length →
      Safe P m (p (b :: rest))) : Safe P m (skipThen ptr p) := by
  obtain ⟨ptr', hskip, hptr, hlen⟩ := skip_safe h
  obtain ⟨b, rest, rfl⟩ := hptr.cons
  rw [skipThen, hskip]
  exact hp b rest hptr hlen

/-! ## Literals and numbers -/

theorem strncmpEq_safe : ∀ {literal value : List UInt8}, (∀ c ∈ literal, c ≠ 0 ∧ c ≠ 92) →
    Escaped value → strncmpEq value literal = some false ∨
      strncmpEq value literal = some true ∧ ∃ rest, value = literal ++ rest ∧ Escaped rest
  | [], value, _, hvalue => .inr ⟨by cases value <;> rfl, value, rfl, hvalue⟩
  | c :: literal, value, hliteral, hvalue => by
    obtain ⟨b, rest, rfl⟩ := hvalue.cons
    by_cases hb : b = c
    · subst hb
      have hc := hliteral b List.mem_cons_self
      have hrest := strncmpEq_safe (fun d hd => hliteral d (.tail b hd)) (hvalue.tail hc.2 hc.1)
      simpa [strncmpEq] using hrest
    · exact .inl (by rw [strncmpEq, if_neg hb])

theorem parseLiteral_safe {P : Json Decimal → Prop} {n : Nat} {literal value : List UInt8}
    {v : Json Decimal} {otherwise : Parsed (Json Decimal)} (hv : P v) (hne : literal ≠ [])
    (hliteral : ∀ c ∈ literal, c ≠ 0 ∧ c ≠ 92) (hvalue : Escaped value) (hlen : value.length ≤ n)
    (hotherwise : Safe P n otherwise) :
    Safe P n (parseLiteral literal v value otherwise) := by
  rcases strncmpEq_safe hliteral hvalue with hcmp | ⟨hcmp, rest, rfl, hrest⟩
  · rw [parseLiteral, hcmp]
    exact hotherwise
  · have hpos := List.length_pos_iff.mpr hne
    rw [List.length_append] at hlen
    rw [parseLiteral, hcmp]
    dsimp only
    rw [List.drop_left]
    exact ⟨hv, hrest, by omega⟩

theorem isDigit_plain {b : UInt8} (hb : isDigit b = true) : b ≠ 92 ∧ b ≠ 0 := by
  refine ⟨?_, ?_⟩ <;> rintro rfl <;> exact absurd hb (by decide)

theorem digitsLoop_safe {num : List UInt8} (h : Escaped num) :
    ∃ ds rest, digitsLoop num = some (ds, rest) ∧ Escaped rest ∧
      rest.length + ds.length = num.length := by
  induction num with
  | nil =>
    obtain ⟨b, rest, hcons⟩ := h.cons
    exact absurd hcons (by simp)
  | cons b num ih =>
    by_cases hb : isDigit b = true
    · obtain ⟨hne, hnul⟩ := isDigit_plain hb
      obtain ⟨ds, rest, hloop, hrest, hlen⟩ := ih (h.tail hne hnul)
      refine ⟨b :: ds, rest, by rw [digitsLoop, if_pos hb, hloop]; rfl, hrest, ?_⟩
      simp only [List.length_cons]
      omega
    · exact ⟨[], b :: num, by rw [digitsLoop, if_neg hb], h, rfl⟩

theorem parseFraction_safe {num : List UInt8} (h : Escaped num) :
    ∃ ds rest, parseFraction num = some (ds, rest) ∧ Escaped rest ∧
      rest.length ≤ num.length := by
  obtain ⟨b, num, rfl⟩ := h.cons
  by_cases hb : b = 46
  · subst hb
    have htail := h.tail (by decide) (by decide)
    obtain ⟨d, num, rfl⟩ := htail.cons
    by_cases hd : isDigit d = true
    · obtain ⟨ds, rest, hloop, hrest, hlen⟩ := digitsLoop_safe htail
      refine ⟨ds, rest, by simp [parseFraction, hd, hloop], hrest, ?_⟩
      simp only [List.length_cons] at hlen ⊢
      omega
    · exact ⟨[], 46 :: d :: num, by simp [parseFraction, hd], h, Nat.le_refl _⟩
  · refine ⟨[], b :: num, ?_, h, Nat.le_refl _⟩
    show (if b = 46 then _ else some (([] : List UInt8), b :: num)) = _
    rw [if_neg hb]

theorem parseExponent_safe {num : List UInt8} (h : Escaped num) :
    ∃ e rest, parseExponent num = some (e, rest) ∧ Escaped rest ∧
      rest.length ≤ num.length := by
  obtain ⟨b, num, rfl⟩ := h.cons
  by_cases hb : b = 101 ∨ b = 69
  · have htail : Escaped num := by
      refine h.tail ?_ ?_ <;> rintro rfl <;> exact absurd hb (by decide)
    obtain ⟨s, num, rfl⟩ := htail.cons
    by_cases hplus : s = 43
    · subst hplus
      obtain ⟨ds, rest, hloop, hrest, hlen⟩ := digitsLoop_safe (htail.tail (by decide) (by decide))
      refine ⟨_, rest, by simp [parseExponent, hb, hloop]; rfl, hrest, ?_⟩
      simp only [List.length_cons]
      omega
    by_cases hminus : s = 45
    · subst hminus
      obtain ⟨ds, rest, hloop, hrest, hlen⟩ := digitsLoop_safe (htail.tail (by decide) (by decide))
      refine ⟨_, rest, by simp [parseExponent, hb, hloop]; rfl, hrest, ?_⟩
      simp only [List.length_cons]
      omega
    · obtain ⟨ds, rest, hloop, hrest, hlen⟩ := digitsLoop_safe htail
      refine ⟨_, rest, by simp [parseExponent, hb, hplus, hminus, hloop]; rfl, hrest, ?_⟩
      simp only [List.length_cons] at hlen ⊢
      omega
  · refine ⟨0, b :: num, ?_, h, Nat.le_refl _⟩
    show (if b = 101 ∨ b = 69 then _ else some ((0 : Int), b :: num)) = _
    rw [if_neg hb]

/-- Behind the sign `parse_number` may find nothing at all. -/
theorem parseUnsigned_safe (sign : Int) {b : UInt8} {num : List UInt8} (h : Escaped (b :: num)) :
    ∃ n rest, parseUnsigned sign (b :: num) = some (n, rest) ∧ Escaped rest ∧
      rest.length ≤ num.length + 1 ∧ (isDigit b = true → rest.length ≤ num.length) := by
  -- what stands behind a leading zero, and whether it is the whole of it
  have hzero : ∃ c rest, (if b = 48 then num else b :: num) = c :: rest ∧ Escaped (c :: rest) ∧
      rest.length ≤ num.length ∧ (b = 48 → (c :: rest).length ≤ num.length) ∧
      (b ≠ 48 → c = b) := by
    by_cases hb : b = 48
    · subst hb
      have htail := h.tail (by decide) (by decide)
      obtain ⟨c, rest, rfl⟩ := htail.cons
      refine ⟨c, rest, rfl, htail, ?_, fun _ => Nat.le_refl _, fun hne => absurd rfl hne⟩
      simp
    · exact ⟨b, num, if_neg hb, h, Nat.le_refl _, fun h48 => absurd h48 hb, fun _ => rfl⟩
  obtain ⟨c, rest, hnum, hc, hlen, hlen48, hsame⟩ := hzero
  -- the digits of the integer part
  have hint : ∃ int num', parseInteger (c :: rest) = some (int, num') ∧ Escaped num' ∧
      num'.length ≤ rest.length + 1 ∧ (49 ≤ c ∧ c ≤ 57 → num'.length ≤ rest.length) := by
    by_cases hdigit : 49 ≤ c ∧ c ≤ 57
    · have hisDigit : isDigit c = true := by
        rw [isDigit, Bool.and_eq_true, decide_eq_true_iff, decide_eq_true_iff]
        exact ⟨UInt8.le_trans (by decide) hdigit.1, hdigit.2⟩
      obtain ⟨hne, hnul⟩ := isDigit_plain hisDigit
      obtain ⟨ds, rest', hloop, hrest', hlen'⟩ := digitsLoop_safe (hc.tail hne hnul)
      refine ⟨c :: ds, rest', ?_, hrest', by omega, fun _ => by omega⟩
      rw [parseInteger, if_pos hdigit, digitsLoop, if_pos hisDigit, hloop]
      rfl
    · exact ⟨[], c :: rest, by rw [parseInteger, if_neg hdigit], hc, Nat.le_refl _,
        fun h => absurd h hdigit⟩
  obtain ⟨int, num', hint, hnum', hlen', hstrict⟩ := hint
  obtain ⟨frac, num'', hfrac, hnum'', hlen''⟩ := parseFraction_safe hnum'
  obtain ⟨e, num''', hexp, hnum''', hlen'''⟩ := parseExponent_safe hnum''
  refine ⟨⟨sign * digitsFrom 0 (int ++ frac), e - frac.length⟩, num''', ?_, hnum''', by omega, ?_⟩
  · simp only [parseUnsigned, List.head?_cons, List.tail_cons, hnum, hint, hfrac, hexp,
      Option.bind_eq_bind, Option.bind_some, Option.pure_def]
  · intro hdigit
    by_cases hb : b = 48
    · have := hlen48 hb
      simp only [List.length_cons] at this
      omega
    · have hrange : 49 ≤ b ∧ b ≤ 57 := by
        rw [isDigit, Bool.and_eq_true, decide_eq_true_iff, decide_eq_true_iff] at hdigit
        refine ⟨?_, hdigit.2⟩
        rw [UInt8.le_iff_toNat_le] at hdigit ⊢
        have hne : b.toNat ≠ 48 := fun h48 => hb (UInt8.toNat_inj.mp h48)
        have := hdigit.1
        simp only [UInt8.reduceToNat] at this ⊢
        omega
      have := hstrict (by rw [hsame hb]; exact hrange)
      omega

theorem parseNumber_safe {b : UInt8} {num : List UInt8} (h : Escaped (b :: num))
    (hb : b = 45 ∨ isDigit b = true) (n : Nat) (hn : num.length < n) :
    Safe (fun _ => True) n (Parsed.ofRead (parseNumber (b :: num))) := by
  by_cases hminus : b = 45
  · subst hminus
    have htail := h.tail (by decide) (by decide)
    obtain ⟨c, num, rfl⟩ := htail.cons
    obtain ⟨d, rest, hparse, hrest, hlen, -⟩ := parseUnsigned_safe (-1) htail
    have hnumber : parseNumber (45 :: c :: num) = some (d, rest) := by
      simp [parseNumber, hparse]
    rw [hnumber]
    simp only [List.length_cons] at hn
    exact ⟨trivial, hrest, by omega⟩
  · obtain ⟨d, rest, hparse, hrest, -, hlen⟩ := parseUnsigned_safe 1 h
    have hnumber : parseNumber (b :: num) = some (d, rest) := by
      simp [parseNumber, hminus, hparse]
    have hdigit := hlen (hb.resolve_left hminus)
    rw [hnumber]
    exact ⟨trivial, hrest, by omega⟩

/-! ## Strings -/

theorem FourDigits.hex4 {ds : List UInt8} (h : FourDigits ds) : ∃ n, Hex4 n ds := by
  have hfold : ∀ (ds : List UInt8) (n : Nat), (∀ d ∈ ds, (hexValue d).isSome = true) →
      ∃ m, hexFrom n ds = some m := by
    intro ds
    induction ds with
    | nil => exact fun n _ => ⟨n, rfl⟩
    | cons d ds ih =>
      intro n hds
      obtain ⟨v, hv⟩ := Option.isSome_iff_exists.mp (hds d List.mem_cons_self)
      obtain ⟨m, hm⟩ := ih (n * 16 + v) fun c hc => hds c (.tail d hc)
      refine ⟨m, ?_⟩
      show ((hexValue d).map (n * 16 + ·)).bind (fun n => hexFrom n ds) = some m
      rw [hv]
      exact hm
  obtain ⟨n, hn⟩ := hfold ds 0 h.2
  exact ⟨n, h.1, hn⟩

theorem drop_digits {ds : List UInt8} (h : FourDigits ds) (ptr : List UInt8) :
    (ds ++ ptr).drop 4 = ptr := by
  rw [← h.1, List.drop_left]

theorem length_transcode (uc : Nat) : (transcode uc).length ≤ 4 := by
  unfold transcode
  split
  · simp
  split
  · simp
  split <;> simp

/-- A byte with a mark in it is not the NUL. -/
theorem ofNat_or_ne_zero (n : Nat) {mark : Nat} (hmark : mark % 256 ≠ 0) :
    UInt8.ofNat (n ||| mark) ≠ 0 := by
  intro hzero
  have hmod : (n ||| mark) % 2 ^ 8 = 0 := by
    have hnat := congrArg UInt8.toNat hzero
    rwa [UInt8.toNat_ofNat'] at hnat
  rw [Nat.or_mod_two_pow, Nat.or_eq_zero_iff] at hmod
  exact hmark hmod.2

theorem continuationByte_ne_zero (uc : Nat) : continuationByte uc ≠ 0 := by
  rw [continuationByte_eq]
  intro hzero
  have hnat := congrArg UInt8.toNat hzero
  rw [UInt8.toNat_ofNat', Nat.mod_eq_of_lt (by omega)] at hnat
  exact absurd hnat (by rw [UInt8.toNat_zero]; omega)

theorem not_mem_transcode {uc : Nat} (huc : uc ≠ 0) : 0 ∉ transcode uc := by
  have hbyte := fun n => (continuationByte_ne_zero n).symm
  have hfirst : ∀ n mark, mark % 256 ≠ 0 → 0 ≠ UInt8.ofNat (n ||| mark) :=
    fun n mark hmark => (ofNat_or_ne_zero n hmark).symm
  unfold transcode
  split
  · rename_i hlow
    intro hmem
    have hnat := congrArg UInt8.toNat (List.mem_singleton.mp hmem)
    rw [UInt8.toNat_zero, UInt8.toNat_ofNat', Nat.mod_eq_of_lt (by omega)] at hnat
    exact huc hnat.symm
  split
  · simp only [List.mem_cons, List.not_mem_nil, hbyte, hfirst (uc >>> 6) 0xC0 (by decide), or_self,
      not_false_eq_true]
  split
  · simp only [List.mem_cons, List.not_mem_nil, hbyte, hfirst (uc >>> 6 >>> 6) 0xE0 (by decide),
      or_self, not_false_eq_true]
  · simp only [List.mem_cons, List.not_mem_nil, hbyte,
      hfirst (uc >>> 6 >>> 6 >>> 6) 0xF0 (by decide), or_self, not_false_eq_true]

/-- Where an escape of a code unit goes on: behind it, or behind the second half. -/
def GoesOn (ptr rest : List UInt8) : Prop :=
  rest = ptr ∨ ∃ ds, FourDigits ds ∧ ptr = 92 :: 117 :: (ds ++ rest)

theorem secondHalf_safe (uc : Nat) {ptr : List UInt8} (h : Escaped ptr) :
    ∃ out rest, secondHalf uc ptr = some (out, rest) ∧ 0 ∉ out ∧ out.length ≤ 4 ∧
      Escaped rest ∧ GoesOn ptr rest := by
  cases h with
  | nul ptr => exact ⟨[], 0 :: ptr, rfl, by simp, by simp, .nul ptr, .inl rfl⟩
  | @plain b ptr hb hnul h =>
    refine ⟨[], b :: ptr, ?_, by simp, by simp, .plain hb hnul h, .inl rfl⟩
    show (if b ≠ 92 then some (([] : List UInt8), b :: ptr) else _) = _
    rw [if_pos hb]
  | @short c ptr hc hnul h =>
    refine ⟨[], 92 :: c :: ptr, ?_, by simp, by simp, .short hc hnul h, .inl rfl⟩
    show (if c ≠ 117 then some (([] : List UInt8), 92 :: c :: ptr) else _) = _
    rw [if_pos hc]
  | @unicode ds ptr hds h =>
    obtain ⟨uc2, huc2⟩ := hds.hex4
    have hstep : secondHalf uc (92 :: 117 :: (ds ++ ptr)) =
        if uc2 < 0xDC00 ∨ 0xDFFF < uc2 then some ([], ptr)
        else some (transcode (0x10000 + ((uc &&& 0x3FF) <<< 10 ||| (uc2 &&& 0x3FF))), ptr) := by
      rw [secondHalf_unicode (parseHex4_append huc2 ptr), drop_digits hds]
    rw [hstep]
    split
    · exact ⟨[], ptr, rfl, by simp, by simp, h, .inr ⟨ds, hds, rfl⟩⟩
    · exact ⟨_, ptr, rfl, not_mem_transcode (by omega), length_transcode _, h,
        .inr ⟨ds, hds, rfl⟩⟩

theorem unicodeEscape_safe {ds ptr : List UInt8} (hds : FourDigits ds) (h : Escaped ptr) :
    ∃ out rest, unicodeEscape (ds ++ ptr) = some (out, rest) ∧ 0 ∉ out ∧ out.length ≤ 4 ∧
      Escaped rest ∧ GoesOn ptr rest := by
  obtain ⟨uc, huc⟩ := hds.hex4
  have hstep : unicodeEscape (ds ++ ptr) =
      if (0xDC00 ≤ uc ∧ uc ≤ 0xDFFF) ∨ uc = 0 then some ([], ptr)
      else if 0xD800 ≤ uc ∧ uc ≤ 0xDBFF then secondHalf uc ptr
      else some (transcode uc, ptr) := by
    rw [unicodeEscape, parseHex4_append huc, drop_digits hds]
  rw [hstep]
  split
  · exact ⟨[], ptr, rfl, by simp, by simp, h, .inl rfl⟩
  rename_i hone
  split
  · exact secondHalf_safe uc h
  · exact ⟨_, ptr, rfl, not_mem_transcode (by omega), length_transcode _, h, .inl rfl⟩

theorem scanLength_unicode {ds : List UInt8} (hds : FourDigits ds) {ptr : List UInt8} {len : Nat}
    (hptr : scanLength ptr = some len) :
    scanLength (92 :: 117 :: (ds ++ ptr)) = some (len + 5) := by
  obtain ⟨n, hn⟩ := hds.hex4
  rw [scanLength_escape, scanLength_digits (hexFrom_plain hn.2) hptr, hds.1]
  rfl

theorem scanLength_end {b : UInt8} (hb : b = 34 ∨ b = 0) (ptr : List UInt8) :
    scanLength (b :: ptr) = some 0 := by
  cases ptr with
  | nil => rw [scanLength, if_pos hb]
  | cons c ptr => rw [scanLength, if_pos hb]

theorem unescape_ne_zero {c : UInt8} (hc : c ≠ 0) : unescape c ≠ 0 := by
  unfold unescape
  split
  · decide
  split
  · decide
  split
  · decide
  split
  · decide
  split
  · decide
  · exact hc

/-- Both loops of `parse_string` come to the same end, and what the second writes has room. -/
theorem decodeFrom_safe : ∀ {fuel : Nat} {ptr : List UInt8}, Escaped ptr → ptr.length < fuel →
    ∃ len out rest, scanLength ptr = some len ∧ decodeFrom fuel ptr = some (out, rest) ∧
      out.length ≤ len ∧ 0 ∉ out ∧ Escaped rest ∧ rest.length ≤ ptr.length
  | 0, _, _, hfuel => absurd hfuel (Nat.not_lt_zero _)
  | n + 1, ptr, h, hfuel => by
    cases h with
    | nul ptr =>
      exact ⟨0, [], 0 :: ptr, scanLength_end (.inr rfl) ptr, decodeFrom_end (.inr rfl) n ptr,
        Nat.le_refl 0, by simp, .nul ptr, Nat.le_refl _⟩
    | @plain b ptr hb hnul h =>
      by_cases hquote : b = 34
      · subst hquote
        exact ⟨0, [], 34 :: ptr, scanLength_end (.inl rfl) ptr, decodeFrom_end (.inl rfl) n ptr,
          Nat.le_refl 0, by simp, .plain hb hnul h, Nat.le_refl _⟩
      · rw [List.length_cons] at hfuel
        obtain ⟨len, out, rest, hscan, hdecode, hlen, hout, hrest, hle⟩ :=
          decodeFrom_safe h (show ptr.length < n by omega)
        refine ⟨len + 1, b :: out, rest, ?_, ?_, ?_, ?_, hrest, Nat.le_succ_of_le hle⟩
        · rw [scanLength_plain ⟨hquote, hb, hnul⟩, hscan]
          rfl
        · rw [decodeFrom_plain ⟨hquote, hb, hnul⟩, hdecode]
          rfl
        · exact Nat.succ_le_succ hlen
        · rw [List.mem_cons, not_or]
          exact ⟨hnul.symm, hout⟩
    | @short c ptr hc hnul h =>
      simp only [List.length_cons] at hfuel
      obtain ⟨len, out, rest, hscan, hdecode, hlen, hout, hrest, hle⟩ :=
        decodeFrom_safe h (show ptr.length < n by omega)
      refine ⟨len + 1, unescape c :: out, rest, ?_, ?_, Nat.succ_le_succ hlen, ?_, hrest, ?_⟩
      · rw [scanLength_escape, hscan]
        rfl
      · rw [decodeFrom_escape hc, hdecode]
        rfl
      · rw [List.mem_cons, not_or]
        exact ⟨(unescape_ne_zero hnul).symm, hout⟩
      · simp only [List.length_cons]
        omega
    | @unicode ds ptr hds h =>
      simp only [List.length_cons, List.length_append, hds.1] at hfuel
      obtain ⟨out, rest, hescape, hout, hsmall, hrest, hon⟩ := unicodeEscape_safe hds h
      have hshorter : rest.length ≤ ptr.length := by
        rcases hon with rfl | ⟨ds', -, rfl⟩
        · exact Nat.le_refl _
        · simp only [List.length_cons, List.length_append]
          omega
      obtain ⟨len, out', rest', hscan, hdecode, hlen, hout', hrest', hle⟩ :=
        decodeFrom_safe hrest (show rest.length < n by omega)
      have hcount : ∃ len', scanLength ptr = some len' ∧ len ≤ len' := by
        rcases hon with rfl | ⟨ds', hds', rfl⟩
        · exact ⟨len, hscan, Nat.le_refl len⟩
        · exact ⟨len + 5, scanLength_unicode hds' hscan, Nat.le_add_right len 5⟩
      obtain ⟨len', hscan', hlen'⟩ := hcount
      refine ⟨len' + 5, out ++ out', rest', scanLength_unicode hds hscan', ?_, ?_, ?_, hrest', ?_⟩
      · rw [decodeFrom_unicode hescape, hdecode]
        rfl
      · rw [List.length_append]
        omega
      · rw [List.mem_append, not_or]
        exact ⟨hout, hout'⟩
      · simp only [List.length_cons, List.length_append]
        omega

theorem parseString_safe {str : List UInt8} (h : Escaped str) :
    Safe (0 ∉ ·) str.length (parseString str) := by
  obtain ⟨b, ptr, rfl⟩ := h.cons
  by_cases hb : b = 34
  · subst hb
    have htail := h.tail (by decide) (by decide)
    obtain ⟨len, out, rest, hscan, hdecode, hlen, hout, hrest, hle⟩ :=
      decodeFrom_safe htail (Nat.lt_succ_self ptr.length)
    have hstep : parseString (34 :: ptr) =
        .item out (if rest.head? = some 34 then rest.tail else rest) := by
      rw [parseString, if_neg (by decide), hscan, hdecode]
      dsimp only
      rw [if_neg (by omega)]
    rw [hstep]
    refine ⟨hout, ?_, ?_⟩
    · split
      · rename_i hquote
        obtain ⟨c, rest, rfl⟩ := hrest.cons
        obtain rfl := Option.some.inj hquote
        exact hrest.tail (by decide) (by decide)
      · exact hrest
    · rw [List.length_cons]
      split
      · rw [List.length_tail]
        omega
      · omega
  · rw [parseString, if_pos hb]
    trivial

/-! ## Values -/

/-- A call with so much fuel for a string does not fault. -/
def SafeWith {α : Type} (P : α → Prop) (extra fuel : Nat) (p : List UInt8 → Parsed α) : Prop :=
  ∀ value, Escaped value → 3 * value.length + extra ≤ fuel → Safe P value.length (p value)

/-- No string of the value holds a NUL. -/
def NulFree (v : Json Decimal) : Prop := v.Strings (0 ∉ ·)

theorem parseItems_safe {n : Nat} (hvalue : SafeWith NulFree 1 n (parseValue n))
    (hitems : SafeWith (ItemStrings (0 ∉ ·)) 2 n (parseItems n)) :
    SafeWith (ItemStrings (0 ∉ ·)) 2 (n + 1) (parseItems (n + 1)) := by
  intro value h hfuel
  rw [parseItems]
  refine skipThen_safe h fun b rest hstart hle => ?_
  refine (hvalue _ hstart (by omega)).bind fun child ptr hchild hptr hlen => ?_
  refine skipThen_safe hptr fun c rest' hnext hle' => ?_
  rw [List.head?_cons, List.tail_cons]
  rw [List.length_cons] at hle'
  split
  · rename_i hcomma
    obtain rfl := Option.some.inj hcomma
    have htail := hnext.tail (by decide) (by decide)
    exact (hitems _ htail (by omega)).map (by omega) fun items hitem => ⟨hchild, hitem⟩
  split
  · rename_i hclose
    obtain rfl := Option.some.inj hclose
    exact ⟨⟨hchild, trivial⟩, hnext.tail (by decide) (by decide), by omega⟩
  · trivial

theorem parseMembers_safe {n : Nat} (hvalue : SafeWith NulFree 1 n (parseValue n))
    (hmembers : SafeWith (MemberStrings (0 ∉ ·)) 2 n (parseMembers n)) :
    SafeWith (MemberStrings (0 ∉ ·)) 2 (n + 1) (parseMembers (n + 1)) := by
  intro value h hfuel
  rw [parseMembers]
  refine skipThen_safe h fun b rest hstart hle => ?_
  refine (parseString_safe hstart).bind fun string ptr hstring hptr hlen => ?_
  refine skipThen_safe hptr fun c colon hnext hle' => ?_
  rw [List.head?_cons, List.tail_cons]
  rw [List.length_cons] at hle'
  split
  · trivial
  rename_i hcolon
  rw [ne_eq, Decidable.not_not] at hcolon
  obtain rfl := Option.some.inj hcolon
  have htail := hnext.tail (by decide) (by decide)
  refine skipThen_safe htail fun d after hchild hle'' => ?_
  refine (hvalue _ hchild (by omega)).bind fun child ptr' hchild' hptr' hlen' => ?_
  refine skipThen_safe hptr' fun e close hend hclose => ?_
  rw [List.head?_cons, List.tail_cons]
  rw [List.length_cons] at hclose
  split
  · rename_i hcomma
    obtain rfl := Option.some.inj hcomma
    have htail' := hend.tail (by decide) (by decide)
    exact (hmembers _ htail' (by omega)).map (by omega) fun members hmember =>
      ⟨hstring, hchild', hmember⟩
  split
  · rename_i hbrace
    obtain rfl := Option.some.inj hbrace
    exact ⟨⟨hstring, hchild', trivial⟩, hend.tail (by decide) (by decide), by omega⟩
  · trivial

theorem parseArray_safe {n : Nat} (hitems : SafeWith (ItemStrings (0 ∉ ·)) 2 n (parseItems n)) :
    SafeWith NulFree 0 (n + 1) (parseArray (n + 1)) := by
  intro value h hfuel
  obtain ⟨b, ptr, rfl⟩ := h.cons
  rw [parseArray]
  split
  · trivial
  rename_i hb
  rw [ne_eq, Decidable.not_not] at hb
  subst hb
  have htail := h.tail (by decide) (by decide)
  rw [List.length_cons] at hfuel ⊢
  refine skipThen_safe htail fun c rest hstart hle => ?_
  split
  · rename_i hclose
    obtain rfl := Option.some.inj hclose
    rw [List.length_cons] at hle
    exact ⟨trivial, hstart.tail (by decide) (by decide), by rw [List.tail_cons]; omega⟩
  · exact (hitems _ hstart (by omega)).map (by omega) fun _ h => h

theorem parseObject_safe {n : Nat}
    (hmembers : SafeWith (MemberStrings (0 ∉ ·)) 2 n (parseMembers n)) :
    SafeWith NulFree 0 (n + 1) (parseObject (n + 1)) := by
  intro value h hfuel
  obtain ⟨b, ptr, rfl⟩ := h.cons
  rw [parseObject]
  split
  · trivial
  rename_i hb
  rw [ne_eq, Decidable.not_not] at hb
  subst hb
  have htail := h.tail (by decide) (by decide)
  rw [List.length_cons] at hfuel ⊢
  refine skipThen_safe htail fun c rest hstart hle => ?_
  split
  · rename_i hclose
    obtain rfl := Option.some.inj hclose
    rw [List.length_cons] at hle
    exact ⟨trivial, hstart.tail (by decide) (by decide), by rw [List.tail_cons]; omega⟩
  · exact (hmembers _ hstart (by omega)).map (by omega) fun _ h => h

theorem parseValue_safe {n : Nat} (harray : SafeWith NulFree 0 n (parseArray n))
    (hobject : SafeWith NulFree 0 n (parseObject n)) :
    SafeWith NulFree 1 (n + 1) (parseValue (n + 1)) := by
  intro value h hfuel
  obtain ⟨b, rest, rfl⟩ := h.cons
  rw [parseValue]
  have hletters : ∀ literal ∈ [ascii "null", ascii "false", ascii "true"],
      literal ≠ [] ∧ ∀ c ∈ literal, c ≠ 0 ∧ c ≠ 92 := by
    have hall : [ascii "null", ascii "false", ascii "true"].all (fun literal =>
        literal != [] && literal.all fun c => c != 0 && c != 92) = true := by decide
    simpa only [List.all_eq_true, Bool.and_eq_true, bne_iff_ne] using hall
  obtain ⟨hnull, hnull'⟩ := hletters _ (.head _)
  obtain ⟨hfalse, hfalse'⟩ := hletters _ (.tail _ (.head _))
  obtain ⟨htrue, htrue'⟩ := hletters _ (.tail _ (.tail _ (.head _)))
  refine parseLiteral_safe trivial hnull hnull' h (Nat.le_refl _) ?_
  refine parseLiteral_safe trivial hfalse hfalse' h (Nat.le_refl _) ?_
  refine parseLiteral_safe trivial htrue htrue' h (Nat.le_refl _) ?_
  split
  · exact (parseString_safe h).map (Nat.le_refl _) fun _ hs => hs
  split
  · rename_i hnumber
    exact (parseNumber_safe h hnumber _ (Nat.lt_succ_self _)).map (Nat.le_refl _) fun _ h => h
  split
  · exact harray _ h (by omega)
  split
  · exact hobject _ h (by omega)
  · trivial

/-- Every function of the parser is safe with the fuel it needs. -/
theorem parser_safe (n : Nat) :
    SafeWith NulFree 1 n (parseValue n) ∧ SafeWith NulFree 0 n (parseArray n) ∧
      SafeWith (ItemStrings (0 ∉ ·)) 2 n (parseItems n) ∧ SafeWith NulFree 0 n (parseObject n) ∧
      SafeWith (MemberStrings (0 ∉ ·)) 2 n (parseMembers n) := by
  induction n with
  | zero =>
    have hzero : ∀ {α : Type} (P : α → Prop) (extra : Nat) (p : List UInt8 → Parsed α),
        SafeWith P extra 0 p := by
      intro α P extra p value h hfuel
      obtain ⟨b, rest, rfl⟩ := h.cons
      rw [List.length_cons] at hfuel
      omega
    exact ⟨hzero _ _ _, hzero _ _ _, hzero _ _ _, hzero _ _ _, hzero _ _ _⟩
  | succ n ih =>
    obtain ⟨hvalue, harray, hitems, hobject, hmembers⟩ := ih
    exact ⟨parseValue_safe harray hobject, parseArray_safe hitems, parseItems_safe hvalue hitems,
      parseObject_safe hmembers, parseMembers_safe hvalue hmembers⟩

/-- The length that the first loop of `parse_string` counts is that of bytes it has passed. -/
theorem scanLength_lt : ∀ {ptr : List UInt8} {len : Nat}, scanLength ptr = some len →
    len < ptr.length
  | [], _, h => by cases h
  | [b], len, h => by
    unfold scanLength at h
    split at h
    · obtain rfl := Option.some.inj h
      exact Nat.zero_lt_one
    · cases h
  | b :: c :: ptr, len, h => by
    unfold scanLength at h
    split at h
    · obtain rfl := Option.some.inj h
      exact Nat.zero_lt_succ _
    · split at h
      · obtain ⟨n, hn, rfl⟩ := Option.map_eq_some_iff.mp h
        have hlt := scanLength_lt hn
        simp only [List.length_cons]
        omega
      · obtain ⟨n, hn, rfl⟩ := Option.map_eq_some_iff.mp h
        have hlt := scanLength_lt hn
        simp only [List.length_cons] at hlt ⊢
        omega

/-- **No C string below 2 GiB whose escapes are complete makes `cJSON_ParseWithOpts`
fault.  What it returns for one has no NUL in any string, its pointer has not left the
string, and no length it counts overflows its `int`.** -/
theorem parseWithOpts_safe {value : List UInt8} (h : Escaped value) (hlen : value.length < 2 ^ 31)
    (requireNullTerminated : Bool) :
    Safe NulFree value.length (parseWithOpts value requireNullTerminated) ∧
      ∀ ptr len, ptr <:+ value → scanLength ptr = some len → len + 1 < 2 ^ 31 := by
  constructor
  · rw [parseWithOpts]
    refine skipThen_safe h fun b rest hstart hle => ?_
    refine ((parser_safe _).1 _ hstart (by omega)).bind fun c ptr hc hptr hlen => ?_
    split
    · refine skipThen_safe hptr fun d rest' hend hle' => ?_
      split
      · exact ⟨hc, hend, by omega⟩
      · trivial
    · exact ⟨hc, hptr, by omega⟩
  · intro ptr len hptr hscan
    have hlt := scanLength_lt hscan
    have hle := hptr.length_le
    omega

/-- A string with every kind of escape, and the first half of a pair without the second. -/
def escapesText : List UInt8 :=
  [34, 92, 110, 92, 117, 48, 48, 101, 57, 92, 117, 100, 56, 51, 100, 34, 32, 0]

theorem parseWithOpts_safe_escapes :
    Safe NulFree 18 (parseWithOpts escapesText true) ∧
      ∀ ptr len, ptr <:+ escapesText → scanLength ptr = some len → len + 1 < 2 ^ 31 :=
  parseWithOpts_safe (.plain (by decide) (by decide) (.short (by decide) (by decide)
    (.unicode (show FourDigits [48, 48, 101, 57] from fourDigits_of_all rfl rfl)
      (.unicode (show FourDigits [100, 56, 51, 100] from fourDigits_of_all rfl rfl)
        (.plain (by decide) (by decide) (.plain (by decide) (by decide) (.nul []))))))) (by decide)
    true

/-- An escape that the closing quote cuts short takes the second loop past that quote, and
behind what the first loop has counted. -/
theorem parse_cut_escape :
    ¬ ∀ text : List UInt8, 0 ∉ text → parse (text ++ [0]) ≠ .fault :=
  fun h => h [34, 92, 117, 49, 50, 34, 97, 97, 97, 97, 97, 97] (by decide) rfl

end WowProxy.CJson
