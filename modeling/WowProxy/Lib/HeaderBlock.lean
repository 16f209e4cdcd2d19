/-
  Lib/HeaderBlock.lean --- messages of header lines, an empty line and a body.

  A line ends in CR and LF, and neither of the two stands anywhere else in the header.
  `readHeader` takes a message apart; `readHeader_line` and `readHeader_end` say what
  it does with a message that is written line by line.
-/

set_option autoImplicit false

namespace WowProxy.Lib.HeaderBlock

/-- The end of a line. -/
def crlf : List UInt8 := [13, 10]

/-- A byte inside a line. -/
def inLine (b : UInt8) : Bool := b != 13 && b != 10

/-- The lines up to the empty one, and the body.  `line` is the part of the current line
that has been read, and `cr` whether a CR has been read behind it. -/
def readHeaderFrom : (line : List UInt8) → (cr : Bool) → List UInt8 →
    Option (List (List UInt8) × List UInt8)
  | _, _, [] => none
  | line, true, b :: s =>
    if b = 10 then
      if line = [] then some ([], s)
      else (readHeaderFrom [] false s).map fun (lines, body) => (line :: lines, body)
    else none
  | line, false, b :: s =>
    if b = 13 then readHeaderFrom line true s
    else if b = 10 then none
    else readHeaderFrom (line ++ [b]) false s

/-- The header lines and the body of a message. -/
def readHeader (message : List UInt8) : Option (List (List UInt8) × List UInt8) :=
  readHeaderFrom [] false message

/-- The values of the fields of that name. -/
def fieldValues (name : List UInt8) (lines : List (List UInt8)) : List (List UInt8) :=
  (lines.filter (name.isPrefixOf ·)).map (·.drop name.length)

theorem readHeaderFrom_line (start line rest : List UInt8) (hline : line.all inLine = true) :
    readHeaderFrom start false (line ++ rest) = readHeaderFrom (start ++ line) false rest := by
  induction line generalizing start with
  | nil => rw [List.nil_append, List.append_nil]
  | cons b line ih =>
    rw [List.all_cons, Bool.and_eq_true] at hline
    obtain ⟨hcr, hlf⟩ : b ≠ 13 ∧ b ≠ 10 := by simpa [inLine] using hline.1
    rw [List.cons_append, readHeaderFrom, if_neg hcr, if_neg hlf, ih _ hline.2,
      List.append_assoc]
    rfl

/-- A line in front of a message. -/
theorem readHeader_line {line : List UInt8} (hline : line.all inLine = true) (hne : line ≠ [])
    (rest : List UInt8) :
    readHeader (line ++ (crlf ++ rest)) =
      (readHeader rest).map fun (lines, body) => (line :: lines, body) := by
  rw [readHeader, readHeaderFrom_line [] line _ hline, List.nil_append]
  show readHeaderFrom line true (10 :: rest) = _
  rw [readHeaderFrom, if_pos rfl, if_neg hne]
  rfl

/-- The empty line. -/
theorem readHeader_end (body : List UInt8) : readHeader (crlf ++ body) = some ([], body) := rfl

/-- Lines, each with its end. -/
def writeLines (lines : List (List UInt8)) : List UInt8 := lines.flatMap (· ++ crlf)

/-- **A message that is written line by line is read line by line.** -/
theorem readHeader_writeLines {lines : List (List UInt8)}
    (hlines : ∀ line ∈ lines, line.all inLine = true ∧ line ≠ []) (body : List UInt8) :
    readHeader (writeLines lines ++ (crlf ++ body)) = some (lines, body) := by
  induction lines with
  | nil => exact readHeader_end body
  | cons line lines ih =>
    obtain ⟨hline, hne⟩ := hlines line List.mem_cons_self
    have hrest := ih fun line' hmem => hlines line' (List.mem_cons_of_mem _ hmem)
    show readHeader (line ++ crlf ++ writeLines lines ++ (crlf ++ body)) = _
    rw [List.append_assoc, List.append_assoc, readHeader_line hline hne, hrest]
    rfl

/-! ## The place of the empty line -/

/-- A pattern that begins with a CR does not begin inside a line. -/
theorem infix_line_iff {pat line rest : List UInt8} (hline : line.all inLine = true) :
    13 :: pat <:+: line ++ rest ↔ 13 :: pat <:+: rest := by
  induction line with
  | nil => rfl
  | cons b line ih =>
    rw [List.all_cons, Bool.and_eq_true] at hline
    have hb : (13 : UInt8) ≠ b := by
      rintro rfl
      exact absurd hline.1 (by decide)
    rw [List.cons_append, List.infix_cons_iff, List.cons_prefix_cons, ih hline.2]
    simp [hb]

/-- The lines of a message in front of its empty one, without the end of the last. -/
def headerText (line : List UInt8) (lines : List (List UInt8)) : List UInt8 :=
  line ++ lines.flatMap (crlf ++ ·)

/-- The first empty line of a message is the one behind its header. -/
theorem not_infix_headerText {line : List UInt8} {lines : List (List UInt8)}
    (hline : line.all inLine = true) (hlines : ∀ l ∈ lines, l.all inLine = true ∧ l ≠ []) :
    ¬ crlf ++ crlf <:+: headerText line lines ++ [13, 10, 13] := by
  induction lines generalizing line with
  | nil => 
    rw [headerText, List.flatMap_nil, List.append_nil, crlf, List.cons_append, infix_line_iff hline]
    decide
  | cons next lines ih =>
    obtain ⟨hnext, hne⟩ := hlines next List.mem_cons_self
    have hrest := ih hnext fun l hl => hlines l (List.mem_cons_of_mem _ hl)
    have htext : headerText line (next :: lines) ++ [13, 10, 13] =
        line ++ 13 :: 10 :: (headerText next lines ++ [13, 10, 13]) := by
      simp [headerText, crlf]
    obtain ⟨b, next, rfl⟩ := List.exists_cons_of_ne_nil hne
    have hb : (13 : UInt8) ≠ b := by
      rintro rfl
      exact absurd hnext (by simp [inLine])
    rw [htext, crlf, List.cons_append, infix_line_iff hline]
    intro h
    rw [List.infix_cons_iff] at h
    refine h.elim (fun hstart => ?_) fun h => ?_
    · simp [headerText, hb] at hstart
    · rw [List.infix_cons_iff] at h
      exact h.elim (fun hstart => by simp at hstart) hrest

end WowProxy.Lib.HeaderBlock
