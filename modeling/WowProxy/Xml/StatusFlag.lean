/-
  Xml/StatusFlag.lean --- what `get_http_status` makes of an answer.

  The status is taken from the text `200 OK` in the header, wherever it stands, and
  not from the status line.  The theorem of this file is about well-formed answers:
  a status line, header lines and a body.  It says for which of them the verdict is
  that of the status code.
-/
import WowProxy.Lib.HeaderBlock
import WowProxy.Xml.AnswerBuffers

set_option autoImplicit false

namespace WowProxy

open Lib.CString Lib.HeaderBlock Lib.Text

/-! ## Well-formed answers -/

/-- A byte that may stand in a line of a header. -/
def lineByte (b : UInt8) : Bool := inLine b && b != 0

/-- The digit of that value. -/
def digit (n : Nat) : UInt8 := UInt8.ofNat (48 + n % 10)

/-- A status line: the version, a code of three digits and the reason. -/
structure StatusLine where
  major : Nat
  minor : Nat
  code : Nat
  code_lt : code < 1000
  reason : List UInt8
  reason_line : reason.all lineByte = true

namespace StatusLine

def codeBytes (s : StatusLine) : List UInt8 :=
  [digit (s.code / 100), digit (s.code / 10), digit s.code]

/-- `HTTP/1.1 200 OK` and the like. -/
def bytes (s : StatusLine) : List UInt8 :=
  ascii "HTTP/" ++ (digit s.major :: 46 :: digit s.minor :: 32 ::
    (s.codeBytes ++ 32 :: s.reason))

end StatusLine

/-- A line behind the status line. -/
structure HeaderLine where
  bytes : List UInt8
  line : bytes.all lineByte = true
  ne_nil : bytes ≠ []

/-- An answer with a well-formed header. -/
structure HttpAnswer where
  status : StatusLine
  lines : List HeaderLine
  body : List UInt8

namespace HttpAnswer

variable (a : HttpAnswer)

def header : List UInt8 := headerText a.status.bytes (a.lines.map HeaderLine.bytes)

def bytes : List UInt8 := a.header ++ (septation ++ a.body)

/-- The status is looked for in these texts too. -/
def Mentions : Prop :=
  ascii "200 OK" <:+: a.status.reason ∨ ∃ l ∈ a.lines, ascii "200 OK" <:+: l.bytes

/-- The verdict of the status code, handed back and told to the client. -/
structure Verdict : Prop where
  returns : ∀ size, 0 < size → ∃ rst rstLen,
    analysisSoapResponse a.bytes a.bytes.length size =
      some (decide (a.status.code = 200), rst, rstLen)
  told : ∀ sv : Service, AnalysesAnswers sv → ∃ msg,
    sv.answerReply a.bytes.length (padded a.bytes answerBufSize) =
      some (decide (a.status.code = 200), msg)

end HttpAnswer

/-! ## Where the status stands -/

theorem digit_eq_iff (n m : Nat) : digit n = digit m ↔ n % 10 = m % 10 := by
  have hdigits : ∀ i < 10, ∀ j < 10, UInt8.ofNat (48 + i) = UInt8.ofNat (48 + j) ↔ i = j := by
    decide
  exact hdigits _ (Nat.mod_lt n (by decide)) _ (Nat.mod_lt m (by decide))

theorem StatusLine.codeBytes_eq_iff (s : StatusLine) :
    s.codeBytes = [50, 48, 48] ↔ s.code = 200 := by
  have hlt := s.code_lt
  have htwo : (50 : UInt8) = digit 2 := rfl
  have hzero : (48 : UInt8) = digit 0 := rfl
  rw [StatusLine.codeBytes, htwo, hzero]
  simp only [List.cons.injEq, and_true, digit_eq_iff]
  omega

/-- In a status line the text is the code with the start of the reason, or it stands
in the reason. -/
theorem StatusLine.infix_bytes_iff (s : StatusLine) :
    ascii "200 OK" <:+: s.bytes ↔
      (s.code = 200 ∧ ascii "OK" <+: s.reason) ∨ ascii "200 OK" <:+: s.reason := by
  have hstatus : ascii "200 OK" = [50, 48, 48, 32, 79, 75] := rfl
  have hversion : ascii "HTTP/" = [72, 84, 84, 80, 47] := rfl
  have hok : ascii "OK" = [79, 75] := rfl
  rw [StatusLine.bytes, ← s.codeBytes_eq_iff, StatusLine.codeBytes, hstatus, hversion, hok]
  simp [List.infix_cons_iff, List.cons_prefix_cons, and_assoc, eq_comm]

/-- In a header it stands in one of the lines. -/
theorem infix_headerText_iff {line : List UInt8} {lines : List (List UInt8)} :
    ascii "200 OK" <:+: headerText line lines ↔
      ascii "200 OK" <:+: line ∨ ∃ l ∈ lines, ascii "200 OK" <:+: l := by
  induction lines generalizing line with
  | nil => simp [headerText]
  | cons next lines ih =>
    have htext : headerText line (next :: lines) =
        line ++ 13 :: ([] ++ 10 :: headerText next lines) := by
      simp [headerText, crlf]
    rw [htext, infix_append_cons_iff (by decide) (by decide),
      infix_append_cons_iff (by decide) (by decide), ih, List.exists_mem_cons_iff]
    have hempty : ¬ ascii "200 OK" <:+: [] := by decide
    rw [or_iff_right hempty]

namespace HttpAnswer

variable (a : HttpAnswer)

theorem infix_header_iff :
    ascii "200 OK" <:+: a.header ↔
      (a.status.code = 200 ∧ ascii "OK" <+: a.status.reason) ∨ a.Mentions := by
  rw [header, infix_headerText_iff, a.status.infix_bytes_iff, or_assoc, Mentions]
  simp

/-! ## The parts of an answer -/

theorem lineByte_digit (n : Nat) : lineByte (digit n) = true := by
  have hdigits : ∀ k < 10, lineByte (UInt8.ofNat (48 + k)) = true := by decide
  exact hdigits (n % 10) (Nat.mod_lt n (by decide))

theorem status_line : a.status.bytes.all lineByte = true := by
  have hversion : (ascii "HTTP/").all lineByte = true := by decide
  have hpoint : lineByte 46 = true := by decide
  have hspace : lineByte 32 = true := by decide
  simp only [StatusLine.bytes, StatusLine.codeBytes, List.all_append, List.all_cons, List.all_nil,
    hversion, hpoint, hspace, lineByte_digit, a.status.reason_line, Bool.and_self]

theorem inLine_of_lineByte {line : List UInt8} (h : line.all lineByte = true) :
    line.all inLine = true := by
  rw [List.all_eq_true] at h ⊢
  exact fun b hb => (Bool.and_eq_true_iff.mp (h b hb)).1

theorem nul_of_lineByte {line : List UInt8} (h : line.all lineByte = true) : 0 ∉ line :=
  fun hmem => absurd (List.all_eq_true.mp h 0 hmem) (by decide)

theorem header_nul : 0 ∉ a.header := by
  have hcrlf : (0 : UInt8) ∉ crlf := by decide
  simp only [header, headerText, List.mem_append, List.mem_flatMap, List.mem_map]
  rintro (h | ⟨-, ⟨l, -, rfl⟩, h | h⟩)
  · exact nul_of_lineByte a.status_line h
  · exact hcrlf h
  · exact nul_of_lineByte l.line h

/-- The header ends at the first empty line. -/
theorem split : Split (answerText a.bytes) a.header (a.body.takeWhile (· ≠ 0)) where
  text_eq := by
    have hfront : ∀ b ∈ a.header ++ septation, decide (b ≠ 0) = true := fun b hb => by
      rw [decide_eq_true_iff]
      rintro rfl
      exact (List.mem_append.mp hb).elim a.header_nul (by decide)
    rw [answerText, bytes, ← List.append_assoc, List.takeWhile_append_of_pos hfront,
      List.append_assoc]
  first := by
    refine not_infix_headerText (inLine_of_lineByte a.status_line) fun l hl => ?_
    obtain ⟨line, -, rfl⟩ := List.mem_map.mp hl
    exact ⟨inLine_of_lineByte line.line, line.ne_nil⟩

end HttpAnswer

/-- A text is split in one way. -/
theorem Split.unique {s header rest header' rest' : List UInt8} (h : Split s header rest)
    (h' : Split s header' rest') : header = header' := by
  have hfound : search septation s = some (septation ++ rest) :=
    (search_eq_some_iff (by decide)).mpr ⟨header, rest, h.text_eq, rfl, h.first⟩
  have hfound' : search septation s = some (septation ++ rest') :=
    (search_eq_some_iff (by decide)).mpr ⟨header', rest', h'.text_eq, rfl, h'.first⟩
  have hrest := Option.some.inj (hfound.symm.trans hfound')
  have htext := h.text_eq.symm.trans h'.text_eq
  rw [hrest] at htext
  exact List.append_cancel_right htext

/-- The parts of an answer that fits are the ones it was written from. -/
theorem HttpAnswer.taken (a : HttpAnswer) (hfits : FitsBuffers a.bytes) :
    ∃ document, Taken a.bytes a.header document := by
  cases hfits with
  | whole hwhole =>
    refine absurd ?_ hwhole
    rw [a.split.text_eq]
    exact ⟨a.header, _, (List.append_assoc _ _ _)⟩
  | @taken header document htaken =>
    obtain ⟨rest, hsplit, -⟩ := htaken.parts
    exact ⟨document, a.split.unique hsplit ▸ htaken⟩

/-! ## The verdict -/

namespace HttpAnswer

variable {a : HttpAnswer}

/-- The answers whose status is found where the code is 200, and nowhere else. -/
structure Unambiguous (a : HttpAnswer) : Prop where
  ok : a.status.code = 200 → ascii "OK" <+: a.status.reason ∨ a.Mentions
  failed : a.status.code ≠ 200 → ¬ a.Mentions

theorem unambiguous_iff :
    a.Unambiguous ↔ (ascii "200 OK" <:+: a.header ↔ a.status.code = 200) := by
  rw [a.infix_header_iff]
  constructor
  · rintro ⟨hok, hfailed⟩
    refine ⟨fun h => ?_, fun hcode => ?_⟩
    · by_contra hcode
      exact h.elim (fun h => hcode h.1) (hfailed hcode)
    · exact (hok hcode).imp_left fun hreason => ⟨hcode, hreason⟩
  · intro h
    exact ⟨fun hcode => (h.mpr hcode).imp_left And.right,
      fun hcode hmentions => hcode (h.mp (Or.inr hmentions))⟩

/-- The verdict is that of the text in the header. -/
theorem returns_flag (hfits : FitsBuffers a.bytes) {size : Nat} (hsize : 0 < size) :
    ∃ rst rstLen, analysisSoapResponse a.bytes a.bytes.length size =
      some (decide (ascii "200 OK" <:+: a.header), rst, rstLen) := by
  obtain ⟨document, htaken⟩ := a.taken hfits
  obtain ⟨content, -, hrun⟩ := analysisSoapResponse_taken hsize htaken
  rw [hrun]
  split
  · exact ⟨_, _, rfl⟩
  · exact ⟨_, _, rfl⟩

/-- The client is told what is returned. -/
theorem told_of_returns (hfits : FitsBuffers a.bytes) {isOpOk : Bool} {rst : List UInt8}
    {rstLen : Nat}
    (hrun : analysisSoapResponse a.bytes a.bytes.length answerBufSize =
      some (isOpOk, rst, rstLen))
    {sv : Service} (hsv : AnalysesAnswers sv) :
    ∃ msg, sv.answerReply a.bytes.length (padded a.bytes answerBufSize) = some (isOpOk, msg) := by
  obtain ⟨document, htaken⟩ := a.taken hfits
  have hlt : a.bytes.length < answerBufSize :=
    Nat.lt_of_le_of_lt htaken.rsp_le (by decide)
  have hstring : cstr (padded a.bytes answerBufSize) = some (answerText a.bytes) :=
    cstr_padded_text hlt
  exact ⟨_, answerReply_of_analysis hsv hstring
    ((analysisSoapResponse_answerText a.bytes answerBufSize).trans hrun)⟩

/-- An answer without a declaration fits where its parts are short. -/
theorem fits_of_short (hheader : a.header.length < maxBufSize)
    (hbytes : a.bytes.length ≤ maxBufSize * 3)
    (hbody : ¬ ascii "<?x" <+: a.body.takeWhile (· ≠ 0)) (hshort : a.body.length ≤ maxBufSize) :
    FitsBuffers a.bytes :=
  .taken
    { parts := ⟨_, a.split, .undeclared hbody⟩, header_lt := hheader, rsp_le := hbytes,
      document_le := (List.takeWhile_prefix _).length_le.trans hshort }

end HttpAnswer

/-- **The verdict is that of the status code exactly when the status is found with the
code 200 alone.**  An answer of the code 200 has to have a reason that begins with
`OK`, or the whole text in its reason or a header line; an answer of another code must
not have it there. -/
theorem verdict_iff (a : HttpAnswer) (hfits : FitsBuffers a.bytes) :
    a.Verdict ↔ a.Unambiguous := by
  rw [HttpAnswer.unambiguous_iff]
  constructor
  · intro h
    obtain ⟨rst, rstLen, hrun⟩ := h.returns 1 (by decide)
    obtain ⟨rst', rstLen', hrun'⟩ := HttpAnswer.returns_flag hfits (by decide : 0 < 1)
    rw [hrun, Option.some.injEq, Prod.mk.injEq] at hrun'
    exact (decide_eq_decide.mp hrun'.1).symm
  · intro h
    have hflag : decide (ascii "200 OK" <:+: a.header) = decide (a.status.code = 200) :=
      decide_eq_decide.mpr h
    refine ⟨fun size hsize => ?_, fun sv hsv => ?_⟩
    · exact hflag ▸ HttpAnswer.returns_flag hfits hsize
    · obtain ⟨rst, rstLen, hrun⟩ := HttpAnswer.returns_flag hfits (by decide : 0 < answerBufSize)
      exact hflag ▸ HttpAnswer.told_of_returns hfits hrun hsv

/-- `HTTP/1.1 200`, with a reason. -/
def status200 (reason : List UInt8) (hreason : reason.all lineByte = true) : StatusLine :=
  ⟨1, 1, 200, by decide, reason, hreason⟩

/-- `HTTP/1.1 200 OK`, a line, and a result. -/
def okAnswer : HttpAnswer :=
  ⟨status200 (ascii "OK") (by decide), [⟨ascii "Server: gSOAP/2.8", by decide, by decide⟩],
    ascii "<E><B><R><result>done</result></R></B></E>"⟩

/-- The client is told that the command was executed, and with what result. -/
theorem verdict_ok : okAnswer.Verdict ∧
    (soapService none 9).answerReply okAnswer.bytes.length (padded okAnswer.bytes answerBufSize) =
      some (true, ascii "done") := by
  have hfits : FitsBuffers okAnswer.bytes :=
    HttpAnswer.fits_of_short (by decide) (by decide) (by decide) (by decide)
  refine ⟨(verdict_iff okAnswer hfits).mpr ?_, by decide +kernel⟩
  exact ⟨fun _ => Or.inl (by decide), fun h => absurd rfl h⟩

/-- `HTTP/1.1 200 Fine`. -/
def fineAnswer : HttpAnswer := ⟨status200 (ascii "Fine") (by decide), [], []⟩

/-- With another reason the client is told that a command failed that was executed. -/
theorem verdict_reason : ¬ ∀ a : HttpAnswer, FitsBuffers a.bytes → a.Verdict := by
  intro h
  have hfits : FitsBuffers fineAnswer.bytes :=
    HttpAnswer.fits_of_short (by decide) (by decide) (by decide) (by decide)
  obtain ⟨rst, rstLen, hrun⟩ := (h fineAnswer hfits).returns 1 (by decide)
  obtain ⟨rst', rstLen', hrun'⟩ := HttpAnswer.returns_flag hfits (by decide : 0 < 1)
  rw [hrun, Option.some.injEq, Prod.mk.injEq] at hrun'
  have hsame := decide_eq_decide.mp hrun'.1
  exact absurd (hsame.mp rfl) (by decide)

end WowProxy
