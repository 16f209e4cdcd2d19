/-
  Xml/AnswerBuffers.lean --- which answers stay inside the buffers of
  `analysis_soap_response`.

  The buffers have different sizes, and each copy is limited by the length of
  something else: the header by the place of the empty line, the envelope by the
  length of the whole answer, the copy of `get_soap_content` by the terminator.
  The answers none of them is too small for are described here by their own parts,
  and the theorem of this file says that these, and no others, are taken apart
  without leaving a buffer or using a null pointer.
-/
import WowProxy.Xml.AnalysisSoap

set_option autoImplicit false

namespace WowProxy

open Lib.CString Lib.Text

/-! ## Behind the terminator

Nothing there changes what is found or copied. -/

/-- What may stand behind the bytes of a string: nothing, or its terminator and
anything. -/
def Terminates (tail : List UInt8) : Prop := ∀ b ∈ tail.head?, b = 0

section Terminates

variable {s tail : List UInt8}

/-- A text without a NUL begins no later than the string ends. -/
theorem prefix_append_terminates {find : List UInt8} (hfind : 0 ∉ find)
    (htail : Terminates tail) : find <+: s ++ tail ↔ find <+: s := by
  induction find generalizing s with
  | nil => simp
  | cons c find ih =>
    have hc : c ≠ 0 := fun h => hfind (h ▸ List.mem_cons_self)
    cases s with
    | nil =>
      cases tail with
      | nil => exact Iff.rfl
      | cons b tail =>
        have hb : b = 0 := htail b rfl
        rw [List.nil_append, List.cons_prefix_cons]
        simp [hb, hc]
    | cons a s =>
      rw [List.cons_append, List.cons_prefix_cons, List.cons_prefix_cons,
        ih fun h => hfind (List.mem_cons_of_mem _ h)]

theorem take_append_terminates {find : List UInt8} (hfind : 0 ∉ find) (htail : Terminates tail) :
    (s ++ tail).take find.length = find ↔ s.take find.length = find := by
  rw [eq_comm, ← List.prefix_iff_eq_take, prefix_append_terminates hfind htail,
    List.prefix_iff_eq_take, eq_comm]

theorem strnstrLoop_append {c : UInt8} {find : List UInt8} (hfind : 0 ∉ find) (hnul : 0 ∉ s)
    (htail : Terminates tail) (slen : Nat) :
    strnstrLoop c find (s ++ tail) slen = (strnstrLoop c find s slen).map (· ++ tail) := by
  induction s generalizing slen with
  | nil =>
    cases tail with
    | nil => rfl
    | cons b tail =>
      have hb : b = 0 := htail b rfl
      simp [strnstrLoop, hb]
  | cons sc s ih =>
    have ih := ih (fun h => hnul (List.mem_cons_of_mem _ h)) (slen - 1)
    simp only [List.cons_append, strnstrLoop, take_append_terminates hfind htail, ih, ne_eq,
      apply_ite (Option.map (· ++ tail)), Option.map_none, Option.map_some]

theorem strnstr_append {find : List UInt8} (hfind : 0 ∉ find) (hnul : 0 ∉ s)
    (htail : Terminates tail) (slen : Nat) :
    strnstr (s ++ tail) find slen = (strnstr s find slen).map (· ++ tail) := by
  cases find with
  | nil => rfl
  | cons c find =>
    exact strnstrLoop_append (fun h => hfind (List.mem_cons_of_mem _ h)) hnul htail slen

theorem strncpy_terminates (hnul : 0 ∉ s) (htail : Terminates tail) (size n : Nat) :
    strncpy size (s ++ tail) n = strncpy size s n := by
  have hs : ∀ b ∈ s.take n, decide (b ≠ 0) = true := fun b hb => by
    rw [decide_eq_true_iff]
    rintro rfl
    exact hnul (List.mem_of_mem_take hb)
  have hcopy : ((s ++ tail).take n).takeWhile (· ≠ 0) = s.take n := by
    rw [List.take_append, List.takeWhile_append_of_pos hs]
    cases tail with
    | nil => simp
    | cons b tail =>
      have hb : b = 0 := htail b rfl
      cases n - s.length with
      | zero => simp
      | succ m => simp [hb]
  rw [strncpy, strncpy, hcopy, takeWhile_ne_nul fun h => hnul (List.mem_of_mem_take h)]

end Terminates

/-! ## The parts -/

/-- The string of an answer: its bytes in front of the first NUL. -/
def answerText (rsp : List UInt8) : List UInt8 := rsp.takeWhile (· ≠ 0)

/-- A text is its header, the first empty line and the rest. -/
structure Split (text header rest : List UInt8) : Prop where
  text_eq : text = header ++ (septation ++ rest)
  first : ¬ septation <:+: header ++ septation.dropLast

/-- The document behind the header: the rest, without the declaration it may begin
with. -/
inductive Document : List UInt8 → List UInt8 → Prop where
  | undeclared {rest : List UInt8} : ¬ ascii "<?x" <+: rest → Document rest rest
  | declared {declaration document : List UInt8} :
    ascii "<?x" <+: declaration ++ (ascii "?>" ++ document) →
    ¬ ascii "?>" <:+: declaration ++ (ascii "?>").dropLast →
    Document (declaration ++ (ascii "?>" ++ document)) document

theorem Document.suffix {rest document : List UInt8} (h : Document rest document) :
    document <:+ rest := by
  cases h with
  | undeclared => exact List.suffix_refl _
  | @declared declaration _ _ _ => exact ⟨declaration ++ ascii "?>", by rw [List.append_assoc]⟩

theorem answerText_nul (rsp : List UInt8) : 0 ∉ answerText rsp := fun h => by
  simpa using List.mem_takeWhile_imp h

/-- An answer is its string, with the terminator and more behind it where it holds
a NUL. -/
theorem answerText_append (rsp : List UInt8) :
    ∃ tail, rsp = answerText rsp ++ tail ∧ Terminates tail := by
  refine ⟨rsp.dropWhile (· ≠ 0), List.takeWhile_append_dropWhile.symm, fun b hb => ?_⟩
  have hnot := List.head?_dropWhile_not (· ≠ (0 : UInt8)) rsp
  rw [hb] at hnot
  simpa using hnot

theorem answerText_length_le (rsp : List UInt8) : (answerText rsp).length ≤ rsp.length :=
  (List.takeWhile_prefix _).length_le

theorem strnstr_eq_some_iff {find s t : List UInt8} {slen : Nat} (hfind : find ≠ [])
    (hnul : 0 ∉ s) (hlen : s.length ≤ slen) :
    strnstr s find slen = some t ↔
      ∃ pre rest, s = pre ++ t ∧ t = find ++ rest ∧ ¬ find <:+: pre ++ find.dropLast := by
  rw [strnstr_eq_search hfind hnul hlen]
  exact search_eq_some_iff hfind

/-- The declaration is skipped where it has an end. -/
theorem skipDeclaration_eq_some_iff {rest document : List UInt8} {len : Nat} (hnul : 0 ∉ rest)
    (hlen : rest.length ≤ len) :
    skipDeclaration rest len = some document ↔ Document rest document := by
  have hhead : rest.take 3 = ascii "<?x" ↔ ascii "<?x" <+: rest := by
    rw [List.prefix_iff_eq_take, eq_comm]
    rfl
  rw [skipDeclaration]
  by_cases hdeclared : ascii "<?x" <+: rest
  · rw [if_pos (hhead.mpr hdeclared), Option.map_eq_some_iff]
    constructor
    · rintro ⟨pos, hpos, rfl⟩
      obtain ⟨pre, behind, rfl, rfl, hfirst⟩ :=
        (strnstr_eq_some_iff (by decide) hnul hlen).mp hpos
      exact .declared hdeclared hfirst
    · intro h
      cases h with
      | undeclared hnot => exact absurd hdeclared hnot
      | @declared declaration _ _ hfirst =>
        exact ⟨ascii "?>" ++ document, (strnstr_eq_some_iff (by decide) hnul hlen).mpr
          ⟨declaration, document, rfl, rfl, hfirst⟩, rfl⟩
  · rw [if_neg fun h => hdeclared (hhead.mp h), Option.some.injEq]
    constructor
    · rintro rfl
      exact .undeclared hdeclared
    · intro h
      cases h with
      | undeclared => rfl
      | declared hhas => exact absurd hhas hdeclared

theorem skipDeclaration_append {s tail : List UInt8} {len : Nat} (hnul : 0 ∉ s)
    (hlen : s.length ≤ len) (htail : Terminates tail) :
    skipDeclaration (s ++ tail) len = (skipDeclaration s len).map (· ++ tail) := by
  have hdeclared : (s ++ tail).take 3 = ascii "<?x" ↔ s.take 3 = ascii "<?x" :=
    take_append_terminates (s := s) (by decide : 0 ∉ ascii "<?x") htail
  rw [skipDeclaration, skipDeclaration]
  by_cases h : s.take 3 = ascii "<?x"
  · rw [if_pos h, if_pos (hdeclared.mpr h), strnstr_append (by decide) hnul htail]
    cases hpos : strnstr s (ascii "?>") len with
    | none => rfl
    | some pos =>
      obtain ⟨pre, behind, -, rfl, -⟩ := (strnstr_eq_some_iff (by decide) hnul hlen).mp hpos
      rfl
  · rw [if_neg h, if_neg fun h' => h (hdeclared.mp h')]
    rfl

/-! ## Taking an answer apart -/

section Parts

variable {s tail : List UInt8} {len : Nat} (hnul : 0 ∉ s) (hlen : s.length ≤ len)
  (htail : Terminates tail)

include hnul hlen htail

/-- An answer without an empty line is not taken apart. -/
theorem partitionResponse_whole (h : ¬ septation <:+: s) :
    partitionResponse (s ++ tail) len = some none := by
  have hfound : strnstr (s ++ tail) septation len = none := by
    rw [strnstr_append (by decide) hnul htail, strnstr_eq_search (by decide) hnul hlen,
      Option.map_eq_none_iff, ← Option.not_isSome_iff_eq_none, search_isSome_iff]
    exact h
  rw [partitionResponse, hfound]
  split <;> rfl

/-- The header is copied up to the empty line, and the document with as many bytes
as the whole answer has. -/
theorem partitionResponse_split {header rest : List UInt8} (h : Split s header rest) :
    partitionResponse (s ++ tail) len =
      (strncpy maxBufSize header header.length).bind fun httpHeader =>
        (skipDeclaration rest len).bind fun document =>
          (strncpy (maxBufSize * 3) document len).map fun soap => some (httpHeader, soap) := by
  have hrest : 0 ∉ rest := fun hmem => hnul (by simp [h.text_eq, hmem])
  have hshort : rest.length ≤ len := by
    rw [h.text_eq, List.length_append, List.length_append] at hlen
    omega
  have hpos : len ≠ 0 := by
    have hfour : septation.length = 4 := rfl
    rw [h.text_eq, List.length_append, List.length_append] at hlen
    omega
  have hfound : strnstr (s ++ tail) septation len = some (septation ++ (rest ++ tail)) := by
    rw [strnstr_append (by decide) hnul htail,
      (strnstr_eq_some_iff (by decide) hnul hlen).mpr ⟨header, rest, h.text_eq, rfl, h.first⟩,
      Option.map_some, List.append_assoc]
  have hcount : (s ++ tail).length - (septation ++ (rest ++ tail)).length = header.length := by
    rw [h.text_eq]
    simp only [List.length_append]
    omega
  have hheader : strncpy maxBufSize (s ++ tail) header.length =
      strncpy maxBufSize header header.length := by
    rw [strncpy_terminates hnul htail, h.text_eq, strncpy, strncpy, List.take_left,
      List.take_length]
  rw [partitionResponse, if_neg hpos, hfound]
  simp only [hcount, hheader, List.drop_left, skipDeclaration_append hrest hshort htail]
  cases hskip : skipDeclaration rest len with
  | none => rfl
  | some document =>
    have hdocument : 0 ∉ document := fun hmem =>
      hrest (((skipDeclaration_eq_some_iff hrest hshort).mp hskip).suffix.subset hmem)
    simp only [Option.map_some, Option.bind_some, strncpy_terminates hdocument htail]

end Parts

/-- A whole string is copied where the zeros behind it fit the buffer too. -/
theorem strncpy_whole {s : List UInt8} (hnul : 0 ∉ s) {size n : Nat} (hs : s.length ≤ n) :
    strncpy size s n = if n ≤ size then some (padded s size) else none := by
  rw [strncpy, List.take_of_length_le hs, takeWhile_ne_nul hnul]

/-- A buffer that is full holds no string. -/
theorem cstr_padded_full {s : List UInt8} (hnul : 0 ∉ s) : cstr (padded s s.length) = none := by
  rw [padded, Nat.sub_self, List.replicate_zero, List.append_nil]
  exact cstr_eq_none hnul

/-! ## What is copied -/

/-- The text that is copied stands in the document. -/
theorem soapNode_within {soap : List UInt8} {isOK : Bool} {node : XmlNode}
    (h : soapNode soap isOK = some node) : node.Within soap := by
  obtain ⟨root, hroot, h⟩ := Option.bind_eq_some_iff.mp h
  obtain ⟨bodyNode, hbody, h⟩ := Option.bind_eq_some_iff.mp h
  obtain ⟨response, hresponse, h⟩ := Option.bind_eq_some_iff.mp h
  have hbody := (xmlParseDocument_within hroot).child (List.mem_of_getElem? hbody)
  have hresponse := hbody.child (List.mem_of_getElem? hresponse)
  cases isOK with
  | true => exact hresponse.child (List.mem_of_getElem? h)
  | false =>
    rcases Option.or_eq_some_iff.mp h with h | ⟨-, h⟩
    · exact hresponse.child (List.mem_of_getElem? h)
    · exact hresponse.child (List.mem_of_getElem? h)

/-- The content fits whenever the copy of the document does. -/
theorem getSoapContent_isSome {soap : List UInt8} (isOK : Bool) :
    (getSoapContent soap isOK).isSome ↔ soap.length ≤ maxBufSize := by
  rw [getSoapContent]
  by_cases hlen : soap.length ≤ maxBufSize
  · rw [if_pos hlen]
    refine iff_of_true ?_ hlen
    cases hnode : soapNode soap isOK with
    | none => rfl
    | some node =>
      have hshort := (soapNode_within hnode).content.length_le
      have hfit : (node.content.getD []).length ≤ maxBufSize * 4 := by omega
      dsimp only
      split
      · rw [memcpy_eq_some (Nat.le_refl _) hfit]
        rfl
      · rfl
  · rw [if_neg hlen]
    exact iff_of_false Bool.false_ne_true hlen

/-! ## Answers that fit -/

/-- The header and the document of an answer, where they fit the buffers they are
copied to. -/
structure Taken (rsp header document : List UInt8) : Prop where
  parts : ∃ rest, Split (answerText rsp) header rest ∧ Document rest document
  header_lt : header.length < maxBufSize
  /-- the zeros behind the document are copied too, as many as the header has bytes -/
  rsp_le : rsp.length ≤ maxBufSize * 3
  document_le : document.length ≤ maxBufSize

/-- An answer is not taken apart, or its parts fit. -/
inductive FitsBuffers (rsp : List UInt8) : Prop where
  | whole : ¬ septation <:+: answerText rsp → FitsBuffers rsp
  | taken {header document : List UInt8} : Taken rsp header document → FitsBuffers rsp

theorem exists_split {s : List UInt8} (h : septation <:+: s) :
    ∃ header rest, Split s header rest := by
  obtain ⟨pos, hpos⟩ := Option.isSome_iff_exists.mp (search_isSome_iff.mpr h)
  obtain ⟨header, rest, hs, rfl, hfirst⟩ := (search_eq_some_iff (by decide)).mp hpos
  exact ⟨header, rest, hs, hfirst⟩

/-- The parts of an answer are strings, and shorter than it. -/
theorem Split.parts {rsp header rest : List UInt8} (h : Split (answerText rsp) header rest) :
    0 ∉ header ∧ 0 ∉ rest ∧ header.length ≤ rsp.length ∧ rest.length < rsp.length := by
  have hnul := answerText_nul rsp
  have hle := answerText_length_le rsp
  have hfour : septation.length = 4 := rfl
  rw [h.text_eq] at hnul hle
  simp only [List.mem_append, not_or, List.length_append] at hnul hle
  exact ⟨hnul.1, hnul.2.2, by omega, by omega⟩

theorem analysisSoapResponse_whole {rsp : List UInt8} {size : Nat} (hsize : 0 < size)
    (h : ¬ septation <:+: answerText rsp) :
    analysisSoapResponse rsp rsp.length size = some (false, padded [] size, size) := by
  obtain ⟨tail, hrsp, htail⟩ := answerText_append rsp
  have hpart := partitionResponse_whole (answerText_nul rsp) (answerText_length_le rsp) htail h
  rw [← hrsp] at hpart
  rw [analysisSoapResponse, if_neg (Nat.ne_of_gt hsize), hpart]

/-- Nothing behind the terminator of an answer is looked at. -/
theorem analysisSoapResponse_answerText (rsp : List UInt8) (size : Nat) :
    analysisSoapResponse (answerText rsp) rsp.length size =
      analysisSoapResponse rsp rsp.length size := by
  obtain ⟨tail, hrsp, htail⟩ := answerText_append rsp
  have hnul := answerText_nul rsp
  have hle := answerText_length_le rsp
  have hnil : Terminates [] := fun b hb => by cases hb
  have hpart : partitionResponse (answerText rsp ++ []) rsp.length =
      partitionResponse (answerText rsp ++ tail) rsp.length := by
    by_cases hinfix : septation <:+: answerText rsp
    · obtain ⟨header, rest, hsplit⟩ := exists_split hinfix
      rw [partitionResponse_split hnul hle hnil hsplit,
        partitionResponse_split hnul hle htail hsplit]
    · rw [partitionResponse_whole hnul hle hnil hinfix,
        partitionResponse_whole hnul hle htail hinfix]
  rw [← hrsp, List.append_nil] at hpart
  rw [analysisSoapResponse, analysisSoapResponse, hpart]

/-- An answer with an empty line is taken apart step by step. -/
theorem analysisSoapResponse_split {rsp header rest : List UInt8} {size : Nat} (hsize : 0 < size)
    (h : Split (answerText rsp) header rest) :
    analysisSoapResponse rsp rsp.length size =
      if header.length < maxBufSize ∧ rsp.length ≤ maxBufSize * 3 then
        (skipDeclaration rest rsp.length).bind fun document =>
          let isOpOK := decide (ascii "200 OK" <:+: header)
          (getSoapContent document isOpOK).map fun content =>
            if 0 < content.1 ∧ content.1 ≤ size then
              (isOpOK, padded ((content.2.take content.1).takeWhile (· ≠ 0)) size, content.1)
            else (isOpOK, padded [] size, size)
      else none := by
  obtain ⟨tail, hrsp, htail⟩ := answerText_append rsp
  have hpart := partitionResponse_split (answerText_nul rsp) (answerText_length_le rsp) htail h
  rw [← hrsp] at hpart
  obtain ⟨hheader, hrest, -, hshort⟩ := h.parts
  rw [analysisSoapResponse, if_neg (Nat.ne_of_gt hsize), hpart,
    strncpy_whole hheader (Nat.le_refl _)]
  rcases Nat.lt_trichotomy header.length maxBufSize with hlt | heq | hgt
  · rw [if_pos hlt.le, Option.bind_some]
    by_cases hlen : rsp.length ≤ maxBufSize * 3
    · rw [if_pos ⟨hlt, hlen⟩]
      cases hskip : skipDeclaration rest rsp.length with
      | none => rfl
      | some document =>
        have hsuffix := ((skipDeclaration_eq_some_iff hrest hshort.le).mp hskip).suffix
        have hdocument : 0 ∉ document := fun hmem => hrest (hsuffix.subset hmem)
        have hbehind : document.length < rsp.length :=
          Nat.lt_of_le_of_lt hsuffix.length_le hshort
        rw [Option.bind_some, strncpy_whole hdocument hbehind.le, if_pos hlen, Option.map_some]
        simp only [cstr_padded hheader hlt, cstr_padded hdocument (hbehind.trans_le hlen),
          Option.bind_some, getHttpStatus_eq hheader]
    · -- The zeros behind the document do not fit.
      rw [if_neg fun hfits => hlen hfits.2]
      cases hskip : skipDeclaration rest rsp.length with
      | none => rfl
      | some document => rw [Option.bind_some, strncpy, if_neg hlen]; rfl
  · -- The header fills its buffer and is not terminated.
    rw [if_pos heq.le, if_neg fun hfits => Nat.ne_of_lt hfits.1 heq, Option.bind_some]
    have hfull : cstr (padded header maxBufSize) = none := heq ▸ cstr_padded_full hheader
    cases hskip : skipDeclaration rest rsp.length with
    | none => rfl
    | some document =>
      rw [Option.bind_some]
      cases strncpy (maxBufSize * 3) document rsp.length with
      | none => rfl
      | some soap => simp only [Option.map_some, hfull, Option.bind_none]
  · rw [if_neg (Nat.not_le_of_gt hgt), if_neg fun hfits => Nat.lt_asymm hgt hfits.1]
    rfl

/-- What the caller gets of an answer whose parts fit. -/
theorem analysisSoapResponse_taken {rsp header document : List UInt8} {size : Nat}
    (hsize : 0 < size) (h : Taken rsp header document) :
    ∃ content, getSoapContent document (decide (ascii "200 OK" <:+: header)) = some content ∧
      analysisSoapResponse rsp rsp.length size =
        some (if 0 < content.1 ∧ content.1 ≤ size then
          (decide (ascii "200 OK" <:+: header),
            padded ((content.2.take content.1).takeWhile (· ≠ 0)) size, content.1)
        else (decide (ascii "200 OK" <:+: header), padded [] size, size)) := by
  obtain ⟨rest, hsplit, hdocument⟩ := h.parts
  obtain ⟨-, hrest, -, hshort⟩ := hsplit.parts
  have hskip := (skipDeclaration_eq_some_iff hrest hshort.le).mpr hdocument
  obtain ⟨content, hcontent⟩ := Option.isSome_iff_exists.mp
    ((getSoapContent_isSome (decide (ascii "200 OK" <:+: header))).mpr h.document_le)
  refine ⟨content, hcontent, ?_⟩
  rw [analysisSoapResponse_split hsize hsplit, if_pos ⟨h.header_lt, h.rsp_le⟩, hskip,
    Option.bind_some]
  simp only [hcontent, Option.map_some]

/-- An answer that is taken apart without an error fits. -/
theorem taken_of_isSome {rsp header rest : List UInt8} {size : Nat} (hsize : 0 < size)
    (hsplit : Split (answerText rsp) header rest)
    (h : (analysisSoapResponse rsp rsp.length size).isSome) :
    ∃ document, Taken rsp header document := by
  obtain ⟨-, hrest, -, hshort⟩ := hsplit.parts
  rw [analysisSoapResponse_split hsize hsplit] at h
  split at h
  · rename_i hfits
    cases hskip : skipDeclaration rest rsp.length with
    | none =>
      rw [hskip] at h
      cases h
    | some document =>
      rw [hskip, Option.bind_some, Option.isSome_map] at h
      exact ⟨document,
        { parts := ⟨rest, hsplit, (skipDeclaration_eq_some_iff hrest hshort.le).mp hskip⟩,
          header_lt := hfits.1, rsp_le := hfits.2, document_le := (getSoapContent_isSome _).mp h }⟩
  · cases h

theorem analysisSoapResponse_isSome_iff {rsp : List UInt8} {size : Nat} (hsize : 0 < size) :
    (analysisSoapResponse rsp rsp.length size).isSome ↔ FitsBuffers rsp := by
  constructor
  · intro h
    by_cases hinfix : septation <:+: answerText rsp
    · obtain ⟨header, rest, hsplit⟩ := exists_split hinfix
      obtain ⟨document, htaken⟩ := taken_of_isSome hsize hsplit h
      exact .taken htaken
    · exact .whole hinfix
  · rintro (hwhole | htaken)
    · rw [analysisSoapResponse_whole hsize hwhole]
      rfl
    · obtain ⟨content, -, hrun⟩ := analysisSoapResponse_taken hsize htaken
      rw [hrun]
      rfl

/-- **Every access stays inside its buffer exactly for the answers that fit them.**
Either there is no empty line, or the header is shorter than its buffer, the whole
answer no longer than that of the document, a declaration has its end, and the
document is no longer than the copy of it. -/
theorem analysisSoapResponse_inBounds_iff (rsp : List UInt8) :
    (analysisSoapResponse rsp rsp.length answerBufSize).isSome ↔ FitsBuffers rsp :=
  analysisSoapResponse_isSome_iff (by decide)

/-- Behind the empty line a declaration without its end is looked for, and the
pointer of the failed search is used. -/
theorem analysisSoapResponse_null : ¬ ∀ rsp : List UInt8, 0 < rsp.length →
    rsp.length < answerBufSize →
    (analysisSoapResponse rsp rsp.length answerBufSize).isSome := by
  intro h
  have hrun := h (ascii "\r\n\r\n<?xml") (by decide) (by decide)
  revert hrun
  decide

end WowProxy
