/-
  Xml/AnalysisSoap.lean --- `analysis_soap_response` of `xml/analysis_soap.c`: what
  the proxy takes out of the game server's answer.

  A string is its bytes in front of the terminator, so the end of a list and a NUL
  are the same to the functions below, and a pointer into a string is the rest of
  it.  `none` is a write outside one of the fixed buffers, a read behind a buffer
  without a terminator, or the use of a null pointer.
-/
import WowProxy.Threadpool.WritePipeOrSock
import WowProxy.Xml.XmlElement

set_option autoImplicit false

namespace WowProxy

open Lib.CString Lib.Text

/-! ## Strings -/

/-- The loops of `strnstr`, where `c` is the first byte of the text to find and
`find` what follows it. -/
def strnstrLoop (c : UInt8) (find : List UInt8) : List UInt8 → Nat → Option (List UInt8)
  | [], _ => none
  | sc :: s, slen =>
    if sc = 0 ∨ slen < 1 then none
    else if sc ≠ c then strnstrLoop c find s (slen - 1)
    else if find.length > slen - 1 then none
    else if s.take find.length ≠ find then strnstrLoop c find s (slen - 1)
    else some (sc :: s)

/-- `strnstr(s, find, slen)`. -/
def strnstr (s find : List UInt8) (slen : Nat) : Option (List UInt8) :=
  match find with
  | [] => some s
  | c :: find => strnstrLoop c find s slen

/-- `strncpy(dst, src, n)`, where `dst` is a zeroed buffer of `size` bytes. -/
def strncpy (size : Nat) (src : List UInt8) (n : Nat) : Option (List UInt8) :=
  if n ≤ size then some (padded ((src.take n).takeWhile (· ≠ 0)) size) else none

/-! ## The answer -/

/-- `septation` of `partition_response`: the empty line behind the header. -/
def septation : List UInt8 := ascii "\r\n\r\n"

/-- How `partition_response` moves `pos` behind the declaration.  The search for
its end is not checked. -/
def skipDeclaration (pos : List UInt8) (len : Nat) : Option (List UInt8) :=
  if pos.take 3 = ascii "<?x" then (strnstr pos (ascii "?>") len).map (·.drop 2)
  else some pos

/-- `partition_response`: `http_header` and `soap`, or the value false. -/
def partitionResponse (rsp : List UInt8) (len : Nat) :
    Option (Option (List UInt8 × List UInt8)) :=
  if len = 0 then some none
  else
    match strnstr rsp septation len with
    | none => some none
    | some pos =>
      (strncpy maxBufSize rsp (rsp.length - pos.length)).bind fun httpHeader =>
        (skipDeclaration (pos.drop septation.length) len).bind fun pos =>
          (strncpy (maxBufSize * 3) pos len).map fun soap => some (httpHeader, soap)

/-- `get_http_status`. -/
def getHttpStatus (httpRsp : List UInt8) (len : Nat) : Bool :=
  (strnstr httpRsp (ascii "200 OK") len).isSome

/-- The node whose text `get_soap_content` copies, if its name allows it. -/
def soapNode (soap : List UInt8) (isOK : Bool) : Option XmlNode :=
  (xmlParseDocument soap).bind fun root =>
    root.children[0]?.bind fun bodyNode =>
      bodyNode.children[0]?.bind fun node =>
        if isOK then node.children[0]?
        else node.children[2]?.or node.children[1]?

/-- The names `get_soap_content` copies the text of. -/
def soapNodeNamed (isOK : Bool) (name : List UInt8) : Bool :=
  if isOK then name.take 6 == ascii "result"
  else name.take 11 == ascii "faultstring" || name.take 6 == ascii "detail"

/-- `get_soap_content`: the returned value and what was copied to `content`.
`szBuf` is written and not read. -/
def getSoapContent (soap : List UInt8) (isOK : Bool) : Option (Nat × List UInt8) :=
  if soap.length ≤ maxBufSize then
    match soapNode soap isOK with
    | none => some (sizeT (-1), [])
    | some node =>
      if soapNodeNamed isOK node.name then
        let text := node.content.getD []
        (memcpy (maxBufSize * 4) text text.length).map fun content => (text.length, content)
      else some (0, [])
  else none

/-- `analysis_soap_response(rsp, rsp_len, rst, &rst_len)`: the returned value, the
bytes of `rst` and `*rst_len`. -/
def analysisSoapResponse (rsp : List UInt8) (rspLen rstLen : Nat) :
    Option (Bool × List UInt8 × Nat) :=
  if rstLen = 0 then some (false, [], 0)
  else
    match partitionResponse rsp rspLen with
    | none => none
    | some none => some (false, padded [] rstLen, rstLen)
    | some (some (httpHeader, soap)) =>
      (cstr httpHeader).bind fun header =>
        (cstr soap).bind fun soap =>
          let isOpOK := getHttpStatus header header.length
          (getSoapContent soap isOpOK).map fun content =>
            if 0 < content.1 ∧ content.1 ≤ rstLen then
              (isOpOK, padded ((content.2.take content.1).takeWhile (· ≠ 0)) rstLen, content.1)
            else (isOpOK, padded [] rstLen, rstLen)

/-! ## Finding and copying -/

/-- A text that fits what is searched is found where it stands first. -/
theorem strnstrLoop_eq_search (c : UInt8) (find : List UInt8) {s : List UInt8} (hnul : 0 ∉ s)
    {slen : Nat} (hlen : s.length ≤ slen) : strnstrLoop c find s slen = search (c :: find) s := by
  induction s generalizing slen with
  | nil => rfl
  | cons sc s ih =>
    have hsc : sc ≠ 0 := fun h => hnul (by simp [h])
    have hs : 0 ∉ s := fun h => hnul (List.mem_cons_of_mem sc h)
    simp only [List.length_cons] at hlen
    have hrest : strnstrLoop c find s (slen - 1) = search (c :: find) s :=
      ih hs (Nat.le_sub_one_of_lt hlen)
    have hgo : ¬ (sc = 0 ∨ slen < 1) := by
      rintro (h | h)
      · exact hsc h
      · omega
    rw [strnstrLoop, if_neg hgo]
    by_cases hc : sc = c
    · subst hc
      rw [if_neg (by simp)]
      by_cases hlong : find.length > slen - 1
      · -- The text to find is longer than what is left of the string.
        have hnone : search (sc :: find) (sc :: s) = none := by
          rw [← Option.not_isSome_iff_eq_none, search_isSome_iff]
          intro h
          have := h.length_le
          simp only [List.length_cons] at this
          omega
        rw [if_pos hlong, hnone]
      · rw [if_neg hlong]
        by_cases hfind : s.take find.length = find
        · have hprefix : find <+: s := List.prefix_iff_eq_take.mpr hfind.symm
          rw [if_neg (not_not.mpr hfind),
            search_of_start (List.cons_prefix_cons.mpr ⟨rfl, hprefix⟩)]
        · have hnot : ¬ sc :: find <+: sc :: s := fun h =>
            hfind (List.prefix_iff_eq_take.mp (List.cons_prefix_cons.mp h).2).symm
          rw [if_pos hfind, search_of_not_start hnot, hrest]
    · have hnot : ¬ c :: find <+: sc :: s := fun h => hc (List.cons_prefix_cons.mp h).1.symm
      rw [if_pos hc, search_of_not_start hnot, hrest]

theorem strnstr_eq_search {find s : List UInt8} (hfind : find ≠ []) (hnul : 0 ∉ s) {slen : Nat}
    (hlen : s.length ≤ slen) : strnstr s find slen = search find s := by
  obtain ⟨c, find, rfl⟩ := List.exists_cons_of_ne_nil hfind
  exact strnstrLoop_eq_search c find hnul hlen

/-- The first bytes of a string are copied with zeros behind them. -/
theorem strncpy_append {size n : Nat} {s : List UInt8} (rest : List UInt8) (hnul : 0 ∉ s)
    (hn : n ≤ size) (htake : (s ++ rest).take n = s) :
    strncpy size (s ++ rest) n = some (padded s size) := by
  rw [strncpy, if_pos hn, htake, takeWhile_ne_nul hnul]

/-! ## Answers -/

/-- `<?xml ...?>`. -/
structure Declaration where
  text : List UInt8
  no_end : ¬ ascii "?>" <:+: text

def Declaration.bytes (d : Declaration) : List UInt8 := ascii "<?xml" ++ (d.text ++ ascii "?>")

/-- An answer of the game server: a header, the empty line, a declaration that
may be missing, and the envelope. -/
structure Answer where
  header : List UInt8
  header_whole : ¬ septation <:+: header
  declaration : Option Declaration
  first : Blank
  envelope : Element
  last : Blank

/-- An element of this name with a text; `t` is the text without the white space
around it. -/
def Element.Holds (e : Element) (name t : List UInt8) : Prop :=
  ∃ (tag : Tag) (text : Text), e = .text tag text ∧ tag.name = name ∧ text.stripped = t ∧ t ≠ []

/-- The children of a fault, and the text that explains it. -/
inductive FaultChildren : List Element → List UInt8 → Prop where
  | brief {code string : Element} {c t : List UInt8} :
    code.Holds (ascii "faultcode") c → string.Holds (ascii "faultstring") t →
    FaultChildren [code, string] t
  | detailed {code string detail : Element} {c s t : List UInt8} :
    code.Holds (ascii "faultcode") c → string.Holds (ascii "faultstring") s →
    detail.Holds (ascii "detail") t → FaultChildren [code, string, detail] t

namespace Answer

variable (a : Answer)

/-- What the declaration is written as. -/
def declarationBytes : List UInt8 := (a.declaration.map Declaration.bytes).getD []

/-- The envelope with the white space around it. -/
def document : List UInt8 := a.first.bytes ++ (a.envelope.bytes ++ a.last.bytes)

/-- The whole answer. -/
def bytes : List UInt8 := a.header ++ (septation ++ (a.declarationBytes ++ a.document))

/-- The first child of the first child of the root. -/
def response : Option Element := a.envelope.children[0]?.bind fun body => body.children[0]?

/-- The answer says that the command was executed, with the result `t`. -/
def Result (t : List UInt8) : Prop :=
  ∃ response rst, a.response = some response ∧ response.children[0]? = some rst ∧
    rst.Holds (ascii "result") t

/-- The answer says that the command failed, for the reason `t`. -/
def Fault (t : List UInt8) : Prop :=
  ∃ fault, a.response = some fault ∧ FaultChildren fault.children t

/-- What the answer says of the command: whether it was executed, and its result or the
reason. -/
def Says (isOpOK : Bool) (t : List UInt8) : Prop :=
  if isOpOK then ascii "200 OK" <:+: a.header ∧ a.Result t
  else ¬ ascii "200 OK" <:+: a.header ∧ a.Fault t

/-- What the caller gets for an answer of which `t` is to be taken, in a buffer
of `size` bytes. -/
def Gives (isOpOK : Bool) (t : List UInt8) (size : Nat) : Prop :=
  analysisSoapResponse a.bytes a.bytes.length size = some (isOpOK, padded t size, t.length)

/-- The result and the reason of a failure are what the caller gets, with the
status of the header, wherever they fit its buffer. -/
def Extracted (size : Nat) : Prop :=
  (ascii "200 OK" <:+: a.header → ∀ t, a.Result t → t.length ≤ size → a.Gives true t size) ∧
    (¬ ascii "200 OK" <:+: a.header → ∀ t, a.Fault t → t.length ≤ size → a.Gives false t size)

/-- The bytes in front of the envelope that the parser is given with it: a header
that ends in a line end has its empty line two bytes earlier. -/
def lead : List UInt8 := if ascii "\r\n" <:+ a.header then ascii "\r\n" else []

/-- The buffers of `analysis_soap_response` and `get_soap_content` hold what is
copied into them. -/
structure Fits : Prop where
  header : a.header.length < maxBufSize
  bytes : a.bytes.length ≤ maxBufSize * 3
  document : a.lead.length + a.document.length ≤ maxBufSize

end Answer

/-! ## The parts of an answer -/

namespace Declaration

/-- Its end is the first `?>`. -/
theorem search_bytes (d : Declaration) (rest : List UInt8) :
    search (ascii "?>") (d.bytes ++ rest) = some (ascii "?>" ++ rest) := by
  have hopen : ¬ ascii "?>" <:+: ascii "<?xml" ++ d.text := by
    refine not_infix_append (by decide) d.no_end fun i hi hpos hsuffix _ => ?_
    obtain rfl : i = 1 := by
      have : (ascii "?>").length = 2 := rfl
      omega
    revert hsuffix
    decide
  have hfirst : ¬ ascii "?>" <:+: (ascii "<?xml" ++ d.text) ++ (ascii "?>").dropLast := by
    refine not_infix_append hopen (by decide) fun i hi hpos _ => ?_
    obtain rfl : i = 1 := by
      have : (ascii "?>").length = 2 := rfl
      omega
    decide
  have h := search_append hfirst rest
  rwa [bytes, List.append_assoc, List.append_assoc, ← List.append_assoc (ascii "<?xml")]

/-- The declaration is taken away, with all that follows kept. -/
theorem skip (d : Declaration) {rest : List UInt8} (hnul : 0 ∉ d.bytes ++ rest) {len : Nat}
    (hlen : (d.bytes ++ rest).length ≤ len) :
    skipDeclaration (d.bytes ++ rest) len = some rest := by
  have hhead : (d.bytes ++ rest).take 3 = ascii "<?x" := rfl
  rw [skipDeclaration, if_pos hhead, strnstr_eq_search (by decide) hnul hlen, d.search_bytes]
  rfl

end Declaration

namespace Answer

variable (a : Answer)

/-- The empty line behind a header that does not end a line is the first one. -/
theorem search_septation (hend : ¬ ascii "\r\n" <:+ a.header) (rest : List UInt8) :
    search septation (a.header ++ (septation ++ rest)) = some (septation ++ rest) := by
  refine search_append (not_infix_append a.header_whole (by decide) ?_) rest
  intro i hi hpos hsuffix
  have hlen : septation.length = 4 := rfl
  obtain rfl | rfl | rfl : i = 1 ∨ i = 2 ∨ i = 3 := by omega
  · decide
  · exact absurd hsuffix hend
  · decide

/-- An envelope is not taken for a declaration. -/
theorem document_head : a.document.take 3 ≠ ascii "<?x" := by
  have hdeclared : ascii "<?x" = [60, 63, 120] := rfl
  intro h
  obtain ⟨tail, htail⟩ := a.envelope.bytes_eq
  obtain ⟨c, name, hname⟩ := List.exists_cons_of_ne_nil a.envelope.tag.name_ne_nil
  rw [document, htail, hname] at h
  cases hfirst : a.first.bytes with
  | nil =>
    simp only [hfirst, hdeclared, List.nil_append, List.cons_append, List.take_succ_cons,
      List.cons.injEq] at h
    exact (a.envelope.tag.name_plain c (by rw [hname]; simp)).2.2.2.2 h.2.1
  | cons b first =>
    simp only [hfirst, hdeclared, List.cons_append, List.take_succ_cons, List.cons.injEq] at h
    have hspace := a.first.isSpace_of_mem b (by rw [hfirst]; simp)
    rw [h.1] at hspace
    cases hspace


/-- Without a line end at its end, the header is split off where it ends, and
the declaration is taken away. -/
theorem partitionResponse_bytes (hend : ¬ ascii "\r\n" <:+ a.header) (hnul : 0 ∉ a.bytes)
    (hheader : a.header.length < maxBufSize) (hbytes : a.bytes.length ≤ maxBufSize * 3) :
    partitionResponse a.bytes a.bytes.length =
      some (some (padded a.header maxBufSize, padded a.document (maxBufSize * 3))) := by
  have hparts : 0 ∉ a.header ∧ 0 ∉ a.declarationBytes ++ a.document := by
    simp only [bytes, List.mem_append, not_or] at hnul ⊢
    exact ⟨hnul.1, hnul.2.2⟩
  have hpos : strnstr a.bytes septation a.bytes.length =
      some (septation ++ (a.declarationBytes ++ a.document)) := by
    rw [strnstr_eq_search (by decide) hnul (Nat.le_refl _)]
    exact a.search_septation hend _
  have hlen : a.bytes.length = a.header.length + 4 +
      (a.declarationBytes.length + a.document.length) := by
    simp only [bytes, List.length_append]
    have : septation.length = 4 := rfl
    omega
  have hcount : a.bytes.length - (septation ++ (a.declarationBytes ++ a.document)).length =
      a.header.length := by
    simp only [bytes, List.length_append]
    omega
  have hcopy : strncpy maxBufSize a.bytes a.header.length = some (padded a.header maxBufSize) :=
    strncpy_append _ hparts.1 hheader.le List.take_left
  have hsoap : strncpy (maxBufSize * 3) a.document a.bytes.length =
      some (padded a.document (maxBufSize * 3)) := by
    have hdocument : 0 ∉ a.document := fun h => hparts.2 (List.mem_append_right _ h)
    have htake : (a.document ++ []).take a.bytes.length = a.document := by
      rw [List.append_nil]
      exact List.take_of_length_le (by omega)
    have h := strncpy_append [] hdocument hbytes htake
    rwa [List.append_nil] at h
  have hrest : skipDeclaration (a.declarationBytes ++ a.document) a.bytes.length =
      some a.document := by
    cases hdecl : a.declaration with
    | none =>
      have hnone : a.declarationBytes = [] := by simp [declarationBytes, hdecl]
      rw [hnone, List.nil_append, skipDeclaration, if_neg a.document_head]
    | some d =>
      have hsome : a.declarationBytes = d.bytes := by simp [declarationBytes, hdecl]
      rw [hsome] at hparts hlen ⊢
      exact d.skip hparts.2 (by simp only [List.length_append]; omega)
  rw [partitionResponse, if_neg (by omega), hpos]
  simp only [hcount, hcopy, Option.bind_some, List.drop_left, hrest, hsoap, Option.map_some]

end Answer

/-- The status is looked for in all of the header. -/
theorem getHttpStatus_eq {header : List UInt8} (hnul : 0 ∉ header) :
    getHttpStatus header header.length = decide (ascii "200 OK" <:+: header) := by
  rw [getHttpStatus, strnstr_eq_search (by decide) hnul (Nat.le_refl _)]
  rw [Bool.eq_iff_iff, search_isSome_iff, decide_eq_true_iff]

/-! ## The nodes -/

theorem soapNode_document (a : Answer) {response : Element} (h : a.response = some response)
    (isOK : Bool) :
    soapNode a.document isOK =
      if isOK then response.children[0]?.map Element.xmlNode
      else (response.children[2]?.or response.children[1]?).map Element.xmlNode := by
  obtain ⟨body, hbody, hresponse⟩ := Option.bind_eq_some_iff.mp h
  rw [soapNode, Answer.document, xmlParseDocument_element, Option.bind_some,
    Element.xmlNode_children, List.getElem?_map, hbody, Option.map_some, Option.bind_some,
    Element.xmlNode_children, List.getElem?_map, hresponse, Option.map_some, Option.bind_some]
  simp only [Element.xmlNode_children, List.getElem?_map, Option.map_or]

namespace Element.Holds

variable {e : Element} {name t : List UInt8}

theorem content_eq (h : e.Holds name t) : e.content = some t := by
  obtain ⟨tag, text, rfl, -, rfl, hne⟩ := h
  exact if_neg hne

theorem tag_name (h : e.Holds name t) : e.tag.name = name := by
  obtain ⟨tag, text, rfl, hname, -, -⟩ := h
  exact hname

theorem ne_nil (h : e.Holds name t) : t ≠ [] := by
  obtain ⟨_, _, _, _, _, hne⟩ := h
  exact hne

/-- The text is written inside its element. -/
theorem text_bytes (h : e.Holds name t) : t <:+: e.bytes := by
  obtain ⟨tag, text, rfl, -, rfl, -⟩ := h
  exact (strip_isInfix isSpace).trans ⟨tag.opening, tag.closing, by simp [Element.bytes]⟩

end Element.Holds

theorem getSoapContent_eq {a : Answer} {e : Element} {name t : List UInt8} {isOK : Bool}
    (hlen : a.document.length ≤ maxBufSize) (hnode : soapNode a.document isOK = some e.xmlNode)
    (hnamed : soapNodeNamed isOK e.xmlNode.name = true) (hholds : e.Holds name t)
    (ht : t.length ≤ a.document.length) :
    getSoapContent a.document isOK = some (t.length, t) := by
  have hfit : t.length ≤ maxBufSize * 4 := by omega
  rw [getSoapContent, if_pos hlen, hnode]
  simp only [hnamed, if_true, Element.xmlNode_content, hholds.content_eq, Option.getD_some]
  rw [memcpy_eq_some (Nat.le_refl _) hfit, List.take_length]
  rfl

/-- The reason is the third child, or the second where there is no third. -/
theorem FaultChildren.element {children : List Element} {t : List UInt8}
    (h : FaultChildren children t) : ∃ e name, e ∈ children ∧ e.Holds name t ∧
      children[2]?.or children[1]? = some e ∧
      (name = ascii "faultstring" ∨ name = ascii "detail") := by
  cases h with
  | brief hcode hstring => exact ⟨_, _, by simp, hstring, rfl, Or.inl rfl⟩
  | detailed hcode hstring hdetail => exact ⟨_, _, by simp, hdetail, rfl, Or.inr rfl⟩

namespace Answer

/-- A text of the response is written inside the envelope. -/
theorem text_bytes {a : Answer} {response e : Element} {name t : List UInt8}
    (hresponse : a.response = some response) (he : e ∈ response.children)
    (hholds : e.Holds name t) : t <:+: a.document := by
  obtain ⟨body, hbody, hresponse⟩ := Option.bind_eq_some_iff.mp hresponse
  have hchild := Element.bytes_of_mem (List.mem_of_getElem? hresponse)
  have hroot := Element.bytes_of_mem (List.mem_of_getElem? hbody)
  exact ((hholds.text_bytes.trans (Element.bytes_of_mem he)).trans hchild).trans
    (hroot.trans ⟨a.first.bytes, a.last.bytes, by simp [document]⟩)

theorem Says.text_bytes {a : Answer} {isOpOK : Bool} {t : List UInt8} (h : a.Says isOpOK t) :
    t <:+: a.document := by
  cases isOpOK with
  | true =>
    obtain ⟨-, response, rst, hresponse, hrst, hholds⟩ := h
    exact Answer.text_bytes hresponse (List.mem_of_getElem? hrst) hholds
  | false =>
    obtain ⟨-, fault, hresponse, hchildren⟩ := h
    obtain ⟨e, name, he, hholds, -⟩ := hchildren.element
    exact Answer.text_bytes hresponse he hholds

/-- What is taken from the envelope is what the caller gets. -/
theorem gives_of_content {a : Answer} {isOK : Bool} {t : List UInt8} {size : Nat}
    (hend : ¬ ascii "\r\n" <:+ a.header) (hnul : 0 ∉ a.bytes) (hfits : a.Fits)
    (hok : decide (ascii "200 OK" <:+: a.header) = isOK)
    (hcontent : getSoapContent a.document isOK = some (t.length, t))
    (hpart : t <:+: a.document) (hne : t ≠ []) (hsize : t.length ≤ size) :
    a.Gives isOK t size := by
  have hpos := List.length_pos_iff.mpr hne
  have hheader : 0 ∉ a.header := fun h => hnul (List.mem_append_left _ h)
  have hdocument : 0 ∉ a.document := fun h => hnul (by simp [bytes, h])
  have htext : t.takeWhile (· ≠ 0) = t := takeWhile_ne_nul fun h => hdocument (hpart.subset h)
  have hshort : a.document.length < maxBufSize * 3 := by
    have := hfits.document
    unfold maxBufSize at *
    omega
  rw [Gives, analysisSoapResponse, if_neg (by omega),
    a.partitionResponse_bytes hend hnul hfits.header hfits.bytes]
  simp only [cstr_padded hheader hfits.header, cstr_padded hdocument hshort, Option.bind_some,
    getHttpStatus_eq hheader, hok, hcontent, Option.map_some]
  rw [if_pos ⟨hpos, hsize⟩, List.take_length, htext]

/-- Where the header does not end a line, its result or reason is extracted. -/
theorem extracted_of_header (a : Answer) (hend : ¬ ascii "\r\n" <:+ a.header)
    (hnul : 0 ∉ a.bytes) (hfits : a.Fits) (size : Nat) : a.Extracted size := by
  have hdocument : a.document.length ≤ maxBufSize := (Nat.le_add_left _ _).trans hfits.document
  refine ⟨fun hok t hresult hsize => ?_, fun hok t hfault hsize => ?_⟩
  · obtain ⟨response, rst, hresponse, hrst, hholds⟩ := hresult
    have hpart := text_bytes hresponse (List.mem_of_getElem? hrst) hholds
    have hnode : soapNode a.document true = some rst.xmlNode := by
      rw [soapNode_document a hresponse, if_pos rfl, hrst]
      rfl
    have hnamed : soapNodeNamed true rst.xmlNode.name = true := by
      rw [Element.xmlNode_name, hholds.tag_name]
      rfl
    exact gives_of_content hend hnul hfits (decide_eq_true hok)
      (getSoapContent_eq hdocument hnode hnamed hholds hpart.length_le) hpart hholds.ne_nil hsize
  · obtain ⟨fault, hresponse, hchildren⟩ := hfault
    obtain ⟨e, name, he, hholds, hnode, hname⟩ := hchildren.element
    have hpart := text_bytes hresponse he hholds
    have hnode' : soapNode a.document false = some e.xmlNode := by
      rw [soapNode_document a hresponse, if_neg Bool.false_ne_true, hnode]
      rfl
    have hnamed : soapNodeNamed false e.xmlNode.name = true := by
      rw [Element.xmlNode_name, hholds.tag_name]
      rcases hname with rfl | rfl <;> rfl
    exact gives_of_content hend hnul hfits (decide_eq_false hok)
      (getSoapContent_eq hdocument hnode' hnamed hholds hpart.length_le) hpart hholds.ne_nil hsize

/-- The same answer, with the line end behind `header` read as white space in
front of the envelope. -/
def withLineEnd (a : Answer) (header : List UInt8) (h : header ++ ascii "\r\n" = a.header) :
    Answer where
  header := header
  header_whole := fun hin => a.header_whole (hin.trans ⟨[], ascii "\r\n", h⟩)
  declaration := none
  first :=
    { bytes := ascii "\r\n" ++ a.first.bytes
      isSpace_of_mem := by
        have hlineEnd : ∀ b ∈ ascii "\r\n", isSpace b = true := List.all_eq_true.mp rfl
        intro b hb
        rcases List.mem_append.mp hb with hb | hb
        · exact hlineEnd b hb
        · exact a.first.isSpace_of_mem b hb }
  envelope := a.envelope
  last := a.last

section LineEnd

variable {a : Answer} {header : List UInt8} (h : header ++ ascii "\r\n" = a.header)

include h

/-- Only one line end is at the end of a header. -/
theorem lineEnd_last : ¬ ascii "\r\n" <:+ header := by
  rintro ⟨front, hfront⟩
  exact a.header_whole ⟨front, [], by rw [← h, ← hfront]; simp [septation, ascii]⟩

/-- The line end is not part of the status. -/
theorem lineEnd_status : ascii "200 OK" <:+: header ↔ ascii "200 OK" <:+: a.header := by
  refine ⟨fun hin => hin.trans ⟨[], ascii "\r\n", h⟩, fun hin => ?_⟩
  by_contra hout
  have hapart : ∀ i < 6, ¬ (ascii "200 OK").drop i <+: ascii "\r\n" := by decide
  exact not_infix_append hout (by decide) (fun i hi _ _ => hapart i hi) (h ▸ hin)

theorem withLineEnd_bytes (hnone : a.declaration = none) :
    (a.withLineEnd header h).bytes = a.bytes := by
  have hswap : septation ++ ascii "\r\n" = ascii "\r\n" ++ septation := rfl
  simp only [bytes, declarationBytes, document, withLineEnd, hnone, ← h, Option.map_none,
    Option.getD_none, List.nil_append, List.append_assoc]
  rw [← List.append_assoc septation, hswap, List.append_assoc]

theorem withLineEnd_fits (hnone : a.declaration = none) (hfits : a.Fits) :
    (a.withLineEnd header h).Fits := by
  refine ⟨?_, withLineEnd_bytes h hnone ▸ hfits.bytes, ?_⟩
  · have hlen := congrArg List.length h
    rw [List.length_append] at hlen
    have hheader := hfits.header
    change header.length < maxBufSize
    omega
  · have hdocument := hfits.document
    have hlead : (a.withLineEnd header h).lead = [] := if_neg (lineEnd_last h)
    have hlead' : a.lead = ascii "\r\n" := if_pos ⟨header, h⟩
    rw [hlead, document]
    rw [hlead', document] at hdocument
    simpa [withLineEnd, Nat.add_assoc] using hdocument

end LineEnd

end Answer

/-- **What an answer says is extracted from it.**  Where no declaration follows a
header that ends a line, the caller gets the stripped text of the result when
the header has the status, and that of the reason when it has not. -/
theorem analysisSoapResponse_extracts (a : Answer) (size : Nat) (hnul : 0 ∉ a.bytes)
    (hfits : a.Fits) (hplain : a.declaration = none ∨ ¬ ascii "\r\n" <:+ a.header) :
    a.Extracted size := by
  by_cases hend : ascii "\r\n" <:+ a.header
  · -- The empty line is found two bytes earlier: the line end goes to the envelope.
    have hnone := hplain.resolve_right (not_not.mpr hend)
    have ⟨header, h⟩ := hend
    have hbytes := Answer.withLineEnd_bytes h hnone
    have hstatus := Answer.lineEnd_status h
    have hextracted := (a.withLineEnd header h).extracted_of_header (Answer.lineEnd_last h)
      (hbytes ▸ hnul) (Answer.withLineEnd_fits h hnone hfits) size
    simp only [Answer.Extracted, Answer.Gives, hbytes] at hextracted ⊢
    exact ⟨fun hok => hextracted.1 (hstatus.mpr hok),
      fun hok => hextracted.2 fun hin => hok (hstatus.mp hin)⟩
  · exact a.extracted_of_header hend hnul hfits size

/-- A tag whose parts have been checked. -/
def checkedTag (name attributes : List UInt8) (hne : name ≠ [])
    (hname : (name.all fun b =>
      decide (isSpace b = false ∧ b ≠ 60 ∧ b ≠ 62 ∧ b ≠ 47 ∧ b ≠ 63)) = true)
    (hopen : 62 ∉ attributes)
    (hend : (attributes.getLast?.all fun b => decide (isSpace b = false ∧ b ≠ 47)) = true) :
    Tag where
  name := name
  attributes := attributes
  name_ne_nil := hne
  name_plain := fun b hb => of_decide_eq_true (List.all_eq_true.mp hname b hb)
  attributes_open := hopen
  attributes_end := fun b hb => by
    rw [hb] at hend
    exact of_decide_eq_true hend

/-- A blank of one line end. -/
def lineBlank : Blank := ⟨[10], List.all_eq_true.mp rfl⟩

/-- `<E a="1"><B><R>` and so on around a result, with a line end at every place
between two tags. -/
def doneEnvelope : Element :=
  let result := Element.text (checkedTag (ascii "result") [] (by decide) rfl (by decide) rfl)
    ⟨ascii " done ", by decide⟩
  let response := Element.nest (checkedTag (ascii "R") [] (by decide) rfl (by decide) rfl)
    (.cons lineBlank result (.nil lineBlank))
  let body := Element.nest (checkedTag (ascii "B") [] (by decide) rfl (by decide) rfl)
    (.cons lineBlank response (.nil lineBlank))
  .nest (checkedTag (ascii "E") (ascii " a=\"1\"") (by decide) rfl (by decide) rfl)
    (.cons lineBlank body (.nil lineBlank))

/-- `<?xml?>`. -/
def bareDeclaration : Declaration := ⟨[], by decide⟩

/-- An answer whose header ends with its last line, and not with the end of it. -/
def doneAnswer : Answer :=
  ⟨ascii "HTTP/1.1 200 OK", by decide, some bareDeclaration, lineBlank, doneEnvelope, lineBlank⟩

/-- What the answer says is in its envelope alone. -/
theorem result_of_doneEnvelope {a : Answer} (h : a.envelope = doneEnvelope) :
    a.Result (ascii "done") := by
  rw [Answer.Result, Answer.response, h]
  exact ⟨_, _, rfl, rfl, _, _, rfl, rfl, rfl, by decide⟩

theorem analysisSoapResponse_done : doneAnswer.Gives true (ascii "done") 64 := by
  have hextracted := analysisSoapResponse_extracts doneAnswer 64 (by decide +kernel)
    ⟨by decide +kernel, by decide +kernel, by decide +kernel⟩ (Or.inr (by decide))
  exact hextracted.1 (by decide) _ (result_of_doneEnvelope rfl) (by decide)

/-- The same answer with a header that ends a line: the declaration is not
recognised behind the line end, and the parser does not get past it. -/
def lineEndAnswer : Answer :=
  { doneAnswer with
    header := ascii "HTTP/1.1 200 OK\r\n"
    header_whole := by decide }

/-- Behind a header that ends a line the result is lost with a declaration. -/
theorem analysisSoapResponse_loses : ¬ ∀ (a : Answer) (size : Nat), 0 ∉ a.bytes → a.Fits →
    a.Extracted size := by
  intro h
  have hrun : analysisSoapResponse lineEndAnswer.bytes lineEndAnswer.bytes.length 64 =
      some (true, padded [] 64, 64) := by decide +kernel
  have hextracted := h lineEndAnswer 64 (by decide +kernel)
    ⟨by decide +kernel, by decide +kernel, by decide +kernel⟩
  have hgives := hextracted.1 (by decide) _ (result_of_doneEnvelope rfl) (by decide)
  rw [Answer.Gives, hrun] at hgives
  exact absurd hgives (by decide)

/-! ## In the reply -/

/-- `write_pipe_or_sock` calls the function above, with the string in its buffer
and a result buffer of the same size. -/
def AnalysesAnswers (sv : Service) : Prop :=
  ∀ (szBuf rsp : List UInt8) (nbytes : Nat) (result : Bool × List UInt8 × Nat),
    cstr szBuf = some rsp → analysisSoapResponse rsp nbytes answerBufSize = some result →
      sv.analysisSoapResponse szBuf nbytes = some result

/-- The service with the function of the source. -/
def soapService (requestAuth : Option (List UInt8)) (clientFd : Nat) : Service where
  requestAuth := requestAuth
  analysisSoapResponse szBuf nbytes :=
    (cstr szBuf).bind fun rsp => analysisSoapResponse rsp nbytes.toNat answerBufSize
  clientFd := clientFd

theorem soapService_analyses (requestAuth : Option (List UInt8)) (clientFd : Nat) :
    AnalysesAnswers (soapService requestAuth clientFd) := by
  intro szBuf rsp nbytes result hrsp hresult
  simp only [soapService, hrsp, Option.bind_some, Int.toNat_natCast]
  exact hresult

/-- What is handed back lies in the array. -/
theorem analysisSoapResponse_room {rsp : List UInt8} {rspLen size : Nat} {isOpOK : Bool}
    {rst : List UInt8} {rstLen : Nat}
    (h : analysisSoapResponse rsp rspLen size = some (isOpOK, rst, rstLen)) :
    rst.length = size ∧ rstLen ≤ size := by
  have hempty : (padded [] size).length = size := length_padded (Nat.zero_le size)
  unfold analysisSoapResponse at h
  split at h
  · rename_i hzero
    simp only [Option.some.injEq, Prod.mk.injEq] at h
    obtain ⟨-, rfl, rfl⟩ := h
    exact ⟨hzero.symm, Nat.zero_le size⟩
  · split at h
    · cases h
    · simp only [Option.some.injEq, Prod.mk.injEq] at h
      obtain ⟨-, rfl, rfl⟩ := h
      exact ⟨hempty, Nat.le_refl size⟩
    · obtain ⟨header, -, h⟩ := Option.bind_eq_some_iff.mp h
      obtain ⟨soap, -, h⟩ := Option.bind_eq_some_iff.mp h
      obtain ⟨content, -, h⟩ := Option.map_eq_some_iff.mp h
      split at h
      · rename_i hcopied
        simp only [Prod.mk.injEq] at h
        obtain ⟨-, rfl, rfl⟩ := h
        have hcount := (List.takeWhile_prefix (l := content.2.take content.1) (· ≠ 0)).length_le
        rw [List.length_take] at hcount
        exact ⟨length_padded (by omega), hcopied.2⟩
      · simp only [Prod.mk.injEq] at h
        obtain ⟨-, rfl, rfl⟩ := h
        exact ⟨hempty, Nat.le_refl size⟩

/-- The client is told the flag and the string that are handed back. -/
theorem answerReply_of_analysis {sv : Service} (hsv : AnalysesAnswers sv) {szBuf rsp : List UInt8}
    {nbytes : Nat} {isOpOk : Bool} {rst : List UInt8} {rstLen : Nat} (hrsp : cstr szBuf = some rsp)
    (h : analysisSoapResponse rsp nbytes answerBufSize = some (isOpOk, rst, rstLen)) :
    sv.answerReply nbytes szBuf = some (isOpOk, (rst.take rstLen).takeWhile (· ≠ 0)) := by
  obtain ⟨hlength, hle⟩ := analysisSoapResponse_room h
  have hcopy : memcpy answerBufSize rst rstLen = some (rst.take rstLen) :=
    memcpy_eq_some (hlength ▸ hle) hle
  rw [Service.answerReply, hsv _ _ _ _ hrsp h, Option.bind_some]
  simp only [hcopy, Option.map_some]

/-- What is extracted from an answer is what the client is told. -/
theorem answerReply_of_gives {sv : Service} (hsv : AnalysesAnswers sv) {a : Answer} {isOpOk : Bool}
    {t : List UInt8} (hgives : a.Gives isOpOk t answerBufSize) (hnul : 0 ∉ a.bytes)
    (hlen : a.bytes.length < answerBufSize) (htext : 0 ∉ t) :
    sv.answerReply a.bytes.length (padded a.bytes answerBufSize) = some (isOpOk, t) := by
  rw [answerReply_of_analysis hsv (cstr_padded hnul hlen) hgives, padded, List.take_left,
    takeWhile_ne_nul htext]

/-- What an answer says, whose header does not end a line, is what the client is told. -/
theorem answerReply_of_says {sv : Service} (hsv : AnalysesAnswers sv) {a : Answer} {isOpOk : Bool}
    {t : List UInt8} (htold : a.Says isOpOk t) (hend : ¬ ascii "\r\n" <:+ a.header)
    (hnul : 0 ∉ a.bytes) (hfits : a.Fits) (hlen : a.bytes.length < answerBufSize) :
    sv.answerReply a.bytes.length (padded a.bytes answerBufSize) = some (isOpOk, t) := by
  have hextracted := a.extracted_of_header hend hnul hfits answerBufSize
  have hpart : t <:+: a.bytes :=
    htold.text_bytes.trans ⟨a.header ++ (septation ++ a.declarationBytes), [], by
      simp [Answer.bytes]⟩
  have hsize : t.length ≤ answerBufSize := Nat.le_of_lt (Nat.lt_of_le_of_lt hpart.length_le hlen)
  have hgives : a.Gives isOpOk t answerBufSize := by
    cases isOpOk with
    | true => exact hextracted.1 htold.1 t htold.2 hsize
    | false => exact hextracted.2 htold.1 t htold.2 hsize
  exact answerReply_of_gives hsv hgives hnul hlen fun h => hnul (hpart.subset h)

/-! ## A result and a reason -/

/-- An element with a text, in which no tag begins. -/
def textElement (name text : List UInt8) (hne : name ≠ [])
    (hname : (name.all fun b =>
      decide (isSpace b = false ∧ b ≠ 60 ∧ b ≠ 62 ∧ b ≠ 47 ∧ b ≠ 63)) = true)
    (htext : 60 ∉ text) : Element :=
  .text (checkedTag name [] hne hname List.not_mem_nil rfl) ⟨text, htext⟩

/-- The code and the string of a fault. -/
def refusedEnvelope : Element :=
  let code := textElement (ascii "faultcode") (ascii "Client") (by decide) rfl (by decide)
  let string := textElement (ascii "faultstring") (ascii "no such command") (by decide) rfl
    (by decide)
  let fault := Element.nest (checkedTag (ascii "F") [] (by decide) rfl (by decide) rfl)
    (.cons lineBlank code (.cons lineBlank string (.nil lineBlank)))
  let body := Element.nest (checkedTag (ascii "B") [] (by decide) rfl (by decide) rfl)
    (.cons lineBlank fault (.nil lineBlank))
  .nest (checkedTag (ascii "E") [] (by decide) rfl (by decide) rfl)
    (.cons lineBlank body (.nil lineBlank))

/-- The answer to a command that the game server does not know. -/
def refusedAnswer : Answer :=
  ⟨ascii "HTTP/1.1 500 Internal Server Error", by decide, none, lineBlank, refusedEnvelope,
    lineBlank⟩

theorem doneAnswer_says : doneAnswer.Says true (ascii "done") :=
  ⟨by decide, result_of_doneEnvelope rfl⟩

theorem refusedAnswer_says : refusedAnswer.Says false (ascii "no such command") :=
  ⟨by decide, _, rfl, .brief (c := ascii "Client") ⟨_, _, rfl, rfl, rfl, by decide⟩
    ⟨_, _, rfl, rfl, rfl, by decide⟩⟩

end WowProxy
