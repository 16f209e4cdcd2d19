/-
  Xml/RequestLength.lean --- whether a request fits the buffers of `make_soap_request`,
  and whether it is a well-formed HTTP message.

  The envelope has 527 bytes around the command and is put together in a buffer of
  1024; the command comes from a buffer of 2048.  Everything else has room for the
  longest credential, so that the length of the command alone decides.
-/
import WowProxy.Common.Base64
import WowProxy.Threadpool.Render
import WowProxy.Xml.SoapRequest

set_option autoImplicit false

namespace WowProxy

open WowProxy.Lib.HeaderBlock

/-! ## The texts of a request -/

/-- `s4` in front of the command. -/
def soapCommandHead : List UInt8 := ascii "      <command xsi:type=\"xsd:string\">"

/-- `s4` behind the command. -/
def soapCommandTail : List UInt8 := ascii "</command>\r\n"

/-- The envelope that carries a command. -/
def soapEnvelope (content : List UInt8) : List UInt8 :=
  soapEnvelopeHead ++ formatStrings soapCommandTemplate [content] ++ soapEnvelopeTail

/-- What `make_soap_request` returns for the request: `contentLength + requestLength`. -/
def soapRequestLength (requestAuth content : List UInt8) : Nat :=
  let contentLength := (soapEnvelope content).length
  let requestLength := (soapRequestHeader contentLength requestAuth).length
  contentLength + requestLength

theorem formatStrings_command (content : List UInt8) :
    formatStrings soapCommandTemplate [content] =
      soapCommandHead ++ (content ++ soapCommandTail) := by
  have htemplate : soapCommandTemplate =
      soapCommandHead ++ (stringPlace ++ soapCommandTail) := by
    unfold soapCommandTemplate soapCommandHead stringPlace soapCommandTail
    repeat rw [ascii_ofList]
    decide
  have hhead : (37 : UInt8) ∉ soapCommandHead := by
    rw [soapCommandHead, ascii_ofList]
    decide
  have htail : (37 : UInt8) ∉ soapCommandTail := by
    rw [soapCommandTail, ascii_ofList]
    decide
  have hrest := formatStrings_append htail [] []
  rw [List.append_nil] at hrest
  rw [htemplate, formatStrings_append hhead, formatStrings_place, hrest]
  simp [formatStrings]

theorem length_formatStrings_command (content : List UInt8) :
    (formatStrings soapCommandTemplate [content]).length = content.length + 49 := by
  have hfixed : soapCommandHead.length = 37 ∧ soapCommandTail.length = 12 := by
    rw [soapCommandHead, soapCommandTail, ascii_ofList, ascii_ofList]
    decide
  rw [formatStrings_command, List.length_append, List.length_append, hfixed.1, hfixed.2]
  omega

/-- The envelope has 527 bytes around the command. -/
theorem length_soapEnvelope (content : List UInt8) :
    (soapEnvelope content).length = content.length + 527 := by
  have hfixed : soapEnvelopeHead.length = 409 ∧ soapEnvelopeTail.length = 69 := by
    unfold soapEnvelopeHead soapEnvelopeTail
    repeat rw [ascii_ofList]
    decide +kernel
  rw [soapEnvelope, List.length_append, List.length_append, length_formatStrings_command,
    hfixed.1, hfixed.2]
  omega

/-! ## The header -/

/-- The header lines of a request. -/
def soapRequestLines (contentLength : Nat) (requestAuth : List UInt8) : List (List UInt8) :=
  [ascii "POST / HTTP/1.1", ascii "Host: 127.0.0.1:18083", ascii "User-Agent: gSOAP/2.8",
    ascii "Content-Type: text/xml; charset=UTF-8",
    ascii "Content-Length: " ++ decimal contentLength,
    ascii "SOAPAction: \"urn:TC#executeCommand\"", ascii "Authorization: Basic " ++ requestAuth]

theorem soapRequestHeader_eq (contentLength : Nat) (requestAuth : List UInt8) :
    soapRequestHeader contentLength requestAuth =
      writeLines (soapRequestLines contentLength requestAuth) ++ crlf := by
  have hlines : [ascii "POST / HTTP/1.1\r\n", ascii "Host: 127.0.0.1:18083\r\n",
      ascii "User-Agent: gSOAP/2.8\r\n", ascii "Content-Type: text/xml; charset=UTF-8\r\n",
      ascii "SOAPAction: \"urn:TC#executeCommand\"\r\n", ascii "\r\n"] =
      [ascii "POST / HTTP/1.1", ascii "Host: 127.0.0.1:18083", ascii "User-Agent: gSOAP/2.8",
        ascii "Content-Type: text/xml; charset=UTF-8",
        ascii "SOAPAction: \"urn:TC#executeCommand\"", []].map (fun line => line ++ crlf) := by
    repeat rw [ascii_ofList]
    decide
  simp only [List.map_cons, List.map_nil, List.cons.injEq, List.nil_append, and_true] at hlines
  obtain ⟨hpost, hhost, hagent, htype, haction, hcrlf⟩ := hlines
  rw [soapRequestHeader, hpost, hhost, hagent, htype, haction, hcrlf]
  simp only [writeLines, soapRequestLines, List.flatMap_cons, List.flatMap_nil,
    List.append_assoc, List.append_nil]

theorem length_decimal {n : Nat} (h : n < 10000) : (decimal n).length ≤ 4 := by
  rw [decimal, List.length_map]
  exact (Nat.length_toDigits_le_iff (by omega) (by omega)).mpr h

theorem decimal_inLine (n : Nat) : (decimal n).all inLine = true := by
  rw [List.all_eq_true]
  intro b hb
  obtain ⟨c, hc, rfl⟩ := List.mem_map.mp hb
  have hdigit := Nat.isDigit_of_mem_toDigits (by omega) (by omega) hc
  have hrange : 48 ≤ c.toNat ∧ c.toNat ≤ 57 := by
    simpa [Char.isDigit, UInt32.le_iff_toNat_le] using hdigit
  have hbyte : (UInt8.ofNat c.toNat).toNat = c.toNat := by
    simp [UInt8.toNat_ofNat']
    omega
  have hne (n : Nat) (hn : n < 48) : UInt8.ofNat c.toNat ≠ UInt8.ofNat n := by
    intro heq
    have := congrArg UInt8.toNat heq
    rw [hbyte] at this
    simp [UInt8.toNat_ofNat'] at this
    omega
  rw [inLine, Bool.and_eq_true, bne_iff_ne, bne_iff_ne]
  exact ⟨hne 13 (by omega), hne 10 (by omega)⟩

theorem length_soapRequestHeader {contentLength : Nat} (h : contentLength < 1024)
    (requestAuth : List UInt8) :
    (soapRequestHeader contentLength requestAuth).length ≤ requestAuth.length + 186 := by
  have hdecimal := length_decimal (show contentLength < 10000 by omega)
  have hfixed : (soapRequestHeader contentLength requestAuth).length =
      182 + (decimal contentLength).length + requestAuth.length := by
    have hlengths : (ascii "POST / HTTP/1.1\r\n" ++ ascii "Host: 127.0.0.1:18083\r\n" ++
        ascii "User-Agent: gSOAP/2.8\r\n" ++
        ascii "Content-Type: text/xml; charset=UTF-8\r\n" ++
        ascii "Content-Length: ").length = 118 ∧ (ascii "\r\n").length = 2 ∧
        (ascii "SOAPAction: \"urn:TC#executeCommand\"\r\n").length = 37 ∧
        (ascii "Authorization: Basic ").length = 21 := by
      repeat rw [ascii_ofList]
      decide
    unfold soapRequestHeader
    rw [List.length_append, List.length_append, List.length_append, List.length_append,
      List.length_append, List.length_append, List.length_append, hlengths.1, hlengths.2.1,
      hlengths.2.2.1, hlengths.2.2.2]
    omega
  omega

theorem soapRequestLines_inLine (contentLength : Nat) {requestAuth : List UInt8}
    (hauth : requestAuth.all inLine = true) :
    ∀ line ∈ soapRequestLines contentLength requestAuth,
      line.all inLine = true ∧ line ≠ [] := by
  have hfixed : [ascii "POST / HTTP/1.1", ascii "Host: 127.0.0.1:18083",
      ascii "User-Agent: gSOAP/2.8", ascii "Content-Type: text/xml; charset=UTF-8",
      ascii "Content-Length: ", ascii "SOAPAction: \"urn:TC#executeCommand\"",
      ascii "Authorization: Basic "].all (fun line => line.all inLine && !line.isEmpty) =
      true := by
    repeat rw [ascii_ofList]
    decide
  simp only [List.all_cons, List.all_nil, Bool.and_eq_true, Bool.not_eq_true',
    List.isEmpty_eq_false_iff, and_true] at hfixed
  obtain ⟨hpost, hhost, hagent, htype, hlength, haction, hbasic⟩ := hfixed
  intro line hline
  simp only [soapRequestLines, List.mem_cons, List.not_mem_nil, or_false] at hline
  rcases hline with rfl | rfl | rfl | rfl | rfl | rfl | rfl
  · exact hpost
  · exact hhost
  · exact hagent
  · exact htype
  · rw [List.all_append, hlength.1, decimal_inLine]
    exact ⟨rfl, List.append_ne_nil_of_left_ne_nil hlength.2 _⟩
  · exact haction
  · rw [List.all_append, hbasic.1, hauth]
    exact ⟨rfl, List.append_ne_nil_of_left_ne_nil hbasic.2 _⟩

/-- The request says the length of its body once. -/
theorem fieldValues_soapRequestLines (contentLength : Nat) (requestAuth : List UInt8) :
    fieldValues (ascii "Content-Length: ") (soapRequestLines contentLength requestAuth) =
      [decimal contentLength] := by
  have hother : [ascii "POST / HTTP/1.1", ascii "Host: 127.0.0.1:18083",
      ascii "User-Agent: gSOAP/2.8", ascii "Content-Type: text/xml; charset=UTF-8",
      ascii "SOAPAction: \"urn:TC#executeCommand\""].map
      (ascii "Content-Length: ").isPrefixOf = [false, false, false, false, false] := by
    repeat rw [ascii_ofList]
    decide
  simp only [List.map_cons, List.map_nil, List.cons.injEq, and_true] at hother
  obtain ⟨hpost, hhost, hagent, htype, haction⟩ := hother
  have hbasic : (ascii "Content-Length: ").isPrefixOf
      (ascii "Authorization: Basic " ++ requestAuth) = false := rfl
  have hlength : (ascii "Content-Length: ").isPrefixOf
      (ascii "Content-Length: " ++ decimal contentLength) = true :=
    List.isPrefixOf_iff_prefix.mpr (List.prefix_append _ _)
  simp only [fieldValues, soapRequestLines, List.filter_cons, hpost, hhost, hagent, htype,
    haction, hbasic, hlength, Bool.false_eq_true, if_false, if_true, List.filter_nil,
    List.map_cons, List.map_nil, List.drop_left]

/-! ## The request -/

theorem makeSoapRequest_eq {requestAuth content : List UInt8} (hauth : requestAuth ≠ [])
    (hcontent : content ≠ []) :
    makeSoapRequest (some requestAuth) content content.length =
      if content.length ≤ 496 ∧
          (soapRequestHeader (soapEnvelope content).length requestAuth).length +
            (soapEnvelope content).length < maxBufSize * 4 then
        some (soapRequestHeader (soapEnvelope content).length requestAuth ++
          soapEnvelope content)
      else none := by
  have hpos : content.length ≠ 0 := fun h => hcontent (List.length_eq_zero_iff.mp h)
  have hs8 := length_formatStrings_command content
  have henvelope := length_soapEnvelope content
  have hmax : maxBufSize = 1024 := rfl
  obtain ⟨b, auth, rfl⟩ := List.exists_cons_of_ne_nil hauth
  unfold makeSoapRequest
  rw [if_neg hpos]
  dsimp only
  rw [← soapEnvelope]
  refine if_congr ?_ rfl rfl
  constructor
  · rintro ⟨-, henv, -, htotal⟩
    exact ⟨by omega, htotal⟩
  · rintro ⟨hshort, htotal⟩
    exact ⟨by omega, by omega, by omega, htotal⟩

/-- A short command makes a request. -/
theorem makeSoapRequest_short {requestAuth content : List UInt8} (hauth : requestAuth ≠ [])
    (hlength : requestAuth.length ≤ 1400) (hcontent : content ≠ [])
    (hshort : content.length ≤ 496) :
    makeSoapRequest (some requestAuth) content content.length =
      some (soapRequestHeader (soapEnvelope content).length requestAuth ++
        soapEnvelope content) := by
  have henvelope := length_soapEnvelope content
  have hmax : maxBufSize = 1024 := rfl
  have hheader := length_soapRequestHeader
    (show (soapEnvelope content).length < 1024 by omega) requestAuth
  rw [makeSoapRequest_eq hauth hcontent, if_pos ⟨hshort, by omega⟩]

/-- A request is read as its lines and its envelope. -/
theorem readHeader_soapRequest {requestAuth : List UInt8}
    (hauth : requestAuth.all inLine = true) (envelope : List UInt8) :
    readHeader (soapRequestHeader envelope.length requestAuth ++ envelope) =
      some (soapRequestLines envelope.length requestAuth, envelope) := by
  rw [soapRequestHeader_eq, List.append_assoc]
  exact readHeader_writeLines (soapRequestLines_inLine _ hauth) _

/-- A request that stays in its buffers and is a well-formed message: a header block ended
by an empty line, and a body of the length the header says. -/
def RequestWellFormed (requestAuth content : List UInt8) : Prop :=
  ∃ request lines body,
    makeSoapRequest (some requestAuth) content content.length = some request ∧
      readHeader request = some (lines, body) ∧
      fieldValues (ascii "Content-Length: ") lines = [decimal body.length] ∧
      soapRequestLength requestAuth content = request.length

/-- **For every stored credential of at most 1400 bytes, a request stays in its buffers and
is well formed exactly when the command has at most 496 bytes.** -/
theorem makeSoapRequest_wellFormed_iff (requestAuth content : List UInt8)
    (hstored : StoredCredential requestAuth) (hauth : requestAuth.length ≤ 1400)
    (hcontent : 1 ≤ content.length) :
    RequestWellFormed requestAuth content ↔ content.length ≤ 496 := by
  have hne : content ≠ [] := List.length_pos_iff.mp hcontent
  constructor
  · rintro ⟨request, lines, body, hrequest, -⟩
    rw [makeSoapRequest_eq hstored.ne_nil hne] at hrequest
    split at hrequest
    · rename_i hfits
      exact hfits.1
    · exact absurd hrequest (by simp)
  · intro hshort
    refine ⟨_, _, _, makeSoapRequest_short hstored.ne_nil hauth hne hshort,
      readHeader_soapRequest hstored.all_inLine _, fieldValues_soapRequestLines _ _, ?_⟩
    rw [soapRequestLength, List.length_append]
    exact Nat.add_comm _ _

/-- The credential of `A`. -/
def credentialA : List UInt8 := base64encode [65]

theorem storedCredential_A : StoredCredential credentialA := ⟨[65], by simp, rfl⟩

theorem length_credentialA : credentialA.length ≤ 1400 := by decide

/-- A short command. -/
theorem makeSoapRequest_wellFormed_A :
    RequestWellFormed credentialA [65] ↔ [(65 : UInt8)].length ≤ 496 :=
  makeSoapRequest_wellFormed_iff credentialA [65] storedCredential_A length_credentialA
    (by decide)

/-- A command of 497 bytes does not fit. -/
theorem makeSoapRequest_overrun : ¬ ∀ requestAuth content : List UInt8,
    StoredCredential requestAuth → requestAuth.length ≤ 1400 → 1 ≤ content.length →
    content.length ≤ 2047 → RequestWellFormed requestAuth content := by
  intro hall
  have hlength : (List.replicate 497 (97 : UInt8)).length = 497 := List.length_replicate
  obtain ⟨request, lines, body, hrequest, -⟩ := hall credentialA (List.replicate 497 97)
    storedCredential_A length_credentialA (by omega) (by omega)
  rw [makeSoapRequest_eq storedCredential_A.ne_nil (List.length_pos_iff.mp (by omega))] at hrequest
  split at hrequest
  · rename_i hfits
    omega
  · exact absurd hrequest (by simp)

end WowProxy
