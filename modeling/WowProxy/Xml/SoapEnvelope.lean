/-
  Xml/SoapEnvelope.lean --- what a reader of XML makes of the envelope that
  `make_soap_request` emits.

  The command is written between the tags as it is.  The head and the tail of the
  envelope are fixed texts, so that everything about them is evaluated, and
  `elementTexts_insert` decides the rest.
-/
import WowProxy.Lib.XmlInsert
import WowProxy.Xml.RequestLength

set_option autoImplicit false
set_option maxRecDepth 10000

namespace WowProxy

open WowProxy.Lib.HeaderBlock
open WowProxy.Lib.XmlReader

/-! ## The fixed texts -/

/-- `SOAP-ENV:Envelope` -/
def envelopeName : List UInt8 := ascii "SOAP-ENV:Envelope"

/-- `SOAP-ENV:Body` -/
def bodyName : List UInt8 := ascii "SOAP-ENV:Body"

/-- `ns1:executeCommand` -/
def executeName : List UInt8 := ascii "ns1:executeCommand"

/-- `command` -/
def commandName : List UInt8 := ascii "command"

/-- A line break and `n` spaces, as character data. -/
def indent (n : Nat) : List Item := .data [10] :: List.replicate n (.data [32])

/-- The items in front of the command. -/
def headItems : List Item :=
  [.other] ++ indent 0 ++ [.start envelopeName] ++ indent 2 ++ [.start bodyName] ++ indent 4 ++
    [.start executeName] ++ indent 6 ++ [.start commandName]

/-- The items behind the end tag of the command. -/
def tailItems : List Item :=
  indent 4 ++ [.stop executeName] ++ indent 2 ++ [.stop bodyName] ++ indent 0 ++
    [.stop envelopeName] ++ indent 0

/-- Spaces are items of their own. -/
theorem reads_spaces (n : Nat) : Reads (List.replicate n 32) (List.replicate n (.data [32])) := by
  induction n with
  | zero => exact Reads.nil
  | succ n ih =>
    have hspace : Reads [32] [.data [32]] := Reads.item fun _ => rfl
    exact hspace.append ih

theorem reads_indent (n : Nat) : Reads (13 :: 10 :: List.replicate n 32) (indent n) := by
  have hbreak : Reads [13, 10] [.data [10]] := Reads.item fun _ => rfl
  exact hbreak.append (reads_spaces n)

theorem reads_head : Reads (soapEnvelopeHead ++ soapCommandHead) headItems := by
  have hsplit : soapEnvelopeHead ++ soapCommandHead =
      ascii "<?xml version=\"1.0\" encoding=\"UTF-8\"?>" ++ (13 :: 10 :: List.replicate 0 32) ++
      (ascii "<SOAP-ENV:Envelope xmlns:SOAP-ENV=\"http://schemas.xmlsoap.org/soap/envelope/\"" ++
        ascii " xmlns:ns1=\"urn:TC\" xmlns:xsd=\"http://www.w3.org/2001/XMLSchema\"" ++
        ascii " xmlns:xsi=\"http://www.w3.org/2001/XMLSchema-instance\"" ++
        ascii " xmlns:SOAP-ENC=\"http://schemas.xmlsoap.org/soap/encoding/\"" ++
        ascii " SOAP-ENV:encodingStyle=\"http://schemas.xmlsoap.org/soap/encoding/\">") ++
      (13 :: 10 :: List.replicate 2 32) ++ ascii "<SOAP-ENV:Body>" ++
      (13 :: 10 :: List.replicate 4 32) ++ ascii "<ns1:executeCommand>" ++
      (13 :: 10 :: List.replicate 6 32) ++ ascii "<command xsi:type=\"xsd:string\">" := by
    unfold soapEnvelopeHead soapCommandHead
    repeat rw [ascii_ofList]
    decide
  rw [hsplit, headItems, envelopeName, bodyName, executeName, commandName]
  repeat rw [ascii_ofList]
  refine Reads.append (Reads.append (Reads.append (Reads.append (Reads.append (Reads.append
    (Reads.append (Reads.append ?_ (reads_indent 0)) ?_) (reads_indent 2)) ?_)
    (reads_indent 4)) ?_) (reads_indent 6)) ?_
  · exact Reads.item fun _ => rfl
  · exact Reads.item fun _ => rfl
  · exact Reads.item fun _ => rfl
  · exact Reads.item fun _ => rfl
  · exact Reads.item fun _ => rfl

theorem reads_tail : Reads (soapCommandTail ++ soapEnvelopeTail)
    (.stop commandName :: tailItems) := by
  have hsplit : soapCommandTail ++ soapEnvelopeTail =
      ascii "</command>" ++ ((13 :: 10 :: List.replicate 4 32) ++ ascii "</ns1:executeCommand>" ++
      (13 :: 10 :: List.replicate 2 32) ++ ascii "</SOAP-ENV:Body>" ++
      (13 :: 10 :: List.replicate 0 32) ++ ascii "</SOAP-ENV:Envelope>" ++
      (13 :: 10 :: List.replicate 0 32)) := by
    unfold soapCommandTail soapEnvelopeTail
    repeat rw [ascii_ofList]
    decide
  rw [hsplit, tailItems, envelopeName, bodyName, executeName, commandName]
  repeat rw [ascii_ofList]
  refine Reads.cons (fun _ => rfl) (Reads.append (Reads.append (Reads.append (Reads.append
    (Reads.append (Reads.append (reads_indent 4) ?_) (reads_indent 2)) ?_) (reads_indent 0)) ?_)
    (reads_indent 0))
  · exact Reads.item fun _ => rfl
  · exact Reads.item fun _ => rfl
  · exact Reads.item fun _ => rfl

/-- The elements around the command, innermost first, with the white space in them. -/
def outerElements : List (List UInt8 × List UInt8) :=
  [(executeName, [10, 32, 32, 32, 32, 32, 32]), (bodyName, [10, 32, 32, 32, 32]),
    (envelopeName, [10, 32, 32])]

theorem read_headItems : Reading.before.read commandName headItems =
    some { stack := (commandName, []) :: outerElements, found := [], rooted := true } := by
  unfold outerElements headItems envelopeName bodyName executeName commandName
  repeat rw [ascii_ofList]
  decide

theorem read_tailItems :
    ({ stack := outerElements, found := [], rooted := true } : Reading).read commandName
      tailItems = some { stack := [], found := [], rooted := true } := by
  unfold outerElements tailItems envelopeName bodyName executeName commandName
  repeat rw [ascii_ofList]
  decide

/-! ## The command -/

/-- The texts of the `command` elements of an envelope, where it is well formed. -/
def commandTexts (envelope : List UInt8) : Option (List (List UInt8)) :=
  elementTexts commandName envelope

/-- A reader gets the command of an envelope back exactly when it is plain text. -/
theorem commandTexts_soapEnvelope_iff (content : List UInt8) :
    commandTexts (soapEnvelope content) = some [content] ↔ Lib.XmlReader.Plain content := by
  have hsplit : soapEnvelope content =
      (soapEnvelopeHead ++ soapCommandHead) ++
        (content ++ (soapCommandTail ++ soapEnvelopeTail)) := by
    rw [soapEnvelope, formatStrings_command]
    simp only [List.append_assoc]
  have houter : ∀ f ∈ outerElements, f.1 ≠ commandName := by
    unfold outerElements envelopeName bodyName executeName commandName
    repeat rw [ascii_ofList]
    decide
  have hascii : (soapEnvelopeHead ++ soapCommandHead).all Lib.Utf8.isAscii = true ∧
      (soapCommandTail ++ soapEnvelopeTail).all Lib.Utf8.isAscii = true := by
    unfold soapEnvelopeHead soapCommandHead soapCommandTail soapEnvelopeTail
    repeat rw [ascii_ofList]
    decide
  have hstart : (soapCommandTail ++ soapEnvelopeTail).head? = some 60 := by
    unfold soapCommandTail soapEnvelopeTail
    repeat rw [ascii_ofList]
    decide
  have hend : ∀ t ∈ terminators, ¬ t <:+: soapCommandTail ++ soapEnvelopeTail := by
    unfold soapCommandTail soapEnvelopeTail
    repeat rw [ascii_ofList]
    decide
  rw [hsplit, commandTexts]
  exact elementTexts_insert reads_head read_headItems reads_tail read_tailItems houter hascii
    hstart hend

/-- **A command that fits the buffers is read back, as the only command of the envelope,
exactly when it is UTF-8 of characters that XML allows and contains no `<`, no `&`, no
carriage return and no `]]>`.** -/
theorem makeSoapRequest_command_iff (requestAuth content request : List UInt8)
    (hstored : StoredCredential requestAuth) (hcontent : content ≠ [])
    (hrequest : makeSoapRequest (some requestAuth) content content.length = some request) :
    ∃ lines envelope, readHeader request = some (lines, envelope) ∧
      (commandTexts envelope = some [content] ↔
        Lib.Utf8.valid content = true ∧ (∀ b ∈ content, b ≠ 60 ∧ b ≠ 38 ∧ b ≠ 13) ∧
          ¬ cdataEnd <:+: content) := by
  rw [makeSoapRequest_eq hstored.ne_nil hcontent] at hrequest
  split at hrequest
  · obtain rfl := Option.some.inj hrequest
    refine ⟨_, soapEnvelope content, readHeader_soapRequest hstored.all_inLine _,
      (commandTexts_soapEnvelope_iff content).trans ?_⟩
    exact ⟨fun h => ⟨h.valid, h.unmarked, h.unended⟩, fun ⟨hvalid, hunmarked, hunended⟩ =>
      ⟨hvalid, hunmarked, hunended⟩⟩
  · exact absurd hrequest (by simp)

/-- The request with the command `A`. -/
def requestA : List UInt8 :=
  soapRequestHeader (soapEnvelope [65]).length credentialA ++ soapEnvelope [65]

/-- The command `A` is plain. -/
theorem makeSoapRequest_command_A :
    ∃ lines envelope, readHeader requestA = some (lines, envelope) ∧
      (commandTexts envelope = some [[65]] ↔
        Lib.Utf8.valid [65] = true ∧ (∀ b ∈ [(65 : UInt8)], b ≠ 60 ∧ b ≠ 38 ∧ b ≠ 13) ∧
          ¬ cdataEnd <:+: [65]) :=
  makeSoapRequest_command_iff credentialA [65] requestA storedCredential_A (by decide)
    (makeSoapRequest_short storedCredential_A.ne_nil length_credentialA (by decide) (by decide))

/-- A command with a parameter `<` makes an envelope that carries something else. -/
theorem makeSoapRequest_command_changed : ¬ ∀ requestAuth content request : List UInt8,
    StoredCredential requestAuth → content ≠ [] → (0 : UInt8) ∉ content →
    makeSoapRequest (some requestAuth) content content.length = some request →
    ∃ lines envelope, readHeader request = some (lines, envelope) ∧
      commandTexts envelope = some [content] := by
  intro hall
  obtain ⟨lines, envelope, hread, htexts⟩ := hall credentialA [97, 60, 98] _ storedCredential_A
    (by decide) (by decide) (makeSoapRequest_short storedCredential_A.ne_nil length_credentialA
      (by decide) (by decide))
  rw [readHeader_soapRequest storedCredential_A.all_inLine] at hread
  obtain ⟨-, rfl⟩ := Prod.mk.inj (Option.some.inj hread)
  have hplain := (commandTexts_soapEnvelope_iff [97, 60, 98]).mp htexts
  exact (hplain.unmarked 60 (by decide)).1 rfl

end WowProxy
