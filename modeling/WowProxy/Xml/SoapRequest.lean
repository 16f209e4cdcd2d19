/-
  Xml/SoapRequest.lean --- `make_soap_request` of `xml/analysis_soap.c`: the HTTP
  request that carries one command to the game server.

  Every `sprintf` and `strcat` of the source appends to one of four buffers; the
  model appends the texts and compares the length with the size of the buffer.
-/
import WowProxy.Threadpool.Message

set_option autoImplicit false

namespace WowProxy

/-- `s0` to `s3`: the envelope up to the command. -/
def soapEnvelopeHead : List UInt8 :=
  ascii "<?xml version=\"1.0\" encoding=\"UTF-8\"?>\r\n" ++
  ascii "<SOAP-ENV:Envelope xmlns:SOAP-ENV=\"http://schemas.xmlsoap.org/soap/envelope/\"" ++
  ascii " xmlns:ns1=\"urn:TC\" xmlns:xsd=\"http://www.w3.org/2001/XMLSchema\"" ++
  ascii " xmlns:xsi=\"http://www.w3.org/2001/XMLSchema-instance\"" ++
  ascii " xmlns:SOAP-ENC=\"http://schemas.xmlsoap.org/soap/encoding/\"" ++
  ascii " SOAP-ENV:encodingStyle=\"http://schemas.xmlsoap.org/soap/encoding/\">\r\n" ++
  ascii "  <SOAP-ENV:Body>\r\n" ++
  ascii "    <ns1:executeCommand>\r\n"

/-- `s4`. -/
def soapCommandTemplate : List UInt8 :=
  ascii "      <command xsi:type=\"xsd:string\">%s</command>\r\n"

/-- `s5` to `s7`: the envelope behind the command. -/
def soapEnvelopeTail : List UInt8 :=
  ascii "    </ns1:executeCommand>\r\n" ++
  ascii "  </SOAP-ENV:Body>\r\n" ++
  ascii "</SOAP-ENV:Envelope>\r\n"

/-- `%d` of a length. -/
def decimal (n : Nat) : List UInt8 := (Nat.toDigits 10 n).map fun c => UInt8.ofNat c.toNat

/-- The header lines, with the empty line that ends them. -/
def soapRequestHeader (contentLength : Nat) (requestAuth : List UInt8) : List UInt8 :=
  ascii "POST / HTTP/1.1\r\n" ++
  ascii "Host: 127.0.0.1:18083\r\n" ++
  ascii "User-Agent: gSOAP/2.8\r\n" ++
  ascii "Content-Type: text/xml; charset=UTF-8\r\n" ++
  ascii "Content-Length: " ++ decimal contentLength ++ ascii "\r\n" ++
  ascii "SOAPAction: \"urn:TC#executeCommand\"\r\n" ++
  ascii "Authorization: Basic " ++ requestAuth ++ ascii "\r\n" ++
  ascii "\r\n"

/-- `make_soap_request(content, len, soap_request)`, where `requestAuth` is the
value of `fetch_request_auth`: the bytes written, whose number is the returned
value.  It has no value where a text would leave its buffer.  `len` is only
tested; the command is taken to its terminator. -/
def makeSoapRequest (requestAuth : Option (List UInt8)) (content : List UInt8) (len : Nat) :
    Option (List UInt8) :=
  if len = 0 then some []
  else
    match requestAuth with
    | none => some []
    | some [] => some []
    | some auth =>
      let s8 := formatStrings soapCommandTemplate [content]
      let soapEnvelope := soapEnvelopeHead ++ s8 ++ soapEnvelopeTail
      let request := soapRequestHeader soapEnvelope.length auth
      if s8.length < maxBufSize ∧ soapEnvelope.length < maxBufSize ∧
          request.length < maxBufSize * 4 ∧
          request.length + soapEnvelope.length < maxBufSize * 4 then
        some (request ++ soapEnvelope)
      else none

end WowProxy
