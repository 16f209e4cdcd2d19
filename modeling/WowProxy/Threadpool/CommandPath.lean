/-
  Threadpool/CommandPath.lean --- the way of a command through the proxy: from the databases
  and the requests of the client to what the game server reads.

  `commandFor` and `receive` say what each side may expect; everything between them is the
  code of the proxy.
-/
import WowProxy.Sqlite.RequestAuth
import WowProxy.Threadpool.RequestDelivery
import WowProxy.Xml.SoapEnvelope

set_option autoImplicit false

namespace WowProxy

open WowProxy.Lib.HeaderBlock

/-! ## What each side expects -/

/-- The command of the record with that key. -/
def commandFor (rows : List (Nat × CommandRecord)) (key : Int) : Option Command :=
  (rows.find? fun row => row.2.id = key).map fun row => row.2.toCommand

/-- `value_for_key` on the table, as the decoder calls it. -/
def CommandTable.lookup (table : CommandTable) (key : Int) : Option Command :=
  (valueForKey table key).getD none

/-- What a request says. -/
structure Received where
  credential : List UInt8
  commands : List (List UInt8)
  deriving DecidableEq

/-- A reader of requests takes the header apart, wants one credential and the length of the
envelope in it, and looks for the commands in the envelope. -/
def receive (request : List UInt8) : Option Received :=
  match readHeader request with
  | none => none
  | some (lines, envelope) =>
    if fieldValues (ascii "Content-Length: ") lines = [decimal envelope.length] then
      match fieldValues (ascii "Authorization: Basic ") lines with
      | [token] => do
        let (plain, length) ← base64decode (token ++ [0])
        let commands ← commandTexts envelope
        return ⟨plain.take length, commands⟩
      | _ => none
    else none

/-! ## The table -/

theorem commandFor_eq_none_iff {rows : List (Nat × CommandRecord)} {key : Int} :
    commandFor rows key = none ↔ ∀ row ∈ rows, row.2.id ≠ key := by
  rw [commandFor, Option.map_eq_none_iff, List.find?_eq_none]
  simp only [decide_eq_true_eq, ne_eq]

/-- Where the keys differ, a record is the one with its key. -/
theorem commandFor_of_mem {rows : List (Nat × CommandRecord)}
    (hids : (rows.map fun row => row.2.id).Nodup) {row : Nat × CommandRecord} (hrow : row ∈ rows) :
    commandFor rows row.2.id = some row.2.toCommand := by
  have hsome : (rows.find? fun row' => row'.2.id = row.2.id).isSome = true :=
    List.find?_isSome.mpr ⟨row, hrow, decide_eq_true rfl⟩
  obtain ⟨row', hfind⟩ := Option.isSome_iff_exists.mp hsome
  have hid : row'.2.id = row.2.id := by simpa using List.find?_some hfind
  have heq : row' = row :=
    List.inj_on_of_nodup_map hids (List.mem_of_find?_eq_some hfind) hrow hid
  rw [commandFor, hfind, heq]
  rfl

theorem tableFormats_commandFor {rows : List (Nat × CommandRecord)}
    (hformats : ∀ row ∈ rows, row.2.toCommand.Formats) : TableFormats (commandFor rows) := by
  intro key cmd hcmd
  obtain ⟨row, hfind, rfl⟩ := Option.map_eq_some_iff.mp hcmd
  exact hformats row (List.mem_of_find?_eq_some hfind)

/-- The table answers as the records do. -/
theorem valueForKey_eq_commandFor {table : CommandTable} {rows : List (Nat × CommandRecord)}
    (hh : Uthash.Holds hashInt table (tableElems rows)) (hfits : ∀ row ∈ rows, row.2.Fits)
    (hids : (rows.map fun row => row.2.id).Nodup) (key : Int) :
    valueForKey table key = some (commandFor rows key) := by
  obtain ⟨found, hfound, hnone, hsome⟩ := valueForKey_tableElems hh hfits key
  rw [hfound]
  cases found with
  | none => rw [commandFor_eq_none_iff.mpr (hnone.mp rfl)]
  | some cmd =>
    obtain ⟨row, hrow, rfl, rfl⟩ := hsome cmd rfl
    rw [commandFor_of_mem hids hrow]

/-! ## The request -/

/-- The length is only tested. -/
theorem makeSoapRequest_size {len len' : Nat} (hlen : len ≠ 0) (hlen' : len' ≠ 0)
    (auth : Option (List UInt8)) (content : List UInt8) :
    makeSoapRequest auth content len = makeSoapRequest auth content len' := by
  unfold makeSoapRequest
  rw [if_neg hlen, if_neg hlen']

/-- What is read of a message with the two fields. -/
theorem receive_of_fields {request envelope token : List UInt8} {lines : List (List UInt8)}
    (hread : readHeader request = some (lines, envelope))
    (hlength : fieldValues (ascii "Content-Length: ") lines = [decimal envelope.length])
    (htoken : fieldValues (ascii "Authorization: Basic ") lines = [token]) :
    receive request = (base64decode (token ++ [0])).bind fun plain =>
      (commandTexts envelope).map fun commands => ⟨plain.1.take plain.2, commands⟩ := by
  rw [receive, hread]
  dsimp only
  rw [if_pos hlength, htoken]
  dsimp only
  cases base64decode (token ++ [0]) with
  | none => rfl
  | some plain => cases commandTexts envelope <;> rfl

/-- What is read of a request with the credential of a record. -/
theorem receive_soapRequest (r : AuthRecord) (content : List UInt8) :
    receive (soapRequestHeader (soapEnvelope content).length (base64encode r.credential) ++
        soapEnvelope content) =
      (commandTexts (soapEnvelope content)).map fun commands => ⟨r.credential, commands⟩ := by
  have hread := readHeader_soapRequest (storedCredential_credential r).all_inLine
    (soapEnvelope content)
  rw [receive_of_fields hread (fieldValues_soapRequestLines _ _) (fieldValues_authorization _ _),
    base64decode_encode, Option.bind_some, List.take_left]

/-- A command of at most 496 bytes makes a request, which says the credential and the command
exactly when the command is plain text. -/
theorem makeSoapRequest_receive_iff (r : AuthRecord) {content : List UInt8} (hne : content ≠ [])
    (hshort : content.length ≤ 496) {size : Nat} (hsize : size ≠ 0) :
    ∃ request, makeSoapRequest (some (base64encode r.credential)) content size = some request ∧
      (receive request = some ⟨r.credential, [content]⟩ ↔ Lib.XmlReader.Plain content) := by
  have hlength : content.length ≠ 0 := fun h => hne (List.length_eq_zero_iff.mp h)
  refine ⟨_, (makeSoapRequest_size hsize hlength _ content).trans
    (makeSoapRequest_short (storedCredential_credential r).ne_nil (length_credential_le r) hne
      hshort), ?_⟩
  rw [receive_soapRequest, ← commandTexts_soapEnvelope_iff]
  cases commandTexts (soapEnvelope content) with
  | none => simp
  | some commands => simp

/-! ## The whole way -/

/-- A request for the first record of the database. -/
def accountRequest : List (List (List Client.Dict)) :=
  [[[[("op", "1")], [("name", "ann"), ("password", "s3\u00e9")]]]]

/-- The command it means. -/
def accountCommand : List UInt8 := ascii "account create ann s3" ++ [195, 169]

theorem accountCommand_eq : accountCommand =
    [97, 99, 99, 111, 117, 110, 116, 32, 99, 114, 101, 97, 116, 101, 32, 97, 110, 110, 32,
      115, 51, 195, 169] := by
  rw [accountCommand, ascii_ofList]
  rfl

/-- It is plain text, and fits. -/
theorem accountCommand_plain : Lib.XmlReader.Plain accountCommand ∧ accountCommand ≠ [] ∧
    accountCommand.length ≤ 496 := by
  rw [accountCommand_eq]
  exact ⟨⟨by decide, by decide +kernel, by decide⟩, by decide, by decide⟩

end WowProxy
