/-
  Sqlite/RequestAuth.lean --- the credential of the requests: `callback_record_request`,
  `init_request_auth` and `fetch_request_auth` of `aid_sql.c`, up to the header line that
  carries it.

  The columns of a row are C strings.  Where a text and its NUL do not fit into
  `szName` or `szPswd`, there is no value.
-/
import WowProxy.Common.Base64Decode
import WowProxy.Sqlite.CommandTable
import WowProxy.Xml.RequestLength

set_option autoImplicit false

namespace WowProxy

open WowProxy.Lib.CString
open WowProxy.Lib.HeaderBlock

/-! ## From the source -/

/-- `toupper` in the C locale. -/
def toupper (b : UInt8) : UInt8 := if 97 ≤ b ∧ b ≤ 122 then b - 32 else b

/-- `stoupper` -/
def stoupper (s : List UInt8) : List UInt8 := s.map toupper

/-- One round of the loop of `callback_record_request`, on `szName` and `szPswd`. -/
def recordAuthColumn (bufs : List UInt8 × List UInt8)
    (col : List UInt8 × Option (List UInt8)) : Option (List UInt8 × List UInt8) :=
  let named (s : String) : Bool := (ascii s).isPrefixOf col.1
  match col.2 with
  | none => some bufs
  | some text =>
    if named "idx" then some bufs
    else if named "Name" then
      (copyText bufs.1 (stoupper text)).map fun szName => (szName, bufs.2)
    else if named "Password" then
      (copyText bufs.2 text).map fun szPswd => (bufs.1, szPswd)
    else some bufs

/-- `callback_record_request`, where `auth` is the string at `auth_base64`. -/
def callbackRecordRequest (auth : Option (List UInt8)) (row : SqlRow) :
    Option (Option (List UInt8)) := do
  let bufs ← row.foldlM recordAuthColumn
    (List.replicate maxBufSize 0, List.replicate maxBufSize 0)
  let name ← cstr bufs.1
  let pswd ← cstr bufs.2
  if 0 < name.length ∧ 0 < pswd.length then
    return some (base64encode (snprintf maxBufSize (ascii "%s:%s") [name, pswd]))
  else return auth

/-- `init_request_auth`: whether `sqlite3_open` succeeds, the rows, and whether
`sqlite3_exec` does. -/
def initRequestAuth (opens : Bool) (rows : List SqlRow) (execOk : Bool)
    (auth : Option (List UInt8)) : Option (Option (List UInt8) × Int) :=
  if opens then
    (rows.foldlM callbackRecordRequest auth).map fun auth => (auth, if execOk then 0 else -2)
  else some (auth, -1)

/-! ## What the database says -/

/-- A record of the table `request_auth`. -/
structure AuthRecord where
  idx : Option (List UInt8)
  name : Option (List UInt8)
  password : Option (List UInt8)
  deriving DecidableEq

namespace AuthRecord

/-- `SELECT * from request_auth` gives the columns in this order. -/
def row (r : AuthRecord) : SqlRow :=
  [(ascii "idx", r.idx), (ascii "Name", r.name), (ascii "Password", r.password)]

/-- Both a name and a password. -/
def Complete (r : AuthRecord) : Prop := r.name.getD [] ≠ [] ∧ r.password.getD [] ≠ []

instance (r : AuthRecord) : Decidable r.Complete := instDecidableAnd

/-- The texts are C strings that leave room for their NUL in the buffers. -/
structure Fits (r : AuthRecord) : Prop where
  name : 0 ∉ r.name.getD [] ∧ (r.name.getD []).length < maxBufSize
  password : 0 ∉ r.password.getD [] ∧ (r.password.getD []).length < maxBufSize

/-- The credential of a record: the name in upper case and the password, as far as there is
room. -/
def credential (r : AuthRecord) : List UInt8 :=
  (stoupper (r.name.getD []) ++ 58 :: r.password.getD []).take (maxBufSize - 1)

theorem zero_notMem_stoupper {s : List UInt8} (h : 0 ∉ s) : 0 ∉ stoupper s := by
  intro hmem
  obtain ⟨b, hb, hzero⟩ := List.mem_map.mp hmem
  refine h ?_
  have hb0 : b = 0 := by
    unfold toupper at hzero
    split at hzero
    · rename_i hlower
      have hle := UInt8.le_iff_toNat_le.mp hlower.1
      have hle' := UInt8.le_iff_toNat_le.mp hlower.2
      have hsub := congrArg UInt8.toNat hzero
      rw [UInt8.toNat_sub_of_le _ _ (UInt8.le_iff_toNat_le.mpr (Nat.le_trans (by decide) hle))]
        at hsub
      simp at hsub hle hle'
      omega
    · exact hzero
  exact hb0 ▸ hb

theorem recordAuthColumn_name (pswd : List UInt8) {name : Option (List UInt8)}
    (h : (name.getD []).length < maxBufSize) :
    recordAuthColumn (List.replicate maxBufSize 0, pswd) (ascii "Name", name) =
      some (padded (stoupper (name.getD [])) maxBufSize, pswd) := by
  cases name with
  | none => exact congrArg (fun szName => some (szName, pswd)) (padded_nil maxBufSize).symm
  | some text =>
    have hcopy := copyText_zeros (show (stoupper text).length < maxBufSize from
      (List.length_map _).trans_lt h)
    show (copyText (List.replicate maxBufSize 0) (stoupper text)).map _ = _
    rw [hcopy]
    rfl

theorem recordAuthColumn_password (name : List UInt8) {password : Option (List UInt8)}
    (h : (password.getD []).length < maxBufSize) :
    recordAuthColumn (name, List.replicate maxBufSize 0) (ascii "Password", password) =
      some (name, padded (password.getD []) maxBufSize) := by
  cases password with
  | none => exact congrArg (fun szPswd => some (name, szPswd)) (padded_nil maxBufSize).symm
  | some text =>
    have hcopy : copyText (List.replicate maxBufSize 0) text = some (padded text maxBufSize) :=
      copyText_zeros h
    show (copyText (List.replicate maxBufSize 0) text).map _ = _
    rw [hcopy]
    rfl

theorem foldlM_recordAuthColumn {r : AuthRecord} (h : r.Fits) :
    r.row.foldlM recordAuthColumn
      (List.replicate maxBufSize 0, List.replicate maxBufSize 0) =
      some (padded (stoupper (r.name.getD [])) maxBufSize,
        padded (r.password.getD []) maxBufSize) := by
  have hidx : recordAuthColumn (List.replicate maxBufSize 0, List.replicate maxBufSize 0)
      (ascii "idx", r.idx) =
      some (List.replicate maxBufSize 0, List.replicate maxBufSize 0) := by
    cases r.idx <;> rfl
  rw [row, List.foldlM_cons, hidx, Option.bind_eq_bind, Option.bind_some, List.foldlM_cons,
    recordAuthColumn_name _ h.name.2, Option.bind_eq_bind, Option.bind_some, List.foldlM_cons,
    recordAuthColumn_password _ h.password.2]
  rfl

theorem credential_ne_nil (r : AuthRecord) : r.credential ≠ [] := by
  have hpos : 0 < r.credential.length := by
    rw [credential, List.length_take, List.length_append, List.length_cons]
    exact Nat.lt_min.mpr ⟨by decide, by omega⟩
  exact List.length_pos_iff.mp hpos

/-- The two texts with a colon between them. -/
theorem snprintf_credential (r : AuthRecord) :
    snprintf maxBufSize (ascii "%s:%s") [stoupper (r.name.getD []), r.password.getD []] =
      r.credential := by
  rw [snprintf, credential, show ascii "%s:%s" = [37, 115, 58, 37, 115] from rfl]
  simp [formatStrings]

/-- A complete record takes the place of the credential. -/
theorem callbackRecordRequest_row (auth : Option (List UInt8)) {r : AuthRecord} (h : r.Fits) :
    callbackRecordRequest auth r.row =
      some (if r.Complete then some (base64encode r.credential) else auth) := by
  have hname : cstr (padded (stoupper (r.name.getD [])) maxBufSize) =
      some (stoupper (r.name.getD [])) :=
    cstr_padded (zero_notMem_stoupper h.name.1) ((List.length_map _).trans_lt h.name.2)
  have hpassword : cstr (padded (r.password.getD []) maxBufSize) = some (r.password.getD []) :=
    cstr_padded h.password.1 h.password.2
  have hcomplete : 0 < (stoupper (r.name.getD [])).length ∧ 0 < (r.password.getD []).length ↔
      r.Complete := by
    rw [stoupper, List.length_map, List.length_pos_iff, List.length_pos_iff, Complete]
  simp only [callbackRecordRequest, foldlM_recordAuthColumn h, hname, hpassword,
    Option.bind_eq_bind, Option.bind_some, Option.pure_def, snprintf_credential, hcomplete]
  split <;> rfl

/-- The last complete record of a list. -/
def last (rs : List AuthRecord) : Option AuthRecord := (rs.filter fun r => r.Complete).getLast?

theorem foldlM_callbackRecordRequest {rs : List AuthRecord} (h : ∀ r ∈ rs, r.Fits) :
    ∀ auth : Option (List UInt8), (rs.map row).foldlM callbackRecordRequest auth =
      some (((last rs).map fun r => base64encode r.credential).or auth) := by
  induction rs with
  | nil => exact fun _ => rfl
  | cons r rs ih =>
    intro auth
    rw [List.map_cons, List.foldlM_cons,
      callbackRecordRequest_row auth (h r List.mem_cons_self), Option.bind_eq_bind,
      Option.bind_some, ih fun r hr => h r (List.mem_cons_of_mem _ hr)]
    rw [last, last, List.filter_cons]
    by_cases hcomplete : r.Complete
    · rw [if_pos hcomplete, if_pos (decide_eq_true hcomplete), List.getLast?_cons]
      cases (rs.filter fun r => r.Complete).getLast? <;> rfl
    · rw [if_neg hcomplete, if_neg (by simpa using hcomplete)]

end AuthRecord

/-! ## The header line -/

/-- A request says its credential once. -/
theorem fieldValues_authorization (contentLength : Nat) (requestAuth : List UInt8) :
    fieldValues (ascii "Authorization: Basic ") (soapRequestLines contentLength requestAuth) =
      [requestAuth] := by
  have hother : [ascii "POST / HTTP/1.1", ascii "Host: 127.0.0.1:18083",
      ascii "User-Agent: gSOAP/2.8", ascii "Content-Type: text/xml; charset=UTF-8",
      ascii "SOAPAction: \"urn:TC#executeCommand\""].map
      (ascii "Authorization: Basic ").isPrefixOf = [false, false, false, false, false] := by
    repeat rw [ascii_ofList]
    decide
  simp only [List.map_cons, List.map_nil, List.cons.injEq, and_true] at hother
  obtain ⟨hpost, hhost, hagent, htype, haction⟩ := hother
  have hlength : (ascii "Authorization: Basic ").isPrefixOf
      (ascii "Content-Length: " ++ decimal contentLength) = false := rfl
  have hbasic : (ascii "Authorization: Basic ").isPrefixOf
      (ascii "Authorization: Basic " ++ requestAuth) = true :=
    List.isPrefixOf_iff_prefix.mpr (List.prefix_append _ _)
  simp only [fieldValues, soapRequestLines, List.filter_cons, hpost, hhost, hagent, htype,
    haction, hbasic, hlength, Bool.false_eq_true, if_false, if_true, List.filter_nil,
    List.map_cons, List.map_nil, List.drop_left]

theorem length_credential_le (r : AuthRecord) :
    (base64encode r.credential).length ≤ 1400 := by
  have hlength := length_base64encode r.credential
  have hcredential : r.credential.length ≤ maxBufSize - 1 := by
    rw [AuthRecord.credential, List.length_take]
    exact Nat.min_le_left _ _
  have hmax : maxBufSize = 1024 := rfl
  rw [base64encodeLen] at hlength
  omega

/-- `init_request_auth` stores the credential of the last complete record. -/
theorem initRequestAuth_records {rs : List AuthRecord} (h : ∀ r ∈ rs, r.Fits) :
    initRequestAuth true (rs.map AuthRecord.row) true none =
      some ((AuthRecord.last rs).map fun r => base64encode r.credential, 0) := by
  have hrows := AuthRecord.foldlM_callbackRecordRequest h none
  rw [Option.or_none] at hrows
  rw [initRequestAuth, if_pos rfl, hrows]
  rfl

/-- The credential of a record is one that can be stored. -/
theorem storedCredential_credential (r : AuthRecord) :
    StoredCredential (base64encode r.credential) :=
  ⟨_, AuthRecord.credential_ne_nil r, rfl⟩

/-- **Every request carries the credential of the last complete record: the server that
decodes its header line gets the name in upper case, a colon and the password, as far as
`szBuff` has room.  Without such a record there is no request.** -/
theorem initRequestAuth_authorization {rs : List AuthRecord} (h : ∀ r ∈ rs, r.Fits) :
    ∃ auth, initRequestAuth true (rs.map AuthRecord.row) true none = some (auth, 0) ∧
      (AuthRecord.last rs = none → ∀ content len, makeSoapRequest auth content len = some []) ∧
      ∀ r, AuthRecord.last rs = some r → ∀ content : List UInt8, 1 ≤ content.length →
        content.length ≤ 496 → ∃ request lines body token,
          makeSoapRequest auth content content.length = some request ∧
          readHeader request = some (lines, body) ∧
          fieldValues (ascii "Authorization: Basic ") lines = [token] ∧
          base64decode (token ++ [0]) = some (r.credential ++ [0], r.credential.length) := by
  refine ⟨_, initRequestAuth_records h, ?_, ?_⟩
  · intro hlast content len
    rw [hlast, Option.map_none, makeSoapRequest]
    split <;> rfl
  · intro r hlast content hpos hshort
    have hstored := storedCredential_credential r
    have hrequest := makeSoapRequest_short hstored.ne_nil (length_credential_le r)
      (List.length_pos_iff.mp hpos) hshort
    have hread := readHeader_soapRequest hstored.all_inLine (soapEnvelope content)
    rw [hlast, Option.map_some]
    exact ⟨_, _, _, _, hrequest, hread, fieldValues_authorization _ _,
      base64decode_encode r.credential []⟩

/-- The record of `commands.db`. -/
def luffy : AuthRecord := ⟨some (ascii "1"), some (ascii "luffy911"), some (ascii "1A2B3C!!.")⟩

theorem initRequestAuth_authorization_luffy :
    ∃ auth, initRequestAuth true ([luffy].map AuthRecord.row) true none = some (auth, 0) ∧
      (AuthRecord.last [luffy] = none →
        ∀ content len, makeSoapRequest auth content len = some []) ∧
      ∀ r, AuthRecord.last [luffy] = some r → ∀ content : List UInt8, 1 ≤ content.length →
        content.length ≤ 496 → ∃ request lines body token,
          makeSoapRequest auth content content.length = some request ∧
          readHeader request = some (lines, body) ∧
          fieldValues (ascii "Authorization: Basic ") lines = [token] ∧
          base64decode (token ++ [0]) = some (r.credential ++ [0], r.credential.length) :=
  initRequestAuth_authorization fun r hr => by
    obtain rfl := List.mem_singleton.mp hr
    exact ⟨by decide, by decide⟩

end WowProxy
