/-
  Common/Base64.lean --- `Base64encode` of `common/base64.c`, the text of a stored
  credential.
-/
import WowProxy.Common.Config
import WowProxy.Lib.HeaderBlock

set_option autoImplicit false

namespace WowProxy

open WowProxy.Lib.HeaderBlock (inLine)

/-- `basis_64`. -/
def basis64 : List UInt8 :=
  ascii "ABCDEFGHIJKLMNOPQRSTUVWXYZabcdefghijklmnopqrstuvwxyz0123456789+/"

/-- `basis_64[index]`. -/
def base64Digit (index : UInt8) : UInt8 := basis64.getD index.toNat 0

/-- `Base64encode(encoded, string, len)`, without the terminator. -/
def base64encode : List UInt8 → List UInt8
  | a :: b :: c :: rest =>
    base64Digit ((a >>> 2) &&& 0x3F) ::
      base64Digit (((a &&& 0x3) <<< 4) ||| ((b &&& 0xF0) >>> 4)) ::
      base64Digit (((b &&& 0xF) <<< 2) ||| ((c &&& 0xC0) >>> 6)) ::
      base64Digit (c &&& 0x3F) :: base64encode rest
  | [a, b] =>
    [base64Digit ((a >>> 2) &&& 0x3F),
      base64Digit (((a &&& 0x3) <<< 4) ||| ((b &&& 0xF0) >>> 4)),
      base64Digit ((b &&& 0xF) <<< 2), 61]
  | [a] => [base64Digit ((a >>> 2) &&& 0x3F), base64Digit ((a &&& 0x3) <<< 4), 61, 61]
  | [] => []

/-- A credential as `callback_record_request` stores it: the encoding of a name and a
password. -/
def StoredCredential (requestAuth : List UInt8) : Prop :=
  ∃ szBuff, szBuff ≠ [] ∧ requestAuth = base64encode szBuff

theorem base64Digit_inLine (index : UInt8) : inLine (base64Digit index) = true := by
  have htable : basis64.all inLine = true := by
    rw [basis64, ascii_ofList]
    decide +kernel
  rw [base64Digit, List.getD_eq_getElem?_getD]
  cases hdigit : basis64[index.toNat]? with
  | none => rfl
  | some b => exact List.all_eq_true.mp htable b (List.mem_of_getElem? hdigit)

theorem base64encode_inLine (szBuff : List UInt8) : (base64encode szBuff).all inLine = true := by
  have hpad : inLine 61 = true := by decide
  induction szBuff using base64encode.induct with
  | case1 a b c rest ih =>
    simp only [base64encode, List.all_cons, base64Digit_inLine, ih, Bool.and_self]
  | case2 a b => simp only [base64encode, List.all_cons, base64Digit_inLine, hpad]; rfl
  | case3 a => simp only [base64encode, List.all_cons, base64Digit_inLine, hpad]; rfl
  | case4 => rfl

theorem StoredCredential.all_inLine {requestAuth : List UInt8}
    (h : StoredCredential requestAuth) : requestAuth.all inLine = true := by
  obtain ⟨szBuff, -, rfl⟩ := h
  exact base64encode_inLine szBuff

theorem StoredCredential.ne_nil {requestAuth : List UInt8} (h : StoredCredential requestAuth) :
    requestAuth ≠ [] := by
  obtain ⟨szBuff, hne, rfl⟩ := h
  match szBuff, hne with
  | [_], _ => simp [base64encode]
  | [_, _], _ => simp [base64encode]
  | _ :: _ :: _ :: _, _ => simp [base64encode]

end WowProxy
