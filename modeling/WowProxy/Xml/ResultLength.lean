/-
  Xml/ResultLength.lean --- the length `analysis_soap_response` hands back.

  The header file promises that `*rst_len` is the size of the array on the way in
  and the length of what was placed there on the way out.  Only the exit that
  copied a text assigns it; the theorem of this file says for which answers the
  promise is kept.
-/
import WowProxy.Xml.AnswerBuffers

set_option autoImplicit false

namespace WowProxy

open Lib.CString Lib.Text

/-! ## The text of an answer -/

/-- The node of a document whose text is the caller's: the result of a command that
was executed, and the reason of one that was not. -/
inductive AnswerNode (root : XmlNode) : Bool → XmlNode → Prop where
  | result {body response node : XmlNode} : root.children[0]? = some body →
    body.children[0]? = some response → response.children[0]? = some node →
    ascii "result" <+: node.name → AnswerNode root true node
  | reason {body fault node : XmlNode} : root.children[0]? = some body →
    body.children[0]? = some fault →
    fault.children[2]? = some node ∨ fault.children[2]? = none ∧ fault.children[1]? = some node →
    ascii "faultstring" <+: node.name ∨ ascii "detail" <+: node.name → AnswerNode root false node

/-- The text of a document: that of its node. -/
structure HoldsText (document : List UInt8) (isOK : Bool) (t : List UInt8) : Prop where
  found : ∃ root node, xmlParseDocument document = some root ∧ AnswerNode root isOK node ∧
    node.content = some t

/-- The text of an answer whose parts fit the buffers. -/
structure AnswerHolds (rsp t : List UInt8) : Prop where
  found : ∃ header document, Taken rsp header document ∧
    HoldsText document (decide (ascii "200 OK" <:+: header)) t

/-- The length that is handed back is that of the string in `rst`, and the array has
a place behind it. -/
structure LengthContract (rsp : List UInt8) (size : Nat) : Prop where
  returns : ∃ isOpOK rst rstLen,
    analysisSoapResponse rsp rsp.length size = some (isOpOK, rst, rstLen) ∧
      rstLen = (rst.takeWhile (· ≠ 0)).length ∧ rstLen < size

/-! ## The walk to the node -/

theorem take_beq_iff (text name : List UInt8) :
    (name.take text.length == text) = true ↔ text <+: name := by
  rw [beq_iff_eq, List.prefix_iff_eq_take, eq_comm]

theorem soapNodeNamed_true {name : List UInt8} :
    soapNodeNamed true name = true ↔ ascii "result" <+: name :=
  take_beq_iff (ascii "result") name

theorem soapNodeNamed_false {name : List UInt8} :
    soapNodeNamed false name = true ↔
      ascii "faultstring" <+: name ∨ ascii "detail" <+: name := by
  rw [soapNodeNamed, if_neg Bool.false_ne_true, Bool.or_eq_true]
  exact or_congr (take_beq_iff (ascii "faultstring") name) (take_beq_iff (ascii "detail") name)

theorem soapNode_named_iff {soap : List UInt8} {isOK : Bool} {node : XmlNode} :
    soapNode soap isOK = some node ∧ soapNodeNamed isOK node.name = true ↔
      ∃ root, xmlParseDocument soap = some root ∧ AnswerNode root isOK node := by
  constructor
  · rintro ⟨h, hnamed⟩
    obtain ⟨root, hroot, h⟩ := Option.bind_eq_some_iff.mp h
    obtain ⟨body, hbody, h⟩ := Option.bind_eq_some_iff.mp h
    obtain ⟨response, hresponse, h⟩ := Option.bind_eq_some_iff.mp h
    refine ⟨root, hroot, ?_⟩
    cases isOK with
    | true => exact .result hbody hresponse h (soapNodeNamed_true.mp hnamed)
    | false =>
      exact .reason hbody hresponse (Option.or_eq_some_iff.mp h) (soapNodeNamed_false.mp hnamed)
  · rintro ⟨root, hroot, h⟩
    cases h with
    | result hbody hresponse hnode hname =>
      refine ⟨?_, soapNodeNamed_true.mpr hname⟩
      rw [soapNode, hroot, Option.bind_some, hbody, Option.bind_some, hresponse, Option.bind_some]
      exact hnode
    | reason hbody hfault hnode hname =>
      refine ⟨?_, soapNodeNamed_false.mpr hname⟩
      rw [soapNode, hroot, Option.bind_some, hbody, Option.bind_some, hfault, Option.bind_some]
      exact Option.or_eq_some_iff.mpr hnode

/-- The text of a document is what is copied from it. -/
theorem getSoapContent_of_holds {soap t : List UInt8} {isOK : Bool}
    (hlen : soap.length ≤ maxBufSize) (h : HoldsText soap isOK t) :
    getSoapContent soap isOK = some (t.length, t) := by
  obtain ⟨root, node, hroot, hanswer, hcontent⟩ := h.found
  obtain ⟨hnode, hnamed⟩ := soapNode_named_iff.mpr ⟨root, hroot, hanswer⟩
  have hshort := (soapNode_within hnode).content.length_le
  rw [hcontent, Option.getD_some] at hshort
  have hfit : t.length ≤ maxBufSize * 4 := by omega
  rw [getSoapContent, if_pos hlen, hnode]
  simp only [hnamed, if_true, hcontent, Option.getD_some]
  rw [memcpy_eq_some (Nat.le_refl _) hfit, List.take_length]
  rfl

/-- Whatever is copied is the text of the document. -/
theorem holds_of_getSoapContent {soap : List UInt8} {isOK : Bool} {content : Nat × List UInt8}
    (h : getSoapContent soap isOK = some content) (hne : content.2 ≠ []) :
    HoldsText soap isOK content.2 ∧ content.1 = content.2.length := by
  unfold getSoapContent at h
  split at h
  · rename_i hlen
    split at h
    · rw [← Option.some.inj h] at hne
      exact absurd rfl hne
    · rename_i node hnode
      split at h
      · rename_i hnamed
        obtain ⟨copied, hcopied, rfl⟩ := Option.map_eq_some_iff.mp h
        have hshort := (soapNode_within hnode).content.length_le
        have hfit : (node.content.getD []).length ≤ maxBufSize * 4 := by omega
        rw [memcpy_eq_some (Nat.le_refl _) hfit, List.take_length] at hcopied
        obtain rfl := Option.some.inj hcopied
        obtain ⟨root, hroot, hanswer⟩ := soapNode_named_iff.mp ⟨hnode, hnamed⟩
        refine ⟨⟨root, node, hroot, hanswer, ?_⟩, rfl⟩
        cases hcontent : node.content with
        | none =>
          rw [hcontent] at hne
          exact absurd rfl hne
        | some t => rfl
      · rw [← Option.some.inj h] at hne
        exact absurd rfl hne
  · cases h

/-! ## The length -/

/-- The text of an answer is a string. -/
theorem AnswerHolds.nul {rsp t : List UInt8} (h : AnswerHolds rsp t) : 0 ∉ t := by
  obtain ⟨header, document, htaken, hholds⟩ := h.found
  obtain ⟨rest, hsplit, hdocument⟩ := htaken.parts
  obtain ⟨root, node, hroot, hanswer, hcontent⟩ := hholds.found
  have hwithin := (soapNode_within (soapNode_named_iff.mpr ⟨root, hroot, hanswer⟩).1).content
  rw [hcontent, Option.getD_some] at hwithin
  exact fun hmem => hsplit.parts.2.1 (hdocument.suffix.subset (hwithin.subset hmem))

/-- A text that leaves room behind it is handed back with its length. -/
theorem AnswerHolds.contract {rsp t : List UInt8} {size : Nat} (h : AnswerHolds rsp t)
    (hpos : 0 < t.length) (hlt : t.length < size) : LengthContract rsp size := by
  have hnul := h.nul
  obtain ⟨header, document, htaken, hholds⟩ := h.found
  obtain ⟨content, hcontent, hrun⟩ :=
    analysisSoapResponse_taken (Nat.lt_of_le_of_lt (Nat.zero_le _) hlt) htaken
  rw [getSoapContent_of_holds htaken.document_le hholds] at hcontent
  obtain rfl := Option.some.inj hcontent
  rw [if_pos ⟨hpos, hlt.le⟩, List.take_length, takeWhile_ne_nul hnul] at hrun
  exact ⟨_, _, _, hrun, by rw [takeWhile_padded, takeWhile_ne_nul hnul], hlt⟩

/-- Where the length is right, it is that of the text of the answer. -/
theorem LengthContract.holds {rsp : List UInt8} {size : Nat} (h : LengthContract rsp size) :
    ∃ t, AnswerHolds rsp t ∧ 0 < t.length ∧ t.length < size := by
  obtain ⟨isOpOK, rst, rstLen, hrun, hlen, hlt⟩ := h.returns
  have hsize : 0 < size := Nat.lt_of_le_of_lt (Nat.zero_le _) hlt
  have hfits := (analysisSoapResponse_isSome_iff hsize).mp (by rw [hrun]; rfl)
  cases hfits with
  | whole hwhole =>
    -- Nothing was extracted, and the length is still the size of the array.
    rw [analysisSoapResponse_whole hsize hwhole] at hrun
    simp only [Option.some.injEq, Prod.mk.injEq] at hrun
    omega
  | @taken header document htaken =>
    obtain ⟨content, hcontent, hrun'⟩ := analysisSoapResponse_taken hsize htaken
    rw [hrun] at hrun'
    split at hrun'
    · rename_i hcopied
      simp only [Option.some.injEq, Prod.mk.injEq] at hrun'
      obtain ⟨-, rfl, rfl⟩ := hrun'
      have hne : content.2 ≠ [] := by
        intro hnil
        rw [hnil, List.take_nil, takeWhile_padded] at hlen
        exact Nat.ne_of_gt hcopied.1 hlen
      obtain ⟨hholds, heq⟩ := holds_of_getSoapContent hcontent hne
      exact ⟨content.2, ⟨header, document, htaken, hholds⟩, heq ▸ hcopied.1, heq ▸ hlt⟩
    · simp only [Option.some.injEq, Prod.mk.injEq] at hrun'
      omega

/-- **The length is right exactly for answers with a text that leaves room behind
it.**  The answer has an empty line, its parts fit the buffers, and the text of its
node is neither empty nor as long as the array. -/
theorem lengthContract_iff (rsp : List UInt8) (size : Nat) :
    LengthContract rsp size ↔ ∃ t, AnswerHolds rsp t ∧ 0 < t.length ∧ t.length < size :=
  ⟨LengthContract.holds, fun ⟨_, h, hpos, hlt⟩ => h.contract hpos hlt⟩

/-- Of an answer without an empty line nothing is extracted, and the length that is
handed back is that of the whole array. -/
theorem lengthContract_unset : ¬ ∀ (rsp : List UInt8) (size : Nat), 0 < size →
    LengthContract rsp size := by
  intro h
  have hcontract := h (ascii "HTTP/1.1 200 OK") answerBufSize (by decide)
  obtain ⟨isOpOK, rst, rstLen, hrun, -, hlt⟩ := hcontract.returns
  rw [analysisSoapResponse_whole (by decide) (by decide)] at hrun
  simp only [Option.some.injEq, Prod.mk.injEq] at hrun
  omega

end WowProxy
