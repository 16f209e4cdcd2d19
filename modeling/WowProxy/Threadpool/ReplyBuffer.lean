/-
  Threadpool/ReplyBuffer.lean --- whether a reply fits the buffer of `write_sock_func`.

  The size test compares the JSON text alone with the buffer, and the header and the
  checksum are written around it.  `escapeLength` counts what escaping makes of each
  byte of the message; together with the fixed part of the object this is the length
  of the text, so that the lengths that pass the test and do not fit are the lengths
  of actual messages.
-/
import WowProxy.Threadpool.ReplyFraming

set_option autoImplicit false

namespace WowProxy

/-! ## The length of the text -/

/-- The length of the JSON text of a reply: the object, its two names and the flag, and
the escaped message. -/
def replyLength (isOpOk : Bool) (msg : List UInt8) : Nat :=
  (if isOpOk then 35 else 36) + (msg.map escapeLength).sum

theorem length_printReply (isOpOk : Bool) (msg : List UInt8) :
    (printReply isOpOk msg).length = replyLength isOpOk msg := by
  have hmsg : (printStringPtr msg).length = 2 + (msg.map escapeLength).sum := by
    rw [printStringPtr, List.length_append, List.length_append, length_flatMap_escapeByte]
    show 1 + _ + 1 = _
    omega
  have hflag : (ascii (if isOpOk then "true" else "false")).length = if isOpOk then 4 else 5 := by
    cases isOpOk <;> rfl
  have hshape : (printReply isOpOk msg).length =
      2 + (11 + (ascii (if isOpOk then "true" else "false")).length +
        (2 + (12 + (printStringPtr msg).length))) + 2 := by
    unfold printReply printObject
    simp only [List.map_cons, List.map_nil, List.intersperse, List.flatten_cons,
      List.flatten_nil, List.length_append]
    rfl
  rw [hshape, hmsg, hflag, replyLength]
  cases isOpOk <;> simp <;> omega

/-! ## The buffer -/

/-- A reply that passes the size test is framed inside the buffer, and the frame decodes
to its JSON text. -/
def ReplyFits (isOpOk : Bool) (msg : List UInt8) : Prop :=
  (printReply isOpOk msg).length ≤ replyBufSize →
    ∃ frame, replyFrame isOpOk msg = some (some frame) ∧
      frame.length = headSize + (printReply isOpOk msg).length + 1 ∧
      frame.length ≤ replyBufSize ∧
      convertHexToInt frame headSize = (printReply isOpOk msg).length + 1 ∧
      reverseCrcData (some (frame.drop headSize)) ((printReply isOpOk msg).length + 1)
        (some ((printReply isOpOk msg).length + 1)) = some (0, printReply isOpOk msg)

/-- Header and checksum need three bytes more than the text. -/
theorem replyFrame_eq_some_iff (isOpOk : Bool) (msg : List UInt8) :
    (∃ frame, replyFrame isOpOk msg = some (some frame)) ↔
      (printReply isOpOk msg).length + headSize + 1 ≤ replyBufSize := by
  have hcases : headSize = 2 ∧ replyBufSize = 4096 := ⟨rfl, rfl⟩
  unfold replyFrame
  dsimp only
  generalize printReply isOpOk msg = json
  constructor
  · rintro ⟨frame, h⟩
    split at h
    · exact absurd h (by simp)
    · rename_i hsmall
      split at h
      · exact absurd h (by simp)
      · rename_i len body hcrc
        have hroom := (crcData_eq_some (by omega) hcrc).2.2
        omega
  · intro hfits
    have hcrc : crcData (some json) json.length (replyBufSize - headSize) =
        some ((json.length : Int) + 1, json ++ [crcOf json]) :=
      crcData_of_room (by omega) (by omega)
    rw [if_neg (by omega), hcrc]
    dsimp only
    rw [if_neg (by omega)]
    exact ⟨_, rfl⟩

/-- **A reply whose text passes the size test lies inside the buffer with its header and
checksum, and decodes to the same text, exactly when escaping does not bring the text to
4094, 4095 or 4096 bytes.** -/
theorem replyFits_iff (isOpOk : Bool) (msg : List UInt8) :
    ReplyFits isOpOk msg ↔
      ¬ (4094 ≤ replyLength isOpOk msg ∧ replyLength isOpOk msg ≤ 4096) := by
  have hsizes : headSize = 2 ∧ replyBufSize = 4096 := ⟨rfl, rfl⟩
  have hlength := length_printReply isOpOk msg
  have hsome := replyFrame_eq_some_iff isOpOk msg
  constructor
  · rintro hfits ⟨hlow, hhigh⟩
    obtain ⟨frame, hframe, -⟩ := hfits (by omega)
    have := hsome.mp ⟨frame, hframe⟩
    omega
  · intro houtside hpasses
    obtain ⟨frame, hframe⟩ := hsome.mpr (by omega)
    obtain ⟨p, hp, rfl⟩ := replyFrame_payload hframe
    rw [← hp] at hpasses hlength ⊢
    have hdrop : p.frame.drop headSize = p.body := List.drop_left' p.length_header
    refine ⟨p.frame, hframe, ?_, ?_, p.convertHexToInt_header p.body, ?_⟩
    · rw [p.length_frame]
      omega
    · rw [p.length_frame]
      omega
    · rw [hdrop]
      exact p.reverseCrcData_body

/-- A game server's result of control bytes that escaping brings to 4094 bytes. -/
def controlResult : List UInt8 := List.replicate 676 1 ++ [97, 98, 99]

theorem replyLength_controlResult : replyLength true controlResult = 4094 := by
  unfold replyLength controlResult
  rw [List.map_append, List.map_replicate, List.sum_append, List.sum_replicate_nat]
  decide

/-- The text passes the size test and its frame leaves the buffer by one byte. -/
theorem replyFrame_overrun : ¬ ∀ (isOpOk : Bool) (msg : List UInt8), msg.length ≤ 4095 →
    (0 : UInt8) ∉ msg → ReplyFits isOpOk msg := by
  intro hfits
  have hpasses : (printReply true controlResult).length = 4094 := by
    rw [length_printReply, replyLength_controlResult]
  have hnul : (0 : UInt8) ∉ controlResult := by
    rw [controlResult, List.mem_append, List.mem_replicate]
    decide
  have hshort : controlResult.length ≤ 4095 := by
    rw [controlResult, List.length_append, List.length_replicate]
    decide
  obtain ⟨frame, hframe, -⟩ := hfits true controlResult hshort hnul
    (by rw [hpasses]; decide)
  have hroom := (replyFrame_eq_some_iff true controlResult).mp ⟨frame, hframe⟩
  rw [hpasses] at hroom
  exact absurd hroom (by decide)

end WowProxy
