/-
  Threadpool/AnswerMemory.lean --- what `write_pipe_or_sock` allocates behind the exchange
  with the game server.

  Of the calls on the way, `get_soap_content` and `write_sock_func` allocate, and either may
  leave blocks behind.  How the exchange ends is given; up to there nothing is allocated.
-/
import WowProxy.Threadpool.ReplyAccounting
import WowProxy.Threadpool.ReplyMemory
import WowProxy.Xml.XmlMemory

set_option autoImplicit false

namespace WowProxy.AnswerMem

open WowProxy.Lib.Blocks
open WowProxy.Lib.CString

/-! ## From the source -/

/-- `analysis_soap_response` -/
def analysisSoapResponse (rsp : List UInt8) (rspLen rstLen : Nat) :
    Prog (Bool × List UInt8 × Nat) :=
  if rstLen = 0 then return (false, [], 0)
  else do
    match ← need (partitionResponse rsp rspLen) with
    | none => return (false, padded [] rstLen, rstLen)
    | some (httpHeader, soap) => do
      let header ← need (cstr httpHeader)
      let soap ← need (cstr soap)
      let isOpOK := getHttpStatus header header.length
      let content ← XmlMem.getSoapContent soap isOpOK
      if 0 < content.1 ∧ content.1 ≤ rstLen then
        return (isOpOK, padded ((content.2.take content.1).takeWhile (· ≠ 0)) rstLen, content.1)
      else return (isOpOK, padded [] rstLen, rstLen)

/-- The reply of `write_pipe_or_sock` to an answer. -/
def answerReply (nbytes : Int) (szBuf : List UInt8) : Prog (Bool × List UInt8) := do
  let rsp ← need (cstr szBuf)
  let (isOpOk, szrst, rstLen) ← analysisSoapResponse rsp nbytes.toNat answerBufSize
  let msg ← need (memcpy answerBufSize szrst rstLen)
  return (isOpOk, msg.takeWhile (· ≠ 0))

/-- `write_pipe_or_sock` behind the exchange. -/
def writePipeOrSock (resp : Bool) : Exchange → Prog Unit
  | .failed => do
    let _ ← ReplyMem.writeSockFunc false errorMsg1
    return ()
  | .answer nbytes szBuf =>
    if resp ∧ nbytes > 0 then do
      let reply ← answerReply nbytes szBuf
      let _ ← ReplyMem.writeSockFunc reply.1 reply.2
      return ()
    else return ()

/-! ## What is left behind -/

/-- What `get_soap_content` gets of an answer. -/
def soapOf (rsp : List UInt8) (rspLen : Nat) : Option (List UInt8 × Bool) := do
  let parts ← partitionResponse rsp rspLen
  let (httpHeader, soap) ← parts
  let header ← cstr httpHeader
  let soap ← cstr soap
  return (soap, getHttpStatus header header.length)

/-- How many blocks an answer leaves behind: those of a document in which the node is
missing. -/
def answerBlocks (nbytes : Int) (szBuf : List UInt8) : Nat :=
  ((cstr szBuf).bind fun rsp => soapOf rsp nbytes.toNat).elim 0 fun soap =>
    XmlMem.leftBlocks soap.1 soap.2

/-- What `write_pipe_or_sock` hands to `write_sock_func`, whatever the credential and the
client. -/
def replyTo (resp : Bool) (x : Exchange) : Option (Option (Bool × List UInt8)) :=
  (soapService none 0).replyTo resp x

/-- How many blocks a reply leaves behind: that of a text that is too long. -/
def replyBlocks (resp : Bool) (x : Exchange) : Nat :=
  match replyTo resp x with
  | some (some (isOpOk, msg)) => ReplyMem.leaked isOpOk msg
  | _ => 0

/-- How many blocks a command leaves behind. -/
def leftBlocks (resp : Bool) : Exchange → Nat
  | .failed => replyBlocks resp .failed
  | .answer nbytes szBuf =>
    if resp ∧ nbytes > 0 then answerBlocks nbytes szBuf + replyBlocks resp (.answer nbytes szBuf)
    else 0

/-- No buffer is left on the way to the reply. -/
def Stays (resp : Bool) (x : Exchange) : Prop :=
  ∃ reply, replyTo resp x = some reply ∧
    ∀ isOpOk msg, reply = some (isOpOk, msg) → replyFrame isOpOk msg ≠ none

/-- A call that returns has left no buffer. -/
theorem stays_of_writePipeOrSock {requestAuth : Option (List UInt8)} {clientFd : Nat}
    {resp : Bool} {cmd : List UInt8} {size : Nat} {t t₁ : Thread} {env : CommandEnv}
    {x : Exchange} {w : WriteSock}
    (hexchange : (soapService requestAuth clientFd).exchange cmd size t env = some (x, t₁))
    (h : (soapService requestAuth clientFd).writePipeOrSock resp cmd size t env = some w) :
    Stays resp x := by
  rw [Service.writePipeOrSock_eq hexchange] at h
  obtain ⟨reply, hreply, hwrite⟩ := Option.bind_eq_some_iff.mp h
  refine ⟨reply, hreply, ?_⟩
  rintro isOpOk msg rfl hframe
  rw [Service.writeReply, writeSockFunc, hframe] at hwrite
  exact absurd hwrite (by simp)

/-! ## The blocks of a command -/

/-- `analysis_soap_response` computes its value, and leaves behind what `get_soap_content`
does. -/
theorem owns_analysisSoapResponse {rsp : List UInt8} {rspLen rstLen : Nat}
    {result : Bool × List UInt8 × Nat} (hpos : rstLen ≠ 0)
    (h : WowProxy.analysisSoapResponse rsp rspLen rstLen = some result) (pre : List Nat) :
    Owns pre (analysisSoapResponse rsp rspLen rstLen) fun r own =>
      r = result ∧ ∃ left, own.Perm (left ++ pre) ∧
        left.length = (soapOf rsp rspLen).elim 0 fun soap => XmlMem.leftBlocks soap.1 soap.2 := by
  rw [WowProxy.analysisSoapResponse, if_neg hpos] at h
  rw [analysisSoapResponse, if_neg hpos]
  cases hparts : partitionResponse rsp rspLen with
  | none =>
    rw [hparts] at h
    exact absurd h (by simp)
  | some parts =>
    rw [hparts] at h
    refine (Owns.need rfl).bind ?_
    rintro parts own ⟨rfl, rfl⟩
    cases parts with
    | none =>
      refine .pure ⟨Option.some.inj h, [], .refl _, ?_⟩
      rw [soapOf, hparts]
      rfl
    | some parts =>
      obtain ⟨httpHeader, soapBuf⟩ := parts
      obtain ⟨header, hheader, h⟩ := Option.bind_eq_some_iff.mp h
      obtain ⟨soap, hsoap, h⟩ := Option.bind_eq_some_iff.mp h
      obtain ⟨content, hcontent, hresult⟩ := Option.map_eq_some_iff.mp h
      have hlength : soap.length ≤ maxBufSize :=
        (getSoapContent_isSome (getHttpStatus header header.length)).mp
          (Option.isSome_iff_exists.mpr ⟨content, hcontent⟩)
      have hof : soapOf rsp rspLen = some (soap, getHttpStatus header header.length) := by
        simp only [soapOf, hparts, hheader, hsoap, Option.bind_eq_bind, Option.bind_some,
          Option.pure_def]
      refine (Owns.need hheader).bind ?_
      rintro _ own ⟨rfl, rfl⟩
      refine (Owns.need hsoap).bind ?_
      rintro _ own ⟨rfl, rfl⟩
      refine (XmlMem.owns_getSoapContent _ hlength own).bind ?_
      rintro content' own' ⟨hcontent', left, hown, hleft⟩
      obtain rfl : content = content' := Option.some.inj (hcontent.symm.trans hcontent')
      rw [hof, Option.elim_some]
      split at hresult
      · rename_i hcopied
        rw [if_pos hcopied]
        exact .pure ⟨hresult, left, hown, hleft⟩
      · rename_i hcopied
        rw [if_neg hcopied]
        exact .pure ⟨hresult, left, hown, hleft⟩

/-- The reply to an answer is computed as without the blocks. -/
theorem owns_answerReply {nbytes : Int} {szBuf : List UInt8} {reply : Bool × List UInt8}
    (h : (soapService none 0).answerReply nbytes szBuf = some reply) (pre : List Nat) :
    Owns pre (answerReply nbytes szBuf) fun r own =>
      r = reply ∧ ∃ left, own.Perm (left ++ pre) ∧ left.length = answerBlocks nbytes szBuf := by
  obtain ⟨⟨isOpOk, szrst, rstLen⟩, hresult, h⟩ := Option.bind_eq_some_iff.mp h
  obtain ⟨rsp, hrsp, hresult⟩ := Option.bind_eq_some_iff.mp hresult
  obtain ⟨msg, hmsg, rfl⟩ := Option.map_eq_some_iff.mp h
  rw [answerReply, answerBlocks, hrsp, Option.bind_some]
  refine (Owns.need rfl).bind ?_
  rintro _ own ⟨rfl, rfl⟩
  refine (owns_analysisSoapResponse (by decide) hresult own).bind ?_
  rintro _ own' ⟨rfl, left, hown, hleft⟩
  refine (Owns.need hmsg).bind ?_
  rintro _ own'' ⟨rfl, rfl⟩
  exact .pure ⟨rfl, left, hown, hleft⟩

/-- What is handed to `write_sock_func` has no NUL. -/
theorem nul_of_replyTo {resp : Bool} {x : Exchange} {isOpOk : Bool} {msg : List UInt8}
    (h : replyTo resp x = some (some (isOpOk, msg))) : 0 ∉ msg := by
  cases x with
  | failed =>
    obtain ⟨-, rfl⟩ : false = isOpOk ∧ errorMsg1 = msg :=
      Prod.mk.inj (Option.some.inj (Option.some.inj h))
    decide
  | answer nbytes szBuf =>
    rw [replyTo, Service.replyTo] at h
    split at h
    · obtain ⟨_, hanswer, heq⟩ := Option.map_eq_some_iff.mp h
      obtain rfl := Option.some.inj heq
      obtain ⟨_, -, h⟩ := Option.bind_eq_some_iff.mp hanswer
      obtain ⟨text, -, heq⟩ := Option.map_eq_some_iff.mp h
      obtain ⟨-, rfl⟩ := Prod.mk.inj heq
      intro hmem
      exact absurd (List.mem_takeWhile_imp hmem) (by simp)
    · exact absurd h (by simp)

/-- A command that leaves no buffer leaves behind the document of an answer in which the
node is missing and the text of a reply that is too long. -/
theorem owns_writePipeOrSock {resp : Bool} {x : Exchange} (hstays : Stays resp x)
    (pre : List Nat) :
    Owns pre (writePipeOrSock resp x) fun _ own =>
      ∃ left, own.Perm (left ++ pre) ∧ left.length = leftBlocks resp x := by
  obtain ⟨reply, hreply, hframe⟩ := hstays
  -- the last step: the reply is written behind what is left so far
  have hwrite : ∀ isOpOk msg left own, reply = some (isOpOk, msg) → own.Perm (left ++ pre) →
      Owns own (do let _ ← ReplyMem.writeSockFunc isOpOk msg; return ()) fun _ own' =>
        ∃ left', own'.Perm (left' ++ pre) ∧ left'.length = left.length + replyBlocks resp x := by
    rintro isOpOk msg left own rfl hown
    obtain ⟨frame, hframe⟩ := Option.ne_none_iff_exists'.mp (hframe isOpOk msg rfl)
    refine (ReplyMem.owns_writeSockFunc (nul_of_replyTo hreply) hframe own).bind ?_
    rintro _ own' ⟨-, left', hown', hleft'⟩
    refine .pure ⟨left' ++ left, ?_, ?_⟩
    · rw [List.append_assoc]
      exact hown'.trans (hown.append_left left')
    · rw [List.length_append, hleft', replyBlocks, hreply, Nat.add_comm]
  cases x with
  | failed =>
    obtain rfl : some (false, errorMsg1) = reply := Option.some.inj hreply
    refine (hwrite false errorMsg1 [] pre rfl (.refl _)).weaken ?_
    rintro _ own ⟨left, hown, hleft⟩
    exact ⟨left, hown, hleft.trans (Nat.zero_add _)⟩
  | answer nbytes szBuf =>
    rw [writePipeOrSock, leftBlocks]
    split
    · rename_i hanswered
      rw [replyTo, Service.replyTo, if_pos hanswered] at hreply
      obtain ⟨⟨isOpOk, msg⟩, hanswer, rfl⟩ := Option.map_eq_some_iff.mp hreply
      refine (owns_answerReply hanswer pre).bind ?_
      rintro _ own ⟨rfl, left, hown, hleft⟩
      rw [← hleft]
      exact hwrite isOpOk msg left own rfl hown
    · exact .pure ⟨[], .refl _, rfl⟩

end WowProxy.AnswerMem
