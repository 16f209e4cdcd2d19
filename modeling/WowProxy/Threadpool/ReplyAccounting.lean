/-
  Threadpool/ReplyAccounting.lean --- which commands of a message get a reply.

  A client matches replies to its commands by their order alone.  For every batch
  of commands and every script of the environment the theorem of this file says
  when the replies are the right ones: the condition is on the commands, on the
  thread each of them finds and on what the environment answers, and it includes
  that no buffer is left on the way.

  A script is complete where it answers every call that is made; the frames
  counted are those handed to the write loop of the client.
-/
import WowProxy.Threadpool.ReplyBuffer
import WowProxy.Xml.AnalysisSoap

set_option autoImplicit false

namespace WowProxy

open Lib.CString

/-! ## Complete scripts -/

namespace Service

variable (sv : Service)

/-- What `write_pipe_or_sock` hands to `write_sock_func` behind the exchange. -/
def replyTo (resp : Bool) : Exchange → Option (Option (Bool × List UInt8))
  | .failed => some (some (false, errorMsg1))
  | .answer nbytes szBuf =>
    if resp ∧ nbytes > 0 then (sv.answerReply nbytes szBuf).map some else some none

/-- The call of `write_sock_func`, where there is one. -/
def writeReply (t : Thread) (replies : List Round) :
    Option (Bool × List UInt8) → Option WriteSock
  | none => some { reply := none, thread := t, rest := replies }
  | some (isOpOk, msg) => writeSockFunc sv.clientFd isOpOk msg t replies

/-- The environment answers every system call that the command makes: the rounds of
the request are those of its write loop, the reads those of `readn_fd`, and the
rounds of the reply last for its frame. -/
structure Scripted (nbytes : Nat) (c : ParsedCommand) (t : Thread) (env : CommandEnv) : Prop where
  sends : ∀ fd t₁ request, makeSoapSocket t env.connect = (fd + 1, t₁) →
    makeSoapRequest sv.requestAuth c.cmd (min c.cmd.length nbytes) = some request →
    ∃ w, writenFd (fd + 1) request t₁ env.sends = some w ∧ w.rest = []
  reads : 0 < env.retval → ReadsServed env.reads
  replies : ∀ x t₁ isOpOk msg frame,
    sv.exchange c.cmd (min c.cmd.length nbytes) t env = some (x, t₁) →
    sv.replyTo c.needRsp x = some (some (isOpOk, msg)) →
    replyFrame isOpOk msg = some (some frame) →
    (writenFd sv.clientFd frame t₁ env.replies).isSome = true

/-- The script is complete for every command, in the state it is executed in. -/
def AllScripted (nbytes : Nat) : List ParsedCommand → Thread → List CommandEnv → Prop
  | [], _, _ => True
  | _ :: _, _, [] => False
  | c :: cmds, t, env :: envs =>
    (c.is2Pipe = true → sv.Scripted nbytes c t env) ∧
      ∀ w, sv.executeCommand nbytes c t env = some w → AllScripted nbytes cmds w.thread envs

/-! ## Accounting for the replies -/

/-- The request stays in its buffers, where there is a connection to write it to. -/
def RequestFits (cmd : List UInt8) (size : Nat) (t : Thread) (env : CommandEnv) : Prop :=
  t.td ≠ 0 ∨ env.connect.connects = true → makeSoapRequest sv.requestAuth cmd size ≠ none

end Service

/-- The answer, where one arrives, is read inside the buffers. -/
def CommandEnv.AnswerFits (env : CommandEnv) : Prop := 0 < env.retval → ReadsTerminated env.reads

namespace Service

variable (sv : Service)

/-- The reply to the answer is made inside the buffers, and its text leaves room for
the header and the checksum. -/
def ReplyFits (env : CommandEnv) : Prop :=
  ∀ r, readnFd 1 [] answerBufSize env.retval env.reads = some r →
    ∃ isOpOk msg, sv.answerReply r.ret r.szData = some (isOpOk, msg) ∧
      (printReply isOpOk msg).length + headSize + 1 ≤ replyBufSize

/-- The request of a game-server command fits its buffers.  A command that needs a
reply fails to be sent, or is answered inside the buffers with a reply that fits; one
that needs none is sent, and what is read behind it fits. -/
def Accounted (nbytes : Nat) (c : ParsedCommand) (t : Thread) (env : CommandEnv) : Prop :=
  c.is2Pipe = true →
    sv.RequestFits c.cmd (min c.cmd.length nbytes) t env ∧
      if c.needRsp then
        sv.Sends c.cmd (min c.cmd.length nbytes) t env →
          env.AnswerFits ∧ env.Answers ∧ sv.ReplyFits env
      else sv.Sends c.cmd (min c.cmd.length nbytes) t env ∧ env.AnswerFits

/-- Every command of the batch is accounted for, in the state it is executed
in. -/
def AllAccounted (nbytes : Nat) : List ParsedCommand → Thread → List CommandEnv → Prop
  | c :: cmds, t, env :: envs =>
    sv.Accounted nbytes c t env ∧
      ∀ w, sv.executeCommand nbytes c t env = some w → AllAccounted nbytes cmds w.thread envs
  | _, _, _ => True

/-! ## One command -/

section

variable {sv} {nbytes : Nat} {c : ParsedCommand} {t : Thread} {env : CommandEnv}

/-- The exchange leaves a buffer only with its request or with the answer to it. -/
theorem Scripted.exchange_isSome_iff (hscript : sv.Scripted nbytes c t env) :
    (sv.exchange c.cmd (min c.cmd.length nbytes) t env).isSome = true ↔
      sv.RequestFits c.cmd (min c.cmd.length nbytes) t env ∧
        (sv.Sends c.cmd (min c.cmd.length nbytes) t env → env.AnswerFits) := by
  unfold exchange RequestFits
  cases hmake : makeSoapSocket t env.connect with
  | mk fd t₁ =>
    cases fd with
    | zero =>
      have hnot := makeSoapSocket_unconnected hmake
      exact ⟨fun _ => ⟨fun h => absurd h hnot, fun h => absurd h.1 hnot⟩, fun _ => rfl⟩
    | succ fd =>
      have hconnected := makeSoapSocket_connected hmake
      dsimp only
      cases hrequest : makeSoapRequest sv.requestAuth c.cmd (min c.cmd.length nbytes) with
      | none => exact ⟨fun h => absurd h (by simp), fun h => absurd rfl (h.1 hconnected)⟩
      | some request =>
        obtain ⟨w, hw, hrest⟩ := hscript.sends fd t₁ request hmake hrequest
        have hused : ¬ w.rest.length > 0 := by rw [hrest]; exact Nat.not_lt_zero 0
        simp only [hw, hused, if_false]
        rcases sv.sends_cases hmake hrequest hw hrest with ⟨hret, hsends⟩ | ⟨hret, hpfd, hsends⟩
        · rw [if_pos hret]
          exact ⟨fun _ => ⟨fun _ => by simp, fun h => absurd h hsends⟩, fun _ => rfl⟩
        · rw [if_neg (by omega), Option.isSome_map, readnFd_isSome_iff hpfd request hscript.reads]
          exact ⟨fun h => ⟨fun _ => by simp, fun _ => h⟩, fun h => h.2 hsends⟩

/-- A command writes a reply exactly where one that fits its frame is handed on. -/
theorem writeSockFunc_replies_iff {clientFd : Nat} {isOpOk : Bool} {msg : List UInt8}
    {rounds : List Round}
    (hrounds : ∀ frame, replyFrame isOpOk msg = some (some frame) →
      (writenFd clientFd frame t rounds).isSome = true) :
    (∃ w, writeSockFunc clientFd isOpOk msg t rounds = some w ∧ w.reply.isSome = true) ↔
      (printReply isOpOk msg).length + headSize + 1 ≤ replyBufSize := by
  rw [← replyFrame_eq_some_iff]
  unfold writeSockFunc
  constructor
  · rintro ⟨w, hw, hreply⟩
    split at hw
    · exact absurd hw (by simp)
    · obtain rfl := Option.some.inj hw
      exact absurd hreply (by simp)
    · rename_i frame hframe
      exact ⟨frame, hframe⟩
  · rintro ⟨frame, hframe⟩
    obtain ⟨w, hw⟩ := Option.isSome_iff_exists.mp (hrounds frame hframe)
    rw [hframe]
    dsimp only
    rw [hw]
    exact ⟨_, rfl, rfl⟩

/-- `write_pipe_or_sock` behind the exchange. -/
theorem writePipeOrSock_eq {resp : Bool} {cmd : List UInt8} {size : Nat} {x : Exchange}
    {t₁ : Thread} (h : sv.exchange cmd size t env = some (x, t₁)) :
    sv.writePipeOrSock resp cmd size t env =
      (sv.replyTo resp x).bind (sv.writeReply t₁ env.replies) := by
  unfold writePipeOrSock
  rw [h]
  cases x with
  | failed => rfl
  | answer n szBuf =>
    unfold replyTo
    dsimp only
    split
    · cases sv.answerReply n szBuf <;> rfl
    · rfl

/-- The error message fits its frame. -/
theorem errorMsg1_fits : (printReply false errorMsg1).length + headSize + 1 ≤ replyBufSize := by
  decide +kernel

/-- The command returns, and writes a reply exactly where `reply` says so. -/
def Writes (sv : Service) (nbytes : Nat) (c : ParsedCommand) (t : Thread) (env : CommandEnv)
    (reply : Bool) : Prop :=
  ∃ w, sv.executeCommand nbytes c t env = some w ∧ w.reply.isSome = reply

theorem writes_iff_of_exchange {reply : Bool} {x : Exchange} {t₁ : Thread}
    (hpipe : c.is2Pipe = true)
    (hexchange : sv.exchange c.cmd (min c.cmd.length nbytes) t env = some (x, t₁)) :
    sv.Writes nbytes c t env reply ↔
      (sv.replyTo c.needRsp x = some none ∧ reply = false) ∨
        ∃ isOpOk msg, sv.replyTo c.needRsp x = some (some (isOpOk, msg)) ∧
          ∃ w, writeSockFunc sv.clientFd isOpOk msg t₁ env.replies = some w ∧
            w.reply.isSome = reply := by
  unfold Writes executeCommand
  rw [hpipe, if_pos rfl, writePipeOrSock_eq hexchange]
  cases hreply : sv.replyTo c.needRsp x with
  | none => simp
  | some out =>
    cases out with
    | none => simp [writeReply, eq_comm]
    | some out =>
      obtain ⟨isOpOk, msg⟩ := out
      rw [Option.bind_some, writeReply]
      constructor
      · exact fun h => Or.inr ⟨isOpOk, msg, rfl, h⟩
      · rintro (⟨hnone, -⟩ | ⟨isOpOk', msg', hout, h⟩)
        · exact absurd hnone (by simp)
        · obtain ⟨rfl, rfl⟩ : isOpOk = isOpOk' ∧ msg = msg' := by simpa using hout
          exact h

/-- Where the request is not sent, the error message goes out, whether or not the
command needs a reply. -/
theorem Scripted.writes_of_failed (hscript : sv.Scripted nbytes c t env) {reply : Bool}
    {t₁ : Thread} (hpipe : c.is2Pipe = true)
    (hexchange : sv.exchange c.cmd (min c.cmd.length nbytes) t env = some (.failed, t₁)) :
    sv.Writes nbytes c t env reply ↔ reply = true := by
  have hto : sv.replyTo c.needRsp .failed = some (some (false, errorMsg1)) := rfl
  obtain ⟨w, hw, hreply⟩ := (writeSockFunc_replies_iff fun frame =>
    hscript.replies .failed t₁ false errorMsg1 frame hexchange hto).mpr errorMsg1_fits
  rw [writes_iff_of_exchange hpipe hexchange, hto]
  constructor
  · rintro (⟨hnone, -⟩ | ⟨isOpOk, msg, hmsg, w', hw', rfl⟩)
    · exact absurd hnone (by simp)
    · obtain ⟨rfl, rfl⟩ : false = isOpOk ∧ errorMsg1 = msg := by simpa using hmsg
      rw [hw, Option.some.injEq] at hw'
      rw [← hw', hreply]
  · rintro rfl
    exact Or.inr ⟨false, errorMsg1, rfl, w, hw, hreply⟩

/-- Where the answer is read, a command that needs a reply writes one exactly where
there is an answer, and its reply fits. -/
theorem Scripted.writes_of_answer (hscript : sv.Scripted nbytes c t env) {r : ReadnFd} {t₁ : Thread}
    (hpipe : c.is2Pipe = true)
    (hexchange : sv.exchange c.cmd (min c.cmd.length nbytes) t env =
      some (.answer r.ret r.szData, t₁))
    (hread : readnFd 1 [] answerBufSize env.retval env.reads = some r) :
    sv.Writes nbytes c t env c.needRsp ↔
      (c.needRsp = true → env.Answers ∧ sv.ReplyFits env) := by
  have hanswers := readnFd_ret_pos_iff (by decide) hread
  have hfits : sv.ReplyFits env ↔ ∃ isOpOk msg, sv.answerReply r.ret r.szData = some (isOpOk, msg) ∧
      (printReply isOpOk msg).length + headSize + 1 ≤ replyBufSize := by
    refine ⟨fun h => h r hread, fun h r' hread' => ?_⟩
    rw [hread, Option.some.injEq] at hread'
    exact hread' ▸ h
  have hrounds := hscript.replies (.answer r.ret r.szData) t₁
  rw [writes_iff_of_exchange hpipe hexchange]
  cases hneed : c.needRsp with
  | false => simp [replyTo]
  | true =>
    by_cases hpos : 0 < r.ret
    · have hto : sv.replyTo true (.answer r.ret r.szData) =
          (sv.answerReply r.ret r.szData).map some := if_pos ⟨rfl, hpos⟩
      rw [hneed, hto] at hrounds
      rw [hto, hfits]
      constructor
      · rintro (⟨-, hfalse⟩ | ⟨isOpOk, msg, hmsg, hw⟩)
        · exact absurd hfalse (by simp)
        · have hmsg' : sv.answerReply r.ret r.szData = some (isOpOk, msg) := by simpa using hmsg
          exact fun _ => ⟨hanswers.mp hpos, isOpOk, msg, hmsg',
            (writeSockFunc_replies_iff fun frame hframe =>
              hrounds isOpOk msg frame hexchange hmsg hframe).mp hw⟩
      · intro h
        obtain ⟨-, isOpOk, msg, hmsg', hroom⟩ := h rfl
        have hmsg : (sv.answerReply r.ret r.szData).map some = some (some (isOpOk, msg)) := by
          rw [hmsg', Option.map_some]
        exact Or.inr ⟨isOpOk, msg, hmsg, (writeSockFunc_replies_iff fun frame hframe =>
          hrounds isOpOk msg frame hexchange hmsg hframe).mpr hroom⟩
    · have hto : sv.replyTo true (.answer r.ret r.szData) = some none :=
        if_neg fun hboth => hpos hboth.2
      have hnone : ¬ env.Answers := fun h => hpos (hanswers.mpr h)
      simp [hto, hnone]

/-- A command returns with the replies it should get exactly when it is accounted
for. -/
theorem executeCommand_writes_iff (hscript : c.is2Pipe = true → sv.Scripted nbytes c t env) :
    sv.Writes nbytes c t env (c.is2Pipe && c.needRsp) ↔ sv.Accounted nbytes c t env := by
  unfold Accounted
  cases hpipe : c.is2Pipe with
  | false => simp [Writes, executeCommand, hpipe]
  | true =>
    have hscript := hscript hpipe
    have hfits := hscript.exchange_isSome_iff
    simp only [Bool.true_and, true_implies]
    cases hexchange : sv.exchange c.cmd (min c.cmd.length nbytes) t env with
    | none =>
      rw [hexchange] at hfits
      have hnever : ¬ sv.Writes nbytes c t env c.needRsp := by
        rintro ⟨w, hw, -⟩
        rw [executeCommand, hpipe, if_pos rfl, writePipeOrSock, hexchange] at hw
        exact absurd hw (by simp)
      refine ⟨fun h => absurd h hnever, fun ⟨hrequest, h⟩ => ?_⟩
      refine absurd (hfits.mpr ⟨hrequest, fun hsends => ?_⟩) (by simp)
      split at h
      · exact (h hsends).1
      · exact h.2
    | some out =>
      obtain ⟨x, t₁⟩ := out
      rw [hexchange] at hfits
      obtain ⟨hrequest, hanswer⟩ := hfits.mp rfl
      rcases sv.exchange_cases hexchange with ⟨rfl, hsends⟩ | ⟨hsends, r, hread, rfl⟩
      · rw [hscript.writes_of_failed hpipe hexchange]
        cases c.needRsp <;> simp [hrequest, hsends]
      · rw [hscript.writes_of_answer hpipe hexchange hread]
        have hread := hanswer hsends
        cases c.needRsp <;> simp [hrequest, hsends, hread]

end

/-! ## A batch -/

variable {sv : Service} {nbytes : Nat}

/-- **The commands of a message are executed inside the buffers and each gets its
replies, in order, if and only if every command is accounted for.** -/
theorem executeCommands_replies_iff {cmds : List ParsedCommand} :
    ∀ {t : Thread} {envs : List CommandEnv}, sv.AllScripted nbytes cmds t envs →
      ((∃ replies t', sv.executeCommands nbytes cmds t envs = some (replies, t') ∧
          replies.map Option.isSome = cmds.map fun c => c.is2Pipe && c.needRsp) ↔
        sv.AllAccounted nbytes cmds t envs) := by
  induction cmds with
  | nil =>
    intro t envs _
    exact ⟨fun _ => trivial, fun _ => ⟨[], t, rfl, rfl⟩⟩
  | cons c cmds ih =>
    intro t envs hscript
    cases envs with
    | nil => exact absurd hscript not_false
    | cons env envs =>
      obtain ⟨hfirst, hlater⟩ := hscript
      rw [AllAccounted, ← executeCommand_writes_iff hfirst, executeCommands]
      cases hcommand : sv.executeCommand nbytes c t env with
      | none =>
        refine ⟨fun ⟨_, _, h, _⟩ => absurd h (by simp), fun ⟨⟨w, hw, _⟩, _⟩ => ?_⟩
        rw [hcommand] at hw
        exact absurd hw (by simp)
      | some w =>
        have hrest := ih (hlater w hcommand)
        constructor
        · rintro ⟨replies, t', hrun, hreplies⟩
          obtain ⟨⟨later, t₁⟩, hlater', hout⟩ := Option.map_eq_some_iff.mp hrun
          obtain ⟨rfl, rfl⟩ : w.reply :: later = replies ∧ t₁ = t' := by simpa using hout
          rw [List.map_cons, List.map_cons, List.cons.injEq] at hreplies
          refine ⟨⟨w, hcommand, hreplies.1⟩, fun w' hw' => ?_⟩
          obtain rfl := Option.some.inj hw'
          exact hrest.mp ⟨later, t₁, hlater', hreplies.2⟩
        · rintro ⟨⟨w', hw', hreply⟩, hall⟩
          rw [hcommand, Option.some.injEq] at hw'
          obtain rfl := hw'
          obtain ⟨later, t', hlater', hreplies⟩ := hrest.mpr (hall w rfl)
          refine ⟨w.reply :: later, t', ?_, ?_⟩
          · dsimp only
            rw [hlater', Option.map_some]
          · rw [List.map_cons, List.map_cons, hreply, hreplies]

/-! ## Runs that return -/

/-- A call that returns has been answered. -/
theorem Scripted.of_returns {c : ParsedCommand} {t : Thread} {env : CommandEnv}
    (hreads : 0 < env.retval → ReadsServed env.reads) {w : WriteSock}
    (h : sv.writePipeOrSock c.needRsp c.cmd (min c.cmd.length nbytes) t env = some w) :
    sv.Scripted nbytes c t env where
  sends fd t₁ request hmake hrequest := by
    unfold writePipeOrSock exchange at h
    simp only [hmake, hrequest] at h
    cases hw : writenFd (fd + 1) request t₁ env.sends with
    | none => simp [hw] at h
    | some o =>
      refine ⟨o, rfl, ?_⟩
      by_contra hrest
      have hleft : o.rest.length > 0 := List.length_pos_iff.mpr hrest
      simp [hw, hleft] at h
  reads := hreads
  replies x t₁ isOpOk msg frame hexchange hreply hframe := by
    rw [writePipeOrSock_eq hexchange, hreply, Option.bind_some, writeReply, writeSockFunc,
      hframe] at h
    obtain ⟨o, ho, -⟩ := Option.map_eq_some_iff.mp h
    rw [ho]
    rfl

theorem AllScripted.of_returns {cmds : List ParsedCommand} :
    ∀ {t t' : Thread} {envs : List CommandEnv} {replies : List (Option (List UInt8 × Int))},
      (∀ env ∈ envs, 0 < env.retval → ReadsServed env.reads) →
      sv.executeCommands nbytes cmds t envs = some (replies, t') →
      sv.AllScripted nbytes cmds t envs := by
  induction cmds with
  | nil => exact fun _ _ => trivial
  | cons c cmds ih =>
    intro t t' envs replies hreads h
    cases envs with
    | nil => exact absurd h (by simp [executeCommands])
    | cons env envs =>
      obtain ⟨hfirst, hothers⟩ := List.forall_mem_cons.mp hreads
      rw [executeCommands] at h
      cases hcommand : sv.executeCommand nbytes c t env with
      | none => rw [hcommand] at h; exact absurd h (by simp)
      | some w =>
        rw [hcommand] at h
        obtain ⟨⟨later, t₁⟩, hlater, -⟩ := Option.map_eq_some_iff.mp h
        refine ⟨fun hpipe => ?_, fun w' hw' => ?_⟩
        · rw [executeCommand, hpipe, if_pos rfl] at hcommand
          exact .of_returns hfirst hcommand
        · rw [hcommand, Option.some.injEq] at hw'
          exact ih hothers (hw' ▸ hlater)

end Service

/-- An environment in which the request is written as a whole, the answer comes in
one read, and the client takes the reply. -/
def CommandEnv.answered (request : Nat) (answer : List UInt8) (reply : Nat) : CommandEnv :=
  { connect := connecting 7, sends := [.plain request], retval := 1, reads := [.ok answer],
    replies := [.plain reply] }

/-- One in which no answer comes. -/
def CommandEnv.unanswered (request : Nat) : CommandEnv :=
  { connect := connecting 7, sends := [.plain request], retval := 0, reads := [], replies := [] }

/-- An environment in which there is no socket for the game server, and the
client takes `nwritten` bytes. -/
def CommandEnv.noSocket (nwritten : Nat) : CommandEnv :=
  { connect := ⟨.error (.other 24), fun _ => false, fun _ => false⟩, sends := [], retval := 0,
    reads := [], replies := [.plain nwritten] }

theorem CommandEnv.answered_served {request reply : Nat} {answer : List UInt8}
    (hlen : answer.length < maxBufSize) :
    0 < (CommandEnv.answered request answer reply).retval →
      ReadsServed (CommandEnv.answered request answer reply).reads := by
  have hcount : ReadResult.count (.ok answer) = answer.length := rfl
  intro _
  refine ⟨fun r hr => ?_, Or.inr ⟨.ok answer, List.mem_singleton_self _, ?_⟩⟩
  · obtain rfl := List.mem_singleton.mp hr
    omega
  · omega

/-- A proxy with a credential. -/
def sampleProxy : Service := soapService (some (ascii "QQ==")) 9

/-- Two commands that need a reply, one that needs none, and one for the database. -/
def sampleBatch : List ParsedCommand :=
  [⟨ascii "server info", true, true⟩, ⟨ascii "saveall", false, true⟩,
    ⟨ascii "server info", true, true⟩, ⟨ascii "select 1", true, false⟩]

/-- The first answer has a result, and of the second nothing is extracted. -/
def sampleEnvs : List CommandEnv :=
  [.answered 727 doneAnswer.bytes 42, .unanswered 723,
    .answered 727 (ascii "HTTP/1.1 200 OK") 39, .unanswered 0]

theorem sampleEnvs_served : ∀ env ∈ sampleEnvs, 0 < env.retval → ReadsServed env.reads := by
  simp only [sampleEnvs, List.forall_mem_cons, List.not_mem_nil, false_implies, implies_true,
    and_true]
  refine ⟨CommandEnv.answered_served (by decide), ?_, CommandEnv.answered_served (by decide), ?_⟩
  · exact fun h => absurd h (by decide)
  · exact fun h => absurd h (by decide)

/-- The two commands that need a reply get one, and the others none. -/
theorem executeCommands_replies_sampleBatch :
    sampleProxy.AllAccounted 100 sampleBatch ⟨0, []⟩ sampleEnvs ∧
      ∃ replies t', sampleProxy.executeCommands 100 sampleBatch ⟨0, []⟩ sampleEnvs =
        some (replies, t') ∧ replies.map Option.isSome = [true, false, true, false] := by
  have hrun : (sampleProxy.executeCommands 100 sampleBatch ⟨0, []⟩ sampleEnvs).map
      (fun out => out.1.map Option.isSome) = some [true, false, true, false] := by decide +kernel
  obtain ⟨⟨replies, t'⟩, hrun, hreplies⟩ := Option.map_eq_some_iff.mp hrun
  have hscript := Service.AllScripted.of_returns sampleEnvs_served hrun
  have hreturns : ∃ replies t', sampleProxy.executeCommands 100 sampleBatch ⟨0, []⟩ sampleEnvs =
      some (replies, t') ∧ replies.map Option.isSome = [true, false, true, false] :=
    ⟨replies, t', hrun, hreplies⟩
  exact ⟨(Service.executeCommands_replies_iff hscript).mp hreturns, hreturns⟩

/-- A command that needs no reply gets one when there is no connection. -/
theorem error_reply_without_needRsp :
    ¬ ∀ (sv : Service) (nbytes : Nat) (cmds : List ParsedCommand) (t : Thread)
        (envs : List CommandEnv), sv.AllScripted nbytes cmds t envs →
      ∃ replies t', sv.executeCommands nbytes cmds t envs = some (replies, t') ∧
        replies.map Option.isSome = cmds.map fun c => c.is2Pipe && c.needRsp := by
  intro h
  have hrun : (sampleProxy.executeCommands 9 [⟨[65], false, true⟩] ⟨0, []⟩
      [.noSocket 67]).map (fun out => out.1.map Option.isSome) = some [true] := by decide +kernel
  obtain ⟨⟨replies, t'⟩, hrun, hreplies⟩ := Option.map_eq_some_iff.mp hrun
  have hserved : ∀ env ∈ [CommandEnv.noSocket 67], 0 < env.retval → ReadsServed env.reads := by
    intro env henv
    obtain rfl := List.mem_singleton.mp henv
    exact fun hpos => absurd hpos (by decide)
  obtain ⟨replies', t'', hrun', hnone⟩ :=
    h _ _ _ _ _ (Service.AllScripted.of_returns hserved hrun)
  rw [hrun, Option.some.injEq, Prod.mk.injEq] at hrun'
  dsimp only at hreplies
  rw [← hrun'.1, hreplies] at hnone
  exact absurd hnone (by decide)

end WowProxy
