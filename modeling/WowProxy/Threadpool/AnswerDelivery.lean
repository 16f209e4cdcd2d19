/-
  Threadpool/AnswerDelivery.lean --- from the answers of the game server to what the
  client decodes.

  The request is sent, the whole answer comes with one read, and what it says goes into a
  frame.  This file puts the parts together: `readn_fd`, `analysis_soap_response` of the
  source and `write_sock_func`, over the commands of a message.  The replies are read as in
  `Threadpool/ReplyDelivery`, from the frames that are handed to the write loop.
-/
import WowProxy.Threadpool.ReplyAccounting
import WowProxy.Threadpool.ReplyDelivery
import WowProxy.Xml.RequestLength

set_option autoImplicit false

namespace WowProxy

open Lib.CString WowProxy.Lib.JsonText

/-! ## One command -/

/-- An answer that is read and taken apart as a whole: one read brings it, and its header
does not end a line in front of the empty one. -/
structure Answer.Whole (a : Answer) : Prop where
  header : ¬ ascii "\r\n" <:+ a.header
  nul : 0 ∉ a.bytes
  fits : a.Fits
  short : a.bytes.length < maxBufSize

namespace Service

variable (sv : Service)

/-- The request is sent, and the answer to it says `told`, which fits a frame. -/
structure Tells (nbytes : Nat) (c : ParsedCommand) (t : Thread) (env : CommandEnv)
    (told : Bool × List UInt8) : Prop where
  fits : sv.RequestFits c.cmd (min c.cmd.length nbytes) t env
  sends : sv.Sends c.cmd (min c.cmd.length nbytes) t env
  ready : 0 < env.retval
  answer : ∃ (a : Answer) (more : List ReadResult), env.reads = .ok a.bytes :: more ∧
    a.Whole ∧ a.Says told.1 told.2
  room : (printReply told.1 told.2).length + headSize + 1 ≤ replyBufSize

/-- The command is for the database, or needs no reply and is sent. -/
def Silent (nbytes : Nat) (c : ParsedCommand) (t : Thread) (env : CommandEnv) : Prop :=
  (c.is2Pipe && c.needRsp) = false ∧ sv.Accounted nbytes c t env

/-- Each command of the batch that needs a reply is answered, in the state it is executed
in, and the others need none: `told` is what the answers say. -/
def AllTell (nbytes : Nat) : List ParsedCommand → Thread → List CommandEnv →
    List (Bool × List UInt8) → Prop
  | [], _, _, told => told = []
  | _ :: _, _, [], _ => False
  | c :: cmds, t, env :: envs, told =>
    (sv.Silent nbytes c t env ∧
        ∀ w, sv.executeCommand nbytes c t env = some w → AllTell nbytes cmds w.thread envs told) ∨
      ∃ first later, told = first :: later ∧ c.is2Pipe = true ∧ c.needRsp = true ∧
        sv.Tells nbytes c t env first ∧
        ∀ w, sv.executeCommand nbytes c t env = some w → AllTell nbytes cmds w.thread envs later

section

variable {sv} {nbytes : Nat} {c : ParsedCommand} {t : Thread} {env : CommandEnv}
  {told : Bool × List UInt8}

/-- What the answer says can be sent as a C string. -/
theorem Tells.nul_notMem (h : sv.Tells nbytes c t env told) : 0 ∉ told.2 := by
  obtain ⟨a, -, -, hwhole, htold⟩ := h.answer
  have hpart : told.2 <:+: a.bytes :=
    htold.text_bytes.trans ⟨a.header ++ (septation ++ a.declarationBytes), [], by
      simp [Answer.bytes]⟩
  exact fun hmem => hwhole.nul (hpart.subset hmem)

/-- The exchange ends with the answer, of which the client is told what it says. -/
theorem Tells.exchange (hsv : AnalysesAnswers sv) (hscript : sv.Scripted nbytes c t env)
    (h : sv.Tells nbytes c t env told) : ∃ x t₁,
      sv.exchange c.cmd (min c.cmd.length nbytes) t env = some (x, t₁) ∧
        sv.replyTo true x = some (some told) := by
  obtain ⟨a, more, hreads, hwhole, htold⟩ := h.answer
  have hread (fd : Nat) (hfd : fd ≠ 0) := readnFd_short hfd [] h.ready hwhole.nul hwhole.short more
  have hterminated : env.AnswerFits := by
    rw [CommandEnv.AnswerFits, ← readnFd_isSome_iff Nat.one_ne_zero [] hscript.reads, hreads,
      hread 1 Nat.one_ne_zero]
    rfl
  have hsome := hscript.exchange_isSome_iff.mpr ⟨h.fits, fun _ => hterminated⟩
  obtain ⟨⟨x, t₁⟩, hexchange⟩ := Option.isSome_iff_exists.mp hsome
  refine ⟨x, t₁, hexchange, ?_⟩
  rcases sv.exchange_cases hexchange with ⟨-, hnot⟩ | ⟨-, r, hr, rfl⟩
  · exact absurd h.sends hnot
  · rw [hreads, hread 1 Nat.one_ne_zero, Option.some.injEq] at hr
    subst hr
    have hpos : (0 : Int) < (a.bytes.length : Int) := by
      have hsept : 0 < a.bytes.length := by
        rw [Answer.bytes, List.length_append, List.length_append]
        exact Nat.lt_of_lt_of_le (by decide : 0 < septation.length) (by omega)
      omega
    have hlen : a.bytes.length < answerBufSize := Nat.lt_trans hwhole.short (by decide)
    rw [replyTo, if_pos ⟨rfl, hpos⟩,
      answerReply_of_says hsv htold hwhole.header hwhole.nul hwhole.fits hlen, Option.map_some]

/-- The command hands one frame to the write loop of the client, which holds what the
answer says. -/
theorem Tells.reply (hsv : AnalysesAnswers sv) (hscript : sv.Scripted nbytes c t env)
    (hpipe : c.is2Pipe = true) (hneed : c.needRsp = true) (h : sv.Tells nbytes c t env told) :
    ∃ w ret, ∃ p : Payload, sv.executeCommand nbytes c t env = some w ∧
      w.reply = some (p.frame, ret) ∧ p.bytes = printReply told.1 told.2 := by
  obtain ⟨x, t₁, hexchange, hto⟩ := h.exchange hsv hscript
  obtain ⟨frame, hframe⟩ := (replyFrame_eq_some_iff told.1 told.2).mpr h.room
  obtain ⟨p, hbytes, rfl⟩ := replyFrame_payload hframe
  have hserved := hscript.replies x t₁ told.1 told.2 p.frame hexchange (hneed ▸ hto) hframe
  obtain ⟨o, ho⟩ := Option.isSome_iff_exists.mp hserved
  have hwrite : ∃ w ret, writeSockFunc sv.clientFd told.1 told.2 t₁ env.replies = some w ∧
      w.reply = some (p.frame, ret) := by
    simp only [writeSockFunc, hframe, ho, Option.map_some]
    exact ⟨_, _, rfl, rfl⟩
  obtain ⟨w, ret, hw, hreply⟩ := hwrite
  refine ⟨w, ret, p, ?_, hreply, hbytes⟩
  rw [executeCommand, hpipe, if_pos rfl, hneed, writePipeOrSock_eq hexchange, hto,
    Option.bind_some]
  exact hw

/-- A command that is silent hands on nothing. -/
theorem Silent.reply (hscript : c.is2Pipe = true → sv.Scripted nbytes c t env)
    (h : sv.Silent nbytes c t env) :
    ∃ w, sv.executeCommand nbytes c t env = some w ∧ w.reply = none := by
  obtain ⟨w, hw, hreply⟩ := (executeCommand_writes_iff hscript).mpr h.2
  rw [h.1, Option.isSome_eq_false_iff, Option.isNone_iff_eq_none] at hreply
  exact ⟨w, hw, hreply⟩

end

end Service

/-! ## A batch -/

/-- The frames that are handed to the write loop, one behind the other. -/
def handedOn (replies : List (Option (List UInt8 × Int))) : List UInt8 :=
  (replies.filterMap id).flatMap Prod.fst

namespace Service

variable {sv : Service} {nbytes : Nat}

/-- The frames of a batch are those of the answers. -/
theorem AllTell.frames (hsv : AnalysesAnswers sv) {cmds : List ParsedCommand} :
    ∀ {t : Thread} {envs : List CommandEnv} {told : List (Bool × List UInt8)},
      sv.AllScripted nbytes cmds t envs → sv.AllTell nbytes cmds t envs told →
      ∃ replies t' frames, sv.executeCommands nbytes cmds t envs = some (replies, t') ∧
        handedOn replies = frameBytes frames ∧
        List.Forall₂ (fun p v => ∃ ptr, CJson.parse (p.bytes ++ [0]) = .item v ptr) frames
          (told.map fun r => replyTree Decimal r.1 r.2) := by
  induction cmds with
  | nil =>
    intro t envs told _ htell
    obtain rfl : told = [] := htell
    exact ⟨[], t, [], rfl, rfl, .nil⟩
  | cons c cmds ih =>
    intro t envs told hscript htell
    cases envs with
    | nil => exact absurd hscript not_false
    | cons env envs =>
      obtain ⟨hfirst, hlater⟩ := hscript
      rcases htell with ⟨hsilent, hrest⟩ | ⟨first, later, rfl, hpipe, hneed, htells, hrest⟩
      · obtain ⟨w, hw, hreply⟩ := hsilent.reply hfirst
        obtain ⟨replies, t', frames, hrun, hframes, hall⟩ := ih (hlater w hw) (hrest w hw)
        refine ⟨w.reply :: replies, t', frames, ?_, ?_, hall⟩
        · simp only [executeCommands, hw, hrun, Option.map_some]
        · rw [hreply]
          exact hframes
      · obtain ⟨w, ret, p, hw, hreply, hbytes⟩ := htells.reply hsv (hfirst hpipe) hpipe hneed
        obtain ⟨replies, t', frames, hrun, hframes, hall⟩ := ih (hlater w hw) (hrest w hw)
        refine ⟨w.reply :: replies, t', p :: frames, ?_, ?_, .cons ⟨[0], ?_⟩ hall⟩
        · simp only [executeCommands, hw, hrun, Option.map_some]
        · rw [frameBytes_cons, ← hframes, hreply]
          rfl
        · rw [hbytes]
          exact parse_printReply first.1 htells.nul_notMem

end Service

theorem doneAnswer_whole : doneAnswer.Whole :=
  ⟨by decide, by decide +kernel, ⟨by decide +kernel, by decide +kernel, by decide +kernel⟩,
    by decide +kernel⟩

theorem refusedAnswer_whole : refusedAnswer.Whole :=
  ⟨by decide, by decide +kernel, ⟨by decide +kernel, by decide +kernel, by decide +kernel⟩,
    by decide +kernel⟩

/-- A round in which the peer is there does not fail. -/
theorem Round.plain_goes (n : Nat) : ¬ (Round.plain (n + 1)).Fails := by
  rintro (⟨hclosed, -⟩ | hwrite)
  · have hopen : isSockClosedByPeer 1 (.error .eagain) = false := rfl
    exact Bool.false_ne_true (hopen.symm.trans hclosed)
  · exact absurd hwrite (Nat.succ_ne_zero n)

/-- A short command is sent on any thread, where there is a connection and one round is
enough. -/
theorem sampleProxy_sends {cmd : List UInt8} (hne : cmd ≠ []) (hshort : cmd.length ≤ 496)
    (t : Thread) (env : CommandEnv) {n : Nat} (hconnects : env.connect.connects = true)
    (hround : env.sends = [.plain (n + 1)]) :
    sampleProxy.RequestFits cmd cmd.length t env ∧ sampleProxy.Sends cmd cmd.length t env := by
  have hauth : ascii "QQ==" ≠ [] := by decide
  have hrequest := makeSoapRequest_short hauth (by decide) hne hshort
  have hfull : soapEnvelope cmd ≠ [] := fun h => by
    have hlength := length_soapEnvelope cmd
    rw [h, List.length_nil] at hlength
    omega
  refine ⟨fun _ hnone => ?_, Or.inr hconnects, fun hempty => ?_, fun r hr => ?_⟩
  · exact absurd (hrequest.symm.trans hnone) (by simp)
  · have happend := Option.some.inj (hrequest.symm.trans hempty)
    exact hfull (List.append_eq_nil_iff.mp happend).2
  · rw [hround] at hr
    obtain rfl := List.mem_singleton.mp hr
    exact Round.plain_goes n

theorem sampleProxy_tells {a : Answer} (hwhole : a.Whole) (told : Bool × List UInt8)
    (htold : a.Says told.1 told.2) (t : Thread) (reply : Nat)
    (hroom : (printReply told.1 told.2).length + headSize + 1 ≤ replyBufSize) :
    sampleProxy.Tells 100 ⟨ascii "server info", true, true⟩ t (.answered 727 a.bytes reply)
      told := by
  obtain ⟨hfits, hsends⟩ := sampleProxy_sends (show ascii "server info" ≠ [] by decide)
    (by decide) t (.answered 727 a.bytes reply) rfl rfl
  exact ⟨hfits, hsends, Int.one_pos, ⟨a, [], rfl, hwhole, htold⟩, hroom⟩

theorem sampleProxy_silent (t : Thread) :
    sampleProxy.Silent 100 ⟨ascii "saveall", false, true⟩ t (.unanswered 723) := by
  obtain ⟨hfits, hsends⟩ := sampleProxy_sends (show ascii "saveall" ≠ [] by decide)
    (by decide) t (.unanswered 723) rfl rfl
  exact ⟨rfl, fun _ => ⟨hfits, hsends, fun h => absurd h (by decide)⟩⟩

/-- A command that is executed, one that needs no reply, and one that is refused. -/
def toldBatch : List ParsedCommand :=
  [⟨ascii "server info", true, true⟩, ⟨ascii "saveall", false, true⟩,
    ⟨ascii "server info", true, true⟩]

def toldEnvs : List CommandEnv :=
  [.answered 727 doneAnswer.bytes 42, .unanswered 723, .answered 727 refusedAnswer.bytes 54]

theorem toldEnvs_served : ∀ env ∈ toldEnvs, 0 < env.retval → ReadsServed env.reads := by
  simp only [toldEnvs, List.forall_mem_cons, List.not_mem_nil, false_implies, implies_true,
    and_true]
  exact ⟨CommandEnv.answered_served doneAnswer_whole.short, fun h => absurd h (by decide),
    CommandEnv.answered_served refusedAnswer_whole.short⟩

end WowProxy
