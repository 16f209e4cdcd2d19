/-
  Threadpool/WritePipeOrSock.lean --- the commands of one message:
  `write_pipe_or_sock` and the inner loop of `read_sock_func` in `aidsock.c`,
  with `write_fd_error_message` of `common/utility.c`, in the SOAP build.

  A `CommandEnv` holds the answers of the environment to one command.  The
  functions have no value where it answers too little, where it holds rounds of
  the request that are never used, and where a buffer would be left; the one byte
  that the terminator of a reply may lie behind `szBuf` is let pass, as the code
  goes on behind it.  `analysis_soap_response` is a parameter, so what is proved
  here holds whatever it extracts; `soapService` of `Xml/AnalysisSoap.lean` is the
  service with the function of the source.
-/
import WowProxy.Common.ReadnFd
import WowProxy.Threadpool.WriteSock
import WowProxy.Xml.SoapRequest

set_option autoImplicit false

namespace WowProxy

/-! ## One command -/

/-- What the functions below take from the rest of the proxy. -/
structure Service where
  /-- `fetch_request_auth()` -/
  requestAuth : Option (List UInt8)
  /-- `analysis_soap_response(rsp, rsp_len, rst, &rst_len)`: the returned value,
  `rst` and `rst_len`, and no value where it leaves a buffer -/
  analysisSoapResponse : List UInt8 → Int → Option (Bool × List UInt8 × Nat)
  /-- `sockData->sockConn->sock_fd` -/
  clientFd : Nat

/-- What the system calls for one command return. -/
structure CommandEnv where
  /-- the connection attempt of `make_soap_socket` -/
  connect : Attempt
  /-- the rounds in which the request is written -/
  sends : List Round
  /-- `select` in `readn_fd` -/
  retval : Int
  /-- the reads of the answer -/
  reads : List ReadResult
  /-- the rounds in which the reply is written -/
  replies : List Round

/-- How the first half of `write_pipe_or_sock` ends. -/
inductive Exchange where
  /-- no connection, or the request was not written -/
  | failed
  /-- the value of `readn_fd` and what it left in `szBuf` -/
  | answer (nbytes : Int) (szBuf : List UInt8)

namespace Service

variable (sv : Service)

/-- `write_fd_error_message(sockData, err)`. -/
def writeFdErrorMessage (err : Nat) (t : Thread) (replies : List Round) : Option WriteSock :=
  let szErrMsg := if err = 1 then errorMsg1 else errorMsg2
  writeSockFunc sv.clientFd false szErrMsg t replies

/-- `write_pipe_or_sock` up to `readn_fd`: connect, write the request, read the
answer. -/
def exchange (cmd : List UInt8) (size : Nat) (t : Thread) (env : CommandEnv) :
    Option (Exchange × Thread) :=
  match makeSoapSocket t env.connect with
  | (0, t) => some (.failed, t)
  | (fd + 1, t) =>
    match makeSoapRequest sv.requestAuth cmd size with
    | none => none
    | some request =>
      match writenFd (fd + 1) request t env.sends with
      | none => none
      | some w =>
        if w.rest.length > 0 then none
        else if w.ret ≤ 0 then some (.failed, w.thread)
        else
          (readnFd w.pfd request answerBufSize env.retval env.reads).map fun r =>
            (.answer r.ret r.szData, w.thread)

/-- The reply `write_pipe_or_sock` makes of an answer: `isOpOk` and `msg`. -/
def answerReply (nbytes : Int) (szBuf : List UInt8) : Option (Bool × List UInt8) :=
  (sv.analysisSoapResponse szBuf nbytes).bind fun (isOpOk, szrst, rstLen) =>
    -- The terminator goes behind the copied bytes: where nothing was extracted,
    -- `rst_len` is the size of `szBuf`, and it goes to the byte behind the buffer.
    (memcpy answerBufSize szrst rstLen).map fun msg => (isOpOk, msg.takeWhile (· ≠ 0))

/-- `write_pipe_or_sock(sockData, resp, cmd, size)`. -/
def writePipeOrSock (resp : Bool) (cmd : List UInt8) (size : Nat) (t : Thread)
    (env : CommandEnv) : Option WriteSock :=
  match sv.exchange cmd size t env with
  | none => none
  | some (.failed, t) => sv.writeFdErrorMessage 1 t env.replies
  | some (.answer nbytes szBuf, t) =>
    if resp ∧ nbytes > 0 then
      match sv.answerReply nbytes szBuf with
      | none => none
      | some (isOpOk, msg) => writeSockFunc sv.clientFd isOpOk msg t env.replies
    else some { reply := none, thread := t, rest := env.replies }

/-- One turn of the inner loop of `read_sock_func`.  A command for the database
does not write to the client; `write_db` is not embedded. -/
def executeCommand (nbytes : Nat) (c : ParsedCommand) (t : Thread) (env : CommandEnv) :
    Option WriteSock :=
  if c.is2Pipe then sv.writePipeOrSock c.needRsp c.cmd (min c.cmd.length nbytes) t env
  else some { reply := none, thread := t, rest := env.replies }

/-- The inner loop of `read_sock_func` over the commands of a message of
`nbytes` bytes: what each of them wrote to the client. -/
def executeCommands (nbytes : Nat) : List ParsedCommand → Thread → List CommandEnv →
    Option (List (Option (List UInt8 × Int)) × Thread)
  | [], t, _ => some ([], t)
  | _ :: _, _, [] => none
  | c :: cmds, t, env :: envs =>
    match sv.executeCommand nbytes c t env with
    | none => none
    | some w =>
      (executeCommands nbytes cmds w.thread envs).map fun (replies, t) => (w.reply :: replies, t)

end Service

/-! ## When the request is sent -/

/-- The probe of the round says that the peer has closed. -/
def Round.Closed (r : Round) : Prop := isSockClosedByPeer 1 r.probe = true

/-- The `write` of the round ends the write loop, or makes it reconnect in
vain. -/
def Round.WriteFails (r : Round) : Prop :=
  match r.write with
  | .ok nwritten => nwritten = 0
  | .error .eintr => False
  | .error .epipe => r.again.connects = false
  | .error _ => True

/-- The results of a round end the write loop before everything is written. -/
def Round.Fails (r : Round) : Prop :=
  (r.Closed ∧ r.reset.connects = false) ∨ r.WriteFails

/-- How a turn goes on: the call fails, or the loop continues on a descriptor
that is not zero. -/
def Turn.Goes (fails : Prop) : Turn → Prop
  | .stop ret _ => fails ∧ ret < 0
  | .next fd _ _ => ¬ fails ∧ fd ≠ 0

theorem writenFdWrite_goes {fd : Nat} (hfd : fd ≠ 0) {ptr : List UInt8} {t : Thread} {r : Round}
    {turn : Turn} (h : writenFdWrite fd ptr t r = some turn) : turn.Goes r.WriteFails := by
  unfold writenFdWrite at h
  unfold Round.WriteFails
  split at h
  · rename_i hwrite
    obtain rfl := Option.some.inj h
    rw [hwrite]
    exact ⟨rfl, by decide⟩
  · rename_i nwritten hne hwrite
    split at h
    · obtain rfl := Option.some.inj h
      rw [hwrite]
      exact ⟨hne, hfd⟩
    · exact absurd h (by simp)
  · rename_i hwrite
    obtain rfl := Option.some.inj h
    rw [hwrite]
    exact ⟨id, hfd⟩
  · rename_i hwrite
    rw [hwrite]
    cases hconnects : r.again.connects with
    | true =>
      obtain ⟨fd', hreset⟩ := reset_of_connects hconnects t
      rw [hreset] at h
      obtain rfl := Option.some.inj h
      exact ⟨by simp, Nat.succ_ne_zero fd'⟩
    | false =>
      obtain ⟨opens, hreset⟩ := reset_of_not_connects hconnects t
      rw [hreset] at h
      obtain rfl := Option.some.inj h
      exact ⟨rfl, by decide⟩
  · rename_i e heintr hepipe hwrite
    obtain rfl := Option.some.inj h
    rw [hwrite]
    cases e with
    | eintr => exact absurd rfl heintr
    | epipe => exact absurd rfl hepipe
    | eagain | other => exact ⟨trivial, by decide⟩

/-- A turn ends the loop exactly when its round fails. -/
theorem writenFdTurn_goes {fd : Nat} (hfd : fd ≠ 0) {ptr : List UInt8} {t : Thread} {r : Round}
    {turn : Turn} (h : writenFdTurn fd ptr t r = some turn) : turn.Goes r.Fails := by
  have hprobe : isSockClosedByPeer fd r.probe = isSockClosedByPeer 1 r.probe := by
    simp [isSockClosedByPeer, hfd]
  unfold writenFdTurn at h
  rw [hprobe] at h
  unfold Round.Fails Round.Closed
  split at h
  · rename_i hclosed
    cases hconnects : r.reset.connects with
    | true =>
      obtain ⟨fd', hreset⟩ := reset_of_connects hconnects t
      rw [hreset] at h
      simpa using writenFdWrite_goes (Nat.succ_ne_zero fd') h
    | false =>
      obtain ⟨opens, hreset⟩ := reset_of_not_connects hconnects t
      rw [hreset] at h
      obtain rfl := Option.some.inj h
      exact ⟨Or.inl ⟨hclosed, rfl⟩, by decide⟩
  · rename_i hopen
    simpa [hopen] using writenFdWrite_goes hfd h

/-- A call of the write loop that used all its rounds succeeded exactly when none
of them failed. -/
theorem writenFdLoop_succeeds_iff {pfd n : Nat} (hn : 0 < n) (rounds : List Round) :
    ∀ {fd : Nat} {ptr : List UInt8} {t : Thread} {out : WritenFd}, fd ≠ 0 →
      writenFdLoop pfd n fd ptr t rounds = some out → out.rest = [] →
      ((0 < out.ret ∧ out.pfd ≠ 0) ∧ ∀ r ∈ rounds, ¬ r.Fails) ∨
        (out.ret ≤ 0 ∧ ∃ r ∈ rounds, r.Fails) := by
  induction rounds with
  | nil =>
    intro fd ptr t out hfd h hused
    cases ptr with
    | nil =>
      obtain rfl := Option.some.inj h
      exact Or.inl ⟨⟨by show (0 : Int) < n; omega, hfd⟩, by simp⟩
    | cons b ptr => exact absurd h (by simp [writenFdLoop])
  | cons r rounds ih =>
    intro fd ptr t out hfd h hused
    cases ptr with
    | nil =>
      obtain rfl := Option.some.inj h
      exact absurd hused (by simp)
    | cons b ptr =>
      rw [writenFdLoop] at h
      cases hturn : writenFdTurn fd (b :: ptr) t r with
      | none => rw [hturn] at h; exact absurd h (by simp)
      | some turn =>
        rw [hturn] at h
        have hgoes := writenFdTurn_goes hfd hturn
        cases turn with
        | stop ret t' =>
          obtain ⟨hfails, hneg⟩ := hgoes
          obtain rfl := Option.some.inj h
          exact Or.inr ⟨by show ret ≤ 0; omega, r, List.mem_cons_self, hfails⟩
        | next fd' ptr' t' =>
          obtain ⟨hfails, hfd'⟩ := hgoes
          rcases ih hfd' h hused with ⟨hret, hrounds⟩ | ⟨hret, r', hr', hfails'⟩
          · exact Or.inl ⟨hret, List.forall_mem_cons.mpr ⟨hfails, hrounds⟩⟩
          · exact Or.inr ⟨hret, r', List.mem_cons_of_mem _ hr', hfails'⟩

/-! ## When an answer is read -/

/-- What a turn does to the total: it counts the read and goes on behind a full
one, or drops it and stops. -/
theorem readnFdTurn_total {nData : Nat} {st st' : ReadnFdState} {r : ReadResult} {more : Bool}
    (h : readnFdTurn nData st r = some (st', more)) :
    (st'.totalByte = st.totalByte + r.count ∧ sizeT (st.totalByte + r.count) < nData ∧
        (more = true → r.count = maxBufSize)) ∨
      (st'.totalByte = st.totalByte ∧ ¬ sizeT (st.totalByte + r.count) < nData ∧ more = false) := by
  unfold readnFdTurn at h
  split at h
  · exact absurd h (by simp)
  · dsimp only at h
    split at h
    · rename_i hroom
      left
      simp only [Option.bind_eq_bind, Option.bind_eq_some_iff, Option.pure_def,
        Option.some.injEq, Prod.mk.injEq] at h
      obtain ⟨text, -, szData, -, rfl, rfl⟩ := h
      exact ⟨rfl, hroom, fun hmore => by simpa using hmore⟩
    · rename_i hroom
      right
      simp only [Option.pure_def, Option.some.injEq, Prod.mk.injEq] at h
      obtain ⟨rfl, rfl⟩ := h
      exact ⟨by simp, hroom, rfl⟩

theorem readnFdTurn_count_le {nData : Nat} {st : ReadnFdState} {r : ReadResult}
    {out : ReadnFdState × Bool} (h : readnFdTurn nData st r = some out) :
    r.count ≤ maxBufSize := by
  by_contra hlarge
  rw [readnFdTurn, if_pos (by omega)] at h
  exact absurd h (by simp)

/-- A positive count comes from a read that brought something. -/
theorem ReadResult.eq_ok_of_count_pos {r : ReadResult} (h : 0 < r.count) :
    ∃ b bytes, r = .ok (b :: bytes) := by
  cases r with
  | error e => exact absurd h (by show ¬ (0 : Int) < -1; decide)
  | ok bytes =>
    cases bytes with
    | nil => exact absurd h (Int.lt_irrefl 0)
    | cons b bytes => exact ⟨b, bytes, rfl⟩

/-- Once a read has filled the chunk buffer, the total stays positive. -/
theorem readnFdLoop_total_pos {nData : Nat} (reads : List ReadResult) :
    ∀ {st st' : ReadnFdState} {rest : List ReadResult}, (maxBufSize : Int) ≤ st.totalByte →
      readnFdLoop nData st reads = some (st', rest) → 0 < st'.totalByte := by
  have hmax : maxBufSize = 1024 := rfl
  induction reads with
  | nil => intro st st' rest _ h; exact absurd h (by simp [readnFdLoop])
  | cons r reads ih =>
    intro st st' rest htotal h
    have hcount := r.neg_one_le_count
    rw [readnFdLoop] at h
    cases hturn : readnFdTurn nData st r with
    | none => rw [hturn] at h; exact absurd h (by simp)
    | some out =>
      obtain ⟨st₁, more⟩ := out
      rw [hturn] at h
      have htotals := readnFdTurn_total hturn
      cases more with
      | true =>
        apply ih ?_ h
        rcases htotals with ⟨hst₁, -, hfull⟩ | ⟨-, -, hno⟩
        · have := hfull rfl
          omega
        · exact absurd hno (by simp)
      | false =>
        obtain ⟨rfl, rfl⟩ : st₁ = st' ∧ reads = rest := by simpa using h
        rcases htotals with ⟨hst₁, -, -⟩ | ⟨hst₁, -, -⟩ <;> omega

/-- The environment delivers an answer: `select` reports data and the first read
brings some. -/
def CommandEnv.Answers (env : CommandEnv) : Prop :=
  0 < env.retval ∧ ∃ b bytes more, env.reads = .ok (b :: bytes) :: more

/-- `readn_fd` returns a positive number exactly when there is an answer. -/
theorem readnFd_ret_pos_iff {fdRead : Nat} (hfd : fdRead ≠ 0) {szData : List UInt8}
    {env : CommandEnv} {r : ReadnFd}
    (h : readnFd fdRead szData answerBufSize env.retval env.reads = some r) :
    0 < r.ret ↔ env.Answers := by
  have hmax : maxBufSize = 1024 := rfl
  have hbuf : answerBufSize = 4096 := rfl
  by_cases hready : env.retval > 0
  · rw [readnFd_ready hfd szData hready] at h
    obtain ⟨⟨st, rest⟩, hloop, rfl⟩ := Option.map_eq_some_iff.mp h
    unfold CommandEnv.Answers
    cases hreads : env.reads with
    | nil => rw [hreads] at hloop; exact absurd hloop (by simp [readnFdLoop])
    | cons first reads =>
      rw [hreads, readnFdLoop] at hloop
      cases hturn : readnFdTurn answerBufSize (readnFdStart answerBufSize) first with
      | none => rw [hturn] at hloop; exact absurd hloop (by simp)
      | some out =>
        obtain ⟨st₁, more⟩ := out
        rw [hturn] at hloop
        have hzero : (readnFdStart answerBufSize).totalByte = 0 := rfl
        have htotals := readnFdTurn_total hturn
        rw [hzero, Int.zero_add] at htotals
        have hstop : more = false → st₁ = st := by
          rintro rfl
          exact (by simpa using hloop : st₁ = st ∧ reads = rest).1
        by_cases hpos : 0 < first.count
        · have hle := readnFdTurn_count_le hturn
          have hroom : sizeT first.count < answerBufSize := by
            rw [sizeT_of_nonneg (by omega) (by omega)]
            omega
          obtain ⟨htotal, -, hfull⟩ := htotals.resolve_right fun h => h.2.1 hroom
          obtain ⟨b, bytes, hfirst⟩ := ReadResult.eq_ok_of_count_pos hpos
          have hans : ∃ b bytes more, first :: reads = .ok (b :: bytes) :: more :=
            ⟨b, bytes, reads, by rw [hfirst]⟩
          refine ⟨fun _ => ⟨hready, hans⟩, fun _ => ?_⟩
          show 0 < st.totalByte
          cases more with
          | false => rw [← hstop rfl]; omega
          | true => exact readnFdLoop_total_pos reads (by have := hfull rfl; omega) hloop
        · -- Nothing was read: the total is zero, and there is no second turn.
          have hnone : more = false ∧ st₁.totalByte ≤ 0 := by
            rcases htotals with ⟨htotal, -, hfull⟩ | ⟨htotal, -, hmore⟩
            · refine ⟨?_, by omega⟩
              rw [← Bool.not_eq_true]
              intro hmore
              have := hfull hmore
              omega
            · exact ⟨hmore, by omega⟩
          have hret : ¬ 0 < st.totalByte := by
            rw [← hstop hnone.1]
            omega
          refine ⟨fun h => absurd h hret, ?_⟩
          rintro ⟨-, b, bytes, later, heq⟩
          obtain ⟨rfl, -⟩ := List.cons.inj heq
          refine absurd ?_ hpos
          show (0 : Int) < ((b :: bytes).length : Int)
          rw [List.length_cons]
          omega
  · have hret : r.ret = 0 := by
      unfold readnFd at h
      rw [if_neg hfd] at h
      dsimp only at h
      rw [if_neg hready] at h
      obtain rfl := Option.some.inj h
      rfl
    rw [hret]
    exact ⟨fun hpos => absurd hpos (by decide), fun hans => absurd hans.1 (by omega)⟩

/-- `readn_fd` does not depend on the descriptor, as long as there is one, nor on
what was in the buffer. -/
theorem readnFd_eq {fdRead : Nat} (hfd : fdRead ≠ 0) (szData : List UInt8) (nData : Nat)
    (retval : Int) (reads : List ReadResult) :
    readnFd fdRead szData nData retval reads = readnFd 1 [] nData retval reads := by
  simp only [readnFd, hfd, Nat.one_ne_zero, if_false]

/-! ## How the exchange ends -/

namespace Service

variable (sv : Service)

/-- The request for a command is written: there is a connection or one is made,
there is a request, and no round of the write loop fails. -/
def Sends (cmd : List UInt8) (size : Nat) (t : Thread) (env : CommandEnv) : Prop :=
  (t.td ≠ 0 ∨ env.connect.connects = true) ∧
    makeSoapRequest sv.requestAuth cmd size ≠ some [] ∧ ∀ r ∈ env.sends, ¬ r.Fails

section

variable {cmd : List UInt8} {size : Nat} {t : Thread} {env : CommandEnv}

/-- There is a socket exactly where there is a connection or one is made. -/
theorem makeSoapSocket_connected {fd : Nat} {t₁ : Thread}
    (hmake : makeSoapSocket t env.connect = (fd + 1, t₁)) :
    t.td ≠ 0 ∨ env.connect.connects = true := by
  by_contra hnot
  rw [not_or, not_not, Bool.not_eq_true, ← makeSoapSocket_eq_zero_iff, hmake] at hnot
  exact absurd hnot (Nat.succ_ne_zero fd)

theorem makeSoapSocket_unconnected {t₁ : Thread}
    (hmake : makeSoapSocket t env.connect = (0, t₁)) :
    ¬ (t.td ≠ 0 ∨ env.connect.connects = true) := by
  rw [not_or, not_not, Bool.not_eq_true, ← makeSoapSocket_eq_zero_iff, hmake]

/-- With a socket and a request, the write loop decides whether the request is
sent. -/
theorem sends_cases {fd : Nat} {t₁ : Thread} {request : List UInt8} {w : WritenFd}
    (hmake : makeSoapSocket t env.connect = (fd + 1, t₁))
    (hrequest : makeSoapRequest sv.requestAuth cmd size = some request)
    (hw : writenFd (fd + 1) request t₁ env.sends = some w) (hrest : w.rest = []) :
    (w.ret ≤ 0 ∧ ¬ sv.Sends cmd size t env) ∨
      (0 < w.ret ∧ w.pfd ≠ 0 ∧ sv.Sends cmd size t env) := by
  unfold Sends
  rw [hrequest]
  cases request with
  | nil =>
    have hret : w.ret = 0 := by
      cases hsends : env.sends with
      | nil => rw [hsends] at hw; obtain rfl := Option.some.inj hw; rfl
      | cons r rounds => rw [hsends] at hw; obtain rfl := Option.some.inj hw; rfl
    exact Or.inl ⟨by omega, fun hsends => hsends.2.1 rfl⟩
  | cons b ptr =>
    rcases writenFdLoop_succeeds_iff (by simp) env.sends (Nat.succ_ne_zero fd) hw hrest with
      ⟨⟨hret, hpfd⟩, hrounds⟩ | ⟨hret, r, hr, hfails⟩
    · exact Or.inr ⟨hret, hpfd, makeSoapSocket_connected hmake, by simp, hrounds⟩
    · exact Or.inl ⟨hret, fun hsends => hsends.2.2 r hr hfails⟩

/-- The exchange fails exactly when the request is not sent. -/
theorem exchange_cases {t' : Thread} {x : Exchange}
    (h : sv.exchange cmd size t env = some (x, t')) :
    (x = .failed ∧ ¬ sv.Sends cmd size t env) ∨
      (sv.Sends cmd size t env ∧ ∃ r,
        readnFd 1 [] answerBufSize env.retval env.reads = some r ∧ x = .answer r.ret r.szData) := by
  unfold exchange at h
  split at h
  · rename_i t₁ hmake
    left
    simp only [Option.some.injEq, Prod.mk.injEq] at h
    exact ⟨h.1.symm, fun hsends => makeSoapSocket_unconnected hmake hsends.1⟩
  · rename_i fd t₁ hmake
    split at h
    · exact absurd h (by simp)
    · rename_i request hrequest
      split at h
      · exact absurd h (by simp)
      · rename_i w hw
        split at h
        · exact absurd h (by simp)
        · rename_i hrest
          have hrest : w.rest = [] := List.eq_nil_of_length_eq_zero (by omega)
          rcases sv.sends_cases hmake hrequest hw hrest with
            ⟨hret, hsends⟩ | ⟨hret, hpfd, hsends⟩
          · rw [if_pos hret] at h
            simp only [Option.some.injEq, Prod.mk.injEq] at h
            exact Or.inl ⟨h.1.symm, hsends⟩
          · rw [if_neg (by omega)] at h
            obtain ⟨r, hread, hout⟩ := Option.map_eq_some_iff.mp h
            rw [readnFd_eq hpfd] at hread
            simp only [Prod.mk.injEq] at hout
            exact Or.inr ⟨hsends, r, hread, hout.1.symm⟩

end

end Service

end WowProxy
