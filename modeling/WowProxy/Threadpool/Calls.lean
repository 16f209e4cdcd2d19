/-
  Threadpool/Calls.lean --- the steps of a worker on one command are a call of
  `write_pipe_or_sock`.

  The machine of `Threadpool.Backend` takes the function apart so that the server
  can answer between any two of its system calls.  Whatever the server and the
  network do in between, the steps from one command to the next are a call of the
  function in some environment, with the same reply and the same connection.
-/
import WowProxy.Threadpool.Backend

set_option autoImplicit false

namespace WowProxy

open WowProxy.Lib.Runs

/-- What a call leaves behind for the client and for the next call. -/
structure Outcome where
  /-- the frame handed to the write loop of the client -/
  reply : Option (List UInt8)
  /-- `_td_sock_id` -/
  td : Nat

def WriteSock.outcome (w : WriteSock) : Outcome := ⟨w.reply.map Prod.fst, w.thread.td⟩

/-- The outcome of a reply depends on the connection of the thread alone. -/
theorem writeSockFunc_outcome {clientFd : Nat} {isOpOk : Bool} {msg : List UInt8} {t : Thread}
    {rounds : List Round} {w : WriteSock}
    (h : writeSockFunc clientFd isOpOk msg ⟨t.td, []⟩ rounds = some w) :
    ∃ w', writeSockFunc clientFd isOpOk msg t rounds = some w' ∧ w'.outcome = w.outcome := by
  have hafter := writeSockFunc_after clientFd isOpOk msg ⟨t.td, []⟩ t.io rounds
  rw [h, show Thread.after ⟨t.td, []⟩ t.io = t by rw [Thread.after, List.append_nil]] at hafter
  exact ⟨_, hafter, rfl⟩

namespace Backend

/-- The step is not the beginning of a command. -/
def Label.Continues : Label → Prop
  | .command _ _ => False
  | _ => True

namespace Worker

variable (sv : Service)

/-! ## What is left of a call -/

/-- The rest of `write_pipe_or_sock` behind `readn_fd`. -/
def restAnswer (c : Call) (nbytes : Int) (szBuf : List UInt8) (td : Nat) (env : CommandEnv) :
    Option WriteSock :=
  if c.resp ∧ nbytes > 0 then
    match sv.answerReply nbytes szBuf with
    | none => none
    | some (isOpOk, msg) => writeSockFunc c.clientFd isOpOk msg ⟨td, []⟩ env.replies
  else some { reply := none, thread := ⟨td, []⟩, rest := env.replies }

/-- The rest inside the loop of `readn_fd`. -/
def restReading (c : Call) (st : ReadnFdState) (td : Nat) (env : CommandEnv) : Option WriteSock :=
  match readnFdLoop answerBufSize st env.reads with
  | none => none
  | some (st', _) => restAnswer sv c st'.totalByte st'.szData td env

/-- The rest in front of `select`. -/
def restWaiting (c : Call) (td : Nat) (env : CommandEnv) : Option WriteSock :=
  if env.retval > 0 then restReading sv c (readnFdStart answerBufSize) td env
  else restAnswer sv c 0 (readnFdStart answerBufSize).szData td env

/-- The rest behind the write loop. -/
def restWritten (c : Call) (o : WritenFd) (env : CommandEnv) : Option WriteSock :=
  if o.ret ≤ 0 then writeSockFunc c.clientFd false errorMsg1 ⟨o.thread.td, []⟩ env.replies
  else restWaiting sv c o.thread.td env

/-- From where the worker is, the call has the outcome `out` in `env`. -/
def Returns (env : CommandEnv) (out : Outcome) (td : Nat) : Pc → Prop
  | .idle => out = ⟨none, td⟩
  | .replying _ c _ isOpOk msg =>
    (writeSockFunc c.clientFd isOpOk msg ⟨td, []⟩ env.replies).map WriteSock.outcome = some out
  | .reading _ c st => (restReading sv c st td env).map WriteSock.outcome = some out
  | .waiting _ c => (restWaiting sv c td env).map WriteSock.outcome = some out
  | .writing _ c fd ptr => fd ≠ 0 → ptr ≠ [] → ∀ pfd n, 0 < n → ∃ o,
      writenFdLoop pfd n fd ptr ⟨td, []⟩ env.sends = some o ∧ o.rest = [] ∧
        (0 < o.ret → o.pfd ≠ 0) ∧ (restWritten sv c o env).map WriteSock.outcome = some out

/-- The worker goes on to `w'` as the call does in some environment. -/
def Finishes (w w' : Worker) : Prop :=
  ∃ env out, Returns sv env out w.td w.pc ∧ w'.td = out.td ∧
    w'.replies.map Reply.frame = w.replies.map Reply.frame ++ out.reply.toList

section Steps

variable {sv} {w w' w₁ : Worker}

/-- A step that replies nothing, and behind which some environment does what it did
before. -/
theorem Finishes.silent (h : w₁.Finishes sv w') (hreplies : w₁.replies = w.replies)
    (hreturns : ∀ env out, Returns sv env out w₁.td w₁.pc → ∃ env, Returns sv env out w.td w.pc) :
    w.Finishes sv w' := by
  obtain ⟨env, out, hout, hfinal, hframes⟩ := h
  obtain ⟨env', hout'⟩ := hreturns env out hout
  exact ⟨env', out, hout', hfinal, hreplies ▸ hframes⟩

/-- A turn of the write loop that goes on. -/
theorem writenFdLoop_next {pfd n fd : Nat} {b : UInt8} {ptr : List UInt8} {td : Nat} {r : Round}
    {rounds : List Round} {fd' : Nat} {ptr' : List UInt8} {t : Thread}
    (hturn : writenFdTurn fd (b :: ptr) ⟨td, []⟩ r = some (.next fd' ptr' t)) :
    writenFdLoop pfd n fd (b :: ptr) ⟨td, []⟩ (r :: rounds) =
      (writenFdLoop pfd n fd' ptr' ⟨t.td, []⟩ rounds).map fun w =>
        { w with thread := w.thread.after t.io } := by
  rw [writenFdLoop, hturn, ← writenFdLoop_after, Thread.after, List.append_nil]

theorem Finishes.write {k : Nat} {c : Call} {fd : Nat} {ptr : List UInt8} {r : Round}
    (hpc : w.pc = .writing k c fd ptr) (hstep : w.write k c fd ptr r = some w₁)
    (h : w₁.Finishes sv w') : w.Finishes sv w' := by
  unfold Worker.write at hstep
  split at hstep
  · split at hstep
    · exact absurd hstep (by simp)
    · rename_i ret t hturn
      obtain rfl := Option.some.inj hstep
      refine h.silent rfl fun env out hreturns => ⟨{ env with sends := [r] }, ?_⟩
      rw [hpc]
      intro hfd hptr pfd n hn
      obtain ⟨b, ptr, rfl⟩ := List.exists_cons_of_ne_nil hptr
      have hneg : ret < 0 := (writenFdTurn_goes hfd hturn).2
      refine ⟨_, by rw [writenFdLoop, hturn], rfl, fun hpos => absurd hpos (by simp; omega), ?_⟩
      unfold restWritten
      rw [if_pos (by simp; omega)]
      exact hreturns
    · rename_i fd' t hturn
      obtain rfl := Option.some.inj hstep
      refine h.silent rfl fun env out hreturns => ⟨{ env with sends := [r] }, ?_⟩
      rw [hpc]
      intro hfd hptr pfd n hn
      obtain ⟨b, ptr, rfl⟩ := List.exists_cons_of_ne_nil hptr
      have hfd' : fd' ≠ 0 := (writenFdTurn_goes hfd hturn).2
      refine ⟨_, by rw [writenFdLoop, hturn]; rfl, rfl, fun _ => hfd', ?_⟩
      unfold restWritten
      rw [if_neg (by simp; omega)]
      exact hreturns
    · rename_i fd' b' ptr' t hturn
      obtain rfl := Option.some.inj hstep
      refine h.silent rfl fun env out hreturns => ⟨{ env with sends := r :: env.sends }, ?_⟩
      rw [hpc]
      intro hfd hptr pfd n hn
      obtain ⟨b, ptr, rfl⟩ := List.exists_cons_of_ne_nil hptr
      have hfd' : fd' ≠ 0 := (writenFdTurn_goes hfd hturn).2
      obtain ⟨o, ho, hrest, hpfd, hout⟩ := hreturns hfd' (List.cons_ne_nil b' ptr') pfd n hn
      refine ⟨{ o with thread := o.thread.after t.io }, ?_, hrest, hpfd, hout⟩
      have ho : writenFdLoop pfd n fd' (b' :: ptr') ⟨t.td, []⟩ env.sends = some o := ho
      rw [writenFdLoop_next hturn, ho, Option.map_some]
  · exact absurd hstep (by simp)

theorem Finishes.select {k : Nat} {c : Call} {retval : Int} (hpc : w.pc = .waiting k c)
    (hstep : w.select k c retval = some w₁) (h : w₁.Finishes sv w') : w.Finishes sv w' := by
  unfold Worker.select at hstep
  split at hstep
  · rename_i hready
    obtain rfl := Option.some.inj hstep
    refine h.silent rfl fun env out hreturns => ⟨{ env with retval }, ?_⟩
    rw [hpc]
    show (restWaiting sv c w.td _).map _ = _
    rw [restWaiting, if_pos hready]
    exact hreturns
  · rename_i hready
    split at hstep
    · exact absurd hstep (by simp)
    · obtain rfl := Option.some.inj hstep
      refine h.silent rfl fun env out hreturns => ⟨{ env with retval }, ?_⟩
      rw [hpc]
      show (restWaiting sv c w.td _).map _ = _
      rw [restWaiting, if_neg hready, restAnswer, if_neg (by simp)]
      rw [show out = ⟨none, w.td⟩ from hreturns]
      rfl

theorem Finishes.turn {k : Nat} {c : Call} {st : ReadnFdState} {r : ReadResult} (link : Link)
    (hpc : w.pc = .reading k c st) (hstep : { w with link }.turn sv k c st r = some w₁)
    (h : w₁.Finishes sv w') : w.Finishes sv w' := by
  unfold Worker.turn at hstep
  split at hstep
  · exact absurd hstep (by simp)
  · rename_i st' hturn
    obtain rfl := Option.some.inj hstep
    refine h.silent rfl fun env out hreturns => ⟨{ env with reads := r :: env.reads }, ?_⟩
    rw [hpc]
    show (restReading sv c st w.td _).map _ = _
    rw [restReading, readnFdLoop, hturn]
    exact hreturns
  · rename_i st' hturn
    have hrest (env : CommandEnv) : restReading sv c st w.td { env with reads := [r] } =
        restAnswer sv c st'.totalByte st'.szData w.td { env with reads := [r] } := by
      rw [restReading, readnFdLoop, hturn]
    unfold afterRead at hstep
    split at hstep
    · rename_i hpos
      obtain ⟨⟨isOpOk, msg⟩, hreply, rfl⟩ := Option.map_eq_some_iff.mp hstep
      refine h.silent rfl fun env out hreturns => ⟨{ env with reads := [r] }, ?_⟩
      rw [hpc]
      show (restReading sv c st w.td _).map _ = _
      rw [hrest, restAnswer, if_pos hpos, hreply]
      exact hreturns
    · rename_i hpos
      obtain rfl := Option.some.inj hstep
      refine h.silent rfl fun env out hreturns => ⟨{ env with reads := [r] }, ?_⟩
      rw [hpc]
      show (restReading sv c st w.td _).map _ = _
      rw [hrest, restAnswer, if_neg hpos, show out = ⟨none, w.td⟩ from hreturns]
      rfl

theorem Finishes.reply {k : Nat} {c : Call} {answer isOpOk : Bool} {msg : List UInt8}
    {rounds : List Round} (hpc : w.pc = .replying k c answer isOpOk msg)
    (hstep : w.reply k c answer isOpOk msg rounds = some w₁) (h : w₁.Finishes sv w') :
    w.Finishes sv w' := by
  obtain ⟨sent, hsent, rfl⟩ := Option.map_eq_some_iff.mp hstep
  obtain ⟨env, out, hreturns, hfinal, hframes⟩ := h
  obtain rfl : out = ⟨none, sent.thread.td⟩ := hreturns
  refine ⟨{ env with replies := rounds }, sent.outcome, ?_, hfinal, ?_⟩
  · rw [hpc]
    show (writeSockFunc c.clientFd isOpOk msg ⟨w.td, []⟩ rounds).map _ = _
    rw [hsent, Option.map_some]
  · rw [hframes, WriteSock.outcome]
    cases sent.reply with
    | none => simp [behind]
    | some reply => simp [behind]

theorem Finishes.step {a : Label} (ha : a.Continues) (hstep : w.step sv a = some w₁)
    (h : w₁.Finishes sv w') : w.Finishes sv w' := by
  cases took_of_step hstep with
  | command => exact absurd ha id
  | write hpc hwrite => exact h.write hpc hwrite
  | select hpc hselect => exact h.select hpc hselect
  | read hpc hturn => exact h.turn _ hpc hturn
  | readFails hpc hturn => exact h.turn w.link hpc hturn
  | reply hpc hreply => exact h.reply hpc hreply
  | answer | deliver | close =>
    -- The server and the network leave the thread where it is.
    exact h.silent rfl fun env out hreturns => ⟨env, hreturns⟩

/-- A run up to the end of the command. -/
theorem finishes_of_run {labels : List Label} :
    ∀ {w : Worker}, (∀ a ∈ labels, a.Continues) → run (Worker.step sv) w labels = some w' →
      w'.pc = .idle → w.Finishes sv w' := by
  induction labels with
  | nil =>
    intro w _ hrun hdone
    obtain rfl := Option.some.inj hrun
    refine ⟨⟨⟨.error .eintr, fun _ => false, fun _ => false⟩, [], 0, [], []⟩, ⟨none, w.td⟩, ?_, rfl,
      (List.append_nil _).symm⟩
    rw [hdone]
    rfl
  | cons a labels ih =>
    intro w hcont hrun hdone
    obtain ⟨w₁, hstep, hrest⟩ := run_cons_eq_some hrun
    obtain ⟨ha, hlabels⟩ := List.forall_mem_cons.mp hcont
    exact (ih hlabels hrest hdone).step ha hstep

/-- The rest in front of `select` is `readn_fd` and the rest behind it. -/
theorem restWaiting_eq {c : Call} {td fd : Nat} (hfd : fd ≠ 0) (szData : List UInt8)
    {env : CommandEnv} {w : WriteSock} (h : restWaiting sv c td env = some w) :
    ∃ r, readnFd fd szData answerBufSize env.retval env.reads = some r ∧
      restAnswer sv c r.ret r.szData td env = some w := by
  unfold restWaiting at h
  unfold readnFd
  rw [if_neg hfd]
  dsimp only
  split at h
  · rename_i hready
    rw [if_pos hready]
    unfold restReading at h
    split at h
    · exact absurd h (by simp)
    · rename_i st' rest hloop
      rw [hloop]
      exact ⟨_, rfl, h⟩
  · rename_i hready
    rw [if_neg hready]
    exact ⟨_, rfl, h⟩

/-- The rest behind the write loop, put together with the call in front of it. -/
theorem writePipeOrSock_of_restWritten {c : Call} {td fd : Nat} {t : Thread} {request : List UInt8}
    {env : CommandEnv} {o : WritenFd} {out : Outcome}
    (hmake : makeSoapSocket ⟨td, []⟩ env.connect = (fd + 1, t))
    (hrequest : makeSoapRequest sv.requestAuth c.cmd c.size = some request)
    (hsends : writenFd (fd + 1) request ⟨t.td, []⟩ env.sends = some o)
    (hrest : o.rest = []) (hpfd : 0 < o.ret → o.pfd ≠ 0)
    (hout : (restWritten sv c o env).map WriteSock.outcome = some out) :
    ∃ w, Service.writePipeOrSock { sv with clientFd := c.clientFd } c.resp c.cmd c.size ⟨td, []⟩
      env = some w ∧ w.outcome = out := by
  have hwriten : writenFd (fd + 1) request t env.sends =
      some { o with thread := o.thread.after t.io } := by
    have hafter := writenFdLoop_after (fd + 1) request.length t.io env.sends (fd + 1) request
      ⟨t.td, []⟩
    rw [Thread.after, List.append_nil] at hafter
    unfold writenFd at hsends ⊢
    rw [hafter, hsends, Option.map_some]
  obtain ⟨w, hw, rfl⟩ := Option.map_eq_some_iff.mp hout
  unfold Service.writePipeOrSock Service.exchange
  simp only [hmake, hrequest, hwriten, hrest, List.length_nil, Nat.lt_irrefl, if_false, gt_iff_lt]
  unfold restWritten at hw
  by_cases hret : o.ret ≤ 0
  · rw [if_pos hret] at hw
    simp only [hret, if_true]
    exact writeSockFunc_outcome (t := o.thread.after t.io) hw
  · rw [if_neg hret] at hw
    obtain ⟨r, hread, hanswer⟩ := restWaiting_eq (hpfd (by omega)) request hw
    simp only [hret, if_false, hread, Option.map_some]
    unfold restAnswer at hanswer
    split at hanswer
    · rename_i hpos
      have hreply : Service.answerReply { sv with clientFd := c.clientFd } r.ret r.szData =
          sv.answerReply r.ret r.szData := rfl
      split at hanswer
      · exact absurd hanswer (by simp)
      · rename_i isOpOk msg hmsg
        rw [if_pos hpos, hreply, hmsg]
        exact writeSockFunc_outcome (t := o.thread.after t.io) hanswer
    · rename_i hpos
      rw [if_neg hpos]
      obtain rfl := Option.some.inj hanswer
      exact ⟨_, rfl, rfl⟩

/-- The steps behind a command are the rest of a call. -/
theorem writePipeOrSock_of_command {c : Call} {connect : Attempt} {env : CommandEnv} {out : Outcome}
    (hstep : w.command sv c connect = some w₁) (hreturns : Returns sv env out w₁.td w₁.pc) :
    w₁.replies = w.replies ∧ ∃ env call,
      Service.writePipeOrSock { sv with clientFd := c.clientFd } c.resp c.cmd c.size ⟨w.td, []⟩
        env = some call ∧ call.outcome = out := by
  unfold Worker.command at hstep
  dsimp only at hstep
  split at hstep
  · rename_i t hmake
    obtain rfl := Option.some.inj hstep
    obtain ⟨call, hcall, rfl⟩ := Option.map_eq_some_iff.mp hreturns
    obtain ⟨call', hcall', hout⟩ := writeSockFunc_outcome (t := t) hcall
    refine ⟨rfl, { env with connect }, call', ?_, hout⟩
    unfold Service.writePipeOrSock Service.exchange
    simp only [hmake]
    exact hcall'
  · rename_i fd t hmake
    split at hstep
    · exact absurd hstep (by simp)
    · -- Nothing is written of a request without bytes, and `writen_fd` returns zero.
      rename_i hrequest
      obtain rfl := Option.some.inj hstep
      refine ⟨rfl, { env with connect, sends := [] }, ?_⟩
      refine writePipeOrSock_of_restWritten hmake hrequest
        (o := { ret := 0, pfd := fd + 1, thread := ⟨t.td, []⟩, rest := [] }) rfl rfl
        (fun hpos => absurd hpos (by simp)) ?_
      exact hreturns
    · rename_i b ptr hrequest
      obtain rfl := Option.some.inj hstep
      obtain ⟨o, hsends, hrest, hpfd, hout⟩ := hreturns (Nat.succ_ne_zero fd)
        (List.cons_ne_nil b ptr) (fd + 1) (b :: ptr).length (by simp)
      exact ⟨rfl, { env with connect },
        writePipeOrSock_of_restWritten hmake hrequest hsends hrest hpfd hout⟩

/-- **The steps of a worker from a command to its end are a call of
`write_pipe_or_sock`, whatever the server and the network do in between.** -/
theorem writePipeOrSock_of_run {c : Call} {connect : Attempt} {labels : List Label}
    (hcont : ∀ a ∈ labels, a.Continues)
    (hrun : run (Worker.step sv) w (.command c connect :: labels) = some w')
    (hdone : w'.pc = .idle) :
    ∃ env out,
      Service.writePipeOrSock { sv with clientFd := c.clientFd } c.resp c.cmd c.size ⟨w.td, []⟩
        env = some out ∧ w'.td = out.thread.td ∧
      w'.replies.map Reply.frame =
        w.replies.map Reply.frame ++ (out.reply.map Prod.fst).toList := by
  obtain ⟨w₁, hstep, hrest⟩ := run_cons_eq_some hrun
  obtain ⟨env, out, hreturns, hfinal, hframes⟩ := finishes_of_run hcont hrest hdone
  cases took_of_step hstep with
  | command _ hcommand =>
    obtain ⟨hreplies, env, call, hcall, rfl⟩ := writePipeOrSock_of_command hcommand hreturns
    exact ⟨env, call, hcall, hfinal, hreplies ▸ hframes⟩

end Steps

end Worker

end Backend

end WowProxy
