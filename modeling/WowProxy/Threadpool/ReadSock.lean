/-
  Threadpool/ReadSock.lean --- reading a client socket: `recv_peek`, `readn`,
  `read_normal_sock` and the loop of `read_sock_func` in `aidsock.c`.

  The functions run against a `ClientSock`, which answers `recv` and `read` from
  a state of its own.  Two sockets matter: `arrivedSock`, whose state is the
  receive buffer, and `scriptSock`, whose state is any list of results.  The
  loops take fuel, one unit for each turn: `turns` bounds the loop of `readn` and
  `fuel` that of `read_sock_func`.  Every statement about what a job does either
  holds for all fuel or says how much is enough.
-/
import WowProxy.Threadpool.Message

set_option autoImplicit false

namespace WowProxy

open WowProxy.Lib.CString

/-! ## The socket -/

/-- A client socket as a read job sees it.  A call without a value is one that
has not returned. -/
structure ClientSock (σ : Type) where
  /-- `recv` with `MSG_PEEK` -/
  recv : σ → Nat → Option (ReadResult × σ)
  read : σ → Nat → Option (ReadResult × σ)

/-- The non-blocking socket whose receive buffer holds the given bytes and gets
no more of them. -/
def arrivedSock : ClientSock (List UInt8) where
  recv rx n := some (if rx = [] then .error .eagain else .ok (rx.take n), rx)
  read rx n := some (if rx = [] then .error .eagain else .ok (rx.take n), rx.drop n)

/-- The socket whose successive calls return the listed results. -/
def scriptSock : ClientSock (List ReadResult) where
  recv results _ := match results with
    | [] => none
    | r :: rest => some (r, rest)
  read results _ := match results with
    | [] => none
    | r :: rest => some (r, rest)

section Job

variable {σ : Type} (sock : ClientSock σ)

/-! ## One message -/

/-- The loop of `recv_peek`, with `idx` tries left and `ret` returned last. -/
def recvPeekLoop (len : Nat) : Nat → ReadResult → σ → Option (ReadResult × σ)
  | 0, ret, s => some (ret, s)
  | idx + 1, _, s =>
    match sock.recv s len with
    | none => none
    | some (.error .eintr, s) => recvPeekLoop len idx (.error .eintr) s
    | some (ret, s) => some (ret, s)

/-- `recv_peek`: at most ten tries. -/
def recvPeek (len : Nat) (s : σ) : Option (ReadResult × σ) :=
  recvPeekLoop sock len 10 (.ok []) s

/-- The loop of `readn`, with `nLeft` bytes to go and `got` stored so far: the
returned value, the stored bytes and the socket. -/
def readnLoop : (turns nLeft : Nat) → List UInt8 → σ → Option (Int × List UInt8 × σ)
  | _, 0, got, s => some (got.length, got, s)
  | 0, _ + 1, _, _ => none
  | turns + 1, nLeft + 1, got, s =>
    match sock.read s (nLeft + 1) with
    | none => none
    | some (.error .eintr, s) => readnLoop turns (nLeft + 1) got s
    | some (.error .eagain, s) => some (got.length, got, s)
    | some (.error _, s) => some (-1, got, s)
    | some (.ok [], s) => some (got.length, got, s)
    | some (.ok (b :: bytes), s) =>
      if bytes.length ≤ nLeft then
        readnLoop turns (nLeft - bytes.length) (got ++ b :: bytes) s
      else none

/-- `readn(fd, buf, count)`. -/
def readn (turns count : Nat) (s : σ) : Option (Int × List UInt8 × σ) :=
  readnLoop sock turns count [] s

/-- `read_normal_sock(client_fd, szBuf)`: the returned value, `*szBuf` where it
is set, and the socket. -/
def readNormalSock (turns : Nat) (s : σ) : Option (Int × Option (List UInt8) × σ) :=
  match recvPeek sock headSize s with
  | none => none
  | some (.error _, s) => some (-1, none, s)
  | some (.ok [], s) => some (0, none, s)
  | some (.ok (b :: bytes), s) =>
    if bytes.length < headSize then
      let nLeft := convertHexToInt (padded (b :: bytes) (headSize + 1)) headSize
      if nLeft ≤ 0 then some (-1, none, s)
      else
        let size := nLeft.toNat + headSize
        match readn sock turns size s with
        | none => none
        | some (nRead, got, s) => some (nRead, some (padded got size), s)
    else none

/-! ## The job -/

/-- What `read_sock_func` passes to `analysis_message`. -/
structure Message where
  buf : Option (List UInt8)
  nbytes : Int
  deriving DecidableEq, Repr

/-- What a read job has done when it returns. -/
structure ReadJob (σ : Type) where
  /-- the calls of `analysis_message`, in order -/
  messages : List Message
  /-- the commands it executed, in order -/
  executed : List ParsedCommand
  /-- the socket on return -/
  sock : σ
  deriving DecidableEq

/-- The job after one more message and its commands. -/
def ReadJob.pass (job : ReadJob σ) (m : Message) (cmds : List ParsedCommand) (s : σ) :
    ReadJob σ :=
  { messages := job.messages ++ [m], executed := job.executed ++ cmds, sock := s }

/-- The loop of `read_sock_func`, after the messages and commands in `job`.  The
commands of a message are executed in its turn; they do not touch the reading
side of the socket. -/
def readSockLoop (d : Decoder) (turns : Nat) : Nat → ReadJob σ → Option (ReadJob σ)
  | 0, _ => none
  | fuel + 1, job =>
    match readNormalSock sock turns job.sock with
    | none => none
    | some (nbytes, pszBuf, s) =>
      if nbytes < 0 then some { job with sock := s }
      else
        match analysisMessage d pszBuf nbytes.toNat with
        | none => none
        | some cmds =>
          let job := job.pass ⟨pszBuf, nbytes⟩ cmds s
          if cmds = [] then some job else readSockLoop d turns fuel job

/-- `read_sock_func` on a socket in the state `s`. -/
def readSockFunc (d : Decoder) (turns fuel : Nat) (s : σ) : Option (ReadJob σ) :=
  readSockLoop sock d turns fuel { messages := [], executed := [], sock := s }

/-- What one turn of the loop can do: stop at a failed read, stop behind a
rejected message, or go on behind an accepted one. -/
theorem readSockLoop_cases {d : Decoder} {turns fuel : Nat} {job out : ReadJob σ}
    (h : readSockLoop sock d turns (fuel + 1) job = some out) :
    ∃ m s, readNormalSock sock turns job.sock = some (m.nbytes, m.buf, s) ∧
      ((m.nbytes < 0 ∧ out = { job with sock := s }) ∨
        ∃ cmds, ¬ m.nbytes < 0 ∧ analysisMessage d m.buf m.nbytes.toNat = some cmds ∧
          ((cmds = [] ∧ out = job.pass m cmds s) ∨
            (cmds ≠ [] ∧ readSockLoop sock d turns fuel (job.pass m cmds s) = some out))) := by
  rw [readSockLoop] at h
  cases hread : readNormalSock sock turns job.sock with
  | none => rw [hread] at h; exact absurd h (by simp)
  | some r =>
    obtain ⟨nbytes, buf, s⟩ := r
    simp only [hread] at h
    refine ⟨⟨buf, nbytes⟩, s, rfl, ?_⟩
    by_cases hneg : nbytes < 0
    · exact Or.inl ⟨hneg, by simpa [hneg] using h.symm⟩
    · right
      rw [if_neg hneg] at h
      cases hanalysis : analysisMessage d buf nbytes.toNat with
      | none => rw [hanalysis] at h; exact absurd h (by simp)
      | some cmds =>
        rw [hanalysis] at h
        refine ⟨cmds, hneg, rfl, ?_⟩
        by_cases hcmds : cmds = []
        · exact Or.inl ⟨hcmds, by simpa [hcmds] using h.symm⟩
        · exact Or.inr ⟨hcmds, by simpa [hcmds] using h⟩

end Job

/-! ## Reading from the receive buffer -/

theorem recvPeek_arrived (rx : List UInt8) (len : Nat) :
    recvPeek arrivedSock len rx =
      some (if rx = [] then .error .eagain else .ok (rx.take len), rx) := by
  unfold recvPeek recvPeekLoop
  by_cases h : rx = []
  · simp [arrivedSock, h]
  · simp [arrivedSock, h]

/-- `readn` takes what has arrived, up to the count: it stops at `EAGAIN`. -/
theorem readnLoop_arrived {turns : Nat} (hturns : 2 ≤ turns) (nLeft : Nat)
    (got rx : List UInt8) :
    readnLoop arrivedSock turns nLeft got rx =
      some (((got ++ rx.take nLeft).length : Int), got ++ rx.take nLeft, rx.drop nLeft) := by
  obtain ⟨turns, rfl⟩ : ∃ n, turns = n + 2 := ⟨turns - 2, by omega⟩
  cases nLeft with
  | zero => simp [readnLoop]
  | succ nLeft =>
    cases rx with
    | nil => simp [readnLoop, arrivedSock]
    | cons b bytes =>
      by_cases hmore : nLeft ≤ bytes.length
      · -- One read brings everything asked for.
        have htake : (bytes.take nLeft).length = nLeft := by
          rw [List.length_take]; omega
        simp [readnLoop, arrivedSock, htake]
      · -- The buffer runs empty and the next read says so.
        have htake : bytes.take nLeft = bytes := List.take_of_length_le (by omega)
        have hdrop : bytes.drop nLeft = [] := List.drop_of_length_le (by omega)
        obtain ⟨k, hk⟩ : ∃ k, nLeft - bytes.length = k + 1 :=
          ⟨nLeft - bytes.length - 1, by omega⟩
        have hle : bytes.length ≤ nLeft := by omega
        simp [readnLoop, arrivedSock, htake, hdrop, hle, hk]

/-- The value of the header that a peek at `rx` sees. -/
def headerValue (rx : List UInt8) : Int :=
  convertHexToInt (padded (rx.take headSize) (headSize + 1)) headSize

theorem headerValue_nil : headerValue [] = 0 := by decide

theorem headerValue_singleton (b : UInt8) : headerValue [b] = 256 * b.toNat := by
  have h := convertHexToInt_pair b 0 [0]
  simpa [headerValue, padded, headSize] using h

theorem headerValue_cons_cons (hi lo : UInt8) (rest : List UInt8) :
    headerValue (hi :: lo :: rest) = 256 * hi.toNat + lo.toNat :=
  convertHexToInt_pair hi lo [0]

/-- The bytes a job takes when the peeked header is positive. -/
def takenSize (rx : List UInt8) : Nat := (headerValue rx).toNat + headSize

/-- The message a job makes of them. -/
def takenMessage (rx : List UInt8) : Message :=
  ⟨some (padded (rx.take (takenSize rx)) (takenSize rx)), (rx.take (takenSize rx)).length⟩

/-- What one `read_normal_sock` does to the receive buffer: it leaves it alone
if there is no positive header, and otherwise takes what has arrived of the
message the header announces. -/
theorem readNormalSock_arrived {turns : Nat} (hturns : 2 ≤ turns) (rx : List UInt8) :
    readNormalSock arrivedSock turns rx =
      if headerValue rx ≤ 0 then some (-1, none, rx)
      else some ((takenMessage rx).nbytes, (takenMessage rx).buf, rx.drop (takenSize rx)) := by
  unfold readNormalSock
  rw [recvPeek_arrived]
  cases rx with
  | nil => simp [headerValue_nil]
  | cons b bytes =>
    have hshort : (bytes.take 1).length < headSize := by
      rw [List.length_take, headSize]
      omega
    have hpeek : (b :: bytes).take headSize = b :: bytes.take 1 := rfl
    have hvalue : convertHexToInt (padded (b :: bytes.take 1) (headSize + 1)) headSize =
        headerValue (b :: bytes) := rfl
    have hreadn := readnLoop_arrived hturns ((headerValue (b :: bytes)).toNat + headSize) []
      (b :: bytes)
    rw [List.nil_append] at hreadn
    rw [if_neg (List.cons_ne_nil b bytes), hpeek]
    simp only [hshort, if_true, hvalue, readn, hreadn, takenMessage, takenSize]

theorem headerValue_frame (p : Payload) (rest : List UInt8) :
    headerValue (p.frame ++ rest) = p.bytes.length + 1 := by
  have hhead : (p.frame ++ rest).take headSize = p.header := by
    rw [Payload.frame, List.append_assoc]
    exact List.take_left' p.length_header
  rw [headerValue, hhead, padded, p.convertHexToInt_header]

theorem takenSize_frame (p : Payload) (rest : List UInt8) :
    takenSize (p.frame ++ rest) = p.frame.length := by
  rw [takenSize, headerValue_frame, p.length_frame, headSize]
  omega

/-- The message of a complete frame. -/
def Payload.message (p : Payload) : Message := ⟨some p.frame, p.frame.length⟩

theorem readNormalSock_frame {turns : Nat} (hturns : 2 ≤ turns) (p : Payload)
    (rest : List UInt8) :
    readNormalSock arrivedSock turns (p.frame ++ rest) =
      some (p.message.nbytes, p.message.buf, rest) := by
  rw [readNormalSock_arrived hturns, headerValue_frame, if_neg (by omega)]
  simp only [takenMessage, takenSize_frame, List.take_left', List.drop_left', Payload.message]
  simp [padded]

/-! ## One job over the receive buffer -/

/-- The bytes of a list of frames. -/
def frameBytes (frames : List Payload) : List UInt8 := frames.flatMap Payload.frame

@[simp] theorem frameBytes_nil : frameBytes [] = [] := rfl

@[simp] theorem frameBytes_cons (p : Payload) (frames : List Payload) :
    frameBytes (p :: frames) = p.frame ++ frameBytes frames := rfl

@[simp] theorem frameBytes_append (left right : List Payload) :
    frameBytes (left ++ right) = frameBytes left ++ frameBytes right :=
  List.flatMap_append

/-- A job that has read the frames `group` stops in front of `rest`: nothing
positive to peek at, or the last frame was rejected. -/
def StopsAt (d : Decoder) (group : List Payload) (rest : List UInt8) : Prop :=
  headerValue rest ≤ 0 ∨ ∃ p, group.getLast? = some p ∧ ¬ d.accepts p

/-- What a job that starts in front of the frames `group` has done when it stops
behind them. -/
def ReadJob.after (job : ReadJob (List UInt8)) (d : Decoder) (group : List Payload)
    (rest : List UInt8) : ReadJob (List UInt8) :=
  { messages := job.messages ++ group.map Payload.message,
    executed := job.executed ++ group.flatMap d.commands, sock := rest }

/-- The turn that reads one complete frame. -/
theorem readSockLoop_frame (d : Decoder) {turns : Nat} (hturns : 2 ≤ turns) (fuel : Nat)
    (job : ReadJob (List UInt8)) (p : Payload) (rest : List UInt8)
    (hsock : job.sock = p.frame ++ rest) :
    readSockLoop arrivedSock d turns (fuel + 1) job =
      if d.commands p = [] then some (job.after d [p] rest)
      else readSockLoop arrivedSock d turns fuel (job.after d [p] rest) := by
  have hanalysis : analysisMessage d p.message.buf p.message.nbytes.toNat =
      some (d.commands p) := by
    rw [Payload.message, Int.toNat_natCast]
    exact analysisMessage_frame d p
  have hpos : ¬ p.message.nbytes < 0 := by
    show ¬ (p.frame.length : Int) < 0
    omega
  simp only [readSockLoop, hsock, readNormalSock_frame hturns, hpos, if_false, hanalysis,
    ReadJob.after, ReadJob.pass, List.map_cons, List.map_nil, List.flatMap_cons,
    List.flatMap_nil, List.append_nil]

/-- A job reads frame after frame until it stops. -/
theorem readSockLoop_frames (d : Decoder) {turns : Nat} (hturns : 2 ≤ turns)
    (group : List Payload) :
    ∀ (fuel : Nat) (job : ReadJob (List UInt8)) (rest : List UInt8),
      group.length < fuel →
      job.sock = frameBytes group ++ rest →
      (∀ p ∈ group.dropLast, d.accepts p) →
      StopsAt d group rest →
      readSockLoop arrivedSock d turns fuel job = some (job.after d group rest) := by
  induction group with
  | nil =>
    intro fuel job rest hfuel hsock _ hstop
    obtain ⟨fuel, rfl⟩ : ∃ n, fuel = n + 1 := ⟨fuel - 1, by simp at hfuel; omega⟩
    have hrest : headerValue rest ≤ 0 := by
      rcases hstop with h | ⟨p, hp, _⟩
      · exact h
      · simp at hp
    rw [frameBytes_nil, List.nil_append] at hsock
    rw [readSockLoop, hsock, readNormalSock_arrived hturns, if_pos hrest]
    simp [ReadJob.after]
  | cons p group ih =>
    intro fuel job rest hfuel hsock haccept hstop
    rw [List.length_cons] at hfuel
    obtain ⟨fuel, rfl⟩ : ∃ n, fuel = n + 1 := ⟨fuel - 1, by omega⟩
    rw [frameBytes_cons, List.append_assoc] at hsock
    rw [readSockLoop_frame d hturns fuel job p _ hsock]
    cases group with
    | nil =>
      split
      · rfl
      · -- The only frame was accepted, so it is the rest that stops the job.
        rename_i hp
        have hrest : StopsAt d [] rest := by
          rcases hstop with h | ⟨q, hq, hnot⟩
          · exact Or.inl h
          · have hpq : p = q := by simpa using hq
            exact absurd (hpq ▸ hp) hnot
        rw [ih fuel _ rest (by simpa using hfuel) rfl (by simp) hrest]
        simp [ReadJob.after]
    | cons q group =>
      have hp : d.commands p ≠ [] := haccept p (by simp [List.dropLast])
      rw [if_neg hp, ih fuel _ rest (by omega) rfl
        (fun r hr => haccept r (by simp [List.dropLast, hr])) (by simpa [StopsAt] using hstop)]
      simp [ReadJob.after]

/-- A message that is a complete frame was taken whole from the receive
buffer. -/
theorem eq_frame_append_of_message {rx : List UInt8} {p : Payload}
    (h : takenMessage rx = p.message) : rx = p.frame ++ rx.drop (takenSize rx) := by
  simp only [takenMessage, Payload.message, Message.mk.injEq, Option.some.injEq,
    Int.natCast_inj] at h
  obtain ⟨hbuf, hlen⟩ := h
  have hprefix : rx.take (takenSize rx) <+: p.frame := ⟨_, hbuf⟩
  have htake : rx.take (takenSize rx) = p.frame := hprefix.eq_of_length hlen
  rw [← htake, List.take_append_drop]

/-- Conversely, if all messages of a job are complete frames, then the job took
these frames from the receive buffer and stopped behind them. -/
theorem readSockLoop_messages (d : Decoder) {turns : Nat} (hturns : 2 ≤ turns) :
    ∀ (fuel : Nat) (job out : ReadJob (List UInt8)),
      readSockLoop arrivedSock d turns fuel job = some out →
      ∃ new, out.messages = job.messages ++ new ∧
        ∀ group : List Payload, new = group.map Payload.message →
          job.sock = frameBytes group ++ out.sock ∧
          (∀ p ∈ group.dropLast, d.accepts p) ∧ StopsAt d group out.sock := by
  intro fuel
  induction fuel with
  | zero => intro job out h; simp [readSockLoop] at h
  | succ fuel ih =>
    intro job out h
    obtain ⟨m, s, hread, hcase⟩ := readSockLoop_cases arrivedSock h
    rw [readNormalSock_arrived hturns] at hread
    by_cases hhead : headerValue job.sock ≤ 0
    · rw [if_pos hhead] at hread
      simp only [Option.some.injEq, Prod.mk.injEq] at hread
      obtain ⟨hnbytes, -, rfl⟩ := hread
      have hout : out = job := by
        rcases hcase with ⟨-, hout⟩ | ⟨cmds, hneg, -⟩
        · exact hout
        · omega
      subst hout
      refine ⟨[], by simp, ?_⟩
      intro group hgroup
      have hnil : group = [] := by simpa using hgroup.symm
      subst hnil
      exact ⟨rfl, by simp, Or.inl hhead⟩
    · rw [if_neg hhead] at hread
      simp only [Option.some.injEq, Prod.mk.injEq] at hread
      obtain ⟨hnbytes, hbuf, rfl⟩ := hread
      obtain rfl : takenMessage job.sock = m := by
        cases m
        exact congrArg₂ Message.mk hbuf hnbytes
      have hnonneg : ¬ (takenMessage job.sock).nbytes < 0 := by
        show ¬ (((job.sock.take (takenSize job.sock)).length : Int) < 0)
        omega
      obtain ⟨cmds, -, hanalysis, hcase⟩ := hcase.resolve_left fun hneg => hnonneg hneg.1
      -- The commands of the message are those of the frame it turns out to be.
      have hcommands (p : Payload) (hp : takenMessage job.sock = p.message) :
          d.commands p = cmds := by
        rw [hp, Payload.message, Int.toNat_natCast, analysisMessage_frame] at hanalysis
        exact Option.some.inj hanalysis
      rcases hcase with ⟨hnil, rfl⟩ | ⟨hcons, hrest⟩
      · refine ⟨[takenMessage job.sock], rfl, ?_⟩
        intro group hgroup
        obtain ⟨p, rfl⟩ : ∃ p, group = [p] := List.length_eq_one_iff.mp (by
          simpa using (congrArg List.length hgroup).symm)
        have hp : takenMessage job.sock = p.message := by simpa using hgroup
        refine ⟨?_, by simp, Or.inr ⟨p, rfl, ?_⟩⟩
        · simpa [ReadJob.pass] using eq_frame_append_of_message hp
        · rw [Decoder.accepts, hcommands p hp]
          exact not_not.mpr hnil
      · obtain ⟨new, hnew, hgroups⟩ := ih _ out hrest
        refine ⟨takenMessage job.sock :: new, by rw [hnew]; simp [ReadJob.pass], ?_⟩
        intro group hgroup
        cases group with
        | nil => simp at hgroup
        | cons p group =>
          rw [List.map_cons, List.cons.injEq] at hgroup
          obtain ⟨hp, htail⟩ := hgroup
          obtain ⟨hsock, haccept, hstop⟩ := hgroups group htail
          have hpaccept : d.accepts p := by rw [Decoder.accepts, hcommands p hp]; exact hcons
          refine ⟨?_, ?_, ?_⟩
          · rw [frameBytes_cons, List.append_assoc, ← hsock]
            exact eq_frame_append_of_message hp
          · cases group with
            | nil => simp
            | cons q group =>
              intro r hr
              rw [List.dropLast_cons_cons, List.mem_cons] at hr
              rcases hr with rfl | hr
              · exact hpaccept
              · exact haccept r hr
          · cases group with
            | nil =>
              rcases hstop with hhead | ⟨q, hq, _⟩
              · exact Or.inl hhead
              · simp at hq
            | cons q group => simpa [StopsAt] using hstop

end WowProxy
