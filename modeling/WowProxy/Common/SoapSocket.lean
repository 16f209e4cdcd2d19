/-
  Common/SoapSocket.lean --- the thread-local connection to the game server and
  the write loop of `common/utility.c`: `make_soap_socket`,
  `reset_thread_local_soap_socket`, `is_sock_closed_by_peer` and `writen_fd`, in
  the SOAP build.

  The environment answers every system call.  An `Attempt` holds the answers to
  one connection attempt and a `Round` those to one turn of the write loop, so a
  list of rounds is one sequence of outcomes of probe, write and reconnection.
  A `Thread` carries `_td_sock_id` and, for the statements only, the record of
  what the thread did to descriptors.
-/
import WowProxy.Common.Config

set_option autoImplicit false

namespace WowProxy

/-! ## Threads and their effects -/

/-- One effect of a thread on a descriptor. -/
inductive Io where
  | opened (fd : Nat)
  | closed (fd : Nat)
  /-- the bytes one `write` took -/
  | wrote (fd : Nat) (bytes : List UInt8)
  deriving DecidableEq, Repr

/-- The state of a worker thread that the functions below touch. -/
structure Thread where
  /-- `_td_sock_id`, `0` when there is no connection -/
  td : Nat
  /-- what the thread did so far -/
  io : List Io
  deriving DecidableEq, Repr

namespace Thread

/-- Record one effect. -/
def log (t : Thread) (e : Io) : Thread := { t with io := t.io ++ [e] }

@[simp] theorem log_td (t : Thread) (e : Io) : (t.log e).td = t.td := rfl

@[simp] theorem log_io (t : Thread) (e : Io) : (t.log e).io = t.io ++ [e] := rfl

end Thread

/-! ## Connecting -/

/-- What the system calls of one connection attempt return. -/
structure Attempt where
  /-- `socket` -/
  socket : Except Errno Nat
  /-- which of the five `setsockopt` calls succeed -/
  setsockopt : Fin 5 → Bool
  /-- which of the three `connect` calls succeed -/
  connect : Fin 3 → Bool

/-- `set_sock_keepalive`: zero, or `-1` at the first `setsockopt` that fails. -/
def setSockKeepalive (socketFd : Nat) (setsockopt : Fin 5 → Bool) : Int :=
  if socketFd = 0 then -1
  else if (List.finRange 5).all setsockopt then 0 else -1

/-- `make_soap_socket`: the connection of the thread, a new one when there is
none, `0` on failure.  A socket that fails later stays open. -/
def makeSoapSocket (t : Thread) (a : Attempt) : Nat × Thread :=
  if t.td > 0 then (t.td, t)
  else
    match a.socket with
    | .error _ => (0, t)
    | .ok socketFd =>
      let t := t.log (.opened socketFd)
      if setSockKeepalive socketFd a.setsockopt < 0 then (0, t)
      -- `connect` is tried three times.
      else if (List.finRange 3).any a.connect then (socketFd, { t with td := socketFd })
      else (0, t)

/-- `reset_thread_local_soap_socket`: close the connection and make another.
`none` stands for the returned `-1`. -/
def resetThreadLocalSoapSocket (t : Thread) (a : Attempt) : Option Nat × Thread :=
  let t := if t.td > 0 then t.log (.closed t.td) else t
  match makeSoapSocket { t with td := 0 } a with
  | (0, t) => (none, t)
  | (fd + 1, t) => (some (fd + 1), { t with td := fd + 1 })

/-- The attempt leads to a connection. -/
def Attempt.connects (a : Attempt) : Bool :=
  match a.socket with
  | .error _ => false
  | .ok socketFd => socketFd != 0 && (List.finRange 5).all a.setsockopt &&
      (List.finRange 3).any a.connect

/-! ## Writing -/

/-- `is_sock_closed_by_peer`, given what the one-byte peek returned. -/
def isSockClosedByPeer (sock : Nat) (peek : Except Errno Nat) : Bool :=
  if sock = 0 then true
  else
    match peek with
    | .ok n => n == 0
    | .error .eagain => false
    | .error _ => true

/-- What one turn of the write loop gets from the environment. -/
structure Round where
  /-- the peek of `is_sock_closed_by_peer` -/
  probe : Except Errno Nat
  /-- the reconnection after a probe that says closed -/
  reset : Attempt
  /-- the count `write` returned -/
  write : Except Errno Nat
  /-- the reconnection after `EPIPE` -/
  again : Attempt

/-- How one turn of the write loop ends: the call returns, or the loop goes on
with the descriptor and the bytes still to be written. -/
inductive Turn where
  | stop (ret : Int) (t : Thread)
  | next (fd : Nat) (ptr : List UInt8) (t : Thread)

/-- The `write` of one turn and what follows from its result.  It has no value
where `write` takes more bytes than it was given. -/
def writenFdWrite (fd : Nat) (ptr : List UInt8) (t : Thread) (r : Round) : Option Turn :=
  match r.write with
  | .ok 0 => some (.stop (-2) t)
  | .ok nwritten =>
    if nwritten ≤ ptr.length then
      some (.next fd (ptr.drop nwritten) (t.log (.wrote fd (ptr.take nwritten))))
    else none
  | .error .eintr => some (.next fd ptr t)
  | .error .epipe =>
    match resetThreadLocalSoapSocket t r.again with
    | (none, t) => some (.stop (-1) t)
    | (some fd, t) => some (.next fd ptr t)
  | .error _ => some (.stop (-2) t)

/-- One turn of the write loop: probe, reconnect if the probe says closed,
write. -/
def writenFdTurn (fd : Nat) (ptr : List UInt8) (t : Thread) (r : Round) : Option Turn :=
  if isSockClosedByPeer fd r.probe then
    match resetThreadLocalSoapSocket t r.reset with
    | (none, t) => some (.stop (-1) t)
    | (some fd, t) => writenFdWrite fd ptr t r
  else writenFdWrite fd ptr t r

/-- What a call of `writen_fd` leaves behind. -/
structure WritenFd where
  /-- the returned value -/
  ret : Int
  /-- `*pfd` on return -/
  pfd : Nat
  thread : Thread
  /-- rounds the call did not use -/
  rest : List Round

/-- The loop of `writen_fd`, with the descriptor `fd` in use and the bytes `ptr`
still to be written.  It has no value where the environment has no further
answer. -/
def writenFdLoop (pfd n : Nat) : Nat → List UInt8 → Thread → List Round → Option WritenFd
  | fd, [], t, rounds => some { ret := n, pfd := fd, thread := t, rest := rounds }
  | _, _ :: _, _, [] => none
  | fd, b :: ptr, t, r :: rounds =>
    match writenFdTurn fd (b :: ptr) t r with
    | none => none
    | some (.stop ret t) => some { ret, pfd, thread := t, rest := rounds }
    | some (.next fd ptr t) => writenFdLoop pfd n fd ptr t rounds

/-- `writen_fd(pfd, vptr, n)`. -/
def writenFd (pfd : Nat) (vptr : List UInt8) (t : Thread) (rounds : List Round) :
    Option WritenFd :=
  writenFdLoop pfd vptr.length pfd vptr t rounds

/-! ## What a reconnection does -/

/-- The socket of an attempt that connects. -/
theorem Attempt.connects_iff (a : Attempt) :
    a.connects = true ↔ ∃ fd, a.socket = .ok (fd + 1) ∧
      (List.finRange 5).all a.setsockopt = true ∧ (List.finRange 3).any a.connect = true := by
  unfold Attempt.connects
  cases a.socket with
  | error e => simp
  | ok fd => cases fd <;> simp

theorem makeSoapSocket_of_connects {a : Attempt} (h : a.connects = true) (io : List Io) :
    ∃ fd, makeSoapSocket ⟨0, io⟩ a = (fd + 1, ⟨fd + 1, io ++ [.opened (fd + 1)]⟩) := by
  obtain ⟨fd, hsocket, hset, hconnect⟩ := a.connects_iff.mp h
  refine ⟨fd, ?_⟩
  simp [makeSoapSocket, hsocket, setSockKeepalive, hset, hconnect, Thread.log]

/-- A failing attempt leaves no connection, and at most an open socket. -/
theorem makeSoapSocket_of_not_connects {a : Attempt} (h : a.connects = false) (io : List Io) :
    ∃ opens : List Nat, makeSoapSocket ⟨0, io⟩ a = (0, ⟨0, io ++ opens.map .opened⟩) := by
  unfold makeSoapSocket
  rw [if_neg (by simp)]
  cases hsocket : a.socket with
  | error e => exact ⟨[], by simp⟩
  | ok fd =>
    refine ⟨[fd], ?_⟩
    simp only [Attempt.connects, hsocket] at h
    cases fd with
    | zero => simp [setSockKeepalive, Thread.log]
    | succ fd =>
      simp only [Nat.succ_ne_zero, Bool.and_eq_false_iff, bne_eq_false_iff_eq] at h
      by_cases hset : (List.finRange 5).all a.setsockopt = true
      · have hconnect : (List.finRange 3).any a.connect = false := by simpa [hset] using h
        simp [setSockKeepalive, hset, hconnect, Thread.log]
      · simp [setSockKeepalive, hset, Thread.log]

/-- `make_soap_socket` fails exactly when there is no connection and none is
made. -/
theorem makeSoapSocket_eq_zero_iff (t : Thread) (a : Attempt) :
    (makeSoapSocket t a).1 = 0 ↔ t.td = 0 ∧ a.connects = false := by
  cases t with
  | mk td io =>
    cases td with
    | succ td => simp [makeSoapSocket]
    | zero =>
      cases hconnects : a.connects with
      | true =>
        obtain ⟨fd, hmake⟩ := makeSoapSocket_of_connects hconnects io
        simp [hmake]
      | false =>
        obtain ⟨opens, hmake⟩ := makeSoapSocket_of_not_connects hconnects io
        simp [hmake]

/-- The connection a reconnection starts from has been closed. -/
def Thread.dropped (t : Thread) : List Io := if t.td > 0 then [.closed t.td] else []

theorem reset_eq (t : Thread) (a : Attempt) :
    resetThreadLocalSoapSocket t a =
      match makeSoapSocket ⟨0, t.io ++ t.dropped⟩ a with
      | (0, t) => (none, t)
      | (fd + 1, t) => (some (fd + 1), { t with td := fd + 1 }) := by
  unfold resetThreadLocalSoapSocket Thread.dropped
  split
  · rfl
  · rw [List.append_nil]

theorem reset_of_connects {a : Attempt} (h : a.connects = true) (t : Thread) :
    ∃ fd, resetThreadLocalSoapSocket t a =
      (some (fd + 1), ⟨fd + 1, t.io ++ t.dropped ++ [.opened (fd + 1)]⟩) := by
  obtain ⟨fd, hmake⟩ := makeSoapSocket_of_connects h (t.io ++ t.dropped)
  exact ⟨fd, by rw [reset_eq, hmake]⟩

theorem reset_of_not_connects {a : Attempt} (h : a.connects = false) (t : Thread) :
    ∃ opens : List Nat, resetThreadLocalSoapSocket t a =
      (none, ⟨0, t.io ++ t.dropped ++ opens.map .opened⟩) := by
  obtain ⟨opens, hmake⟩ := makeSoapSocket_of_not_connects h (t.io ++ t.dropped)
  exact ⟨opens, by rw [reset_eq, hmake]⟩

/-! ## What a thread did before does not matter -/

/-- The thread, with the effects `io` before its own. -/
def Thread.after (t : Thread) (io : List Io) : Thread := { t with io := io ++ t.io }

theorem Thread.log_after (t : Thread) (io : List Io) (e : Io) :
    (t.after io).log e = (t.log e).after io := by
  simp only [Thread.after, Thread.log, List.append_assoc]

theorem makeSoapSocket_after (t : Thread) (io : List Io) (a : Attempt) :
    makeSoapSocket (t.after io) a =
      ((makeSoapSocket t a).1, (makeSoapSocket t a).2.after io) := by
  unfold makeSoapSocket
  have htd : (t.after io).td = t.td := rfl
  rw [htd]
  split
  · rfl
  · split
    · rfl
    · rename_i socketFd hsocket
      dsimp only
      rw [Thread.log_after]
      split
      · rfl
      · split <;> rfl

theorem resetThreadLocalSoapSocket_after (t : Thread) (io : List Io) (a : Attempt) :
    resetThreadLocalSoapSocket (t.after io) a =
      ((resetThreadLocalSoapSocket t a).1, (resetThreadLocalSoapSocket t a).2.after io) := by
  have hdropped : (t.after io).dropped = t.dropped := rfl
  rw [reset_eq, reset_eq, hdropped]
  have hmake := makeSoapSocket_after ⟨0, t.io ++ t.dropped⟩ io a
  rw [show (⟨0, (t.after io).io ++ t.dropped⟩ : Thread) = Thread.after ⟨0, t.io ++ t.dropped⟩ io by
    simp only [Thread.after, List.append_assoc], hmake]
  cases makeSoapSocket ⟨0, t.io ++ t.dropped⟩ a with
  | mk fd t' => cases fd <;> rfl

/-- The turn, with the effects `io` before those of its thread. -/
def Turn.after (turn : Turn) (io : List Io) : Turn :=
  match turn with
  | .stop ret t => .stop ret (t.after io)
  | .next fd ptr t => .next fd ptr (t.after io)

theorem writenFdWrite_after (fd : Nat) (ptr : List UInt8) (t : Thread) (io : List Io) (r : Round) :
    writenFdWrite fd ptr (t.after io) r = (writenFdWrite fd ptr t r).map (·.after io) := by
  unfold writenFdWrite
  split
  · rfl
  · split
    · rw [Thread.log_after]
      rfl
    · rfl
  · rfl
  · rw [resetThreadLocalSoapSocket_after]
    cases resetThreadLocalSoapSocket t r.again with
    | mk fd' t' => cases fd' <;> rfl
  · rfl

theorem writenFdTurn_after (fd : Nat) (ptr : List UInt8) (t : Thread) (io : List Io) (r : Round) :
    writenFdTurn fd ptr (t.after io) r = (writenFdTurn fd ptr t r).map (·.after io) := by
  unfold writenFdTurn
  split
  · rw [resetThreadLocalSoapSocket_after]
    cases resetThreadLocalSoapSocket t r.reset with
    | mk fd' t' =>
      cases fd' with
      | none => rfl
      | some fd' => exact writenFdWrite_after fd' ptr t' io r
  · exact writenFdWrite_after fd ptr t io r

theorem writenFdLoop_after (pfd n : Nat) (io : List Io) (rounds : List Round) :
    ∀ (fd : Nat) (ptr : List UInt8) (t : Thread), writenFdLoop pfd n fd ptr (t.after io) rounds =
      (writenFdLoop pfd n fd ptr t rounds).map fun w => { w with thread := w.thread.after io } := by
  induction rounds with
  | nil => intro fd ptr t; cases ptr <;> rfl
  | cons r rounds ih =>
    intro fd ptr t
    cases ptr with
    | nil => rfl
    | cons b ptr =>
      rw [writenFdLoop, writenFdLoop, writenFdTurn_after]
      cases writenFdTurn fd (b :: ptr) t r with
      | none => rfl
      | some turn =>
        cases turn with
        | stop ret t' => rfl
        | next fd' ptr' t' => exact ih fd' ptr' t'

end WowProxy
