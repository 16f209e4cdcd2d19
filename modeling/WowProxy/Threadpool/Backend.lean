/-
  Threadpool/Backend.lean --- a worker thread and its connection to the game
  server, as a machine.

  The worker executes one command after another over the connection
  `_td_sock_id`, which outlives commands and clients.  Its steps are the calls of
  `write_pipe_or_sock`: connecting, one turn of the write loop, `select`, one turn
  of the loop of `readn_fd`, and the reply.  In between the server answers,
  answers arrive, and the server closes.  Answers carry no identifier.
-/
import WowProxy.Lib.Runs
import WowProxy.Threadpool.WritePipeOrSock

set_option autoImplicit false

namespace WowProxy

namespace Service

variable (sv : Service)

/-- The frame that the reply to an answer is sent in: `some none` where
`write_sock_func` gives up. -/
def answerFrame (nbytes : Int) (szBuf : List UInt8) : Option (Option (List UInt8)) :=
  match sv.answerReply nbytes szBuf with
  | none => none
  | some (isOpOk, msg) => replyFrame isOpOk msg

end Service

namespace Backend

/-! ## The connection -/

/-- The connection `_td_sock_id`: the kernel's side and the server's. -/
structure Link where
  fd : Nat
  /-- bytes have been written since the last request was counted -/
  begun : Bool
  /-- the commands whose requests the server has to answer, oldest first -/
  unanswered : List Nat
  /-- answer bytes on their way -/
  flight : List UInt8
  /-- the receive buffer -/
  rx : List UInt8
  /-- the server has closed its side -/
  fin : Bool
  deriving DecidableEq

/-- A new connection. -/
def Link.fresh (fd : Nat) : Link :=
  { fd, begun := false, unanswered := [], flight := [], rx := [], fin := false }

namespace Link

/-- What an effect of the thread does to the connection. -/
def apply (link : Link) : Io → Link
  | .opened fd => fresh fd
  | .closed fd => if fd = link.fd then fresh 0 else link
  | .wrote fd _ => if fd = link.fd then { link with begun := true } else link

/-- Whatever command `k` has written is for the server to answer, also where the
request broke off. -/
def request (link : Link) (k : Nat) : Link :=
  if link.begun then { link with begun := false, unanswered := link.unanswered ++ [k] } else link

/-- What the one-byte peek of `is_sock_closed_by_peer` can return. -/
def Probes (link : Link) : Except Errno Nat → Prop
  | .ok 0 => link.rx = [] ∧ link.fin = true
  | .ok _ => link.rx ≠ []
  | .error .eagain => link.rx = [] ∧ link.fin = false
  | .error _ => True

instance (link : Link) : ∀ peek, Decidable (link.Probes peek)
  | .ok 0 => inferInstanceAs (Decidable (_ ∧ _))
  | .ok (_ + 1) => inferInstanceAs (Decidable (_ ≠ _))
  | .error .eagain => inferInstanceAs (Decidable (_ ∧ _))
  | .error .eintr | .error .epipe | .error (.other _) => isTrue trivial

end Link

/-! ## The worker -/

/-- The arguments of `write_pipe_or_sock`. -/
structure Call where
  /-- `sockData->sockConn->sock_fd` -/
  clientFd : Nat
  resp : Bool
  cmd : List UInt8
  size : Nat
  deriving DecidableEq

/-- Where a worker is, with the number of the command it executes. -/
inductive Pc where
  | idle
  /-- in the loop of `writen_fd`, with `ptr` still to be written -/
  | writing (k : Nat) (c : Call) (fd : Nat) (ptr : List UInt8)
  /-- in front of `select` -/
  | waiting (k : Nat) (c : Call)
  /-- in the loop of `readn_fd` -/
  | reading (k : Nat) (c : Call) (st : ReadnFdState)
  /-- in front of `write_sock_func`, with an answer of the server or an error
  message -/
  | replying (k : Nat) (c : Call) (answer isOpOk : Bool) (msg : List UInt8)
  deriving DecidableEq

/-- A reply frame. -/
structure Reply where
  /-- the command it is for -/
  command : Nat
  /-- it carries an answer, and no error message -/
  answer : Bool
  frame : List UInt8
  deriving DecidableEq

/-- A worker thread with its connection and the records the statements are
about. -/
structure Worker where
  /-- `_td_sock_id` -/
  td : Nat
  link : Link
  pc : Pc
  /-- the number of the next command -/
  next : Nat
  /-- what the server has answered to which command -/
  answers : List (Nat × List UInt8)
  /-- the frames handed to the write loop of a client -/
  replies : List Reply
  deriving DecidableEq

/-- One step of the worker, the server or the network. -/
inductive Label where
  /-- `write_pipe_or_sock` is called -/
  | command (c : Call) (connect : Attempt)
  /-- one turn of the write loop -/
  | write (r : Round)
  /-- `select` returns -/
  | select (retval : Int)
  /-- `read` returns `n` bytes -/
  | read (n : Nat)
  /-- `read` reports an error -/
  | readFails (e : Errno)
  /-- the reply is written in the rounds `replies` -/
  | reply (replies : List Round)
  /-- the server answers the oldest request -/
  | answer (bytes : List UInt8)
  /-- `n` bytes arrive -/
  | deliver (n : Nat)
  /-- the end of the stream arrives -/
  | close

namespace Worker

/-- A thread without a connection. -/
def init : Worker :=
  { td := 0, link := .fresh 0, pc := .idle, next := 0, answers := [], replies := [] }

/-- The worker behind a call that left its thread at `t`. -/
def behind (w : Worker) (t : Thread) : Worker :=
  { w with td := t.td, link := t.io.foldl Link.apply w.link }

/-- `write_fd_error_message(sockData, 1)` comes next. -/
def fail (w : Worker) (k : Nat) (c : Call) : Worker :=
  { w with pc := .replying k c false false errorMsg1 }

variable (sv : Service)

/-- `write_pipe_or_sock` up to the write loop.  A request without bytes is not
written. -/
def command (w : Worker) (c : Call) (connect : Attempt) : Option Worker :=
  let k := w.next
  match makeSoapSocket ⟨w.td, []⟩ connect with
  | (0, t) => some ({ w.behind t with next := k + 1 }.fail k c)
  | (fd + 1, t) =>
    let w := { w.behind t with next := k + 1 }
    match makeSoapRequest sv.requestAuth c.cmd c.size with
    | none => none
    | some [] => some (w.fail k c)
    | some (b :: ptr) => some { w with pc := .writing k c (fd + 1) (b :: ptr) }

/-- One turn of the write loop, behind a probe of the connection. -/
def write (w : Worker) (k : Nat) (c : Call) (fd : Nat) (ptr : List UInt8) (r : Round) :
    Option Worker :=
  if w.link.Probes r.probe then
    match writenFdTurn fd ptr ⟨w.td, []⟩ r with
    | none => none
    | some (.stop _ t) =>
      let w := w.behind t
      some ({ w with link := w.link.request k }.fail k c)
    | some (.next _ [] t) =>
      let w := w.behind t
      some { w with link := w.link.request k, pc := .waiting k c }
    | some (.next fd (b :: ptr) t) => some { w.behind t with pc := .writing k c fd (b :: ptr) }
  else none

/-- `select` returns zero only when nothing is there. -/
def select (w : Worker) (k : Nat) (c : Call) (retval : Int) : Option Worker :=
  if retval > 0 then some { w with pc := .reading k c (readnFdStart answerBufSize) }
  else if retval = 0 ∧ (w.link.rx ≠ [] ∨ w.link.fin = true) then none
  else some { w with pc := .idle }

/-- What follows on `readn_fd`. -/
def afterRead (w : Worker) (k : Nat) (c : Call) (st : ReadnFdState) : Option Worker :=
  if c.resp ∧ st.totalByte > 0 then
    (sv.answerReply st.totalByte st.szData).map fun (isOpOk, msg) =>
      { w with pc := .replying k c true isOpOk msg }
  else some { w with pc := .idle }

/-- One turn of the loop of `readn_fd`. -/
def turn (w : Worker) (k : Nat) (c : Call) (st : ReadnFdState) (r : ReadResult) :
    Option Worker :=
  match readnFdTurn answerBufSize st r with
  | none => none
  | some (st', true) => some { w with pc := .reading k c st' }
  | some (st', false) => w.afterRead sv k c st'

/-- `write_sock_func`.  Its write loop may touch the connection to the game
server. -/
def reply (w : Worker) (k : Nat) (c : Call) (answer isOpOk : Bool) (msg : List UInt8)
    (rounds : List Round) : Option Worker :=
  (writeSockFunc c.clientFd isOpOk msg ⟨w.td, []⟩ rounds).map fun out =>
    let w := w.behind out.thread
    { w with
      link := w.link.request k
      pc := .idle
      replies := w.replies ++
        (out.reply.map fun (frame, _) => { command := k, answer, frame }).toList }

/-- One step. -/
def step (w : Worker) : Label → Option Worker
  | .command c connect =>
    match w.pc with
    | .idle => w.command sv c connect
    | _ => none
  | .write r =>
    match w.pc with
    | .writing k c fd ptr => w.write k c fd ptr r
    | _ => none
  | .select retval =>
    match w.pc with
    | .waiting k c => w.select k c retval
    | _ => none
  | .read n =>
    match w.pc with
    | .reading k c st =>
      -- Nothing is returned only at the end of the stream.
      if n ≤ w.link.rx.length ∧ (n = 0 → w.link.rx = [] ∧ w.link.fin = true) then
        { w with link := { w.link with rx := w.link.rx.drop n } }.turn sv k c st
          (.ok (w.link.rx.take n))
      else none
    | _ => none
  | .readFails e =>
    match w.pc with
    | .reading k c st => w.turn sv k c st (.error e)
    | _ => none
  | .reply rounds =>
    match w.pc with
    | .replying k c answer isOpOk msg => w.reply k c answer isOpOk msg rounds
    | _ => none
  | .answer bytes =>
    match w.link.unanswered with
    | k :: unanswered =>
      if w.link.fin then none
      else some { w with
        link := { w.link with unanswered, flight := w.link.flight ++ bytes }
        answers := w.answers ++ [(k, bytes)] }
    | [] => none
  | .deliver n =>
    if n ≤ w.link.flight.length then
      some { w with link := { w.link with
        rx := w.link.rx ++ w.link.flight.take n, flight := w.link.flight.drop n } }
    else none
  | .close =>
    if w.link.flight = [] then some { w with link := { w.link with fin := true } } else none

/-! ## The ways a step can go -/

section Took

variable {sv}

/-- What a step is, by its label. -/
inductive Took (sv : Service) (w : Worker) : Label → Worker → Prop where
  | command {c : Call} {connect : Attempt} {w' : Worker} (hpc : w.pc = .idle)
      (hcommand : w.command sv c connect = some w') : Took sv w (.command c connect) w'
  | write {k : Nat} {c : Call} {fd : Nat} {ptr : List UInt8} {r : Round} {w' : Worker}
      (hpc : w.pc = .writing k c fd ptr) (hwrite : w.write k c fd ptr r = some w') :
      Took sv w (.write r) w'
  | select {k : Nat} {c : Call} {retval : Int} {w' : Worker} (hpc : w.pc = .waiting k c)
      (hselect : w.select k c retval = some w') : Took sv w (.select retval) w'
  | read {k : Nat} {c : Call} {st : ReadnFdState} {n : Nat} {w' : Worker}
      (hpc : w.pc = .reading k c st)
      (hturn : { w with link := { w.link with rx := w.link.rx.drop n } }.turn sv k c st
        (.ok (w.link.rx.take n)) = some w') : Took sv w (.read n) w'
  | readFails {k : Nat} {c : Call} {st : ReadnFdState} {e : Errno} {w' : Worker}
      (hpc : w.pc = .reading k c st) (hturn : w.turn sv k c st (.error e) = some w') :
      Took sv w (.readFails e) w'
  | reply {k : Nat} {c : Call} {answer isOpOk : Bool} {msg : List UInt8} {rounds : List Round}
      {w' : Worker} (hpc : w.pc = .replying k c answer isOpOk msg)
      (hreply : w.reply k c answer isOpOk msg rounds = some w') : Took sv w (.reply rounds) w'
  | answer {k : Nat} {unanswered : List Nat} (hlink : w.link.unanswered = k :: unanswered)
      (bytes : List UInt8) :
      Took sv w (.answer bytes) { w with
        link := { w.link with unanswered, flight := w.link.flight ++ bytes }
        answers := w.answers ++ [(k, bytes)] }
  | deliver (n : Nat) :
      Took sv w (.deliver n) { w with link := { w.link with
        rx := w.link.rx ++ w.link.flight.take n, flight := w.link.flight.drop n } }
  | close : Took sv w .close { w with link := { w.link with fin := true } }

theorem took_of_step {w w' : Worker} {a : Label} (h : w.step sv a = some w') :
    w.Took sv a w' := by
  cases a with
  | command c connect =>
    simp only [step] at h
    split at h
    · exact .command ‹_› h
    · exact absurd h (by simp)
  | write r =>
    simp only [step] at h
    split at h
    · exact .write ‹_› h
    · exact absurd h (by simp)
  | select retval =>
    simp only [step] at h
    split at h
    · exact .select ‹_› h
    · exact absurd h (by simp)
  | read n =>
    simp only [step] at h
    split at h
    · split at h
      · exact .read ‹_› h
      · exact absurd h (by simp)
    · exact absurd h (by simp)
  | readFails e =>
    simp only [step] at h
    split at h
    · exact .readFails ‹_› h
    · exact absurd h (by simp)
  | reply rounds =>
    simp only [step] at h
    split at h
    · exact .reply ‹_› h
    · exact absurd h (by simp)
  | answer bytes =>
    simp only [step] at h
    split at h
    · split at h
      · exact absurd h (by simp)
      · obtain rfl := Option.some.inj h
        exact .answer ‹_› bytes
    · exact absurd h (by simp)
  | deliver n =>
    simp only [step] at h
    split at h
    · obtain rfl := Option.some.inj h
      exact .deliver n
    · exact absurd h (by simp)
  | close =>
    simp only [step] at h
    split at h
    · obtain rfl := Option.some.inj h
      exact .close
    · exact absurd h (by simp)

end Took

end Worker

end Backend

end WowProxy
