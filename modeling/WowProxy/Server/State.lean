/-
  Server/State.lean --- the event loop of `proxy_server.c`, the job queue and the
  workers of the thread pool, as one machine.

  The machine takes one atomic step after another: the event loop waits, accepts
  or dispatches an event; a worker takes a job, captures the descriptor, peeks,
  reads, analyses, executes a command, or releases a connection; a client sends.
  A label says which step and what the kernel decides in it, so that a list of
  labels is one interleaving of all parties.

  A `SOCKCONN` is named by the number of its allocation.  Numbers are never used
  again, so a reference to a released `SOCKCONN` stays visible as such.  The build
  is the one without `SOCKSSL`.
-/
import WowProxy.Lib.Runs
import WowProxy.Threadpool.ReadSock

set_option autoImplicit false

namespace WowProxy

open WowProxy.Lib.CString

/-! ## Connections, events and jobs -/

/-- Which `SOCKCONN`, in the order of allocation. -/
abbrev ConnId : Type := Nat

/-- A `SOCKCONN` with the kernel's side of its socket.  Its member `events` is
only written, and is left out. -/
structure SockConn where
  /-- `sock_fd` -/
  sockFd : Nat
  /-- how often `free_sockconn` has released it -/
  released : Nat
  /-- the receive buffer -/
  rx : List UInt8
  /-- the peer has closed its side -/
  fin : Bool
  /-- something arrived that epoll has not reported yet -/
  edge : Bool
  /-- the frames that have arrived -/
  sent : List Payload
  /-- how many bytes have been read -/
  taken : Nat
  /-- the commands that have been executed for it -/
  executed : List ParsedCommand
  deriving DecidableEq

/-- The `SOCKCONN` that `malloc_sockconn` makes. -/
def mallocSockconn (sockFd : Nat) : SockConn :=
  { sockFd, released := 0, rx := [], fin := false, edge := false, sent := [], taken := 0,
    executed := [] }

/-- The event bits of `epoll_wait` that `loop_once` tests. -/
structure Flags where
  epollErr : Bool
  epollHup : Bool
  epollIn : Bool
  epollRdhup : Bool
  epollOut : Bool
  deriving DecidableEq, Repr

/-- One entry of `events`. -/
inductive Event where
  /-- `EPOLLIN` on the listening socket -/
  | listener
  | conn (c : ConnId) (flags : Flags)
  deriving DecidableEq, Repr

/-- The `SOCKCONN` an event refers to, apart from that of the listening
socket. -/
def Event.conn? : Event → Option ConnId
  | .listener => none
  | .conn c _ => some c

/-- A job of the thread pool: its function, and the `SOCKCONN` that its argument
is or points to. -/
inductive Job where
  /-- `read_sock_func` -/
  | read (c : ConnId)
  /-- `write_sock_func` -/
  | write (c : ConnId)
  /-- `free_sockConn_func` -/
  | free (c : ConnId)
  deriving DecidableEq, Repr

/-- The `SOCKCONN` a job refers to. -/
def Job.conn : Job → ConnId
  | .read c => c
  | .write c => c
  | .free c => c

/-- The job that `loop_once` adds for an event of a connection, through
`handle_disconnect`, `handle_read` or `handle_write`. -/
def loopOnceJob (c : ConnId) (flags : Flags) : Option Job :=
  if flags.epollErr || flags.epollHup then some (.free c)
  else if flags.epollIn && flags.epollRdhup then some (.free c)
  else if flags.epollIn then some (.read c)
  else if flags.epollOut then some (.write c)
  else none

/-! ## Workers -/

/-- Where a worker is. -/
inductive Pc where
  /-- in `sem_wait` -/
  | idle
  /-- in front of `function(argv)` -/
  | started (job : Job)
  /-- at the top of the loop of `read_sock_func`, with the captured `sock` -/
  | peeking (c : ConnId) (fd : Nat)
  /-- in `readn`: `got` of `size` bytes have been read.  The header was peeked when
  `start` bytes of the stream had been taken. -/
  | reading (c : ConnId) (fd start size : Nat) (got : List UInt8)
  /-- in front of `analysis_message` -/
  | analysing (c : ConnId) (fd : Nat) (buf : Option (List UInt8)) (nbytes : Nat)
  /-- the commands still to be executed -/
  | executing (c : ConnId) (fd : Nat) (cmds : List ParsedCommand)
  /-- behind the loop of `read_sock_func` -/
  | finishing (c : ConnId)
  deriving DecidableEq

namespace Pc

/-- The `SOCKCONN` a worker refers to. -/
def conn? : Pc → Option ConnId
  | idle => none
  | started job => some job.conn
  | peeking c _ => some c
  | reading c _ _ _ _ => some c
  | analysing c _ _ _ => some c
  | executing c _ _ => some c
  | finishing c => some c

/-- The connection and the descriptor number that a running read job has
captured. -/
def captured? : Pc → Option (ConnId × Nat)
  | peeking c fd => some (c, fd)
  | reading c fd _ _ _ => some (c, fd)
  | analysing c fd _ _ => some (c, fd)
  | executing c fd _ => some (c, fd)
  | _ => none

/-- The connection a worker has peeked a header or an end of stream of, while
the message is not dealt with. -/
def active? : Pc → Option ConnId
  | reading c _ _ _ _ => some c
  | analysing c _ _ _ => some c
  | executing c _ _ => some c
  | _ => none

end Pc

/-! ## The machine -/

/-- The state of the event loop, the queue, the workers and the kernel. -/
structure ServerState (ι : Type) where
  conns : ConnId → SockConn
  /-- how many `SOCKCONN`s have been allocated for clients -/
  count : Nat
  /-- which connection an open descriptor denotes -/
  fds : Nat → Option ConnId
  /-- the events of `loop_once` still to be dispatched -/
  batch : List Event
  queue : List Job
  workers : ι → Pc

/-- One step of one party. -/
inductive Label (ι : Type) where
  /-- `accept` in `handle_accept` returns `fd` -/
  | accept (fd : Nat)
  /-- `accept` reports an error -/
  | accepted
  /-- `epoll_wait` returns `events` -/
  | epollWait (events : List Event)
  /-- `loop_once` handles the next event of a connection -/
  | dispatch
  /-- a whole frame arrives -/
  | arrive (c : ConnId) (p : Payload)
  /-- any bytes arrive -/
  | garbage (c : ConnId) (bytes : List UInt8)
  /-- the end of the stream arrives -/
  | close (c : ConnId)
  /-- worker `i` removes the first job of the queue -/
  | take (i : ι)
  /-- worker `i` enters the function of its job -/
  | enter (i : ι)
  /-- worker `i` peeks -/
  | peek (i : ι)
  /-- worker `i` reads `n` bytes, if there are any -/
  | read (i : ι) (n : Nat)
  /-- worker `i` analyses its message -/
  | analyse (i : ι)
  /-- worker `i` executes a command -/
  | execute (i : ι)
  /-- worker `i` frees its `SOCKDATA` and returns -/
  | finish (i : ι)

namespace ServerState

variable {ι : Type}

/-- The server before the first `loop_once`. -/
def init : ServerState ι :=
  { conns := fun _ => mallocSockconn 0, count := 0, fds := fun _ => none, batch := [],
    queue := [], workers := fun _ => .idle }

/-- The descriptor of the `SOCKCONN` is open and denotes its connection, so that
it is registered with epoll. -/
def Registered (s : ServerState ι) (c : ConnId) : Prop := s.fds (s.conns c).sockFd = some c

instance (s : ServerState ι) (c : ConnId) : Decidable (s.Registered c) :=
  inferInstanceAs (Decidable (_ = _))

/-- `epoll_wait` can return the event.  `EPOLLOUT` is in no interest set. -/
def Deliverable (s : ServerState ι) : Event → Prop
  | .listener => True
  | .conn c flags => s.Registered c ∧ flags.epollOut = false

instance (s : ServerState ι) : ∀ e, Decidable (s.Deliverable e)
  | .listener => inferInstanceAs (Decidable True)
  | .conn _ _ => inferInstanceAs (Decidable (_ ∧ _))

/-- Change a connection. -/
def setConn (s : ServerState ι) (c : ConnId) (conn : SockConn) : ServerState ι :=
  { s with conns := Function.update s.conns c conn }

/-- Bytes from the peer of a connection. -/
def receive (s : ServerState ι) (c : ConnId) (bytes : List UInt8) (sent : List Payload) :
    Option (ServerState ι) :=
  let conn := s.conns c
  if s.Registered c ∧ conn.fin = false then
    some (s.setConn c
      { conn with rx := conn.rx ++ bytes, sent := conn.sent ++ sent, edge := true })
  else none

/-- `free_sockconn`: close the descriptor if it is still set, clear it, free. -/
def freeSockconn (s : ServerState ι) (c : ConnId) : ServerState ι :=
  let conn := s.conns c
  { s.setConn c { conn with sockFd := 0, released := conn.released + 1 } with
    fds := if conn.sockFd > 0 then Function.update s.fds conn.sockFd none else s.fds }

/-- `epoll_wait` reports a readable connection once for all that has arrived. -/
def reported (s : ServerState ι) (events : List Event) (c : ConnId) : SockConn :=
  let conn := s.conns c
  if events.any (fun e => match e with
      | .listener => false
      | .conn c' flags => c' == c && flags.epollIn) then { conn with edge := false }
  else conn

variable [DecidableEq ι]

/-- Move a worker. -/
def setPc (s : ServerState ι) (i : ι) (pc : Pc) : ServerState ι :=
  { s with workers := Function.update s.workers i pc }

/-- The first step of a job.  A job of `write_sock_func` from the event loop has
no message, and no step. -/
def enter (s : ServerState ι) (i : ι) : Job → Option (ServerState ι)
  | .read c => some (s.setPc i (.peeking c (s.conns c).sockFd))
  | .free c => some ((s.freeSockconn c).setPc i .idle)
  | .write _ => none

/-- `recv_peek` and the test of the header in `read_normal_sock`. -/
def peek (s : ServerState ι) (i : ι) (c : ConnId) (fd : Nat) : ServerState ι :=
  match s.fds fd with
  | none => s.setPc i (.finishing c)
  | some k =>
    let conn := s.conns k
    if conn.rx = [] then
      s.setPc i (if conn.fin then .analysing c fd none 0 else .finishing c)
    else if headerValue conn.rx ≤ 0 then s.setPc i (.finishing c)
    else s.setPc i (.reading c fd conn.taken (takenSize conn.rx) [])

/-- One `read` of `readn`, with `got` read before. -/
def read (s : ServerState ι) (i : ι) (n : Nat) (c : ConnId) (fd start size : Nat)
    (got : List UInt8) : Option (ServerState ι) :=
  match s.fds fd with
  | none => some (s.setPc i (.finishing c))
  | some k =>
    let conn := s.conns k
    if conn.rx = [] then
      -- `EAGAIN` and end of stream both end `readn` with what there is.
      some (s.setPc i (.analysing c fd (some (padded got size)) got.length))
    else if 0 < n ∧ n ≤ size - got.length ∧ n ≤ conn.rx.length then
      let all := got ++ conn.rx.take n
      some ((s.setConn k { conn with rx := conn.rx.drop n, taken := conn.taken + n }).setPc i
        (if all.length = size then .analysing c fd (some all) all.length
         else .reading c fd start size all))
    else none

/-- `analysis_message` and the test of its result. -/
def analyse (d : Decoder) (s : ServerState ι) (i : ι) (c : ConnId) (fd : Nat)
    (buf : Option (List UInt8)) (nbytes : Nat) : Option (ServerState ι) :=
  match analysisMessage d buf nbytes with
  | none => none
  | some cmds => some (s.setPc i (if cmds = [] then .finishing c else .executing c fd cmds))

/-- One turn of the inner loop of `read_sock_func`. -/
def execute (s : ServerState ι) (i : ι) (c : ConnId) (fd : Nat) :
    List ParsedCommand → Option (ServerState ι)
  | [] => none
  | cmd :: cmds =>
    let conn := s.conns c
    some ((s.setConn c { conn with executed := conn.executed ++ [cmd] }).setPc i
      (if cmds = [] then .peeking c fd else .executing c fd cmds))

/-- One step of the machine. -/
def step (d : Decoder) (s : ServerState ι) : Label ι → Option (ServerState ι)
  | .accept fd =>
    if s.batch.head? = some .listener ∧ fd ≠ 0 ∧ s.fds fd = none then
      some { s.setConn s.count (mallocSockconn fd) with
        count := s.count + 1, fds := Function.update s.fds fd (some s.count) }
    else none
  | .accepted =>
    if s.batch.head? = some .listener then some { s with batch := s.batch.tail } else none
  | .epollWait events =>
    if s.batch = [] ∧ (∀ e ∈ events, s.Deliverable e) ∧
        (events.filterMap Event.conn?).Nodup then
      some { s with batch := events, conns := s.reported events }
    else none
  | .dispatch =>
    match s.batch with
    | .conn c flags :: batch =>
      some { s with batch, queue := s.queue ++ (loopOnceJob c flags).toList }
    | _ => none
  | .arrive c p => s.receive c p.frame [p]
  | .garbage c bytes => s.receive c bytes []
  | .close c =>
    if s.Registered c then some (s.setConn c { s.conns c with fin := true, edge := true })
    else none
  | .take i =>
    match s.workers i, s.queue with
    | .idle, job :: queue => some ({ s with queue }.setPc i (.started job))
    | _, _ => none
  | .enter i =>
    match s.workers i with
    | .started job => s.enter i job
    | _ => none
  | .peek i =>
    match s.workers i with
    | .peeking c fd => some (s.peek i c fd)
    | _ => none
  | .read i n =>
    match s.workers i with
    | .reading c fd start size got => s.read i n c fd start size got
    | _ => none
  | .analyse i =>
    match s.workers i with
    | .analysing c fd buf nbytes => s.analyse d i c fd buf nbytes
    | _ => none
  | .execute i =>
    match s.workers i with
    | .executing c fd cmds => s.execute i c fd cmds
    | _ => none
  | .finish i =>
    match s.workers i with
    | .finishing _ => some (s.setPc i .idle)
    | _ => none

end ServerState

end WowProxy
