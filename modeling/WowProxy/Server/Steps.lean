/-
  Server/Steps.lean --- what one step of the machine can do.

  `Took` has one constructor for each way a step can go, with the guards it was
  taken under and the state behind it.  Every invariant of the machine is proved
  by cases on it, and no later module unfolds `step`.
-/
import WowProxy.Server.State

set_option autoImplicit false

namespace WowProxy.ServerState

open WowProxy.Lib.CString

variable {ι : Type} [DecidableEq ι]

/-! ## Changes of the state -/

/-- The state behind `accept`. -/
def acceptConn (s : ServerState ι) (fd : Nat) : ServerState ι :=
  { s.setConn s.count (mallocSockconn fd) with
    count := s.count + 1, fds := Function.update s.fds fd (some s.count) }

/-- A connection behind `n` bytes read. -/
def readBytes (conn : SockConn) (n : Nat) : SockConn :=
  { conn with rx := conn.rx.drop n, taken := conn.taken + n }

/-- A connection behind a command executed for it. -/
def executeCmd (conn : SockConn) (cmd : ParsedCommand) : SockConn :=
  { conn with executed := conn.executed ++ [cmd] }

/-- A connection behind bytes from its peer. -/
def receiveBytes (conn : SockConn) (bytes : List UInt8) (sent : List Payload) : SockConn :=
  { conn with rx := conn.rx ++ bytes, sent := conn.sent ++ sent, edge := true }

/-! ## Reading a changed state -/

section Changed

variable (s : ServerState ι)

/-- After a move, a worker is the one that moved or is where it was. -/
theorem workers_setPc_cases (i : ι) (pc : Pc) (j : ι) :
    j = i ∧ (s.setPc i pc).workers j = pc ∨ j ≠ i ∧ (s.setPc i pc).workers j = s.workers j := by
  by_cases hji : j = i
  · rw [hji]
    exact Or.inl ⟨rfl, Function.update_self _ _ _⟩
  · exact Or.inr ⟨hji, Function.update_of_ne hji _ _⟩

theorem workers_setPc_self (i : ι) (pc : Pc) : (s.setPc i pc).workers i = pc :=
  Function.update_self _ _ _

theorem workers_setPc_of_ne {i j : ι} (hne : j ≠ i) (pc : Pc) :
    (s.setPc i pc).workers j = s.workers j :=
  Function.update_of_ne hne _ _

omit [DecidableEq ι]

theorem conns_setConn_self (c : ConnId) (conn : SockConn) : (s.setConn c conn).conns c = conn :=
  Function.update_self _ _ _

theorem conns_setConn_of_ne {c k : ConnId} (hne : k ≠ c) (conn : SockConn) :
    (s.setConn c conn).conns k = s.conns k :=
  Function.update_of_ne hne _ _

theorem conns_acceptConn_self (fd : Nat) : (s.acceptConn fd).conns s.count = mallocSockconn fd :=
  s.conns_setConn_self _ _

theorem conns_acceptConn_of_ne {c : ConnId} (hne : c ≠ s.count) (fd : Nat) :
    (s.acceptConn fd).conns c = s.conns c :=
  s.conns_setConn_of_ne hne _

theorem conns_freeSockconn_self (c : ConnId) :
    (s.freeSockconn c).conns c =
      { s.conns c with sockFd := 0, released := (s.conns c).released + 1 } :=
  s.conns_setConn_self _ _

theorem conns_freeSockconn_of_ne {c k : ConnId} (hne : k ≠ c) :
    (s.freeSockconn c).conns k = s.conns k :=
  s.conns_setConn_of_ne hne _

/-- A report takes the edge of a readable connection and changes nothing else. -/
theorem reported_cases (events : List Event) (c : ConnId) :
    s.reported events c = s.conns c ∨ s.reported events c = { s.conns c with edge := false } ∧
      ∃ flags, .conn c flags ∈ events ∧ flags.epollIn = true := by
  unfold reported
  dsimp only
  split
  · rename_i hany
    obtain ⟨e, he, hin⟩ := List.any_eq_true.mp hany
    cases e with
    | listener => exact absurd hin (by simp)
    | conn k flags =>
      simp only [Bool.and_eq_true, beq_iff_eq] at hin
      exact Or.inr ⟨rfl, flags, hin.1 ▸ he, hin.2⟩
  · exact Or.inl rfl

end Changed

/-! ## The ways a step can go -/

/-- The ways a step can go. -/
inductive Took (d : Decoder) (s : ServerState ι) : Label ι → ServerState ι → Prop
  | accept {fd : Nat} (hfd : fd ≠ 0) (hfree : s.fds fd = none) :
      Took d s (.accept fd) (s.acceptConn fd)
  | accepted {batch : List Event} (hbatch : s.batch = .listener :: batch) :
      Took d s .accepted { s with batch }
  | epollWait {events : List Event} (hbatch : s.batch = [])
      (hevents : ∀ e ∈ events, s.Deliverable e) :
      Took d s (.epollWait events) { s with batch := events, conns := s.reported events }
  | dispatch {c : ConnId} {flags : Flags} {batch : List Event}
      (hbatch : s.batch = .conn c flags :: batch) :
      Took d s .dispatch { s with batch, queue := s.queue ++ (loopOnceJob c flags).toList }
  | arrive {c : ConnId} {p : Payload} (hreg : s.Registered c) :
      Took d s (.arrive c p) (s.setConn c (receiveBytes (s.conns c) p.frame [p]))
  | garbage {c : ConnId} {bytes : List UInt8} (hreg : s.Registered c) :
      Took d s (.garbage c bytes) (s.setConn c (receiveBytes (s.conns c) bytes []))
  | close {c : ConnId} (hreg : s.Registered c) :
      Took d s (.close c) (s.setConn c { s.conns c with fin := true, edge := true })
  | take {i : ι} {job : Job} {queue : List Job} (hpc : s.workers i = .idle)
      (hqueue : s.queue = job :: queue) :
      Took d s (.take i) ({ s with queue }.setPc i (.started job))
  | enterRead {i : ι} {c : ConnId} (hpc : s.workers i = .started (.read c)) :
      Took d s (.enter i) (s.setPc i (.peeking c (s.conns c).sockFd))
  | enterFree {i : ι} {c : ConnId} (hpc : s.workers i = .started (.free c)) :
      Took d s (.enter i) ((s.freeSockconn c).setPc i .idle)
  /-- the captured descriptor is closed -/
  | peekStale {i : ι} {c : ConnId} {fd : Nat} (hpc : s.workers i = .peeking c fd)
      (hfd : s.fds fd = none) : Took d s (.peek i) (s.setPc i (.finishing c))
  | peekEmpty {i : ι} {c : ConnId} {fd : Nat} {k : ConnId} (hpc : s.workers i = .peeking c fd)
      (hfd : s.fds fd = some k) (hrx : (s.conns k).rx = []) :
      Took d s (.peek i)
        (s.setPc i (if (s.conns k).fin then .analysing c fd none 0 else .finishing c))
  /-- the header is not positive -/
  | peekBad {i : ι} {c : ConnId} {fd : Nat} {k : ConnId} (hpc : s.workers i = .peeking c fd)
      (hfd : s.fds fd = some k) (hrx : (s.conns k).rx ≠ [])
      (hvalue : headerValue (s.conns k).rx ≤ 0) :
      Took d s (.peek i) (s.setPc i (.finishing c))
  | peekHeader {i : ι} {c : ConnId} {fd : Nat} {k : ConnId} (hpc : s.workers i = .peeking c fd)
      (hfd : s.fds fd = some k) (hrx : (s.conns k).rx ≠ []) :
      Took d s (.peek i)
        (s.setPc i (.reading c fd (s.conns k).taken (takenSize (s.conns k).rx) []))
  | readStale {i : ι} {n : Nat} {c : ConnId} {fd start size : Nat} {got : List UInt8}
      (hpc : s.workers i = .reading c fd start size got) (hfd : s.fds fd = none) :
      Took d s (.read i n) (s.setPc i (.finishing c))
  | readEmpty {i : ι} {n : Nat} {c : ConnId} {fd start size : Nat} {got : List UInt8}
      {k : ConnId} (hpc : s.workers i = .reading c fd start size got) (hfd : s.fds fd = some k)
      (hrx : (s.conns k).rx = []) :
      Took d s (.read i n) (s.setPc i (.analysing c fd (some (padded got size)) got.length))
  | read {i : ι} {n : Nat} {c : ConnId} {fd start size : Nat} {got : List UInt8} {k : ConnId}
      (hpc : s.workers i = .reading c fd start size got) (hfd : s.fds fd = some k)
      (hpos : 0 < n) (hsize : n ≤ size - got.length) (hrx : n ≤ (s.conns k).rx.length) :
      Took d s (.read i n)
        ((s.setConn k (readBytes (s.conns k) n)).setPc i
          (if (got ++ (s.conns k).rx.take n).length = size then
            .analysing c fd (some (got ++ (s.conns k).rx.take n))
              (got ++ (s.conns k).rx.take n).length
          else .reading c fd start size (got ++ (s.conns k).rx.take n)))
  | analyse {i : ι} {c : ConnId} {fd : Nat} {buf : Option (List UInt8)} {nbytes : Nat}
      {cmds : List ParsedCommand} (hpc : s.workers i = .analysing c fd buf nbytes)
      (hcmds : analysisMessage d buf nbytes = some cmds) :
      Took d s (.analyse i)
        (s.setPc i (if cmds = [] then .finishing c else .executing c fd cmds))
  | execute {i : ι} {c : ConnId} {fd : Nat} {cmd : ParsedCommand} {cmds : List ParsedCommand}
      (hpc : s.workers i = .executing c fd (cmd :: cmds)) :
      Took d s (.execute i)
        ((s.setConn c (executeCmd (s.conns c) cmd)).setPc i
          (if cmds = [] then .peeking c fd else .executing c fd cmds))
  | finish {i : ι} {c : ConnId} (hpc : s.workers i = .finishing c) :
      Took d s (.finish i) (s.setPc i .idle)

omit [DecidableEq ι] in
theorem took_of_receive {s s' : ServerState ι} {c : ConnId} {bytes : List UInt8}
    {sent : List Payload} (h : s.receive c bytes sent = some s') :
    s.Registered c ∧ s' = s.setConn c (receiveBytes (s.conns c) bytes sent) := by
  unfold receive at h
  dsimp only at h
  split at h
  · rename_i hguard
    exact ⟨hguard.1, (Option.some.inj h).symm⟩
  · exact absurd h (by simp)

theorem took_of_peek {d : Decoder} {s : ServerState ι} {i : ι} {c : ConnId} {fd : Nat}
    (hpc : s.workers i = .peeking c fd) : Took d s (.peek i) (s.peek i c fd) := by
  unfold peek
  cases hfd : s.fds fd with
  | none => exact .peekStale hpc hfd
  | some k =>
    dsimp only
    split
    · exact .peekEmpty hpc hfd ‹_›
    · split
      · exact .peekBad hpc hfd ‹_› ‹_›
      · exact .peekHeader hpc hfd ‹_›

theorem took_of_read {d : Decoder} {s s' : ServerState ι} {i : ι} {n : Nat} {c : ConnId}
    {fd start size : Nat} {got : List UInt8} (hpc : s.workers i = .reading c fd start size got)
    (h : s.read i n c fd start size got = some s') : Took d s (.read i n) s' := by
  unfold read at h
  cases hfd : s.fds fd with
  | none =>
    rw [hfd] at h
    obtain rfl := Option.some.inj h
    exact .readStale hpc hfd
  | some k =>
    rw [hfd] at h
    dsimp only at h
    split at h
    · obtain rfl := Option.some.inj h
      exact .readEmpty hpc hfd ‹_›
    · split at h
      · rename_i hn
        obtain rfl := Option.some.inj h
        exact .read hpc hfd hn.1 hn.2.1 hn.2.2
      · exact absurd h (by simp)

theorem took_of_enter {d : Decoder} {s s' : ServerState ι} {i : ι} {job : Job}
    (hpc : s.workers i = .started job) (h : s.enter i job = some s') : Took d s (.enter i) s' := by
  cases job with
  | read c =>
    obtain rfl := Option.some.inj h
    exact .enterRead hpc
  | free c =>
    obtain rfl := Option.some.inj h
    exact .enterFree hpc
  | write c => exact absurd h (by simp [enter])

theorem took_of_analyse {d : Decoder} {s s' : ServerState ι} {i : ι} {c : ConnId} {fd : Nat}
    {buf : Option (List UInt8)} {nbytes : Nat} (hpc : s.workers i = .analysing c fd buf nbytes)
    (h : s.analyse d i c fd buf nbytes = some s') : Took d s (.analyse i) s' := by
  unfold analyse at h
  cases hcmds : analysisMessage d buf nbytes with
  | none =>
    rw [hcmds] at h
    exact absurd h (by simp)
  | some cmds =>
    rw [hcmds] at h
    obtain rfl := Option.some.inj h
    exact .analyse hpc hcmds

theorem took_of_execute {d : Decoder} {s s' : ServerState ι} {i : ι} {c : ConnId} {fd : Nat}
    {cmds : List ParsedCommand} (hpc : s.workers i = .executing c fd cmds)
    (h : s.execute i c fd cmds = some s') : Took d s (.execute i) s' := by
  cases cmds with
  | nil => exact absurd h (by simp [execute])
  | cons cmd cmds =>
    obtain rfl := Option.some.inj h
    exact .execute hpc

/-- Every step goes one of these ways. -/
theorem took_of_step {d : Decoder} {s s' : ServerState ι} {a : Label ι}
    (h : step d s a = some s') : Took d s a s' := by
  cases a with
  | accept fd =>
    simp only [step] at h
    split at h
    · rename_i hguard
      obtain rfl := Option.some.inj h
      exact .accept hguard.2.1 hguard.2.2
    · exact absurd h (by simp)
  | accepted =>
    simp only [step] at h
    split at h
    · rename_i hhead
      obtain rfl := Option.some.inj h
      obtain ⟨batch, hbatch⟩ := List.head?_eq_some_iff.mp hhead
      rw [hbatch]
      exact .accepted hbatch
    · exact absurd h (by simp)
  | epollWait events =>
    simp only [step] at h
    split at h
    · rename_i hguard
      obtain rfl := Option.some.inj h
      exact .epollWait hguard.1 hguard.2.1
    · exact absurd h (by simp)
  | dispatch =>
    simp only [step] at h
    split at h
    · rename_i hbatch
      obtain rfl := Option.some.inj h
      exact .dispatch hbatch
    · exact absurd h (by simp)
  | arrive c p =>
    obtain ⟨hreg, rfl⟩ := took_of_receive h
    exact .arrive hreg
  | garbage c bytes =>
    obtain ⟨hreg, rfl⟩ := took_of_receive h
    exact .garbage hreg
  | close c =>
    simp only [step] at h
    split at h
    · rename_i hreg
      obtain rfl := Option.some.inj h
      exact .close hreg
    · exact absurd h (by simp)
  | take i =>
    simp only [step] at h
    split at h
    · rename_i hpc hqueue
      obtain rfl := Option.some.inj h
      exact .take hpc hqueue
    · exact absurd h (by simp)
  | enter i =>
    simp only [step] at h
    split at h
    · exact took_of_enter ‹_› h
    · exact absurd h (by simp)
  | peek i =>
    simp only [step] at h
    split at h
    · obtain rfl := Option.some.inj h
      exact took_of_peek ‹_›
    · exact absurd h (by simp)
  | read i n =>
    simp only [step] at h
    split at h
    · exact took_of_read ‹_› h
    · exact absurd h (by simp)
  | analyse i =>
    simp only [step] at h
    split at h
    · exact took_of_analyse ‹_› h
    · exact absurd h (by simp)
  | execute i =>
    simp only [step] at h
    split at h
    · exact took_of_execute ‹_› h
    · exact absurd h (by simp)
  | finish i =>
    simp only [step] at h
    split at h
    · obtain rfl := Option.some.inj h
      exact .finish ‹_›
    · exact absurd h (by simp)

end WowProxy.ServerState
