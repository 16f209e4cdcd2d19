/-
  Server/Order.lean --- the commands of a connection are executed in the order
  they were sent, each once, and none is left behind.

  `StreamInv` gives the order.  That nothing is left behind needs a second
  invariant: while bytes are in the receive buffer, something will make a worker
  look at it, be it an edge that epoll has not reported, an event or a job that is
  on its way, or a worker that has not come to the end of its loop.  A worker that
  rejects a message leaves its loop with bytes in the buffer.
-/
import WowProxy.Server.Stream

set_option autoImplicit false

namespace WowProxy

open WowProxy.Lib.Runs

/-! ## Being served -/

/-- The event makes `loop_once` add a job for the connection. -/
def Event.Wakes (c : ConnId) : Event → Prop
  | .listener => False
  | .conn k flags => k = c ∧ (flags.epollErr || flags.epollHup || flags.epollIn) = true

instance (c : ConnId) : ∀ e : Event, Decidable (e.Wakes c)
  | .listener => isFalse id
  | .conn _ _ => inferInstanceAs (Decidable (_ ∧ _))

/-- An event that wakes turns into a job of its connection. -/
theorem loopOnceJob_wakes {c k : ConnId} {flags : Flags} (h : (Event.conn k flags).Wakes c) :
    ∃ job, loopOnceJob k flags = some job ∧ job.conn = c := by
  obtain ⟨rfl, h⟩ := h
  unfold loopOnceJob
  split
  · exact ⟨_, rfl, rfl⟩
  · rename_i hopen
    split
    · exact ⟨_, rfl, rfl⟩
    · rw [Bool.eq_false_of_not_eq_true hopen, Bool.false_or] at h
      rw [if_pos h]
      exact ⟨_, rfl, rfl⟩

namespace ServerState

variable {ι : Type}

/-- An edge, an event or a job is on its way to a worker. -/
def Awaited (s : ServerState ι) (c : ConnId) : Prop :=
  (s.conns c).edge = true ∨ (∃ e ∈ s.batch, e.Wakes c) ∨ ∃ job ∈ s.queue, job.conn = c

instance (s : ServerState ι) (c : ConnId) : Decidable (s.Awaited c) :=
  inferInstanceAs (Decidable (_ ∨ _ ∨ _))

/-- The connection a worker serves, until it leaves the loop of its job. -/
def serves? : Pc → Option ConnId
  | .finishing _ => none
  | pc => pc.conn?

/-- Some worker will look at the receive buffer, or release the connection. -/
def Awake (s : ServerState ι) (c : ConnId) : Prop :=
  s.Awaited c ∨ ∃ i, serves? (s.workers i) = some c

/-- Nothing refers to the connection and no edge is pending. -/
def Quiet (s : ServerState ι) (c : ConnId) : Prop :=
  ¬ s.Awaited c ∧ ∀ i, (s.workers i).conn? ≠ some c

/-- If worker `i` is about to reject a message, then it leaves nothing in the
buffer, or leaves the rest to another. -/
def RejectsLast (d : Decoder) (s : ServerState ι) (i : ι) : Pc → Prop
  | .analysing c _ buf nbytes => analysisMessage d buf nbytes = some [] →
      (s.conns c).rx = [] ∨ s.Awaited c ∨ ∃ j, j ≠ i ∧ serves? (s.workers j) = some c
  | _ => True

/-- A worker that rejects a message leaves nothing behind. -/
def LeavesNothing (d : Decoder) (s : ServerState ι) : Label ι → Prop
  | .analyse i => RejectsLast d s i (s.workers i)
  | _ => True

instance [Fintype ι] [DecidableEq ι] (d : Decoder) (s : ServerState ι) (i : ι) :
    ∀ pc, Decidable (RejectsLast d s i pc)
  | .analysing _ _ _ _ => inferInstanceAs (Decidable (_ → _))
  | .idle | .started _ | .peeking _ _ | .reading _ _ _ _ _ | .executing _ _ _
  | .finishing _ => isTrue trivial

instance [Fintype ι] [DecidableEq ι] (d : Decoder) (s : ServerState ι) :
    ∀ a, Decidable (LeavesNothing d s a)
  | .analyse i => inferInstanceAs (Decidable (RejectsLast d s i (s.workers i)))
  | .accept _ | .accepted | .epollWait _ | .dispatch | .arrive _ _ | .garbage _ _ | .close _
  | .take _ | .enter _ | .peek _ | .read _ _ | .execute _ | .finish _ => isTrue trivial

/-- What is promised of every reachable state. -/
structure InOrder (d : Decoder) (s : ServerState ι) : Prop where
  /-- commands are executed in the order they were sent, each once -/
  executed : ∀ c, (s.conns c).executed <+: (s.conns c).sent.flatMap d.commands
  /-- a worker reads the frame whose header it peeked: nothing else has been taken
  since -/
  aligned : ∀ i c fd start size got, s.workers i = .reading c fd start size got →
    (s.conns c).taken = start + got.length
  /-- none is left behind -/
  complete : ∀ c, s.Quiet c → (s.conns c).released = 0 →
    (s.conns c).executed = (s.conns c).sent.flatMap d.commands

/-! ## Nothing is left unseen -/

/-- A connection with bytes in its receive buffer is awake or released. -/
def WakeInv (s : ServerState ι) : Prop :=
  ∀ c, (s.conns c).rx ≠ [] → (s.conns c).released ≠ 0 ∨ s.Awake c

section Steps

variable {d : Decoder} {s s' : ServerState ι}

theorem WakeInv.init : (init : ServerState ι).WakeInv := by
  intro c hrx
  exact absurd rfl hrx

/-- A change of a connection that clears no edge. -/
theorem Awake.setConn {c k : ConnId} {conn : SockConn} (h : s.Awake k)
    (hedge : k = c → (s.conns c).edge = true → conn.edge = true) : (s.setConn c conn).Awake k := by
  rcases h with (hk | hevent | hjob) | hworker
  · refine Or.inl (Or.inl ?_)
    by_cases hkc : k = c
    · rw [hkc, conns_setConn_self]
      exact hedge hkc (hkc ▸ hk)
    · rwa [conns_setConn_of_ne s hkc]
  · exact Or.inl (Or.inr (Or.inl hevent))
  · exact Or.inl (Or.inr (Or.inr hjob))
  · exact Or.inr hworker

/-- Where the edge of a connection goes, the event that reports it is in the batch. -/
theorem Awake.epollWait {c : ConnId} (hbatch : s.batch = []) (events : List Event)
    (h : s.Awake c) : { s with batch := events, conns := s.reported events }.Awake c := by
  rcases h with (hedge | ⟨e, he, -⟩ | hjob) | hworker
  · rcases s.reported_cases events c with hsame | ⟨-, flags, hmem, hin⟩
    · refine Or.inl (Or.inl ?_)
      show (s.reported events c).edge = true
      rwa [hsame]
    · exact Or.inl (Or.inr (Or.inl ⟨_, hmem, rfl, by rw [hin, Bool.or_true]⟩))
  · rw [hbatch] at he
    exact absurd he List.not_mem_nil
  · exact Or.inl (Or.inr (Or.inr hjob))
  · exact Or.inr hworker

variable [DecidableEq ι]

/-- A worker that goes on serving its connection. -/
theorem Awake.setPc {i : ι} {pc : Pc} {c : ConnId} (h : s.Awake c)
    (hserves : serves? (s.workers i) = some c → serves? pc = some c) : (s.setPc i pc).Awake c := by
  rcases h with hawaited | ⟨j, hj⟩
  · exact Or.inl hawaited
  · refine Or.inr ⟨j, ?_⟩
    rcases s.workers_setPc_cases i pc j with ⟨rfl, hmoved⟩ | ⟨-, hstay⟩
    · rw [hmoved]
      exact hserves hj
    · rwa [hstay]

/-- A worker that leaves its loop, when the connection does not need it. -/
theorem WakeInv.finish (h : s.WakeInv) {i : ι} {c : ConnId} {pc : Pc}
    (hserves : serves? (s.workers i) = some c)
    (hdone : (s.conns c).rx = [] ∨ s.Awaited c ∨ ∃ j, j ≠ i ∧ serves? (s.workers j) = some c) :
    (s.setPc i pc).WakeInv := by
  intro k hk
  rcases h k hk with hreleased | hawake
  · exact Or.inl hreleased
  · right
    by_cases hkc : k = c
    · rw [hkc] at hk ⊢
      rcases hdone with hnil | hawaited | ⟨j, hji, hj⟩
      · exact absurd hnil hk
      · exact Or.inl hawaited
      · refine Or.inr ⟨j, ?_⟩
        rwa [s.workers_setPc_of_ne hji]
    · refine hawake.setPc fun hki => ?_
      rw [hserves, Option.some.injEq] at hki
      exact absurd hki.symm hkc

omit [DecidableEq ι] in
/-- A change of a connection that brings no bytes without an edge. -/
theorem WakeInv.setConn (h : s.WakeInv) {c : ConnId} {conn : SockConn}
    (hreleased : (s.conns c).released ≠ 0 → conn.released ≠ 0)
    (hconn : conn.edge = true ∨ conn.edge = (s.conns c).edge ∧
      (conn.rx ≠ [] → (s.conns c).rx ≠ [])) : (s.setConn c conn).WakeInv := by
  intro k hk
  by_cases hkc : k = c
  · rw [hkc, conns_setConn_self] at hk
    rw [hkc, conns_setConn_self]
    rcases hconn with hedge | ⟨hedge, hrx⟩
    · refine Or.inr (Or.inl (Or.inl ?_))
      rw [conns_setConn_self, hedge]
    · rcases h c (hrx hk) with hold | hawake
      · exact Or.inl (hreleased hold)
      · exact Or.inr (hawake.setConn fun _ hc => by rw [hedge, hc])
  · rw [conns_setConn_of_ne s hkc] at hk ⊢
    rcases h k hk with hold | hawake
    · exact Or.inl hold
    · exact Or.inr (hawake.setConn fun heq => absurd heq hkc)

/-- A worker that goes on, with the connections as they are. -/
theorem WakeInv.setPc (h : s.WakeInv) {i : ι} {pc : Pc}
    (hserves : ∀ c, serves? (s.workers i) = some c → serves? pc = some c) :
    (s.setPc i pc).WakeInv := by
  intro c hc
  rcases h c hc with hreleased | hawake
  · exact Or.inl hreleased
  · exact Or.inr (hawake.setPc (hserves c))

omit [DecidableEq ι] in
/-- A new connection has an empty buffer. -/
theorem WakeInv.acceptConn (h : s.WakeInv) (fd : Nat) : (s.acceptConn fd).WakeInv := by
  intro c hc
  by_cases hnew : c = s.count
  · rw [hnew, conns_acceptConn_self] at hc
    exact absurd rfl hc
  · rw [s.conns_acceptConn_of_ne hnew] at hc ⊢
    rcases h c hc with hreleased | hawake
    · exact Or.inl hreleased
    · have hconn : (s.setConn s.count (mallocSockconn fd)).Awake c :=
        hawake.setConn fun heq => absurd heq hnew
      exact Or.inr hconn

omit [DecidableEq ι] in
/-- The event of the listener wakes no connection. -/
theorem WakeInv.accepted (h : s.WakeInv) {batch : List Event}
    (hbatch : s.batch = .listener :: batch) : { s with batch }.WakeInv := by
  intro c hc
  rcases h c hc with hreleased | ((hedge | ⟨e, he, hwakes⟩ | hjob) | hworker)
  · exact Or.inl hreleased
  · exact Or.inr (Or.inl (Or.inl hedge))
  · rw [hbatch, List.mem_cons] at he
    rcases he with rfl | he
    · exact absurd hwakes id
    · exact Or.inr (Or.inl (Or.inr (Or.inl ⟨e, he, hwakes⟩)))
  · exact Or.inr (Or.inl (Or.inr (Or.inr hjob)))
  · exact Or.inr (Or.inr hworker)

omit [DecidableEq ι] in
theorem WakeInv.epollWait (h : s.WakeInv) {events : List Event} (hbatch : s.batch = []) :
    { s with batch := events, conns := s.reported events }.WakeInv := by
  intro c hc
  have hsame : (s.reported events c).rx = (s.conns c).rx ∧
      (s.reported events c).released = (s.conns c).released := by
    rcases s.reported_cases events c with hsame | ⟨hedge, -⟩
    · rw [hsame]
      exact ⟨rfl, rfl⟩
    · rw [hedge]
      exact ⟨rfl, rfl⟩
  change (s.reported events c).rx ≠ [] at hc
  rw [hsame.1] at hc
  refine (h c hc).imp (fun hold => ?_) fun hawake => hawake.epollWait hbatch events
  show (s.reported events c).released ≠ 0
  rwa [hsame.2]

omit [DecidableEq ι] in
/-- The event becomes a job. -/
theorem WakeInv.dispatch (h : s.WakeInv) {c : ConnId} {flags : Flags} {batch : List Event}
    (hbatch : s.batch = .conn c flags :: batch) :
    { s with batch, queue := s.queue ++ (loopOnceJob c flags).toList }.WakeInv := by
  intro k hk
  rcases h k hk with hreleased | ((hedge | ⟨e, he, hwakes⟩ | ⟨job, hjob, hconn⟩) | hworker)
  · exact Or.inl hreleased
  · exact Or.inr (Or.inl (Or.inl hedge))
  · rw [hbatch, List.mem_cons] at he
    rcases he with rfl | he
    · obtain ⟨job, hjob, hconn⟩ := loopOnceJob_wakes hwakes
      refine Or.inr (Or.inl (Or.inr (Or.inr ⟨job, List.mem_append_right _ ?_, hconn⟩)))
      rw [hjob]
      exact List.mem_singleton_self _
    · exact Or.inr (Or.inl (Or.inr (Or.inl ⟨e, he, hwakes⟩)))
  · exact Or.inr (Or.inl (Or.inr (Or.inr ⟨job, List.mem_append_left _ hjob, hconn⟩)))
  · exact Or.inr (Or.inr hworker)

/-- The job that is taken has its worker. -/
theorem WakeInv.take (h : s.WakeInv) {i : ι} {job : Job} {queue : List Job}
    (hpc : s.workers i = .idle) (hqueue : s.queue = job :: queue) :
    ({ s with queue }.setPc i (.started job)).WakeInv := by
  intro c hc
  have hmoved : serves? (({ s with queue }.setPc i (.started job)).workers i) = some job.conn := by
    rw [workers_setPc_self]
    rfl
  rcases h c hc with hreleased | ((hedge | hevent | ⟨job', hjob, hconn⟩) | ⟨j, hj⟩)
  · exact Or.inl hreleased
  · exact Or.inr (Or.inl (Or.inl hedge))
  · exact Or.inr (Or.inl (Or.inr (Or.inl hevent)))
  · rw [hqueue, List.mem_cons] at hjob
    rcases hjob with rfl | hjob
    · exact Or.inr (Or.inr ⟨i, by rw [hmoved, hconn]⟩)
    · exact Or.inr (Or.inl (Or.inr (Or.inr ⟨job', hjob, hconn⟩)))
  · have hji : j ≠ i := by
      rintro rfl
      rw [hpc] at hj
      exact absurd hj (by simp [serves?, Pc.conn?])
    refine Or.inr (Or.inr ⟨j, ?_⟩)
    rwa [workers_setPc_of_ne _ hji]

/-- The connection that is released needs its worker no more. -/
theorem WakeInv.enterFree (h : s.WakeInv) {i : ι} {c : ConnId}
    (hpc : s.workers i = .started (.free c)) : ((s.freeSockconn c).setPc i .idle).WakeInv := by
  intro k hk
  by_cases hkc : k = c
  · left
    rw [hkc, show ((s.freeSockconn c).setPc i .idle).conns c = _ from
      s.conns_freeSockconn_self c]
    exact Nat.succ_ne_zero _
  · have hsame : ((s.freeSockconn c).setPc i .idle).conns k = s.conns k :=
      s.conns_freeSockconn_of_ne hkc
    rw [hsame] at hk ⊢
    rcases h k hk with hold | hawake
    · exact Or.inl hold
    · right
      have hconn : (s.freeSockconn c).Awake k := by
        rcases hawake with (hedge | hevent | hjob) | hworker
        · exact Or.inl (Or.inl (by rwa [s.conns_freeSockconn_of_ne hkc]))
        · exact Or.inl (Or.inr (Or.inl hevent))
        · exact Or.inl (Or.inr (Or.inr hjob))
        · exact Or.inr hworker
      refine hconn.setPc fun hserves => ?_
      change serves? (s.workers i) = some k at hserves
      rw [hpc] at hserves
      exact absurd (Option.some.inj hserves).symm hkc

/-- A worker that takes bytes from a buffer and stays in its loop. -/
theorem WakeInv.read (h : s.WakeInv) {i : ι} {c k : ConnId} {pc : Pc} (n : Nat)
    (hserves : serves? (s.workers i) = some c) (hpc : serves? pc = some c) :
    ((s.setConn k (readBytes (s.conns k) n)).setPc i pc).WakeInv := by
  have hconn : (s.setConn k (readBytes (s.conns k) n)).WakeInv := by
    refine h.setConn id (Or.inr ⟨rfl, fun hdrop hnil => hdrop ?_⟩)
    show (s.conns k).rx.drop n = []
    rw [hnil, List.drop_nil]
  exact hconn.setPc fun c' hc' => hpc.trans (hserves.symm.trans hc')

/-- A worker that rejects a message leaves its loop. -/
theorem WakeInv.analyse (h : s.WakeInv) {i : ι} {c : ConnId} {fd : Nat}
    {buf : Option (List UInt8)} {nbytes : Nat} {cmds : List ParsedCommand}
    (hpc : s.workers i = .analysing c fd buf nbytes)
    (hcmds : analysisMessage d buf nbytes = some cmds)
    (hleaves : RejectsLast d s i (.analysing c fd buf nbytes)) :
    (s.setPc i (if cmds = [] then .finishing c else .executing c fd cmds)).WakeInv := by
  split
  · rename_i hnil
    rw [hnil] at hcmds
    exact h.finish (congrArg serves? hpc) (hleaves hcmds)
  · exact h.setPc fun c' hc' => by rw [hpc] at hc'; exact hc'

theorem WakeInv.execute (h : s.WakeInv) {i : ι} {c : ConnId} {fd : Nat} {cmd : ParsedCommand}
    {cmds : List ParsedCommand} (hpc : s.workers i = .executing c fd (cmd :: cmds)) :
    ((s.setConn c (executeCmd (s.conns c) cmd)).setPc i
      (if cmds = [] then .peeking c fd else .executing c fd cmds)).WakeInv := by
  have hconn : (s.setConn c (executeCmd (s.conns c) cmd)).WakeInv :=
    h.setConn id (Or.inr ⟨rfl, id⟩)
  refine hconn.setPc fun c' hc' => ?_
  change serves? (s.workers i) = some c' at hc'
  rw [hpc] at hc'
  split <;> exact hc'

/-- An orderly step that leaves nothing keeps every connection with bytes
awake. -/
theorem WakeInv.step {a : Label ι} (h : s.WakeInv) (hlife : s.LifetimeInv) (hstream : s.StreamInv d)
    (hgood : s.Orderly a) (hleaves : LeavesNothing d s a) (htook : Took d s a s') :
    s'.WakeInv := by
  cases htook with
  | accept hfd hfree => exact h.acceptConn _
  | accepted hbatch => exact h.accepted hbatch
  | epollWait hbatch hevents => exact h.epollWait hbatch
  | dispatch hbatch => exact h.dispatch hbatch
  | arrive hreg | garbage hreg | close hreg => exact h.setConn id (Or.inl rfl)
  | take hpc hqueue => exact h.take hpc hqueue
  | enterRead hpc => exact h.setPc fun c hc => by rw [hpc] at hc; exact hc
  | enterFree hpc => exact h.enterFree hpc
  | peekStale hpc hfd | readStale hpc hfd =>
    exact absurd hfd (hlife.captured_open (congrArg Pc.captured? hpc))
  | @peekEmpty i c fd k hpc hfd hrx =>
    obtain rfl : c = k := hlife.captured_eq (congrArg Pc.captured? hpc) hfd
    exact h.finish (congrArg serves? hpc) (Or.inl hrx)
  | @peekBad i c fd k hpc hfd hrx hvalue =>
    obtain rfl : c = k := hlife.captured_eq (congrArg Pc.captured? hpc) hfd
    have hpos := hstream.headerValue_pos (hgood.2.1 c (congrArg Pc.conn? hpc)) hrx
    omega
  | peekHeader hpc hfd hrx | readEmpty hpc hfd hrx =>
    exact h.setPc fun c hc => by rw [hpc] at hc; exact hc
  | read hpc hfd hpos hsize hrx =>
    refine h.read _ (congrArg serves? hpc) ?_
    split <;> rfl
  | analyse hpc hcmds => exact h.analyse hpc hcmds (hpc ▸ hleaves)
  | execute hpc => exact h.execute hpc
  | finish hpc =>
    exact h.setPc fun c hc => by rw [hpc] at hc; exact absurd hc (by simp [serves?])

/-! ## Order and completeness -/

/-- The three invariants together. -/
structure OrderInv (d : Decoder) (s : ServerState ι) : Prop where
  life : s.LifetimeInv
  stream : s.StreamInv d
  wake : s.WakeInv

omit [DecidableEq ι] in
/-- The invariants are what is promised. -/
theorem OrderInv.inOrder (h : s.OrderInv d) : s.InOrder d := by
  constructor
  · intro c
    obtain ⟨pc, hpc⟩ := h.stream.exists_progress c
    exact hpc.executed_prefix
  · intro i c fd start size got hi
    have hprogress := h.stream.progress i c (congrArg Pc.active? hi)
    rw [hi] at hprogress
    obtain ⟨p, pend, -, -, -, htaken, -⟩ := hprogress
    exact htaken
  · intro c hquiet hreleased
    have hnobody : ∀ i, (s.workers i).active? ≠ some c := fun i hi => hquiet.2 i (active_conn hi)
    have hrx : (s.conns c).rx = [] := by
      by_contra hrx
      rcases h.wake c hrx with hgone | (hawaited | ⟨i, hi⟩)
      · exact hgone hreleased
      · exact hquiet.1 hawaited
      · refine hquiet.2 i ?_
        cases hpc : s.workers i with
        | finishing k => rw [hpc] at hi; exact absurd hi (by simp [serves?])
        | idle | started | peeking | reading | analysing | executing =>
          rw [hpc] at hi
          exact hi
    exact (h.stream.settled c hnobody).complete hrx

/-- The conditions under which commands are executed in order. -/
def InTurn (d : Decoder) (s : ServerState ι) (a : Label ι) : Prop :=
  s.Orderly a ∧ LeavesNothing d s a

instance [Fintype ι] (s : ServerState ι) (a : Label ι) : Decidable (InTurn d s a) :=
  inferInstanceAs (Decidable (_ ∧ _))

theorem OrderInv.step {a : Label ι} (h : s.OrderInv d) (hgood : InTurn d s a)
    (hstep : ServerState.step d s a = some s') : s'.OrderInv d :=
  ⟨h.life.step hgood.1.1 hstep,
    h.stream.step h.life hgood.1 (took_of_step hstep),
    h.wake.step h.life h.stream hgood.1 hgood.2 (took_of_step hstep)⟩

end Steps

/-- **In every run in which each step is in its turn, the commands of every
connection are executed in the order they were sent, each once, no frame is read
with the header of another, and none is left behind.** -/
theorem inOrder_of_inTurn [DecidableEq ι] (d : Decoder) {labels : List (Label ι)}
    {s : ServerState ι} (hturn : Meets (step d) (InTurn d) init labels)
    (hrun : run (step d) init labels = some s) : s.InOrder d := by
  have hinv : s.OrderInv d :=
    run_invariant (fun _ _ _ h hg hs => h.step hg hs)
      ⟨LifetimeInv.init, StreamInv.init, WakeInv.init⟩ hturn hrun
  exact hinv.inOrder

/-- A frame is read by the first worker, and one that arrives behind it by the second. -/
def twoFrames : List (Label (Fin 2)) :=
  let first : Fin 2 := ⟨0, Nat.two_pos⟩
  let second : Fin 2 := ⟨1, Nat.one_lt_two⟩
  acceptAndSend ++ [.epollWait [.conn 0 readable], .dispatch, .take first, .enter first,
    .peek first, .read first 1, .read first 3, .analyse first, .execute first, .peek first,
    .finish first, .arrive 0 payloadA, .epollWait [.conn 0 readable], .dispatch, .take second,
    .enter second, .peek second, .read second 4, .analyse second, .execute second, .peek second,
    .finish second]

theorem inOrder_of_two_frames :
    ∃ s, run (step oneCommand) init twoFrames = some s ∧ (s.conns 0).executed.length = 2 ∧
      s.InOrder oneCommand := by
  have hrun : (run (step oneCommand) init twoFrames).map (fun s => (s.conns 0).executed.length) =
      some 2 := by decide +kernel
  obtain ⟨s, hs, hexecuted⟩ := Option.map_eq_some_iff.mp hrun
  exact ⟨s, hs, hexecuted, inOrder_of_inTurn oneCommand (by decide +kernel) hs⟩

/-- Two jobs peek at the same frame.  One of them reads it, and the other one
reads the next frame with its length. -/
theorem second_reader_misaligned :
    ¬ ∀ (ι : Type) [DecidableEq ι] (d : Decoder) (labels : List (Label ι)) (s : ServerState ι),
      run (step d) init labels = some s → s.InOrder d := by
  intro h
  have hrun : (run (step oneCommand) init (acceptAndSend ++ [.epollWait [.conn 0 readable],
      .dispatch, .arrive 0 payloadA, .epollWait [.conn 0 readable], .dispatch, .take 0, .enter 0,
      .take 1, .enter 1, .peek 0, .peek 1, .read 0 4, .read 1 3])).map
        (fun s => (s.workers 1, (s.conns 0).taken)) =
      some (.reading 0 5 0 4 (payloadA.frame.take 3), 7) := by decide +kernel
  obtain ⟨s, hs, hstate⟩ := Option.map_eq_some_iff.mp hrun
  rw [Prod.mk.injEq] at hstate
  have haligned := (h (Fin 2) _ _ s hs).aligned 1 0 5 0 4 _ hstate.1
  rw [hstate.2] at haligned
  exact absurd haligned (by decide)

end ServerState

end WowProxy
