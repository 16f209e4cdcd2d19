/-
  Server/Stream.lean --- how the workers take the byte stream of a connection.

  A connection is registered edge-triggered and without `EPOLLONESHOT`, so two
  events make two read jobs, which two workers may run at once.  Peek and read are
  separate steps, and so are reading a message and executing its commands.  As
  long as a worker peeks only while no other worker deals with a message of the
  connection, the stream is taken frame by frame: `StreamInv` says where each
  connection is in its stream, and `StreamInv.step` that every such step keeps
  it.
-/
import WowProxy.Server.Lifetime

set_option autoImplicit false

namespace WowProxy.ServerState

open WowProxy.Lib.Runs

/-! ## Where a connection is in its stream -/

section Stream

variable (d : Decoder) (conn : SockConn)

/-- The receive buffer holds whole frames; executing `todo` and then their
commands executes all that was sent. -/
def Settled (todo : List ParsedCommand) : Prop :=
  ∃ pend, conn.rx = frameBytes pend ∧
    conn.executed ++ todo ++ pend.flatMap d.commands = conn.sent.flatMap d.commands

/-- How far the worker that deals with the connection has come. -/
def Progress : Pc → Prop
  | .reading _ _ start size got => ∃ p pend,
      got ++ conn.rx = p.frame ++ frameBytes pend ∧ size = p.frame.length ∧
        got.length < size ∧ conn.taken = start + got.length ∧
        conn.executed ++ d.commands p ++ pend.flatMap d.commands = conn.sent.flatMap d.commands
  | .analysing _ _ buf nbytes => ∃ cmds, analysisMessage d buf nbytes = some cmds ∧
      Settled d conn cmds
  | .executing _ _ cmds => Settled d conn cmds
  | _ => Settled d conn []

end Stream

/-- The stream of a connection is the same. -/
structure SameStream (conn conn' : SockConn) : Prop where
  rx : conn'.rx = conn.rx
  sent : conn'.sent = conn.sent
  taken : conn'.taken = conn.taken
  executed : conn'.executed = conn.executed

theorem SameStream.refl (conn : SockConn) : SameStream conn conn := ⟨rfl, rfl, rfl, rfl⟩

/-- Descriptor, releases, end of stream and edge are no part of the stream. -/
theorem SameStream.update (conn : SockConn) (sockFd released : Nat) (fin edge : Bool) :
    SameStream conn { conn with sockFd, released, fin, edge } :=
  ⟨rfl, rfl, rfl, rfl⟩

section Stream

variable {d : Decoder} {conn conn' : SockConn}

theorem Settled.same (hsame : SameStream conn conn') {todo : List ParsedCommand}
    (h : Settled d conn todo) : Settled d conn' todo := by
  obtain ⟨pend, hrx, hexecuted⟩ := h
  exact ⟨pend, by rw [hsame.rx, hrx], by rw [hsame.executed, hsame.sent, hexecuted]⟩

theorem Progress.same (hsame : SameStream conn conn') {pc : Pc} (h : Progress d conn pc) :
    Progress d conn' pc := by
  cases pc with
  | reading c fd start size got =>
    obtain ⟨p, pend, hbytes, hsize, hlt, htaken, hexecuted⟩ := h
    exact ⟨p, pend, by rw [hsame.rx, hbytes], hsize, hlt, by rw [hsame.taken, htaken],
      by rw [hsame.executed, hsame.sent, hexecuted]⟩
  | analysing c fd buf nbytes =>
    obtain ⟨cmds, hcmds, hsettled⟩ := h
    exact ⟨cmds, hcmds, hsettled.same hsame⟩
  | idle | started | peeking | executing | finishing => exact Settled.same hsame h

/-- A worker that is not dealing with a message leaves the stream settled. -/
theorem progress_of_inactive {pc : Pc} (h : pc.active? = none) :
    Progress d conn pc ↔ Settled d conn [] := by
  cases pc with
  | idle | started | peeking | finishing => exact Iff.rfl
  | reading | analysing | executing => exact absurd h (by simp [Pc.active?])

theorem Settled.receive (p : Payload) {todo : List ParsedCommand} (h : Settled d conn todo) :
    Settled d (receiveBytes conn p.frame [p]) todo := by
  obtain ⟨pend, hrx, hexecuted⟩ := h
  refine ⟨pend ++ [p], ?_, ?_⟩
  · show conn.rx ++ p.frame = _
    rw [hrx, frameBytes_append, frameBytes_cons, frameBytes_nil, List.append_nil]
  · show conn.executed ++ todo ++ _ = (conn.sent ++ [p]).flatMap d.commands
    rw [List.flatMap_append, List.flatMap_append, ← List.append_assoc, hexecuted]

/-- A frame that arrives joins the end of the stream. -/
theorem Progress.receive (p : Payload) {pc : Pc} (h : Progress d conn pc) :
    Progress d (receiveBytes conn p.frame [p]) pc := by
  cases pc with
  | reading c fd start size got =>
    obtain ⟨q, pend, hbytes, hsize, hlt, htaken, hexecuted⟩ := h
    refine ⟨q, pend ++ [p], ?_, hsize, hlt, htaken, ?_⟩
    · show got ++ (conn.rx ++ p.frame) = _
      rw [← List.append_assoc, hbytes, frameBytes_append, frameBytes_cons, frameBytes_nil,
        List.append_nil, List.append_assoc]
    · show conn.executed ++ _ ++ _ = (conn.sent ++ [p]).flatMap d.commands
      rw [List.flatMap_append, List.flatMap_append, ← List.append_assoc, hexecuted]
  | analysing c fd buf nbytes =>
    obtain ⟨cmds, hcmds, hsettled⟩ := h
    exact ⟨cmds, hcmds, hsettled.receive p⟩
  | idle | started | peeking | executing | finishing => exact Settled.receive p h

/-- A settled stream that is not empty starts with a frame. -/
theorem Settled.cons (h : Settled d conn []) (hrx : conn.rx ≠ []) :
    ∃ p pend, conn.rx = p.frame ++ frameBytes pend ∧
      conn.executed ++ d.commands p ++ pend.flatMap d.commands =
        conn.sent.flatMap d.commands := by
  obtain ⟨pend, hpend, hexecuted⟩ := h
  cases pend with
  | nil => exact absurd hpend hrx
  | cons p pend =>
    refine ⟨p, pend, hpend, ?_⟩
    rw [List.append_nil, List.flatMap_cons, ← List.append_assoc] at hexecuted
    exact hexecuted

/-- When a settled stream is empty, all that was sent has been executed. -/
theorem Settled.complete (h : Settled d conn []) (hrx : conn.rx = []) :
    conn.executed = conn.sent.flatMap d.commands := by
  obtain ⟨pend, hpend, hexecuted⟩ := h
  cases pend with
  | nil =>
    rw [List.append_nil, List.flatMap_nil, List.append_nil] at hexecuted
    exact hexecuted
  | cons p pend =>
    have hlength := congrArg List.length hpend
    rw [hrx, frameBytes_cons, List.length_append, p.length_frame, List.length_nil] at hlength
    omega

/-- The header of a settled stream starts a frame. -/
theorem Settled.reading (h : Settled d conn []) (hrx : conn.rx ≠ []) (c : ConnId) (fd : Nat) :
    Progress d conn (.reading c fd conn.taken (takenSize conn.rx) []) := by
  obtain ⟨p, pend, hpend, hexecuted⟩ := h.cons hrx
  have hsize : takenSize conn.rx = p.frame.length := by rw [hpend, takenSize_frame]
  refine ⟨p, pend, hpend, hsize, ?_, rfl, hexecuted⟩
  rw [hsize, p.length_frame, List.length_nil]
  omega

/-- Reading on inside a frame. -/
theorem Progress.read {c : ConnId} {fd start size n : Nat} {got : List UInt8}
    (h : Progress d conn (.reading c fd start size got)) (hn : n ≤ size - got.length)
    (hrx : n ≤ conn.rx.length) :
    Progress d (readBytes conn n)
      (if (got ++ conn.rx.take n).length = size then
        .analysing c fd (some (got ++ conn.rx.take n)) (got ++ conn.rx.take n).length
      else .reading c fd start size (got ++ conn.rx.take n)) := by
  obtain ⟨p, pend, hbytes, hsize, hlt, htaken, hexecuted⟩ := h
  have hlength : (got ++ conn.rx.take n).length = got.length + n := by
    rw [List.length_append, List.length_take, Nat.min_eq_left hrx]
  have hsplit : got ++ conn.rx.take n ++ conn.rx.drop n = p.frame ++ frameBytes pend := by
    rw [List.append_assoc, List.take_append_drop, hbytes]
  split
  · rename_i hfull
    -- The frame is complete and the stream is settled behind it.
    obtain ⟨hframe, hrest⟩ := List.append_inj hsplit (by rw [hfull, hsize])
    refine ⟨d.commands p, ?_, pend, hrest, hexecuted⟩
    rw [hframe]
    exact analysisMessage_frame d p
  · rename_i hpart
    refine ⟨p, pend, hsplit, hsize, by omega, ?_, hexecuted⟩
    show conn.taken + n = start + (got ++ conn.rx.take n).length
    omega

theorem Settled.execute {cmd : ParsedCommand} {cmds : List ParsedCommand}
    (h : Settled d conn (cmd :: cmds)) : Settled d (executeCmd conn cmd) cmds := by
  obtain ⟨pend, hrx, hexecuted⟩ := h
  refine ⟨pend, hrx, ?_⟩
  show conn.executed ++ [cmd] ++ cmds ++ _ = conn.sent.flatMap d.commands
  rw [← hexecuted]
  simp

/-- What has been executed is the beginning of what was sent. -/
theorem Progress.executed_prefix {pc : Pc} (h : Progress d conn pc) :
    conn.executed <+: conn.sent.flatMap d.commands := by
  have hsettled (todo : List ParsedCommand) (h : Settled d conn todo) :
      conn.executed <+: conn.sent.flatMap d.commands := by
    obtain ⟨pend, -, hexecuted⟩ := h
    exact ⟨_, by rw [← hexecuted, List.append_assoc]⟩
  cases pc with
  | reading c fd start size got =>
    obtain ⟨p, pend, -, -, -, -, hexecuted⟩ := h
    exact ⟨_, by rw [← hexecuted, List.append_assoc]⟩
  | analysing c fd buf nbytes =>
    obtain ⟨cmds, -, h⟩ := h
    exact hsettled cmds h
  | executing c fd cmds => exact hsettled cmds h
  | idle | started | peeking | finishing => exact hsettled [] h

end Stream

/-! ## The conditions -/

variable {ι : Type}

/-- A worker peeks while no other worker deals with a message of the
connection. -/
def PeeksAlone (s : ServerState ι) : Label ι → Prop
  | .peek i => ∀ c ∈ (s.workers i).conn?, ∀ j, (s.workers j).active? ≠ some c
  | _ => True

/-- What arrives is whole frames. -/
def WholeFrames : Label ι → Prop
  | .garbage _ _ => False
  | _ => True

/-- The three conditions under which streams are taken frame by frame. -/
def Orderly (s : ServerState ι) (a : Label ι) : Prop :=
  s.ReleasesLast a ∧ s.PeeksAlone a ∧ WholeFrames a

instance [Fintype ι] (s : ServerState ι) : ∀ a, Decidable (s.PeeksAlone a)
  | .peek i => inferInstanceAs (Decidable (∀ c ∈ (s.workers i).conn?,
      ∀ j, (s.workers j).active? ≠ some c))
  | .accept _ | .accepted | .epollWait _ | .dispatch | .arrive _ _ | .garbage _ _ | .close _
  | .take _ | .enter _ | .read _ _ | .analyse _ | .execute _ | .finish _ => isTrue trivial

instance : ∀ a : Label ι, Decidable (WholeFrames a)
  | .garbage _ _ => isFalse id
  | .accept _ | .accepted | .epollWait _ | .dispatch | .arrive _ _ | .close _ | .take _
  | .enter _ | .peek _ | .read _ _ | .analyse _ | .execute _ | .finish _ => isTrue trivial

instance [Fintype ι] [DecidableEq ι] (s : ServerState ι) (a : Label ι) : Decidable (s.Orderly a) :=
  inferInstanceAs (Decidable (_ ∧ _ ∧ _))

/-! ## The invariant -/

/-- At most one worker deals with a message of a connection, and every connection
is where its worker says, or settled. -/
structure StreamInv (d : Decoder) (s : ServerState ι) : Prop where
  unique : ∀ i j c, (s.workers i).active? = some c → (s.workers j).active? = some c → i = j
  progress : ∀ i c, (s.workers i).active? = some c → Progress d (s.conns c) (s.workers i)
  settled : ∀ c, (∀ i, (s.workers i).active? ≠ some c) → Settled d (s.conns c) []

section Steps

variable {d : Decoder} {s s' : ServerState ι}

theorem StreamInv.init : StreamInv d (init : ServerState ι) := by
  constructor
  · intro i j c hi _
    exact absurd hi (by simp [ServerState.init, Pc.active?])
  · intro i c hi
    exact absurd hi (by simp [ServerState.init, Pc.active?])
  · intro c _
    exact ⟨[], rfl, rfl⟩

/-- Every connection makes the progress of some worker state. -/
theorem StreamInv.exists_progress (h : s.StreamInv d) (c : ConnId) :
    ∃ pc, Progress d (s.conns c) pc := by
  by_cases hactive : ∃ i, (s.workers i).active? = some c
  · obtain ⟨i, hi⟩ := hactive
    exact ⟨_, h.progress i c hi⟩
  · exact ⟨.idle, h.settled c (not_exists.mp hactive)⟩

/-- Steps that move no worker. -/
theorem StreamInv.conns (h : s.StreamInv d) (hworkers : s'.workers = s.workers)
    (hconns : ∀ c pc, Progress d (s.conns c) pc → Progress d (s'.conns c) pc) :
    s'.StreamInv d := by
  constructor
  · intro i j c hi hj
    rw [hworkers] at hi hj
    exact h.unique i j c hi hj
  · intro i c hi
    rw [hworkers] at hi ⊢
    exact hconns c _ (h.progress i c hi)
  · intro c hc
    rw [hworkers] at hc
    exact hconns c .idle (h.settled c hc)

variable [DecidableEq ι]

/-- Steps of a worker that deals with no message, before or behind. -/
theorem StreamInv.idleMove (h : s.StreamInv d) {i : ι} {pc : Pc}
    (hworkers : s'.workers = (s.setPc i pc).workers)
    (hold : (s.workers i).active? = none) (hnew : pc.active? = none)
    (hconns : ∀ c, SameStream (s.conns c) (s'.conns c)) : s'.StreamInv d := by
  have hactive : ∀ j c, (s'.workers j).active? = some c →
      s'.workers j = s.workers j ∧ (s.workers j).active? = some c := by
    intro j c hj
    rw [hworkers] at hj ⊢
    rcases s.workers_setPc_cases i pc j with ⟨-, hmoved⟩ | ⟨-, hstay⟩
    · rw [hmoved, hnew] at hj
      exact absurd hj (by simp)
    · rw [hstay] at hj ⊢
      exact ⟨rfl, hj⟩
  constructor
  · intro j k c hj hk
    exact h.unique j k c (hactive j c hj).2 (hactive k c hk).2
  · intro j c hj
    obtain ⟨heq, hj'⟩ := hactive j c hj
    rw [heq]
    exact (h.progress j c hj').same (hconns c)
  · intro c hc
    refine (h.settled c fun j hj => ?_).same (hconns c)
    have hji : j ≠ i := by
      rintro rfl
      rw [hold] at hj
      exact absurd hj (by simp)
    have hnot := hc j
    rw [hworkers, s.workers_setPc_of_ne hji] at hnot
    exact hnot hj

/-- Steps of the one worker that deals with a message of the connection, or
begins to. -/
theorem StreamInv.activeMove (h : s.StreamInv d) {i : ι} {c : ConnId} {pc : Pc}
    (hworkers : s'.workers = (s.setPc i pc).workers)
    (hold : (s.workers i).active? = some c ∨
      (s.workers i).active? = none ∧ ∀ j, (s.workers j).active? ≠ some c)
    (hnew : pc.active? = some c ∨ pc.active? = none)
    (hconns : ∀ k, k ≠ c → s'.conns k = s.conns k) (hprogress : Progress d (s'.conns c) pc) :
    s'.StreamInv d := by
  have hmoved : s'.workers i = pc := by rw [hworkers, workers_setPc_self]
  have hstay : ∀ j, j ≠ i → s'.workers j = s.workers j := fun j hj => by
    rw [hworkers, s.workers_setPc_of_ne hj]
  -- No other worker deals with a message of `c`, and `i` with none of another.
  have halone : ∀ j, j ≠ i → (s.workers j).active? ≠ some c := by
    intro j hj hjc
    rcases hold with hic | ⟨-, hnone⟩
    · exact hj (h.unique j i c hjc hic)
    · exact hnone j hjc
  have hother : ∀ k, k ≠ c → (s.workers i).active? ≠ some k ∧ pc.active? ≠ some k := by
    intro k hk
    constructor
    · intro hik
      rcases hold with hic | ⟨hnone, -⟩
      · rw [hic, Option.some.injEq] at hik
        exact hk hik.symm
      · rw [hnone] at hik
        exact absurd hik (by simp)
    · intro hpk
      rcases hnew with hpc | hnone
      · rw [hpc, Option.some.injEq] at hpk
        exact hk hpk.symm
      · rw [hnone] at hpk
        exact absurd hpk (by simp)
  constructor
  · intro j k c' hj hk
    by_cases hc' : c' = c
    · have hone : ∀ l, (s'.workers l).active? = some c' → l = i := by
        intro l hl
        by_contra hne
        rw [hstay l hne, hc'] at hl
        exact halone l hne hl
      rw [hone j hj, hone k hk]
    · have hold' : ∀ l, (s'.workers l).active? = some c' → (s.workers l).active? = some c' := by
        intro l hl
        by_cases hli : l = i
        · rw [hli, hmoved] at hl
          exact absurd hl (hother c' hc').2
        · rwa [hstay l hli] at hl
      exact h.unique j k c' (hold' j hj) (hold' k hk)
  · intro j c' hj
    by_cases hji : j = i
    · rw [hji, hmoved] at hj ⊢
      have hc' : c' = c := by
        by_contra hne
        exact (hother c' hne).2 hj
      rw [hc']
      exact hprogress
    · rw [hstay j hji] at hj ⊢
      have hc' : c' ≠ c := by
        rintro rfl
        exact halone j hji hj
      rw [hconns c' hc']
      exact h.progress j c' hj
  · intro c' hc'
    by_cases hne : c' = c
    · have hnone : pc.active? = none := by
        rcases hnew with hpc | hnone
        · have hnot := hc' i
          rw [hmoved, hne] at hnot
          exact absurd hpc hnot
        · exact hnone
      rw [hne]
      exact (progress_of_inactive hnone).mp hprogress
    · rw [hconns c' hne]
      refine h.settled c' fun j hj => ?_
      by_cases hji : j = i
      · rw [hji] at hj
        exact (hother c' hne).1 hj
      · have hnot := hc' j
        rw [hstay j hji] at hnot
        exact hnot hj

omit [DecidableEq ι] in
theorem active_conn {pc : Pc} {c : ConnId} (h : pc.active? = some c) : pc.conn? = some c := by
  cases pc with
  | idle | started | peeking | finishing => exact absurd h (by simp [Pc.active?])
  | reading | analysing | executing => exact h

omit [DecidableEq ι] in
theorem sameStream_reported (s : ServerState ι) (events : List Event) (c : ConnId) :
    SameStream (s.conns c) (s.reported events c) := by
  rcases s.reported_cases events c with hsame | ⟨hedge, -⟩
  · rw [hsame]
    exact SameStream.refl _
  · rw [hedge]
    exact SameStream.update _ _ _ _ _

omit [DecidableEq ι] in
/-- A new connection has an empty stream. -/
theorem StreamInv.acceptConn (h : s.StreamInv d) (hlife : s.LifetimeInv) (fd : Nat) :
    (s.acceptConn fd).StreamInv d := by
  have hold : ∀ c, c ≠ s.count → (s.acceptConn fd).conns c = s.conns c := fun c hc =>
    s.conns_acceptConn_of_ne hc fd
  refine ⟨h.unique, ?_, ?_⟩
  · intro i c hi
    have hlive := hlife.refers c (Or.inr (Or.inr ⟨i, active_conn hi⟩))
    rw [hold c (Nat.ne_of_lt hlive.1)]
    exact h.progress i c hi
  · intro c hc
    by_cases hne : c = s.count
    · rw [hne, conns_acceptConn_self]
      exact ⟨[], rfl, rfl⟩
    · rw [hold c hne]
      exact h.settled c hc

omit [DecidableEq ι] in
/-- A change of one connection. -/
theorem StreamInv.setConn (h : s.StreamInv d) {c : ConnId} {conn : SockConn}
    (hconn : ∀ pc, Progress d (s.conns c) pc → Progress d conn pc) :
    (s.setConn c conn).StreamInv d := by
  refine h.conns rfl fun k pc hk => ?_
  by_cases hkc : k = c
  · rw [hkc] at hk ⊢
    rw [conns_setConn_self]
    exact hconn pc hk
  · rw [conns_setConn_of_ne s hkc]
    exact hk

/-- A job that releases a connection. -/
theorem StreamInv.enterFree (h : s.StreamInv d) {i : ι} {c : ConnId}
    (hpc : s.workers i = .started (.free c)) :
    ((s.freeSockconn c).setPc i .idle).StreamInv d := by
  refine h.idleMove rfl (congrArg Pc.active? hpc) rfl fun k => ?_
  show SameStream (s.conns k) ((s.freeSockconn c).conns k)
  by_cases hkc : k = c
  · rw [hkc, conns_freeSockconn_self]
    exact SameStream.update _ _ _ _ _
  · rw [s.conns_freeSockconn_of_ne hkc]
    exact SameStream.refl _

/-- A peek that finds the buffer empty. -/
theorem StreamInv.peekEmpty (h : s.StreamInv d) {i : ι} {c : ConnId} {fd : Nat} (fin : Bool)
    (hpc : s.workers i = .peeking c fd) (hnobody : ∀ j, (s.workers j).active? ≠ some c) :
    (s.setPc i (if fin then .analysing c fd none 0 else .finishing c)).StreamInv d := by
  refine h.activeMove rfl (Or.inr ⟨congrArg Pc.active? hpc, hnobody⟩) ?_ (fun _ _ => rfl) ?_
  · split
    · exact Or.inl rfl
    · exact Or.inr rfl
  · have hsettled := h.settled c hnobody
    split
    · exact ⟨[], rfl, hsettled⟩
    · exact hsettled

omit [DecidableEq ι] in
/-- Where bytes are left and nobody deals with a message, a frame begins. -/
theorem StreamInv.headerValue_pos (h : s.StreamInv d) {c : ConnId}
    (hnobody : ∀ j, (s.workers j).active? ≠ some c) (hrx : (s.conns c).rx ≠ []) :
    0 < headerValue (s.conns c).rx := by
  obtain ⟨p, pend, hpend, -⟩ := (h.settled c hnobody).cons hrx
  rw [hpend, headerValue_frame]
  omega

omit [DecidableEq ι] in
/-- Inside a frame there is always something to read. -/
theorem StreamInv.rx_ne_nil (h : s.StreamInv d) {i : ι} {c : ConnId} {fd start size : Nat}
    {got : List UInt8} (hpc : s.workers i = .reading c fd start size got) :
    (s.conns c).rx ≠ [] := by
  intro hrx
  have hprogress := h.progress i c (congrArg Pc.active? hpc)
  rw [hpc] at hprogress
  obtain ⟨p, pend, hbytes, hsize, hlt, -⟩ := hprogress
  have hlength := congrArg List.length hbytes
  rw [hrx, List.append_nil, List.length_append] at hlength
  omega

/-- A read that brings bytes. -/
theorem StreamInv.read (h : s.StreamInv d) {i : ι} {n : Nat} {c : ConnId} {fd start size : Nat}
    {got : List UInt8} (hpc : s.workers i = .reading c fd start size got)
    (hsize : n ≤ size - got.length) (hrx : n ≤ (s.conns c).rx.length) :
    ((s.setConn c (readBytes (s.conns c) n)).setPc i
      (if (got ++ (s.conns c).rx.take n).length = size then
        .analysing c fd (some (got ++ (s.conns c).rx.take n))
          (got ++ (s.conns c).rx.take n).length
      else .reading c fd start size (got ++ (s.conns c).rx.take n))).StreamInv d := by
  have hprogress := h.progress i c (congrArg Pc.active? hpc)
  rw [hpc] at hprogress
  refine h.activeMove rfl (Or.inl (congrArg Pc.active? hpc)) ?_
    (fun k hk => s.conns_setConn_of_ne hk _) ?_
  · split <;> exact Or.inl rfl
  · show Progress d ((s.setConn c (readBytes (s.conns c) n)).conns c) _
    rw [conns_setConn_self]
    exact hprogress.read hsize hrx

/-- A message that is analysed. -/
theorem StreamInv.analyse (h : s.StreamInv d) {i : ι} {c : ConnId} {fd : Nat}
    {buf : Option (List UInt8)} {nbytes : Nat} {cmds : List ParsedCommand}
    (hpc : s.workers i = .analysing c fd buf nbytes)
    (hcmds : analysisMessage d buf nbytes = some cmds) :
    (s.setPc i (if cmds = [] then .finishing c else .executing c fd cmds)).StreamInv d := by
  have hprogress := h.progress i c (congrArg Pc.active? hpc)
  rw [hpc] at hprogress
  obtain ⟨cmds', hcmds', hsettled⟩ := hprogress
  obtain rfl : cmds = cmds' := Option.some.inj (hcmds.symm.trans hcmds')
  refine h.activeMove rfl (Or.inl (congrArg Pc.active? hpc)) ?_ (fun _ _ => rfl) ?_
  · split
    · exact Or.inr rfl
    · exact Or.inl rfl
  · split
    · rename_i hnil
      rw [hnil] at hsettled
      exact hsettled
    · exact hsettled

/-- A command that is executed. -/
theorem StreamInv.execute (h : s.StreamInv d) {i : ι} {c : ConnId} {fd : Nat}
    {cmd : ParsedCommand} {cmds : List ParsedCommand}
    (hpc : s.workers i = .executing c fd (cmd :: cmds)) :
    ((s.setConn c (executeCmd (s.conns c) cmd)).setPc i
      (if cmds = [] then .peeking c fd else .executing c fd cmds)).StreamInv d := by
  have hprogress := h.progress i c (congrArg Pc.active? hpc)
  rw [hpc] at hprogress
  have hsettled : Settled d (executeCmd (s.conns c) cmd) cmds := Settled.execute hprogress
  refine h.activeMove rfl (Or.inl (congrArg Pc.active? hpc)) ?_
    (fun k hk => s.conns_setConn_of_ne hk _) ?_
  · split
    · exact Or.inr rfl
    · exact Or.inl rfl
  · show Progress d ((s.setConn c (executeCmd (s.conns c) cmd)).conns c) _
    rw [conns_setConn_self]
    split
    · rename_i hnil
      rw [hnil] at hsettled
      exact hsettled
    · exact hsettled

/-- An orderly step keeps every connection in its stream. -/
theorem StreamInv.step {a : Label ι} (h : s.StreamInv d) (hlife : s.LifetimeInv)
    (hgood : s.Orderly a) (htook : Took d s a s') : s'.StreamInv d := by
  obtain ⟨-, halone, hwhole⟩ := hgood
  cases htook with
  | accept hfd hfree => exact h.acceptConn hlife _
  | accepted hbatch | dispatch hbatch => exact h.conns rfl fun c pc hc => hc
  | epollWait hbatch hevents =>
    exact h.conns rfl fun c pc hc => hc.same (sameStream_reported s _ c)
  | arrive hreg => exact h.setConn fun pc hc => hc.receive _
  | garbage hreg => exact absurd hwhole (by simp [WholeFrames])
  | close hreg => exact h.setConn fun pc hc => hc.same (SameStream.update _ _ _ _ _)
  | take hpc hqueue => exact h.idleMove rfl (congrArg Pc.active? hpc) rfl fun _ => SameStream.refl _
  | enterRead hpc => exact h.idleMove rfl (congrArg Pc.active? hpc) rfl fun _ => SameStream.refl _
  | enterFree hpc => exact h.enterFree hpc
  | peekStale hpc hfd | readStale hpc hfd =>
    exact absurd hfd (hlife.captured_open (congrArg Pc.captured? hpc))
  | peekEmpty hpc hfd hrx => exact h.peekEmpty _ hpc (halone _ (congrArg Pc.conn? hpc))
  | @peekBad i c fd k hpc hfd hrx hvalue =>
    obtain rfl : c = k := hlife.captured_eq (congrArg Pc.captured? hpc) hfd
    have hpos := h.headerValue_pos (halone c (congrArg Pc.conn? hpc)) hrx
    omega
  | @peekHeader i c fd k hpc hfd hrx =>
    have hnobody : ∀ j, (s.workers j).active? ≠ some c := halone c (congrArg Pc.conn? hpc)
    obtain rfl : c = k := hlife.captured_eq (congrArg Pc.captured? hpc) hfd
    exact h.activeMove rfl (Or.inr ⟨congrArg Pc.active? hpc, hnobody⟩) (Or.inl rfl) (fun _ _ => rfl)
      ((h.settled c hnobody).reading hrx c fd)
  | @readEmpty i n c fd start size got k hpc hfd hrx =>
    obtain rfl : c = k := hlife.captured_eq (congrArg Pc.captured? hpc) hfd
    exact absurd hrx (h.rx_ne_nil hpc)
  | @read i n c fd start size got k hpc hfd hpos hsize hrx =>
    obtain rfl : c = k := hlife.captured_eq (congrArg Pc.captured? hpc) hfd
    exact h.read hpc hsize hrx
  | analyse hpc hcmds => exact h.analyse hpc hcmds
  | execute hpc => exact h.execute hpc
  | finish hpc => exact h.idleMove rfl (congrArg Pc.active? hpc) rfl fun _ => SameStream.refl _

end Steps

/-! ## A connection with one frame -/

/-- A decoder that finds the command `x` in every message. -/
def oneCommand : Decoder where
  cJsonParse _ := some (.item none none
    [.item none (some (ascii "values")) [.item none none
      [.item (some [49]) (some [107]) [], .item (some [120]) (some [97]) []]],
     .item none (some (ascii "keys")) [.item none none
      [.item (some [107]) none [], .item (some [97]) none []]]])
  valueForKey _ := some
    { value := ascii "%s", paramNum := 1, needRsp := false, deprecated := false, is2Pipe := true }

/-- The event of a connection that has become readable. -/
def readable : Flags :=
  { epollErr := false, epollHup := false, epollIn := true, epollRdhup := false,
    epollOut := false }

/-- A connection is accepted, and a frame arrives on it. -/
def acceptAndSend : List (Label (Fin 2)) :=
  [.epollWait [.listener], .accept 5, .accepted, .arrive 0 payloadA]

end WowProxy.ServerState
