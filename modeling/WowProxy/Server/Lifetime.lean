/-
  Server/Lifetime.lean --- how long a `SOCKCONN` and its descriptor live.

  Nothing in the proxy counts references: the event loop, the queue and the
  workers all hold bare pointers, and `free_sockConn_func` frees at once.  What
  holds in every run in which each release comes last is that no reference
  outlives its `SOCKCONN` and no captured descriptor number outlives its
  connection.
-/
import Mathlib.Data.Fintype.Basic
import WowProxy.Server.Steps

set_option autoImplicit false

namespace WowProxy.ServerState

open WowProxy.Lib.Runs

variable {ι : Type}

/-! ## References -/

/-- An event of the batch, a queued job or a worker refers to the `SOCKCONN`. -/
def Refers (s : ServerState ι) (c : ConnId) : Prop :=
  (∃ e ∈ s.batch, e.conn? = some c) ∨ (∃ job ∈ s.queue, job.conn = c) ∨
    ∃ i, (s.workers i).conn? = some c

/-- The read job that a worker runs, if it runs one, is for this `SOCKCONN`. -/
def RunsRead (pc : Pc) (c : ConnId) : Prop :=
  pc.conn? = some c ∧ ∀ job, pc = .started job → job = .read c

/-- What is promised of every reachable state. -/
structure Lifetime (s : ServerState ι) : Prop where
  released_le_one : ∀ c, (s.conns c).released ≤ 1
  event : ∀ e ∈ s.batch, ∀ c, e.conn? = some c → (s.conns c).released = 0
  queued : ∀ c, .read c ∈ s.queue → (s.conns c).released = 0
  running : ∀ i c, RunsRead (s.workers i) c → (s.conns c).released = 0
  captured : ∀ i c fd, (s.workers i).captured? = some (c, fd) → s.fds fd = some c

/-- If worker `i` is about to release a `SOCKCONN`, then no event of the batch, no
queued job and no other worker refers to it. -/
def HoldsLast (s : ServerState ι) (i : ι) : Pc → Prop
  | .started (.free c) =>
    (∀ e ∈ s.batch, e.conn? ≠ some c) ∧ (∀ job ∈ s.queue, job.conn ≠ c) ∧
      ∀ j, j ≠ i → (s.workers j).conn? ≠ some c
  | _ => True

/-- A release comes last: the worker that enters `free_sockConn_func` holds the
last reference. -/
def ReleasesLast (s : ServerState ι) : Label ι → Prop
  | .enter i => s.HoldsLast i (s.workers i)
  | _ => True

instance [Fintype ι] [DecidableEq ι] (s : ServerState ι) (i : ι) :
    ∀ pc, Decidable (s.HoldsLast i pc)
  | .started (.free _) => inferInstanceAs (Decidable (_ ∧ _ ∧ _))
  | .started (.read _) | .started (.write _) | .idle | .peeking _ _ | .reading _ _ _ _ _
  | .analysing _ _ _ _ | .executing _ _ _ | .finishing _ => isTrue trivial

instance [Fintype ι] [DecidableEq ι] (s : ServerState ι) : ∀ a, Decidable (s.ReleasesLast a)
  | .enter i => inferInstanceAs (Decidable (s.HoldsLast i (s.workers i)))
  | .accept _ | .accepted | .epollWait _ | .dispatch | .arrive _ _ | .garbage _ _ | .close _
  | .take _ | .peek _ | .read _ _ | .analyse _ | .execute _ | .finish _ => isTrue trivial

/-! ## The invariant -/

/-- The `SOCKCONN` has been allocated and not released. -/
def Live (s : ServerState ι) (c : ConnId) : Prop := c < s.count ∧ (s.conns c).released = 0

/-- References are to live `SOCKCONN`s, and live `SOCKCONN`s and open descriptors
belong together. -/
structure LifetimeInv (s : ServerState ι) : Prop where
  refers : ∀ c, s.Refers c → s.Live c
  registered : ∀ c, s.Live c → s.Registered c
  denotes : ∀ fd c, s.fds fd = some c → fd ≠ 0 ∧ s.Live c ∧ (s.conns c).sockFd = fd
  captured : ∀ i c fd, (s.workers i).captured? = some (c, fd) → fd = (s.conns c).sockFd
  released_le_one : ∀ c, (s.conns c).released ≤ 1
  fresh : ∀ c, s.count ≤ c → (s.conns c).released = 0

theorem LifetimeInv.init : LifetimeInv (init : ServerState ι) := by
  constructor
  · rintro c (⟨e, he, -⟩ | ⟨job, hjob, -⟩ | ⟨i, hi⟩)
    · exact absurd he List.not_mem_nil
    · exact absurd hjob List.not_mem_nil
    · exact absurd hi (by simp [ServerState.init, Pc.conn?])
  · intro c hlive
    exact absurd hlive.1 (Nat.not_lt_zero c)
  · intro fd c hfd
    exact absurd hfd (by simp [ServerState.init])
  · intro i c fd hi
    exact absurd hi (by simp [ServerState.init, Pc.captured?])
  · intro c
    exact Nat.zero_le 1
  · intro c _
    rfl

theorem captured_conn {pc : Pc} {c : ConnId} {fd : Nat} (h : pc.captured? = some (c, fd)) :
    pc.conn? = some c := by
  cases pc with
  | idle | started | finishing => exact absurd h (by simp [Pc.captured?])
  | peeking | reading | analysing | executing =>
    simp only [Pc.captured?, Option.some.injEq, Prod.mk.injEq] at h
    rw [Pc.conn?, h.1]

/-- The invariant is what is promised. -/
theorem LifetimeInv.lifetime {s : ServerState ι} (h : s.LifetimeInv) : s.Lifetime := by
  constructor
  · exact h.released_le_one
  · intro e he c hc
    exact (h.refers c (Or.inl ⟨e, he, hc⟩)).2
  · intro c hc
    exact (h.refers c (Or.inr (Or.inl ⟨_, hc, rfl⟩))).2
  · intro i c hi
    exact (h.refers c (Or.inr (Or.inr ⟨i, hi.1⟩))).2
  · intro i c fd hi
    have hlive := h.refers c (Or.inr (Or.inr ⟨i, captured_conn hi⟩))
    rw [h.captured i c fd hi]
    exact h.registered c hlive

/-- The captured descriptor of a worker denotes its own connection. -/
theorem LifetimeInv.captured_eq {s : ServerState ι} (h : s.LifetimeInv) {i : ι} {c k : ConnId}
    {fd : Nat} (hi : (s.workers i).captured? = some (c, fd)) (hk : s.fds fd = some k) : c = k := by
  rw [h.lifetime.captured i c fd hi, Option.some.injEq] at hk
  exact hk

theorem LifetimeInv.captured_open {s : ServerState ι} (h : s.LifetimeInv) {i : ι} {c : ConnId}
    {fd : Nat} (hi : (s.workers i).captured? = some (c, fd)) : s.fds fd ≠ none := by
  intro hnone
  rw [h.lifetime.captured i c fd hi] at hnone
  exact absurd hnone (by simp)

/-! ## Steps that neither accept nor release -/

/-- Neither step has allocated or released anything, and references are old or
to registered connections. -/
structure Keeps (s s' : ServerState ι) : Prop where
  count : s'.count = s.count
  fds : s'.fds = s.fds
  sockFd : ∀ c, (s'.conns c).sockFd = (s.conns c).sockFd
  released : ∀ c, (s'.conns c).released = (s.conns c).released
  refers : ∀ c, s'.Refers c → s.Refers c ∨ s.Registered c
  captured : ∀ i c fd, (s'.workers i).captured? = some (c, fd) →
    (s.workers i).captured? = some (c, fd) ∨ fd = (s.conns c).sockFd

theorem LifetimeInv.keeps {s s' : ServerState ι} (h : s.LifetimeInv) (hk : s.Keeps s') :
    s'.LifetimeInv := by
  have hlive : ∀ c, s'.Live c ↔ s.Live c := by
    intro c
    rw [Live, Live, hk.count, hk.released]
  constructor
  · intro c hc
    rw [hlive]
    rcases hk.refers c hc with hold | hreg
    · exact h.refers c hold
    · exact (h.denotes _ c hreg).2.1
  · intro c hc
    rw [Registered, hk.fds, hk.sockFd]
    exact h.registered c ((hlive c).mp hc)
  · intro fd c hfd
    rw [hk.fds] at hfd
    rw [hlive, hk.sockFd]
    exact h.denotes fd c hfd
  · intro i c fd hi
    rw [hk.sockFd]
    rcases hk.captured i c fd hi with hold | hnew
    · exact h.captured i c fd hold
    · exact hnew
  · intro c
    rw [hk.released]
    exact h.released_le_one c
  · intro c hc
    rw [hk.count] at hc
    rw [hk.released]
    exact h.fresh c hc

theorem Keeps.trans {s t u : ServerState ι} (first : s.Keeps t) (second : t.Keeps u) :
    s.Keeps u := by
  constructor
  · rw [second.count, first.count]
  · rw [second.fds, first.fds]
  · intro c
    rw [second.sockFd, first.sockFd]
  · intro c
    rw [second.released, first.released]
  · intro c hc
    rcases second.refers c hc with hold | hreg
    · exact first.refers c hold
    · rw [Registered, first.fds, first.sockFd] at hreg
      exact Or.inr hreg
  · intro i c fd hi
    rcases second.captured i c fd hi with hold | hnew
    · exact first.captured i c fd hold
    · rw [first.sockFd] at hnew
      exact Or.inr hnew

/-- A change of a connection that leaves descriptor and releases alone. -/
theorem keeps_setConn {s : ServerState ι} {c : ConnId} {conn : SockConn}
    (hfd : conn.sockFd = (s.conns c).sockFd) (hreleased : conn.released = (s.conns c).released) :
    s.Keeps (s.setConn c conn) := by
  have hupdate (f : SockConn → Nat) (hf : f conn = f (s.conns c)) (k : ConnId) :
      f ((s.setConn c conn).conns k) = f (s.conns k) := by
    by_cases hk : k = c
    · rw [hk, conns_setConn_self, hf]
    · rw [conns_setConn_of_ne s hk]
  exact ⟨rfl, rfl, hupdate (·.sockFd) hfd, hupdate (·.released) hreleased,
    fun c hc => Or.inl hc, fun i c fd hi => Or.inl hi⟩

/-- A move of a worker that adds no reference and captures no other
descriptor. -/
theorem keeps_setPc [DecidableEq ι] {s : ServerState ι} {i : ι} {pc : Pc}
    (hconn : ∀ c, pc.conn? = some c → (s.workers i).conn? = some c)
    (hcaptured : ∀ c fd, pc.captured? = some (c, fd) →
      (s.workers i).captured? = some (c, fd) ∨ fd = (s.conns c).sockFd) :
    s.Keeps (s.setPc i pc) := by
  refine ⟨rfl, rfl, fun _ => rfl, fun _ => rfl, ?_, ?_⟩
  · rintro c (hevent | hjob | ⟨j, hj⟩)
    · exact Or.inl (Or.inl hevent)
    · exact Or.inl (Or.inr (Or.inl hjob))
    · refine Or.inl (Or.inr (Or.inr ?_))
      rcases s.workers_setPc_cases i pc j with ⟨-, hmoved⟩ | ⟨-, hstay⟩
      · rw [hmoved] at hj
        exact ⟨i, hconn c hj⟩
      · rw [hstay] at hj
        exact ⟨j, hj⟩
  · intro j c fd hj
    rcases s.workers_setPc_cases i pc j with ⟨rfl, hmoved⟩ | ⟨-, hstay⟩
    · rw [hmoved] at hj
      exact hcaptured c fd hj
    · rw [hstay] at hj
      exact Or.inl hj

/-- A worker that goes on with its read job. -/
theorem keeps_goesOn [DecidableEq ι] {s : ServerState ι} {i : ι} {pc : Pc} {c : ConnId} {fd : Nat}
    (hpc : (s.workers i).captured? = some (c, fd)) (hconn : pc.conn? = some c)
    (hcaptured : pc.captured? = some (c, fd) ∨ pc.captured? = none) :
    s.Keeps (s.setPc i pc) := by
  apply keeps_setPc
  · intro c' hc'
    rw [hconn, Option.some.injEq] at hc'
    rw [← hc']
    exact captured_conn hpc
  · intro c' fd' hc'
    rcases hcaptured with hsame | hnone
    · rw [hsame, Option.some.injEq] at hc'
      rw [hpc, hc']
      exact Or.inl rfl
    · rw [hnone] at hc'
      exact absurd hc' (by simp)

section Loop

variable {s : ServerState ι} {batch : List Event}

/-- The event of the listener is dealt with. -/
theorem keeps_accepted (hbatch : s.batch = .listener :: batch) : s.Keeps { s with batch } := by
  refine ⟨rfl, rfl, fun _ => rfl, fun _ => rfl, ?_, fun _ _ _ hi => Or.inl hi⟩
  rintro c (⟨e, he, hc⟩ | hjob | hworker)
  · exact Or.inl (Or.inl ⟨e, by rw [hbatch]; exact List.mem_cons_of_mem _ he, hc⟩)
  · exact Or.inl (Or.inr (Or.inl hjob))
  · exact Or.inl (Or.inr (Or.inr hworker))

/-- A field of a connection that `epoll_wait` does not clear. -/
theorem reported_eq (f : SockConn → Nat) (hf : ∀ conn, f { conn with edge := false } = f conn)
    (events : List Event) (c : ConnId) : f (s.reported events c) = f (s.conns c) := by
  rcases s.reported_cases events c with hsame | ⟨hedge, -⟩
  · rw [hsame]
  · rw [hedge, hf]

/-- The events that are reported are those of registered descriptors. -/
theorem keeps_epollWait {events : List Event} (hevents : ∀ e ∈ events, s.Deliverable e) :
    s.Keeps { s with batch := events, conns := s.reported events } := by
  refine ⟨rfl, rfl, reported_eq (·.sockFd) (fun _ => rfl) events,
    reported_eq (·.released) (fun _ => rfl) events, ?_, fun _ _ _ hi => Or.inl hi⟩
  rintro c (⟨e, he, hc⟩ | hjob | hworker)
  · have hdel := hevents e he
    cases e with
    | listener => exact absurd hc (by simp [Event.conn?])
    | conn k flags =>
      obtain rfl : k = c := by simpa [Event.conn?] using hc
      exact Or.inr hdel.1
  · exact Or.inl (Or.inr (Or.inl hjob))
  · exact Or.inl (Or.inr (Or.inr hworker))

/-- The added job is for the connection of the event. -/
theorem loopOnceJob_conn {c : ConnId} {flags : Flags} {job : Job}
    (h : loopOnceJob c flags = some job) : job.conn = c := by
  unfold loopOnceJob at h
  split at h
  · exact Option.some.inj h ▸ rfl
  split at h
  · exact Option.some.inj h ▸ rfl
  split at h
  · exact Option.some.inj h ▸ rfl
  split at h
  · exact Option.some.inj h ▸ rfl
  · exact absurd h (by simp)

/-- An event becomes a job. -/
theorem keeps_dispatch {c : ConnId} {flags : Flags} (hbatch : s.batch = .conn c flags :: batch) :
    s.Keeps { s with batch, queue := s.queue ++ (loopOnceJob c flags).toList } := by
  refine ⟨rfl, rfl, fun _ => rfl, fun _ => rfl, ?_, fun _ _ _ hi => Or.inl hi⟩
  rintro k (⟨e, he, hk⟩ | ⟨job, hjob, hk⟩ | hworker)
  · exact Or.inl (Or.inl ⟨e, by rw [hbatch]; exact List.mem_cons_of_mem _ he, hk⟩)
  · rcases List.mem_append.mp hjob with hold | hnew
    · exact Or.inl (Or.inr (Or.inl ⟨job, hold, hk⟩))
    · have hconn := loopOnceJob_conn (Option.mem_toList.mp hnew)
      refine Or.inl (Or.inl ⟨.conn c flags, by rw [hbatch]; exact List.mem_cons_self, ?_⟩)
      rw [Event.conn?, ← hconn, hk]
  · exact Or.inl (Or.inr (Or.inr hworker))

end Loop

section Steps

variable [DecidableEq ι] {d : Decoder} {s s' : ServerState ι}

/-- A worker takes the first job: its connection was referred to by the queue. -/
theorem keeps_take {i : ι} {job : Job} {queue : List Job} (hqueue : s.queue = job :: queue) :
    s.Keeps ({ s with queue }.setPc i (.started job)) := by
  refine ⟨rfl, rfl, fun _ => rfl, fun _ => rfl, ?_, ?_⟩
  · rintro c (hevent | ⟨job', hjob, hc⟩ | ⟨j, hj⟩)
    · exact Or.inl (Or.inl hevent)
    · refine Or.inl (Or.inr (Or.inl ⟨job', ?_, hc⟩))
      rw [hqueue]
      exact List.mem_cons_of_mem _ hjob
    · rcases workers_setPc_cases { s with queue } i (.started job) j with
        ⟨-, hmoved⟩ | ⟨-, hstay⟩
      · rw [hmoved, Pc.conn?, Option.some.injEq] at hj
        refine Or.inl (Or.inr (Or.inl ⟨job, ?_, hj⟩))
        rw [hqueue]
        exact List.mem_cons_self
      · rw [hstay] at hj
        exact Or.inl (Or.inr (Or.inr ⟨j, hj⟩))
  · intro j c fd hj
    rcases workers_setPc_cases { s with queue } i (.started job) j with ⟨-, hmoved⟩ | ⟨-, hstay⟩
    · rw [hmoved] at hj
      exact absurd hj (by simp [Pc.captured?])
    · rw [hstay] at hj
      exact Or.inl hj

/-- A read job begins with the descriptor that its connection has. -/
theorem keeps_enterRead {i : ι} {c : ConnId} (hpc : s.workers i = .started (.read c)) :
    s.Keeps (s.setPc i (.peeking c (s.conns c).sockFd)) := by
  refine keeps_setPc ?_ ?_
  · intro c' hc'
    rw [hpc]
    exact hc'
  · intro c' fd hc'
    simp only [Pc.captured?, Option.some.injEq, Prod.mk.injEq] at hc'
    rw [← hc'.1]
    exact Or.inr hc'.2.symm

/-- A worker that goes on with its read job, and has changed its connection. -/
theorem keeps_updatesConn {i : ι} {pc : Pc} {c k : ConnId} {fd : Nat} {conn : SockConn}
    (hpc : (s.workers i).captured? = some (c, fd))
    (hfd : conn.sockFd = (s.conns k).sockFd) (hreleased : conn.released = (s.conns k).released)
    (hconn : pc.conn? = some c) (hcaptured : pc.captured? = some (c, fd)) :
    s.Keeps ((s.setConn k conn).setPc i pc) := by
  have hchange : s.Keeps (s.setConn k conn) := keeps_setConn hfd hreleased
  exact hchange.trans (keeps_goesOn hpc hconn (Or.inl hcaptured))

/-- Every other step neither accepts nor releases. -/
theorem keeps_of_took {a : Label ι} (h : Took d s a s') :
    (∃ fd, s' = s.acceptConn fd ∧ fd ≠ 0 ∧ s.fds fd = none) ∨
    (∃ i c, a = .enter i ∧ s.workers i = .started (.free c) ∧
      s' = (s.freeSockconn c).setPc i .idle) ∨ s.Keeps s' := by
  cases h with
  | accept hfd hfree => exact Or.inl ⟨_, rfl, hfd, hfree⟩
  | enterFree hpc => exact Or.inr (Or.inl ⟨_, _, rfl, hpc, rfl⟩)
  | accepted hbatch => exact Or.inr (Or.inr (keeps_accepted hbatch))
  | epollWait hbatch hevents => exact Or.inr (Or.inr (keeps_epollWait hevents))
  | dispatch hbatch => exact Or.inr (Or.inr (keeps_dispatch hbatch))
  | arrive _ | garbage _ | close _ => exact Or.inr (Or.inr (keeps_setConn rfl rfl))
  | take hpc hqueue => exact Or.inr (Or.inr (keeps_take hqueue))
  | enterRead hpc => exact Or.inr (Or.inr (keeps_enterRead hpc))
  | peekStale hpc hfd | readStale hpc hfd =>
    exact Or.inr (Or.inr (keeps_goesOn (congrArg Pc.captured? hpc) rfl (Or.inr rfl)))
  | peekEmpty hpc hfd hrx =>
    refine Or.inr (Or.inr (keeps_goesOn (congrArg Pc.captured? hpc) ?_ ?_))
    · split <;> rfl
    · split
      · exact Or.inl rfl
      · exact Or.inr rfl
  | peekBad hpc hfd hrx hvalue =>
    exact Or.inr (Or.inr (keeps_goesOn (congrArg Pc.captured? hpc) rfl (Or.inr rfl)))
  | peekHeader hpc hfd hrx | readEmpty hpc hfd hrx =>
    exact Or.inr (Or.inr (keeps_goesOn (congrArg Pc.captured? hpc) rfl (Or.inl rfl)))
  | read hpc hfd hpos hsize hrx =>
    refine Or.inr (Or.inr (keeps_updatesConn (congrArg Pc.captured? hpc) rfl rfl ?_ ?_))
    · split <;> rfl
    · split <;> rfl
  | analyse hpc hcmds =>
    refine Or.inr (Or.inr (keeps_goesOn (congrArg Pc.captured? hpc) ?_ ?_))
    · split <;> rfl
    · split
      · exact Or.inr rfl
      · exact Or.inl rfl
  | execute hpc =>
    refine Or.inr (Or.inr (keeps_updatesConn (congrArg Pc.captured? hpc) rfl rfl ?_ ?_))
    · split <;> rfl
    · split <;> rfl
  | finish hpc =>
    exact Or.inr (Or.inr (keeps_setPc (by simp [Pc.conn?]) (by simp [Pc.captured?])))

omit [DecidableEq ι] in
/-- A new connection gets a number and a descriptor that nothing refers to. -/
theorem LifetimeInv.acceptConn (h : s.LifetimeInv) {fd : Nat} (hfd : fd ≠ 0)
    (hfree : s.fds fd = none) : (s.acceptConn fd).LifetimeInv := by
  have hold : ∀ c, c ≠ s.count → (s.acceptConn fd).conns c = s.conns c := fun c hc =>
    s.conns_acceptConn_of_ne hc fd
  have hnew := s.conns_acceptConn_self fd
  have hlive : ∀ c, s.Live c → c ≠ s.count ∧ (s.acceptConn fd).Live c := by
    intro c hc
    have hne : c ≠ s.count := Nat.ne_of_lt hc.1
    refine ⟨hne, Nat.lt_succ_of_lt hc.1, ?_⟩
    rw [hold c hne]
    exact hc.2
  have hlt : ∀ c, c < s.count + 1 → c ≠ s.count → c < s.count := fun c hc hne => by omega
  constructor
  · intro c hc
    exact (hlive c (h.refers c hc)).2
  · intro c hc
    show Function.update s.fds fd (some s.count) ((s.acceptConn fd).conns c).sockFd = some c
    by_cases hne : c = s.count
    · rw [hne, hnew]
      exact Function.update_self _ _ _
    · have hc' : s.Live c := ⟨hlt c hc.1 hne, by rw [← hold c hne]; exact hc.2⟩
      have hreg := h.registered c hc'
      rw [hold c hne, Function.update_of_ne]
      · exact hreg
      · intro heq
        rw [Registered, heq, hfree] at hreg
        exact absurd hreg (by simp)
  · intro fd' c hfd'
    change Function.update s.fds fd (some s.count) fd' = some c at hfd'
    by_cases heq : fd' = fd
    · rw [heq, Function.update_self, Option.some.injEq] at hfd'
      rw [heq, ← hfd']
      refine ⟨hfd, ⟨Nat.lt_succ_self _, ?_⟩, ?_⟩
      · rw [hnew]; rfl
      · rw [hnew]; rfl
    · rw [Function.update_of_ne heq] at hfd'
      obtain ⟨hpos, hc, hsock⟩ := h.denotes fd' c hfd'
      obtain ⟨hne, hc'⟩ := hlive c hc
      exact ⟨hpos, hc', by rw [hold c hne, hsock]⟩
  · intro i c fd' hi
    have hc := h.refers c (Or.inr (Or.inr ⟨i, captured_conn hi⟩))
    rw [hold c (hlive c hc).1]
    exact h.captured i c fd' hi
  · intro c
    by_cases hne : c = s.count
    · rw [hne, hnew]
      exact Nat.zero_le 1
    · rw [hold c hne]
      exact h.released_le_one c
  · intro c hc
    have hc : s.count + 1 ≤ c := hc
    rw [hold c (by omega)]
    exact h.fresh c (by omega)

/-- A release that comes last leaves no reference to the `SOCKCONN` behind. -/
theorem LifetimeInv.freeSockconn (h : s.LifetimeInv) {i : ι} {c : ConnId}
    (hpc : s.workers i = .started (.free c)) (hlast : s.ReleasesLast (.enter i)) :
    ((s.freeSockconn c).setPc i .idle).LifetimeInv := by
  obtain ⟨hevents, hjobs, hworkers⟩ : s.HoldsLast i (.started (.free c)) := hpc ▸ hlast
  have hlive : s.Live c := h.refers c (Or.inr (Or.inr ⟨i, congrArg Pc.conn? hpc⟩))
  have hreg : s.fds (s.conns c).sockFd = some c := h.registered c hlive
  have hpos : (s.conns c).sockFd > 0 := by
    have := (h.denotes _ c hreg).1
    omega
  set t := (s.freeSockconn c).setPc i .idle with ht
  have hfds : t.fds = Function.update s.fds (s.conns c).sockFd none := if_pos hpos
  have hself : t.conns c =
      { s.conns c with sockFd := 0, released := (s.conns c).released + 1 } :=
    s.conns_freeSockconn_self c
  have hother : ∀ k, k ≠ c → t.conns k = s.conns k := fun k hk => s.conns_freeSockconn_of_ne hk
  have hworker : ∀ j, j = i ∧ t.workers j = .idle ∨ j ≠ i ∧ t.workers j = s.workers j := fun j =>
    (s.freeSockconn c).workers_setPc_cases i .idle j
  have hkept : ∀ k, k ≠ c → s.Live k → t.Live k := by
    intro k hk hl
    exact ⟨hl.1, by rw [hother k hk]; exact hl.2⟩
  have hrefers : ∀ k, t.Refers k → k ≠ c ∧ s.Refers k := by
    rintro k (⟨e, he, hk⟩ | ⟨job, hjob, hk⟩ | ⟨j, hj⟩)
    · exact ⟨fun hkc => hevents e he (hkc ▸ hk), Or.inl ⟨e, he, hk⟩⟩
    · exact ⟨fun hkc => hjobs job hjob (hk.trans hkc), Or.inr (Or.inl ⟨job, hjob, hk⟩)⟩
    · rcases hworker j with ⟨-, hmoved⟩ | ⟨hji, hstay⟩
      · rw [hmoved] at hj
        exact absurd hj (by simp [Pc.conn?])
      · rw [hstay] at hj
        exact ⟨fun hkc => hworkers j hji (hkc ▸ hj), Or.inr (Or.inr ⟨j, hj⟩)⟩
  constructor
  · intro k hk
    obtain ⟨hne, hold⟩ := hrefers k hk
    exact hkept k hne (h.refers k hold)
  · intro k hk
    have hne : k ≠ c := by
      rintro rfl
      have hzero := hk.2
      rw [hself] at hzero
      exact absurd hzero (Nat.succ_ne_zero _)
    have hk' : s.Live k := ⟨hk.1, by rw [← hother k hne]; exact hk.2⟩
    have hreg' := h.registered k hk'
    rw [Registered, hfds, hother k hne, Function.update_of_ne]
    · exact hreg'
    · intro heq
      rw [Registered, heq, hreg, Option.some.injEq] at hreg'
      exact hne hreg'.symm
  · intro fd k hfd
    rw [hfds] at hfd
    by_cases heq : fd = (s.conns c).sockFd
    · rw [heq, Function.update_self] at hfd
      exact absurd hfd (by simp)
    · rw [Function.update_of_ne heq] at hfd
      obtain ⟨hfd0, hk, hsock⟩ := h.denotes fd k hfd
      have hne : k ≠ c := fun hkc => heq (by rw [← hsock, hkc])
      exact ⟨hfd0, hkept k hne hk, by rw [hother k hne, hsock]⟩
  · intro j k fd hj
    obtain ⟨hne, -⟩ := hrefers k (Or.inr (Or.inr ⟨j, captured_conn hj⟩))
    rw [hother k hne]
    rcases hworker j with ⟨-, hmoved⟩ | ⟨-, hstay⟩
    · rw [hmoved] at hj
      exact absurd hj (by simp [Pc.captured?])
    · rw [hstay] at hj
      exact h.captured j k fd hj
  · intro k
    by_cases hk : k = c
    · rw [hk, hself]
      show (s.conns c).released + 1 ≤ 1
      rw [hlive.2]
    · rw [hother k hk]
      exact h.released_le_one k
  · intro k hk
    have hne : k ≠ c := fun hkc => Nat.not_le_of_lt hlive.1 (hkc ▸ hk)
    rw [hother k hne]
    exact h.fresh k hk

/-- Every step that releases nothing too early keeps the invariant. -/
theorem LifetimeInv.step {a : Label ι} (h : s.LifetimeInv) (hlast : s.ReleasesLast a)
    (hstep : ServerState.step d s a = some s') : s'.LifetimeInv := by
  rcases keeps_of_took (took_of_step hstep) with ⟨fd, rfl, hfd, hfree⟩ | ⟨i, c, rfl, hpc, rfl⟩ | hk
  · exact h.acceptConn hfd hfree
  · exact h.freeSockconn hpc hlast
  · exact h.keeps hk

end Steps

/-- **In every run in which each release comes last, every state reached keeps the
promise on lifetimes.** -/
theorem lifetime_of_releasesLast [DecidableEq ι] (d : Decoder) {labels : List (Label ι)}
    {s : ServerState ι} (hlast : Meets (step d) ReleasesLast init labels)
    (hrun : run (step d) init labels = some s) : s.Lifetime := by
  have hinv : s.LifetimeInv :=
    run_invariant (fun _ _ _ h hl hs => h.step hl hs) LifetimeInv.init hlast hrun
  exact hinv.lifetime

/-- The event of a client that has closed its side. -/
def clientClosed : Flags :=
  { epollErr := false, epollHup := false, epollIn := true, epollRdhup := true,
    epollOut := false }

/-- A connection that is accepted and closed by its client. -/
def acceptAndClose : List (Label (Fin 1)) :=
  [.epollWait [.listener], .accept 5, .accepted, .close 0, .epollWait [.conn 0 clientClosed],
    .dispatch]

theorem lifetime_of_one_release :
    ∃ s, run (step ⟨fun _ => none, fun _ => none⟩) init (acceptAndClose ++ [.take 0, .enter 0]) =
        some s ∧ s.Lifetime := by
  have hrun : (run (step ⟨fun _ => none, fun _ => none⟩) init
      (acceptAndClose ++ [.take 0, .enter 0])).isSome = true := by decide +kernel
  obtain ⟨s, hs⟩ := Option.isSome_iff_exists.mp hrun
  exact ⟨s, hs, lifetime_of_releasesLast _ (by decide +kernel) hs⟩

/-- Two events of one connection queue two releases of it, and both are run. -/
theorem released_twice :
    ¬ ∀ (ι : Type) [DecidableEq ι] (d : Decoder) (labels : List (Label ι)) (s : ServerState ι),
      run (step d) init labels = some s → s.Lifetime := by
  intro h
  have hrun : (run (step ⟨fun _ => none, fun _ => none⟩) init
      (acceptAndClose ++ [.epollWait [.conn 0 { clientClosed with epollHup := true }], .dispatch,
        .take 0, .enter 0, .take 0, .enter 0])).map (fun s => (s.conns 0).released) = some 2 := by
    decide +kernel
  obtain ⟨s, hs, hreleased⟩ := Option.map_eq_some_iff.mp hrun
  have hle := (h (Fin 1) _ _ s hs).released_le_one 0
  omega

end WowProxy.ServerState
