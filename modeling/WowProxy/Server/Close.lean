/-
  Server/Close.lean --- what a client sent before it closed is executed before its
  connection is released.

  `loop_once` tests `EPOLLIN` together with `EPOLLRDHUP` before it tests `EPOLLIN`
  alone, and then queues a release and no read job.  Whether the frames in front
  of the end of the stream are read depends on the events and jobs that came
  before.  They are all executed in every orderly run that releases a connection
  only when its receive buffer is empty.
-/
import WowProxy.Server.Stream

set_option autoImplicit false

namespace WowProxy.ServerState

open WowProxy.Lib.Runs

variable {ι : Type}

/-- If the worker is about to release a connection, then nothing is left in its
receive buffer. -/
def FreesDrained (s : ServerState ι) : Pc → Prop
  | .started (.free c) => (s.conns c).rx = []
  | _ => True

/-- A connection is drained before it is released. -/
def DrainsFirst (s : ServerState ι) : Label ι → Prop
  | .enter i => s.FreesDrained (s.workers i)
  | _ => True

/-- The conditions under which a client that closes loses nothing. -/
def Graceful (s : ServerState ι) (a : Label ι) : Prop := s.Orderly a ∧ s.DrainsFirst a

instance (s : ServerState ι) : ∀ pc, Decidable (s.FreesDrained pc)
  | .started (.free c) => inferInstanceAs (Decidable ((s.conns c).rx = []))
  | .started (.read _) | .started (.write _) | .idle | .peeking _ _ | .reading _ _ _ _ _
  | .analysing _ _ _ _ | .executing _ _ _ | .finishing _ => isTrue trivial

instance (s : ServerState ι) : ∀ a, Decidable (s.DrainsFirst a)
  | .enter i => inferInstanceAs (Decidable (s.FreesDrained (s.workers i)))
  | .accept _ | .accepted | .epollWait _ | .dispatch | .arrive _ _ | .garbage _ _ | .close _
  | .take _ | .peek _ | .read _ _ | .analyse _ | .execute _ | .finish _ => isTrue trivial

instance [Fintype ι] [DecidableEq ι] (s : ServerState ι) (a : Label ι) :
    Decidable (s.Graceful a) :=
  inferInstanceAs (Decidable (_ ∧ _))

/-- Every command of every frame that has arrived on a released connection has
been executed for it. -/
def NoneLost (d : Decoder) (s : ServerState ι) : Prop :=
  ∀ c, (s.conns c).released ≠ 0 → (s.conns c).executed = (s.conns c).sent.flatMap d.commands

section Steps

variable [DecidableEq ι] {d : Decoder} {s s' : ServerState ι}

omit [DecidableEq ι] in
theorem sameStream_setConn {c k : ConnId} {conn : SockConn} (hne : k ≠ c) :
    SameStream (s.conns k) ((s.setConn c conn).conns k) := by
  rw [conns_setConn_of_ne s hne]
  exact SameStream.refl _

/-- A released connection receives nothing, and nothing is read from it or
executed for it. -/
theorem LifetimeInv.sameStream {a : Label ι} (hlife : s.LifetimeInv) (htook : Took d s a s')
    {c : ConnId} (hreleased : (s.conns c).released ≠ 0) : SameStream (s.conns c) (s'.conns c) := by
  have hdead : ¬ s.Live c := fun hlive => hreleased hlive.2
  have hregistered (k : ConnId) (hreg : s.Registered k) : c ≠ k := by
    rintro rfl
    exact hdead (hlife.denotes _ c hreg).2.1
  have hworker (i : ι) (k : ConnId) (hi : (s.workers i).conn? = some k) : c ≠ k := by
    rintro rfl
    exact hdead (hlife.refers c (Or.inr (Or.inr ⟨i, hi⟩)))
  cases htook with
  | @accept fd hfd hfree =>
    have hne : c ≠ s.count := by
      rintro rfl
      exact hreleased (hlife.fresh _ (Nat.le_refl _))
    show SameStream (s.conns c) ((s.setConn s.count (mallocSockconn fd)).conns c)
    exact sameStream_setConn hne
  | @epollWait events hbatch hevents => exact sameStream_reported s events c
  | arrive hreg | garbage hreg | close hreg => exact sameStream_setConn (hregistered _ hreg)
  | @enterFree i k hpc => exact sameStream_setConn (hworker i k (congrArg Pc.conn? hpc))
  | @read i n k fd start size got k' hpc hfd hpos hsize hrx =>
    obtain rfl : k = k' := hlife.captured_eq (congrArg Pc.captured? hpc) hfd
    exact sameStream_setConn (hworker i k (congrArg Pc.conn? hpc))
  | @execute i k fd cmd cmds hpc => exact sameStream_setConn (hworker i k (congrArg Pc.conn? hpc))
  | accepted | dispatch | take | enterRead | peekStale | peekEmpty | peekBad | peekHeader
  | readStale | readEmpty | analyse | finish => exact SameStream.refl _

/-- A connection is released by the worker that enters its release. -/
theorem released_of_took {a : Label ι} (htook : Took d s a s') {c : ConnId}
    (hreleased : (s'.conns c).released ≠ 0) :
    (s.conns c).released ≠ 0 ∨
      ∃ i, a = .enter i ∧ s.workers i = .started (.free c) ∧
        SameStream (s.conns c) (s'.conns c) := by
  rcases keeps_of_took htook with ⟨fd, rfl, -, -⟩ | ⟨i, k, rfl, hpc, rfl⟩ | hk
  · left
    by_cases hne : c = s.count
    · rw [hne, conns_acceptConn_self] at hreleased
      exact absurd rfl hreleased
    · rwa [s.conns_acceptConn_of_ne hne] at hreleased
  · by_cases hck : c = k
    · rw [hck]
      refine Or.inr ⟨i, rfl, hpc, ?_⟩
      show SameStream (s.conns k) ((s.freeSockconn k).conns k)
      rw [conns_freeSockconn_self]
      exact SameStream.update _ _ _ _ _
    · change ((s.freeSockconn k).conns c).released ≠ 0 at hreleased
      rw [s.conns_freeSockconn_of_ne hck] at hreleased
      exact Or.inl hreleased
  · rw [hk.released] at hreleased
    exact Or.inl hreleased

omit [DecidableEq ι] in
/-- A release that comes last, of a drained connection in a settled stream. -/
theorem StreamInv.complete_of_drained (h : s.StreamInv d) {i : ι} {c : ConnId}
    (hpc : s.workers i = .started (.free c)) (hlast : s.ReleasesLast (.enter i))
    (hdrained : s.DrainsFirst (.enter i)) :
    (s.conns c).executed = (s.conns c).sent.flatMap d.commands := by
  obtain ⟨-, -, hworkers⟩ : s.HoldsLast i (.started (.free c)) := hpc ▸ hlast
  have hrx : s.FreesDrained (.started (.free c)) := hpc ▸ hdrained
  apply (h.settled c ?_).complete hrx
  intro j hj
  by_cases hji : j = i
  · rw [hji, hpc] at hj
    exact absurd hj (by simp [Pc.active?])
  · exact hworkers j hji (active_conn hj)

/-- The invariants of lifetimes and streams, and that nothing has been lost. -/
structure CloseInv (d : Decoder) (s : ServerState ι) : Prop where
  life : s.LifetimeInv
  stream : s.StreamInv d
  none_lost : s.NoneLost d

theorem CloseInv.step {a : Label ι} (h : s.CloseInv d) (hgood : s.Graceful a)
    (hstep : ServerState.step d s a = some s') : s'.CloseInv d := by
  have htook := took_of_step hstep
  refine ⟨h.life.step hgood.1.1 hstep, h.stream.step h.life hgood.1 htook, ?_⟩
  intro c hreleased
  rcases released_of_took htook hreleased with hold | ⟨i, rfl, hpc, hsame⟩
  · have hsame := h.life.sameStream htook hold
    rw [hsame.executed, hsame.sent]
    exact h.none_lost c hold
  · rw [hsame.executed, hsame.sent]
    exact h.stream.complete_of_drained hpc hgood.1.1 hgood.2

end Steps

/-- **In every run whose steps are graceful, no connection is released before every
command of every frame sent on it has been executed.** -/
theorem noneLost_of_graceful [DecidableEq ι] (d : Decoder) {labels : List (Label ι)}
    {s : ServerState ι} (hgraceful : Meets (step d) Graceful init labels)
    (hrun : run (step d) init labels = some s) : s.NoneLost d := by
  have hinit : (ServerState.init : ServerState ι).CloseInv d :=
    ⟨LifetimeInv.init, StreamInv.init, fun _ hreleased => absurd rfl hreleased⟩
  exact (run_invariant (fun _ _ _ h hg hs => h.step hg hs) hinit hgraceful hrun).none_lost

/-- A client sends a frame and closes its side when the frame has been served. -/
def serveAndClose : List (Label (Fin 2)) :=
  acceptAndSend ++ [.epollWait [.conn 0 readable], .dispatch, .take 0, .enter 0, .peek 0,
    .read 0 4, .analyse 0, .execute 0, .peek 0, .finish 0, .close 0,
    .epollWait [.conn 0 clientClosed], .dispatch, .take 1, .enter 1]

theorem noneLost_of_serveAndClose :
    ∃ s, run (step oneCommand) init serveAndClose = some s ∧ (s.conns 0).released = 1 ∧
      s.NoneLost oneCommand := by
  have hrun : (run (step oneCommand) init serveAndClose).map (fun s => (s.conns 0).released) =
      some 1 := by decide +kernel
  obtain ⟨s, hs, hreleased⟩ := Option.map_eq_some_iff.mp hrun
  exact ⟨s, hs, hreleased, noneLost_of_graceful oneCommand (by decide +kernel) hs⟩

/-- A frame and the end of the stream are reported in one event: the connection is
released with the frame unread. -/
theorem frame_lost_on_close :
    ¬ ∀ (ι : Type) [DecidableEq ι] (d : Decoder) (labels : List (Label ι)) (s : ServerState ι),
      run (step d) init labels = some s → s.NoneLost d := by
  intro h
  have hrun : (run (step oneCommand) init (acceptAndSend ++ [.close 0,
      .epollWait [.conn 0 clientClosed], .dispatch, .take 0, .enter 0])).map
        (fun s => ((s.conns 0).released, (s.conns 0).executed, (s.conns 0).sent)) =
      some (1, [], [payloadA]) := by decide +kernel
  obtain ⟨s, hs, hstate⟩ := Option.map_eq_some_iff.mp hrun
  simp only [Prod.mk.injEq] at hstate
  obtain ⟨hreleased, hexecuted, hsent⟩ := hstate
  have hlost := h (Fin 2) _ _ s hs 0 (by rw [hreleased]; exact Nat.one_ne_zero)
  rw [hexecuted, hsent] at hlost
  exact absurd hlost (by decide +kernel)

end WowProxy.ServerState
