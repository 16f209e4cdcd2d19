/-
  Common/Descriptors.lean --- the sockets to the game server that a thread holds.

  The sockets a thread has opened and not closed are read off its record.  They are
  accounted for when there is none besides `_td_sock_id`.  `make_soap_socket` gives
  up an attempt that fails behind `socket` without closing the new socket; no
  variable holds it any more, and each such attempt leaves one more descriptor.
-/
import WowProxy.Common.WriteLoop
import WowProxy.Lib.Families
import WowProxy.Lib.Runs

set_option autoImplicit false

namespace WowProxy

open WowProxy.Lib WowProxy.Lib.Runs

/-! ## Accounting -/

/-- What an effect does to the list of open sockets. -/
def Io.onSockets (sockets : List Nat) : Io → List Nat
  | .opened fd => sockets ++ [fd]
  | .closed fd => sockets.erase fd
  | .wrote _ _ => sockets

/-- The sockets that the effects open and do not close. -/
def openSockets (io : List Io) : List Nat := io.foldl Io.onSockets []

theorem openSockets_append (io io' : List Io) :
    openSockets (io ++ io') = io'.foldl Io.onSockets (openSockets io) := List.foldl_append

namespace Thread

/-- The thread holds the socket `_td_sock_id` and no other, and none when that is
`0`. -/
def Accounted (t : Thread) : Prop :=
  openSockets t.io = if t.td = 0 then [] else [t.td]

instance (t : Thread) : Decidable t.Accounted := inferInstanceAs (Decidable (_ = _))

namespace Accounted

variable {t : Thread}

theorem sockets_le_one (h : t.Accounted) : (openSockets t.io).length ≤ 1 := by
  rw [h]
  split <;> simp

/-- Dropping the connection leaves no socket. -/
theorem dropped (h : t.Accounted) : openSockets (t.io ++ t.dropped) = [] := by
  rw [openSockets_append, h, Thread.dropped]
  by_cases htd : t.td = 0
  · simp [htd]
  · simp [htd, Nat.pos_of_ne_zero htd, Io.onSockets]

/-- From no socket, an attempt leaves an account that is right exactly when it is
clean. -/
theorem attempt_iff {io : List Io} (hnone : openSockets io = []) (a : Attempt) :
    Accounted ⟨a.result, io ++ a.opens⟩ ↔ a.Clean := by
  unfold Accounted
  cases hconnects : a.connects with
  | true =>
    obtain ⟨hpos, hopens⟩ := Attempt.of_connects hconnects
    simp only [openSockets_append, hnone, hopens, List.foldl_cons, List.foldl_nil, Io.onSockets,
      List.nil_append, Nat.ne_of_gt hpos, if_false, true_iff]
    exact fun _ _ => hconnects
  | false =>
    rw [Attempt.clean_iff_of_not_connects hconnects, Attempt.result_of_not_connects hconnects,
      if_pos rfl, openSockets_append, hnone, Attempt.opens]
    cases a.socket with
    | error e => simp
    | ok fd => simp [Io.onSockets]

theorem reconnected_iff (h : t.Accounted) (a : Attempt) :
    (t.reconnected a).Accounted ↔ a.Clean :=
  attempt_iff h.dropped a

theorem wrote (h : t.Accounted) (fd : Nat) (bytes : List UInt8) :
    (t.log (.wrote fd bytes)).Accounted := by
  unfold Accounted
  rw [log_td, log_io, openSockets_append]
  exact h

end Accounted

end Thread

/-- The moves of a call leave the account right exactly when every reconnection is
clean. -/
theorem Sends.accounted_iff {pfd n fd out : Nat} {ptr : List UInt8} {t t' : Thread}
    {moves : List Move} {ret : Int} (h : Sends pfd n fd ptr t moves ret out t')
    (haccounted : t.Accounted) :
    t'.Accounted ↔ ∀ left a, .reconnect left a ∈ moves → a.Clean := by
  induction h with
  | done fd t => simp [haccounted]
  | failed fd t hptr => simp [haccounted]
  | lost fd t hptr hlost =>
    rw [haccounted.reconnected_iff]
    simp
  | @reconnect fd ptr t t' a moves ret out hptr hconnects rest ih =>
    have hclean : a.Clean := fun _ _ => hconnects
    rw [ih ((haccounted.reconnected_iff a).mpr hclean)]
    constructor
    · intro hmoves left b hb
      rcases List.mem_cons.mp hb with heq | hb
      · obtain ⟨-, rfl⟩ := Move.reconnect.inj heq
        exact hclean
      · exact hmoves left b hb
    · exact fun hmoves left b hb => hmoves left b (List.mem_cons_of_mem _ hb)
  | take hpos hle rest ih =>
    rw [ih (haccounted.wrote _ _)]
    simp

/-! ## Calls -/

/-- A call of one of the functions that open or close the connection, with the
results of its system calls. -/
inductive SocketCall where
  /-- `make_soap_socket` -/
  | make (a : Attempt)
  /-- `reset_thread_local_soap_socket` -/
  | reset (a : Attempt)
  /-- `writen_fd` -/
  | writen (pfd : Nat) (vptr : List UInt8) (rounds : List Round)

/-- The thread behind a call. -/
def Thread.afterCall (t : Thread) : SocketCall → Option Thread
  | .make a => some (makeSoapSocket t a).2
  | .reset a => some (resetThreadLocalSoapSocket t a).2
  | .writen pfd vptr rounds => (writenFd pfd vptr t rounds).map WritenFd.thread

/-- Every connection attempt of the call either gets no socket or connects it. -/
def SocketCall.Clean (t : Thread) : SocketCall → Prop
  | .make a => t.td = 0 → a.Clean
  | .reset a => a.Clean
  | .writen pfd vptr rounds =>
    ∀ left a, .reconnect left a ∈ course pfd vptr.length rounds → a.Clean

theorem Thread.Accounted.afterCall_iff {t t' : Thread} {c : SocketCall}
    (haccounted : t.Accounted) (h : t.afterCall c = some t') : t'.Accounted ↔ c.Clean t := by
  cases c with
  | make a =>
    obtain rfl := Option.some.inj h
    by_cases htd : t.td = 0
    · have hnone : openSockets t.io = [] := by rw [haccounted, if_pos htd]
      have hmake : makeSoapSocket t a = (a.result, ⟨a.result, t.io ++ a.opens⟩) := by
        rw [← makeSoapSocket_zero, ← htd]
      rw [hmake, Thread.Accounted.attempt_iff hnone]
      exact ⟨fun hclean _ => hclean, fun hclean => hclean htd⟩
    · have hmake : makeSoapSocket t a = (t.td, t) := if_pos (Nat.pos_of_ne_zero htd)
      rw [hmake]
      exact ⟨fun _ hzero => absurd hzero htd, fun _ => haccounted⟩
  | reset a =>
    obtain rfl := Option.some.inj h
    rw [resetThreadLocalSoapSocket_eq]
    exact haccounted.reconnected_iff a
  | writen pfd vptr rounds =>
    obtain ⟨w, hw, rfl⟩ := Option.map_eq_some_iff.mp h
    exact (writenFd_sends hw).accounted_iff haccounted

/-! ## All worker threads -/

/-- A thread that has done nothing. -/
def Thread.start : Thread := ⟨0, []⟩

/-- Every thread of the proxy holds its connection and nothing else. -/
def AllAccounted {n : Nat} (threads : Fin n → Thread) : Prop := ∀ i, (threads i).Accounted

theorem AllAccounted.total_le {n : Nat} {threads : Fin n → Thread} (h : AllAccounted threads) :
    Families.total (fun t : Thread => (openSockets t.io).length) threads ≤ n := by
  have hle := Finset.sum_le_card_nsmul Finset.univ
    (fun i => (openSockets (threads i).io).length) 1 fun i _ => (h i).sockets_le_one
  rwa [Finset.card_univ, Fintype.card_fin, smul_eq_mul, Nat.mul_one] at hle

theorem AllAccounted.step_iff {n : Nat} {threads threads' : Fin n → Thread}
    {c : Fin n × SocketCall} (h : AllAccounted threads)
    (hstep : eachStep Thread.afterCall threads c = some threads') :
    AllAccounted threads' ↔
      OnEach (fun (t : Thread) (c : SocketCall) => c.Clean t) threads c := by
  obtain ⟨t', ht', rfl⟩ := Option.map_eq_some_iff.mp hstep
  rw [OnEach, ← (h c.1).afterCall_iff ht']
  constructor
  · intro hall
    have hself := hall c.1
    rwa [Function.update_self] at hself
  · intro haccounted i
    by_cases hi : i = c.1
    · rw [hi, Function.update_self]
      exact haccounted
    · rw [Function.update_of_ne hi]
      exact h i

/-- **Behind every call of a run each thread holds `_td_sock_id` and no other socket,
exactly when every connection attempt of the run that gets a socket connects it.  The
proxy then never holds more of them than it has threads.** -/
theorem accounted_of_run_iff {n : Nat} (calls : List (Fin n × SocketCall))
    {threads : Fin n → Thread}
    (hrun : run (eachStep Thread.afterCall) (fun _ => Thread.start) calls = some threads) :
    ((∀ k threads', run (eachStep Thread.afterCall) (fun _ => Thread.start) (calls.take k) =
        some threads' → AllAccounted threads' ∧
          Families.total (fun t : Thread => (openSockets t.io).length) threads' ≤ n) ↔
      Meets (eachStep Thread.afterCall)
        (OnEach fun (t : Thread) (c : SocketCall) => c.Clean t) (fun _ => Thread.start) calls) := by
  have hstart : AllAccounted fun _ : Fin n => Thread.start := fun _ => rfl
  rw [← run_always_iff (fun _ _ _ => AllAccounted.step_iff) hstart hrun]
  constructor
  · exact fun h k t ht => (h k t ht).1
  · exact fun h k t ht => ⟨h k t ht, (h k t ht).total_le⟩

/-! ## Two outages -/

/-- A socket that refuses its options. -/
def refusing (fd : Nat) : Attempt :=
  { socket := .ok fd, setsockopt := fun _ => false, connect := fun _ => true }

/-- One thread in front of a game server that is away: two attempts leave two
sockets. -/
theorem refused_sockets_pile_up : ¬ ∀ (n : Nat) (calls : List (Fin n × SocketCall))
    (threads : Fin n → Thread),
    run (eachStep Thread.afterCall) (fun _ => Thread.start) calls = some threads →
    ∀ k threads', run (eachStep Thread.afterCall) (fun _ => Thread.start) (calls.take k) =
      some threads' → AllAccounted threads' ∧
        Families.total (fun t : Thread => (openSockets t.io).length) threads' ≤ n := by
  intro halways
  obtain ⟨-, hle⟩ := halways 1 [(0, .make (refusing 7)), (0, .make (refusing 8))] _ rfl 2 _ rfl
  exact absurd hle (by decide)

/-- Two threads connect, and one of them again in the middle of a write. -/
def reconnectingCalls : List (Fin 2 × SocketCall) :=
  let first : Fin 2 := ⟨0, Nat.two_pos⟩
  let second : Fin 2 := ⟨1, Nat.one_lt_two⟩
  [(first, .make (connecting 7)), (second, .make (connecting 8)),
   (first, .writen 7 [65, 66]
      [{ probe := .ok 1, reset := connecting 7, write := .ok 1, again := connecting 7 },
       { probe := .ok 0, reset := connecting 9, write := .ok 1, again := connecting 9 }])]

theorem reconnectingCalls_clean : Meets (eachStep Thread.afterCall)
    (OnEach fun (t : Thread) (c : SocketCall) => c.Clean t) (fun _ => Thread.start)
    reconnectingCalls := by
  have hclean : ∀ fd, fd ≠ 0 → (connecting fd).Clean := fun fd hfd _ _ => by
    simp [Attempt.connects, connecting, hfd]
  refine Meets.of_forall (fun c hc threads => ?_) _
  simp only [reconnectingCalls, List.mem_cons, List.not_mem_nil, or_false] at hc
  rcases hc with rfl | rfl | rfl
  · exact fun _ => hclean 7 (by decide)
  · exact fun _ => hclean 8 (by decide)
  · intro left a ha
    replace ha : Move.reconnect left a ∈
        [Move.take 1, Move.reconnect 1 (connecting 9), Move.take 1] := ha
    simp only [List.mem_cons, reduceCtorEq, false_or, List.not_mem_nil, or_false,
      Move.reconnect.injEq] at ha
    rw [ha.2]
    exact hclean 9 (by decide)

theorem reconnectingCalls_accounted : ∃ threads,
    run (eachStep Thread.afterCall) (fun _ => Thread.start) reconnectingCalls = some threads ∧
      AllAccounted threads ∧
      Families.total (fun t : Thread => (openSockets t.io).length) threads ≤ 2 := by
  obtain ⟨threads, hrun⟩ : ∃ threads,
      run (eachStep Thread.afterCall) (fun _ => Thread.start) reconnectingCalls =
        some threads := ⟨_, rfl⟩
  have hall := (accounted_of_run_iff reconnectingCalls hrun).mpr reconnectingCalls_clean
  exact ⟨threads, hrun, hall 3 threads hrun⟩

end WowProxy
