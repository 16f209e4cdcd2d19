/-
  Common/WriteLoop.lean --- what a call of `writen_fd` comes to.

  `course` reads off the results of the system calls alone which reconnections a
  call makes, with how many bytes still to be written, and how many bytes each
  `write` takes.  `Sends` is the meaning of such a list of moves for a thread, and
  `writenFdLoop_sends` says that the loop makes exactly the moves of its course.
  Statements about whole calls are inductions on `Sends`, whose cases are the moves.
-/
import WowProxy.Common.SoapSocket

set_option autoImplicit false

namespace WowProxy

/-! ## One connection attempt -/

namespace Attempt

/-- What the attempt does to descriptors: a socket is opened unless `socket` fails. -/
def opens (a : Attempt) : List Io :=
  match a.socket with
  | .error _ => []
  | .ok fd => [.opened fd]

/-- What the attempt returns: the new connection, or `0`. -/
def result (a : Attempt) : Nat :=
  match a.socket with
  | .error _ => 0
  | .ok fd => if a.connects then fd else 0

theorem result_of_not_connects {a : Attempt} (h : a.connects = false) : a.result = 0 := by
  unfold result
  split
  · rfl
  · rw [h]
    rfl

/-- An attempt that connects has opened the socket it returns. -/
theorem of_connects {a : Attempt} (h : a.connects = true) :
    0 < a.result ∧ a.opens = [.opened a.result] := by
  obtain ⟨fd, hsocket, -⟩ := a.connects_iff.mp h
  have hresult : a.result = fd + 1 := by simp only [result, hsocket, h, if_true]
  exact ⟨by omega, by simp only [opens, hresult, hsocket]⟩

/-- No socket is left over: if there is one, it is connected. -/
def Clean (a : Attempt) : Prop := ∀ fd, a.socket = .ok fd → a.connects = true

theorem clean_iff_of_not_connects {a : Attempt} (h : a.connects = false) :
    a.Clean ↔ a.opens = [] := by
  unfold Clean opens
  cases a.socket with
  | error e => simp
  | ok fd => simp [h]

end Attempt

/-- An attempt whose third `connect` succeeds. -/
def connecting (fd : Nat) : Attempt :=
  { socket := .ok fd, setsockopt := fun _ => true, connect := fun i => i = 2 }

theorem makeSoapSocket_zero (io : List Io) (a : Attempt) :
    makeSoapSocket ⟨0, io⟩ a = (a.result, ⟨a.result, io ++ a.opens⟩) := by
  cases hconnects : a.connects with
  | true =>
    obtain ⟨fd, hsocket, hset, hconnect⟩ := a.connects_iff.mp hconnects
    simp [makeSoapSocket, Attempt.result, Attempt.opens, hsocket, setSockKeepalive, hset, hconnect,
      hconnects, Thread.log]
  | false =>
    rw [Attempt.result_of_not_connects hconnects]
    unfold Attempt.connects at hconnects
    unfold makeSoapSocket Attempt.opens
    cases hsocket : a.socket with
    | error e => simp
    | ok fd =>
      rw [hsocket] at hconnects
      by_cases hfd : fd = 0
      · simp [hfd, setSockKeepalive, Thread.log]
      · by_cases hset : (List.finRange 5).all a.setsockopt = true
        · have hconnect : (List.finRange 3).any a.connect = false := by
            simpa [hfd, hset] using hconnects
          simp [setSockKeepalive, hfd, hset, hconnect, Thread.log]
        · simp [setSockKeepalive, hfd, hset, Thread.log]

/-- The thread behind a reconnection. -/
def Thread.reconnected (t : Thread) (a : Attempt) : Thread :=
  ⟨a.result, t.io ++ t.dropped ++ a.opens⟩

theorem resetThreadLocalSoapSocket_eq (t : Thread) (a : Attempt) :
    resetThreadLocalSoapSocket t a =
      (if a.connects then some a.result else none, t.reconnected a) := by
  rw [reset_eq, makeSoapSocket_zero, Thread.reconnected]
  cases hconnects : a.connects with
  | true =>
    obtain ⟨hpos, -⟩ := Attempt.of_connects hconnects
    obtain ⟨fd, hfd⟩ : ∃ fd, a.result = fd + 1 := ⟨a.result - 1, by omega⟩
    rw [hfd]
    rfl
  | false =>
    rw [Attempt.result_of_not_connects hconnects]
    rfl

/-! ## Courses -/

/-- What a call of `writen_fd` does, as far as the results of its system calls
decide it. -/
inductive Move where
  /-- a reconnection, with this many bytes still to be written -/
  | reconnect (left : Nat) (a : Attempt)
  /-- a `write` takes this many bytes -/
  | take (count : Nat)

/-- The moves of the `write` of a round, and then those of `next`. -/
def Round.writeMoves (fd left : Nat) (r : Round) (next : Nat → Nat → List Move) : List Move :=
  match r.write with
  | .ok 0 => []
  | .ok (count + 1) => .take (count + 1) :: next fd (left - (count + 1))
  | .error .eintr => next fd left
  | .error .epipe =>
    .reconnect left r.again :: if r.again.connects then next r.again.result left else []
  | .error _ => []

/-- The moves of a round, and then those of `next`. -/
def Round.moves (fd left : Nat) (r : Round) (next : Nat → Nat → List Move) : List Move :=
  if isSockClosedByPeer fd r.probe then
    .reconnect left r.reset ::
      if r.reset.connects then r.writeMoves r.reset.result left next else []
  else r.writeMoves fd left next

/-- The moves of a call on the descriptor `fd` with `left` bytes to be written. -/
def course : Nat → Nat → List Round → List Move
  | _, 0, _ => []
  | _, _ + 1, [] => []
  | fd, left + 1, r :: rounds => r.moves fd (left + 1) fun fd left => course fd left rounds

/-- The moves take a thread that is to write `ptr` on `fd`, in a call with the
arguments `pfd` and `n`, to the returned value, the final `*pfd` and the thread
behind the call. -/
inductive Sends (pfd n : Nat) :
    Nat → List UInt8 → Thread → List Move → Int → Nat → Thread → Prop where
  /-- everything is written -/
  | done (fd : Nat) (t : Thread) : Sends pfd n fd [] t [] n fd t
  /-- `write` fails -/
  | failed (fd : Nat) {ptr : List UInt8} (t : Thread) (hptr : ptr ≠ []) :
      Sends pfd n fd ptr t [] (-2) pfd t
  /-- a reconnection fails -/
  | lost (fd : Nat) {ptr : List UInt8} (t : Thread) {a : Attempt} (hptr : ptr ≠ [])
      (hlost : a.connects = false) :
      Sends pfd n fd ptr t [.reconnect ptr.length a] (-1) pfd (t.reconnected a)
  | reconnect (fd : Nat) {ptr : List UInt8} {t t' : Thread} {a : Attempt} {moves : List Move}
      {ret : Int} {out : Nat} (hptr : ptr ≠ []) (hconnects : a.connects = true)
      (rest : Sends pfd n a.result ptr (t.reconnected a) moves ret out t') :
      Sends pfd n fd ptr t (.reconnect ptr.length a :: moves) ret out t'
  | take {fd : Nat} {ptr : List UInt8} {t t' : Thread} {count : Nat} {moves : List Move}
      {ret : Int} {out : Nat} (hpos : 0 < count) (hle : count ≤ ptr.length)
      (rest : Sends pfd n fd (ptr.drop count) (t.log (.wrote fd (ptr.take count))) moves ret out
        t') :
      Sends pfd n fd ptr t (.take count :: moves) ret out t'

/-- How a turn comes to the end of the call: it returns, or the moves of `next`
follow. -/
def Turn.Ends (pfd n : Nat) (next : Nat → Nat → List Move) :
    Turn → Int → Nat → Thread → Prop
  | .stop ret t, ret', out, t' => ret' = ret ∧ out = pfd ∧ t' = t
  | .next fd ptr t, ret, out, t' => Sends pfd n fd ptr t (next fd ptr.length) ret out t'

theorem writenFdWrite_sends {pfd n fd : Nat} {ptr : List UInt8} {t t' : Thread} {r : Round}
    {next : Nat → Nat → List Move} {turn : Turn} {ret : Int} {out : Nat} (hptr : ptr ≠ [])
    (hturn : writenFdWrite fd ptr t r = some turn) (hends : turn.Ends pfd n next ret out t') :
    Sends pfd n fd ptr t (r.writeMoves fd ptr.length next) ret out t' := by
  unfold writenFdWrite at hturn
  split at hturn
  · rename_i hwrite
    obtain rfl := Option.some.inj hturn
    obtain ⟨hret, hout, ht⟩ := hends
    rw [Round.writeMoves, hwrite, hret, hout, ht]
    exact .failed fd t hptr
  · rename_i count hne hwrite
    obtain ⟨count, rfl⟩ := Nat.exists_eq_succ_of_ne_zero hne
    split at hturn
    · rename_i hle
      obtain rfl := Option.some.inj hturn
      rw [Round.writeMoves, hwrite]
      refine .take (Nat.succ_pos count) hle ?_
      rw [← List.length_drop]
      exact hends
    · exact absurd hturn (by simp)
  · rename_i hwrite
    obtain rfl := Option.some.inj hturn
    rw [Round.writeMoves, hwrite]
    exact hends
  · rename_i hwrite
    rw [Round.writeMoves, hwrite]
    rw [resetThreadLocalSoapSocket_eq] at hturn
    cases hconnects : r.again.connects with
    | true =>
      rw [hconnects] at hturn
      obtain rfl := Option.some.inj hturn
      exact .reconnect fd hptr hconnects hends
    | false =>
      rw [hconnects] at hturn
      obtain rfl := Option.some.inj hturn
      obtain ⟨hret, hout, ht⟩ := hends
      rw [hret, hout, ht]
      exact .lost fd t hptr hconnects
  · rename_i e hintr hpipe hwrite
    obtain rfl := Option.some.inj hturn
    obtain ⟨hret, hout, ht⟩ := hends
    have hmoves : r.writeMoves fd ptr.length next = [] := by
      unfold Round.writeMoves
      rw [hwrite]
      cases e with
      | eintr => exact absurd rfl hintr
      | epipe => exact absurd rfl hpipe
      | eagain => rfl
      | other code => rfl
    rw [hmoves, hret, hout, ht]
    exact .failed fd t hptr

theorem writenFdTurn_sends {pfd n fd : Nat} {ptr : List UInt8} {t t' : Thread} {r : Round}
    {next : Nat → Nat → List Move} {turn : Turn} {ret : Int} {out : Nat} (hptr : ptr ≠ [])
    (hturn : writenFdTurn fd ptr t r = some turn) (hends : turn.Ends pfd n next ret out t') :
    Sends pfd n fd ptr t (r.moves fd ptr.length next) ret out t' := by
  unfold writenFdTurn at hturn
  unfold Round.moves
  split at hturn
  · rename_i hclosed
    rw [if_pos hclosed]
    rw [resetThreadLocalSoapSocket_eq] at hturn
    cases hconnects : r.reset.connects with
    | true =>
      rw [hconnects] at hturn
      exact .reconnect fd hptr hconnects (writenFdWrite_sends hptr hturn hends)
    | false =>
      rw [hconnects] at hturn
      obtain rfl := Option.some.inj hturn
      obtain ⟨hret, hout, ht⟩ := hends
      rw [hret, hout, ht]
      exact .lost fd t hptr hconnects
  · rename_i hopen
    rw [if_neg hopen]
    exact writenFdWrite_sends hptr hturn hends

/-- The loop makes the moves of its course. -/
theorem writenFdLoop_sends {pfd n : Nat} (rounds : List Round) :
    ∀ {fd : Nat} {ptr : List UInt8} {t : Thread} {w : WritenFd},
      writenFdLoop pfd n fd ptr t rounds = some w →
      Sends pfd n fd ptr t (course fd ptr.length rounds) w.ret w.pfd w.thread := by
  induction rounds with
  | nil =>
    intro fd ptr t w h
    cases ptr with
    | nil =>
      obtain rfl := Option.some.inj h
      exact .done fd t
    | cons b ptr => exact absurd h (by simp [writenFdLoop])
  | cons r rounds ih =>
    intro fd ptr t w h
    cases ptr with
    | nil =>
      obtain rfl := Option.some.inj h
      exact .done fd t
    | cons b ptr =>
      rw [writenFdLoop] at h
      rw [List.length_cons, course]
      split at h
      · exact absurd h (by simp)
      · rename_i ret t' hturn
        obtain rfl := Option.some.inj h
        exact writenFdTurn_sends (List.cons_ne_nil b ptr) hturn ⟨rfl, rfl, rfl⟩
      · rename_i fd' ptr' t' hturn
        exact writenFdTurn_sends (List.cons_ne_nil b ptr) hturn (ih h)

/-- A call of `writen_fd` makes the moves of its course. -/
theorem writenFd_sends {pfd : Nat} {vptr : List UInt8} {t : Thread} {rounds : List Round}
    {w : WritenFd} (h : writenFd pfd vptr t rounds = some w) :
    Sends pfd vptr.length pfd vptr t (course pfd vptr.length rounds) w.ret w.pfd w.thread :=
  writenFdLoop_sends rounds h

end WowProxy
