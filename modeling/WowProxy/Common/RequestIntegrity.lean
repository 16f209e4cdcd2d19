/-
  Common/RequestIntegrity.lean --- what the last connection of a call of `writen_fd`
  has received.

  The loop keeps one cursor and may change the connection under it.  The bytes a
  connection has received are counted from its opening on, so that a descriptor
  number that comes back does not bring the bytes of its predecessor along.  They
  are the whole buffer exactly when every reconnection comes before the first byte.
-/
import WowProxy.Common.WriteLoop

set_option autoImplicit false

namespace WowProxy

/-! ## Received bytes -/

/-- What an effect does to the bytes that the connection `fd` has received. -/
def Io.onReceived (fd : Nat) (got : List UInt8) : Io → List UInt8
  | .opened fd' => if fd' = fd then [] else got
  | .closed fd' => if fd' = fd then [] else got
  | .wrote fd' bytes => if fd' = fd then got ++ bytes else got

/-- The bytes received by the connection that `fd` stands for behind the effects. -/
def received (fd : Nat) (io : List Io) : List UInt8 := io.foldl (Io.onReceived fd) []

theorem received_opened (fd : Nat) (io : List Io) : received fd (io ++ [.opened fd]) = [] := by
  simp [received, Io.onReceived]

theorem received_wrote (fd : Nat) (io : List Io) (bytes : List UInt8) :
    received fd (io ++ [.wrote fd bytes]) = received fd io ++ bytes := by
  simp [received, Io.onReceived]

/-- What a thread did since `io`. -/
def Thread.Since (t : Thread) (io new : List Io) : Prop := t.io = io ++ new

/-- A connection that has just been made has received nothing. -/
theorem Thread.Since.reconnected {t : Thread} {io new : List Io} (h : t.Since io new)
    {a : Attempt} (hconnects : a.connects = true) :
    ∃ new', (t.reconnected a).Since io new' ∧ received a.result new' = [] := by
  obtain ⟨-, hopens⟩ := Attempt.of_connects hconnects
  refine ⟨new ++ t.dropped ++ [.opened a.result], ?_, received_opened _ _⟩
  simp only [Since, Thread.reconnected, hopens] at h ⊢
  rw [h]
  simp only [List.append_assoc]

theorem Thread.Since.wrote {t : Thread} {io new : List Io} (h : t.Since io new) (fd : Nat)
    (bytes : List UInt8) : (t.log (.wrote fd bytes)).Since io (new ++ [.wrote fd bytes]) := by
  rw [Since, Thread.log_io, h, List.append_assoc]

/-! ## The cursor and the connection -/

/-- A connection that is behind the cursor stays behind: it, or the next one, does not
get the whole buffer. -/
theorem Sends.received_short {pfd n fd out : Nat} {ptr : List UInt8} {t t' : Thread}
    {moves : List Move} {ret : Int} (h : Sends pfd n fd ptr t moves ret out t')
    (hret : ret = n) {io new : List Io} (hsince : t.Since io new)
    (hbehind : (received fd new).length + ptr.length < n) :
    ∃ new', t'.Since io new' ∧ (received out new').length < n := by
  induction h generalizing new with
  | done fd t => exact ⟨new, hsince, hbehind⟩
  | failed fd t hptr => omega
  | lost fd t hptr hlost => omega
  | reconnect fd hptr hconnects rest ih =>
    obtain ⟨new', hsince', hgot⟩ := hsince.reconnected hconnects
    refine ih hret hsince' ?_
    rw [hgot, List.length_nil]
    omega
  | @take fd ptr t t' count moves ret out hpos hle rest ih =>
    refine ih hret (hsince.wrote fd _) ?_
    rw [received_wrote, List.length_append, List.length_take, List.length_drop]
    omega

/-- A connection that has all bytes in front of the cursor ends up with the whole
buffer exactly when no reconnection finds some of them written. -/
theorem Sends.received_iff {pfd n fd out : Nat} {ptr buf : List UInt8} {t t' : Thread}
    {moves : List Move} {ret : Int} (h : Sends pfd n fd ptr t moves ret out t')
    (hret : ret = n) (hn : n = buf.length) {io new : List Io} (hsince : t.Since io new)
    (hgot : received fd new ++ ptr = buf) :
    ∃ new', t'.Since io new' ∧
      (received out new' = buf ↔ ∀ left a, .reconnect left a ∈ moves → left = n) := by
  induction h generalizing new with
  | done fd t =>
    refine ⟨new, hsince, ?_⟩
    rw [List.append_nil] at hgot
    simp [hgot]
  | failed fd t hptr => omega
  | lost fd t hptr hlost => omega
  | @reconnect fd ptr t t' a moves ret out hptr hconnects rest ih =>
    obtain ⟨new', hsince', hnone⟩ := hsince.reconnected hconnects
    have hlen : (received fd new).length + ptr.length = n := by
      rw [← List.length_append, hgot, hn]
    by_cases hall : ptr.length = n
    · -- Nothing has been written: the new connection starts with the buffer.
      have hnil : received fd new = [] := List.length_eq_zero_iff.mp (by omega)
      rw [hnil, List.nil_append] at hgot
      obtain ⟨new'', hsince'', hiff⟩ := ih hret hsince' (by rw [hnone, List.nil_append, hgot])
      refine ⟨new'', hsince'', hiff.trans ⟨fun hmoves left b hb => ?_, fun hmoves left b hb => ?_⟩⟩
      · rcases List.mem_cons.mp hb with heq | hb
        · rw [(Move.reconnect.inj heq).1, hall]
        · exact hmoves left b hb
      · exact hmoves left b (List.mem_cons_of_mem _ hb)
    · -- The new connection misses what the old one has.
      obtain ⟨new'', hsince'', hshort⟩ := rest.received_short hret hsince' (by
        rw [hnone, List.length_nil]
        omega)
      refine ⟨new'', hsince'', ⟨fun hwhole => ?_, fun hmoves => ?_⟩⟩
      · rw [hwhole] at hshort
        omega
      · exact absurd (hmoves ptr.length a List.mem_cons_self) hall
  | @take fd ptr t t' count moves ret out hpos hle rest ih =>
    obtain ⟨new', hsince', hiff⟩ := ih hret (hsince.wrote fd (ptr.take count)) (by
      rw [received_wrote, List.append_assoc, List.take_append_drop, hgot])
    refine ⟨new', hsince', hiff.trans ?_⟩
    simp

/-- **When `writen_fd` returns `n`, the connection it hands back has received the `n`
bytes of the buffer, in order and nothing else, exactly when no reconnection of the call
comes after a `write` that took some of them.** -/
theorem writenFd_intact_iff (pfd : Nat) (vptr : List UInt8) (t : Thread) (rounds : List Round)
    (w : WritenFd) (h : writenFd pfd vptr t rounds = some w) (hret : w.ret = vptr.length) :
    ∃ new, w.thread.io = t.io ++ new ∧
      (received w.pfd new = vptr ↔
        ∀ left a, .reconnect left a ∈ course pfd vptr.length rounds → left = vptr.length) :=
  (writenFd_sends h).received_iff hret rfl
    (show t.Since t.io [] from (List.append_nil t.io).symm) rfl

/-! ## A server that goes away -/

/-- A round whose probe finds the connection healthy and whose `write` takes one byte. -/
def healthyRound : Round :=
  { probe := .error .eagain, reset := connecting 8, write := .ok 1, again := connecting 8 }

/-- A round that finds the connection closed and makes the connection 8. -/
def closedRound : Round :=
  { probe := .ok 0, reset := connecting 8, write := .ok 1, again := connecting 8 }

/-- The server goes away between the two bytes of a request, and the new connection
gets the second. -/
theorem writenFd_suffix : ¬ ∀ (pfd : Nat) (vptr : List UInt8) (t : Thread)
    (rounds : List Round) (w : WritenFd), t.td = pfd → 0 < pfd → 0 < vptr.length →
    writenFd pfd vptr t rounds = some w → w.ret = vptr.length →
    ∃ new, w.thread.io = t.io ++ new ∧ received w.pfd new = vptr := by
  intro halways
  obtain ⟨new, hnew, hreceived⟩ := halways 7 [65, 66] ⟨7, []⟩ [healthyRound, closedRound]
    { ret := 2, pfd := 8,
      thread := ⟨8, [.wrote 7 [65], .closed 7, .opened 8, .wrote 8 [66]]⟩, rest := [] }
    rfl (by decide) (by decide) rfl rfl
  obtain rfl : new = [.wrote 7 [65], .closed 7, .opened 8, .wrote 8 [66]] := hnew.symm
  exact absurd hreceived (by decide)

/-- The server has gone away before the request. -/
theorem writenFd_intact : ∃ new,
    [.closed 7, .opened 8, .wrote 8 [65], .wrote 8 [66]] = ([] : List Io) ++ new ∧
      (received 8 new = [65, 66] ↔
        ∀ left a, .reconnect left a ∈ course 7 2 [closedRound, healthyRound] → left = 2) :=
  writenFd_intact_iff 7 [65, 66] ⟨7, []⟩ [closedRound, healthyRound]
    { ret := 2, pfd := 8,
      thread := ⟨8, [.closed 7, .opened 8, .wrote 8 [65], .wrote 8 [66]]⟩, rest := [] }
    rfl rfl

end WowProxy
