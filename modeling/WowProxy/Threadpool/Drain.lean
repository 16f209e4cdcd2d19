/-
  Threadpool/Drain.lean --- what the handlers of an edge-triggered notification
  have seen of their descriptor when they return: `read_sock_func` for a client
  socket and `handle_accept` of `proxy_server.c` for the listening one.

  Both run against a script of results.  Neither hands the release of a
  connection to the thread pool, so a handler has drained its descriptor only if
  one of the results it consumed was `EAGAIN` or end of stream.
-/
import WowProxy.Threadpool.ReadSock

set_option autoImplicit false

namespace WowProxy

open WowProxy.Lib.CString

/-! ## Accepting -/

/-- The loop of `handle_accept` over the results of `accept`: the clients it
registers, and the results it did not get to.  It has no value where the next
`accept` has not returned. -/
def handleAccept : List (Except Errno Nat) → Option (List Nat × List (Except Errno Nat))
  | [] => none
  -- We have processed all incoming connections.
  | .error .eagain :: results => some ([], results)
  | .error _ :: results => some ([], results)
  | .ok clientFd :: results =>
    (handleAccept results).map fun (clients, results) => (clientFd :: clients, results)

/-! ## Having drained -/

/-- A result that says that a descriptor has nothing more. -/
def ReadResult.ends : ReadResult → Bool
  | .error .eagain => true
  | .ok [] => true
  | _ => false

theorem ReadResult.eq_of_ends {r : ReadResult} (h : r.ends = true) :
    r = .error .eagain ∨ r = .ok [] := by
  cases r with
  | error e => cases e <;> simp_all [ReadResult.ends]
  | ok bytes => cases bytes <;> simp_all [ReadResult.ends]

/-- Among the results of `script` in front of `rest`, one said so. -/
def Reported (script rest : List ReadResult) : Prop :=
  ∃ seen, script = seen ++ rest ∧ ∃ r ∈ seen, r.ends = true

/-- Among the results of `accept` in front of `rest` is `EAGAIN`. -/
def AcceptReported (script rest : List (Except Errno Nat)) : Prop :=
  ∃ seen, script = seen ++ rest ∧ .error .eagain ∈ seen

/-! ## Scripts that a job drains -/

/-- What `recv_peek` goes through on a signal. -/
def interrupted (k : Nat) : List ReadResult := List.replicate k (.error .eintr)

/-- Results of `read` that bring exactly `n` bytes. -/
inductive Fills : Nat → List ReadResult → List UInt8 → Prop
  | done : Fills 0 [] []
  | eintr {n : Nat} {reads : List ReadResult} {bytes : List UInt8} :
      Fills (n + 1) reads bytes → Fills (n + 1) (.error .eintr :: reads) bytes
  | chunk {n : Nat} {reads : List ReadResult} {b : UInt8} {chunk bytes : List UInt8} :
      chunk.length ≤ n → Fills (n - chunk.length) reads bytes →
      Fills (n + 1) (.ok (b :: chunk) :: reads) (b :: chunk ++ bytes)

/-- Results of `read` that end before `n` bytes have come. -/
inductive FallsShort : Nat → List ReadResult → Prop
  | stop {n : Nat} {r : ReadResult} {reads : List ReadResult} :
      r.ends = true → FallsShort (n + 1) (r :: reads)
  | eintr {n : Nat} {reads : List ReadResult} :
      FallsShort (n + 1) reads → FallsShort (n + 1) (.error .eintr :: reads)
  | chunk {n : Nat} {reads : List ReadResult} {b : UInt8} {chunk : List UInt8} :
      chunk.length ≤ n → FallsShort (n - chunk.length) reads →
      FallsShort (n + 1) (.ok (b :: chunk) :: reads)

/-- The value of the bytes that a peek returned. -/
def peekedValue (head : List UInt8) : Int :=
  convertHexToInt (padded head (headSize + 1)) headSize

/-- A peek that sees a positive header. -/
structure PeeksAt (script : List ReadResult) (head : List UInt8) (rest : List ReadResult) :
    Prop where
  script_eq : ∃ k < 10, script = interrupted k ++ .ok head :: rest
  length_le : head.length ≤ headSize
  positive : 0 < peekedValue head

/-- The next message ends early: the peek, or one of the reads after it, finds
nothing more. -/
inductive EndsEarly : List ReadResult → Prop
  | peek {k : Nat} {r : ReadResult} {rest : List ReadResult} :
      k < 10 → r.ends = true → EndsEarly (interrupted k ++ r :: rest)
  | read {script rest : List ReadResult} {head : List UInt8} :
      PeeksAt script head rest → FallsShort ((peekedValue head).toNat + headSize) rest →
      EndsEarly script

/-- The next message comes whole, as `bytes`. -/
def TakesMessage (script : List ReadResult) (bytes : List UInt8) (rest : List ReadResult) :
    Prop :=
  ∃ head reads, PeeksAt script head (reads ++ rest) ∧
    Fills ((peekedValue head).toNat + headSize) reads bytes

/-- The script lets a job read whole messages, all of them accepted, until one
ends early. -/
inductive Drains (d : Decoder) : List ReadResult → Prop
  | ends {script : List ReadResult} : EndsEarly script → Drains d script
  | message {script rest : List ReadResult} {bytes : List UInt8} {cmds : List ParsedCommand} :
      TakesMessage script bytes rest →
      analysisMessage d (some bytes) bytes.length = some cmds → cmds ≠ [] →
      Drains d rest → Drains d script

/-! ## Reported results -/

/-- Results none of which says that there is nothing more. -/
def Quiet (seen : List ReadResult) : Prop := ∀ r ∈ seen, r.ends = false

theorem Quiet.append {left right : List ReadResult} (hleft : Quiet left) (hright : Quiet right) :
    Quiet (left ++ right) := by
  intro r hr
  rcases List.mem_append.mp hr with hr | hr
  · exact hleft r hr
  · exact hright r hr

theorem quiet_nil : Quiet [] := fun _ h => absurd h (List.not_mem_nil)

theorem quiet_singleton {r : ReadResult} (h : r.ends = false) : Quiet [r] := by
  intro r' hr'
  rw [List.mem_singleton.mp hr', h]

theorem Quiet.cons {r : ReadResult} {seen : List ReadResult} (h : r.ends = false)
    (hseen : Quiet seen) : Quiet (r :: seen) :=
  (quiet_singleton h).append hseen

theorem quiet_interrupted (k : Nat) : Quiet (interrupted k) := by
  intro r hr
  rw [List.eq_of_mem_replicate hr]
  rfl

theorem Reported.prepend {script rest : List ReadResult} (h : Reported script rest)
    (seen : List ReadResult) :
    Reported (seen ++ script) rest := by
  obtain ⟨more, rfl, r, hr, hends⟩ := h
  exact ⟨seen ++ more, by rw [List.append_assoc], r, List.mem_append_right _ hr, hends⟩

/-- Results that said nothing in front of a script do not count. -/
theorem Reported.drop {seen script rest : List ReadResult}
    (hseen : Quiet seen) (hsuffix : ∃ more, script = more ++ rest)
    (h : Reported (seen ++ script) rest) : Reported script rest := by
  obtain ⟨more, rfl⟩ := hsuffix
  obtain ⟨all, hall, r, hr, hends⟩ := h
  rw [← List.append_assoc] at hall
  rw [← List.append_cancel_right hall, List.mem_append] at hr
  refine ⟨more, rfl, r, ?_, hends⟩
  rcases hr with hr | hr
  · exact absurd hends (by simp [hseen r hr])
  · exact hr

theorem not_reported {seen rest : List ReadResult} (hseen : Quiet seen) :
    ¬ Reported (seen ++ rest) rest := by
  rintro ⟨all, hall, r, hr, hends⟩
  rw [← List.append_cancel_right hall] at hr
  exact absurd hends (by simp [hseen r hr])

/-! ## Peeking -/

/-- A peek that is answered before its tries are used up. -/
theorem recvPeekLoop_answered (len : Nat) {r : ReadResult} (hr : r ≠ .error .eintr)
    (rest : List ReadResult) (k : Nat) :
    ∀ (idx : Nat) (ret : ReadResult), k < idx →
      recvPeekLoop scriptSock len idx ret (interrupted k ++ r :: rest) = some (r, rest) := by
  induction k with
  | zero =>
    intro idx ret hidx
    obtain ⟨idx, rfl⟩ : ∃ n, idx = n + 1 := ⟨idx - 1, by omega⟩
    cases r with
    | ok bytes => rfl
    | error e =>
      cases e with
      | eintr => exact absurd rfl hr
      | eagain | epipe | other => rfl
  | succ k ih =>
    intro idx ret hidx
    obtain ⟨idx, rfl⟩ : ∃ n, idx = n + 1 := ⟨idx - 1, by omega⟩
    have h := ih idx (.error .eintr) (by omega)
    simpa only [interrupted, List.replicate_succ, List.cons_append, recvPeekLoop, scriptSock]
      using h

/-- What a peek consumes. -/
theorem recvPeekLoop_cases (len : Nat) :
    ∀ (idx : Nat) (ret r : ReadResult) (script rest : List ReadResult),
      recvPeekLoop scriptSock len idx ret script = some (r, rest) →
      (∃ k < idx, script = interrupted k ++ r :: rest) ∨
      (script = interrupted idx ++ rest ∧ r = if idx = 0 then ret else .error .eintr) := by
  intro idx
  induction idx with
  | zero =>
    intro ret r script rest h
    right
    simpa [recvPeekLoop, interrupted, eq_comm, and_comm] using h
  | succ idx ih =>
    intro ret r script rest h
    cases script with
    | nil => exact absurd h (by simp [recvPeekLoop, scriptSock])
    | cons first script =>
      by_cases hfirst : first = .error .eintr
      · subst hfirst
        have h : recvPeekLoop scriptSock len idx (.error .eintr) script = some (r, rest) := h
        rcases ih _ r script rest h with ⟨k, hk, hscript⟩ | ⟨hscript, hr⟩
        · exact Or.inl ⟨k + 1, by omega, by rw [hscript]; rfl⟩
        · exact Or.inr ⟨by rw [hscript]; rfl, by simpa using hr⟩
      · left
        have h' : some (first, script) = some (r, rest) := by
          rw [← h]
          exact (recvPeekLoop_answered len hfirst script 0 (idx + 1) ret (by omega)).symm
        simp only [Option.some.injEq, Prod.mk.injEq] at h'
        exact ⟨0, by omega, by rw [h'.1, h'.2]; rfl⟩

/-! ## Reading -/

/-- Reads that fill the count end the loop of `readn` with their bytes. -/
theorem readnLoop_fills {n : Nat} {reads : List ReadResult} {bytes : List UInt8}
    (h : Fills n reads bytes) (rest : List ReadResult) :
    ∀ (turns : Nat) (got : List UInt8),
      readnLoop scriptSock turns n got (reads ++ rest) = none ∨
      readnLoop scriptSock turns n got (reads ++ rest) =
        some (((got ++ bytes).length : Int), got ++ bytes, rest) := by
  induction h with
  | done =>
    intro turns got
    right
    simp [readnLoop]
  | eintr _ ih =>
    intro turns got
    cases turns with
    | zero => exact Or.inl rfl
    | succ turns => exact ih turns got
  | @chunk n reads b chunk bytes hle _ ih =>
    intro turns got
    cases turns with
    | zero => exact Or.inl rfl
    | succ turns =>
      have hturn : readnLoop scriptSock (turns + 1) (n + 1) got
          (.ok (b :: chunk) :: reads ++ rest) =
          readnLoop scriptSock turns (n - chunk.length) (got ++ b :: chunk) (reads ++ rest) := by
        simp [readnLoop, scriptSock, hle]
      rw [hturn, ← List.append_assoc got (b :: chunk) bytes]
      exact ih turns (got ++ b :: chunk)

/-- Reads that fall short have reported it when `readn` returns. -/
theorem readnLoop_fallsShort {n : Nat} {script : List ReadResult} (h : FallsShort n script) :
    ∀ (turns : Nat) (got got' : List UInt8) (ret : Int) (rest : List ReadResult),
      readnLoop scriptSock turns n got script = some (ret, got', rest) →
      Reported script rest := by
  induction h with
  | @stop n r reads hends =>
    intro turns got got' ret rest hread
    have hrest : reads = rest := by
      cases turns with
      | zero => simp [readnLoop] at hread
      | succ turns =>
        rcases r.eq_of_ends hends with rfl | rfl
        · simp [readnLoop, scriptSock] at hread
          exact hread.2.2
        · simp [readnLoop, scriptSock] at hread
          exact hread.2.2
    exact ⟨[r], by rw [hrest]; rfl, r, by simp, hends⟩
  | eintr _ ih =>
    intro turns got got' ret rest hread
    cases turns with
    | zero => simp [readnLoop] at hread
    | succ turns =>
      exact (ih turns got got' ret rest hread).prepend [_]
  | @chunk n reads b chunk hle _ ih =>
    intro turns got got' ret rest hread
    cases turns with
    | zero => simp [readnLoop] at hread
    | succ turns =>
      have hread : readnLoop scriptSock turns (n - chunk.length) (got ++ b :: chunk) reads =
          some (ret, got', rest) := by
        simpa [readnLoop, scriptSock, hle] using hread
      exact (ih turns _ got' ret rest hread).prepend [_]

/-- How `readn` can end: the count is filled, the reads fall short, or one fails
with another error and nothing has been reported. -/
theorem readnLoop_cases :
    ∀ (turns n : Nat) (got got' : List UInt8) (ret : Int) (script rest : List ReadResult),
      readnLoop scriptSock turns n got script = some (ret, got', rest) →
      (∃ reads bytes, script = reads ++ rest ∧ Fills n reads bytes ∧
          Quiet reads ∧
          ret = (got ++ bytes).length ∧ got' = got ++ bytes) ∨
      FallsShort n script ∨
      (ret = -1 ∧ ∃ seen, script = seen ++ rest ∧ Quiet seen) := by
  intro turns
  induction turns with
  | zero =>
    intro n got got' ret script rest h
    cases n with
    | zero =>
      simp only [readnLoop, Option.some.injEq, Prod.mk.injEq] at h
      obtain ⟨rfl, rfl, rfl⟩ := h
      exact Or.inl ⟨[], [], rfl, .done, quiet_nil, by simp, by simp⟩
    | succ n => simp [readnLoop] at h
  | succ turns ih =>
    intro n got got' ret script rest h
    cases n with
    | zero =>
      simp only [readnLoop, Option.some.injEq, Prod.mk.injEq] at h
      obtain ⟨rfl, rfl, rfl⟩ := h
      exact Or.inl ⟨[], [], rfl, .done, quiet_nil, by simp, by simp⟩
    | succ n =>
      cases script with
      | nil => simp [readnLoop, scriptSock] at h
      | cons first script =>
        cases first with
        | error e =>
          cases e with
          | eagain => exact Or.inr (Or.inl (.stop rfl))
          | epipe | other =>
            simp only [readnLoop, scriptSock, Option.some.injEq, Prod.mk.injEq] at h
            obtain ⟨hret, -, rfl⟩ := h
            exact Or.inr (Or.inr ⟨hret.symm, [_], rfl, quiet_singleton rfl⟩)
          | eintr =>
            have h : readnLoop scriptSock turns (n + 1) got script = some (ret, got', rest) := h
            rcases ih _ _ _ _ _ _ h with ⟨reads, bytes, rfl, hfills, hquiet, hret⟩ | hshort |
              ⟨hret, seen, rfl, hquiet⟩
            · exact Or.inl
                ⟨.error .eintr :: reads, bytes, rfl, .eintr hfills, hquiet.cons rfl, hret⟩
            · exact Or.inr (Or.inl (.eintr hshort))
            · exact Or.inr (Or.inr ⟨hret, .error .eintr :: seen, rfl, hquiet.cons rfl⟩)
        | ok bytes =>
          cases bytes with
          | nil => exact Or.inr (Or.inl (.stop rfl))
          | cons b chunk =>
            by_cases hle : chunk.length ≤ n
            · have h : readnLoop scriptSock turns (n - chunk.length) (got ++ b :: chunk) script =
                  some (ret, got', rest) := by
                simpa [readnLoop, scriptSock, hle] using h
              rcases ih _ _ _ _ _ _ h with ⟨reads, bytes, rfl, hfills, hquiet, hret⟩ | hshort |
                ⟨hret, seen, rfl, hquiet⟩
              · refine Or.inl ⟨.ok (b :: chunk) :: reads, b :: chunk ++ bytes, rfl,
                  .chunk hle hfills, hquiet.cons rfl, ?_⟩
                simpa [List.append_assoc] using hret
              · exact Or.inr (Or.inl (.chunk hle hshort))
              · exact Or.inr (Or.inr ⟨hret, .ok (b :: chunk) :: seen, rfl, hquiet.cons rfl⟩)
            · simp [readnLoop, scriptSock, hle] at h

theorem Fills.length_eq {n : Nat} {reads : List ReadResult} {bytes : List UInt8}
    (h : Fills n reads bytes) : bytes.length = n := by
  induction h with
  | done => rfl
  | eintr _ ih => exact ih
  | chunk hle _ ih =>
    rw [List.length_append, List.length_cons, ih]
    omega

/-! ## One message -/

/-- Behind a positive header, `read_normal_sock` is `readn`. -/
theorem readNormalSock_peeksAt {script rest : List ReadResult} {head : List UInt8}
    (h : PeeksAt script head rest) (turns : Nat) :
    readNormalSock scriptSock turns script =
      let size := (peekedValue head).toNat + headSize
      (readn scriptSock turns size rest).map fun (nRead, got, s) =>
        (nRead, some (padded got size), s) := by
  obtain ⟨⟨k, hk, rfl⟩, hlength, hpos⟩ := h
  have hpeek : recvPeek scriptSock headSize (interrupted k ++ .ok head :: rest) =
      some (.ok head, rest) :=
    recvPeekLoop_answered headSize (by simp) rest k 10 _ hk
  cases head with
  | nil => exact absurd hpos (by decide)
  | cons b bytes =>
    have hshort : bytes.length < headSize := by rw [List.length_cons] at hlength; omega
    have hvalue : ¬ convertHexToInt (padded (b :: bytes) (headSize + 1)) headSize ≤ 0 := by
      rw [peekedValue] at hpos; omega
    simp only [readNormalSock, hpeek, hshort, if_true, hvalue, if_false]
    cases hread : readn scriptSock turns ((peekedValue (b :: bytes)).toNat + headSize) rest with
    | none =>
      rw [peekedValue] at hread
      rw [hread]
      rfl
    | some out =>
      rw [peekedValue] at hread ⊢
      rw [hread]
      rfl

/-- A message that comes whole is passed on whole. -/
theorem readNormalSock_takesMessage {script rest : List ReadResult} {bytes : List UInt8}
    (h : TakesMessage script bytes rest) (turns : Nat) :
    readNormalSock scriptSock turns script = none ∨
    readNormalSock scriptSock turns script = some ((bytes.length : Int), some bytes, rest) := by
  obtain ⟨head, reads, hpeek, hfills⟩ := h
  rw [readNormalSock_peeksAt hpeek]
  rcases readnLoop_fills hfills rest turns [] with hnone | hsome
  · left
    simp [readn, hnone]
  · right
    have hpadded : padded bytes ((peekedValue head).toNat + headSize) = bytes := by
      simp [padded, hfills.length_eq]
    simp [readn, hsome, hpadded]

/-- A message that ends early has reported it. -/
theorem readNormalSock_endsEarly {script rest : List ReadResult} (h : EndsEarly script)
    {turns : Nat} {nbytes : Int} {buf : Option (List UInt8)}
    (hread : readNormalSock scriptSock turns script = some (nbytes, buf, rest)) :
    Reported script rest := by
  cases h with
  | @peek k r later hk hends =>
    have hpeek : recvPeek scriptSock headSize (interrupted k ++ r :: later) = some (r, later) :=
      recvPeekLoop_answered headSize (by rintro rfl; simp [ReadResult.ends] at hends) later k 10 _
        hk
    have hlater : later = rest := by
      simp only [readNormalSock, hpeek] at hread
      rcases r.eq_of_ends hends with rfl | rfl
      · simp at hread
        exact hread.2.2
      · simp at hread
        exact hread.2.2
    subst hlater
    exact ⟨interrupted k ++ [r], by simp, r, by simp, hends⟩
  | @read _ later head hpeek hshort =>
    rw [readNormalSock_peeksAt hpeek] at hread
    obtain ⟨⟨nRead, got, s⟩, hreadn, hout⟩ := Option.map_eq_some_iff.mp hread
    have hs : s = rest := by simp at hout; exact hout.2.2
    subst hs
    obtain ⟨k, -, rfl⟩ := hpeek.script_eq
    have hrep := readnLoop_fallsShort hshort turns [] got nRead s hreadn
    have hall := hrep.prepend (interrupted k ++ [.ok head])
    rwa [List.append_assoc] at hall

/-- How `read_normal_sock` can end: the message ends early, or comes whole, or
the call fails and nothing has been reported. -/
theorem readNormalSock_cases {turns : Nat} {script rest : List ReadResult} {nbytes : Int}
    {buf : Option (List UInt8)}
    (h : readNormalSock scriptSock turns script = some (nbytes, buf, rest)) :
    EndsEarly script ∨
    ∃ seen, script = seen ++ rest ∧ Quiet seen ∧
      (nbytes < 0 ∨
        ∃ bytes, TakesMessage script bytes rest ∧ nbytes = bytes.length ∧ buf = some bytes) := by
  cases hpeek : recvPeek scriptSock headSize script with
  | none => simp [readNormalSock, hpeek] at h
  | some out =>
    obtain ⟨r, later⟩ := out
    rcases recvPeekLoop_cases headSize 10 _ r script later hpeek with
      ⟨k, hk, hscript⟩ | ⟨hscript, hr⟩
    · cases r with
      | error e =>
        cases e with
        | eagain => exact Or.inl (hscript ▸ .peek hk rfl)
        | eintr | epipe | other =>
          simp only [readNormalSock, hpeek, Option.some.injEq, Prod.mk.injEq] at h
          obtain ⟨rfl, -, rfl⟩ := h
          exact Or.inr ⟨interrupted k ++ [_], by rw [hscript, List.append_assoc]; rfl,
            (quiet_interrupted k).append (quiet_singleton rfl), Or.inl (by decide)⟩
      | ok head =>
        cases head with
        | nil => exact Or.inl (hscript ▸ .peek hk rfl)
        | cons b bytes =>
          have hquiet : Quiet (interrupted k ++ [.ok (b :: bytes)]) :=
            (quiet_interrupted k).append (quiet_singleton rfl)
          by_cases hshort : bytes.length < headSize
          · by_cases hpos : 0 < peekedValue (b :: bytes)
            · have hat : PeeksAt script (b :: bytes) later :=
                ⟨⟨k, hk, hscript⟩, by rw [List.length_cons]; omega, hpos⟩
              rw [readNormalSock_peeksAt hat] at h
              obtain ⟨⟨nRead, got, s⟩, hreadn, hout⟩ := Option.map_eq_some_iff.mp h
              simp only [Prod.mk.injEq] at hout
              obtain ⟨rfl, rfl, rfl⟩ := hout
              rcases readnLoop_cases _ _ _ _ _ _ _ hreadn with
                ⟨reads, taken, rfl, hfills, hreads, rfl, rfl⟩ | hfalls | ⟨rfl, seen, rfl, hseen⟩
              · refine Or.inr ⟨interrupted k ++ [.ok (b :: bytes)] ++ reads, by simp [hscript],
                  hquiet.append hreads, Or.inr ⟨_, ⟨b :: bytes, reads, hat, hfills⟩, by simp, ?_⟩⟩
                simp [padded, hfills.length_eq]
              · exact Or.inl (.read hat hfalls)
              · exact Or.inr ⟨interrupted k ++ [.ok (b :: bytes)] ++ seen, by simp [hscript],
                  hquiet.append hseen, Or.inl (by decide)⟩
            · have hvalue : convertHexToInt (padded (b :: bytes) (headSize + 1)) headSize ≤ 0 := by
                rw [peekedValue] at hpos; omega
              simp only [readNormalSock, hpeek, hshort, if_true, hvalue, Option.some.injEq,
                Prod.mk.injEq] at h
              obtain ⟨rfl, -, rfl⟩ := h
              exact Or.inr ⟨_, by simp [hscript], hquiet, Or.inl (by decide)⟩
          · simp [readNormalSock, hpeek, hshort] at h
    · -- All ten tries were interrupted.
      have hr : r = .error .eintr := hr
      subst hr
      simp only [readNormalSock, hpeek, Option.some.injEq, Prod.mk.injEq] at h
      obtain ⟨rfl, -, rfl⟩ := h
      exact Or.inr ⟨interrupted 10, hscript, quiet_interrupted 10, Or.inl (by decide)⟩

/-- A call leaves a tail of its script. -/
theorem readNormalSock_suffix {turns : Nat} {script rest : List ReadResult} {nbytes : Int}
    {buf : Option (List UInt8)}
    (h : readNormalSock scriptSock turns script = some (nbytes, buf, rest)) :
    ∃ seen, script = seen ++ rest := by
  rcases readNormalSock_cases h with hends | ⟨seen, hscript, -⟩
  · obtain ⟨seen, hscript, -⟩ := readNormalSock_endsEarly hends h
    exact ⟨seen, hscript⟩
  · exact ⟨seen, hscript⟩

/-! ## The job -/

theorem readSockLoop_suffix (d : Decoder) (turns : Nat) :
    ∀ (fuel : Nat) (job out : ReadJob (List ReadResult)),
      readSockLoop scriptSock d turns fuel job = some out →
      ∃ seen, job.sock = seen ++ out.sock := by
  intro fuel
  induction fuel with
  | zero => intro job out h; simp [readSockLoop] at h
  | succ fuel ih =>
    intro job out h
    obtain ⟨m, s, hread, hcase⟩ := readSockLoop_cases scriptSock h
    obtain ⟨seen, hscript⟩ := readNormalSock_suffix hread
    rcases hcase with ⟨-, rfl⟩ | ⟨cmds, -, -, ⟨-, rfl⟩ | ⟨-, hmore⟩⟩
    · exact ⟨seen, hscript⟩
    · exact ⟨seen, hscript⟩
    · obtain ⟨later, hlater⟩ := ih _ out hmore
      have hlater : s = later ++ out.sock := hlater
      exact ⟨seen ++ later, by rw [hscript, hlater, List.append_assoc]⟩

/-- A job that has reported the end was given a script it drains. -/
theorem drains_of_reported (d : Decoder) (turns : Nat) :
    ∀ (fuel : Nat) (job out : ReadJob (List ReadResult)),
      readSockLoop scriptSock d turns fuel job = some out →
      Reported job.sock out.sock → Drains d job.sock := by
  intro fuel
  induction fuel with
  | zero => intro job out h; simp [readSockLoop] at h
  | succ fuel ih =>
    intro job out h hreported
    obtain ⟨m, s, hread, hcase⟩ := readSockLoop_cases scriptSock h
    rcases readNormalSock_cases hread with hends | ⟨seen, hscript, hquiet, hmessage⟩
    · exact .ends hends
    rw [hscript] at hreported
    rcases hcase with ⟨-, rfl⟩ | ⟨cmds, hnonneg, hanalysis, ⟨-, rfl⟩ | ⟨hcmds, hmore⟩⟩
    · exact absurd hreported (not_reported hquiet)
    · exact absurd hreported (not_reported hquiet)
    · -- The message was whole and accepted, so the end was reported later.
      obtain ⟨bytes, htakes, hnbytes, hbuf⟩ := hmessage.resolve_left hnonneg
      rw [hbuf, hnbytes, Int.toNat_natCast] at hanalysis
      have hlater : Reported s out.sock :=
        hreported.drop hquiet (readSockLoop_suffix d turns fuel _ out hmore)
      exact .message htakes hanalysis hcmds (ih _ out hmore hlater)

/-- A job that is given a script it drains has reported the end when it
returns. -/
theorem reported_of_drains (d : Decoder) (turns : Nat) {script : List ReadResult}
    (hdrains : Drains d script) :
    ∀ (fuel : Nat) (job out : ReadJob (List ReadResult)), job.sock = script →
      readSockLoop scriptSock d turns fuel job = some out → Reported script out.sock := by
  induction hdrains with
  | @ends script hends =>
    intro fuel job out hsock h
    cases fuel with
    | zero => simp [readSockLoop] at h
    | succ fuel =>
      obtain ⟨m, s, hread, hcase⟩ := readSockLoop_cases scriptSock h
      rw [hsock] at hread
      have hreported : Reported script s := readNormalSock_endsEarly hends hread
      rcases hcase with ⟨-, rfl⟩ | ⟨cmds, -, -, ⟨-, rfl⟩ | ⟨-, hmore⟩⟩
      · exact hreported
      · exact hreported
      · obtain ⟨later, hlater⟩ := readSockLoop_suffix d turns fuel _ out hmore
        have hlater : s = later ++ out.sock := hlater
        obtain ⟨seen, hscript, r, hr, hrends⟩ := hreported
        exact ⟨seen ++ later, by rw [hscript, hlater, List.append_assoc], r,
          List.mem_append_left _ hr, hrends⟩
  | @message script rest bytes cmds htakes hanalysis hcmds _ ih =>
    intro fuel job out hsock h
    cases fuel with
    | zero => simp [readSockLoop] at h
    | succ fuel =>
      have hturn := readNormalSock_takesMessage htakes turns
      rw [readSockLoop, hsock] at h
      rcases hturn with hnone | hsome
      · rw [hnone] at h
        exact absurd h (by simp)
      · have hnonneg : ¬ ((bytes.length : Int) < 0) := by omega
        simp only [hsome, hnonneg, if_false, Int.toNat_natCast, hanalysis, hcmds] at h
        obtain ⟨seen, hscript⟩ := readNormalSock_suffix hsome
        rw [hscript]
        exact (ih fuel _ out rfl h).prepend seen

/-! ## Both handlers -/

/-- The first `accept` that fails ends the loop of `handle_accept`. -/
theorem handleAccept_eq_some_iff {results rest : List (Except Errno Nat)} {clients : List Nat} :
    handleAccept results = some (clients, rest) ↔
      ∃ e, results = clients.map .ok ++ .error e :: rest := by
  induction results generalizing clients with
  | nil => simp [handleAccept]
  | cons first results ih =>
    cases first with
    | error e =>
      have hfirst : handleAccept (.error e :: results) = some ([], results) := by
        cases e <;> rfl
      rw [hfirst]
      cases clients <;> simp
    | ok clientFd =>
      cases clients with
      | nil => simp [handleAccept]
      | cons client clients =>
        simp only [handleAccept, Option.map_eq_some_iff, Prod.exists, Prod.mk.injEq,
          List.cons.injEq, List.map_cons, List.cons_append, Except.ok.injEq]
        constructor
        · rintro ⟨clients', rest', hloop, ⟨rfl, rfl⟩, rfl⟩
          obtain ⟨e, he⟩ := ih.mp hloop
          exact ⟨e, rfl, he⟩
        · rintro ⟨e, rfl, he⟩
          exact ⟨clients, rest, ih.mpr ⟨e, he⟩, ⟨rfl, rfl⟩, rfl⟩

/-- The first `accept` that fails does so with `EAGAIN`. -/
def AcceptsAll (results : List (Except Errno Nat)) : Prop :=
  ∃ clients later, results = List.map .ok clients ++ .error .eagain :: later

theorem acceptReported_iff {results rest : List (Except Errno Nat)} {clients : List Nat}
    (h : handleAccept results = some (clients, rest)) :
    AcceptReported results rest ↔ AcceptsAll results := by
  constructor
  · rintro ⟨seen, hseen, hmem⟩
    obtain ⟨e, he⟩ := handleAccept_eq_some_iff.mp h
    have hsplit : seen ++ rest = (clients.map .ok ++ [.error e]) ++ rest := by
      rw [← hseen, he, List.append_assoc]
      rfl
    rw [List.append_cancel_right hsplit] at hmem
    have heagain : e = .eagain := by simpa [eq_comm] using hmem
    exact ⟨clients, rest, by rw [he, heagain]⟩
  · rintro ⟨clients', later, hresults⟩
    have hloop := handleAccept_eq_some_iff.mpr ⟨.eagain, hresults⟩
    rw [h] at hloop
    simp only [Option.some.injEq, Prod.mk.injEq] at hloop
    obtain ⟨rfl, rfl⟩ := hloop
    exact ⟨clients.map .ok ++ [.error .eagain], by simp [hresults], by simp⟩

/-- **A handler has drained its descriptor when it returns if and only if** its
script lets it: for a read job, whole and accepted messages up to one that ends
early; for `handle_accept`, clients up to `EAGAIN`. -/
theorem handlers_drain_iff {d : Decoder} {turns fuel : Nat} {script : List ReadResult}
    {job : ReadJob (List ReadResult)} {results rest : List (Except Errno Nat)}
    {clients : List Nat} (hread : readSockFunc scriptSock d turns fuel script = some job)
    (haccept : handleAccept results = some (clients, rest)) :
    (Reported script job.sock ↔ Drains d script) ∧
      (AcceptReported results rest ↔ AcceptsAll results) := by
  refine ⟨⟨?_, ?_⟩, acceptReported_iff haccept⟩
  · intro hreported
    exact drains_of_reported d turns fuel _ job hread hreported
  · intro hdrains
    exact reported_of_drains d turns hdrains fuel _ job rfl hread

/-- A decoder that finds the same command in every message. -/
def sameCommand : Decoder where
  cJsonParse _ := some (.item none none
    [.item none (some (ascii "values"))
      [.item none none [.item (some (ascii "1")) (some (ascii "c")) [],
        .item (some (ascii "x")) (some (ascii "p")) []]],
     .item none (some (ascii "keys"))
      [.item none none [.item (some (ascii "c")) none [], .item (some (ascii "p")) none []]]])
  valueForKey _ := some ⟨ascii "%s", 1, false, false, true⟩

/-- Two messages that arrive as a whole, and no more. -/
def wholeMessages : List ReadResult :=
  [.ok [0, 2], .ok payloadA.frame, .ok [0, 2], .ok payloadA.frame, .error .eagain]

theorem handlers_drain_wholeMessages :
    (Reported wholeMessages [] ↔ Drains sameCommand wholeMessages) ∧
      (AcceptReported [.ok 8, .ok 9, .error .eagain] [] ↔
        AcceptsAll [.ok 8, .ok 9, .error .eagain]) := by
  have hjob : (readSockFunc scriptSock sameCommand 1 3 wholeMessages).map
      (fun job => (job.executed.map ParsedCommand.cmd, job.sock)) =
        some ([ascii "x", ascii "x"], []) := by decide +kernel
  obtain ⟨job, hread, hout⟩ := Option.map_eq_some_iff.mp hjob
  have hsock : job.sock = [] := (Prod.mk.inj hout).2
  have haccept : handleAccept [.ok 8, .ok 9, .error .eagain] = some ([8, 9], []) := rfl
  rw [← hsock]
  exact handlers_drain_iff hread haccept

/-- A job that rejects a message leaves the frame behind it unread. -/
theorem read_job_leaves_frame :
    ¬ ∀ (d : Decoder) (turns fuel : Nat) (script : List ReadResult)
        (job : ReadJob (List ReadResult)) (results rest : List (Except Errno Nat))
        (clients : List Nat),
      readSockFunc scriptSock d turns fuel script = some job →
      handleAccept results = some (clients, rest) →
      Reported script job.sock ∧ AcceptReported results rest := by
  intro h
  have hjob : readSockFunc scriptSock ⟨fun _ => none, fun _ => none⟩ 1 1
      [.ok [0, 2], .ok [0, 2, 65, 0], .ok [0, 2]] =
      some ⟨[⟨some [0, 2, 65, 0], 4⟩], [], [.ok [0, 2]]⟩ := by
    decide +kernel
  obtain ⟨hreported, -⟩ := h _ _ _ _ _ [.error .eagain] [] [] hjob rfl
  exact not_reported ((quiet_singleton rfl).cons rfl) hreported

end WowProxy
