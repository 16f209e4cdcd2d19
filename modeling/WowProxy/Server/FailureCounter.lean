/-
  Server/FailureCounter.lean --- when `loop_once` gives up waiting.

  `pre_error` and `error_num` outlive the calls of `loop_once`.  Only a failure other
  than `EINTR` changes them, so they count equal errors in the list of all failures and
  not in the list of calls; and the first of them counts as none.  The debug output between
  `epoll_wait` and the tests is taken to leave `errno` alone.
-/
import Mathlib.Data.PNat.Defs
import WowProxy.Lib.Runs
import WowProxy.Lib.Streak

set_option autoImplicit false

namespace WowProxy

open WowProxy.Lib.Runs WowProxy.Lib.Streak

/-! ## The counter -/

/-- `ERRNUMTOEXIT` -/
def errNumToExit : Nat := 5

/-- The value of `errno` behind a call that failed; it is never zero. -/
abbrev WaitErrno : Type := ℕ+

/-- `EINTR` -/
def eintrErrno : WaitErrno := 4

/-- What `epoll_wait` does. -/
inductive WaitOutcome where
  | ready
  | fails (errno : WaitErrno)
  deriving DecidableEq

/-- The static variables of `loop_once`, and `g_stop`. -/
structure FailureCounter where
  preError : Nat
  errorNum : Nat
  gStop : Bool
  deriving DecidableEq

namespace FailureCounter

def init : FailureCounter := { preError := 0, errorNum := 0, gStop := false }

/-- `error_num` behind another failure. -/
def bumped (s : FailureCounter) (errno : WaitErrno) : Nat :=
  if s.preError = errno then s.errorNum + 1 else 0

/-- What a call of `loop_once` does to them. -/
def loopOnce (s : FailureCounter) : WaitOutcome → FailureCounter
  | .ready => s
  | .fails errno =>
    if errno = eintrErrno then s
    else if s.bumped errno = errNumToExit then
      { s with errorNum := s.bumped errno, gStop := true }
    else { s with errorNum := s.bumped errno, preError := errno }

/-- A turn of the loop in `main`: while `g_stop` is false. -/
def turn (s : FailureCounter) (outcome : WaitOutcome) : Option FailureCounter :=
  if s.gStop then none else some (s.loopOnce outcome)

end FailureCounter

/-! ## What it counts -/

/-- The error of the call, if it is one that counts. -/
def WaitOutcome.failure? : WaitOutcome → Option WaitErrno
  | .ready => none
  | .fails errno => if errno = eintrErrno then none else some errno

/-- The errors of the calls, in their order. -/
def failures (outcomes : List WaitOutcome) : List WaitErrno := outcomes.filterMap (·.failure?)

theorem failures_append (outcomes outcomes' : List WaitOutcome) :
    failures (outcomes ++ outcomes') = failures outcomes ++ failures outcomes' :=
  List.filterMap_append

theorem failures_replicate {errno : WaitErrno} (h : errno ≠ eintrErrno) (n : Nat) :
    failures (List.replicate n (.fails errno)) = List.replicate n errno := by
  rw [failures, List.filterMap_replicate_of_some]
  exact if_neg h

theorem ne_eintr_of_mem_failures {errno : WaitErrno} {outcomes : List WaitOutcome}
    (h : errno ∈ failures outcomes) : errno ≠ eintrErrno := by
  obtain ⟨outcome, -, houtcome⟩ := List.mem_filterMap.mp h
  cases outcome with
  | ready => cases houtcome
  | fails e =>
    rw [WaitOutcome.failure?] at houtcome
    split at houtcome
    · cases houtcome
    · rename_i he
      exact Option.some.inj houtcome ▸ he

namespace FailureCounter

/-- The variables and the errors so far: `error_num` is one less than the number of
equal errors at the end. -/
structure Counts (errnos : List WaitErrno) (s : FailureCounter) : Prop where
  bounded : s.errorNum ≤ errNumToExit
  gStop_iff : s.gStop = true ↔ s.errorNum = errNumToExit
  counted : errnos = [] ∧ s = init ∨
    ∃ errno : WaitErrno, errnos.getLast? = some errno ∧ s.preError = errno ∧
      streak errno errnos = s.errorNum + 1

theorem counts_init : Counts [] init where
  bounded := by decide
  gStop_iff := by decide
  counted := Or.inl ⟨rfl, rfl⟩

/-- One more failure. -/
theorem Counts.fails {errnos : List WaitErrno} {s : FailureCounter} (hs : Counts errnos s)
    (hrunning : s.gStop = false) {errno : WaitErrno} (herrno : errno ≠ eintrErrno) :
    Counts (errnos ++ [errno]) (s.loopOnce (.fails errno)) := by
  have hlt : s.errorNum < errNumToExit := by
    refine lt_of_le_of_ne hs.bounded fun heq => ?_
    rw [hs.gStop_iff.mpr heq] at hrunning
    cases hrunning
  have hstreak : streak errno (errnos ++ [errno]) = s.bumped errno + 1 := by
    rw [streak_concat_self, bumped]
    rcases hs.counted with ⟨rfl, rfl⟩ | ⟨last, hlast, hpre, hcount⟩
    · rw [if_neg fun hzero : init.preError = errno => errno.ne_zero hzero.symm]
      rfl
    · rw [hpre]
      split
      · rename_i heq
        rw [← PNat.eq heq, hcount]
      · rename_i hne
        rw [streak_of_getLast?_ne]
        rw [hlast]
        exact fun heq => hne (congrArg _ (Option.some.inj heq))
  have hbounded : s.bumped errno ≤ errNumToExit := by
    unfold bumped
    split
    · exact hlt
    · exact Nat.zero_le _
  have hlast : (errnos ++ [errno]).getLast? = some errno := List.getLast?_concat
  rw [loopOnce, if_neg herrno]
  by_cases hexit : s.bumped errno = errNumToExit
  · -- only an equal error brings the counter here
    have hpre : s.preError = errno := by
      by_contra hne
      rw [bumped, if_neg hne] at hexit
      cases hexit
    rw [if_pos hexit]
    exact ⟨hbounded, iff_of_true rfl hexit, Or.inr ⟨errno, hlast, hpre, hstreak⟩⟩
  · rw [if_neg hexit]
    have hnot : ¬ s.gStop = true := by rw [hrunning]; exact Bool.false_ne_true
    exact ⟨hbounded, iff_of_false hnot hexit, Or.inr ⟨errno, hlast, rfl, hstreak⟩⟩

theorem Counts.turn {outcomes : List WaitOutcome} {s s' : FailureCounter}
    (hs : Counts (failures outcomes) s) {outcome : WaitOutcome}
    (hturn : s.turn outcome = some s') : Counts (failures (outcomes ++ [outcome])) s' := by
  unfold FailureCounter.turn at hturn
  split at hturn
  · cases hturn
  · rename_i hrunning
    obtain rfl := Option.some.inj hturn
    rw [failures_append]
    cases outcome with
    | ready => exact (List.append_nil (failures outcomes)).symm ▸ hs
    | fails errno =>
      by_cases herrno : errno = eintrErrno
      · rw [loopOnce, if_pos herrno]
        rw [show failures [.fails errno] = [] by simp [failures, WaitOutcome.failure?, herrno],
          List.append_nil]
        exact hs
      · rw [show failures [.fails errno] = [errno] from failures_replicate herrno 1]
        exact hs.fails (Bool.eq_false_iff.mpr hrunning) herrno

/-- **The variables behind any number of calls.** -/
theorem counts_of_run {outcomes : List WaitOutcome} {s : FailureCounter}
    (hrun : run FailureCounter.turn init outcomes = some s) : Counts (failures outcomes) s :=
  run_history (fun outcomes s => Counts (failures outcomes) s) counts_init
    (fun _ _ _ _ hs hturn => hs.turn hturn) hrun

/-- The loop has ended exactly when the last errors, one more than `ERRNUMTOEXIT` of
them, are equal. -/
theorem gStop_iff_failures {outcomes : List WaitOutcome} {s : FailureCounter}
    (hrun : run FailureCounter.turn init outcomes = some s) :
    s.gStop = true ↔
      ∃ errno, List.replicate (1 + errNumToExit) errno <:+ failures outcomes := by
  have hcounts := counts_of_run hrun
  rw [hcounts.gStop_iff]
  constructor
  · intro hexit
    rcases hcounts.counted with ⟨-, rfl⟩ | ⟨errno, -, -, hstreak⟩
    · cases hexit
    · refine ⟨errno, le_streak_iff.mp ?_⟩
      rw [hstreak, hexit, Nat.add_comm]
  · rintro ⟨errno, hsuffix⟩
    have hlast := getLast?_of_replicate_suffix (by decide) hsuffix
    rcases hcounts.counted with ⟨hnil, -⟩ | ⟨last, hlast', -, hstreak⟩
    · rw [hnil] at hlast
      cases hlast
    · obtain rfl := Option.some.inj (hlast'.symm.trans hlast)
      have hle := le_streak_iff.mpr hsuffix
      have hbounded := hcounts.bounded
      omega

/-! ## Equal errors in a row -/

/-- The last `ERRNUMTOEXIT` calls have failed with one error other than `EINTR`. -/
def FailedInARow (outcomes : List WaitOutcome) : Prop :=
  ∃ errno, errno ≠ eintrErrno ∧ List.replicate errNumToExit (.fails errno) <:+ outcomes

/-- Calls that fail in a row are the last failures. -/
theorem failures_getLast?_of_row {errno errno' : WaitErrno} {outcomes : List WaitOutcome}
    (herrno : errno ≠ eintrErrno)
    (hrow : List.replicate errNumToExit (.fails errno) <:+ outcomes)
    (hlast : (failures outcomes).getLast? = some errno') : errno = errno' := by
  obtain ⟨before, rfl⟩ := hrow
  rw [failures_append, failures_replicate herrno] at hlast
  have hlast' := getLast?_of_replicate_suffix (by decide : 0 < errNumToExit)
    (List.suffix_append (failures before) (List.replicate errNumToExit errno))
  exact Option.some.inj (hlast'.symm.trans hlast)

/-- The calls in a row and the counted errors agree. -/
structure Aligned (outcomes : List WaitOutcome) : Prop where
  /-- Where `ERRNUMTOEXIT` calls in a row fail with one error, the last failure before
  them has it too. -/
  preceded : ∀ before errno, errno ≠ eintrErrno →
    before ++ List.replicate errNumToExit (.fails errno) <+: outcomes →
      (failures before).getLast? = some errno
  /-- Where one failure more has one error and none comes between with another, the last
  of them are calls in a row. -/
  inARow : ∀ before errno, before <+: outcomes →
    List.replicate (1 + errNumToExit) errno <:+ failures before →
      List.replicate errNumToExit (.fails errno) <:+ before

/-- The counted errors end with one more equal error than `ERRNUMTOEXIT` wherever as many
calls in a row fail with it, and only there. -/
theorem aligned_iff {outcomes : List WaitOutcome} :
    Aligned outcomes ↔ ∀ before, before <+: outcomes →
      ((∃ errno, List.replicate (1 + errNumToExit) errno <:+ failures before) ↔
        FailedInARow before) := by
  constructor
  · intro haligned before hbefore
    constructor
    · rintro ⟨errno, hsuffix⟩
      have hmem : errno ∈ failures before :=
        List.mem_of_getLast? (getLast?_of_replicate_suffix (by decide) hsuffix)
      exact ⟨errno, ne_eintr_of_mem_failures hmem,
        haligned.inARow before errno hbefore hsuffix⟩
    · rintro ⟨errno, herrno, front, rfl⟩
      refine ⟨errno, ?_⟩
      rw [failures_append, failures_replicate herrno]
      refine replicate_suffix_append_replicate.mpr ?_
      exact List.singleton_suffix_iff_getLast?_eq_some.mpr
        (haligned.preceded front errno herrno hbefore)
  · intro hall
    constructor
    · intro before errno herrno hbefore
      have hrow := List.suffix_append before (List.replicate errNumToExit (.fails errno))
      obtain ⟨errno', hsuffix⟩ := (hall _ hbefore).mpr ⟨errno, herrno, hrow⟩
      have hlast := getLast?_of_replicate_suffix (by decide) hsuffix
      obtain rfl := failures_getLast?_of_row herrno hrow hlast
      rw [failures_append, failures_replicate herrno] at hsuffix
      exact List.singleton_suffix_iff_getLast?_eq_some.mp
        (replicate_suffix_append_replicate.mp hsuffix)
    · intro before errno hbefore hsuffix
      obtain ⟨errno', herrno', hrow⟩ := (hall before hbefore).mp ⟨errno, hsuffix⟩
      have hlast := getLast?_of_replicate_suffix (by decide) hsuffix
      obtain rfl := failures_getLast?_of_row herrno' hrow hlast
      exact hrow

/-- **The loop ends behind `ERRNUMTOEXIT` equal errors in a row, and only there, exactly
when the calls in a row and the counted errors agree.** -/
theorem gStop_iff_failedInARow_iff (outcomes : List WaitOutcome) (s : FailureCounter)
    (hrun : run FailureCounter.turn init outcomes = some s) :
    (∀ k t, run FailureCounter.turn init (outcomes.take k) = some t →
      (t.gStop = true ↔ FailedInARow (outcomes.take k))) ↔ Aligned outcomes := by
  rw [aligned_iff]
  constructor
  · rintro hall before ⟨after, rfl⟩
    obtain ⟨t, ht, -⟩ := run_append_eq_some hrun
    have hstop := hall before.length t
    rw [List.take_left] at hstop
    exact (gStop_iff_failures ht).symm.trans (hstop ht)
  · intro hall k t ht
    exact (gStop_iff_failures ht).trans (hall _ (List.take_prefix k outcomes))

/-- A failure with `EBADF`, a call that succeeds, and five failures with `EBADF`. -/
def separatedOutcomes : List WaitOutcome :=
  .fails 9 :: .ready :: List.replicate errNumToExit (.fails 9)

theorem gStop_iff_failedInARow_separated :
    (∀ k t, run FailureCounter.turn init (separatedOutcomes.take k) = some t →
      (t.gStop = true ↔ FailedInARow (separatedOutcomes.take k))) ↔ Aligned separatedOutcomes :=
  gStop_iff_failedInARow_iff separatedOutcomes ⟨9, 5, true⟩ (by decide)

/-- Five equal errors in a row do not end the loop when they are the first. -/
theorem fifthFailure_not_stopped : ¬ ∀ (outcomes : List WaitOutcome) (s : FailureCounter),
    run FailureCounter.turn init outcomes = some s →
      (s.gStop = true ↔ FailedInARow outcomes) := by
  intro h
  have hstop := h (List.replicate errNumToExit (.fails 9)) ⟨9, 4, false⟩ (by decide)
  exact Bool.false_ne_true (hstop.mpr ⟨9, by decide, List.suffix_rfl⟩)

end FailureCounter

end WowProxy
