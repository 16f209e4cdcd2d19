/-
  Lib/Utf8.lean --- byte strings that are UTF-8 of characters XML allows.

  A machine reads one byte after the other; between two characters it is at `start`.
  XML allows tabulator, line feed, carriage return and everything from the space on,
  except the surrogates and the last two code points of the basic plane.  A byte string
  may be put together from parts wherever the first of them is complete.
-/
import Mathlib.Tactic.SplitIfs

set_option autoImplicit false

namespace WowProxy.Lib.Utf8

/-- Where the machine stands behind a byte. -/
inductive State where
  /-- between characters -/
  | start
  /-- the next byte lies between `lo` and `hi`, and `more` bytes follow it -/
  | tail (lo hi : UInt8) (more : Nat)
  /-- behind `0xEF`, whose last two characters are excluded -/
  | last
  deriving DecidableEq, Repr

/-- A character of one byte. -/
def isAscii (b : UInt8) : Bool := b == 9 || b == 10 || b == 13 || (32 ≤ b && b < 0x80)

/-- One byte. -/
def step : State → UInt8 → Option State
  | .start, b =>
    if isAscii b then some .start
    else if 0xC2 ≤ b ∧ b ≤ 0xDF then some (.tail 0x80 0xBF 0)
    else if b = 0xE0 then some (.tail 0xA0 0xBF 1)
    else if b = 0xED then some (.tail 0x80 0x9F 1)
    else if b = 0xEF then some .last
    else if 0xE1 ≤ b ∧ b ≤ 0xEE then some (.tail 0x80 0xBF 1)
    else if b = 0xF0 then some (.tail 0x90 0xBF 2)
    else if 0xF1 ≤ b ∧ b ≤ 0xF3 then some (.tail 0x80 0xBF 2)
    else if b = 0xF4 then some (.tail 0x80 0x8F 2)
    else none
  | .tail lo hi 0, b => if lo ≤ b ∧ b ≤ hi then some .start else none
  | .tail lo hi (more + 1), b => if lo ≤ b ∧ b ≤ hi then some (.tail 0x80 0xBF more) else none
  | .last, b =>
    if b = 0xBF then some (.tail 0x80 0xBD 0)
    else if 0x80 ≤ b ∧ b ≤ 0xBF then some (.tail 0x80 0xBF 0)
    else none

/-- The state behind a byte string. -/
def run (st : State) (s : List UInt8) : Option State := s.foldlM step st

/-- The byte string is UTF-8 of characters that XML allows. -/
def valid (s : List UInt8) : Bool := run .start s == some .start

theorem run_append (st : State) (s t : List UInt8) : run st (s ++ t) = (run st s).bind (run · t) :=
  List.foldlM_append

theorem run_ascii {s : List UInt8} (h : s.all isAscii = true) : run .start s = some .start := by
  induction s with
  | nil => rfl
  | cons b s ih =>
    rw [List.all_cons, Bool.and_eq_true] at h
    have hstep : step .start b = some .start := if_pos h.1
    show (step .start b).bind (run · s) = _
    rw [hstep, Option.bind_some, ih h.2]

/-- Behind characters of one byte everything is as at the beginning. -/
theorem valid_append_left {s : List UInt8} (h : s.all isAscii = true) (t : List UInt8) :
    valid (s ++ t) = valid t := by
  unfold valid
  rw [run_append, run_ascii h, Option.bind_some]

/-- Inside a character only bytes from `0x80` on are read. -/
def Inside : State → Prop
  | .start => True
  | .tail lo _ _ => 0x80 ≤ lo
  | .last => True

theorem step_inside {st st' : State} {b : UInt8} (hst : Inside st) (h : step st b = some st') :
    Inside st' := by
  have hconst : (0x80 : UInt8) ≤ 0xA0 ∧ (0x80 : UInt8) ≤ 0x90 ∧ (0x80 : UInt8) ≤ 0x80 := by decide
  unfold step at h
  split at h
  · split_ifs at h <;> obtain rfl := Option.some.inj h <;> simp [Inside, hconst]
  · split_ifs at h
    obtain rfl := Option.some.inj h
    trivial
  · split_ifs at h
    obtain rfl := Option.some.inj h
    exact hconst.2.2
  · split_ifs at h <;> obtain rfl := Option.some.inj h <;> simp [Inside]

theorem run_inside {s : List UInt8} {st st' : State} (hst : Inside st)
    (h : run st s = some st') : Inside st' := by
  induction s generalizing st with
  | nil =>
    obtain rfl := Option.some.inj h
    exact hst
  | cons b s ih =>
    obtain ⟨next, hnext, hrest⟩ := Option.bind_eq_some_iff.mp h
    exact ih (step_inside hst hnext) hrest

/-- No character of one byte stands inside a longer one. -/
theorem step_ascii {st : State} {b : UInt8} (hst : Inside st) (hb : isAscii b = true)
    (hnot : st ≠ .start) : step st b = none := by
  have hlow : b < 0x80 := by
    have hall : ∀ x : BitVec 8, isAscii ⟨x⟩ = true → (⟨x⟩ : UInt8) < 0x80 := by decide +kernel
    exact hall b.toBitVec hb
  have hno (lo hi : UInt8) (hlo : 0x80 ≤ lo) : ¬ (lo ≤ b ∧ b ≤ hi) := by
    rintro ⟨hle, -⟩
    rw [UInt8.le_iff_toNat_le] at hlo hle
    rw [UInt8.lt_iff_toNat_lt] at hlow
    omega
  match st, hst, hnot with
  | .tail lo hi 0, hst, _ => exact if_neg (hno lo hi hst)
  | .tail lo hi (more + 1), hst, _ => exact if_neg (hno lo hi hst)
  | .last, _, _ =>
    have hne : b ≠ 0xBF := by
      rintro rfl
      exact absurd hlow (by decide)
    simp only [step, if_neg hne, if_neg (hno 0x80 0xBF (by decide))]

/-- In front of characters of one byte a byte string has to be complete. -/
theorem valid_append_right (s : List UInt8) {t : List UInt8} (ht : t.all isAscii = true)
    (hne : t ≠ []) : valid (s ++ t) = valid s := by
  obtain ⟨b, t, rfl⟩ := List.exists_cons_of_ne_nil hne
  have hb : isAscii b = true := (List.all_eq_true.mp ht) b List.mem_cons_self
  unfold valid
  rw [run_append]
  cases hrun : run .start s with
  | none => rfl
  | some st =>
    by_cases hst : st = .start
    · rw [hst, Option.bind_some, run_ascii ht]
    · have hinside : Inside st := run_inside (s := s) (show Inside .start from trivial) hrun
      have hdead : run st (b :: t) = none := by
        show (step st b).bind (run · t) = none
        rw [step_ascii hinside hb hst]
        rfl
      rw [Option.bind_some, hdead]
      simp [hst]

end WowProxy.Lib.Utf8
