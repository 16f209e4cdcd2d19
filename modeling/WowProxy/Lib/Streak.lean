/-
  Lib/Streak.lean --- how often the last entry of a log has just been repeated.

  A counter that starts again whenever a new entry differs from the one before holds the
  length of such a streak, and `le_streak_iff` reads it as an ending of the log.
-/
import Mathlib.Data.List.DropRight

set_option autoImplicit false

namespace WowProxy.Lib.Streak

universe u

variable {α : Type u}

/-! ## Endings of equal entries -/

theorem getLast?_of_replicate_suffix {n : Nat} (hn : 0 < n) {a : α} {log : List α}
    (h : List.replicate n a <:+ log) : log.getLast? = some a := by
  obtain ⟨front, rfl⟩ := h
  obtain ⟨n, rfl⟩ := Nat.exists_eq_succ_of_ne_zero (Nat.ne_of_gt hn)
  rw [List.replicate_succ', ← List.append_assoc, List.getLast?_concat]

/-- What stands before `m` equal entries. -/
theorem replicate_suffix_append_replicate {n m : Nat} {a : α} {log : List α} :
    List.replicate (n + m) a <:+ log ++ List.replicate m a ↔ List.replicate n a <:+ log := by
  rw [List.replicate_add]
  exact List.suffix_append_self_iff

/-! ## The streak -/

variable [DecidableEq α]

/-- The number of entries `a` at the end of the log. -/
def streak (a : α) (log : List α) : Nat := (log.rtakeWhile (· = a)).length

theorem streak_concat_self (a : α) (log : List α) : streak a (log ++ [a]) = streak a log + 1 := by
  rw [streak, List.rtakeWhile_concat_pos, List.length_append]
  · rfl
  · exact decide_eq_true rfl

theorem streak_concat_of_ne {a b : α} (h : b ≠ a) (log : List α) :
    streak a (log ++ [b]) = 0 := by
  rw [streak, List.rtakeWhile_concat_neg]
  · rfl
  · exact fun hb => h (of_decide_eq_true hb)

theorem streak_of_getLast?_ne {a : α} {log : List α} (h : log.getLast? ≠ some a) :
    streak a log = 0 := by
  rcases log.eq_nil_or_concat with rfl | ⟨front, b, rfl⟩
  · rfl
  · rw [List.concat_eq_append, List.getLast?_concat] at h
    rw [List.concat_eq_append, streak_concat_of_ne fun hb => h (congrArg some hb)]

/-- The log ends with `n` entries `a` exactly when its streak is as long. -/
theorem le_streak_iff {a : α} {log : List α} :
    ∀ {n : Nat}, n ≤ streak a log ↔ List.replicate n a <:+ log := by
  induction log using List.reverseRecOn with
  | nil =>
    intro n
    rw [List.suffix_nil, List.replicate_eq_nil_iff]
    exact Nat.le_zero
  | append_singleton front b ih =>
    intro n
    by_cases hb : b = a
    · subst hb
      rw [streak_concat_self]
      cases n with
      | zero => exact iff_of_true (Nat.zero_le _) List.nil_suffix
      | succ n =>
        rw [Nat.succ_le_succ_iff, ih]
        exact (replicate_suffix_append_replicate (m := 1)).symm
    · rw [streak_concat_of_ne hb]
      cases n with
      | zero => exact iff_of_true (Nat.zero_le _) List.nil_suffix
      | succ n =>
        refine iff_of_false (Nat.not_succ_le_zero n) fun hsuffix => hb ?_
        have hlast := getLast?_of_replicate_suffix (Nat.succ_pos n) hsuffix
        rw [List.getLast?_concat] at hlast
        exact Option.some.inj hlast

end WowProxy.Lib.Streak
