/-
  Lib/CString.lean --- C strings in buffers of fixed size.

  A buffer is the list of all its bytes; its length is its size and never
  changes.  The string it holds ends before its first NUL, so a buffer without
  a NUL holds no string, and every call that would look for the end of one has
  the value `none`.
-/
import Mathlib.Data.List.TakeWhile

set_option autoImplicit false

namespace WowProxy.Lib.CString

/-- The string a buffer holds: its bytes before the first NUL. -/
def cstr (buf : List UInt8) : Option (List UInt8) :=
  if 0 ∈ buf then some (buf.takeWhile (· ≠ 0)) else none

/-- `strcat(dst, src)`: both terminators have to be found inside their buffers
and the joined string, with its terminator, has to fit `dst`. -/
def strcat (dst src : List UInt8) : Option (List UInt8) := do
  let d ← cstr dst
  let s ← cstr src
  if d.length + s.length + 1 ≤ dst.length then
    return d ++ s ++ 0 :: dst.drop (d.length + s.length + 1)
  else
    none

/-- A string padded with NULs to a buffer of `size` bytes. -/
def padded (s : List UInt8) (size : Nat) : List UInt8 :=
  s ++ List.replicate (size - s.length) 0

theorem padded_nil (size : Nat) : padded [] size = List.replicate size 0 := by
  simp [padded]

@[simp] theorem length_padded {s : List UInt8} {size : Nat} (h : s.length ≤ size) :
    (padded s size).length = size := by
  simp [padded]
  omega

theorem cstr_eq_none {buf : List UInt8} (h : 0 ∉ buf) : cstr buf = none := by
  simp [cstr, h]

/-- A text without a NUL is all of its string. -/
theorem takeWhile_ne_nul {s : List UInt8} (h : 0 ∉ s) : s.takeWhile (· ≠ 0) = s := by
  rw [List.takeWhile_eq_self_iff]
  intro b hb
  rw [decide_eq_true_iff]
  rintro rfl
  exact h hb

theorem padded_eq_cons {s : List UInt8} {size : Nat} (h : s.length < size) :
    padded s size = s ++ 0 :: List.replicate (size - s.length - 1) 0 := by
  unfold padded
  rw [← List.replicate_succ]
  congr 2
  omega

/-- The string of a padded buffer is that of the text in it. -/
theorem takeWhile_padded (s : List UInt8) (size : Nat) :
    (padded s size).takeWhile (· ≠ 0) = s.takeWhile (· ≠ 0) := by
  rw [padded, List.takeWhile_append]
  split
  · rename_i hall
    rw [List.takeWhile_replicate]
    simpa using ((List.takeWhile_prefix _).eq_of_length hall).symm
  · rfl

/-- A text that leaves room in its buffer is terminated there, or at its first NUL. -/
theorem cstr_padded_text {s : List UInt8} {size : Nat} (h : s.length < size) :
    cstr (padded s size) = some (s.takeWhile (· ≠ 0)) := by
  have hmem : 0 ∈ padded s size := by simp [padded_eq_cons h]
  rw [cstr, if_pos hmem, takeWhile_padded]

theorem cstr_padded {s : List UInt8} {size : Nat} (hnul : 0 ∉ s) (h : s.length < size) :
    cstr (padded s size) = some s := by
  rw [cstr_padded_text h, takeWhile_ne_nul hnul]

/-- Appending a string to a padded buffer it fits into. -/
theorem strcat_padded {d s src : List UInt8} {size : Nat} (hd : 0 ∉ d)
    (hs : cstr src = some s) (hfit : d.length + s.length < size) :
    strcat (padded d size) src = some (padded (d ++ s) size) := by
  have hlen : (padded d size).length = size := length_padded (by omega)
  have hdrop : (padded d size).drop (d.length + s.length + 1) =
      List.replicate (size - d.length - s.length - 1) 0 := by
    rw [padded, Nat.add_assoc, List.drop_length_add_append, List.drop_replicate]
    congr 1
  unfold strcat
  rw [cstr_padded hd (by omega), hs]
  simp only [Option.bind_eq_bind, Option.bind_some, hlen]
  rw [if_pos (by omega), hdrop, padded_eq_cons (by simp; omega)]
  simp only [Option.pure_def, List.length_append]
  congr 4
  omega

/-! ## Comparing -/

/-- `strcmp` of two strings, without their terminators: the difference of the first bytes
in which they differ, as `unsigned char`. -/
def strcmp : List UInt8 → List UInt8 → Int
  | [], [] => 0
  | [], b :: _ => -b.toNat
  | a :: _, [] => a.toNat
  | a :: s, b :: t => if a = b then strcmp s t else (a.toNat : Int) - b.toNat

theorem toNat_ne_zero {s : List UInt8} {b : UInt8} (h : 0 ∉ b :: s) : b.toNat ≠ 0 := by
  intro hb
  obtain rfl : b = 0 := UInt8.toNat_inj.mp hb
  exact h List.mem_cons_self

/-- Strings that compare equal are the same. -/
theorem strcmp_eq_zero_iff {s t : List UInt8} (hs : 0 ∉ s) (ht : 0 ∉ t) :
    strcmp s t = 0 ↔ s = t := by
  induction s generalizing t with
  | nil =>
    cases t with
    | nil => exact iff_of_true rfl rfl
    | cons b t =>
      have hb := toNat_ne_zero ht
      refine iff_of_false ?_ (List.cons_ne_nil b t).symm
      rw [strcmp]
      omega
  | cons a s ih =>
    cases t with
    | nil =>
      have ha := toNat_ne_zero hs
      refine iff_of_false ?_ (List.cons_ne_nil a s)
      rw [strcmp]
      omega
    | cons b t =>
      rw [strcmp, List.cons.injEq]
      by_cases hab : a = b
      · rw [if_pos hab, ih (fun h => hs (List.mem_cons_of_mem a h))
          (fun h => ht (List.mem_cons_of_mem b h))]
        exact (and_iff_right hab).symm
      · have hne : a.toNat ≠ b.toNat := fun h => hab (UInt8.toNat_inj.mp h)
        refine iff_of_false ?_ fun h => hab h.1
        rw [if_neg hab]
        omega

end WowProxy.Lib.CString
