/-
  Lib/Text.lean --- searching a text for a pattern, and stripping it at its ends.

  `search` is the first occurrence of a pattern.  Where a pattern is known to
  stand, it is the first one unless another begins earlier, and an earlier one
  either lies in front or overlaps it; `search_append` names that condition once.
-/
import Mathlib.Data.List.DropRight
import Mathlib.Data.List.Infix

set_option autoImplicit false

namespace WowProxy.Lib.Text

variable {α : Type}

/-! ## The first occurrence -/

section Search

variable {pat s : List α}

section

variable [DecidableEq α]

/-- The text from the first occurrence of `pat` on. -/
def search (pat : List α) : List α → Option (List α)
  | [] => if pat = [] then some [] else none
  | a :: s => if pat <+: a :: s then some (a :: s) else search pat s

theorem search_of_start {a : α} (h : pat <+: a :: s) : search pat (a :: s) = some (a :: s) :=
  if_pos h

theorem search_of_not_start {a : α} (h : ¬ pat <+: a :: s) :
    search pat (a :: s) = search pat s :=
  if_neg h

theorem search_isSome_iff : (search pat s).isSome ↔ pat <:+: s := by
  induction s with
  | nil => by_cases h : pat = [] <;> simp [search, h]
  | cons a s ih =>
    rw [List.infix_cons_iff]
    by_cases h : pat <+: a :: s
    · simp [search_of_start h, h]
    · simp [search_of_not_start h, h, ih]

/-- What is found begins with the pattern. -/
theorem search_eq_some {t : List α} (h : search pat s = some t) :
    ∃ pre rest, s = pre ++ t ∧ t = pat ++ rest := by
  induction s with
  | nil =>
    unfold search at h
    split at h
    · rename_i hpat
      obtain rfl := Option.some.inj h
      exact ⟨[], [], rfl, by rw [hpat]; rfl⟩
    · exact absurd h (by simp)
  | cons a s ih =>
    by_cases hpat : pat <+: a :: s
    · rw [search_of_start hpat] at h
      obtain rfl := Option.some.inj h
      obtain ⟨rest, hrest⟩ := hpat
      exact ⟨[], rest, rfl, hrest.symm⟩
    · rw [search_of_not_start hpat] at h
      obtain ⟨pre, rest, hs, ht⟩ := ih h
      exact ⟨a :: pre, rest, by rw [hs]; rfl, ht⟩

/-- A pattern behind `pre` is the first one when none ends before its last
element. -/
theorem search_append {pre : List α} (hfirst : ¬ pat <:+: pre ++ pat.dropLast)
    (rest : List α) : search pat (pre ++ (pat ++ rest)) = some (pat ++ rest) := by
  induction pre with
  | nil =>
    cases pat with
    | nil => exact absurd (List.infix_refl []) hfirst
    | cons c pat => exact search_of_start ⟨rest, rfl⟩
  | cons a pre ih =>
    have hhead : ¬ pat <+: a :: (pre ++ (pat ++ rest)) := by
      intro hpat
      have hshort : a :: pre ++ pat.dropLast <+: a :: (pre ++ (pat ++ rest)) := by
        refine (List.prefix_append_right_inj (a :: pre)).mpr ?_
        exact (List.dropLast_prefix pat).trans (List.prefix_append pat rest)
      refine hfirst (List.prefix_of_prefix_length_le hpat hshort ?_).isInfix
      simp only [List.cons_append, List.length_cons, List.length_append, List.length_dropLast]
      omega
    rw [List.cons_append, search_of_not_start hhead]
    refine ih fun h => hfirst ?_
    exact h.trans (List.suffix_cons a _).isInfix

/-- What is found is the first occurrence. -/
theorem search_eq_some_iff (hpat : pat ≠ []) {t : List α} :
    search pat s = some t ↔
      ∃ pre rest, s = pre ++ t ∧ t = pat ++ rest ∧ ¬ pat <:+: pre ++ pat.dropLast := by
  constructor
  · intro h
    induction s with
    | nil => exact absurd (h.symm.trans (if_neg hpat)) (by simp)
    | cons a s ih =>
      by_cases hstart : pat <+: a :: s
      · rw [search_of_start hstart] at h
        obtain rfl := Option.some.inj h
        obtain ⟨rest, hrest⟩ := hstart
        refine ⟨[], rest, rfl, hrest.symm, fun hin => ?_⟩
        have hlen := hin.length_le
        have hpos := List.length_pos_iff.mpr hpat
        rw [List.nil_append, List.length_dropLast] at hlen
        omega
      · rw [search_of_not_start hstart] at h
        obtain ⟨pre, rest, hs, ht, hfirst⟩ := ih h
        refine ⟨a :: pre, rest, by rw [hs, List.cons_append], ht, fun hin => ?_⟩
        rw [List.cons_append, List.infix_cons_iff] at hin
        refine hin.elim (fun hhead => hstart (hhead.trans ?_)) hfirst
        rw [hs, ht, List.prefix_cons_inj, List.prefix_append_right_inj]
        exact (List.dropLast_prefix pat).trans (List.prefix_append pat rest)
  · rintro ⟨pre, rest, rfl, rfl, hfirst⟩
    exact search_append hfirst rest

end

/-- A pattern that is in neither of two texts is in both together only where it
lies across the place they meet. -/
theorem not_infix_append {pre rest : List α} (hpre : ¬ pat <:+: pre) (hrest : ¬ pat <:+: rest)
    (hoverlap : ∀ i < pat.length, 0 < i → pat.take i <:+ pre → ¬ pat.drop i <+: rest) :
    ¬ pat <:+: pre ++ rest := by
  intro h
  rcases List.infix_append_iff_ne_nil.mp h with h | h | ⟨l₁, l₂, h₁, h₂, rfl, hl₁, hl₂⟩
  · exact hpre h
  · exact hrest h
  · have hpos₁ := List.length_pos_iff.mpr h₁
    have hpos₂ := List.length_pos_iff.mpr h₂
    refine hoverlap l₁.length (by simp only [List.length_append]; omega) hpos₁ ?_ ?_
    · rwa [List.take_left]
    · rwa [List.drop_left]

/-- An element that is not in a pattern separates its occurrences. -/
theorem infix_append_cons_iff {c : α} (hne : pat ≠ []) (hc : c ∉ pat) {a b : List α} :
    pat <:+: a ++ c :: b ↔ pat <:+: a ∨ pat <:+: b := by
  have hcons : pat <:+: c :: b ↔ pat <:+: b := by
    rw [List.infix_cons_iff]
    refine or_iff_right fun hstart => hc ?_
    obtain ⟨d, pat, rfl⟩ := List.exists_cons_of_ne_nil hne
    rw [(List.cons_prefix_cons.mp hstart).1]
    exact List.mem_cons_self
  constructor
  · intro h
    by_contra hnot
    rw [not_or] at hnot
    refine not_infix_append hnot.1 (fun hb => hnot.2 (hcons.mp hb)) ?_ h
    intro i hi _ _ hstart
    -- Behind its first part the pattern would begin with the element.
    rw [List.drop_eq_getElem_cons hi, List.cons_prefix_cons] at hstart
    exact hc (hstart.1 ▸ List.getElem_mem hi)
  · rintro (h | h)
    · exact h.trans (List.prefix_append a _).isInfix
    · exact (hcons.mpr h).trans (List.suffix_append a _).isInfix

end Search

/-! ## Stripping -/

section Strip

variable (p : α → Bool) {s : List α}

/-- A text without the elements that satisfy `p` at its two ends. -/
def strip (s : List α) : List α := (s.dropWhile p).rdropWhile p

theorem strip_isInfix : strip p s <:+: s :=
  ( List.rdropWhile_prefix p (s.dropWhile p)).isInfix.trans (s.dropWhile_suffix p).isInfix

theorem strip_eq_nil_iff : strip p s = [] ↔ ∀ a ∈ s, p a := by
  rw [strip, List.rdropWhile_eq_nil_iff]
  constructor
  · intro h a ha
    rw [← s.takeWhile_append_dropWhile (p := p), List.mem_append] at ha
    exact ha.elim (fun ha => List.mem_takeWhile_imp ha) (h a)
  · intro h a ha
    exact h a ((s.dropWhile_suffix p).subset ha)

/-- What `strip` takes away stands at the two ends and satisfies `p`. -/
theorem strip_split (s : List α) : ∃ front back, s = front ++ (strip p s ++ back) ∧
    (∀ a ∈ front, p a = true) ∧ ∀ a ∈ back, p a = true := by
  refine ⟨s.takeWhile p, (s.dropWhile p).rtakeWhile p, ?_,
    fun a ha => List.mem_takeWhile_imp ha, fun a ha => List.mem_rtakeWhile_imp ha⟩
  rw [strip, List.rdropWhile_append_rtakeWhile, List.takeWhile_append_dropWhile]

theorem strip_getLast : ∀ a ∈ (strip p s).getLast?, p a = false := by
  intro a ha
  obtain ⟨hne, rfl⟩ := List.mem_getLast?_eq_getLast ha
  exact Bool.eq_false_iff.mpr (List.rdropWhile_last_not p _ hne)

theorem strip_head : ∀ a ∈ (strip p s).head?, p a = false := by
  intro a ha
  obtain ⟨rest, hrest⟩ := List.rdropWhile_prefix p (s.dropWhile p)
  have hdrop : (s.dropWhile p).head? = some a := by
    rw [← hrest, List.head?_append, show ((s.dropWhile p).rdropWhile p).head? = some a from ha]
    rfl
  have hnot := List.head?_dropWhile_not p s
  rwa [hdrop] at hnot

/-- Stripping the end again changes nothing. -/
theorem rdropWhile_strip (s : List α) : (strip p s).rdropWhile p = strip p s :=
  List.rdropWhile_idempotent p _

end Strip

end WowProxy.Lib.Text
