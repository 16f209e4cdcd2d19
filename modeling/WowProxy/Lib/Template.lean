/-
  Lib/Template.lean --- texts with places to fill in.

  A template is kept as the texts between its places, so that it cannot hold a
  place that is not counted.  `text` is how it is written with a mark at every
  place, and `fill` what it says once the places have been given their texts.
-/
import Mathlib.Algebra.GroupWithZero.Nat
import Mathlib.Data.List.Basic

set_option autoImplicit false

namespace WowProxy.Lib

/-- The text in front of the first place, and the texts behind each of them. -/
structure Template (α : Type) where
  head : List α
  tails : List (List α)

namespace Template

variable {α : Type}

/-- How many places there are. -/
def places (t : Template α) : Nat := t.tails.length

/-- The texts of the template itself. -/
def literals (t : Template α) : List (List α) := t.head :: t.tails

/-- The template with `mark` at every place. -/
def text (t : Template α) (mark : List α) : List α :=
  t.head ++ t.tails.flatMap fun tail => mark ++ tail

/-- The template with the `k`-th of the arguments at the `k`-th place. -/
def fill (t : Template α) (args : List (List α)) : List α :=
  t.head ++ (List.zipWith (fun arg tail => arg ++ tail) args t.tails).flatten

/-- The length of a list of texts. -/
def totalLength (texts : List (List α)) : Nat := (texts.map List.length).sum

@[simp] theorem totalLength_nil : totalLength ([] : List (List α)) = 0 := rfl

@[simp] theorem totalLength_cons (t : List α) (texts : List (List α)) :
    totalLength (t :: texts) = t.length + totalLength texts := rfl

theorem totalLength_append (texts texts' : List (List α)) :
    totalLength (texts ++ texts') = totalLength texts + totalLength texts' := by
  simp [totalLength]

theorem length_flatten_zipWith : ∀ (args tails : List (List α)), args.length = tails.length →
    (List.zipWith (fun arg tail => arg ++ tail) args tails).flatten.length =
      totalLength args + totalLength tails
  | [], [], _ => rfl
  | arg :: args, tail :: tails, h => by
    have ih := length_flatten_zipWith args tails (by simpa using h)
    simp only [List.zipWith_cons_cons, List.flatten_cons, List.length_append, ih,
      totalLength_cons]
    omega

/-- A filled template is as long as its own texts and the arguments together. -/
theorem length_fill (t : Template α) {args : List (List α)} (h : args.length = t.places) :
    (t.fill args).length = totalLength t.literals + totalLength args := by
  rw [fill, List.length_append, length_flatten_zipWith args t.tails h]
  simp only [literals, totalLength_cons]
  omega

end Template

end WowProxy.Lib
