/-
  Lib/LinkedList.lean --- doubly linked lists in a heap of cells.

  `Represents` says that a heap holds, between two end pointers, the cells of a
  list of addresses.  The rules below are those of a queue: a cell is linked
  behind the last, the first is unlinked, and writes elsewhere do not matter.
-/
import Mathlib.Data.List.Basic
import Mathlib.Data.List.Nodup
import Mathlib.Logic.Function.Basic

set_option autoImplicit false

namespace WowProxy.Lib.LinkedList

universe u

/-- A cell with its links. -/
structure Cell (α : Type u) where
  value : α
  prev : Option Nat
  next : Option Nat
  deriving DecidableEq

/-- What is allocated, by address. -/
abbrev Heap (α : Type u) := Nat → Option (Cell α)

variable {α : Type u}

/-- The heap with a cell in place. -/
def Heap.write (h : Heap α) (p : Nat) (c : Cell α) : Heap α := Function.update h p (some c)

/-- The heap without a cell. -/
def Heap.free (h : Heap α) (p : Nat) : Heap α := Function.update h p none

@[simp] theorem Heap.write_self (h : Heap α) (p : Nat) (c : Cell α) : h.write p c p = some c :=
  Function.update_self _ _ _

theorem Heap.write_of_ne {h : Heap α} {p q : Nat} {c : Cell α} (hne : q ≠ p) :
    h.write p c q = h q :=
  Function.update_of_ne hne _ _

@[simp] theorem Heap.free_self (h : Heap α) (p : Nat) : h.free p p = none :=
  Function.update_self _ _ _

theorem Heap.free_of_ne {h : Heap α} {p q : Nat} (hne : q ≠ p) : h.free p q = h q :=
  Function.update_of_ne hne _ _

/-! ## Chains -/

/-- The cells at the addresses are linked to one another, the first of them back
to `prev`. -/
def Chain (h : Heap α) : Option Nat → List Nat → Prop
  | _, [] => True
  | prev, p :: ps =>
    (∃ c, h p = some c ∧ c.prev = prev ∧ c.next = ps.head?) ∧ Chain h (some p) ps

/-- Only the cells of a chain matter for it. -/
theorem Chain.congr {h h' : Heap α} {ps : List Nat} :
    ∀ {prev : Option Nat}, (∀ p ∈ ps, h' p = h p) → Chain h prev ps → Chain h' prev ps := by
  induction ps with
  | nil => intro prev _ _; trivial
  | cons p ps ih =>
    intro prev hsame hchain
    obtain ⟨⟨c, hc, hprev, hnext⟩, hrest⟩ := hchain
    refine ⟨⟨c, ?_, hprev, hnext⟩, ih (fun q hq => hsame q (List.mem_cons_of_mem _ hq)) hrest⟩
    rw [hsame p List.mem_cons_self, hc]

theorem Chain.live {h : Heap α} {ps : List Nat} :
    ∀ {prev : Option Nat}, Chain h prev ps → ∀ p ∈ ps, ∃ c, h p = some c := by
  induction ps with
  | nil => intro prev _ p hp; exact absurd hp List.not_mem_nil
  | cons q ps ih =>
    intro prev hchain p hp
    obtain ⟨⟨c, hc, -⟩, hrest⟩ := hchain
    rcases List.mem_cons.mp hp with rfl | hp
    · exact ⟨c, hc⟩
    · exact ih hrest p hp

/-- The first cell of the chain, linked back to another predecessor. -/
theorem Chain.relink {h : Heap α} {prev prev' : Option Nat} {p : Nat} {ps : List Nat} {c : Cell α}
    (hc : h p = some c) (hp : p ∉ ps) (hchain : Chain h prev (p :: ps)) :
    Chain (h.write p { c with prev := prev' }) prev' (p :: ps) := by
  obtain ⟨⟨c', hc', -, hnext⟩, hrest⟩ := hchain
  obtain rfl := Option.some.inj (hc.symm.trans hc')
  refine ⟨⟨_, Heap.write_self _ _ _, rfl, hnext⟩, hrest.congr ?_⟩
  intro q hq
  exact Heap.write_of_ne (fun heq => hp (heq ▸ hq))

/-- A cell linked behind the last of a chain. -/
theorem Chain.snoc {h : Heap α} {ps : List Nat} {last new : Nat} {c : Cell α} {v : α} :
    ∀ {prev : Option Nat}, Chain h prev (ps ++ [last]) → h last = some c →
      (ps ++ [last]).Nodup → new ∉ ps ++ [last] →
      Chain ((h.write new ⟨v, some last, none⟩).write last { c with next := some new }) prev
        (ps ++ [last, new]) := by
  induction ps with
  | nil =>
    intro prev hchain hc _ hnew
    obtain ⟨⟨c', hc', hprev, -⟩, -⟩ := hchain
    obtain rfl := Option.some.inj (hc.symm.trans hc')
    have hne : new ≠ last := fun heq => hnew (heq ▸ List.mem_singleton_self _)
    refine ⟨⟨{ c with next := some new }, Heap.write_self _ _ _, hprev, rfl⟩,
      ⟨⟨v, some last, none⟩, ?_, rfl, rfl⟩, trivial⟩
    rw [Heap.write_of_ne hne, Heap.write_self]
  | cons p ps ih =>
    intro prev hchain hc hnodup hnew
    obtain ⟨⟨c', hc', hprev, hnext⟩, hrest⟩ := hchain
    rw [List.cons_append, List.nodup_cons] at hnodup
    rw [List.cons_append, List.mem_cons, not_or] at hnew
    have hlast : p ≠ last := by
      rintro rfl
      exact hnodup.1 (List.mem_append_right _ (List.mem_singleton_self _))
    refine ⟨⟨c', ?_, hprev, ?_⟩, ih hrest hc hnodup.2 hnew.2⟩
    · rw [Heap.write_of_ne hlast, Heap.write_of_ne (Ne.symm hnew.1), hc']
    · rw [hnext]
      cases ps <;> rfl

/-! ## Following links -/

/-- The cells on the way along a link to its end.  The way has no value where it leaves
the heap or is longer than `fuel`. -/
def follow (link : Cell α → Option Nat) (h : Heap α) : Nat → Option Nat → Option (List Nat)
  | _, none => some []
  | 0, some _ => none
  | fuel + 1, some p =>
    (h p).bind fun c => (follow link h fuel (link c)).map fun ps => p :: ps

theorem follow_mono {link : Cell α → Option Nat} {h : Heap α} {fuel : Nat} :
    ∀ {fuel' : Nat} {start : Option Nat} {ps : List Nat}, fuel ≤ fuel' →
      follow link h fuel start = some ps → follow link h fuel' start = some ps := by
  induction fuel with
  | zero =>
    intro fuel' start ps _ hps
    cases start with
    | none => rw [← hps]; cases fuel' <;> rfl
    | some p => exact absurd hps (by simp [follow])
  | succ fuel ih =>
    intro fuel' start ps hle hps
    cases start with
    | none => rw [← hps]; cases fuel' <;> rfl
    | some p =>
      obtain ⟨more, rfl⟩ := Nat.exists_eq_add_of_le' hle
      obtain ⟨c, hc, hrest⟩ := Option.bind_eq_some_iff.mp hps
      obtain ⟨qs, hqs, rfl⟩ := Option.map_eq_some_iff.mp hrest
      rw [← Nat.add_assoc, follow, hc, Option.bind_some, ih (Nat.le_add_left fuel more) hqs,
        Option.map_some]

/-- Forwards, the way is the chain itself. -/
theorem Chain.follow_next {h : Heap α} {ps : List Nat} :
    ∀ {prev : Option Nat}, Chain h prev ps →
      follow Cell.next h ps.length ps.head? = some ps := by
  induction ps with
  | nil => intro prev _; rfl
  | cons p ps ih =>
    intro prev hchain
    obtain ⟨⟨c, hc, -, hnext⟩, hrest⟩ := hchain
    rw [List.length_cons, List.head?_cons, follow, hc, Option.bind_some, hnext, ih hrest,
      Option.map_some]

/-- Backwards, it goes through the chain in the opposite order, and then the way of the
predecessor of the first. -/
theorem Chain.follow_prev {h : Heap α} {ps : List Nat} :
    ∀ {prev : Option Nat} {fuel : Nat} {qs : List Nat}, Chain h prev ps →
      follow Cell.prev h fuel prev = some qs →
      follow Cell.prev h (fuel + ps.length) (ps.getLast?.or prev) = some (ps.reverse ++ qs) := by
  induction ps with
  | nil => intro prev fuel qs _ hqs; exact hqs
  | cons p ps ih =>
    intro prev fuel qs hchain hqs
    obtain ⟨⟨c, hc, hprev, -⟩, hrest⟩ := hchain
    have hfirst : follow Cell.prev h (fuel + 1) (some p) = some (p :: qs) := by
      rw [follow, hc, Option.bind_some, hprev, hqs, Option.map_some]
    have hways := ih hrest hfirst
    have hlast : (p :: ps).getLast?.or prev = ps.getLast?.or (some p) := by
      rw [List.getLast?_cons]
      cases ps.getLast? <;> rfl
    rw [hlast, List.length_cons, List.reverse_cons, List.append_assoc, List.singleton_append,
      Nat.add_comm ps.length 1, ← Nat.add_assoc]
    exact hways

/-! ## Lists between two end pointers -/

/-- Between `head` and `tail` the heap holds a list of the cells at `ps`. -/
structure Represents (h : Heap α) (head tail : Option Nat) (ps : List Nat) : Prop where
  nodup : ps.Nodup
  head_eq : head = ps.head?
  tail_eq : tail = ps.getLast?
  chain : Chain h none ps

theorem Represents.nil (h : Heap α) : Represents h none none [] :=
  ⟨List.nodup_nil, rfl, rfl, trivial⟩

theorem Represents.congr {h h' : Heap α} {head tail : Option Nat} {ps : List Nat}
    (hrep : Represents h head tail ps) (hsame : ∀ p ∈ ps, h' p = h p) :
    Represents h' head tail ps :=
  ⟨hrep.nodup, hrep.head_eq, hrep.tail_eq, hrep.chain.congr hsame⟩

/-- The only cell of a list. -/
theorem Represents.single (h : Heap α) (new : Nat) (v : α) :
    Represents (h.write new ⟨v, none, none⟩) (some new) (some new) [new] :=
  ⟨List.nodup_singleton _, rfl, rfl, ⟨_, Heap.write_self _ _ _, rfl, rfl⟩, trivial⟩

/-- Link a cell behind the last. -/
theorem Represents.snoc {h : Heap α} {head : Option Nat} {last new : Nat} {ps : List Nat}
    {c : Cell α} (hrep : Represents h head (some last) ps) (hc : h last = some c)
    (hnew : new ∉ ps) (v : α) :
    Represents ((h.write new ⟨v, some last, none⟩).write last { c with next := some new })
      head (some new) (ps ++ [new]) := by
  obtain ⟨front, rfl⟩ : ∃ front, ps = front ++ [last] := by
    have hlast := hrep.tail_eq.symm
    rw [List.getLast?_eq_some_iff] at hlast
    exact hlast
  refine ⟨?_, ?_, ?_, ?_⟩
  · exact hrep.nodup.append (List.nodup_singleton _) (by simpa using hnew)
  · rw [hrep.head_eq]
    cases front <;> rfl
  · rw [List.getLast?_append_of_ne_nil _ (List.cons_ne_nil _ _)]
    rfl
  · rw [List.append_assoc]
    exact hrep.chain.snoc hc hrep.nodup hnew

/-- Unlink the first of several cells. -/
theorem Represents.tail {h : Heap α} {head tail : Option Nat} {p q : Nat} {ps : List Nat}
    {c : Cell α} (hrep : Represents h head tail (p :: q :: ps)) (hc : h q = some c) :
    Represents (h.write q { c with prev := none }) (some q) tail (q :: ps) := by
  have hnodup := (List.nodup_cons.mp hrep.nodup).2
  refine ⟨hnodup, rfl, ?_, ?_⟩
  · rw [hrep.tail_eq, List.getLast?_cons_cons]
  · exact hrep.chain.2.relink hc (List.nodup_cons.mp hnodup).1

/-- The first cell, and its link to the second. -/
theorem Represents.first {h : Heap α} {head tail : Option Nat} {p : Nat} {ps : List Nat}
    (hrep : Represents h head tail (p :: ps)) :
    head = some p ∧ ∃ c, h p = some c ∧ c.next = ps.head? := by
  obtain ⟨c, hc, -, hnext⟩ := hrep.chain.1
  exact ⟨hrep.head_eq, c, hc, hnext⟩

/-- From the first cell on, the next links lead through the list. -/
theorem Represents.follow_next {h : Heap α} {head tail : Option Nat} {ps : List Nat}
    (hrep : Represents h head tail ps) {fuel : Nat} (hfuel : ps.length ≤ fuel) :
    follow Cell.next h fuel head = some ps := by
  rw [hrep.head_eq]
  exact follow_mono hfuel hrep.chain.follow_next

/-- From the last cell on, the previous links lead back through it. -/
theorem Represents.follow_prev {h : Heap α} {head tail : Option Nat} {ps : List Nat}
    (hrep : Represents h head tail ps) {fuel : Nat} (hfuel : ps.length ≤ fuel) :
    follow Cell.prev h fuel tail = some ps.reverse := by
  have hway := hrep.chain.follow_prev (show follow Cell.prev h 0 none = some [] from rfl)
  rw [Option.or_none, List.append_nil, Nat.zero_add, ← hrep.tail_eq] at hway
  exact follow_mono hfuel hway

end WowProxy.Lib.LinkedList
