/-
  Lib/Blocks.lean --- programs that allocate and free blocks.

  An address is given out once, so that what is freed twice, or freed and never
  allocated, is an error.  `Owns` is a triple: the program goes through in every memory
  that has the blocks it is given, and leaves all others alone.  A program that owns
  nothing before and nothing after it leaks nothing.
-/
import Mathlib.Data.List.Perm.Basic

set_option autoImplicit false

namespace WowProxy.Lib.Blocks

/-- The addresses that are in use, and the next that is given out. -/
structure Mem where
  live : List Nat
  next : Nat
  nodup : live.Nodup
  lt : ∀ p ∈ live, p < next

/-- Nothing is in use yet. -/
def Mem.empty : Mem := ⟨[], 0, .nil, fun _ h => absurd h List.not_mem_nil⟩

/-- A program; `none` is an error. -/
abbrev Prog (α : Type) : Type := StateT Mem Option α

variable {α β : Type}

/-- A block is allocated. -/
def malloc : Prog Nat := fun m =>
  some (m.next,
    { live := m.next :: m.live
      next := m.next + 1
      nodup := List.nodup_cons.mpr ⟨fun h => Nat.lt_irrefl _ (m.lt _ h), m.nodup⟩
      lt := List.forall_mem_cons.mpr
        ⟨Nat.lt_succ_self _, fun p hp => Nat.lt_succ_of_lt (m.lt p hp)⟩ })

/-- A block is freed. -/
def free (p : Nat) : Prog Unit := fun m =>
  if p ∈ m.live then
    some ((),
      { live := m.live.erase p
        next := m.next
        nodup := m.nodup.erase p
        lt := fun q hq => m.lt q (List.mem_of_mem_erase hq) })
  else none

/-- A block is moved. -/
def realloc (p : Nat) : Prog Nat := do
  free p
  malloc

/-- A block is freed if it is there. -/
def freeSome : Option Nat → Prog Unit
  | none => pure ()
  | some p => free p

/-- A value that there has to be. -/
def need : Option α → Prog α
  | none => failure
  | some a => pure a

/-! ## Triples -/

/-- The program goes through in every memory that has the blocks `pre`, leaves all others
alone, and what it returns and then owns is as `post` says. -/
def Owns (pre : List Nat) (prog : Prog α) (post : α → List Nat → Prop) : Prop :=
  ∀ (m : Mem) (others : List Nat), m.live.Perm (pre ++ others) →
    ∃ a m' own, prog m = some (a, m') ∧ m'.live.Perm (own ++ others) ∧ post a own

variable {pre pre' : List Nat} {prog : Prog α} {post post' : α → List Nat → Prop}

theorem Owns.pure {a : α} (h : post a pre) : Owns pre (pure a) post :=
  fun m _ hm => ⟨a, m, pre, rfl, hm, h⟩

theorem Owns.bind {next : α → Prog β} {final : β → List Nat → Prop} (h : Owns pre prog post)
    (hnext : ∀ a own, post a own → Owns own (next a) final) : Owns pre (prog >>= next) final := by
  intro m others hm
  obtain ⟨a, m₁, own, hprog, hm₁, hpost⟩ := h m others hm
  obtain ⟨b, m₂, own', hrest, hm₂, hfinal⟩ := hnext a own hpost m₁ others hm₁
  refine ⟨b, m₂, own', ?_, hm₂, hfinal⟩
  show (prog m).bind (fun r => next r.1 r.2) = _
  rw [hprog]
  exact hrest

theorem Owns.weaken (h : Owns pre prog post) (hpost : ∀ a own, post a own → post' a own) :
    Owns pre prog post' := by
  intro m others hm
  obtain ⟨a, m', own, hprog, hm', ha⟩ := h m others hm
  exact ⟨a, m', own, hprog, hm', hpost a own ha⟩

/-- The order of the blocks does not matter. -/
theorem Owns.perm (h : Owns pre prog post) (hperm : pre'.Perm pre) : Owns pre' prog post :=
  fun m others hm => h m others (hm.trans (hperm.append_right others))

theorem Owns.malloc (pre : List Nat) :
    Owns pre Blocks.malloc fun p own => own = p :: pre := by
  intro m others hm
  exact ⟨m.next, _, m.next :: pre, rfl, hm.cons m.next, rfl⟩

theorem Owns.free (p : Nat) (pre : List Nat) :
    Owns (p :: pre) (Blocks.free p) fun _ own => own = pre := by
  intro m others hm
  have hp : p ∈ m.live := hm.mem_iff.mpr List.mem_cons_self
  refine ⟨(), _, pre, if_pos hp, ?_, rfl⟩
  exact ((List.perm_cons_erase hp).symm.trans hm).cons_inv

theorem Owns.realloc (p : Nat) (pre : List Nat) :
    Owns (p :: pre) (Blocks.realloc p) fun q own => own = q :: pre :=
  (Owns.free p pre).bind fun _ own hown => by
    subst hown
    exact .malloc own

theorem Owns.freeSome (p : Option Nat) (pre : List Nat) :
    Owns (p.toList ++ pre) (Blocks.freeSome p) fun _ own => own = pre := by
  cases p with
  | none => exact .pure rfl
  | some p => exact .free p pre

theorem Owns.need {a : Option α} {b : α} (h : a = some b) :
    Owns pre (Blocks.need a) fun r own => r = b ∧ own = pre := by
  rw [h]
  exact .pure ⟨rfl, rfl⟩

end WowProxy.Lib.Blocks
