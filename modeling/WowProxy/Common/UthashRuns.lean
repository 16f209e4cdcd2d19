/-
  Common/UthashRuns.lean --- hash tables over runs of additions and deletions.

  A program allocates an element and adds it, or takes one out and frees it.  What its
  table is for is said by `listStep`: the list of the elements in the order of their
  addition.  The memory follows the list through every run, without an error, and with
  no other element allocated.
-/
import WowProxy.Common.UthashElements
import WowProxy.Lib.Runs

set_option autoImplicit false

namespace WowProxy.Uthash

open WowProxy.Lib.LinkedList
open WowProxy.Lib.Runs

variable {κ α : Type}

/-! ## Elements that come and go -/

/-- What a program does with its table, and the address that `malloc` gives it. -/
inductive Op (κ α : Type) where
  | add (p : Nat) (key : κ) (value : α)
  | del (p : Nat)
  deriving DecidableEq

/-- An element behind `malloc` and `memset`, with its key and the rest of it written. -/
def newElem (key : κ) (value : α) : Elem κ α := ⟨⟨key, value, 0⟩, none, none, none, none⟩

/-- An element is allocated, where nothing is, and added. -/
def allocAdd (hashFcn : κ → UInt32) (s : Hash κ α) (p : Nat) (key : κ) (value : α) :
    Option (Hash κ α) :=
  if s.heap p = none then
    add hashFcn { s with heap := Function.update s.heap p (some (newElem key value)) } p
  else none

/-- `HASH_DEL` and `free` of an element. -/
def delFree (s : Hash κ α) (p : Nat) : Option (Hash κ α) := do
  let s ← delete s p
  let _ ← s.heap p
  return { s with heap := Function.update s.heap p none }

/-- One step of the program. -/
def step (hashFcn : κ → UInt32) (s : Hash κ α) : Op κ α → Option (Hash κ α)
  | .add p key value => allocAdd hashFcn s p key value
  | .del p => delFree s p

/-- `(el)->hh.next`, or `NULL` of `NULL`. -/
def nextOf (s : Hash κ α) : Option Nat → Option (Option Nat)
  | none => some none
  | some p => (s.heap p).map Elem.next

/-- The rounds of `HASH_ITER`, the first of them for `el`.  The body works on a state that
the table is in. -/
def iterFrom {σ : Type} (mem : σ → Hash κ α) (body : σ → Nat → Option σ) :
    Nat → Option Nat → Option Nat → σ → Option σ
  | _, none, _, st => some st
  | 0, some _, _, _ => none
  | fuel + 1, some el, tmp, st => do
    let st ← body st el
    let next ← nextOf (mem st) tmp
    iterFrom mem body fuel tmp next st

/-- `HASH_ITER` -/
def iter {σ : Type} (mem : σ → Hash κ α) (body : σ → Nat → Option σ) (st : σ) : Option σ := do
  let s := mem st
  let tmp ← nextOf s s.head
  iterFrom mem body ((s.tbl.map Table.numItems).getD 0) s.head tmp st

/-- The loop of `destory_commands_table`. -/
def freeTable (s : Hash κ α) : Option (Hash κ α) := iter id delFree s

/-- The elements that `HASH_ITER` comes by, with a body that writes them down. -/
def visited (s : Hash κ α) : Option (List Nat) :=
  (iter Prod.fst (fun st p => some (st.1, st.2 ++ [p])) (s, [])).map Prod.snd

/-! ## What a table is for -/

/-- The list of the elements takes a step. -/
def listStep (es : List (Nat × κ × α)) : Op κ α → Option (List (Nat × κ × α))
  | .add p key value => if p ∈ addresses es then none else some (es ++ [(p, key, value)])
  | .del p => if p ∈ addresses es then some (es.filter fun e => e.1 ≠ p) else none

/-- The memory holds the table of the elements and nothing else. -/
structure Holds (hashFcn : κ → UInt32) (s : Hash κ α) (es : List (Nat × κ × α)) : Prop where
  represents : Represents hashFcn s es
  free : ∀ p, p ∉ addresses es → s.heap p = none

section Steps

variable {hashFcn : κ → UInt32} {s : Hash κ α} {es : List (Nat × κ × α)}

theorem Holds.empty (hashFcn : κ → UInt32) : Holds hashFcn (Hash.empty : Hash κ α) [] :=
  ⟨.empty hashFcn, fun _ _ => rfl⟩

/-- What is allocated is an element. -/
theorem Holds.isSome_iff (hh : Holds hashFcn s es) (p : Nat) :
    (s.heap p).isSome ↔ p ∈ addresses es := by
  constructor
  · intro hsome
    by_contra hp
    rw [hh.free p hp] at hsome
    exact absurd hsome Bool.false_ne_true
  · intro hp
    obtain ⟨e, he, rfl⟩ := List.mem_map.mp hp
    obtain ⟨elem, helem, -⟩ := live_of_itemOf (hh.represents.item e he)
    rw [helem]
    rfl

theorem itemOf_eq_none {heap : Heap κ α} {p : Nat} : itemOf heap p = none ↔ heap p = none :=
  Option.map_eq_none_iff

/-- An addition. -/
theorem Holds.allocAdd (hh : Holds hashFcn s es) {p : Nat} (hp : p ∉ addresses es) (key : κ)
    (value : α) : ∃ s', Uthash.allocAdd hashFcn s p key value = some s' ∧
      Holds hashFcn s' (es ++ [(p, key, value)]) ∧ s.Grows s' := by
  have hother : ∀ q, q ≠ p →
      Function.update s.heap p (some (newElem key value)) q = s.heap q := fun q hq =>
    Function.update_of_ne hq _ _
  have hr := hh.represents.congr fun q hq => hother q (ne_of_mem_of_not_mem hq hp)
  obtain ⟨s', hadd, hr', hsame, hgrows⟩ := hr.add (Function.update_self p _ _) hp
  refine ⟨s', ?_, ⟨hr', fun q hq => ?_⟩, hgrows.bucketsLe, hgrows.counted⟩
  · rw [Uthash.allocAdd, if_pos (hh.free p hp)]
    exact hadd
  · rw [addresses_append, List.mem_append, List.mem_singleton, not_or] at hq
    rw [← itemOf_eq_none, hsame q hq.2, itemOf_eq_none]
    exact (hother q hq.2).trans (hh.free q hq.1)

/-- A deletion. -/
theorem Holds.delFree {left right : List (Nat × κ × α)} {entry : Nat × κ × α}
    (hh : Holds hashFcn s (left ++ entry :: right)) :
    ∃ s', Uthash.delFree s entry.1 = some s' ∧ Holds hashFcn s' (left ++ right) ∧
      s.Grows s' := by
  obtain ⟨s₁, hdel, hr, hsame, hgrows⟩ := hh.represents.delete
  have hmem : entry ∈ left ++ entry :: right :=
    List.mem_append_right left List.mem_cons_self
  obtain ⟨e, he, -⟩ := live_of_itemOf
    ((congrFun hsame entry.1).trans (hh.represents.item entry hmem))
  have hnodup := hh.represents.nodup
  have haddr := addresses_middle left right entry
  have hmap : addresses (left ++ right) = addresses left ++ addresses right := List.map_append
  rw [haddr] at hnodup
  have hentry : entry.1 ∉ addresses (left ++ right) := by
    rw [hmap]
    exact (List.nodup_cons.mp (List.perm_middle.nodup_iff.mp hnodup)).1
  have hr' : Represents hashFcn { s₁ with heap := Function.update s₁.heap entry.1 none }
      (left ++ right) :=
    hr.congr fun q hq => Function.update_of_ne (ne_of_mem_of_not_mem hq hentry) _ _
  refine ⟨_, ?_, ⟨hr', fun q hq => ?_⟩, hgrows.bucketsLe, hgrows.counted⟩
  · rw [Uthash.delFree, hdel, Option.bind_eq_bind, Option.bind_some, he, Option.bind_eq_bind,
      Option.bind_some]
    rfl
  · show Function.update s₁.heap entry.1 none q = none
    by_cases hqe : q = entry.1
    · rw [hqe, Function.update_self]
    · rw [Function.update_of_ne hqe, ← itemOf_eq_none, hsame, itemOf_eq_none]
      refine hh.free q fun hmem' => hq ?_
      rw [haddr] at hmem'
      rw [hmap]
      exact (List.mem_cons.mp (List.perm_middle.mem_iff.mp hmem')).resolve_left hqe

/-- What the list is without one of its elements. -/
theorem filter_middle {left right : List (Nat × κ × α)} {entry : Nat × κ × α}
    (hnodup : (addresses (left ++ entry :: right)).Nodup) :
    (left ++ entry :: right).filter (fun e => e.1 ≠ entry.1) = left ++ right := by
  rw [addresses_middle] at hnodup
  have hentry := (List.nodup_cons.mp (List.perm_middle.nodup_iff.mp hnodup)).1
  have hkeep : ∀ e ∈ left ++ right, decide (e.1 ≠ entry.1) = true := fun e he =>
    decide_eq_true (ne_of_mem_of_not_mem
      (List.map_append (f := Prod.fst) ▸ List.mem_map_of_mem he) hentry)
  rw [List.filter_append, List.filter_cons_of_neg (by simp), ← List.filter_append,
    List.filter_eq_self.mpr hkeep]

/-- The memory answers every step of the list. -/
theorem Holds.step (hh : Holds hashFcn s es) {op : Op κ α} {es' : List (Nat × κ × α)}
    (hstep : listStep es op = some es') :
    ∃ s', Uthash.step hashFcn s op = some s' ∧ Holds hashFcn s' es' ∧ s.Grows s' := by
  cases op with
  | add p key value =>
    rw [listStep] at hstep
    split at hstep
    · exact absurd hstep (by simp)
    · rename_i hp
      obtain rfl := Option.some.inj hstep
      exact hh.allocAdd hp key value
  | del p =>
    rw [listStep] at hstep
    split at hstep
    · rename_i hp
      obtain rfl := Option.some.inj hstep
      obtain ⟨entry, hentry, rfl⟩ := List.mem_map.mp hp
      obtain ⟨left, right, rfl⟩ := List.append_of_mem hentry
      rw [filter_middle hh.represents.nodup]
      exact hh.delFree
    · exact absurd hstep (by simp)

theorem Holds.run (hashFcn : κ → UInt32) {ops : List (Op κ α)}
    (hrun : run listStep [] ops = some es) :
    ∃ s, Lib.Runs.run (Uthash.step hashFcn) Hash.empty ops = some s ∧ Holds hashFcn s es :=
  run_refines (fun _ _ _ _ hh hstep => by
    obtain ⟨s', hs', hh', -⟩ := hh.step hstep
    exact ⟨s', hs', hh'⟩) (Holds.empty hashFcn) hrun

/-- The last step of a run. -/
theorem Holds.run_append_singleton (hashFcn : κ → UInt32) {ops : List (Op κ α)} {op : Op κ α}
    (hrun : Lib.Runs.run listStep [] (ops ++ [op]) = some es) :
    ∃ es₀ s₀ s, Lib.Runs.run listStep [] ops = some es₀ ∧ listStep es₀ op = some es ∧
      Lib.Runs.run (Uthash.step hashFcn) Hash.empty ops = some s₀ ∧
      Lib.Runs.run (Uthash.step hashFcn) Hash.empty (ops ++ [op]) = some s ∧
      Holds hashFcn s es ∧ s₀.Grows s := by
  obtain ⟨es₀, hes₀, hlast⟩ := run_append_eq_some hrun
  obtain ⟨_, hstep, hdone⟩ := run_cons_eq_some hlast
  obtain rfl := Option.some.inj hdone
  obtain ⟨s₀, hs₀, hh₀⟩ := Holds.run hashFcn hes₀
  obtain ⟨s, hs, hh, hgrows⟩ := hh₀.step hstep
  refine ⟨es₀, s₀, s, hes₀, hstep, hs₀, run_append hs₀ ?_, hh, hgrows⟩
  rw [Lib.Runs.run, hs]
  rfl

/-! ## `HASH_ITER` -/

/-- The link of an element leads to the one behind it. -/
theorem Represents.nextOf_head (left : List (Nat × κ × α))
    (hr : Represents hashFcn s (left ++ es)) :
    nextOf s (addresses es).head? = some (addresses es.tail).head? := by
  cases es with
  | nil => rfl
  | cons first rest =>
    have hchain := hr.chain
    rw [addresses_middle] at hchain
    obtain ⟨cell, hcell, -, hnext⟩ := hchain.links
    obtain ⟨e, he, rfl⟩ := view_eq_some hcell
    show (s.heap first.1).map Elem.next = _
    rw [he, Option.map_some]
    exact congrArg some hnext

theorem Represents.numItems_eq (hr : Represents hashFcn s es) :
    (s.tbl.map Table.numItems).getD 0 = es.length := by
  cases es with
  | nil => rw [hr.freed rfl]; rfl
  | cons first rest =>
    obtain ⟨tbl, htbl, -, hitems, -⟩ := hr.table (List.cons_ne_nil _ _)
    rw [htbl, ← hitems]
    rfl

/-- Every round takes the first element out, and has read the link to the next before. -/
theorem Holds.freeRounds {fuel : Nat} : ∀ {es : List (Nat × κ × α)} {s : Hash κ α},
    Holds hashFcn s es → es.length ≤ fuel →
      ∃ s', iterFrom id Uthash.delFree fuel (addresses es).head? (addresses es.tail).head? s =
        some s' ∧ Holds hashFcn s' [] := by
  induction fuel with
  | zero =>
    intro es s hh hfuel
    obtain rfl := List.length_eq_zero_iff.mp (Nat.le_zero.mp hfuel)
    exact ⟨s, rfl, hh⟩
  | succ fuel ih =>
    intro es s hh hfuel
    cases es with
    | nil => exact ⟨s, rfl, hh⟩
    | cons first rest =>
      obtain ⟨s₁, hdel, hh₁, -⟩ := (show Holds hashFcn s ([] ++ first :: rest) from hh).delFree
      have hnext := hh₁.represents.nextOf_head []
      obtain ⟨s', hrest, hh'⟩ := ih hh₁ (Nat.le_of_succ_le_succ hfuel)
      refine ⟨s', ?_, hh'⟩
      rw [show (addresses (first :: rest)).head? = some first.1 from rfl, iterFrom, hdel,
        Option.bind_eq_bind, Option.bind_some, id_eq]
      rw [show (addresses (first :: rest).tail).head? = (addresses rest).head? from rfl, hnext,
        Option.bind_eq_bind, Option.bind_some]
      exact hrest

/-- The memory of no elements. -/
theorem Holds.eq_empty (hh : Holds hashFcn s []) : s = Hash.empty := by
  obtain ⟨heap, head, tbl⟩ := s
  have hheap : heap = fun _ => none := funext fun p => hh.free p List.not_mem_nil
  have hhead : head = none := hh.represents.head_eq
  have htbl : tbl = none := hh.represents.freed rfl
  rw [hheap, hhead, htbl]
  rfl

theorem Holds.freeTable (hh : Holds hashFcn s es) : Uthash.freeTable s = some Hash.empty := by
  obtain ⟨s', hrounds, hh'⟩ := hh.freeRounds (Nat.le_refl es.length)
  have hnext := hh.represents.nextOf_head []
  rw [Uthash.freeTable, iter, id_eq, hh.represents.head_eq, hnext, Option.bind_eq_bind,
    Option.bind_some, hh.represents.numItems_eq, hrounds, hh'.eq_empty]

/-- The rounds come by the elements in application order. -/
theorem Represents.visitRounds {fuel : Nat} : ∀ {left es : List (Nat × κ × α)},
    Represents hashFcn s (left ++ es) → es.length ≤ fuel →
      iterFrom Prod.fst (fun st p => some (st.1, st.2 ++ [p])) fuel (addresses es).head?
        (addresses es.tail).head? (s, addresses left) = some (s, addresses (left ++ es)) := by
  induction fuel with
  | zero =>
    intro left es _ hfuel
    obtain rfl := List.length_eq_zero_iff.mp (Nat.le_zero.mp hfuel)
    rw [List.append_nil]
    rfl
  | succ fuel ih =>
    intro left es hr hfuel
    cases es with
    | nil =>
      rw [List.append_nil]
      rfl
    | cons first rest =>
      have hr' : Represents hashFcn s ((left ++ [first]) ++ rest) := by
        rwa [List.append_assoc]
      have hrest := ih hr' (Nat.le_of_succ_le_succ hfuel)
      rw [List.append_assoc] at hrest
      rw [show (addresses (first :: rest)).head? = some first.1 from rfl, iterFrom,
        Option.bind_eq_bind, Option.bind_some]
      rw [show (addresses (first :: rest).tail).head? = (addresses rest).head? from rfl,
        hr'.nextOf_head (left ++ [first]), Option.bind_eq_bind, Option.bind_some,
        ← addresses_append]
      exact hrest

theorem Represents.visited (hr : Represents hashFcn s es) :
    Uthash.visited s = some (addresses es) := by
  have hnext := hr.nextOf_head []
  have hrounds := (show Represents hashFcn s ([] ++ es) from hr).visitRounds (Nat.le_refl es.length)
  rw [Uthash.visited, iter, hr.head_eq, hnext, Option.bind_eq_bind, Option.bind_some,
    hr.numItems_eq]
  exact congrArg (Option.map Prod.snd) hrounds

end Steps

/-! ## The range of the counts -/

/-- At no point of the run does the table have 2^28 elements, or more than 2^31 buckets. -/
structure Small (hashFcn : κ → UInt32) (ops : List (Op κ α)) : Prop where
  elements : ∀ k es, run listStep [] (ops.take k) = some es → es.length < 2 ^ 28
  buckets : ∀ k s, run (step hashFcn) Hash.empty (ops.take k) = some s → s.BucketsLe (2 ^ 31)

section Counts

variable {hashFcn : κ → UInt32} {ops : List (Op κ α)} {s : Hash κ α} {es : List (Nat × κ × α)}

theorem Small.take (h : Small hashFcn ops) (k : Nat) : Small hashFcn (ops.take k) where
  elements j es := by
    rw [List.take_take]
    exact h.elements _ es
  buckets j s := by
    rw [List.take_take]
    exact h.buckets _ s

theorem Small.length_lt (h : Small hashFcn ops) (hrun : run listStep [] ops = some es) :
    es.length < 2 ^ 28 :=
  h.elements ops.length es (by rwa [List.take_length])

theorem Holds.numItems_eq (hh : Holds hashFcn s es) {tbl : Table} (htbl : s.tbl = some tbl) :
    tbl.numItems = es.length := by
  have hitems := hh.represents.numItems_eq
  rwa [htbl] at hitems

/-- The counts that no list sees are bounded by the elements that there ever are. -/
theorem Small.counted : ∀ {es : List (Nat × κ × α)} {s : Hash κ α}, Small hashFcn ops →
    run listStep [] ops = some es → run (step hashFcn) Hash.empty ops = some s →
      s.Counted (2 ^ 28) := by
  induction ops using List.reverseRecOn with
  | nil =>
    intro es s _ _ hs tbl htbl
    obtain rfl := Option.some.inj hs
    exact absurd htbl (by simp [Hash.empty])
  | append_singleton ops op ih =>
    intro es s hsmall hes hs
    obtain ⟨es₀, s₀, _, hes₀, -, hs₀, hs', hh, hgrows⟩ := Holds.run_append_singleton hashFcn hes
    obtain rfl := Option.some.inj (hs'.symm.trans hs)
    have hinit : Small hashFcn ops := by
      have := hsmall.take ops.length
      rwa [List.take_left] at this
    refine hgrows.counted _ (fun tbl htbl => ?_) (ih hinit hes₀ hs₀)
    rw [hh.numItems_eq htbl]
    exact Nat.le_of_lt (hsmall.length_lt hes)

/-- In a small table no count leaves `unsigned`. -/
theorem Holds.inUnsigned (hh : Holds hashFcn s es) (hlength : es.length < 2 ^ 28)
    (hbuckets : s.BucketsLe (2 ^ 31)) (hcounted : s.Counted (2 ^ 28)) {tbl : Table}
    (htbl : s.tbl = some tbl) : tbl.InUnsigned := by
  have hitems := hh.numItems_eq htbl
  have hnum := hbuckets tbl htbl
  have hc := hcounted tbl htbl
  have hne : es ≠ [] := by
    intro hes
    rw [hh.represents.freed hes] at htbl
    exact absurd htbl (by simp)
  obtain ⟨_, htbl', hf, -, -⟩ := hh.represents.table hne
  obtain rfl := Option.some.inj (htbl.symm.trans htbl')
  have hlog2 : tbl.log2NumBuckets < tbl.numBuckets := by
    rw [hf.numBuckets_eq]
    exact Nat.lt_two_pow_self
  obtain ⟨chains, hb, hperm⟩ := hf.chains
  refine ⟨by omega, by omega, by omega, ?_, ?_, ?_, fun b hb' => ?_, fun b hb' => ?_⟩
  · exact Nat.lt_of_le_of_lt hc.ideal (by decide)
  · exact Nat.lt_of_le_of_lt hc.nonideal (by decide)
  · exact Nat.lt_of_le_of_lt hc.ineff (by decide)
  · obtain ⟨i, hi⟩ := List.getElem?_of_mem hb'
    have hle := hb.count_le hi
    rw [hperm.length_eq, List.length_map] at hle
    omega
  · have hmult := hc.mult b hb'
    rw [bktCapacityThresh]
    omega

/-- In a small run no count leaves `unsigned`. -/
theorem Small.inUnsigned (hsmall : Small hashFcn ops) (hrun : run listStep [] ops = some es)
    (k : Nat) (hs : run (step hashFcn) Hash.empty (ops.take k) = some s) {tbl : Table}
    (htbl : s.tbl = some tbl) : tbl.InUnsigned := by
  rw [← List.take_append_drop k ops] at hrun
  obtain ⟨es', hes', -⟩ := run_append_eq_some hrun
  obtain ⟨_, hs', hh⟩ := Holds.run hashFcn hes'
  obtain rfl := Option.some.inj (hs'.symm.trans hs)
  exact hh.inUnsigned (hsmall.elements k es' hes') (hsmall.buckets k _ hs)
    ((hsmall.take k).counted hes' hs) htbl

/-- The buckets are doubled at most once in a step. -/
theorem bucketsLe_run : ∀ {es : List (Nat × κ × α)} {s : Hash κ α},
    run listStep [] ops = some es → run (step hashFcn) Hash.empty ops = some s →
      s.BucketsLe (32 * 2 ^ ops.length) ∧ es.length ≤ ops.length := by
  induction ops using List.reverseRecOn with
  | nil =>
    intro es s hes hs
    obtain rfl := Option.some.inj hes
    obtain rfl := Option.some.inj hs
    exact ⟨fun tbl htbl => absurd htbl (by simp [Hash.empty]), Nat.le_refl 0⟩
  | append_singleton ops op ih =>
    intro es s hes hs
    obtain ⟨es₀, s₀, _, hes₀, hstep, hs₀, hs', -, hgrows⟩ :=
      Holds.run_append_singleton hashFcn hes
    obtain rfl := Option.some.inj (hs'.symm.trans hs)
    obtain ⟨hle, hlength⟩ := ih hes₀ hs₀
    have hdouble := hgrows.bucketsLe _ (Nat.le_mul_of_pos_right 32 (Nat.two_pow_pos _)) hle
    rw [List.length_append, List.length_singleton, Nat.pow_succ]
    rw [Nat.mul_comm 2, Nat.mul_assoc] at hdouble
    refine ⟨hdouble, ?_⟩
    cases op with
    | add p key value =>
      rw [listStep] at hstep
      split at hstep
      · exact absurd hstep (by simp)
      · obtain rfl := Option.some.inj hstep
        rw [List.length_append, List.length_singleton]
        exact Nat.succ_le_succ hlength
    | del p =>
      rw [listStep] at hstep
      split at hstep
      · obtain rfl := Option.some.inj hstep
        exact Nat.le_succ_of_le (Nat.le_trans (List.length_filter_le _ _) hlength)
      · exact absurd hstep (by simp)

/-- A run of at most 26 steps is small. -/
theorem Small.of_length_le (hrun : run listStep [] ops = some es) (hlength : ops.length ≤ 26) :
    Small hashFcn ops := by
  have hpart : ∀ k, ∃ es', run listStep [] (ops.take k) = some es' := by
    intro k
    rw [← List.take_append_drop k ops] at hrun
    obtain ⟨es', hes', -⟩ := run_append_eq_some hrun
    exact ⟨es', hes'⟩
  have hshort : ∀ k, (ops.take k).length ≤ 26 := fun k =>
    Nat.le_trans (List.length_take_le' k ops) hlength
  constructor
  · intro k es' hes'
    obtain ⟨s, hs, -⟩ := Holds.run hashFcn hes'
    have hle := (bucketsLe_run hes' hs).2
    have := hshort k
    omega
  · intro k s hs tbl htbl
    obtain ⟨es', hes'⟩ := hpart k
    have hle := (bucketsLe_run hes' hs).1 tbl htbl
    have hpow : 2 ^ (ops.take k).length ≤ 2 ^ 26 := Nat.pow_le_pow_right Nat.two_pos (hshort k)
    omega

end Counts

/-! ## Runs -/

/-- **Every small run of additions and deletions goes through with its counts in
`unsigned`, and leaves a table in which `HASH_FSCK` finds nothing wrong: `HASH_ITER` comes
by the elements in the order of their addition, and no other element is allocated.** -/
theorem run_intact {hashFcn : κ → UInt32} {ops : List (Op κ α)} {es : List (Nat × κ × α)}
    (hrun : run listStep [] ops = some es) (hsmall : Small hashFcn ops) :
    (∀ k s tbl, run (step hashFcn) Hash.empty (ops.take k) = some s → s.tbl = some tbl →
      tbl.InUnsigned) ∧
    ∃ s, run (step hashFcn) Hash.empty ops = some s ∧ fsck s = true ∧
      visited s = some (addresses es) ∧ ∀ p, (s.heap p).isSome ↔ p ∈ addresses es := by
  obtain ⟨s, hs, hh⟩ := Holds.run hashFcn hrun
  exact ⟨fun k _ _ hk htbl => hsmall.inUnsigned hrun k hk htbl, s, hs, hh.represents.fsck,
    hh.represents.visited, hh.isSome_iff⟩

/-- Twelve elements of one bucket, the addition of which expands the table, less one. -/
def collisions : List (Op UInt32 Unit) :=
  (List.range 12).map (fun i => .add (100 + i) (32 * i.toUInt32) ()) ++ [.del 103]

/-- The elements that remain. -/
def remaining : List (Nat × UInt32 × Unit) :=
  ((List.range 12).map fun i => (100 + i, 32 * i.toUInt32, ())).eraseIdx 3

theorem run_collisions : run listStep [] collisions = some remaining := rfl

theorem small_collisions : Small id collisions :=
  .of_length_le run_collisions (by decide)

theorem run_intact_collisions :
    (∀ k s tbl, run (step id) Hash.empty (collisions.take k) = some s → s.tbl = some tbl →
      tbl.InUnsigned) ∧
    ∃ s, run (step id) Hash.empty collisions = some s ∧ fsck s = true ∧
      visited s = some [100, 101, 102, 104, 105, 106, 107, 108, 109, 110, 111] ∧
      ∀ p, (s.heap p).isSome ↔ p ∈ addresses remaining :=
  run_intact run_collisions small_collisions

/-- **`HASH_FIND` behind every small run finds an element with the key if there is one, and
nothing otherwise, with the counts in `unsigned`.** -/
theorem run_found [DecidableEq κ] {hashFcn : κ → UInt32} {ops : List (Op κ α)}
    {es : List (Nat × κ × α)} (hrun : run listStep [] ops = some es)
    (hsmall : Small hashFcn ops) :
    (∀ k s tbl, run (step hashFcn) Hash.empty (ops.take k) = some s → s.tbl = some tbl →
      tbl.InUnsigned) ∧
    ∃ s, run (step hashFcn) Hash.empty ops = some s ∧ ∀ key, ∃ r,
      find hashFcn s key = some r ∧ (r = none ↔ ∀ e ∈ es, e.2.1 ≠ key) ∧
      ∀ p, r = some p → ∃ value, (p, key, value) ∈ es ∧
        itemOf s.heap p = some ⟨key, value, hashFcn key⟩ := by
  obtain ⟨s, hs, hh⟩ := Holds.run hashFcn hrun
  refine ⟨fun k _ _ hk htbl => hsmall.inUnsigned hrun k hk htbl, s, hs, fun key => ?_⟩
  obtain ⟨r, hfind, hsome, hnone⟩ := hh.represents.find key
  refine ⟨r, hfind, ⟨hnone, fun hall => ?_⟩, fun p hp => ?_⟩
  · cases r with
    | none => rfl
    | some p =>
      obtain ⟨value, hmem⟩ := hsome p rfl
      exact absurd rfl (hall _ hmem)
  · obtain ⟨value, hmem⟩ := hsome p hp
    exact ⟨value, hmem, hh.represents.item _ hmem⟩

theorem run_found_collisions :
    (∀ k s tbl, run (step id) Hash.empty (collisions.take k) = some s → s.tbl = some tbl →
      tbl.InUnsigned) ∧
    ∃ s, run (step id) Hash.empty collisions = some s ∧ ∀ key, ∃ r,
      find id s key = some r ∧ (r = none ↔ ∀ e ∈ remaining, e.2.1 ≠ key) ∧
      ∀ p, r = some p → ∃ value, (p, key, value) ∈ remaining ∧
        itemOf s.heap p = some ⟨key, value, key⟩ :=
  run_found run_collisions small_collisions

/-- **`destory_commands_table` behind every run frees every element once, and the table
with the last: nothing stays allocated and nothing is used after it is freed.** -/
theorem run_freed (hashFcn : κ → UInt32) {ops : List (Op κ α)} {es : List (Nat × κ × α)}
    (hrun : run listStep [] ops = some es) :
    ∃ s, run (step hashFcn) Hash.empty ops = some s ∧ freeTable s = some Hash.empty := by
  obtain ⟨s, hs, hh⟩ := Holds.run hashFcn hrun
  exact ⟨s, hs, hh.freeTable⟩

theorem run_freed_collisions : ∃ s, run (step id) Hash.empty collisions = some s ∧
    freeTable s = some Hash.empty :=
  run_freed id run_collisions

end WowProxy.Uthash
