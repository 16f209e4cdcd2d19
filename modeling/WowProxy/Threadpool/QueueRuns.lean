/-
  Threadpool/QueueRuns.lean --- the job queue over whole runs.

  Nodes are allocated, added, removed and freed in any order, by any number of callers
  that hold the mutex in turn.  A caller adds a node that is allocated and does not wait
  already, and frees one that does not wait; whatever links the node has from before are
  overwritten or never followed.  The nodes that have been added and removed are kept
  next to the queue, so that what waits can be named, and `job_num` be bounded.
-/
import WowProxy.Lib.Runs
import WowProxy.Threadpool.JobQueue

set_option autoImplicit false

namespace WowProxy

open WowProxy.Lib.LinkedList WowProxy.Lib.Runs

/-- The queue and the heap, with the nodes added to it and removed from it so far. -/
structure QueueRun (α : Type) where
  queue : JobQueue
  heap : Heap α
  added : List Nat
  removed : List Nat

/-- What a caller does. -/
inductive QueueOp (α : Type) where
  /-- `malloc`, with anything in the node -/
  | malloc (node : Nat) (cell : Cell α)
  /-- `threadpool_job_queue_add` -/
  | add (node : Nat)
  /-- `threadpool_job_queue_remove_first` -/
  | removeFirst
  /-- `free` -/
  | free (node : Nat)

namespace QueueRun

variable {α : Type}

/-- Behind `threadpool_job_queue_init`. -/
def init (heap : Heap α) : QueueRun α := { queue := .init, heap, added := [], removed := [] }

/-- The nodes that were added and not yet removed, in the order they were added in. -/
def waiting (s : QueueRun α) : List Nat := s.added.drop s.removed.length

/-- The node is allocated and its caller's own. -/
def Owned (s : QueueRun α) (node : Nat) : Prop := (s.heap node).isSome ∧ node ∉ s.waiting

instance (s : QueueRun α) (node : Nat) : Decidable (s.Owned node) :=
  inferInstanceAs (Decidable (_ ∧ _))

/-- One call. -/
def step (s : QueueRun α) : QueueOp α → Option (QueueRun α)
  | .malloc node cell =>
    if (s.heap node).isNone then some { s with heap := s.heap.write node cell } else none
  | .add node =>
    if s.Owned node then
      (threadpoolJobQueueAdd s.queue s.heap node).map fun (queue, heap) =>
        { s with queue, heap, added := s.added ++ [node] }
    else none
  | .removeFirst =>
    (threadpoolJobQueueRemoveFirst s.queue s.heap).map fun (node, queue, heap) =>
      { s with queue, heap, removed := s.removed ++ node.toList }
  | .free node => if s.Owned node then some { s with heap := s.heap.free node } else none

/-- What is promised of the queue in every state. -/
structure Sound (s : QueueRun α) : Prop where
  /-- no node waits twice -/
  nodup : s.waiting.Nodup
  /-- from the head the next links lead through the waiting nodes -/
  forward : ∀ fuel, s.queue.jobNum ≤ fuel →
    follow Cell.next s.heap fuel s.queue.head = some s.waiting
  /-- from the tail the previous links lead back through them -/
  backward : ∀ fuel, s.queue.jobNum ≤ fuel →
    follow Cell.prev s.heap fuel s.queue.tail = some s.waiting.reverse
  jobNum : s.queue.jobNum = s.waiting.length
  head_null : s.queue.head = none ↔ s.queue.jobNum = 0
  tail_null : s.queue.tail = none ↔ s.queue.jobNum = 0
  /-- nodes are removed in the order they were added in -/
  fifo : s.added = s.removed ++ s.waiting
  /-- no call follows a pointer that it must not -/
  adds : ∀ node, s.Owned node → (threadpoolJobQueueAdd s.queue s.heap node).isSome
  removes : (threadpoolJobQueueRemoveFirst s.queue s.heap).isSome
  /-- `threadpool_job_queue_empty` frees the waiting nodes, one after the other, and no
  others -/
  empties : ∃ heap, threadpoolJobQueueEmpty s.queue s.heap =
    some (s.waiting, { s.queue with jobNum := 0 }, heap) ∧
      ∀ node, heap node = if node ∈ s.waiting then none else s.heap node

/-! ## The invariant -/

/-- The queue holds what waits, behind what was removed. -/
structure Inv (s : QueueRun α) : Prop where
  fifo : s.added = s.removed ++ s.waiting
  holds : s.queue.Holds s.heap s.waiting

theorem Inv.of_append {s : QueueRun α} (ps : List Nat) (hfifo : s.added = s.removed ++ ps)
    (hholds : s.queue.Holds s.heap ps) : s.Inv := by
  have hwaiting : s.waiting = ps := by
    rw [waiting, hfifo, List.drop_left]
  exact ⟨by rw [hwaiting, hfifo], by rwa [hwaiting]⟩

theorem Inv.init (heap : Heap α) : (init heap).Inv :=
  Inv.of_append [] rfl (JobQueue.Holds.init heap)

variable {s s' : QueueRun α}

theorem Inv.step (h : s.Inv) {op : QueueOp α} (hstep : s.step op = some s') : s'.Inv := by
  obtain ⟨hfifo, hholds⟩ := h
  cases op with
  | malloc node cell =>
    obtain ⟨hnew, hstep⟩ := Option.ite_none_right_eq_some.mp hstep
    obtain rfl := Option.some.inj hstep
    refine Inv.of_append s.waiting hfifo (hholds.congr fun p hp => Heap.write_of_ne ?_)
    rintro rfl
    obtain ⟨c, hc⟩ := hholds.links.chain.live p hp
    rw [hc] at hnew
    exact absurd hnew (by simp)
  | add node =>
    obtain ⟨⟨hlive, hnew⟩, hstep⟩ := Option.ite_none_right_eq_some.mp hstep
    obtain ⟨c, hc⟩ := Option.isSome_iff_exists.mp hlive
    obtain ⟨queue, heap, hadd, hholds', -⟩ := threadpoolJobQueueAdd_holds hholds hc hnew
    rw [hadd, Option.map_some] at hstep
    obtain rfl := Option.some.inj hstep
    refine Inv.of_append (s.waiting ++ [node]) ?_ hholds'
    show s.added ++ [node] = s.removed ++ (s.waiting ++ [node])
    rw [← List.append_assoc, ← hfifo]
  | removeFirst =>
    simp only [QueueRun.step] at hstep
    cases hwaiting : s.waiting with
    | nil =>
      rw [hwaiting] at hfifo hholds
      rw [threadpoolJobQueueRemoveFirst_nil hholds, Option.map_some] at hstep
      obtain rfl := Option.some.inj hstep
      refine Inv.of_append [] ?_ hholds
      show s.added = s.removed ++ [] ++ []
      rw [List.append_nil, hfifo]
    | cons p ps =>
      rw [hwaiting] at hfifo hholds
      obtain ⟨queue, heap, hremove, hholds', -⟩ := threadpoolJobQueueRemoveFirst_holds hholds
      rw [hremove, Option.map_some] at hstep
      obtain rfl := Option.some.inj hstep
      refine Inv.of_append ps ?_ hholds'
      show s.added = s.removed ++ [p] ++ ps
      rw [List.append_assoc, List.singleton_append, hfifo]
  | free node =>
    obtain ⟨⟨-, hnew⟩, hstep⟩ := Option.ite_none_right_eq_some.mp hstep
    obtain rfl := Option.some.inj hstep
    exact Inv.of_append s.waiting hfifo
      (hholds.congr fun p hp => Heap.free_of_ne fun heq => hnew (heq ▸ hp))

/-! ## Whole runs -/

theorem Inv.sound (h : s.Inv) : s.Sound := by
  obtain ⟨hfifo, hnum, hlinks⟩ := h
  have hnil : s.waiting = [] ↔ s.queue.jobNum = 0 := by
    rw [hnum, List.length_eq_zero_iff]
  refine ⟨hlinks.nodup, ?_, ?_, hnum, ?_, ?_, hfifo, ?_, ?_, ?_⟩
  · intro fuel hfuel
    exact hlinks.follow_next (hnum ▸ hfuel)
  · intro fuel hfuel
    exact hlinks.follow_prev (hnum ▸ hfuel)
  · rw [hlinks.head_eq, List.head?_eq_none_iff, hnil]
  · rw [hlinks.tail_eq, List.getLast?_eq_none_iff, hnil]
  · rintro node ⟨hlive, hnew⟩
    obtain ⟨c, hc⟩ := Option.isSome_iff_exists.mp hlive
    obtain ⟨queue, heap, hadd, -⟩ := threadpoolJobQueueAdd_holds ⟨hnum, hlinks⟩ hc hnew
    rw [hadd]
    rfl
  · cases hwaiting : s.waiting with
    | nil =>
      rw [hwaiting] at hnum hlinks
      rw [threadpoolJobQueueRemoveFirst_nil ⟨hnum, hlinks⟩]
      rfl
    | cons p ps =>
      rw [hwaiting] at hnum hlinks
      obtain ⟨queue, heap, hremove, -⟩ := threadpoolJobQueueRemoveFirst_holds ⟨hnum, hlinks⟩
      rw [hremove]
      rfl
  · obtain ⟨heap, hempty, hgone, hkept⟩ := threadpoolJobQueueEmpty_holds ⟨hnum, hlinks⟩
    refine ⟨heap, hempty, fun node => ?_⟩
    split
    · rename_i hwaits
      exact hgone node hwaits
    · rename_i hfree
      exact hkept node hfree

/-- **The queue is sound in every state that any run from an empty queue reaches.** -/
theorem sound_of_run (heap : Heap α) (ops : List (QueueOp α)) (s : QueueRun α)
    (hrun : run step (init heap) ops = some s) : s.Sound :=
  (run_preserves (fun _ _ _ h hstep => h.step hstep) (Inv.init heap) hrun).sound

theorem added_of_step {s s' : QueueRun α} {op : QueueOp α} (h : s.step op = some s') :
    s'.added.length ≤ s.added.length + 1 := by
  cases op with
  | malloc node cell =>
    rw [step] at h
    split at h
    · obtain rfl := Option.some.inj h
      exact Nat.le_succ _
    · exact absurd h (by simp)
  | add node =>
    rw [step] at h
    split at h
    · obtain ⟨⟨queue, heap⟩, -, rfl⟩ := Option.map_eq_some_iff.mp h
      exact Nat.le_of_eq List.length_append
    · exact absurd h (by simp)
  | removeFirst =>
    rw [step] at h
    obtain ⟨⟨node, queue, heap⟩, -, rfl⟩ := Option.map_eq_some_iff.mp h
    exact Nat.le_succ _
  | free node =>
    rw [step] at h
    split at h
    · obtain rfl := Option.some.inj h
      exact Nat.le_succ _
    · exact absurd h (by simp)

/-- `job_num` counts no more than the nodes that were added, and these no more than the calls:
it does not leave `int` in a run of fewer than `2^31` calls. -/
theorem counts_of_run {heap : Heap α} {ops : List (QueueOp α)} {s : QueueRun α}
    (hrun : run step (init heap) ops = some s) :
    s.queue.jobNum ≤ s.added.length ∧ s.added.length ≤ ops.length := by
  have hadded : s.added.length ≤ ops.length :=
    run_history (fun ops s => s.added.length ≤ ops.length) (Nat.le_refl 0)
      (fun ops s op s' h hstep => by
        rw [List.length_append, List.length_singleton]
        exact Nat.le_trans (added_of_step hstep) (Nat.succ_le_succ h)) hrun
  refine ⟨?_, hadded⟩
  rw [(sound_of_run heap ops s hrun).jobNum, waiting, List.length_drop]
  omega

/-- Three nodes through the queue, the first of them at its address again. -/
def sampleOps : List (QueueOp Unit) :=
  [.malloc 1 ⟨(), some 7, some 8⟩, .malloc 2 ⟨(), none, none⟩, .add 1, .add 2, .removeFirst,
    .free 1, .malloc 1 ⟨(), none, some 2⟩, .add 1, .removeFirst]

theorem sound_of_sampleOps :
    ∃ s, run step (init fun _ => none) sampleOps = some s ∧ s.waiting = [1] ∧ s.Sound := by
  have hruns : (run step (init fun _ => none) sampleOps).map waiting = some [1] := by decide
  obtain ⟨s, hs, hwaiting⟩ := Option.map_eq_some_iff.mp hruns
  exact ⟨s, hs, hwaiting, sound_of_run _ sampleOps s hs⟩

end QueueRun

end WowProxy
