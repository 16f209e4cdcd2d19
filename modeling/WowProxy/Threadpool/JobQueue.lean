/-
  Threadpool/JobQueue.lean --- the job queue of `threadpool/threadpool.c`: a
  doubly linked list of `threadpool_job_node`s next to a count, `job_num`, which
  is what every function of the queue branches on.

  A node is named by its allocation.  A dereference of `NULL` or of a freed node
  has no value.  `JobQueue.Holds` says which nodes a queue holds in which order;
  by the three specifications below the functions are those of a first-in
  first-out queue as long as it holds.  `job_num` is a number here and an `int` in the
  source: it never exceeds the number of nodes that were added (`counts_of_run` of
  `Threadpool/QueueRuns`), so the two agree below `2^31` additions.
-/
import WowProxy.Lib.LinkedList

set_option autoImplicit false

namespace WowProxy

open WowProxy.Lib.LinkedList

/-- `threadpool_job_queue`, without its semaphore. -/
structure JobQueue where
  jobNum : Nat
  head : Option Nat
  tail : Option Nat
  deriving DecidableEq

/-- `threadpool_job_queue_init`. -/
def JobQueue.init : JobQueue := { jobNum := 0, head := none, tail := none }

section Functions

variable {α : Type}

/-- `threadpool_job_queue_add`, up to its `sem_post`. -/
def threadpoolJobQueueAdd (q : JobQueue) (h : Heap α) (newNode : Nat) :
    Option (JobQueue × Heap α) :=
  match h newNode with
  | none => none
  | some node =>
    match q.jobNum with
    | 0 =>
      some ({ jobNum := 1, head := some newNode, tail := some newNode },
        h.write newNode { node with prev := none, next := none })
    | n + 1 =>
      match q.tail with
      | none => none
      | some tail =>
        let h := h.write newNode { node with prev := some tail, next := none }
        match h tail with
        | none => none
        | some last =>
          some ({ q with jobNum := n + 2, tail := some newNode },
            h.write tail { last with next := some newNode })

/-- `threadpool_job_queue_remove_first`: the node, `none` for the returned
`NULL`. -/
def threadpoolJobQueueRemoveFirst (q : JobQueue) (h : Heap α) :
    Option (Option Nat × JobQueue × Heap α) :=
  match q.jobNum with
  | 0 => some (none, q, h)
  | 1 => some (q.head, { jobNum := 0, head := none, tail := none }, h)
  | n + 2 =>
    match q.head with
    | none => none
    | some firstJob =>
      match (h firstJob).bind Cell.next with
      | none => none
      | some second =>
        match h second with
        | none => none
        | some node =>
          some (some firstJob, { q with jobNum := n + 1, head := some second },
            h.write second { node with prev := none })

/-- The loop of `threadpool_job_queue_empty`: the nodes it frees, in order. -/
def emptyLoop : (jobNum : Nat) → (current : Option Nat) → Heap α → Option (List Nat × Heap α)
  | 0, _, h => some ([], h)
  | _ + 1, none, _ => none
  | n + 1, some current, h =>
    match h current with
    | none => none
    | some node =>
      (emptyLoop n node.next (h.free current)).map fun (freed, h) => (current :: freed, h)

/-- `threadpool_job_queue_empty`: the nodes it frees.  The end pointers keep their
values. -/
def threadpoolJobQueueEmpty (q : JobQueue) (h : Heap α) :
    Option (List Nat × JobQueue × Heap α) :=
  (emptyLoop q.jobNum q.head h).map fun (freed, h) => (freed, { q with jobNum := 0 }, h)

/-! ## The count -/

theorem threadpoolJobQueueAdd_jobNum {q q' : JobQueue} {h h' : Heap α} {new : Nat}
    (hadd : threadpoolJobQueueAdd q h new = some (q', h')) : q'.jobNum = q.jobNum + 1 := by
  unfold threadpoolJobQueueAdd at hadd
  split at hadd
  · exact absurd hadd (by simp)
  · split at hadd
    · rename_i hnum
      rw [hnum, ← (Prod.mk.inj (Option.some.inj hadd)).1]
    · rename_i n hnum
      split at hadd
      · exact absurd hadd (by simp)
      · dsimp only at hadd
        split at hadd
        · exact absurd hadd (by simp)
        · rw [hnum, ← (Prod.mk.inj (Option.some.inj hadd)).1]

theorem threadpoolJobQueueRemoveFirst_jobNum {q q' : JobQueue} {h h' : Heap α}
    {node : Option Nat} (hremove : threadpoolJobQueueRemoveFirst q h = some (node, q', h')) :
    q'.jobNum = q.jobNum - 1 := by
  unfold threadpoolJobQueueRemoveFirst at hremove
  split at hremove
  · rename_i hnum
    obtain ⟨-, rfl, -⟩ := (by simpa using hremove : _ ∧ q = q' ∧ _)
    rw [hnum]
  · rename_i hnum
    obtain ⟨-, rfl, -⟩ := (by simpa using hremove : _ ∧ _ = q' ∧ _)
    rw [hnum]
  · rename_i n hnum
    split at hremove
    · exact absurd hremove (by simp)
    · split at hremove
      · exact absurd hremove (by simp)
      · split at hremove
        · exact absurd hremove (by simp)
        · obtain ⟨-, rfl, -⟩ := (by simpa using hremove : _ ∧ _ = q' ∧ _)
          rw [hnum]
          rfl

/-! ## What the queue holds -/

/-- The queue holds the nodes `ps`, the first of them first. -/
structure JobQueue.Holds (q : JobQueue) (h : Heap α) (ps : List Nat) : Prop where
  jobNum_eq : q.jobNum = ps.length
  links : Represents h q.head q.tail ps

/-- The same nodes are allocated, with the same jobs. -/
def SameJobs (h h' : Heap α) : Prop := ∀ p, (h' p).map Cell.value = (h p).map Cell.value

theorem SameJobs.refl (h : Heap α) : SameJobs h h := fun _ => rfl

theorem SameJobs.trans {h h' h'' : Heap α} (first : SameJobs h h') (second : SameJobs h' h'') :
    SameJobs h h'' :=
  fun p => (second p).trans (first p)

/-- Only links are written. -/
theorem SameJobs.write {h : Heap α} {p : Nat} {c c' : Cell α} (hc : h p = some c)
    (hvalue : c'.value = c.value) : SameJobs h (h.write p c') := by
  intro q
  by_cases hq : q = p
  · rw [hq, Heap.write_self, hc, Option.map_some, Option.map_some, hvalue]
  · rw [Heap.write_of_ne hq]

theorem SameJobs.live {h h' : Heap α} (hsame : SameJobs h h') {p : Nat} {c : Cell α}
    (hc : h p = some c) : ∃ c', h' p = some c' ∧ c'.value = c.value := by
  have hp := hsame p
  rw [hc, Option.map_some] at hp
  exact Option.map_eq_some_iff.mp hp

theorem JobQueue.Holds.init (h : Heap α) : JobQueue.init.Holds h [] :=
  ⟨rfl, Represents.nil h⟩

/-- Changes away from the nodes of the queue do not matter. -/
theorem JobQueue.Holds.congr {q : JobQueue} {h h' : Heap α} {ps : List Nat} (hq : q.Holds h ps)
    (hsame : ∀ p ∈ ps, h' p = h p) : q.Holds h' ps :=
  ⟨hq.jobNum_eq, hq.links.congr hsame⟩

/-! ## The functions on a queue that holds nodes -/

/-- `threadpool_job_queue_add` puts the node behind all others. -/
theorem threadpoolJobQueueAdd_holds {q : JobQueue} {h : Heap α} {ps : List Nat} {new : Nat}
    {c : Cell α} (hq : q.Holds h ps) (hc : h new = some c) (hnew : new ∉ ps) :
    ∃ q' h', threadpoolJobQueueAdd q h new = some (q', h') ∧ q'.Holds h' (ps ++ [new]) ∧
      SameJobs h h' := by
  obtain ⟨hnum, hrep⟩ := hq
  unfold threadpoolJobQueueAdd
  cases ps with
  | nil =>
    rw [hc, hnum]
    exact ⟨_, _, rfl, ⟨rfl, Represents.single h new c.value⟩, SameJobs.write hc rfl⟩
  | cons p ps =>
    obtain ⟨last, hlast⟩ : ∃ last, (p :: ps).getLast? = some last :=
      ⟨_, List.getLast?_eq_getLast_of_ne_nil (List.cons_ne_nil p ps)⟩
    have htail : q.tail = some last := by rw [hrep.tail_eq, hlast]
    have hmem : last ∈ p :: ps := List.mem_of_getLast? hlast
    obtain ⟨lastNode, hlastNode⟩ := hrep.chain.live last hmem
    have hne : last ≠ new := fun heq => hnew (heq ▸ hmem)
    have hwritten : SameJobs h (h.write new { c with prev := some last, next := none }) :=
      SameJobs.write hc rfl
    have hlinked : h.write new { c with prev := some last, next := none } last = some lastNode := by
      rw [Heap.write_of_ne hne, hlastNode]
    simp only [hc, hnum, List.length_cons, htail, hlinked]
    rw [htail] at hrep
    refine ⟨_, _, rfl, ⟨?_, hrep.snoc hlastNode hnew c.value⟩,
      hwritten.trans (SameJobs.write hlinked rfl)⟩
    rw [List.length_append]
    rfl

/-- `threadpool_job_queue_remove_first` takes the first node. -/
theorem threadpoolJobQueueRemoveFirst_holds {q : JobQueue} {h : Heap α} {p : Nat}
    {ps : List Nat} (hq : q.Holds h (p :: ps)) :
    ∃ q' h', threadpoolJobQueueRemoveFirst q h = some (some p, q', h') ∧ q'.Holds h' ps ∧
      SameJobs h h' := by
  obtain ⟨hnum, hrep⟩ := hq
  obtain ⟨hhead, c, hc, hnext⟩ := hrep.first
  unfold threadpoolJobQueueRemoveFirst
  cases ps with
  | nil =>
    rw [hnum]
    exact ⟨_, _, by rw [← hhead]; rfl, ⟨rfl, Represents.nil h⟩, SameJobs.refl h⟩
  | cons second ps =>
    obtain ⟨node, hnode⟩ := hrep.chain.2.live second List.mem_cons_self
    have hsecond : (h p).bind Cell.next = some second := by rw [hc]; exact hnext
    simp only [hnum, List.length_cons, hhead, hsecond, hnode]
    exact ⟨_, _, rfl, ⟨rfl, hrep.tail hnode⟩, SameJobs.write hnode rfl⟩

/-- An empty queue is left as it is. -/
theorem threadpoolJobQueueRemoveFirst_nil {q : JobQueue} {h : Heap α} (hq : q.Holds h []) :
    threadpoolJobQueueRemoveFirst q h = some (none, q, h) := by
  unfold threadpoolJobQueueRemoveFirst
  rw [hq.jobNum_eq]
  rfl

/-- The loop frees the nodes it is given the count of. -/
theorem emptyLoop_chain {ps : List Nat} :
    ∀ {prev : Option Nat} {h : Heap α}, Chain h prev ps → ps.Nodup →
      ∃ h', emptyLoop ps.length ps.head? h = some (ps, h') ∧ (∀ p ∈ ps, h' p = none) ∧
        ∀ p, p ∉ ps → h' p = h p := by
  induction ps with
  | nil => intro prev h _ _; exact ⟨h, rfl, by simp, fun _ _ => rfl⟩
  | cons p ps ih =>
    intro prev h hchain hnodup
    obtain ⟨⟨c, hc, -, hnext⟩, hrest⟩ := hchain
    obtain ⟨hp, hnodup⟩ := List.nodup_cons.mp hnodup
    have hfreed : Chain (h.free p) (some p) ps :=
      hrest.congr fun q hq => Heap.free_of_ne fun heq => hp (heq ▸ hq)
    obtain ⟨h', hloop, hgone, hkept⟩ := ih hfreed hnodup
    refine ⟨h', ?_, ?_, ?_⟩
    · simp only [List.length_cons, List.head?_cons, emptyLoop, hc, hnext, hloop, Option.map_some]
    · intro q hq
      rcases List.mem_cons.mp hq with rfl | hq
      · rw [hkept q hp, Heap.free_self]
      · exact hgone q hq
    · intro q hq
      rw [List.mem_cons, not_or] at hq
      rw [hkept q hq.2, Heap.free_of_ne hq.1]

/-- `threadpool_job_queue_empty` frees the nodes of the queue and no others. -/
theorem threadpoolJobQueueEmpty_holds {q : JobQueue} {h : Heap α} {ps : List Nat}
    (hq : q.Holds h ps) :
    ∃ h', threadpoolJobQueueEmpty q h = some (ps, { q with jobNum := 0 }, h') ∧
      (∀ p ∈ ps, h' p = none) ∧ ∀ p, p ∉ ps → h' p = h p := by
  obtain ⟨h', hloop, hgone, hkept⟩ := emptyLoop_chain hq.links.chain hq.links.nodup
  refine ⟨h', ?_, hgone, hkept⟩
  rw [threadpoolJobQueueEmpty, hq.jobNum_eq, hq.links.head_eq, hloop]
  rfl

end Functions

end WowProxy
