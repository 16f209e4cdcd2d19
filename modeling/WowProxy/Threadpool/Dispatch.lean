/-
  Threadpool/Dispatch.lean --- from `threadpool_add_work` to the call of a job's
  function: every job goes to one worker, in the order in which they were added.

  Three invariants, each kept by every step.  `LockInv`: the mutex belongs to the
  thread that is in front of its release.  `NodeInv`: the nodes that have been
  added are those that were handed out, in this order, and behind them those in
  the queue.  `TokenInv`: until `threadpool_destroy` is entered, the semaphore and
  the workers that have passed it account for the jobs of the queue, so none of
  them finds it empty.
-/
import WowProxy.Threadpool.Pool

set_option autoImplicit false

namespace WowProxy.Pool

open WowProxy.Lib.LinkedList WowProxy.Lib.Families WowProxy.Lib.Runs

variable {n : Nat} {α : Type}

/-! ## The mutex -/

/-- Who has the mutex. -/
structure LockInv (s : Pool n α) : Prop where
  main : s.main.locks = true ↔ s.mutex = some .main
  worker : ∀ i, (s.workers i).locks = true ↔ s.mutex = some (.worker i)

theorem LockInv.init : (init : Pool n α).LockInv :=
  ⟨by simp [Pool.init, MainPc.locks], by simp [Pool.init, WorkerPc.locks]⟩

/-- The main thread moves without locking or unlocking. -/
theorem LockInv.setMain {s s' : Pool n α} (h : s.LockInv) (hmutex : s'.mutex = s.mutex)
    (hworkers : s'.workers = s.workers) (hlocks : s'.main.locks = s.main.locks) : s'.LockInv := by
  refine ⟨?_, ?_⟩
  · rw [hlocks, hmutex]
    exact h.main
  · intro i
    rw [hworkers, hmutex]
    exact h.worker i

/-- A worker moves without locking or unlocking. -/
theorem LockInv.move {s s' : Pool n α} (h : s.LockInv) {i : Fin n} {pc : WorkerPc}
    (hmain : s'.main = s.main) (hmutex : s'.mutex = s.mutex)
    (hworkers : s'.workers = Function.update s.workers i pc)
    (hlocks : pc.locks = (s.workers i).locks) : s'.LockInv := by
  refine ⟨by rw [hmain, hmutex]; exact h.main, ?_⟩
  intro j
  rw [hworkers, hmutex]
  by_cases hj : j = i
  · rw [hj, Function.update_self, hlocks]
    exact h.worker i
  · rw [Function.update_of_ne hj]
    exact h.worker j

/-- A thread that has the mutex gives it back. -/
theorem LockInv.unlock {s : Pool n α} (h : s.LockInv) {i : Fin n} {pc : WorkerPc}
    (hhas : (s.workers i).locks = true) (hpc : pc.locks = false) :
    ({ s with mutex := none }.setPc i pc).LockInv := by
  have hmutex := (h.worker i).mp hhas
  refine ⟨?_, ?_⟩
  · have hmain : ¬ s.main.locks = true := by
      rw [h.main, hmutex]
      simp
    simpa [Pool.setPc] using hmain
  · intro j
    by_cases hj : j = i
    · rw [hj, workers_setPc_self, hpc]
      simp [Pool.setPc]
    · rw [workers_setPc_of_ne _ hj]
      have hother : ¬ (s.workers j).locks = true := by
        rw [h.worker j, hmutex]
        simpa using Ne.symm hj
      simpa [Pool.setPc] using hother

/-- A worker takes the mutex that nobody has. -/
theorem LockInv.lock {s : Pool n α} (h : s.LockInv) {i : Fin n} {pc : WorkerPc}
    (hfree : s.mutex = none) (hpc : pc.locks = true) :
    ({ s with mutex := some (.worker i) }.setPc i pc).LockInv := by
  refine ⟨?_, ?_⟩
  · have hmain : ¬ s.main.locks = true := by
      rw [h.main, hfree]
      simp
    simpa [Pool.setPc] using hmain
  · intro j
    by_cases hj : j = i
    · rw [hj, workers_setPc_self, hpc]
      simp [Pool.setPc]
    · rw [workers_setPc_of_ne _ hj]
      have hother : ¬ (s.workers j).locks = true := by
        rw [h.worker j, hfree]
        simp
      simpa [Pool.setPc, Ne.symm hj] using hother

theorem LockInv.step {s s' : Pool n α} {l : PoolLabel n α} (h : s.LockInv)
    (hstep : s.step l = some s') : s'.LockInv := by
  cases took_of_step hstep with
  | addWork hmain | destroy hmain | mainAdd hmain | post hmain | bypass hmain
  | bypassed hmain | join hmain | empty hmain => exact h.setMain rfl rfl (by rw [hmain]; rfl)
  | mainLock hmain hfree =>
    refine ⟨by simp [MainPc.locks], fun i => ?_⟩
    have hother : ¬ (s.workers i).locks = true := by
      rw [h.worker i, hfree]
      simp
    simpa using hother
  | mainUnlock hmain =>
    have hmutex : s.mutex = some .main := h.main.mp (by rw [hmain]; rfl)
    refine ⟨by simp [MainPc.locks], fun i => ?_⟩
    have hother : ¬ (s.workers i).locks = true := by
      rw [h.worker i, hmutex]
      simp
    simpa using hother
  | test hpc | woken hpc => exact h.move rfl rfl rfl (by rw [hpc]; split <;> rfl)
  | wait hpc | remove hpc | call hpc | back hpc | free hpc =>
    exact h.move rfl rfl rfl (congrArg WorkerPc.locks hpc).symm
  | lock hpc hfree => exact h.lock hfree rfl
  | unlockNull hpc | unlock hpc => exact h.unlock (congrArg WorkerPc.locks hpc) rfl

/-! ## The workers that have been joined -/

/-- The workers that the main thread has joined have left their loop. -/
def JoinInv (s : Pool n α) : Prop :=
  ∀ j : Fin n, j.val < s.main.joined n → s.workers j = .exited

theorem JoinInv.init : (init : Pool n α).JoinInv := fun j hj => absurd hj (Nat.not_lt_zero j)

/-- At the end of `threadpool_destroy` every worker is behind its loop. -/
theorem JoinInv.exited {s : Pool n α} (h : s.JoinInv) (hmain : s.main = .destroyed)
    (i : Fin n) : s.workers i = .exited :=
  h i (by rw [hmain]; exact i.isLt)

/-- A worker that is not behind its loop moves. -/
theorem JoinInv.move {s s' : Pool n α} (h : s.JoinInv) {i : Fin n} {pc : WorkerPc}
    (hmain : s'.main = s.main) (hworkers : s'.workers = Function.update s.workers i pc)
    (hpc : s.workers i ≠ .exited) : s'.JoinInv := by
  intro j hj
  rw [hmain] at hj
  have hne : j ≠ i := by
    rintro rfl
    exact hpc (h j hj)
  rw [hworkers, Function.update_of_ne hne]
  exact h j hj

theorem JoinInv.step {s s' : Pool n α} {l : PoolLabel n α} (h : s.JoinInv)
    (hstep : s.step l = some s') : s'.JoinInv := by
  have hother (pc : MainPc) (hpc : pc.joined n = 0) (s' : Pool n α) (hs' : s'.main = pc) :
      s'.JoinInv := by
    intro j hj
    rw [hs', hpc] at hj
    exact absurd hj (Nat.not_lt_zero j)
  cases took_of_step hstep with
  | addWork | destroy | mainLock | mainAdd | post | mainUnlock | bypass | bypassed =>
    exact hother _ rfl _ rfl
  | @join i hmain hi hexited =>
    intro j hj
    rcases Nat.lt_succ_iff_lt_or_eq.mp hj with hlt | heq
    · exact h j (by rw [hmain]; exact hlt)
    · obtain rfl : j = ⟨i, hi⟩ := Fin.ext heq
      exact hexited
  | @empty i freed queue heap hmain hi =>
    intro j _
    refine h j ?_
    rw [hmain]
    exact Nat.lt_of_lt_of_le j.isLt (Nat.le_of_not_lt hi)
  | test hpc | wait hpc | woken hpc | lock hpc | remove hpc | unlockNull hpc | unlock hpc
  | call hpc | back hpc | free hpc => exact h.move rfl rfl (by rw [hpc]; simp)

/-! ## The nodes -/

/-- The part of the state that is about nodes, apart from the threads. -/
def nodes (s : Pool n α) :
    Heap α × List α × JobQueue × List Nat × List (Fin n × Nat) × List Nat × List Nat :=
  (s.heap, s.jobs, s.queue, s.added, s.handed, s.ran, s.discarded)

/-- Where every node is. -/
structure NodeInv (s : Pool n α) : Prop where
  queued : s.main ≠ .destroyed →
    s.discarded = [] ∧ ∃ ps, s.queue.Holds s.heap ps ∧ s.handed.map Prod.snd ++ ps = s.added
  emptied : s.main = .destroyed → s.handed.map Prod.snd ++ s.discarded = s.added
  nodup : s.added.Nodup
  /-- A node keeps the job it was allocated for. -/
  job_eq : ∀ p c, s.heap p = some c → s.jobs[p]? = some c.value
  allocated : ∀ p ∈ s.added, p < s.jobs.length
  main : ∀ p, s.main.node? = some p → p < s.jobs.length ∧ p ∉ s.added ∧ ∃ c, s.heap p = some c
  workers : ∀ i p, (s.workers i).node? = some p → (i, p) ∈ s.handed ∧ ∃ c, s.heap p = some c
  ran_nodup : s.ran.Nodup
  ran_handed : ∀ p ∈ s.ran, ∃ i, (i, p) ∈ s.handed
  ran_iff : ∀ i p, (i, p) ∈ s.handed → (p ∈ s.ran ↔ (s.workers i).due? ≠ some p)

namespace NodeInv

theorem init : (Pool.init : Pool n α).NodeInv where
  queued _ := ⟨rfl, [], JobQueue.Holds.init _, rfl⟩
  emptied h := absurd h (by simp [Pool.init])
  nodup := List.nodup_nil
  job_eq _ _ h := absurd h (by simp [Pool.init])
  allocated _ h := absurd h List.not_mem_nil
  main _ h := absurd h (by simp [Pool.init, MainPc.node?])
  workers _ _ h := absurd h (by simp [Pool.init, WorkerPc.node?])
  ran_nodup := List.nodup_nil
  ran_handed _ h := absurd h List.not_mem_nil
  ran_iff _ _ h := absurd h List.not_mem_nil

variable {s : Pool n α} (h : s.NodeInv)
include h

/-- What has been handed out is the first part of what has been added. -/
theorem handed_prefix : ∃ rest, s.handed.map Prod.snd ++ rest = s.added := by
  by_cases hmain : s.main = .destroyed
  · exact ⟨_, h.emptied hmain⟩
  · obtain ⟨-, ps, -, hps⟩ := h.queued hmain
    exact ⟨ps, hps⟩

theorem mem_added {i : Fin n} {p : Nat} (hp : (i, p) ∈ s.handed) : p ∈ s.added := by
  obtain ⟨rest, hrest⟩ := h.handed_prefix
  rw [← hrest]
  exact List.mem_append_left _ (List.mem_map_of_mem hp)

/-- A node goes to one worker. -/
theorem handed_unique {i j : Fin n} {p : Nat} (hi : (i, p) ∈ s.handed) (hj : (j, p) ∈ s.handed) :
    i = j := by
  obtain ⟨rest, hrest⟩ := h.handed_prefix
  have hnodup : (s.handed.map Prod.snd).Nodup := by
    have hall := h.nodup
    rw [← hrest] at hall
    exact hall.of_append_left
  exact congrArg Prod.fst (List.inj_on_of_nodup_map hnodup hi hj rfl)

/-- Linking nodes does not change their jobs. -/
theorem job_eq_of_same {heap : Heap α} (hsame : SameJobs s.heap heap) (p : Nat) (c : Cell α)
    (hc : heap p = some c) : s.jobs[p]? = some c.value := by
  have hp := hsame p
  rw [hc, Option.map_some] at hp
  obtain ⟨c', hc', hvalue⟩ := Option.map_eq_some_iff.mp hp.symm
  rw [h.job_eq p c' hc', hvalue]

/-- A node that was handed out is not in the queue. -/
theorem not_queued {ps : List Nat} (hps : s.handed.map Prod.snd ++ ps = s.added) {i : Fin n}
    {p : Nat} (hhanded : (i, p) ∈ s.handed) : p ∉ ps := by
  intro hmem
  have hall := h.nodup
  rw [← hps] at hall
  exact (List.nodup_append.mp hall).2.2 p (List.mem_map_of_mem hhanded) p hmem rfl

/-- Nor is the node the main thread has not added yet. -/
theorem main_not_queued {ps : List Nat} (hps : s.handed.map Prod.snd ++ ps = s.added) {p : Nat}
    (hp : s.main.node? = some p) : p ∉ ps := fun hmem =>
  (h.main p hp).2.1 (hps ▸ List.mem_append_right _ hmem)

/-- The main thread moves, and no node changes hands. -/
theorem setMain {s' : Pool n α} (hnodes : s'.nodes = s.nodes) (hworkers : s'.workers = s.workers)
    (hmain : s.main ≠ .destroyed) (hmain' : s'.main ≠ .destroyed)
    (hnode : s'.main.node? = none ∨ s'.main.node? = s.main.node?) : s'.NodeInv := by
  simp only [nodes, Prod.mk.injEq] at hnodes
  obtain ⟨hheap, hjobs, hqueue, hadded, hhanded, hran, hdiscarded⟩ := hnodes
  constructor
  case queued =>
    intro _
    rw [hdiscarded, hqueue, hheap, hhanded, hadded]
    exact h.queued hmain
  case emptied => exact fun hdestroyed => absurd hdestroyed hmain'
  case nodup => rw [hadded]; exact h.nodup
  case job_eq => rw [hheap, hjobs]; exact h.job_eq
  case allocated => rw [hadded, hjobs]; exact h.allocated
  case main =>
    intro p hp
    rw [hjobs, hadded, hheap]
    rcases hnode with hnone | hsame
    · rw [hnone] at hp
      exact absurd hp (by simp)
    · exact h.main p (by rw [← hsame, hp])
  case workers => rw [hworkers, hhanded, hheap]; exact h.workers
  case ran_nodup => rw [hran]; exact h.ran_nodup
  case ran_handed => rw [hran, hhanded]; exact h.ran_handed
  case ran_iff => rw [hhanded, hran, hworkers]; exact h.ran_iff

/-- A worker moves, and keeps the node it has or has had none. -/
theorem move {s' : Pool n α} {i : Fin n} {pc : WorkerPc} (hnodes : s'.nodes = s.nodes)
    (hmain : s'.main = s.main) (hworkers : s'.workers = Function.update s.workers i pc)
    (hnode : pc.node? = (s.workers i).node?) (hdue : pc.due? = (s.workers i).due?) :
    s'.NodeInv := by
  simp only [nodes, Prod.mk.injEq] at hnodes
  obtain ⟨hheap, hjobs, hqueue, hadded, hhanded, hran, hdiscarded⟩ := hnodes
  constructor
  case queued => rw [hmain, hdiscarded, hqueue, hheap, hhanded, hadded]; exact h.queued
  case emptied => rw [hmain, hdiscarded, hhanded, hadded]; exact h.emptied
  case nodup => rw [hadded]; exact h.nodup
  case job_eq => rw [hheap, hjobs]; exact h.job_eq
  case allocated => rw [hadded, hjobs]; exact h.allocated
  case main => rw [hmain, hjobs, hadded, hheap]; exact h.main
  case workers =>
    intro j p hp
    rw [hhanded, hheap]
    rw [hworkers] at hp
    by_cases hj : j = i
    · rw [hj, Function.update_self, hnode] at hp
      rw [hj]
      exact h.workers i p hp
    · rw [Function.update_of_ne hj] at hp
      exact h.workers j p hp
  case ran_nodup => rw [hran]; exact h.ran_nodup
  case ran_handed => rw [hran, hhanded]; exact h.ran_handed
  case ran_iff =>
    intro j p hp
    rw [hhanded] at hp
    rw [hran, hworkers, h.ran_iff j p hp]
    by_cases hj : j = i
    · rw [hj, Function.update_self, hdue]
    · rw [Function.update_of_ne hj]

/-- A node is allocated. -/
theorem addWork (hmain : s.main = .ready) (job : α) :
    ({ s with
      heap := s.heap.write s.jobs.length ⟨job, none, none⟩, jobs := s.jobs ++ [job],
      main := .locking s.jobs.length } : Pool n α).NodeInv := by
  have hfresh : ∀ p ∈ s.added, p ≠ s.jobs.length := fun p hp => (h.allocated p hp).ne
  refine ⟨?_, by simp, h.nodup, ?_, ?_, ?_, ?_, h.ran_nodup, h.ran_handed, h.ran_iff⟩
  · intro _
    obtain ⟨hdiscarded, ps, hholds, hps⟩ := h.queued (by rw [hmain]; simp)
    refine ⟨hdiscarded, ps, hholds.congr ?_, hps⟩
    intro p hp
    refine Heap.write_of_ne (hfresh p ?_)
    rw [← hps]
    exact List.mem_append_right _ hp
  · intro p c hc
    show (s.jobs ++ [job])[p]? = some c.value
    by_cases hp : p = s.jobs.length
    · subst hp
      obtain rfl := Option.some.inj ((Heap.write_self _ _ _).symm.trans hc)
      exact List.getElem?_concat_length
    · have hold : s.jobs[p]? = some c.value := h.job_eq p c ((Heap.write_of_ne hp).symm.trans hc)
      rw [List.getElem?_append_left (List.getElem?_eq_some_iff.mp hold).1, hold]
  · intro p hp
    rw [List.length_append]
    exact Nat.lt_succ_of_lt (h.allocated p hp)
  · intro p hp
    obtain rfl : s.jobs.length = p := Option.some.inj hp
    rw [List.length_append]
    exact ⟨Nat.lt_succ_self _, fun hmem => hfresh _ hmem rfl, _, Heap.write_self _ _ _⟩
  · intro i p hp
    obtain ⟨hhanded, c, hc⟩ := h.workers i p hp
    exact ⟨hhanded, c, (Heap.write_of_ne (hfresh p (h.mem_added hhanded))).trans hc⟩

/-- The main thread adds its node. -/
theorem mainAdd {node : Nat} {queue : JobQueue} {heap : Heap α} (hmain : s.main = .adding node)
    (hadd : threadpoolJobQueueAdd s.queue s.heap node = some (queue, heap)) :
    ({ s with queue, heap, added := s.added ++ [node], main := .posting } : Pool n α).NodeInv := by
  obtain ⟨hdiscarded, ps, hholds, hps⟩ := h.queued (by rw [hmain]; simp)
  have hnode : s.main.node? = some node := by rw [hmain]; rfl
  obtain ⟨hlt, hnew, c, hc⟩ := h.main node hnode
  have hnewps := h.main_not_queued hps hnode
  obtain ⟨queue', heap', hadd', hholds', hsame⟩ := threadpoolJobQueueAdd_holds hholds hc hnewps
  rw [hadd, Option.some.injEq, Prod.mk.injEq] at hadd'
  obtain ⟨rfl, rfl⟩ := hadd'
  refine ⟨?_, by simp, ?_, h.job_eq_of_same hsame, ?_, by simp [MainPc.node?], ?_, h.ran_nodup,
    h.ran_handed, h.ran_iff⟩
  · intro _
    refine ⟨hdiscarded, ps ++ [node], hholds', ?_⟩
    rw [← List.append_assoc, hps]
  · exact h.nodup.append (List.nodup_singleton _) (by simpa using hnew)
  · intro p hp
    rcases List.mem_append.mp hp with hp | hp
    · exact h.allocated p hp
    · rw [List.mem_singleton.mp hp]
      exact hlt
  · intro i p hp
    obtain ⟨hhanded, c', hc'⟩ := h.workers i p hp
    obtain ⟨c'', hc'', -⟩ := hsame.live hc'
    exact ⟨hhanded, c'', hc''⟩

/-- The main thread frees the nodes that were never handed out. -/
theorem empty {i : Nat} {freed : List Nat} {queue : JobQueue} {heap : Heap α}
    (hmain : s.main = .joining i)
    (hempty : threadpoolJobQueueEmpty s.queue s.heap = some (freed, queue, heap)) :
    ({ s with queue, heap, discarded := freed, main := .destroyed } : Pool n α).NodeInv := by
  obtain ⟨-, ps, hholds, hps⟩ := h.queued (by rw [hmain]; simp)
  obtain ⟨heap', hempty', hgone, hkept⟩ := threadpoolJobQueueEmpty_holds hholds
  rw [hempty, Option.some.injEq, Prod.mk.injEq, Prod.mk.injEq] at hempty'
  obtain ⟨rfl, -, rfl⟩ := hempty'
  refine ⟨fun hne => absurd rfl hne, fun _ => hps, h.nodup, ?_, h.allocated,
    by simp [MainPc.node?], ?_, h.ran_nodup, h.ran_handed, h.ran_iff⟩
  · intro p c hc
    by_cases hp : p ∈ freed
    · exact absurd ((hgone p hp).symm.trans hc) (by simp)
    · exact h.job_eq p c ((hkept p hp).symm.trans hc)
  intro j p hp
  obtain ⟨hhanded, c, hc⟩ := h.workers j p hp
  exact ⟨hhanded, c, (hkept p (h.not_queued hps hhanded)).trans hc⟩

/-- A worker finds the queue empty. -/
theorem removeNone {i : Fin n} {queue : JobQueue} {heap : Heap α}
    (hmain : s.main ≠ .destroyed) (hpc : s.workers i = .removing)
    (hremove : threadpoolJobQueueRemoveFirst s.queue s.heap = some (none, queue, heap)) :
    ({ s with queue, heap }.setPc i (.unlocking none)).NodeInv := by
  obtain ⟨-, ps, hholds, hps⟩ := h.queued hmain
  cases ps with
  | cons p ps =>
    obtain ⟨queue', heap', hremove', -⟩ := threadpoolJobQueueRemoveFirst_holds hholds
    rw [hremove] at hremove'
    exact absurd hremove' (by simp)
  | nil =>
    have hsame := threadpoolJobQueueRemoveFirst_nil hholds
    rw [hremove, Option.some.injEq, Prod.mk.injEq, Prod.mk.injEq] at hsame
    obtain ⟨-, rfl, rfl⟩ := hsame
    exact h.move rfl rfl rfl (congrArg WorkerPc.node? hpc).symm
      (congrArg WorkerPc.due? hpc).symm

/-- A worker is handed the first node of the queue. -/
theorem remove {i : Fin n} {node : Nat} {queue : JobQueue} {heap : Heap α}
    (hmain : s.main ≠ .destroyed) (hpc : s.workers i = .removing)
    (hremove : threadpoolJobQueueRemoveFirst s.queue s.heap = some (some node, queue, heap)) :
    ({ s with queue, heap, handed := s.handed ++ [(i, node)] }.setPc i
      (.unlocking (some node))).NodeInv := by
  obtain ⟨hdiscarded, ps, hholds, hps⟩ := h.queued hmain
  cases ps with
  | nil =>
    rw [threadpoolJobQueueRemoveFirst_nil hholds] at hremove
    exact absurd hremove (by simp)
  | cons p ps =>
    obtain ⟨c, hc⟩ := hholds.links.chain.live p List.mem_cons_self
    obtain ⟨queue', heap', hremove', hholds', hsame⟩ := threadpoolJobQueueRemoveFirst_holds hholds
    rw [hremove, Option.some.injEq, Prod.mk.injEq, Prod.mk.injEq, Option.some.injEq] at hremove'
    obtain ⟨rfl, rfl, rfl⟩ := hremove'
    have hsplit : (s.handed ++ [(i, node)]).map Prod.snd ++ ps = s.added := by
      rw [List.map_append, List.map_singleton, List.append_assoc]
      exact hps
    have hnew : ∀ j, (j, node) ∉ s.handed := fun j hj =>
      h.not_queued hps hj List.mem_cons_self
    refine ⟨fun _ => ⟨hdiscarded, ps, hholds', hsplit⟩, fun hd => absurd hd hmain, h.nodup,
      h.job_eq_of_same hsame, h.allocated, ?_, ?_, h.ran_nodup, ?_, ?_⟩
    · intro p hp
      obtain ⟨hlt, hnot, c, hc⟩ := h.main p hp
      obtain ⟨c', hc', -⟩ := hsame.live hc
      exact ⟨hlt, hnot, c', hc'⟩
    · intro j p hp
      by_cases hj : j = i
      · rw [hj, workers_setPc_self] at hp
        obtain rfl := Option.some.inj hp
        obtain ⟨c', hc', -⟩ := hsame.live hc
        exact ⟨List.mem_append_right _ (by rw [hj]; exact List.mem_singleton_self _), c', hc'⟩
      · rw [workers_setPc_of_ne _ hj] at hp
        obtain ⟨hhanded, c', hc'⟩ := h.workers j p hp
        obtain ⟨c'', hc'', -⟩ := hsame.live hc'
        exact ⟨List.mem_append_left _ hhanded, c'', hc''⟩
    · intro p hp
      obtain ⟨j, hj⟩ := h.ran_handed p hp
      exact ⟨j, List.mem_append_left _ hj⟩
    · intro j p hp
      have hran : (setPc { s with queue, heap, handed := s.handed ++ [(i, node)] } i
          (.unlocking (some node))).ran = s.ran := rfl
      rw [hran]
      rcases List.mem_append.mp hp with hp | hp
      · rw [h.ran_iff j p hp]
        by_cases hj : j = i
        · have hne : node ≠ p := by
            rintro rfl
            exact hnew j hp
          rw [hj, workers_setPc_self, hpc]
          simp [WorkerPc.due?, hne]
        · rw [workers_setPc_of_ne _ hj]
      · -- The node has just left the queue, so nobody has called its function.
        rw [List.mem_singleton, Prod.mk.injEq] at hp
        obtain ⟨rfl, rfl⟩ := hp
        rw [workers_setPc_self]
        have hnot : p ∉ s.ran := by
          intro hmem
          obtain ⟨k, hk⟩ := h.ran_handed p hmem
          exact hnew k hk
        simp [WorkerPc.due?, hnot]

/-- A worker calls the function of its node. -/
theorem call {i : Fin n} {node : Nat} (hpc : s.workers i = .calling node) :
    ({ s with ran := s.ran ++ [node] }.setPc i (.running node)).NodeInv := by
  obtain ⟨hhanded, hlive⟩ := h.workers i node (by rw [hpc]; rfl)
  have hnot : node ∉ s.ran := by
    rw [h.ran_iff i node hhanded, hpc]
    simp [WorkerPc.due?]
  refine ⟨h.queued, h.emptied, h.nodup, h.job_eq, h.allocated, h.main, ?_, ?_, ?_, ?_⟩
  · intro j p hp
    by_cases hj : j = i
    · rw [hj, workers_setPc_self] at hp
      obtain rfl := Option.some.inj hp
      rw [hj]
      exact ⟨hhanded, hlive⟩
    · rw [workers_setPc_of_ne _ hj] at hp
      exact h.workers j p hp
  · exact h.ran_nodup.append (List.nodup_singleton _) (by simpa using hnot)
  · intro p hp
    rcases List.mem_append.mp hp with hp | hp
    · exact h.ran_handed p hp
    · rw [List.mem_singleton.mp hp]
      exact ⟨i, hhanded⟩
  · intro j p hp
    have hran : (setPc { s with ran := s.ran ++ [node] } i (.running node)).ran =
        s.ran ++ [node] := rfl
    rw [hran, List.mem_append, List.mem_singleton, h.ran_iff j p hp]
    by_cases hj : j = i
    · rw [hj, workers_setPc_self, hpc]
      by_cases hp' : p = node
      · simp [WorkerPc.due?, hp']
      · simp [WorkerPc.due?, Ne.symm hp']
    · have hne : p ≠ node := by
        rintro rfl
        exact hj (h.handed_unique hp hhanded)
      rw [workers_setPc_of_ne _ hj]
      simp [hne]

/-- A worker frees its node. -/
theorem free {i : Fin n} {node : Nat} (hpc : s.workers i = .freeing node) :
    ({ s with heap := s.heap.free node }.setPc i .testing).NodeInv := by
  obtain ⟨hhanded, -⟩ := h.workers i node (by rw [hpc]; rfl)
  have hadded := h.mem_added hhanded
  refine ⟨?_, h.emptied, h.nodup, ?_, h.allocated, ?_, ?_, h.ran_nodup, h.ran_handed, ?_⟩
  · intro hmain
    obtain ⟨hdiscarded, ps, hholds, hps⟩ := h.queued hmain
    refine ⟨hdiscarded, ps, hholds.congr ?_, hps⟩
    intro p hp
    refine Heap.free_of_ne ?_
    rintro rfl
    exact h.not_queued hps hhanded hp
  · intro p c hc
    by_cases hp : p = node
    · rw [hp] at hc
      exact absurd ((Heap.free_self s.heap node).symm.trans hc) (by simp)
    · exact h.job_eq p c ((Heap.free_of_ne hp).symm.trans hc)
  · intro p hp
    obtain ⟨hlt, hnot, c, hc⟩ := h.main p hp
    refine ⟨hlt, hnot, c, (Heap.free_of_ne ?_).trans hc⟩
    rintro rfl
    exact hnot hadded
  · intro j p hp
    by_cases hj : j = i
    · rw [hj, workers_setPc_self] at hp
      exact absurd hp (by simp [WorkerPc.node?])
    · rw [workers_setPc_of_ne _ hj] at hp
      obtain ⟨hhanded', c, hc⟩ := h.workers j p hp
      refine ⟨hhanded', c, (Heap.free_of_ne ?_).trans hc⟩
      rintro rfl
      exact hj (h.handed_unique hhanded' hhanded)
  · intro j p hp
    have hran : (setPc { s with heap := s.heap.free node } i .testing).ran = s.ran := rfl
    rw [hran, h.ran_iff j p hp]
    by_cases hj : j = i
    · rw [hj, workers_setPc_self, hpc]
      simp [WorkerPc.due?]
    · rw [workers_setPc_of_ne _ hj]

theorem step {s' : Pool n α} {l : PoolLabel n α} (hjoin : s.JoinInv)
    (hstep : s.step l = some s') : s'.NodeInv := by
  cases took_of_step hstep with
  | addWork hmain => exact h.addWork hmain _
  | destroy hmain =>
    exact h.setMain rfl rfl (by rw [hmain]; simp) (by simp) (Or.inl rfl)
  | mainLock hmain =>
    exact h.setMain rfl rfl (by rw [hmain]; simp) (by simp)
      (Or.inr (congrArg MainPc.node? hmain).symm)
  | mainAdd hmain hadd => exact h.mainAdd hmain hadd
  | post hmain | mainUnlock hmain | bypass hmain | bypassed hmain | join hmain =>
    exact h.setMain rfl rfl (by rw [hmain]; simp) (by simp) (Or.inl rfl)
  | empty hmain _ hempty => exact h.empty hmain hempty
  | test hpc | woken hpc =>
    exact h.move rfl rfl rfl (by rw [hpc]; split <;> rfl)
      (by rw [hpc]; split <;> rfl)
  | wait hpc | lock hpc | unlockNull hpc | unlock hpc | back hpc =>
    exact h.move rfl rfl rfl (congrArg WorkerPc.node? hpc).symm
      (congrArg WorkerPc.due? hpc).symm
  | @remove i node queue heap hpc hremove =>
    have hmain : s.main ≠ .destroyed := fun hmain => by
      simpa [hpc] using hjoin.exited hmain i
    cases node with
    | none =>
      have hsame := h.removeNone hmain hpc hremove
      simpa [Pool.setPc] using hsame
    | some node => exact h.remove hmain hpc hremove
  | call hpc => exact h.call hpc
  | free hpc => exact h.free hpc

end NodeInv

/-! ## The tokens -/

/-- How the semaphore and the workers account for the jobs of the queue. -/
structure TokenInv (s : Pool n α) : Prop where
  keepalive : s.keepalive = !s.main.destroys
  exited : ∀ i, s.workers i = .exited → s.keepalive = false
  tokens : s.keepalive = true →
    s.sem + count WorkerPc.passed s.workers + s.main.owed = s.queue.jobNum
  /-- What `tokens` leaves behind when `threadpool_destroy` mixes its own tokens
  in: the workers that may still remove a job find one. -/
  enough : s.keepalive = false → count WorkerPc.entitled s.workers ≤ s.queue.jobNum
  found : ∀ i, s.workers i ≠ .unlocking none

namespace TokenInv

theorem init : (Pool.init : Pool n α).TokenInv where
  keepalive := rfl
  exited _ h := absurd h (by simp [Pool.init])
  tokens _ := by
    rw [count_eq_zero (fun _ => rfl)]
    rfl
  enough h := absurd h (by simp [Pool.init])
  found _ := by simp [Pool.init]

variable {s : Pool n α} (h : s.TokenInv)
include h

/-- There is a job for every worker that is about to remove one. -/
theorem entitled_le : count WorkerPc.entitled s.workers ≤ s.queue.jobNum := by
  cases hkeep : s.keepalive with
  | false => exact h.enough hkeep
  | true =>
    have hmono : count WorkerPc.entitled s.workers ≤ count WorkerPc.passed s.workers :=
      count_mono (fun _ => WorkerPc.passed_of_entitled) _
    have htokens := h.tokens hkeep
    omega

theorem jobNum_pos {i : Fin n} (hpc : s.workers i = .removing) : 0 < s.queue.jobNum := by
  have hpos : 0 < count WorkerPc.entitled s.workers :=
    count_pos (congrArg WorkerPc.entitled hpc)
  have hle := h.entitled_le
  omega

/-- The main thread moves outside `threadpool_destroy`, or inside. -/
theorem setMain {s' : Pool n α} (hkeepalive : s'.keepalive = s.keepalive)
    (hworkers : s'.workers = s.workers) (hdestroys : s'.main.destroys = s.main.destroys)
    (htokens : s.keepalive = true →
      s'.sem + s'.main.owed + s.queue.jobNum = s.sem + s.main.owed + s'.queue.jobNum)
    (henough : s.keepalive = false →
      count WorkerPc.entitled s.workers ≤ s.queue.jobNum →
        count WorkerPc.entitled s.workers ≤ s'.queue.jobNum) : s'.TokenInv where
  keepalive := by rw [hkeepalive, hdestroys]; exact h.keepalive
  exited := by rw [hworkers, hkeepalive]; exact h.exited
  tokens hkeep := by
    rw [hkeepalive] at hkeep
    rw [hworkers]
    have hbefore := h.tokens hkeep
    have hmove := htokens hkeep
    omega
  enough hkeep := by
    rw [hkeepalive] at hkeep
    rw [hworkers]
    exact henough hkeep (h.enough hkeep)
  found := by rw [hworkers]; exact h.found

/-- A worker moves. -/
theorem move {s' : Pool n α} {i : Fin n} {pc : WorkerPc} (hkeepalive : s'.keepalive = s.keepalive)
    (hmain : s'.main = s.main) (hworkers : s'.workers = Function.update s.workers i pc)
    (hexited : pc = .exited → s.keepalive = false) (hfound : pc ≠ .unlocking none)
    (htokens : s.keepalive = true →
      s'.sem + pc.passed.toNat + s.queue.jobNum =
        s.sem + (s.workers i).passed.toNat + s'.queue.jobNum)
    (henough : s.keepalive = false →
      pc.entitled.toNat + s.queue.jobNum ≤ (s.workers i).entitled.toNat + s'.queue.jobNum) :
    s'.TokenInv where
  keepalive := by rw [hkeepalive, hmain]; exact h.keepalive
  exited j hj := by
    rw [hkeepalive]
    rw [hworkers] at hj
    by_cases hji : j = i
    · rw [hji, Function.update_self] at hj
      exact hexited hj
    · rw [Function.update_of_ne hji] at hj
      exact h.exited j hj
  tokens hkeep := by
    rw [hkeepalive] at hkeep
    rw [hworkers, hmain]
    have hcount := count_update WorkerPc.passed s.workers i pc
    have hbefore := h.tokens hkeep
    have hmove := htokens hkeep
    omega
  enough hkeep := by
    rw [hkeepalive] at hkeep
    rw [hworkers]
    have hcount := count_update WorkerPc.entitled s.workers i pc
    have hbefore := h.enough hkeep
    have hmove := henough hkeep
    omega
  found j := by
    rw [hworkers]
    by_cases hji : j = i
    · rw [hji, Function.update_self]
      exact hfound
    · rw [Function.update_of_ne hji]
      exact h.found j

/-- A worker that has found a job takes it. -/
theorem remove (hnodes : s.NodeInv) (hmain : s.main ≠ .destroyed) {i : Fin n}
    {node : Option Nat} {queue : JobQueue} {heap : Heap α} (hpc : s.workers i = .removing)
    (hremove : threadpoolJobQueueRemoveFirst s.queue s.heap = some (node, queue, heap))
    {handed : List (Fin n × Nat)} :
    ({ s with queue, heap, handed }.setPc i (.unlocking node)).TokenInv := by
  have hpos := h.jobNum_pos hpc
  have hnum := threadpoolJobQueueRemoveFirst_jobNum hremove
  obtain ⟨-, ps, hholds, -⟩ := hnodes.queued hmain
  have hnode : node ≠ none := by
    cases ps with
    | nil =>
      rw [hholds.jobNum_eq] at hpos
      exact absurd hpos (Nat.not_lt_zero 0)
    | cons p ps =>
      obtain ⟨queue', heap', hremove', -⟩ := threadpoolJobQueueRemoveFirst_holds hholds
      rw [hremove, Option.some.injEq, Prod.mk.injEq] at hremove'
      rw [hremove'.1]
      simp
  refine h.move rfl rfl rfl (by simp) (by simpa using hnode) (fun _ => ?_) (fun _ => ?_)
  · show s.sem + 0 + s.queue.jobNum = s.sem + (s.workers i).passed.toNat + queue.jobNum
    rw [hpc, hnum]
    simp only [WorkerPc.passed, Bool.toNat_true]
    omega
  · show 0 + s.queue.jobNum ≤ (s.workers i).entitled.toNat + queue.jobNum
    rw [hpc, hnum]
    simp only [WorkerPc.entitled, Bool.toNat_true]
    omega

theorem step {s' : Pool n α} {l : PoolLabel n α} (hnodes : s.NodeInv) (hjoin : s.JoinInv)
    (hstep : s.step l = some s') : s'.TokenInv := by
  cases took_of_step hstep with
  | destroy hmain =>
    have hkeep : s.keepalive = true := by
      rw [h.keepalive, hmain]
      rfl
    exact ⟨rfl, fun _ _ => rfl, fun hfalse => absurd hfalse (by simp), fun _ => h.entitled_le,
      h.found⟩
  | mainAdd hmain hadd =>
    have hnum := threadpoolJobQueueAdd_jobNum hadd
    refine h.setMain rfl rfl (by rw [hmain]; rfl) (fun _ => ?_) (fun _ hle => ?_)
    · rw [hmain]
      simp only [MainPc.owed, hnum]
      omega
    · exact hle.trans (by rw [hnum]; exact Nat.le_succ _)
  | addWork hmain | mainLock hmain | post hmain | mainUnlock hmain | bypassed hmain
  | join hmain =>
    exact h.setMain rfl rfl (by rw [hmain]; rfl) (fun _ => by rw [hmain]; rfl) (fun _ => id)
  | bypass hmain =>
    have hkeep : s.keepalive = false := by
      rw [h.keepalive, hmain]
      rfl
    exact h.setMain rfl rfl (by rw [hmain]; rfl) (fun hk => absurd (hk.symm.trans hkeep) (by simp))
      (fun _ => id)
  | @empty k freed queue heap hmain hk hempty =>
    have hkeep : s.keepalive = false := by
      rw [h.keepalive, hmain]
      rfl
    have hnone : count WorkerPc.entitled s.workers = 0 := by
      refine count_eq_zero fun i => ?_
      rw [hjoin i (by rw [hmain]; exact Nat.lt_of_lt_of_le i.isLt (Nat.le_of_not_lt hk))]
      rfl
    exact h.setMain rfl rfl (by rw [hmain]; rfl) (fun hk => absurd (hk.symm.trans hkeep) (by simp))
      (fun _ _ => hnone ▸ Nat.zero_le _)
  | test hpc =>
    refine h.move rfl rfl rfl ?_ (by split <;> simp) (fun _ => ?_) (fun _ => ?_)
    · cases s.keepalive <;> simp
    · rw [hpc]
      split <;> rfl
    · rw [hpc]
      split <;> exact le_rfl
  | @wait i hpc hsem =>
    refine h.move rfl rfl rfl (by simp) (by simp) (fun _ => ?_) (fun _ => ?_)
    · show s.sem - 1 + 1 + s.queue.jobNum = s.sem + (s.workers i).passed.toNat + s.queue.jobNum
      rw [hpc]
      simp only [WorkerPc.passed, Bool.toNat_false]
      omega
    · rw [hpc]
      exact le_rfl
  | woken hpc =>
    refine h.move rfl rfl rfl (by split <;> simp) (by split <;> simp) (fun hk => ?_) (fun hk => ?_)
    · rw [hpc, hk]
      rfl
    · rw [hpc, hk]
      exact le_rfl
  | @remove i node queue heap hpc hremove =>
    have hmain : s.main ≠ .destroyed := fun hmain => by
      simpa [hpc] using hjoin.exited hmain i
    exact h.remove hnodes hmain hpc hremove
  | unlockNull hpc => exact absurd hpc (h.found _)
  | lock hpc | unlock hpc | call hpc | back hpc | free hpc =>
    exact h.move rfl rfl rfl (by simp) (by simp) (fun _ => by rw [hpc]; rfl)
      (fun _ => by rw [hpc]; exact le_rfl)

end TokenInv

/-! ## Every run -/

/-- The invariants of the pool. -/
structure PoolInv (s : Pool n α) : Prop where
  lock : s.LockInv
  join : s.JoinInv
  nodes : s.NodeInv
  tokens : s.TokenInv

theorem PoolInv.init : (init : Pool n α).PoolInv :=
  ⟨LockInv.init, JoinInv.init, NodeInv.init, TokenInv.init⟩

theorem PoolInv.step {s s' : Pool n α} {l : PoolLabel n α} (h : s.PoolInv)
    (hstep : s.step l = some s') : s'.PoolInv :=
  ⟨h.lock.step hstep, h.join.step hstep, h.nodes.step h.join hstep,
    h.tokens.step h.nodes h.join hstep⟩

theorem poolInv_of_run {labels : List (PoolLabel n α)} {s : Pool n α}
    (hrun : run Pool.step init labels = some s) : s.PoolInv :=
  run_preserves (fun _ _ _ h hs => h.step hs) PoolInv.init hrun

/-! ## The counters -/

/-- What bounds the counters: a job is counted when it has been added, and a token is posted
for it or by `threadpool_destroy`. -/
structure CountInv (s : Pool n α) : Prop where
  jobNum_le : s.queue.jobNum ≤ s.added.length
  sem_le : s.sem + s.main.owed ≤ s.added.length + s.main.posted n
  posted_le : s.main.posted n ≤ n

theorem CountInv.init : (init : Pool n α).CountInv := ⟨Nat.le_refl 0, Nat.le_refl 0, Nat.zero_le n⟩

theorem CountInv.step {s s' : Pool n α} {l : PoolLabel n α} (h : s.CountInv)
    (hstep : s.step l = some s') : s'.CountInv := by
  obtain ⟨hnum, hsem, hposted⟩ := h
  cases took_of_step hstep with
  | mainAdd hmain hadd =>
    rw [hmain] at hsem
    refine ⟨?_, ?_, Nat.zero_le n⟩
    · rw [threadpoolJobQueueAdd_jobNum hadd, List.length_append, List.length_singleton]
      omega
    · rw [List.length_append, List.length_singleton]
      exact Nat.succ_le_succ hsem
  | addWork hmain | destroy hmain | mainLock hmain | post hmain | mainUnlock hmain =>
    rw [hmain] at hsem
    exact ⟨hnum, hsem, Nat.zero_le n⟩
  | @bypass i hmain hi =>
    rw [hmain] at hsem
    exact ⟨hnum, Nat.succ_le_succ hsem, hi⟩
  | @bypassed i hmain hi =>
    rw [hmain] at hsem hposted
    have hsem' : s.sem ≤ s.added.length + i := hsem
    exact ⟨hnum, hsem'.trans (Nat.add_le_add_left hposted _), Nat.le_refl n⟩
  | join hmain hi hexited =>
    rw [hmain] at hsem
    exact ⟨hnum, hsem, Nat.le_refl n⟩
  | empty hmain hi hempty =>
    obtain ⟨⟨freed, heap⟩, -, hqueue⟩ := Option.map_eq_some_iff.mp hempty
    obtain ⟨-, rfl, -⟩ := (by simpa using hqueue : _ ∧ _ ∧ _)
    rw [hmain] at hsem
    exact ⟨Nat.zero_le _, hsem, Nat.le_refl n⟩
  | wait hpc hpos =>
    exact ⟨hnum, (Nat.add_le_add_right (Nat.sub_le s.sem 1) _).trans hsem, hposted⟩
  | remove hpc hremove =>
    have hless := threadpoolJobQueueRemoveFirst_jobNum hremove
    exact ⟨(hless.trans_le (Nat.sub_le _ 1)).trans hnum, hsem, hposted⟩
  | test hpc | woken hpc | lock hpc | unlockNull hpc | unlock hpc | call hpc | back hpc
  | free hpc => exact ⟨hnum, hsem, hposted⟩

/-- Every job that was added is one that a node was allocated for. -/
theorem NodeInv.length_added_le {s : Pool n α} (h : s.NodeInv) :
    s.added.length ≤ s.jobs.length := by
  have hsub : s.added ⊆ List.range s.jobs.length := fun p hp =>
    List.mem_range.mpr (h.allocated p hp)
  simpa using (h.nodup.subperm hsub).length_le

/-- In every run the queue counts no more than the jobs, and the semaphore no more than these
and the workers: neither count leaves `int` while they are fewer than `2^31`. -/
theorem counts_of_run {labels : List (PoolLabel n α)} {s : Pool n α}
    (hrun : run Pool.step Pool.init labels = some s) :
    s.queue.jobNum ≤ s.jobs.length ∧ s.sem ≤ s.jobs.length + n := by
  have hcount : s.CountInv := run_preserves (fun _ _ _ h hs => h.step hs) CountInv.init hrun
  have hadded := (poolInv_of_run hrun).nodes.length_added_le
  have hnum := hcount.jobNum_le
  have hsem := hcount.sem_le
  have hposted := hcount.posted_le
  omega

/-! ## Before the pool is destroyed -/

/-- **Before `threadpool_destroy` is entered, the semaphore and the workers that have
passed it account for the jobs of the queue, no worker finds the queue empty, and
what has been handed out, each node to one worker, is the first part of what has
been added, the queue holding the rest; a node keeps its job.** -/
theorem dispatch_of_run {labels : List (PoolLabel n α)} {s : Pool n α}
    (hrun : run Pool.step init labels = some s) (hbefore : s.main.destroys = false) :
    (s.mutex = none → s.sem + count WorkerPc.passed s.workers = s.queue.jobNum) ∧
    (∀ i, s.workers i = .removing → 0 < s.queue.jobNum) ∧
    (∀ i, s.workers i ≠ .unlocking none) ∧
    (∃ ps, s.queue.Holds s.heap ps ∧ s.handed.map Prod.snd ++ ps = s.added ∧ s.added.Nodup) ∧
    ∀ p c, s.heap p = some c → s.jobs[p]? = some c.value := by
  have hinv := poolInv_of_run hrun
  refine ⟨?_, fun i => hinv.tokens.jobNum_pos, hinv.tokens.found, ?_, hinv.nodes.job_eq⟩
  · intro hfree
    have hkeep : s.keepalive = true := by
      rw [hinv.tokens.keepalive, hbefore]
      rfl
    have howed : s.main.owed = 0 := by
      have hlocks : s.main.locks ≠ true := by
        rw [ne_eq, hinv.lock.main, hfree]
        simp
      revert hlocks
      cases s.main <;> simp [MainPc.locks, MainPc.owed]
    have htokens := hinv.tokens.tokens hkeep
    rw [howed] at htokens
    exact htokens
  · have hmain : s.main ≠ .destroyed := by
      intro hmain
      rw [hmain] at hbefore
      exact absurd hbefore (by simp [MainPc.destroys])
    obtain ⟨-, ps, hholds, hps⟩ := hinv.nodes.queued hmain
    exact ⟨ps, hholds, hps, hinv.nodes.nodup⟩

/-- The main thread adds a job. -/
def addOne {n : Nat} (job : Nat) : List (PoolLabel n Nat) := .addWork job :: List.replicate 4 .main

/-- Two jobs are added, and one of two workers takes the first of them. -/
def addTwo : List (PoolLabel 2 Nat) :=
  addOne 7 ++ List.replicate 6 (.worker ⟨0, Nat.two_pos⟩) ++ addOne 8

theorem dispatch_of_addTwo :
    ∃ s, run Pool.step init addTwo = some s ∧ s.workers 0 = .calling 0 ∧ s.queue.jobNum = 1 ∧
      (s.mutex = none → s.sem + count WorkerPc.passed s.workers = s.queue.jobNum) ∧
      ∃ ps, s.queue.Holds s.heap ps ∧ s.handed.map Prod.snd ++ ps = s.added ∧ s.added.Nodup := by
  have hrun : (run Pool.step init addTwo).map
      (fun s => (s.workers 0, s.queue.jobNum, s.main.destroys)) =
      some (.calling 0, 1, false) := by decide +kernel
  obtain ⟨s, hs, hstate⟩ := Option.map_eq_some_iff.mp hrun
  simp only [Prod.mk.injEq] at hstate
  obtain ⟨hpc, hnum, hbefore⟩ := hstate
  have hall := dispatch_of_run hs hbefore
  exact ⟨s, hs, hpc, hnum, hall.1, hall.2.2.2.1⟩

end WowProxy.Pool
