/-
  Threadpool/Pool.lean --- the thread pool of `threadpool/threadpool.c` as a
  machine: `threadpool_add_work` and `threadpool_destroy` in the main thread,
  `threadpool_thread_run` in every worker.

  A step is one access to something shared: the flag `threadpool_keepalive`, the
  semaphore, the mutex, the queue under it, or a node.  What a thread does next
  follows from where it is, so a label names the thread, and for the main thread
  also which function of the pool it enters.  The job functions return; what
  they do in between is not part of this machine.  The counts of the semaphore
  and of the queue are numbers here and `int`s in the source: by `counts_of_run` of
  `Threadpool/Dispatch` they agree as long as the jobs and the workers are together
  fewer than `2^31`.

  A node is named by its place in the order of allocation, and numbers are never
  used again.
-/
import WowProxy.Lib.Families
import WowProxy.Lib.Runs
import WowProxy.Threadpool.JobQueue

set_option autoImplicit false

namespace WowProxy

open WowProxy.Lib.LinkedList WowProxy.Lib.Families WowProxy.Lib.Runs

/-! ## Threads -/

/-- Where the main thread is in a function of the pool. -/
inductive MainPc where
  /-- in none -/
  | ready
  /-- in front of `pthread_mutex_lock` of `threadpool_add_work`, with a new node -/
  | locking (node : Nat)
  /-- in front of `threadpool_job_queue_add` -/
  | adding (node : Nat)
  /-- in front of its `sem_post` -/
  | posting
  /-- in front of `pthread_mutex_unlock` -/
  | unlocking
  /-- in the first loop of `threadpool_destroy`, `i` tokens posted -/
  | bypassing (i : Nat)
  /-- in its second loop, `i` workers joined -/
  | joining (i : Nat)
  /-- behind `threadpool_destroy` -/
  | destroyed
  deriving DecidableEq, Repr

/-- Where a worker is in `threadpool_thread_run`. -/
inductive WorkerPc where
  /-- in front of the test of the loop -/
  | testing
  /-- in `sem_wait` -/
  | waiting
  /-- behind `sem_wait`, in front of the second test -/
  | woken
  /-- in front of `pthread_mutex_lock` -/
  | locking
  /-- in front of `threadpool_job_queue_remove_first` -/
  | removing
  /-- in front of `pthread_mutex_unlock`, with the result -/
  | unlocking (node : Option Nat)
  /-- in front of the call of the job's function -/
  | calling (node : Nat)
  /-- in the job's function -/
  | running (node : Nat)
  /-- in front of `free(pjob_node)` -/
  | freeing (node : Nat)
  /-- behind the loop -/
  | exited
  deriving DecidableEq, Repr

namespace WorkerPc

/-- The worker has taken a token and not yet removed a job. -/
def passed : WorkerPc → Bool
  | woken => true
  | locking => true
  | removing => true
  | _ => false

/-- The worker is about to remove a job. -/
def entitled : WorkerPc → Bool
  | locking => true
  | removing => true
  | _ => false

theorem passed_of_entitled {pc : WorkerPc} (h : pc.entitled = true) : pc.passed = true := by
  cases pc <;> simp_all [entitled, passed]

/-- The worker has the mutex. -/
def locks : WorkerPc → Bool
  | removing => true
  | unlocking _ => true
  | _ => false

/-- The worker is in `sem_wait`. -/
def waits : WorkerPc → Bool
  | waiting => true
  | _ => false

/-- How many steps the worker takes at most once `threadpool_keepalive` is
cleared. -/
def left : WorkerPc → Nat
  | testing => 1
  | waiting => 3
  | woken => 2
  | locking => 7
  | removing => 6
  | unlocking _ => 5
  | calling _ => 4
  | running _ => 3
  | freeing _ => 2
  | exited => 0

/-- The node a worker has, and has not freed. -/
def node? : WorkerPc → Option Nat
  | unlocking node => node
  | calling node => some node
  | running node => some node
  | freeing node => some node
  | _ => none

/-- The node whose function a worker has still to call. -/
def due? : WorkerPc → Option Nat
  | unlocking node => node
  | calling node => some node
  | _ => none

end WorkerPc

/-- A thread that can have the mutex. -/
inductive Holder (n : Nat) where
  | main
  | worker (i : Fin n)
  deriving DecidableEq, Repr

namespace MainPc

/-- The main thread has the mutex. -/
def locks : MainPc → Bool
  | adding _ => true
  | posting => true
  | unlocking => true
  | _ => false

/-- The jobs that are in the queue and have no token yet. -/
def owed : MainPc → Nat
  | posting => 1
  | _ => 0

/-- The node the main thread has allocated and not added. -/
def node? : MainPc → Option Nat
  | locking node => some node
  | adding node => some node
  | _ => none

/-- How many tokens `threadpool_destroy` has posted, for `n` workers. -/
def posted (n : Nat) : MainPc → Nat
  | bypassing i => i
  | joining _ => n
  | destroyed => n
  | _ => 0

/-- How many steps are left of `threadpool_destroy`. -/
def left (n : Nat) : MainPc → Nat
  | bypassing i => (n - i) + n + 2
  | joining i => (n - i) + 1
  | _ => 0

/-- How many of `n` workers the main thread has joined. -/
def joined (n : Nat) : MainPc → Nat
  | joining i => i
  | destroyed => n
  | _ => 0

/-- The main thread is in `threadpool_destroy`, or behind it. -/
def destroys : MainPc → Bool
  | bypassing _ => true
  | joining _ => true
  | destroyed => true
  | _ => false

end MainPc

/-! ## The machine -/

/-- A pool of `n` workers, with what happened to its nodes. -/
structure Pool (n : Nat) (α : Type) where
  heap : Heap α
  /-- the jobs that nodes have been allocated for, in order -/
  jobs : List α
  queue : JobQueue
  /-- the value of `queue_sem` -/
  sem : Nat
  mutex : Option (Holder n)
  /-- `threadpool_keepalive` -/
  keepalive : Bool
  main : MainPc
  workers : Fin n → WorkerPc
  /-- the nodes that have been added, in order -/
  added : List Nat
  /-- the nodes that have been removed, in order, each with the worker it went to -/
  handed : List (Fin n × Nat)
  /-- the nodes whose function has been called, in order -/
  ran : List Nat
  /-- the nodes that `threadpool_job_queue_empty` has freed -/
  discarded : List Nat

/-- Which thread takes a step. -/
inductive PoolLabel (n : Nat) (α : Type) where
  /-- the main thread enters `threadpool_add_work` and fills a node -/
  | addWork (job : α)
  /-- the main thread enters `threadpool_destroy` and clears the flag -/
  | destroy
  /-- the main thread goes on -/
  | main
  /-- a worker goes on -/
  | worker (i : Fin n)
  deriving DecidableEq, Repr

namespace Pool

variable {n : Nat} {α : Type}

/-- The pool behind `threadpool_init`. -/
def init : Pool n α :=
  { heap := fun _ => none, jobs := [], queue := JobQueue.init, sem := 0, mutex := none,
    keepalive := true, main := .ready, workers := fun _ => .testing, added := [], handed := [],
    ran := [], discarded := [] }

/-- Move a worker. -/
def setPc (s : Pool n α) (i : Fin n) (pc : WorkerPc) : Pool n α :=
  { s with workers := Function.update s.workers i pc }

/-- The next step of the main thread in a function of the pool. -/
def mainStep (s : Pool n α) : Option (Pool n α) :=
  match s.main with
  | .ready => none
  | .locking node =>
    if s.mutex = none then some { s with mutex := some .main, main := .adding node } else none
  | .adding node =>
    (threadpoolJobQueueAdd s.queue s.heap node).map fun (queue, heap) =>
      { s with queue, heap, added := s.added ++ [node], main := .posting }
  | .posting => some { s with sem := s.sem + 1, main := .unlocking }
  | .unlocking => some { s with mutex := none, main := .ready }
  | .bypassing i =>
    if i < n then some { s with sem := s.sem + 1, main := .bypassing (i + 1) }
    else some { s with main := .joining 0 }
  | .joining i =>
    if h : i < n then
      if s.workers ⟨i, h⟩ = .exited then some { s with main := .joining (i + 1) } else none
    else
      (threadpoolJobQueueEmpty s.queue s.heap).map fun (freed, queue, heap) =>
        { s with queue, heap, discarded := freed, main := .destroyed }
  | .destroyed => none

/-- The next step of a worker. -/
def workerStep (s : Pool n α) (i : Fin n) : Option (Pool n α) :=
  match s.workers i with
  | .testing => some (s.setPc i (if s.keepalive then .waiting else .exited))
  | .waiting => if 0 < s.sem then some ({ s with sem := s.sem - 1 }.setPc i .woken) else none
  | .woken => some (s.setPc i (if s.keepalive then .locking else .testing))
  | .locking =>
    if s.mutex = none then some ({ s with mutex := some (.worker i) }.setPc i .removing) else none
  | .removing =>
    (threadpoolJobQueueRemoveFirst s.queue s.heap).map fun (node, queue, heap) =>
      { s with queue, heap, handed := s.handed ++ node.toList.map (i, ·) }.setPc i
        (.unlocking node)
  | .unlocking node =>
    some ({ s with mutex := none }.setPc i (match node with
      | none => .testing
      | some node => .calling node))
  | .calling node =>
    (s.heap node).map fun _ => { s with ran := s.ran ++ [node] }.setPc i (.running node)
  | .running node => some (s.setPc i (.freeing node))
  | .freeing node =>
    (s.heap node).map fun _ => { s with heap := s.heap.free node }.setPc i .testing
  | .exited => none

/-- One step of the machine. -/
def step (s : Pool n α) : PoolLabel n α → Option (Pool n α)
  | .addWork job =>
    if s.main = .ready then
      some { s with
        heap := s.heap.write s.jobs.length ⟨job, none, none⟩, jobs := s.jobs ++ [job],
        main := .locking s.jobs.length }
    else none
  | .destroy =>
    if s.main = .ready then some { s with keepalive := false, main := .bypassing 0 } else none
  | .main => s.mainStep
  | .worker i => s.workerStep i

/-! ## The ways a step can go -/

/-- Every way a step can go, with the guards it was taken under and the state
behind it. -/
inductive Took (s : Pool n α) : PoolLabel n α → Pool n α → Prop
  | addWork {job : α} (hmain : s.main = .ready) :
      Took s (.addWork job) { s with
        heap := s.heap.write s.jobs.length ⟨job, none, none⟩, jobs := s.jobs ++ [job],
        main := .locking s.jobs.length }
  | destroy (hmain : s.main = .ready) :
      Took s .destroy { s with keepalive := false, main := .bypassing 0 }
  | mainLock {node : Nat} (hmain : s.main = .locking node) (hfree : s.mutex = none) :
      Took s .main { s with mutex := some .main, main := .adding node }
  | mainAdd {node : Nat} {queue : JobQueue} {heap : Heap α} (hmain : s.main = .adding node)
      (hadd : threadpoolJobQueueAdd s.queue s.heap node = some (queue, heap)) :
      Took s .main { s with queue, heap, added := s.added ++ [node], main := .posting }
  | post (hmain : s.main = .posting) :
      Took s .main { s with sem := s.sem + 1, main := .unlocking }
  | mainUnlock (hmain : s.main = .unlocking) :
      Took s .main { s with mutex := none, main := .ready }
  | bypass {i : Nat} (hmain : s.main = .bypassing i) (hi : i < n) :
      Took s .main { s with sem := s.sem + 1, main := .bypassing (i + 1) }
  | bypassed {i : Nat} (hmain : s.main = .bypassing i) (hi : ¬ i < n) :
      Took s .main { s with main := .joining 0 }
  | join {i : Nat} (hmain : s.main = .joining i) (hi : i < n)
      (hexited : s.workers ⟨i, hi⟩ = .exited) :
      Took s .main { s with main := .joining (i + 1) }
  | empty {i : Nat} {freed : List Nat} {queue : JobQueue} {heap : Heap α}
      (hmain : s.main = .joining i) (hi : ¬ i < n)
      (hempty : threadpoolJobQueueEmpty s.queue s.heap = some (freed, queue, heap)) :
      Took s .main { s with queue, heap, discarded := freed, main := .destroyed }
  | test {i : Fin n} (hpc : s.workers i = .testing) :
      Took s (.worker i) (s.setPc i (if s.keepalive then .waiting else .exited))
  | wait {i : Fin n} (hpc : s.workers i = .waiting) (hsem : 0 < s.sem) :
      Took s (.worker i) ({ s with sem := s.sem - 1 }.setPc i .woken)
  | woken {i : Fin n} (hpc : s.workers i = .woken) :
      Took s (.worker i) (s.setPc i (if s.keepalive then .locking else .testing))
  | lock {i : Fin n} (hpc : s.workers i = .locking) (hfree : s.mutex = none) :
      Took s (.worker i) ({ s with mutex := some (.worker i) }.setPc i .removing)
  | remove {i : Fin n} {node : Option Nat} {queue : JobQueue} {heap : Heap α}
      (hpc : s.workers i = .removing)
      (hremove : threadpoolJobQueueRemoveFirst s.queue s.heap = some (node, queue, heap)) :
      Took s (.worker i)
        ({ s with queue, heap, handed := s.handed ++ node.toList.map (i, ·) }.setPc i
          (.unlocking node))
  /-- `remove_first` returned `NULL` -/
  | unlockNull {i : Fin n} (hpc : s.workers i = .unlocking none) :
      Took s (.worker i) ({ s with mutex := none }.setPc i .testing)
  | unlock {i : Fin n} {node : Nat} (hpc : s.workers i = .unlocking (some node)) :
      Took s (.worker i) ({ s with mutex := none }.setPc i (.calling node))
  | call {i : Fin n} {node : Nat} (hpc : s.workers i = .calling node) :
      Took s (.worker i) ({ s with ran := s.ran ++ [node] }.setPc i (.running node))
  | back {i : Fin n} {node : Nat} (hpc : s.workers i = .running node) :
      Took s (.worker i) (s.setPc i (.freeing node))
  | free {i : Fin n} {node : Nat} (hpc : s.workers i = .freeing node) :
      Took s (.worker i) ({ s with heap := s.heap.free node }.setPc i .testing)

theorem took_of_mainStep {s s' : Pool n α} (h : s.mainStep = some s') : s.Took .main s' := by
  unfold mainStep at h
  split at h
  · exact absurd h (by simp)
  · rename_i node hmain
    split at h
    · rename_i hfree
      obtain rfl := Option.some.inj h
      exact .mainLock hmain hfree
    · exact absurd h (by simp)
  · rename_i node hmain
    obtain ⟨⟨queue, heap⟩, hadd, rfl⟩ := Option.map_eq_some_iff.mp h
    exact .mainAdd hmain hadd
  · rename_i hmain
    obtain rfl := Option.some.inj h
    exact .post hmain
  · rename_i hmain
    obtain rfl := Option.some.inj h
    exact .mainUnlock hmain
  · rename_i i hmain
    split at h <;> rename_i hi <;> obtain rfl := Option.some.inj h
    · exact .bypass hmain hi
    · exact .bypassed hmain hi
  · rename_i i hmain
    split at h
    · rename_i hi
      split at h
      · rename_i hexited
        obtain rfl := Option.some.inj h
        exact .join hmain hi hexited
      · exact absurd h (by simp)
    · rename_i hi
      obtain ⟨⟨freed, queue, heap⟩, hempty, rfl⟩ := Option.map_eq_some_iff.mp h
      exact .empty hmain hi hempty
  · exact absurd h (by simp)

theorem took_of_workerStep {s s' : Pool n α} {i : Fin n} (h : s.workerStep i = some s') :
    s.Took (.worker i) s' := by
  unfold workerStep at h
  split at h
  · rename_i hpc
    obtain rfl := Option.some.inj h
    exact .test hpc
  · rename_i hpc
    split at h
    · rename_i hsem
      obtain rfl := Option.some.inj h
      exact .wait hpc hsem
    · exact absurd h (by simp)
  · rename_i hpc
    obtain rfl := Option.some.inj h
    exact .woken hpc
  · rename_i hpc
    split at h
    · rename_i hfree
      obtain rfl := Option.some.inj h
      exact .lock hpc hfree
    · exact absurd h (by simp)
  · rename_i hpc
    obtain ⟨⟨node, queue, heap⟩, hremove, rfl⟩ := Option.map_eq_some_iff.mp h
    exact .remove hpc hremove
  · rename_i node hpc
    obtain rfl := Option.some.inj h
    cases node with
    | none => exact .unlockNull hpc
    | some node => exact .unlock hpc
  · rename_i node hpc
    obtain ⟨_, -, rfl⟩ := Option.map_eq_some_iff.mp h
    exact .call hpc
  · rename_i node hpc
    obtain rfl := Option.some.inj h
    exact .back hpc
  · rename_i node hpc
    obtain ⟨_, -, rfl⟩ := Option.map_eq_some_iff.mp h
    exact .free hpc
  · exact absurd h (by simp)

theorem took_of_step {s s' : Pool n α} {l : PoolLabel n α} (h : s.step l = some s') :
    s.Took l s' := by
  cases l with
  | addWork job =>
    rw [step] at h
    split at h
    · rename_i hmain
      obtain rfl := Option.some.inj h
      exact .addWork hmain
    · exact absurd h (by simp)
  | destroy =>
    rw [step] at h
    split at h
    · rename_i hmain
      obtain rfl := Option.some.inj h
      exact .destroy hmain
    · exact absurd h (by simp)
  | main => exact took_of_mainStep h
  | worker i => exact took_of_workerStep h

/-! ## Reading a changed state -/

/-- Only `threadpool_add_work` allocates for a job. -/
theorem jobs_of_step {s s' : Pool n α} {l : PoolLabel n α} (h : s.step l = some s')
    (hl : ∀ job, l ≠ .addWork job) : s'.jobs = s.jobs := by
  cases took_of_step h with
  | addWork => exact absurd rfl (hl _)
  | destroy | mainLock | mainAdd | post | mainUnlock | bypass | bypassed | join | empty | test
  | wait | woken | lock | remove | unlockNull | unlock | call | back | free => rfl

/-- A function that has been called stays called. -/
theorem ran_of_step {s s' : Pool n α} {l : PoolLabel n α} (h : s.step l = some s') {p : Nat}
    (hp : p ∈ s.ran) : p ∈ s'.ran := by
  cases took_of_step h with
  | call => exact List.mem_append_left _ hp
  | addWork | destroy | mainLock | mainAdd | post | mainUnlock | bypass | bypassed | join | empty
  | test | wait | woken | lock | remove | unlockNull | unlock | back | free => exact hp

theorem workers_setPc_self (s : Pool n α) (i : Fin n) (pc : WorkerPc) :
    (s.setPc i pc).workers i = pc :=
  Function.update_self _ _ _

theorem workers_setPc_of_ne (s : Pool n α) {i j : Fin n} (hne : j ≠ i) (pc : WorkerPc) :
    (s.setPc i pc).workers j = s.workers j :=
  Function.update_of_ne hne _ _

end Pool

end WowProxy
