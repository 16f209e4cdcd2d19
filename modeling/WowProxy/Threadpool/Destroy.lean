/-
  Threadpool/Destroy.lean --- `threadpool_destroy`: it comes to an end, and what
  has become of the jobs then.

  Behind the cleared flag a worker enters `sem_wait` no more, so it takes at most
  one token, and the main thread posts one for each (`DestroyInv`).  Hence no
  worker is left in `sem_wait`, and some thread can always go on.  Every step
  lowers a measure, so the threads do come to the end, where the nodes that were
  handed out have been called and the queue is freed.
-/
import WowProxy.Threadpool.Dispatch

set_option autoImplicit false

namespace WowProxy.Pool

open WowProxy.Lib.LinkedList WowProxy.Lib.Families WowProxy.Lib.Runs

variable {n : Nat} {α : Type}

/-! ## Behind the cleared flag -/

theorem keepalive_step {s s' : Pool n α} {l : PoolLabel n α} (hkeep : s.keepalive = false)
    (hstep : s.step l = some s') : s'.keepalive = false := by
  cases took_of_step hstep with
  | destroy => rfl
  | addWork | mainLock | mainAdd | post | mainUnlock | bypass | bypassed | join | empty | test
  | wait | woken | lock | remove | unlockNull | unlock | call | back | free => exact hkeep

/-- No worker enters `sem_wait` any more. -/
theorem waits_step {s s' : Pool n α} {l : PoolLabel n α} (hkeep : s.keepalive = false)
    (hstep : s.step l = some s') {i : Fin n} (hi : s'.workers i = .waiting) :
    s.workers i = .waiting := by
  have hmove {j : Fin n} {pc : WorkerPc} (hpc : pc ≠ .waiting)
      (hworkers : s'.workers = Function.update s.workers j pc) : s.workers i = .waiting := by
    rw [hworkers] at hi
    by_cases hij : i = j
    · rw [hij, Function.update_self] at hi
      exact absurd hi hpc
    · rw [← hi, Function.update_of_ne hij]
  cases took_of_step hstep with
  | addWork | destroy | mainLock | mainAdd | post | mainUnlock | bypass | bypassed | join
  | empty => exact hi
  | test | woken => exact hmove (by rw [hkeep]; simp) rfl
  | wait | lock | remove | unlockNull | unlock | call | back | free => exact hmove (by simp) rfl

/-- The worker is in `sem_wait`, or can still get there. -/
def MayWait (s : Pool n α) (i : Fin n) : Prop :=
  ∃ labels s', run Pool.step s labels = some s' ∧ s'.workers i = .waiting

theorem mayWait_iff {s : Pool n α} (hkeep : s.keepalive = false) (i : Fin n) :
    s.MayWait i ↔ s.workers i = .waiting := by
  constructor
  · rintro ⟨labels, s', hrun, hi⟩
    by_contra hnot
    have hstep : ∀ (s : Pool n α) (l : PoolLabel n α) s',
        s.keepalive = false ∧ s.workers i ≠ .waiting → s.step l = some s' →
          s'.keepalive = false ∧ s'.workers i ≠ .waiting := by
      rintro s l s' ⟨hkeep, hne⟩ hs'
      exact ⟨keepalive_step hkeep hs', fun hi => hne (waits_step hkeep hs' hi)⟩
    exact (run_preserves hstep ⟨hkeep, hnot⟩ hrun).2 hi
  · intro hi
    exact ⟨[], s, rfl, hi⟩

/-! ## The posted tokens -/

/-- The posted tokens are there or were taken by workers that do not come back. -/
structure DestroyInv (s : Pool n α) : Prop where
  posted_le : s.main.posted n ≤ n
  tokens : s.main.destroys = true →
    count WorkerPc.waits s.workers + s.main.posted n ≤ s.sem + n

theorem DestroyInv.init : (init : Pool n α).DestroyInv :=
  ⟨Nat.zero_le n, fun h => absurd h (by simp [Pool.init, MainPc.destroys])⟩

/-- A worker moves, and does not enter `sem_wait`. -/
theorem DestroyInv.move {s s' : Pool n α} (h : s.DestroyInv) {i : Fin n} {pc : WorkerPc}
    (hmain : s'.main = s.main) (hworkers : s'.workers = Function.update s.workers i pc)
    (htokens : s.main.destroys = true →
      pc.waits.toNat + s.sem ≤ (s.workers i).waits.toNat + s'.sem) : s'.DestroyInv := by
  refine ⟨by rw [hmain]; exact h.posted_le, fun hdestroys => ?_⟩
  rw [hmain] at hdestroys ⊢
  rw [hworkers]
  have hcount := count_update WorkerPc.waits s.workers i pc
  have hbefore := h.tokens hdestroys
  have hmove := htokens hdestroys
  omega

theorem DestroyInv.step {s s' : Pool n α} {l : PoolLabel n α} (h : s.DestroyInv)
    (hinv : s.PoolInv) (hstep : s.step l = some s') : s'.DestroyInv := by
  have hkeep (hdestroys : s.main.destroys = true) : s.keepalive = false := by
    rw [hinv.tokens.keepalive, hdestroys]
    rfl
  have hother (pc : MainPc) (hposted : pc.posted n = 0) (hpc : pc.destroys = false) (s' : Pool n α)
      (hs' : s'.main = pc) : s'.DestroyInv := by
    refine ⟨by rw [hs', hposted]; exact Nat.zero_le n, fun hd => ?_⟩
    rw [hs', hpc] at hd
    exact absurd hd (by simp)
  cases took_of_step hstep with
  | addWork | mainLock | mainAdd | post | mainUnlock => exact hother _ rfl rfl _ rfl
  | destroy =>
    refine ⟨Nat.zero_le n, fun _ => ?_⟩
    have hle := count_le_card WorkerPc.waits s.workers
    rw [Fintype.card_fin] at hle
    exact hle.trans (Nat.le_add_left n s.sem)
  | @bypass i hmain hi =>
    have htokens := h.tokens (by rw [hmain]; rfl)
    rw [hmain] at htokens
    refine ⟨hi, fun _ => ?_⟩
    show count WorkerPc.waits s.workers + (i + 1) ≤ s.sem + 1 + n
    simp only [MainPc.posted] at htokens
    omega
  | @bypassed i hmain hi =>
    have htokens := h.tokens (by rw [hmain]; rfl)
    rw [hmain] at htokens
    refine ⟨le_rfl, fun _ => ?_⟩
    show count WorkerPc.waits s.workers + n ≤ s.sem + n
    simp only [MainPc.posted] at htokens
    omega
  | join hmain | empty hmain =>
    refine ⟨le_rfl, fun _ => ?_⟩
    have htokens := h.tokens (by rw [hmain]; rfl)
    rw [hmain] at htokens
    exact htokens
  | test hpc | woken hpc =>
    refine h.move rfl rfl fun hdestroys => ?_
    rw [hkeep hdestroys, hpc]
    exact le_rfl
  | wait hpc hsem =>
    refine h.move rfl rfl fun _ => ?_
    rw [hpc]
    show 0 + s.sem ≤ 1 + (s.sem - 1)
    omega
  | lock hpc | remove hpc | unlockNull hpc | unlock hpc | call hpc | back hpc | free hpc =>
    exact h.move rfl rfl fun _ => by rw [hpc]; exact le_rfl

/-- Once every token is posted, there is one for each worker in `sem_wait`. -/
theorem DestroyInv.waits_le {s : Pool n α} (h : s.DestroyInv) (hdestroys : s.main.destroys = true)
    (hposted : s.main.posted n = n) : count WorkerPc.waits s.workers ≤ s.sem := by
  have htokens := h.tokens hdestroys
  omega

/-! ## Some thread can go on -/

/-- `threadpool_job_queue_remove_first` is defined on a queue that holds nodes. -/
theorem removeFirst_defined {q : JobQueue} {h : Heap α} {ps : List Nat} (hq : q.Holds h ps) :
    ∃ out, threadpoolJobQueueRemoveFirst q h = some out := by
  cases ps with
  | nil => exact ⟨_, threadpoolJobQueueRemoveFirst_nil hq⟩
  | cons p ps =>
    obtain ⟨q', h', hremove, -⟩ := threadpoolJobQueueRemoveFirst_holds hq
    exact ⟨_, hremove⟩

section Progress

variable {s : Pool n α} (hinv : s.PoolInv) (hlives : s.main ≠ .destroyed)
include hinv hlives

/-- A worker can go on unless it waits for a token or for the mutex. -/
theorem worker_goes {i : Fin n} (hexited : s.workers i ≠ .exited)
    (hwaits : s.workers i = .waiting → 0 < s.sem) (hlocking : s.workers i = .locking →
      s.mutex = none) : ∃ s', s.step (.worker i) = some s' := by
  rw [Pool.step, workerStep]
  cases hpc : s.workers i with
  | testing | woken => exact ⟨_, rfl⟩
  | waiting => exact ⟨_, if_pos (hwaits hpc)⟩
  | locking => exact ⟨_, if_pos (hlocking hpc)⟩
  | removing =>
    obtain ⟨-, ps, hholds, -⟩ := hinv.nodes.queued hlives
    obtain ⟨out, hremove⟩ := removeFirst_defined hholds
    exact ⟨_, Option.map_eq_some_iff.mpr ⟨_, hremove, rfl⟩⟩
  | unlocking node | running node => exact ⟨_, rfl⟩
  | calling node | freeing node =>
    obtain ⟨-, c, hc⟩ := hinv.nodes.workers i node (by rw [hpc]; rfl)
    exact ⟨_, Option.map_eq_some_iff.mpr ⟨c, hc, rfl⟩⟩
  | exited => exact absurd hpc hexited

/-- A thread that has the mutex can go on. -/
theorem holder_goes {holder : Holder n} (hmutex : s.mutex = some holder) :
    ∃ l s', s.step l = some s' := by
  cases holder with
  | worker i =>
    have hlocks : (s.workers i).locks = true := (hinv.lock.worker i).mpr hmutex
    refine ⟨_, worker_goes hinv hlives (i := i) ?_ ?_ ?_⟩ <;> intro hpc <;> rw [hpc] at hlocks <;>
      exact absurd hlocks (by simp [WorkerPc.locks])
  | main =>
    have hlocks : s.main.locks = true := hinv.lock.main.mpr hmutex
    refine ⟨.main, ?_⟩
    rw [Pool.step, mainStep]
    cases hmain : s.main with
    | adding node =>
      obtain ⟨-, ps, hholds, hps⟩ := hinv.nodes.queued hlives
      have hnode : s.main.node? = some node := by rw [hmain]; rfl
      obtain ⟨-, -, c, hc⟩ := hinv.nodes.main node hnode
      have hnewps := hinv.nodes.main_not_queued hps hnode
      obtain ⟨q', h', hadd, -⟩ := threadpoolJobQueueAdd_holds hholds hc hnewps
      exact ⟨_, Option.map_eq_some_iff.mpr ⟨_, hadd, rfl⟩⟩
    | posting => exact ⟨_, rfl⟩
    | unlocking => exact ⟨_, rfl⟩
    | ready | locking | bypassing | joining | destroyed =>
      rw [hmain] at hlocks
      exact absurd hlocks (by simp [MainPc.locks])

/-- Before the end of `threadpool_destroy` some thread can go on. -/
theorem goes (hdestroy : s.DestroyInv) : ∃ l s', s.step l = some s' := by
  cases hmutex : s.mutex with
  | some holder => exact holder_goes hinv hlives hmutex
  | none =>
    cases hmain : s.main with
    | ready => exact ⟨.destroy, _, if_pos hmain⟩
    | locking node =>
      refine ⟨.main, ?_⟩
      rw [Pool.step, mainStep, hmain]
      exact ⟨_, if_pos hmutex⟩
    | adding | posting | unlocking =>
      have hlocks := hinv.lock.main.mp (by rw [hmain]; rfl)
      rw [hmutex] at hlocks
      exact absurd hlocks (by simp)
    | bypassing i =>
      refine ⟨.main, ?_⟩
      rw [Pool.step, mainStep, hmain]
      by_cases hi : i < n
      · exact ⟨_, if_pos hi⟩
      · exact ⟨_, if_neg hi⟩
    | joining i =>
      by_cases hi : i < n
      · by_cases hexited : s.workers ⟨i, hi⟩ = .exited
        · refine ⟨.main, { s with main := .joining (i + 1) }, ?_⟩
          simp [Pool.step, mainStep, hmain, hi, hexited]
        · -- The worker that is being joined goes on, with a token if it needs one.
          refine ⟨_, worker_goes hinv hlives hexited (fun hwaits => ?_) fun _ => hmutex⟩
          have hpos : 0 < count WorkerPc.waits s.workers :=
            count_pos (congrArg WorkerPc.waits hwaits)
          have hle := hdestroy.waits_le (by rw [hmain]; rfl) (by rw [hmain]; rfl)
          omega
      · obtain ⟨-, ps, hholds, -⟩ := hinv.nodes.queued hlives
        obtain ⟨h', hempty, -⟩ := threadpoolJobQueueEmpty_holds hholds
        refine ⟨.main, ?_⟩
        rw [Pool.step, mainStep, hmain]
        simp only [hi, dite_false]
        exact ⟨_, Option.map_eq_some_iff.mpr ⟨_, hempty, rfl⟩⟩
    | destroyed => exact absurd hmain hlives

end Progress

/-! ## The end is reached -/

/-- How many steps are left at most. -/
def left (s : Pool n α) : Nat := s.main.left n + total WorkerPc.left s.workers

theorem left_step {s s' : Pool n α} {l : PoolLabel n α} (hkeep : s.keepalive = false)
    (hdestroys : s.main.destroys = true) (hstep : s.step l = some s') : s'.left < s.left := by
  have hmoved {i : Fin n} {pc : WorkerPc} (hmain : s'.main = s.main)
      (hworkers : s'.workers = Function.update s.workers i pc)
      (hlt : pc.left < (s.workers i).left) : s'.left < s.left := by
    have htotal := total_update WorkerPc.left s.workers i pc
    unfold left
    rw [hmain, hworkers]
    omega
  have hmain (hworkers : s'.workers = s.workers) (hlt : s'.main.left n < s.main.left n) :
      s'.left < s.left := by
    unfold left
    rw [hworkers]
    omega
  have hoff {pc : MainPc} (hpc : pc.destroys = false) (hm : s.main = pc) : s'.left < s.left := by
    rw [hm, hpc] at hdestroys
    exact absurd hdestroys (by simp)
  cases took_of_step hstep with
  | addWork hm | destroy hm | mainLock hm | mainAdd hm | post hm | mainUnlock hm =>
    exact hoff rfl hm
  | bypass hm hi | join hm hi =>
    refine hmain rfl ?_
    rw [hm]
    simp only [MainPc.left]
    omega
  | bypassed hm | empty hm =>
    refine hmain rfl ?_
    rw [hm]
    simp only [MainPc.left]
    omega
  | test hpc | woken hpc => exact hmoved rfl rfl (by rw [hpc, hkeep]; decide)
  | wait hpc | lock hpc => exact hmoved rfl rfl (by rw [hpc]; decide)
  | remove hpc | unlockNull hpc | unlock hpc | call hpc | back hpc | free hpc =>
    exact hmoved rfl rfl (by rw [hpc]; simp [WorkerPc.left])

theorem length_le_left {s s' : Pool n α} {labels : List (PoolLabel n α)} (hinv : s.PoolInv)
    (hdestroys : s.main.destroys = true) (hrun : run Pool.step s labels = some s') :
    labels.length ≤ s.left := by
  have hstep : ∀ (s : Pool n α) (l : PoolLabel n α) s', s.PoolInv ∧ s.keepalive = false →
      s.step l = some s' → (s'.PoolInv ∧ s'.keepalive = false) ∧ s'.left < s.left := by
    rintro s l s' ⟨hinv, hkeep⟩ hs'
    refine ⟨⟨hinv.step hs', keepalive_step hkeep hs'⟩, left_step hkeep ?_ hs'⟩
    have hdestroys := hinv.tokens.keepalive
    rw [hkeep] at hdestroys
    simpa using hdestroys.symm
  have hkeep : s.keepalive = false := by
    rw [hinv.tokens.keepalive, hdestroys]
    rfl
  have hle := run_length_le hstep ⟨hinv, hkeep⟩ hrun
  omega

/-! ## What has become of the jobs -/

/-- Behind `threadpool_destroy` the nodes that were handed out have been called. -/
theorem ran_perm {s : Pool n α} (hinv : s.PoolInv) (hmain : s.main = .destroyed) :
    (s.ran ++ s.discarded).Perm s.added := by
  have hsplit := hinv.nodes.emptied hmain
  have hexited := hinv.join.exited hmain
  have hhanded : (s.handed.map Prod.snd).Nodup := by
    have hall := hinv.nodes.nodup
    rw [← hsplit] at hall
    exact hall.of_append_left
  rw [← hsplit]
  refine List.Perm.append_right _ ((List.perm_ext_iff_of_nodup hinv.nodes.ran_nodup hhanded).mpr ?_)
  intro p
  constructor
  · intro hp
    obtain ⟨i, hi⟩ := hinv.nodes.ran_handed p hp
    exact List.mem_map_of_mem hi
  · intro hp
    obtain ⟨⟨i, p⟩, hi, rfl⟩ := List.mem_map.mp hp
    rw [hinv.nodes.ran_iff i p hi, hexited i]
    simp [WorkerPc.due?]

/-- **In every state of every run, some thread can go on unless `threadpool_destroy`
has returned; in its first loop it is the main thread; from the end of that loop
on there are as many tokens as workers that are or may get in `sem_wait`; no run
goes on for ever behind the cleared flag; and when `threadpool_destroy` has
returned, every job that was ever added was run once or freed unrun.** -/
theorem destroy_of_run {labels : List (PoolLabel n α)} {s : Pool n α}
    (hrun : run Pool.step init labels = some s) :
    (s.main ≠ .destroyed → ∃ l s', s.step l = some s') ∧
    (∀ i, s.main = .bypassing i → ∃ s', s.step .main = some s') ∧
    (s.main.destroys = true → s.main.posted n = n →
      ∃ W : Finset (Fin n), (∀ i, i ∈ W ↔ s.MayWait i) ∧ W.card ≤ s.sem) ∧
    (s.main.destroys = true → ∀ labels' s', run Pool.step s labels' = some s' →
      labels'.length ≤ s.left) ∧
    (s.main = .destroyed →
      (∀ i, s.workers i = .exited) ∧ (s.ran ++ s.discarded).Perm s.added ∧ s.added.Nodup) := by
  have hstep : ∀ (s : Pool n α) (l : PoolLabel n α) s', s.PoolInv ∧ s.DestroyInv →
      s.step l = some s' → s'.PoolInv ∧ s'.DestroyInv :=
    fun s l s' h hs' => ⟨h.1.step hs', h.2.step h.1 hs'⟩
  obtain ⟨hinv, hdestroy⟩ := run_preserves hstep ⟨PoolInv.init, DestroyInv.init⟩ hrun
  refine ⟨fun hlives => goes hinv hlives hdestroy, ?_, ?_, ?_, ?_⟩
  · intro i hmain
    rw [Pool.step, mainStep, hmain]
    by_cases hi : i < n
    · exact ⟨_, if_pos hi⟩
    · exact ⟨_, if_neg hi⟩
  · intro hdestroys hposted
    have hkeep : s.keepalive = false := by
      rw [hinv.tokens.keepalive, hdestroys]
      rfl
    refine ⟨Finset.univ.filter fun i => (s.workers i).waits, ?_, ?_⟩
    · intro i
      rw [mayWait_iff hkeep, Finset.mem_filter]
      cases s.workers i <;> simp [WorkerPc.waits]
    · rw [← count_eq_card]
      exact hdestroy.waits_le hdestroys hposted
  · exact fun hdestroys labels' s' hrun' => length_le_left hinv hdestroys hrun'
  · exact fun hmain => ⟨hinv.join.exited hmain, ran_perm hinv hmain,
      hinv.nodes.nodup⟩

/-- Two jobs are added; one worker has taken the first when `threadpool_destroy` is
entered, and both leave before the second is taken. -/
def destroyWithQueued : List (PoolLabel 2 Nat) :=
  let first : Fin 2 := ⟨0, Nat.two_pos⟩
  let second : Fin 2 := ⟨1, Nat.one_lt_two⟩
  addTwo ++ .worker second :: .destroy :: List.replicate 3 .main ++
    List.replicate 4 (.worker first) ++ List.replicate 3 (.worker second) ++
    List.replicate 3 .main

theorem destroy_of_destroyWithQueued :
    ∃ s, run Pool.step init destroyWithQueued = some s ∧ s.ran = [0] ∧ s.discarded = [1] ∧
      (s.ran ++ s.discarded).Perm s.added := by
  have hrun : (run Pool.step init destroyWithQueued).map
      (fun s => (s.main, s.ran, s.discarded)) = some (.destroyed, [0], [1]) := by decide +kernel
  obtain ⟨s, hs, hstate⟩ := Option.map_eq_some_iff.mp hrun
  simp only [Prod.mk.injEq] at hstate
  obtain ⟨hmain, hran, hdiscarded⟩ := hstate
  exact ⟨s, hs, hran, hdiscarded, ((destroy_of_run hs).2.2.2.2 hmain).2.1⟩

end WowProxy.Pool
