/-
  Server/Teardown.lean --- the end of `main`: what the workers still hold when
  `destory_commands_table` and `destory_request_auth` free it.

  The machine is the thread pool with `read_sock_func` filled in as far as it touches
  the command table and the authorization string: `parse_object` up to
  `value_for_key`, the members of the `Command`, the rendering with its template, and
  the string that `make_soap_request` fetches.  Behind its loop `main` frees the rows of
  the table one by one, then the string, and only then enters `threadpool_destroy`.

  A row is named by its place in the table that `init_commands_table` built.  The keys
  of that table are distinct.
-/
import WowProxy.Server.State
import WowProxy.Threadpool.Acceptance
import WowProxy.Threadpool.Dispatch

set_option autoImplicit false

namespace WowProxy

open WowProxy.Lib.Runs

/-! ## The steps of `parse_object` -/

/-- `parse_object` up to `value_for_key`: both objects, and the string that names the
command. -/
def beforeLookup (cmds keys : Option CJson) : Except JsonError (CJson × CJson × List UInt8) :=
  match cmds, keys with
  | some cmds, some keys =>
    if keys.getArraySize > 5 ∨ keys.getArraySize ≤ 1 then .error .paramNumErr
    else
      match vaildItem cmds keys 0 with
      | .error e => .error e
      | .ok op => .ok (cmds, keys, op)
  | _, _ => .error .paramNull

/-- `parse_object` from the members of the `Command` to the rendering: the parameters. -/
def afterLookup (cmds keys : CJson) (row : Command) : Except JsonError (List (List UInt8)) :=
  if (keys.getArraySize : Int) - 1 ≠ row.paramNum then .error .paramNumErr
  else if row.deprecated then .error .deprecated
  else collectParms cmds keys (keys.getArraySize - 1) []

/-- With the lookup between them these are `parse_object`. -/
theorem parseObject_eq (d : Decoder) (cmds keys : Option CJson) :
    parseObject d cmds keys =
      (beforeLookup cmds keys).bind fun found =>
        (d.valueForKey (atoi found.2.2)).elim (.error .commandNoExist) fun row =>
          (afterLookup found.1 found.2.1 row).map row.render := by
  unfold parseObject beforeLookup
  cases cmds with
  | none => rfl
  | some cmds =>
    cases keys with
    | none => rfl
    | some keys =>
      dsimp only
      by_cases hsize : keys.getArraySize > 5 ∨ keys.getArraySize ≤ 1
      · rw [if_pos hsize, if_pos hsize]
        rfl
      rw [if_neg hsize, if_neg hsize]
      cases vaildItem cmds keys 0 with
      | error e => rfl
      | ok op =>
        simp only [Except.bind]
        cases d.valueForKey (atoi op) with
        | none => rfl
        | some row =>
          simp only [Option.elim_some, afterLookup]
          by_cases hnum : (keys.getArraySize : Int) - 1 ≠ row.paramNum
          · rw [if_pos hnum, if_pos hnum]
            rfl
          rw [if_neg hnum, if_neg hnum]
          by_cases hdeprecated : row.deprecated = true
          · rw [if_pos hdeprecated, if_pos hdeprecated]
            rfl
          rw [if_neg hdeprecated, if_neg hdeprecated]
          cases collectParms cmds keys (keys.getArraySize - 1) [] <;> rfl

/-- The commands of a message with their keys, as `analysis_message` goes through them. -/
def batchOf (root : CJson) : List (Option CJson × Option CJson) :=
  match root.getObjectItem (some (ascii "values")), root.getObjectItem (some (ascii "keys")) with
  | some cmdsArray, some keysArray =>
    (List.range (min keysArray.getArraySize cmdsArray.getArraySize)).map fun i =>
      (cmdsArray.getArrayItem i, keysArray.getArrayItem i)
  | _, _ => []

/-! ## The machine -/

/-- What is left of a message in `analysis_message`. -/
structure Parsing where
  done : List ParsedCommand
  todo : List (Option CJson × Option CJson)

/-- Where a worker is in `read_sock_func`. -/
inductive ReaderPc where
  /-- not in it -/
  | outside
  /-- at the top of its loop -/
  | reading
  /-- in `analysis_message`, in front of the next `parse_object` -/
  | parsing (m : Parsing)
  /-- in front of `value_for_key` -/
  | looking (cmds keys : CJson) (op : List UInt8) (m : Parsing)
  /-- with a `Command`, in front of its members -/
  | holding (row : Nat) (cmds keys : CJson) (m : Parsing)
  /-- in front of `snprintf`, with the template in the `Command` -/
  | rendering (row : Nat) (parms : List (List UInt8)) (needRsp is2Pipe : Bool) (m : Parsing)
  /-- in the inner loop, with the commands still to be executed -/
  | executing (cmds : List ParsedCommand)
  /-- in `make_soap_request`, with the string of `fetch_request_auth` -/
  | encoding (cmds : List ParsedCommand)
  /-- behind its loop -/
  | leaving

/-- The worker is in the loop of `read_sock_func`. -/
def ReaderPc.inLoop : ReaderPc → Bool
  | outside => false
  | leaving => false
  | _ => true

/-- How far `main` is. -/
inductive MainPhase where
  /-- in its loop -/
  | looping
  /-- in `destory_commands_table`, or in front of it -/
  | freeingTable
  /-- in front of `destory_request_auth` -/
  | freeingAuth
  /-- in front of `threadpool_destroy`, or in it -/
  | destroyingPool
  deriving DecidableEq, Repr

/-- A use of something that had been freed. -/
inductive StaleUse where
  /-- `value_for_key` looks into the table -/
  | lookup
  /-- a member of a `Command` -/
  | row (r : Nat)
  /-- the string of `fetch_request_auth` -/
  | auth
  deriving DecidableEq, Repr

/-- The server with its `n` workers. -/
structure Shutdown (n : Nat) where
  pool : Pool n Job
  phase : MainPhase
  /-- the rows of the table, freed ones included -/
  rows : List (Int × Command)
  /-- how many of them have been freed -/
  freed : Nat
  /-- `init_request_auth` has stored a string -/
  auth : Bool
  readers : Fin n → ReaderPc
  /-- the uses of freed things, in order -/
  stale : List StaleUse

/-- One step of one party. -/
inductive ShutdownLabel (n : Nat) where
  /-- a step of the thread pool -/
  | pool (l : PoolLabel n Job)
  /-- worker `i` reads a message and its tree, or none -/
  | receive (i : Fin n) (root : Option CJson)
  /-- worker `i` goes on in `read_sock_func`; `connects` says whether the game server can
  be reached -/
  | reader (i : Fin n) (connects : Bool)
  /-- `main` leaves its loop -/
  | stop
  /-- `main` goes on freeing -/
  | teardown

/-- The job is one of `read_sock_func`. -/
def Job.reads : Job → Bool
  | .read _ => true
  | _ => false

namespace Shutdown

variable {n : Nat}

/-- The server in front of its loop. -/
def init (rows : List (Int × Command)) (auth : Bool) : Shutdown n :=
  { pool := Pool.init, phase := .looping, rows, freed := 0, auth, readers := fun _ => .outside,
    stale := [] }

/-- `destory_commands_table` has freed a row, or has returned. -/
def tableGone (s : Shutdown n) : Bool :=
  s.freed != 0 || s.phase == .freeingAuth || s.phase == .destroyingPool

/-- `destory_request_auth` has returned. -/
def authGone (s : Shutdown n) : Bool := s.phase == .destroyingPool

/-- `value_for_key` among the rows that are left. -/
def valueForKey (s : Shutdown n) (key : Int) : Option Nat :=
  ((s.rows.drop s.freed).findIdx? fun row => row.1 == key).map (s.freed + ·)

/-- Record a use if what is used is gone. -/
def use (s : Shutdown n) (gone : Bool) (u : StaleUse) : Shutdown n :=
  if gone then { s with stale := s.stale ++ [u] } else s

/-- Move a worker in `read_sock_func`. -/
def setReader (s : Shutdown n) (i : Fin n) (pc : ReaderPc) : Shutdown n :=
  { s with readers := Function.update s.readers i pc }

/-- The threads that can take this step of the pool. -/
def allows (s : Shutdown n) : PoolLabel n Job → Bool
  | .addWork _ => s.phase == .looping
  | .destroy => s.phase == .destroyingPool
  | .main => true
  | .worker i =>
    match s.pool.workers i with
    | .running _ => !(s.readers i).inLoop
    | _ => true

/-- Where the workers are in `read_sock_func` behind a step of the pool. -/
def readersBehind (s : Shutdown n) : PoolLabel n Job → Fin n → ReaderPc
  | .worker i =>
    match s.pool.workers i with
    | .calling node =>
      Function.update s.readers i
        (if (s.pool.jobs[node]?).any Job.reads then .reading else .outside)
    | .running _ => Function.update s.readers i .outside
    | _ => s.readers
  | _ => s.readers

/-- The next step of a worker in `read_sock_func`. -/
def readerStep (s : Shutdown n) (i : Fin n) (connects : Bool) : Option (Shutdown n) :=
  match s.readers i with
  | .outside => none
  | .reading => none
  | .parsing ⟨done, []⟩ => some (s.setReader i (.executing done))
  | .parsing ⟨done, (cmds, keys) :: todo⟩ =>
    some (s.setReader i (match beforeLookup cmds keys with
      | .error _ => .leaving
      | .ok (cmds, keys, op) => .looking cmds keys op ⟨done, todo⟩))
  | .looking cmds keys op m =>
    some ((s.use s.tableGone .lookup).setReader i (match s.valueForKey (atoi op) with
      | none => .leaving
      | some row => .holding row cmds keys m))
  | .holding row cmds keys m =>
    (s.rows[row]?).map fun (_, cmdObj) =>
      (s.use (row < s.freed) (.row row)).setReader i (match afterLookup cmds keys cmdObj with
        | .error _ => .leaving
        | .ok parms => .rendering row parms cmdObj.needRsp cmdObj.is2Pipe m)
  | .rendering row parms needRsp is2Pipe m =>
    (s.rows[row]?).map fun (_, cmdObj) =>
      (s.use (row < s.freed) (.row row)).setReader i (.parsing
        ⟨m.done ++ [{ cmd := snprintf commandBufSize cmdObj.value parms, needRsp, is2Pipe }],
          m.todo⟩)
  | .executing [] => some (s.setReader i .reading)
  | .executing (cmd :: cmds) =>
    -- `fetch_request_auth` returns `NULL` once the string is freed.
    some (s.setReader i
      (if cmd.is2Pipe && connects && !cmd.cmd.isEmpty && s.auth && !s.authGone then .encoding cmds
       else .executing cmds))
  | .encoding cmds => some ((s.use s.authGone .auth).setReader i (.executing cmds))
  | .leaving => none

/-- The next step of `main` behind its loop. -/
def teardownStep (s : Shutdown n) : Option (Shutdown n) :=
  match s.phase with
  | .looping => none
  | .freeingTable =>
    if s.freed < s.rows.length then some { s with freed := s.freed + 1 }
    else some { s with phase := .freeingAuth }
  | .freeingAuth => some { s with phase := .destroyingPool }
  | .destroyingPool => none

/-- One step of the machine. -/
def step (s : Shutdown n) : ShutdownLabel n → Option (Shutdown n)
  | .pool l =>
    if s.allows l then
      (s.pool.step l).map fun pool => { s with pool, readers := s.readersBehind l }
    else none
  | .receive i root =>
    match s.readers i with
    | .reading =>
      some (s.setReader i (match root.map batchOf with
        | none => .leaving
        | some [] => .leaving
        | some batch => .parsing ⟨[], batch⟩))
    | _ => none
  | .reader i connects => s.readerStep i connects
  | .stop =>
    if s.phase = .looping ∧ s.pool.main = .ready then some { s with phase := .freeingTable }
    else none
  | .teardown => s.teardownStep

/-! ## Quiet workers -/

/-- Every job of `read_sock_func` has been called, and no worker is in its loop. -/
structure Quiet (s : Shutdown n) : Prop where
  called : ∀ p < s.pool.jobs.length, (s.pool.jobs[p]?).any Job.reads = true → p ∈ s.pool.ran
  outside : ∀ i, (s.readers i).inLoop = false

instance (s : Shutdown n) : Decidable s.Quiet :=
  decidable_of_iff
    ((∀ p < s.pool.jobs.length, (s.pool.jobs[p]?).any Job.reads = true → p ∈ s.pool.ran) ∧
      ∀ i, (s.readers i).inLoop = false)
    ⟨fun h => ⟨h.1, h.2⟩, fun h => ⟨h.called, h.outside⟩⟩

/-- Only behind quiet workers does `main` free. -/
def FreesQuietly (s : Shutdown n) : ShutdownLabel n → Prop
  | .teardown => s.Quiet
  | _ => True

instance (s : Shutdown n) : ∀ l, Decidable (s.FreesQuietly l)
  | .teardown => inferInstanceAs (Decidable s.Quiet)
  | .pool _ | .receive _ _ | .reader _ _ | .stop => isTrue trivial

/-- Nothing has been freed yet, or nobody is left to use it. -/
structure TeardownInv (s : Shutdown n) : Prop where
  pool : s.pool.PoolInv
  safe : (s.tableGone = false ∧ s.authGone = false ∧ s.freed = 0) ∨
    (s.phase ≠ .looping ∧ s.Quiet)
  stale : s.stale = []

theorem TeardownInv.init (rows : List (Int × Command)) (auth : Bool) :
    (init rows auth : Shutdown n).TeardownInv where
  pool := Pool.PoolInv.init
  safe := Or.inl ⟨rfl, rfl, rfl⟩
  stale := rfl

/-! ## What a step changes -/

variable {s s' : Shutdown n}

/-- The two states differ in the readers at most. -/
structure OnlyReaders (s s' : Shutdown n) : Prop where
  pool : s'.pool = s.pool
  phase : s'.phase = s.phase
  freed : s'.freed = s.freed
  stale : s'.stale = s.stale

theorem OnlyReaders.setReader (i : Fin n) (pc : ReaderPc) : OnlyReaders s (s.setReader i pc) :=
  ⟨rfl, rfl, rfl, rfl⟩

theorem OnlyReaders.use {gone : Bool} (hgone : gone = false) (u : StaleUse) (i : Fin n)
    (pc : ReaderPc) : OnlyReaders s ((s.use gone u).setReader i pc) := by
  subst hgone
  exact .setReader i pc

/-- As long as nothing is freed, no use is stale. -/
theorem OnlyReaders.of_readerStep {i : Fin n} {connects : Bool}
    (htable : s.tableGone = false) (hauth : s.authGone = false) (hfreed : s.freed = 0)
    (h : s.readerStep i connects = some s') : OnlyReaders s s' := by
  have hrow : ∀ row, decide (row < s.freed) = false := fun row => by
    rw [hfreed]
    exact decide_eq_false (Nat.not_lt_zero row)
  unfold readerStep at h
  split at h
  · exact absurd h (by simp)
  · exact absurd h (by simp)
  · obtain rfl := Option.some.inj h
    exact .setReader i _
  · obtain rfl := Option.some.inj h
    exact .setReader i _
  · obtain rfl := Option.some.inj h
    exact .use htable _ i _
  · obtain ⟨_, -, rfl⟩ := Option.map_eq_some_iff.mp h
    exact .use (hrow _) _ i _
  · obtain ⟨_, -, rfl⟩ := Option.map_eq_some_iff.mp h
    exact .use (hrow _) _ i _
  · obtain rfl := Option.some.inj h
    exact .setReader i _
  · obtain rfl := Option.some.inj h
    exact .setReader i _
  · obtain rfl := Option.some.inj h
    exact .use hauth _ i _
  · exact absurd h (by simp)

/-- A worker that goes on in `read_sock_func` is in its loop. -/
theorem inLoop_of_readerStep {i : Fin n} {connects : Bool}
    (h : s.readerStep i connects = some s') : (s.readers i).inLoop = true := by
  cases hpc : s.readers i with
  | outside | leaving => simp [readerStep, hpc] at h
  | reading | parsing | looking | holding | rendering | executing | encoding => rfl

/-- A step inside `read_sock_func`, taken before anything is freed or by nobody. -/
theorem TeardownInv.onlyReaders (h : s.TeardownInv) (honly : OnlyReaders s s')
    (hloop : ∃ i, (s.readers i).inLoop = true) : s'.TeardownInv := by
  refine ⟨by rw [honly.pool]; exact h.pool, ?_, by rw [honly.stale]; exact h.stale⟩
  rcases h.safe with ⟨htable, hauth, hfreed⟩ | ⟨-, hquiet⟩
  · refine Or.inl ⟨?_, ?_, by rw [honly.freed]; exact hfreed⟩
    · rw [tableGone, honly.freed, honly.phase]
      exact htable
    · rw [authGone, honly.phase]
      exact hauth
  · obtain ⟨i, hi⟩ := hloop
    rw [hquiet.outside i] at hi
    exact absurd hi Bool.false_ne_true

/-- Behind the loop of `main` the pool starts no job of `read_sock_func` again. -/
theorem Quiet.pool {l : PoolLabel n Job} {pool : Pool n Job} (hquiet : s.Quiet)
    (hinv : s.pool.PoolInv) (hphase : s.phase ≠ .looping) (hallows : s.allows l = true)
    (hstep : s.pool.step l = some pool) :
    ({ s with pool, readers := s.readersBehind l } : Shutdown n).Quiet := by
  have hjobs : pool.jobs = s.pool.jobs := Pool.jobs_of_step hstep fun job hl => by
    subst hl
    exact hphase (by simpa [allows] using hallows)
  refine ⟨fun p hp hreads => ?_, ?_⟩
  · replace hp : p < pool.jobs.length := hp
    replace hreads : (pool.jobs[p]?).any Job.reads = true := hreads
    rw [hjobs] at hp hreads
    exact Pool.ran_of_step hstep (hquiet.called p hp hreads)
  · intro j
    show (s.readersBehind l j).inLoop = false
    cases l with
    | addWork | destroy | main => exact hquiet.outside j
    | worker i =>
      have hmoved : ∀ pc : ReaderPc, pc.inLoop = false →
          (Function.update s.readers i pc j).inLoop = false := by
        intro pc hpc
        by_cases hj : j = i
        · rw [hj, Function.update_self, hpc]
        · rw [Function.update_of_ne hj]
          exact hquiet.outside j
      cases hpc : s.pool.workers i with
      | calling node =>
        -- The function of this node has not been called yet.
        have hnode : node ∉ s.pool.ran := by
          have hhanded := (hinv.nodes.workers i node (by rw [hpc]; rfl)).1
          rw [hinv.nodes.ran_iff i node hhanded, hpc]
          exact fun hdue => hdue rfl
        have hreads : ¬ (s.pool.jobs[node]?).any Job.reads = true := by
          intro hreads
          obtain ⟨job, hjob, -⟩ := (Option.any_eq_true _ _).mp hreads
          exact hnode (hquiet.called node (List.getElem?_eq_some_iff.mp hjob).1 hreads)
        simp only [readersBehind, hpc, if_neg hreads]
        exact hmoved .outside rfl
      | running node =>
        simp only [readersBehind, hpc]
        exact hmoved .outside rfl
      | testing | waiting | woken | locking | removing | unlocking | freeing | exited =>
        simp only [readersBehind, hpc]
        exact hquiet.outside j

theorem TeardownInv.step {l : ShutdownLabel n} (h : s.TeardownInv) (hfrees : s.FreesQuietly l)
    (hstep : s.step l = some s') : s'.TeardownInv := by
  cases l with
  | pool l =>
    rw [Shutdown.step] at hstep
    split at hstep
    · rename_i hallows
      obtain ⟨pool, hpool, rfl⟩ := Option.map_eq_some_iff.mp hstep
      refine ⟨h.pool.step hpool, ?_, h.stale⟩
      rcases h.safe with hnothing | ⟨hphase, hquiet⟩
      · exact Or.inl hnothing
      · exact Or.inr ⟨hphase, hquiet.pool h.pool hphase hallows hpool⟩
    · exact absurd hstep (by simp)
  | receive i root =>
    rw [Shutdown.step] at hstep
    split at hstep
    · rename_i hpc
      obtain rfl := Option.some.inj hstep
      exact h.onlyReaders (.setReader i _) ⟨i, by rw [hpc]; rfl⟩
    · exact absurd hstep (by simp)
  | reader i connects =>
    have hloop := inLoop_of_readerStep hstep
    rcases h.safe with ⟨htable, hauth, hfreed⟩ | ⟨-, hquiet⟩
    · exact h.onlyReaders (.of_readerStep htable hauth hfreed hstep) ⟨i, hloop⟩
    · rw [hquiet.outside i] at hloop
      exact absurd hloop Bool.false_ne_true
  | stop =>
    rw [Shutdown.step] at hstep
    split at hstep
    · rename_i hloop
      obtain rfl := Option.some.inj hstep
      refine ⟨h.pool, ?_, h.stale⟩
      rcases h.safe with ⟨-, -, hfreed⟩ | ⟨hphase, -⟩
      · refine Or.inl ⟨?_, rfl, hfreed⟩
        simp [tableGone, hfreed]
      · exact absurd hloop.1 hphase
    · exact absurd hstep (by simp)
  | teardown =>
    have hquiet : s.Quiet := hfrees
    have hkeep : ∀ s' : Shutdown n, s'.pool = s.pool → s'.readers = s.readers →
        s'.stale = s.stale → s'.phase ≠ .looping → s'.TeardownInv := by
      intro s' hpool hreaders hstale hphase
      refine ⟨by rw [hpool]; exact h.pool, Or.inr ⟨hphase, ?_, ?_⟩, by rw [hstale]; exact h.stale⟩
      · rw [hpool]
        exact hquiet.called
      · rw [hreaders]
        exact hquiet.outside
    cases hphase : s.phase with
    | looping => simp [Shutdown.step, teardownStep, hphase] at hstep
    | destroyingPool => simp [Shutdown.step, teardownStep, hphase] at hstep
    | freeingTable =>
      simp only [Shutdown.step, teardownStep, hphase] at hstep
      split at hstep <;> obtain rfl := Option.some.inj hstep
      · exact hkeep _ rfl rfl rfl (by simp)
      · exact hkeep _ rfl rfl rfl (by simp)
    | freeingAuth =>
      simp only [Shutdown.step, teardownStep, hphase] at hstep
      obtain rfl := Option.some.inj hstep
      exact hkeep _ rfl rfl rfl (by simp)

/-- **In every run in which `main` frees only when all jobs of `read_sock_func` have been
called and none is in its loop, no worker looks up the command table, a `Command` or the
authorization string after it was freed.** -/
theorem nothing_stale_of_quiet {rows : List (Int × Command)} {auth : Bool}
    {labels : List (ShutdownLabel n)} {s : Shutdown n}
    (hquiet : Meets Shutdown.step FreesQuietly (init rows auth) labels)
    (hrun : run Shutdown.step (init rows auth) labels = some s) : s.stale = [] :=
  (run_invariant (fun _ _ _ h hfrees hs => TeardownInv.step h hfrees hs)
    (TeardownInv.init rows auth) hquiet hrun).stale

/-! ## One announcement -/

/-- The table of the announcement. -/
def announceRows : List (Int × Command) := [(1, announceRow)]

/-- The event loop adds a read job, a worker takes it and reads the announcement. -/
def announced : List (ShutdownLabel 1) :=
  .pool (.addWork (.read 0)) :: List.replicate 4 (.pool .main) ++
    List.replicate 7 (.pool (.worker 0)) ++ [.receive 0 (some announceRoot)]

/-- `main` frees the table while the worker has the `Command`. -/
theorem command_used_freed : ¬ ∀ (n : Nat) (rows : List (Int × Command)) (auth : Bool)
    (labels : List (ShutdownLabel n)) (s : Shutdown n),
    run Shutdown.step (init rows auth) labels = some s → s.stale = [] := by
  intro halways
  have hrun : (run Shutdown.step (init announceRows true)
      (announced ++ List.replicate 2 (.reader 0 true) ++
        [.stop, .teardown, .reader 0 true])).map Shutdown.stale = some [.row 0] := by
    decide +kernel
  obtain ⟨s, hs, hstale⟩ := Option.map_eq_some_iff.mp hrun
  rw [halways 1 _ _ _ s hs] at hstale
  exact absurd hstale (by decide)

/-- The worker sends the announcement and leaves its loop before `main` frees. -/
def announcedAndLeft : List (ShutdownLabel 1) :=
  announced ++ List.replicate 8 (.reader 0 true) ++ [.receive 0 none, .stop] ++
    List.replicate 3 .teardown

theorem nothing_stale_of_announcedAndLeft :
    ∃ s, run Shutdown.step (init announceRows true) announcedAndLeft = some s ∧
      s.phase = .destroyingPool ∧ s.stale = [] := by
  have hrun : (run Shutdown.step (init announceRows true) announcedAndLeft).map Shutdown.phase =
      some .destroyingPool := by decide +kernel
  have hquiet : Meets Shutdown.step FreesQuietly (init announceRows true) announcedAndLeft := by
    decide +kernel
  obtain ⟨s, hs, hphase⟩ := Option.map_eq_some_iff.mp hrun
  exact ⟨s, hs, hphase, nothing_stale_of_quiet hquiet hs⟩

end Shutdown

end WowProxy
