/-
  Common/Timer.lean --- the timers of `timer.c` and the places they are kept in.

  A timer is an entry of `g_timer_table`, a descriptor that epoll watches, an open
  descriptor, a descriptor that a caller holds, and a `TIMER_DATA` that the entry points
  to.  `add_a_timer` frees the record it has just stored, and the entry it allocates
  never gets its key; so these agree only while no timer has been stored.
-/
import WowProxy.Lib.Runs

set_option autoImplicit false

namespace WowProxy

open WowProxy.Lib.Runs

/-! ## The registry -/

/-- `TIMER_DATA` -/
structure TimerData (Func : Type) where
  func : Func
  sock : Int

/-- An entry of `g_timer_table`.  The record is named by its allocation. -/
structure TimerEntry where
  timerFd : Int
  timerData : Nat
  deriving DecidableEq

/-- The state of `timer.c`, with the kernel's side of it, the allocated records and the
descriptors that callers hold.  Allocations are numbered and no number is used twice. -/
structure TimerRegistry (Func : Type) where
  gEpollFd : Int
  gRunning : Bool
  gTimerTable : List TimerEntry
  /-- what `EPOLL_CTL_ADD` has added -/
  watched : List Int
  /-- the open timer descriptors -/
  opened : List Int
  /-- the records that are allocated and not freed -/
  live : Nat → Option (TimerData Func)
  allocated : Nat
  /-- what `register_a_timer` has returned and `cancel_a_timer` has not cancelled, with the
  record given -/
  held : List (Int × TimerData Func)

/-- What is outside of `register_a_timer`: the results of the calls it makes, and what
`malloc` leaves in a new entry. -/
structure RegisterOutcome where
  timerfdCreate : Int
  clockGettime : Bool
  timerfdSettime : Bool
  wrlock : Bool
  /-- `timer_fd` of the new entry -/
  garbage : Int
  epollAdd : Bool

/-- What is outside of `cancel_a_timer`: the results of the calls it makes, and what `free`
leaves in the entry. -/
structure CancelOutcome where
  epollDel : Bool
  wrlock : Bool
  /-- `timer_fd` of the freed entry -/
  garbage : Int

/-- A call of the two functions. -/
inductive TimerCall (Func : Type) where
  | register (delay : Int) (func : Func) (priv : Int) (o : RegisterOutcome)
  | cancel (timerFd : Int) (o : CancelOutcome)

namespace TimerRegistry

variable {Func : Type}

/-- Before the first timer. -/
def init (gEpollFd : Int) (gRunning : Bool) : TimerRegistry Func :=
  { gEpollFd, gRunning, gTimerTable := [], watched := [], opened := [], live := fun _ => none,
    allocated := 0, held := [] }

/-! ## The calls -/

def close (s : TimerRegistry Func) (fd : Int) : TimerRegistry Func :=
  { s with opened := s.opened.erase fd }

def malloc (s : TimerRegistry Func) (data : TimerData Func) : TimerRegistry Func :=
  { s with
    live := fun address => if address = s.allocated then some data else s.live address
    allocated := s.allocated + 1 }

def free (s : TimerRegistry Func) (data : Nat) : TimerRegistry Func :=
  { s with live := fun address => if address = data then none else s.live address }

/-- `HASH_FIND_INT` -/
def find (s : TimerRegistry Func) (timerFd : Int) : Option TimerEntry :=
  s.gTimerTable.find? (·.timerFd = timerFd)

/-- `add_a_timer`.  `HASH_ADD_INT` takes the key from the new entry, where only
`timer_data` has been set. -/
def addATimer (s : TimerRegistry Func) (timerFd : Int) (timerData : Nat) (wrlock : Bool)
    (garbage : Int) : Bool × TimerRegistry Func :=
  if wrlock = false then (false, s)
  else
    match s.find timerFd with
    | none =>
      let s := { s with gTimerTable := ⟨garbage, timerData⟩ :: s.gTimerTable }
      (true, s.free timerData)
    | some tmp =>
      let s := s.free tmp.timerData
      (true, { s with gTimerTable := s.gTimerTable.replace tmp { tmp with timerData } })

/-- `free_a_timer`.  The entry is read for `close` after it has been freed. -/
def freeATimer (s : TimerRegistry Func) (timerFd : Int) (wrlock : Bool) (garbage : Int) :
    Bool × TimerRegistry Func :=
  if wrlock = false then (false, s)
  else
    match s.find timerFd with
    | none => (true, s)
    | some column =>
      let s := { s with gTimerTable := s.gTimerTable.erase column }
      (true, (s.free column.timerData).close garbage)

/-- `create_timerfd`, without the times it computes. -/
def createTimerfd (s : TimerRegistry Func) (o : RegisterOutcome) : Int × TimerRegistry Func :=
  if o.timerfdCreate < 0 then (-2, s)
  else
    let s := { s with opened := o.timerfdCreate :: s.opened }
    if o.clockGettime = false then (-3, s.close o.timerfdCreate) else (o.timerfdCreate, s)

/-- `register_a_timer` from the record on: stores the descriptor and has epoll watch it. -/
def storeATimer (s : TimerRegistry Func) (timerFd : Int) (func : Func) (priv : Int)
    (o : RegisterOutcome) : Int × TimerRegistry Func :=
  let column := s.allocated
  let (added, s) := (s.malloc { func, sock := priv }).addATimer timerFd column o.wrlock o.garbage
  if added then
    if o.epollAdd then (timerFd, { s with watched := timerFd :: s.watched }) else (-1, s)
  else (-1, s.free column)

def registerATimer (s : TimerRegistry Func) (delay : Int) (func : Func) (priv : Int)
    (o : RegisterOutcome) : Int × TimerRegistry Func :=
  if delay ≤ 0 ∨ s.gEpollFd ≤ 0 ∨ s.gRunning = false then (-1, s)
  else
    let (timerFd, s) := s.createTimerfd o
    if timerFd < 0 then (timerFd, s)
    else if o.timerfdSettime = false then (-1, s.close timerFd)
    else s.storeATimer timerFd func priv o

def cancelATimer (s : TimerRegistry Func) (timerFd : Int) (o : CancelOutcome) :
    Bool × TimerRegistry Func :=
  if s.gEpollFd ≤ 0 ∨ s.gRunning = false ∨ timerFd < 0 then (false, s)
  else if o.epollDel = false then (false, s)
  else { s with watched := s.watched.filter (· ≠ timerFd) }.freeATimer timerFd o.wrlock o.garbage

/-- A call, and whether it succeeds; a descriptor that is returned is held from then on, and
one that is cancelled no longer. -/
def execute (s : TimerRegistry Func) : TimerCall Func → Bool × TimerRegistry Func
  | .register delay func priv o =>
    let (timerFd, s) := s.registerATimer delay func priv o
    if timerFd < 0 then (false, s)
    else (true, { s with held := (timerFd, { func, sock := priv }) :: s.held })
  | .cancel timerFd o =>
    let (cancelled, s) := s.cancelATimer timerFd o
    if cancelled then (true, { s with held := s.held.filter (·.1 ≠ timerFd) }) else (false, s)

/-- Every call can be made in every state. -/
def step (s : TimerRegistry Func) (call : TimerCall Func) : Option (TimerRegistry Func) :=
  some (s.execute call).2

/-! ## What a call should leave -/

/-- The timers are the same everywhere, and every entry points to the live record that was
given for it. -/
structure Consistent (s : TimerRegistry Func) : Prop where
  watched_iff : ∀ fd, fd ∈ s.watched ↔ fd ∈ s.gTimerTable.map (·.timerFd)
  opened_iff : ∀ fd, fd ∈ s.opened ↔ fd ∈ s.gTimerTable.map (·.timerFd)
  held_iff : ∀ fd, fd ∈ s.held.map (·.1) ↔ fd ∈ s.gTimerTable.map (·.timerFd)
  data_live : ∀ entry ∈ s.gTimerTable, ∃ data,
    s.live entry.timerData = some data ∧ (entry.timerFd, data) ∈ s.held

/-- The call leaves a consistent state, and the old one when it fails. -/
def KeepsConsistent (s : TimerRegistry Func) (call : TimerCall Func) : Prop :=
  (s.execute call).2.Consistent ∧ ((s.execute call).1 = false → (s.execute call).2 = s)

end TimerRegistry

/-- The call gives up before `add_a_timer`. -/
def RegisterOutcome.GivesUp (o : RegisterOutcome) (gEpollFd : Int) (gRunning : Bool)
    (delay : Int) : Prop :=
  (delay ≤ 0 ∨ gEpollFd ≤ 0 ∨ gRunning = false) ∨ o.timerfdCreate < 0 ∨
    o.clockGettime = false ∨ o.timerfdSettime = false

/-- The call stores no timer. -/
def TimerCall.StoresNothing {Func : Type} (gEpollFd : Int) (gRunning : Bool) :
    TimerCall Func → Prop
  | .register delay _ _ o => o.GivesUp gEpollFd gRunning delay
  | .cancel _ _ => True

namespace TimerRegistry

variable {Func : Type}

/-! ## Storing a timer -/

/-- A call that gives up leaves everything as it was. -/
theorem registerATimer_of_givesUp {s : TimerRegistry Func} {delay : Int} {o : RegisterOutcome}
    (h : o.GivesUp s.gEpollFd s.gRunning delay) (func : Func) (priv : Int) :
    ∃ r, r < 0 ∧ s.registerATimer delay func priv o = (r, s) := by
  have hclose : close { s with opened := o.timerfdCreate :: s.opened } o.timerfdCreate = s := by
    rw [close, List.erase_cons_head]
  unfold registerATimer
  by_cases hargs : delay ≤ 0 ∨ s.gEpollFd ≤ 0 ∨ s.gRunning = false
  · exact ⟨-1, by decide, if_pos hargs⟩
  rw [if_neg hargs]
  unfold createTimerfd
  by_cases hcreate : o.timerfdCreate < 0
  · exact ⟨-2, by decide, by simp [hcreate]⟩
  by_cases htime : o.clockGettime = false
  · exact ⟨-3, by decide, by simp [hcreate, htime, hclose]⟩
  have hsettime := ((h.resolve_left hargs).resolve_left hcreate).resolve_left htime
  exact ⟨-1, by decide, by simp [hcreate, htime, hsettime, hclose]⟩

/-- A call that does not give up stores the descriptor that was created. -/
theorem registerATimer_of_not_givesUp {s : TimerRegistry Func} {delay : Int}
    {o : RegisterOutcome} (h : ¬ o.GivesUp s.gEpollFd s.gRunning delay) (func : Func)
    (priv : Int) :
    s.registerATimer delay func priv o =
      { s with opened := o.timerfdCreate :: s.opened }.storeATimer o.timerfdCreate func priv o := by
  obtain ⟨hargs, h⟩ := not_or.mp h
  obtain ⟨hcreate, h⟩ := not_or.mp h
  obtain ⟨htime, hsettime⟩ := not_or.mp h
  rw [registerATimer, if_neg hargs, createTimerfd, if_neg hcreate, if_neg htime]
  dsimp only
  rw [if_neg hcreate, if_neg hsettime]

/-- An entry points to a record that is not live, or a descriptor is open that is not in
the table. -/
def Broken (s : TimerRegistry Func) : Prop :=
  (∃ entry ∈ s.gTimerTable, s.live entry.timerData = none) ∨
    ∃ fd ∈ s.opened, fd ∉ s.gTimerTable.map (·.timerFd)

theorem Broken.not_consistent {s : TimerRegistry Func} (h : s.Broken) : ¬ s.Consistent := by
  intro hs
  rcases h with ⟨entry, hentry, hdead⟩ | ⟨fd, hfd, hkey⟩
  · obtain ⟨data, hdata, -⟩ := hs.data_live entry hentry
    rw [hdead] at hdata
    cases hdata
  · exact hkey ((hs.opened_iff fd).mp hfd)

/-- `add_a_timer` frees the record of the entry it adds. -/
theorem addATimer_dead {s : TimerRegistry Func} {timerFd : Int} (hnew : s.find timerFd = none)
    (timerData : Nat) (garbage : Int) :
    (s.addATimer timerFd timerData true garbage).1 = true ∧
      ∃ entry ∈ (s.addATimer timerFd timerData true garbage).2.gTimerTable,
        (s.addATimer timerFd timerData true garbage).2.live entry.timerData = none := by
  rw [addATimer, if_neg (by decide), hnew]
  exact ⟨rfl, ⟨garbage, timerData⟩, List.mem_cons_self, if_pos rfl⟩

/-- **Storing a descriptor that has no entry breaks the registry, in any state and however
its calls end.** -/
theorem storeATimer_broken {s : TimerRegistry Func} {timerFd : Int}
    (hnew : s.find timerFd = none) (hopened : timerFd ∈ s.opened) (func : Func) (priv : Int)
    (o : RegisterOutcome) : (s.storeATimer timerFd func priv o).2.Broken := by
  have hkeys : timerFd ∉ s.gTimerTable.map (·.timerFd) := by
    intro hmem
    obtain ⟨entry, hentry, hfd⟩ := List.mem_map.mp hmem
    exact List.find?_eq_none.mp hnew entry hentry (decide_eq_true hfd)
  unfold storeATimer
  cases o.wrlock with
  | false => exact Or.inr ⟨timerFd, hopened, hkeys⟩
  | true =>
    have hmalloc : (s.malloc { func, sock := priv }).find timerFd = none := hnew
    obtain ⟨hadded, hdead⟩ := addATimer_dead hmalloc s.allocated o.garbage
    dsimp only
    rw [hadded, if_pos rfl]
    cases o.epollAdd <;> exact Or.inl hdead

/-! ## Runs -/

theorem consistent_init (gEpollFd : Int) (gRunning : Bool) :
    (init gEpollFd gRunning : TimerRegistry Func).Consistent where
  watched_iff := fun _ => Iff.rfl
  opened_iff := fun _ => Iff.rfl
  held_iff := fun _ => Iff.rfl
  data_live := fun _ h => absurd h List.not_mem_nil

theorem freeATimer_of_none {s : TimerRegistry Func} {timerFd : Int}
    (h : s.find timerFd = none) (wrlock : Bool) (garbage : Int) :
    (s.freeATimer timerFd wrlock garbage).2 = s := by
  unfold freeATimer
  split
  · rfl
  · rw [h]

/-- There is nothing to cancel before the first timer. -/
theorem cancelATimer_init (gEpollFd : Int) (gRunning : Bool) (timerFd : Int)
    (o : CancelOutcome) :
    ((init gEpollFd gRunning : TimerRegistry Func).cancelATimer timerFd o).2 =
      init gEpollFd gRunning := by
  unfold cancelATimer
  split
  · rfl
  split
  · rfl
  · exact freeATimer_of_none rfl o.wrlock o.garbage

theorem execute_init_of_storesNothing {gEpollFd : Int} {gRunning : Bool} {call : TimerCall Func}
    (h : call.StoresNothing gEpollFd gRunning) :
    (execute (init gEpollFd gRunning) call).2 = init gEpollFd gRunning := by
  cases call with
  | register delay func priv o =>
    obtain ⟨r, hr, hcall⟩ := registerATimer_of_givesUp (s := init gEpollFd gRunning) h func priv
    rw [execute, hcall]
    dsimp only
    rw [if_pos hr]
  | cancel timerFd o =>
    have hcall : (cancelATimer (init gEpollFd gRunning : TimerRegistry Func) timerFd o).2 =
        init gEpollFd gRunning := cancelATimer_init gEpollFd gRunning timerFd o
    rw [execute]
    dsimp only
    split
    · rw [hcall]
      rfl
    · exact hcall

/-- A call on the first state is right exactly when it stores nothing. -/
theorem keepsConsistent_init_iff {gEpollFd : Int} {gRunning : Bool} {call : TimerCall Func} :
    (init gEpollFd gRunning).KeepsConsistent call ↔ call.StoresNothing gEpollFd gRunning := by
  constructor
  · intro h
    by_contra hstores
    cases call with
    | cancel => exact hstores trivial
    | register delay func priv o =>
      have hbroken := storeATimer_broken
        (s := { init gEpollFd gRunning with opened := [o.timerfdCreate] }) rfl
        List.mem_cons_self func priv o
      have hcall := registerATimer_of_not_givesUp (s := init gEpollFd gRunning) hstores func priv
      -- what the caller holds does not mend it
      refine Broken.not_consistent ?_ h.1
      rw [execute, hcall]
      dsimp only
      split <;> exact hbroken
  · intro h
    rw [KeepsConsistent, execute_init_of_storesNothing h]
    exact ⟨consistent_init gEpollFd gRunning, fun _ => rfl⟩

/-- **Every call of a run is right exactly when none stores a timer.** -/
theorem keepsConsistent_iff (gEpollFd : Int) (gRunning : Bool) (calls : List (TimerCall Func)) :
    Meets step KeepsConsistent (init gEpollFd gRunning) calls ↔
      ∀ call ∈ calls, call.StoresNothing gEpollFd gRunning := by
  induction calls with
  | nil => exact iff_of_true trivial (List.forall_mem_nil _)
  | cons call calls ih =>
    rw [List.forall_mem_cons, Meets, keepsConsistent_init_iff]
    refine and_congr_right fun hcall => ?_
    rw [← ih, step, execute_init_of_storesNothing hcall]
    exact ⟨fun h => h _ rfl, fun h s' hs' => Option.some.inj hs' ▸ h⟩

/-- One timer, with every call it makes successful, is already wrong. -/
theorem firstTimer_not_consistent : ¬ ∀ (gEpollFd : Int) (gRunning : Bool)
    (calls : List (TimerCall Unit)),
    Meets step KeepsConsistent (init gEpollFd gRunning) calls := by
  intro h
  have hfirst := (h 3 true [.register 1 () 0 ⟨4, true, true, true, 0, true⟩]).1
  exact absurd (keepsConsistent_init_iff.mp hfirst) (by
    unfold TimerCall.StoresNothing RegisterOutcome.GivesUp
    decide)

end TimerRegistry

end WowProxy
