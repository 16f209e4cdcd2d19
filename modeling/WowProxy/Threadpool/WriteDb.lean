/-
  Threadpool/WriteDb.lean --- `write_db` and `close_db` of `aidsock.c`, over the handles
  of SQLite.

  SQLite is what its calls do to handles: `sqlite3_open` makes a connection,
  `sqlite3_prepare_v2` a statement of it, and `sqlite3_close` refuses a connection that
  has a statement left.  The calls of one read job are kept in a log, and the numbers
  of handles are never used again in it.  `close_db` gets the handle by value: the copy
  that `read_sock_func` holds is the same behind it.
-/
import WowProxy.Lib.History
import WowProxy.Threadpool.ReadSock

set_option autoImplicit false

namespace WowProxy

open WowProxy.Lib.History

/-! ## SQLite -/

/-- A call of SQLite that had an effect on a handle. -/
inductive DbEvent where
  /-- `sqlite3_open` stored this connection -/
  | opened (db : Nat)
  /-- `sqlite3_prepare_v2` on the connection, and what it stored in `*ppStmt` -/
  | prepared (db : Nat) (zSql : List UInt8) (stmt : Option Nat)
  | stepped (stmt : Option Nat)
  | finalized (stmt : Nat)
  /-- `sqlite3_close` closed the connection -/
  | closed (db : Nat)
  /-- `sqlite3_close` returned `SQLITE_BUSY` -/
  | busy (db : Nat)
  deriving DecidableEq, Repr

namespace DbEvent

/-- The connection that is handed to the call. -/
def uses : DbEvent → Option Nat
  | prepared db _ _ => some db
  | closed db => some db
  | busy db => some db
  | _ => none

/-- The connection the call makes. -/
def opens : DbEvent → Option Nat
  | opened db => some db
  | _ => none

/-- The text of the call, for `sqlite3_prepare_v2`. -/
def sql : DbEvent → Option (List UInt8)
  | prepared _ zSql _ => some zSql
  | _ => none

end DbEvent

/-- How many connections the log has made: the number of the next one. -/
def connections (log : List DbEvent) : Nat := (log.filterMap DbEvent.opens).length

/-- How many statements the log has asked for: the number of the next one. -/
def statements (log : List DbEvent) : Nat := (log.filterMap DbEvent.sql).length

/-- A statement of the connection has not been finalized. -/
def isBusy (log : List DbEvent) (db : Nat) : Bool :=
  log.any fun
    | .prepared db' _ (some stmt) => db' == db && !log.contains (.finalized stmt)
    | _ => false

/-! ## The calls -/

/-- A command of a read job, and what SQLite answers when it is asked. -/
structure DbCall where
  command : ParsedCommand
  /-- `sqlite3_open` succeeds -/
  opens : Bool
  /-- a failed `sqlite3_open` has stored a handle -/
  handle : Bool
  /-- `sqlite3_prepare_v2` stores a statement -/
  prepares : Bool
  /-- `sqlite3_step` of a statement returns `SQLITE_DONE` -/
  done : Bool
  deriving DecidableEq, Repr

/-- `close_db(db)`. -/
def closeDb (db : Option Nat) (log : List DbEvent) : List DbEvent :=
  match db with
  | none => log
  | some db => log ++ [if isBusy log db then .busy db else .closed db]

/-- The part of `write_db` that runs the statement on the connection `db`.
`sqlite3_step(NULL)` returns `SQLITE_MISUSE`. -/
def runStatement (c : DbCall) (db : Nat) (log : List DbEvent) : List DbEvent :=
  if c.prepares then
    let stmt := statements log
    let log := log ++ [.prepared db c.command.cmd (some stmt)] ++ [.stepped (some stmt)]
    if c.done then log ++ [.finalized stmt] else closeDb (some db) log
  else
    closeDb (some db) (log ++ [.prepared db c.command.cmd none] ++ [.stepped none])

/-- `write_db(&db, cmds)`: the handle and the log behind it. -/
def writeDb (c : DbCall) : Option Nat × List DbEvent → Option Nat × List DbEvent
  | (db, log) =>
    if c.command.cmd = [] then (db, log)
    else
      match db with
      | some db => (some db, runStatement c db log)
      | none =>
        let db := connections log
        if c.opens then (some db, runStatement c db (log ++ [.opened db]))
        else if c.handle then (none, closeDb (some db) (log ++ [.opened db]))
        else (none, closeDb none log)

/-- What a command does to the handle of `read_sock_func`. -/
def dbCommand (state : Option Nat × List DbEvent) (c : DbCall) : Option Nat × List DbEvent :=
  if c.command.is2Pipe then state else writeDb c state

/-- The handle and the log behind the commands `calls`. -/
def dbCommands (calls : List DbCall) (state : Option Nat × List DbEvent) :
    Option Nat × List DbEvent :=
  calls.foldl dbCommand state

/-- The log of a read job that executes the commands `calls`. -/
def readJobDb (calls : List DbCall) : List DbEvent :=
  let (db, log) := dbCommands calls (none, [])
  closeDb db log

/-! ## The discipline -/

/-- The connection has been made and not been closed. -/
def IsOpen (log : List DbEvent) (db : Nat) : Prop := .opened db ∈ log ∧ .closed db ∉ log

/-- A log in which handles are used as SQLite asks for, and that runs the statements
`texts`. -/
structure Disciplined (texts : List (List UInt8)) (log : List DbEvent) : Prop where
  /-- every connection that is handed to SQLite is open -/
  live : Always (fun before e => ∀ db, e.uses = some db → IsOpen before db) log
  /-- every connection is closed once -/
  closedOnce : ∀ db, .opened db ∈ log → log.count (.closed db) = 1
  /-- every statement is finalized before its connection is closed -/
  finalized : Always (fun before e => ∀ db, e = .closed db →
    ∀ zSql stmt, .prepared db zSql (some stmt) ∈ before → .finalized stmt ∈ before) log
  /-- every statement gets its turn -/
  ran : log.filterMap DbEvent.sql = texts

/-- The command has a text and is for the database. -/
def DbCall.isStatement (c : DbCall) : Bool := !c.command.is2Pipe && !c.command.cmd.isEmpty

/-- The statements that find a connection, when one is held or not: all of them from the
first `sqlite3_open` that succeeds on. -/
def reached (held : Bool) (calls : List DbCall) : List DbCall :=
  (calls.filter DbCall.isStatement).dropWhile fun c => !held && !c.opens

/-- The texts of statements. -/
def texts (calls : List DbCall) : List (List UInt8) := calls.map fun c => c.command.cmd

/-- The statement is prepared and executed. -/
def DbCall.Succeeds (c : DbCall) : Prop := c.prepares = true ∧ c.done = true

/-! ## Behind statements that succeed -/

/-- The log and the handle behind statements that have all succeeded. -/
structure Sound (db : Option Nat) (log : List DbEvent) : Prop where
  live : Always (fun before e => ∀ db, e.uses = some db → IsOpen before db) log
  finalized : Always (fun before e => ∀ db, e = .closed db →
    ∀ zSql stmt, .prepared db zSql (some stmt) ∈ before → .finalized stmt ∈ before) log
  /-- no statement is left -/
  settled : ∀ db zSql stmt, .prepared db zSql (some stmt) ∈ log → .finalized stmt ∈ log
  /-- the handle that is held is the only open connection -/
  conns : ∀ db', .opened db' ∈ log → log.count (.closed db') = if db = some db' then 0 else 1
  held : ∀ db', db = some db' → .opened db' ∈ log
  known : ∀ db', .opened db' ∈ log → db' < connections log
  closedKnown : ∀ db', .closed db' ∈ log → db' < connections log
  finalizedKnown : ∀ stmt, .finalized stmt ∈ log → stmt < statements log

theorem Sound.init : Sound none [] where
  live := always_nil _
  finalized := always_nil _
  settled _ _ _ h := absurd h List.not_mem_nil
  conns _ h := absurd h List.not_mem_nil
  held _ h := absurd h (by simp)
  known _ h := absurd h List.not_mem_nil
  closedKnown _ h := absurd h List.not_mem_nil
  finalizedKnown _ h := absurd h List.not_mem_nil

theorem connections_concat (log : List DbEvent) (e : DbEvent) :
    connections (log ++ [e]) = connections log + if e.opens.isSome then 1 else 0 := by
  unfold connections
  cases h : e.opens <;> simp [h]

theorem statements_concat (log : List DbEvent) (e : DbEvent) :
    statements (log ++ [e]) = statements log + if e.sql.isSome then 1 else 0 := by
  unfold statements
  cases h : e.sql <;> simp [h]

theorem isBusy_eq_true_iff {log : List DbEvent} {db : Nat} :
    isBusy log db = true ↔
      ∃ zSql stmt, .prepared db zSql (some stmt) ∈ log ∧ .finalized stmt ∉ log := by
  unfold isBusy
  rw [List.any_eq_true]
  constructor
  · rintro ⟨e, he, hbusy⟩
    match e, he, hbusy with
    | .prepared db' zSql (some stmt), he, hbusy =>
      rw [Bool.and_eq_true, beq_iff_eq, Bool.not_eq_true', List.contains_eq_mem,
        decide_eq_false_iff_not] at hbusy
      obtain ⟨rfl, hnot⟩ := hbusy
      exact ⟨zSql, stmt, he, hnot⟩
  · rintro ⟨zSql, stmt, hmem, hnot⟩
    exact ⟨_, hmem, by simp [hnot]⟩

theorem Sound.not_busy {db : Option Nat} {log : List DbEvent} (h : Sound db log) (db' : Nat) :
    isBusy log db' = false := by
  rw [← Bool.not_eq_true]
  intro hbusy
  obtain ⟨zSql, stmt, hmem, hnot⟩ := isBusy_eq_true_iff.mp hbusy
  exact hnot (h.settled _ zSql stmt hmem)

/-- The connection that is held is open. -/
theorem Sound.isOpen {db : Nat} {log : List DbEvent} (h : Sound (some db) log) :
    IsOpen log db := by
  have hopened := h.held db rfl
  refine ⟨hopened, fun hclosed => ?_⟩
  have hcount := h.conns db hopened
  rw [if_pos rfl, List.count_eq_zero] at hcount
  exact hcount hclosed

/-- A new connection. -/
theorem Sound.opened {log : List DbEvent} (h : Sound none log) :
    Sound (some (connections log)) (log ++ [.opened (connections log)]) where
  live := always_concat.mpr ⟨h.live, fun db huses => absurd huses (by simp [DbEvent.uses])⟩
  finalized := always_concat.mpr ⟨h.finalized, fun db heq => absurd heq (by simp)⟩
  settled db zSql stmt hmem := by
    simp only [List.mem_append, List.mem_singleton, reduceCtorEq, or_false] at hmem ⊢
    exact h.settled db zSql stmt hmem
  conns db hmem := by
    rw [List.count_append, List.count_singleton]
    rcases List.mem_append.mp hmem with hold | hnew
    · have hlt := h.known db hold
      have hne : ¬ connections log = db := by omega
      simp [h.conns db hold, hne]
    · obtain rfl : db = connections log := by simpa using hnew
      have hnone : log.count (.closed (connections log)) = 0 :=
        List.count_eq_zero.mpr fun hclosed => Nat.lt_irrefl _ (h.closedKnown _ hclosed)
      simp [hnone]
  held db heq := by
    obtain rfl := Option.some.inj heq
    exact List.mem_append_right _ List.mem_cons_self
  known db hmem := by
    rw [connections_concat]
    rcases List.mem_append.mp hmem with hold | hnew
    · have := h.known db hold
      simp [DbEvent.opens]
      omega
    · obtain rfl : db = connections log := by simpa using hnew
      simp [DbEvent.opens]
  closedKnown db hmem := by
    rw [connections_concat]
    have := h.closedKnown db (by simpa using hmem)
    omega
  finalizedKnown stmt hmem := by
    rw [statements_concat]
    have := h.finalizedKnown stmt (by simpa using hmem)
    omega

/-- Closing the connection that is held. -/
theorem Sound.closed {db : Nat} {log : List DbEvent} (h : Sound (some db) log) :
    Sound none (log ++ [.closed db]) where
  live := always_concat.mpr ⟨h.live, fun db' huses => by
    obtain rfl : db = db' := by simpa [DbEvent.uses] using huses
    exact h.isOpen⟩
  finalized := always_concat.mpr ⟨h.finalized, fun db' _ zSql stmt hmem =>
    h.settled db' zSql stmt hmem⟩
  settled db' zSql stmt hmem := by
    simp only [List.mem_append, List.mem_singleton, reduceCtorEq, or_false] at hmem ⊢
    exact h.settled db' zSql stmt hmem
  conns db' hmem := by
    have hold : .opened db' ∈ log := by simpa using hmem
    rw [List.count_append, List.count_singleton, h.conns db' hold]
    by_cases heq : db = db' <;> simp [heq]
  held _ heq := absurd heq (by simp)
  known db' hmem := by
    have := h.known db' (by simpa using hmem)
    rw [connections_concat]
    omega
  closedKnown db' hmem := by
    rw [connections_concat]
    rcases List.mem_append.mp hmem with hold | hnew
    · have := h.closedKnown db' hold
      omega
    · obtain rfl : db' = db := by simpa using hnew
      have := h.known db' (h.held db' rfl)
      omega
  finalizedKnown stmt hmem := by
    have := h.finalizedKnown stmt (by simpa using hmem)
    rw [statements_concat]
    omega

/-- A statement that is prepared, executed and finalized. -/
theorem Sound.ran {db : Nat} {log : List DbEvent} (h : Sound (some db) log)
    (zSql : List UInt8) :
    Sound (some db) (log ++ [.prepared db zSql (some (statements log))] ++
      [.stepped (some (statements log))] ++ [.finalized (statements log)]) where
  live := by
    rw [always_concat, always_concat, always_concat]
    refine ⟨⟨⟨h.live, fun db' huses => ?_⟩, fun db' huses => ?_⟩, fun db' huses => ?_⟩
    · obtain rfl : db = db' := by simpa [DbEvent.uses] using huses
      exact h.isOpen
    · exact absurd huses (by simp [DbEvent.uses])
    · exact absurd huses (by simp [DbEvent.uses])
  finalized := by
    rw [always_concat, always_concat, always_concat]
    exact ⟨⟨⟨h.finalized, fun _ heq => absurd heq (by simp)⟩, fun _ heq => absurd heq (by simp)⟩,
      fun _ heq => absurd heq (by simp)⟩
  settled db' zSql' stmt hmem := by
    simp only [List.mem_append, List.mem_singleton, reduceCtorEq, or_false,
      DbEvent.prepared.injEq, Option.some.injEq, DbEvent.finalized.injEq] at hmem ⊢
    rcases hmem with hold | ⟨-, -, rfl⟩
    · exact Or.inl (h.settled db' zSql' stmt hold)
    · exact Or.inr rfl
  conns db' hmem := by
    have hold : .opened db' ∈ log := by simpa using hmem
    simp [List.count_append, h.conns db' hold]
  held db' heq := by simpa using h.held db' heq
  known db' hmem := by
    have := h.known db' (by simpa using hmem)
    simp only [connections_concat]
    omega
  closedKnown db' hmem := by
    have := h.closedKnown db' (by simpa using hmem)
    simp only [connections_concat]
    omega
  finalizedKnown stmt hmem := by
    simp only [statements_concat, DbEvent.sql]
    simp only [List.mem_append, List.mem_singleton, reduceCtorEq, or_false,
      DbEvent.finalized.injEq] at hmem
    rcases hmem with hold | rfl
    · have := h.finalizedKnown stmt hold
      simp
      omega
    · simp

/-- Running a statement that succeeds. -/
theorem Sound.runStatement {c : DbCall} (hc : c.Succeeds) {db : Nat} {log : List DbEvent}
    (h : Sound (some db) log) : Sound (some db) (runStatement c db log) := by
  rw [WowProxy.runStatement, if_pos hc.1]
  simp only [hc.2, if_true]
  exact h.ran c.command.cmd

theorem reached_true (calls : List DbCall) :
    reached true calls = calls.filter DbCall.isStatement := by
  unfold reached
  cases calls.filter DbCall.isStatement <;> rfl

/-- Whether the first command is reached, and whether a connection is held behind it. -/
theorem reached_cons (held : Bool) (c : DbCall) (calls : List DbCall) :
    reached held (c :: calls) =
      (if c.isStatement && (held || c.opens) then [c] else []) ++
        reached (held || (c.isStatement && c.opens)) calls := by
  cases hstmt : c.isStatement with
  | false => simp [reached, hstmt]
  | true =>
    cases held with
    | true => simp [reached_true, hstmt]
    | false =>
      cases hopens : c.opens with
      | true =>
        rw [Bool.or_true, Bool.true_and, if_pos rfl, Bool.or_true, reached_true]
        simp [reached, hstmt, hopens]
      | false => simp [reached, hstmt, hopens]

/-- A command that is not a statement leaves everything as it is. -/
theorem dbCommand_of_not_isStatement {c : DbCall} (h : c.isStatement = false)
    (state : Option Nat × List DbEvent) : dbCommand state c = state := by
  obtain ⟨db, log⟩ := state
  unfold dbCommand writeDb
  cases hpipe : c.command.is2Pipe with
  | true => rfl
  | false =>
    have hempty : c.command.cmd = [] := by simpa [DbCall.isStatement, hpipe] using h
    simp [hempty]

theorem dbCommand_of_isStatement {c : DbCall} (h : c.isStatement = true)
    (db : Option Nat) (log : List DbEvent) :
    dbCommand (db, log) c =
      match db with
      | some db => (some db, runStatement c db log)
      | none =>
        if c.opens then
          (some (connections log), runStatement c (connections log)
            (log ++ [.opened (connections log)]))
        else if c.handle then
          (none, closeDb (some (connections log)) (log ++ [.opened (connections log)]))
        else (none, log) := by
  obtain ⟨hpipe, hcmd⟩ : c.command.is2Pipe = false ∧ c.command.cmd ≠ [] := by
    simpa [DbCall.isStatement] using h
  simp only [dbCommand, hpipe, Bool.false_eq_true, if_false, writeDb, if_neg hcmd, closeDb]

/-- What a command whose statement, if it is reached, succeeds does to a sound log. -/
theorem Sound.dbCommand {c : DbCall} {db : Option Nat} {log : List DbEvent} (h : Sound db log)
    (hc : c.isStatement = true → (db.isSome || c.opens) = true → c.Succeeds) :
    Sound (dbCommand (db, log) c).1 (dbCommand (db, log) c).2 := by
  cases hstmt : c.isStatement with
  | false =>
    rw [dbCommand_of_not_isStatement hstmt]
    exact h
  | true =>
    rw [dbCommand_of_isStatement hstmt]
    cases db with
    | some db => exact h.runStatement (hc hstmt rfl)
    | none =>
      dsimp only
      split
      · rename_i hopens
        exact h.opened.runStatement (hc hstmt (by simp [hopens]))
      · split
        · rw [closeDb, h.opened.not_busy]
          exact h.opened.closed
        · exact h

/-- The statements a command runs. -/
theorem sql_dbCommand (c : DbCall) (db : Option Nat) (log : List DbEvent) :
    (WowProxy.dbCommand (db, log) c).2.filterMap DbEvent.sql =
      log.filterMap DbEvent.sql ++
        if c.isStatement && (db.isSome || c.opens) then [c.command.cmd] else [] := by
  have hclose (db : Nat) (log : List DbEvent) :
      (closeDb (some db) log).filterMap DbEvent.sql = log.filterMap DbEvent.sql := by
    rw [closeDb]
    split <;> simp [DbEvent.sql]
  have hrun (db : Nat) (log : List DbEvent) :
      (WowProxy.runStatement c db log).filterMap DbEvent.sql =
        log.filterMap DbEvent.sql ++ [c.command.cmd] := by
    unfold WowProxy.runStatement
    split
    · dsimp only
      split
      · simp [DbEvent.sql]
      · rw [hclose]
        simp [DbEvent.sql]
    · rw [hclose]
      simp [DbEvent.sql]
  cases hstmt : c.isStatement with
  | false => simp [dbCommand_of_not_isStatement hstmt]
  | true =>
    rw [dbCommand_of_isStatement hstmt]
    cases db with
    | some db => simp [hrun]
    | none =>
      dsimp only
      split
      · rename_i hopens
        simp [hrun, hopens, DbEvent.sql]
      · rename_i hopens
        split
        · rw [hclose]
          simp [hopens, DbEvent.sql]
        · simp [hopens]

theorem isSome_dbCommand (c : DbCall) (db : Option Nat) (log : List DbEvent) :
    (WowProxy.dbCommand (db, log) c).1.isSome = (db.isSome || (c.isStatement && c.opens)) := by
  cases hstmt : c.isStatement with
  | false => simp [dbCommand_of_not_isStatement hstmt]
  | true =>
    rw [dbCommand_of_isStatement hstmt]
    cases db with
    | some db => rfl
    | none =>
      dsimp only
      cases hopens : c.opens with
      | true => rfl
      | false => cases hhandle : c.handle <;> rfl

/-- The statements of a run are those that find a connection. -/
theorem sql_dbCommands (calls : List DbCall) (db : Option Nat) (log : List DbEvent) :
    (dbCommands calls (db, log)).2.filterMap DbEvent.sql =
      log.filterMap DbEvent.sql ++ texts (reached db.isSome calls) := by
  induction calls generalizing db log with
  | nil => simp [dbCommands, reached, texts]
  | cons c calls ih =>
    show (dbCommands calls (WowProxy.dbCommand (db, log) c)).2.filterMap DbEvent.sql = _
    have hsql := sql_dbCommand c db log
    have hheld := isSome_dbCommand c db log
    generalize WowProxy.dbCommand (db, log) c = state at hsql hheld ⊢
    obtain ⟨db', log'⟩ := state
    dsimp only at hsql hheld
    rw [ih, hheld, hsql, reached_cons, texts, texts, List.map_append, List.append_assoc]
    split <;> rfl

/-- **A run whose reached statements all succeed is sound.** -/
theorem Sound.dbCommands {calls : List DbCall} {db : Option Nat} {log : List DbEvent}
    (h : Sound db log) (hall : ∀ c ∈ reached db.isSome calls, c.Succeeds) :
    Sound (WowProxy.dbCommands calls (db, log)).1 (WowProxy.dbCommands calls (db, log)).2 := by
  induction calls generalizing db log with
  | nil => exact h
  | cons c calls ih =>
    have hstep : Sound (WowProxy.dbCommand (db, log) c).1 (WowProxy.dbCommand (db, log) c).2 := by
      refine h.dbCommand fun hstmt hopen => hall c ?_
      rw [reached_cons, hstmt, hopen, Bool.true_and, if_pos rfl]
      exact List.mem_cons_self
    have hheld := isSome_dbCommand c db log
    show Sound (WowProxy.dbCommands calls (WowProxy.dbCommand (db, log) c)).1
      (WowProxy.dbCommands calls (WowProxy.dbCommand (db, log) c)).2
    generalize WowProxy.dbCommand (db, log) c = state at hstep hheld ⊢
    obtain ⟨db', log'⟩ := state
    refine ih hstep fun c' hc' => hall c' ?_
    rw [hheld] at hc'
    rw [reached_cons]
    exact List.mem_append_right _ hc'

/-! ## Behind a statement that fails -/

/-- The connection is closed, or has a statement that nothing will finalize. -/
def Broken (db : Nat) (log : List DbEvent) : Prop :=
  .closed db ∈ log ∨
    (.opened db ∈ log ∧ ∃ zSql stmt, .prepared db zSql (some stmt) ∈ log ∧
      .finalized stmt ∉ log ∧ stmt < statements log)

theorem Broken.closeDb {db : Nat} {log : List DbEvent} (h : Broken db log) :
    Broken db (closeDb (some db) log) := by
  rw [WowProxy.closeDb]
  cases isBusy log db with
  | false => exact Or.inl (List.mem_append_right _ List.mem_cons_self)
  | true =>
    rcases h with hclosed | ⟨hopened, zSql, stmt, hprepared, hfinalized, hlt⟩
    · exact Or.inl (List.mem_append_left _ hclosed)
    · refine Or.inr ⟨List.mem_append_left _ hopened, zSql, stmt,
        List.mem_append_left _ hprepared, by simpa using hfinalized, ?_⟩
      rw [statements_concat]
      omega

theorem Broken.runStatement {db : Nat} {log : List DbEvent} (h : Broken db log) (c : DbCall) :
    Broken db (WowProxy.runStatement c db log) := by
  have hprepared (stmt : Option Nat) :
      Broken db (log ++ [.prepared db c.command.cmd stmt] ++ [.stepped stmt]) := by
    rcases h with hclosed | ⟨hopened, zSql, stmt', hmem, hfinalized, hlt⟩
    · exact Or.inl (List.mem_append_left _ (List.mem_append_left _ hclosed))
    · refine Or.inr ⟨by simpa using hopened, zSql, stmt', by simp [hmem],
        by simpa using hfinalized, ?_⟩
      rw [statements_concat, statements_concat]
      omega
  unfold WowProxy.runStatement
  split
  · dsimp only
    split
    · -- The finalized statement is the new one.
      rcases h with hclosed | ⟨hopened, zSql, stmt', hmem, hfinalized, hlt⟩
      · exact Or.inl (by simp [hclosed])
      · refine Or.inr ⟨by simpa using hopened, zSql, stmt', by simp [hmem], ?_, ?_⟩
        · simp [hfinalized]
          omega
        · simp only [statements_concat]
          omega
    · exact (hprepared _).closeDb
  · exact (hprepared none).closeDb

/-- A statement that fails breaks its connection. -/
theorem Sound.broken {db : Nat} {log : List DbEvent} (h : Sound (some db) log) {c : DbCall}
    (hfails : ¬ c.Succeeds) : Broken db (WowProxy.runStatement c db log) := by
  unfold WowProxy.runStatement
  cases hprepares : c.prepares with
  | false =>
    -- There is no statement, so that the connection can be closed.
    have hidle : isBusy (log ++ [.prepared db c.command.cmd none] ++ [.stepped none]) db =
        false := by
      rw [← Bool.not_eq_true]
      intro hbusy
      obtain ⟨zSql, stmt, hmem, hnot⟩ := isBusy_eq_true_iff.mp hbusy
      exact hnot (by simpa using h.settled db zSql stmt (by simpa using hmem))
    simp only [Bool.false_eq_true, if_false, closeDb, hidle]
    exact Or.inl (List.mem_append_right _ List.mem_cons_self)
  | true =>
    have hdone : c.done = false := by
      rw [← Bool.not_eq_true]
      exact fun hdone => hfails ⟨hprepares, hdone⟩
    simp only [hdone, if_true, Bool.false_eq_true, if_false]
    refine Broken.closeDb (Or.inr ⟨by simpa using h.held db rfl, c.command.cmd, statements log,
      by simp, ?_, ?_⟩)
    · intro hmem
      exact Nat.lt_irrefl _ (h.finalizedKnown _ (by simpa using hmem))
    · simp only [statements_concat, DbEvent.sql]
      simp

/-- The rest of a job keeps the broken connection. -/
theorem Broken.dbCommands {db : Nat} {log : List DbEvent} (h : Broken db log)
    (calls : List DbCall) :
    ∃ log', dbCommands calls (some db, log) = (some db, log') ∧ Broken db log' := by
  induction calls generalizing log with
  | nil => exact ⟨log, rfl, h⟩
  | cons c calls ih =>
    show ∃ log', WowProxy.dbCommands calls (dbCommand (some db, log) c) = _ ∧ _
    cases hstmt : c.isStatement with
    | false =>
      rw [dbCommand_of_not_isStatement hstmt]
      exact ih h
    | true =>
      rw [dbCommand_of_isStatement hstmt]
      exact ih (h.runStatement c)

/-- The job ends in a use of the closed connection, or leaves it open. -/
theorem Broken.not_disciplined {db : Nat} {log : List DbEvent} (h : Broken db log)
    (ran : List (List UInt8)) : ¬ Disciplined ran (WowProxy.closeDb (some db) log) := by
  intro hd
  obtain ⟨e, he, huses⟩ : ∃ e, WowProxy.closeDb (some db) log = log ++ [e] ∧
      e.uses = some db := by
    rw [WowProxy.closeDb]
    refine ⟨_, rfl, ?_⟩
    split <;> rfl
  rw [he] at hd
  have hopen : IsOpen log db := (always_concat.mp hd.live).2 db huses
  rcases h with hclosed | ⟨hopened, zSql, stmt, hprepared, hfinalized, -⟩
  · exact hopen.2 hclosed
  · have hcount := hd.closedOnce db (List.mem_append_left _ hopened)
    have hmem : .closed db ∈ log ++ [e] := List.count_pos_iff.mp (by omega)
    rcases List.mem_append.mp hmem with hold | hnew
    · exact hopen.2 hold
    · have hclosing := (always_concat.mp hd.finalized).2 db (List.mem_singleton.mp hnew).symm
      exact hfinalized (hclosing zSql stmt hprepared)

/-! ## The batch -/

/-- Where a reached statement fails, the rest of the job cannot make up for it. -/
theorem Sound.succeeds {calls : List DbCall} {db : Option Nat} {log : List DbEvent}
    (h : Sound db log) {ran : List (List UInt8)}
    (hd : Disciplined ran (closeDb (WowProxy.dbCommands calls (db, log)).1
      (WowProxy.dbCommands calls (db, log)).2)) :
    ∀ c ∈ reached db.isSome calls, c.Succeeds := by
  induction calls generalizing db log with
  | nil => exact fun c hc => absurd hc List.not_mem_nil
  | cons c calls ih =>
    have hfirst : c.isStatement = true → (db.isSome || c.opens) = true → c.Succeeds := by
      intro hstmt hopen
      by_contra hfails
      have hbroken : ∃ d log', WowProxy.dbCommand (db, log) c = (some d, log') ∧
          Broken d log' := by
        rw [dbCommand_of_isStatement hstmt]
        cases db with
        | some d => exact ⟨d, _, rfl, h.broken hfails⟩
        | none =>
          have hopens : c.opens = true := hopen
          simp only [hopens, if_true]
          exact ⟨_, _, rfl, h.opened.broken hfails⟩
      obtain ⟨d, log', hcommand, hbroken⟩ := hbroken
      obtain ⟨log'', hrest, hbroken⟩ := hbroken.dbCommands calls
      have hrun : WowProxy.dbCommands (c :: calls) (db, log) = (some d, log'') := by
        rw [← hrest, ← hcommand]
        rfl
      rw [hrun] at hd
      exact hbroken.not_disciplined ran hd
    have hstep := h.dbCommand hfirst
    have hheld := isSome_dbCommand c db log
    have hrun : WowProxy.dbCommands (c :: calls) (db, log) =
        WowProxy.dbCommands calls (WowProxy.dbCommand (db, log) c) := rfl
    rw [hrun] at hd
    generalize WowProxy.dbCommand (db, log) c = state at hstep hheld hd
    obtain ⟨db', log'⟩ := state
    intro c' hc'
    rw [reached_cons] at hc'
    rcases List.mem_append.mp hc' with hc' | hc'
    · split at hc'
      · rename_i hreached
        obtain rfl := List.mem_singleton.mp hc'
        rw [Bool.and_eq_true] at hreached
        exact hfirst hreached.1 hreached.2
      · exact absurd hc' List.not_mem_nil
    · exact ih hstep hd c' (hheld ▸ hc')

/-- **For every sequence of commands of a read job and every sequence of answers of SQLite,
the handles are used with discipline exactly when every statement that finds a connection
is prepared and its step returns `SQLITE_DONE`.** -/
theorem readJobDb_disciplined_iff (calls : List DbCall) :
    Disciplined (texts (reached false calls)) (readJobDb calls) ↔
      ∀ c ∈ reached false calls, c.Succeeds := by
  constructor
  · intro hd
    exact Sound.init.succeeds hd
  · intro hall
    have hsound := Sound.init.dbCommands hall
    have hsql := sql_dbCommands calls none []
    unfold readJobDb
    generalize dbCommands calls (none, []) = state at hsound hsql ⊢
    obtain ⟨db, log⟩ := state
    dsimp only at hsound hsql ⊢
    rw [List.filterMap_nil, List.nil_append] at hsql
    cases db with
    | none =>
      exact ⟨hsound.live, fun db hopened => hsound.conns db hopened, hsound.finalized, hsql⟩
    | some db =>
      have hclosed := hsound.closed
      have hclose : closeDb (some db) log = log ++ [.closed db] := by
        rw [closeDb, hsound.not_busy, if_neg Bool.false_ne_true]
      rw [hclose]
      refine ⟨hclosed.live, fun db' hopened => hclosed.conns db' hopened, hclosed.finalized, ?_⟩
      rw [List.filterMap_append, hsql]
      exact List.append_nil _

/-- A statement that SQLite does not accept. -/
def rejectedCall : DbCall :=
  { command := { cmd := [39], needRsp := false, is2Pipe := false }
    opens := true, handle := true, prepares := false, done := false }

/-- A statement that succeeds. -/
def acceptedCall : DbCall :=
  { command := { cmd := [59], needRsp := false, is2Pipe := false }
    opens := true, handle := true, prepares := true, done := true }

/-- The first statement closes the connection, and the second is prepared on it. -/
theorem readJobDb_used_closed : ¬ ∀ calls : List DbCall,
    Disciplined (texts (reached false calls)) (readJobDb calls) := by
  intro hall
  have hlive := (hall [rejectedCall, acceptedCall]).live
    [.opened 0, .prepared 0 [39] none, .stepped none, .closed 0] (.prepared 0 [59] (some 1))
    ⟨[.stepped (some 1), .finalized 1, .closed 0], by decide⟩ 0 rfl
  exact hlive.2 (by decide)

end WowProxy
