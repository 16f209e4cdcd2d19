/-
  Sqlite/CommandTable.lean --- the table of the commands: `callback_record_command`,
  `init_commands_table`, `value_for_key` and `destory_commands_table` of `aid_sql.c`.

  What `sqlite3_open` and `sqlite3_exec` give is an argument: whether they succeed, and
  the rows for which the callback is called, each with the address that `malloc` gives
  its element.  The columns of a row are C strings.
-/
import WowProxy.Common.UthashRuns
import WowProxy.Threadpool.Message

set_option autoImplicit false

namespace WowProxy

open WowProxy.Lib.CString
open WowProxy.Lib.Runs

/-! ## From the source -/

/-- `Command` in an element, with all 256 bytes of `value`. -/
structure CommandBuf where
  value : List UInt8
  paramNum : Int
  needRsp : Bool
  deprecated : Bool
  is2Pipe : Bool
  deriving DecidableEq

/-- `Command` behind `memset`. -/
def CommandBuf.zero : CommandBuf := ⟨List.replicate 256 0, 0, false, false, false⟩

/-- What a caller of `value_for_key` reads of it. -/
def CommandBuf.command (cmd : CommandBuf) : Option Command :=
  (cstr cmd.value).map fun value =>
    ⟨value, cmd.paramNum, cmd.needRsp, cmd.deprecated, cmd.is2Pipe⟩

/-- The four bytes of an `int`. -/
def intBytes (n : Int) : List UInt8 :=
  (List.range 4).map fun i => UInt8.ofNat ((n % 2 ^ 32).toNat / 256 ^ i)

/-- The hash of `command_id`. -/
def hashInt (key : Int) : UInt32 := Uthash.hashJen (intBytes key)

/-- `command_table` with its elements. -/
abbrev CommandTable := Uthash.Hash Int CommandBuf

/-- A row: the names of its columns and what is in them, if it is not `NULL`. -/
abbrev SqlRow := List (List UInt8 × Option (List UInt8))

/-- `strncpy(dst, src, strlen(src))`, which writes no terminator. -/
def copyText (dst src : List UInt8) : Option (List UInt8) :=
  if src.length ≤ dst.length then some (src ++ dst.drop src.length) else none

/-- `command_id` and `cmd` of an element. -/
abbrev TableElem := Int × CommandBuf

/-- One round of the loop of `callback_record_command`: a column is told by the beginning
of its name. -/
def recordColumn (elem : TableElem) (col : List UInt8 × Option (List UInt8)) :
    Option TableElem :=
  let cmd := elem.2
  let named (s : String) : Bool := (ascii s).isPrefixOf col.1
  match col.2 with
  | none => some elem
  | some text =>
    if named "key" then some (atoi text, cmd)
    else if named "command" then
      (copyText cmd.value text).map fun value => (elem.1, { cmd with value })
    else if named "needRsp" then some (elem.1, { cmd with needRsp := decide (atoi text ≠ 0) })
    else if named "deprecated" then
      some (elem.1, { cmd with deprecated := decide (atoi text ≠ 0) })
    else if named "num" then some (elem.1, { cmd with paramNum := atoi text })
    else if named "pipe" then some (elem.1, { cmd with is2Pipe := decide (atoi text ≠ 0) })
    else some elem

/-- `callback_record_command` -/
def callbackRecordCommand (table : CommandTable) (p : Nat) (row : SqlRow) :
    Option CommandTable := do
  let elem ← row.foldlM recordColumn (0, .zero)
  Uthash.allocAdd hashInt table p elem.1 elem.2

/-- What the database gives. -/
structure CommandsDb where
  /-- `sqlite3_open` succeeds -/
  opens : Bool
  /-- the rows the callback is called for, each with the address `malloc` then gives -/
  rows : List (Nat × SqlRow)
  /-- `sqlite3_exec` returns `SQLITE_OK` -/
  execOk : Bool

/-- `init_commands_table` -/
def initCommandsTable (db : CommandsDb) (table : CommandTable) : Option (CommandTable × Int) :=
  if db.opens then
    (db.rows.foldlM (fun table row => callbackRecordCommand table row.1 row.2) table).map
      fun table => (table, if db.execOk then 0 else -1)
  else some (table, -1)

/-- `value_for_key` -/
def valueForKey (table : CommandTable) (key : Int) : Option (Option Command) := do
  let elem ← Uthash.find hashInt table key
  match elem with
  | none => return none
  | some p =>
    let elem ← table.heap p
    let cmd ← elem.value.command
    return some cmd

/-- `destory_commands_table` -/
def destoryCommandsTable (table : CommandTable) : Option CommandTable := Uthash.freeTable table

/-- A text is copied into a buffer of zeros. -/
theorem copyText_zeros {size : Nat} {text : List UInt8} (h : text.length < size) :
    copyText (List.replicate size 0) text = some (padded text size) := by
  rw [copyText, List.length_replicate, if_pos (Nat.le_of_lt h), List.drop_replicate]
  rfl

/-! ## What the database says -/

/-- A record of the table `commands`. -/
structure CommandRecord where
  key : Option (List UInt8)
  command : Option (List UInt8)
  needRsp : Option (List UInt8)
  deprecated : Option (List UInt8)
  num : Option (List UInt8)
  pipe : Option (List UInt8)
  deriving DecidableEq

namespace CommandRecord

/-- `SELECT * from commands` gives the columns in this order. -/
def row (r : CommandRecord) : SqlRow :=
  [(ascii "key", r.key), (ascii "command", r.command), (ascii "needRsp", r.needRsp),
    (ascii "deprecated", r.deprecated), (ascii "num", r.num), (ascii "pipe", r.pipe)]

/-- The number in a column, zero for `NULL`. -/
def number (text : Option (List UInt8)) : Int := (text.map atoi).getD 0

def id (r : CommandRecord) : Int := number r.key

/-- The command of a record. -/
def toCommand (r : CommandRecord) : Command where
  value := r.command.getD []
  paramNum := number r.num
  needRsp := decide (number r.needRsp ≠ 0)
  deprecated := decide (number r.deprecated ≠ 0)
  is2Pipe := decide (number r.pipe ≠ 0)

/-- The text is a C string that leaves room for its NUL in `value`. -/
def Fits (r : CommandRecord) : Prop := 0 ∉ r.command.getD [] ∧ (r.command.getD []).length < 256

instance (r : CommandRecord) : Decidable r.Fits := instDecidableAnd

/-- What `callback_record_command` makes of a record. -/
def buf (r : CommandRecord) : CommandBuf where
  value := padded (r.command.getD []) 256
  paramNum := number r.num
  needRsp := decide (number r.needRsp ≠ 0)
  deprecated := decide (number r.deprecated ≠ 0)
  is2Pipe := decide (number r.pipe ≠ 0)

theorem command_buf {r : CommandRecord} (h : r.Fits) : r.buf.command = some r.toCommand := by
  rw [CommandBuf.command, buf, cstr_padded h.1 h.2]
  rfl

/-- The text of a record is copied into `value`. -/
theorem recordColumn_command (key : Int) {command : Option (List UInt8)}
    (h : (command.getD []).length < 256) :
    recordColumn (key, .zero) (ascii "command", command) =
      some (key, { CommandBuf.zero with value := padded (command.getD []) 256 }) := by
  cases command with
  | none => rfl
  | some text =>
    have hcopy : copyText (List.replicate 256 0) text = some (padded text 256) := copyText_zeros h
    show (copyText (List.replicate 256 0) text).map _ = _
    rw [hcopy]
    rfl

/-- The columns of a record are recorded, one after the other. -/
theorem foldlM_recordColumn {r : CommandRecord} (h : r.Fits) :
    r.row.foldlM recordColumn (0, .zero) = some (r.id, r.buf) := by
  obtain ⟨key, command, needRsp, deprecated, num, pipe⟩ := r
  let cmd₁ : CommandBuf := { CommandBuf.zero with value := padded (command.getD []) 256 }
  let cmd₂ : CommandBuf := { cmd₁ with needRsp := decide (number needRsp ≠ 0) }
  let cmd₃ : CommandBuf := { cmd₂ with deprecated := decide (number deprecated ≠ 0) }
  let cmd₄ : CommandBuf := { cmd₃ with paramNum := number num }
  have hkey : recordColumn (0, .zero) (ascii "key", key) = some (number key, .zero) := by
    cases key <;> rfl
  have hcommand : recordColumn (number key, .zero) (ascii "command", command) =
      some (number key, cmd₁) := recordColumn_command _ h.2
  have hneedRsp : recordColumn (number key, cmd₁) (ascii "needRsp", needRsp) =
      some (number key, cmd₂) := by
    cases needRsp <;> rfl
  have hdeprecated : recordColumn (number key, cmd₂) (ascii "deprecated", deprecated) =
      some (number key, cmd₃) := by
    cases deprecated <;> rfl
  have hnum : recordColumn (number key, cmd₃) (ascii "num", num) =
      some (number key, cmd₄) := by
    cases num <;> rfl
  have hpipe : recordColumn (number key, cmd₄) (ascii "pipe", pipe) =
      some (number key, { cmd₄ with is2Pipe := decide (number pipe ≠ 0) }) := by
    cases pipe <;> rfl
  simp only [row, List.foldlM_cons, List.foldlM_nil, hkey, hcommand, hneedRsp, hdeprecated, hnum,
    hpipe, Option.bind_eq_bind, Option.bind_some, Option.pure_def]
  rfl

end CommandRecord

/-- The database with the records, all of which are read. -/
def CommandsDb.ofRecords (rows : List (Nat × CommandRecord)) : CommandsDb :=
  ⟨true, rows.map fun row => (row.1, row.2.row), true⟩

/-- The elements for the records. -/
def tableElems (rows : List (Nat × CommandRecord)) : List (Nat × Int × CommandBuf) :=
  rows.map fun row => (row.1, row.2.id, row.2.buf)

/-! ## The table -/

/-- The callback adds an element for a record. -/
theorem callbackRecordCommand_row {table : CommandTable} {es : List (Nat × Int × CommandBuf)}
    (hh : Uthash.Holds hashInt table es) {p : Nat} (hp : p ∉ Uthash.addresses es)
    {r : CommandRecord} (hr : r.Fits) :
    ∃ table', callbackRecordCommand table p r.row = some table' ∧
      Uthash.Holds hashInt table' (es ++ [(p, r.id, r.buf)]) := by
  obtain ⟨table', hadd, hh', -⟩ := hh.allocAdd hp r.id r.buf
  refine ⟨table', ?_, hh'⟩
  rw [callbackRecordCommand, CommandRecord.foldlM_recordColumn hr, Option.bind_eq_bind,
    Option.bind_some, hadd]

theorem foldlM_callbackRecordCommand {rows : List (Nat × CommandRecord)} :
    ∀ {table : CommandTable} {es : List (Nat × Int × CommandBuf)},
      Uthash.Holds hashInt table es → (Uthash.addresses (es ++ tableElems rows)).Nodup →
      (∀ row ∈ rows, row.2.Fits) →
      ∃ table', (rows.map fun row => (row.1, row.2.row)).foldlM
          (fun table row => callbackRecordCommand table row.1 row.2) table = some table' ∧
        Uthash.Holds hashInt table' (es ++ tableElems rows) := by
  induction rows with
  | nil =>
    intro table es hh _ _
    refine ⟨table, rfl, ?_⟩
    rwa [show tableElems [] = [] from rfl, List.append_nil]
  | cons row rows ih =>
    intro table es hh hnodup hfits
    have hsplit : es ++ tableElems (row :: rows) =
        (es ++ [(row.1, row.2.id, row.2.buf)]) ++ tableElems rows := by
      rw [List.append_assoc]
      rfl
    have hp : row.1 ∉ Uthash.addresses es := by
      rw [show tableElems (row :: rows) = (row.1, row.2.id, row.2.buf) :: tableElems rows from rfl,
        Uthash.addresses_middle] at hnodup
      exact fun hmem => (List.nodup_append.mp hnodup).2.2 _ hmem _ List.mem_cons_self rfl
    obtain ⟨table₁, hrecord, hh₁⟩ :=
      callbackRecordCommand_row hh hp (hfits row List.mem_cons_self)
    rw [hsplit] at hnodup ⊢
    obtain ⟨table', hrest, hh'⟩ :=
      ih hh₁ hnodup fun row hrow => hfits row (List.mem_cons_of_mem _ hrow)
    refine ⟨table', ?_, hh'⟩
    rw [List.map_cons, List.foldlM_cons, hrecord, Option.bind_eq_bind, Option.bind_some, hrest]

/-- What is found in the table is what is in the records. -/
theorem valueForKey_tableElems {table : CommandTable} {rows : List (Nat × CommandRecord)}
    (hh : Uthash.Holds hashInt table (tableElems rows)) (hfits : ∀ row ∈ rows, row.2.Fits)
    (key : Int) :
    ∃ found, valueForKey table key = some found ∧
      (found = none ↔ ∀ row ∈ rows, row.2.id ≠ key) ∧
      ∀ cmd, found = some cmd → ∃ row ∈ rows, row.2.id = key ∧ row.2.toCommand = cmd := by
  obtain ⟨r, hfind, hsome, hnone⟩ := hh.represents.find key
  cases r with
  | none =>
    refine ⟨none, ?_, ⟨fun _ row hrow => ?_, fun _ => rfl⟩, fun _ h => absurd h (by simp)⟩
    · rw [valueForKey, hfind, Option.bind_eq_bind, Option.bind_some]
      rfl
    · exact hnone rfl _ (List.mem_map_of_mem hrow)
  | some p =>
    obtain ⟨value, hmem⟩ := hsome p rfl
    obtain ⟨row, hrow, heq⟩ := List.mem_map.mp hmem
    obtain ⟨rfl, rfl, rfl⟩ : row.1 = p ∧ row.2.id = key ∧ row.2.buf = value := by
      simpa only [Prod.mk.injEq] using heq
    obtain ⟨elem, helem, hitem⟩ := Uthash.live_of_itemOf (hh.represents.item _ hmem)
    have hvalue : elem.value = row.2.buf := congrArg Uthash.Item.value hitem
    refine ⟨some row.2.toCommand, ?_, ⟨fun h => absurd h (by simp), fun hall => ?_⟩,
      fun cmd hcmd => ⟨row, hrow, rfl, Option.some.inj hcmd⟩⟩
    · rw [valueForKey, hfind, Option.bind_eq_bind, Option.bind_some]
      dsimp only
      rw [helem, Option.bind_eq_bind, Option.bind_some, hvalue,
        CommandRecord.command_buf (hfits row hrow)]
      rfl
    · exact absurd rfl (hall row hrow)

/-- `init_commands_table` makes a table that holds the records. -/
theorem initCommandsTable_holds {rows : List (Nat × CommandRecord)}
    (hnodup : (rows.map Prod.fst).Nodup) (hfits : ∀ row ∈ rows, row.2.Fits) :
    ∃ table, initCommandsTable (.ofRecords rows) Uthash.Hash.empty = some (table, 0) ∧
      Uthash.Holds hashInt table (tableElems rows) := by
  have haddr : Uthash.addresses ([] ++ tableElems rows) = rows.map Prod.fst := List.map_map
  obtain ⟨table, hrows, hh⟩ :=
    foldlM_callbackRecordCommand (Uthash.Holds.empty hashInt) (haddr ▸ hnodup) hfits
  rw [List.nil_append] at hh
  refine ⟨table, ?_, hh⟩
  rw [initCommandsTable, if_pos (show (CommandsDb.ofRecords rows).opens = true from rfl)]
  show Option.map _ (List.foldlM _ _ (rows.map fun row => (row.1, row.2.row))) = _
  rw [hrows]
  rfl

/-- **The table of the commands holds the records of the database: `value_for_key` finds
the command of a record with the key if there is one and nothing otherwise, and
`destory_commands_table` frees it all.** -/
theorem initCommandsTable_ofRecords {rows : List (Nat × CommandRecord)}
    (hnodup : (rows.map Prod.fst).Nodup) (hfits : ∀ row ∈ rows, row.2.Fits) :
    ∃ table, initCommandsTable (.ofRecords rows) Uthash.Hash.empty = some (table, 0) ∧
      (∀ key, ∃ found, valueForKey table key = some found ∧
        (found = none ↔ ∀ row ∈ rows, row.2.id ≠ key) ∧
        ∀ cmd, found = some cmd → ∃ row ∈ rows, row.2.id = key ∧ row.2.toCommand = cmd) ∧
      destoryCommandsTable table = some Uthash.Hash.empty := by
  obtain ⟨table, hinit, hh⟩ := initCommandsTable_holds hnodup hfits
  exact ⟨table, hinit, valueForKey_tableElems hh hfits, hh.freeTable⟩

/-- Two records of `commands.db`. -/
def twoRecords : List (Nat × CommandRecord) :=
  [(16, ⟨some (ascii "1"), some (ascii "account create %s %s"), some (ascii "1"),
      some (ascii "0"), some (ascii "2"), some (ascii "1")⟩),
    (32, ⟨some (ascii "2"), some (ascii "ban account %s -1 INIT"), some (ascii "0"),
      some (ascii "0"), some (ascii "1"), none⟩)]

theorem initCommandsTable_twoRecords :
    ∃ table, initCommandsTable (.ofRecords twoRecords) Uthash.Hash.empty = some (table, 0) ∧
      (∀ key, ∃ found, valueForKey table key = some found ∧
        (found = none ↔ ∀ row ∈ twoRecords, row.2.id ≠ key) ∧
        ∀ cmd, found = some cmd →
          ∃ row ∈ twoRecords, row.2.id = key ∧ row.2.toCommand = cmd) ∧
      destoryCommandsTable table = some Uthash.Hash.empty :=
  initCommandsTable_ofRecords (by decide) (by decide)

end WowProxy
