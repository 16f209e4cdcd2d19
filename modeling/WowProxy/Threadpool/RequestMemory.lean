/-
  Threadpool/RequestMemory.lean --- what `read_sock_func` allocates and frees over a whole
  read job.

  A message has its buffer, the decoded text, the tree, three arrays and a block for each
  command; the job has the `SOCKDATA` it is given.  What happens to them is computed
  beside what the job does, which is that of `Threadpool/ReadSock`.  How the exchange of a
  command with the game server ends is given by its number in the job.  The library calls
  of `write_db` keep their own memory.
-/
import WowProxy.Threadpool.AnswerMemory
import WowProxy.Threadpool.LengthArith
import WowProxy.Threadpool.RequestDelivery

set_option autoImplicit false

namespace WowProxy.RequestMem

open WowProxy.CJsonMem
open WowProxy.Lib.Blocks
open WowProxy.Lib.CString

/-! ## From the source -/

/-- The arrays of an accepted message, and the blocks in `cmds` with their commands. -/
structure Batch where
  resp : Nat
  cmds : Nat
  is2Pipe : Nat
  entries : List (Nat × ParsedCommand)

/-- `parse_object`: the block is allocated where nothing can fail any more. -/
def parseObject (d : Decoder) (cmds keys : Option CJson) :
    Prog (Except JsonError (Nat × ParsedCommand)) :=
  match WowProxy.parseObject d cmds keys with
  | .error e => return .error e
  | .ok cmd => do
    let value ← malloc
    return .ok (value, cmd)

/-- The loop of `analysis_message` from entry `i` on: the entries that are filled, and
whether no command was rejected. -/
def parseObjects (d : Decoder) (cmdsArray keysArray : CJson) (i : Nat) :
    Nat → Prog (List (Nat × ParsedCommand) × Bool)
  | 0 => return ([], true)
  | n + 1 => do
    match ← parseObject d (cmdsArray.getArrayItem i) (keysArray.getArrayItem i) with
    | .error _ => return ([], false)
    | .ok entry => do
      let r ← parseObjects d cmdsArray keysArray (i + 1) n
      return (entry :: r.1, r.2)

/-- `analysis_message` behind `cJSON_Parse`, with the blocks of the tree. -/
def analysisRoot (d : Decoder) (root : MemItem) (tree : CJson) : Prog (Option Batch) :=
  match tree.getObjectItem (some (ascii "values")), tree.getObjectItem (some (ascii "keys")) with
  | some cmdsArray, some keysArray =>
    let keySize := min keysArray.getArraySize cmdsArray.getArraySize
    if keySize = 0 then do
      cJsonDelete [root]
      return none
    else do
      let rs ← malloc
      let values ← malloc
      let fs ← malloc
      let r ← parseObjects d cmdsArray keysArray 0 keySize
      cJsonDelete [root]
      if r.2 then return some ⟨rs, values, fs, r.1⟩
      else do
        free rs
        free fs
        -- The blocks in `values` are not freed.
        free values
        return none
  | _, _ => do
    cJsonDelete [root]
    return none

/-- `analysis_message` from `cJSON_Parse` on, with the block of the text. -/
def analysisJson (valueForKey : Int → Option Command) (podata : Option Nat)
    (text : List UInt8) : Prog (Option Batch) := do
  match ← parseWithOpts (text ++ [0]) false with
  | (_, .fault) => failure
  | (none, _) => do
    freeSome podata
    return none
  | (some root, _) => do
    freeSome podata
    let tree ← need (CJson.cJsonParse text)
    analysisRoot (cJsonDecoder valueForKey) root tree

/-- The `calloc` of `analysis_message`, which gives `NULL` beyond the largest object size. -/
def callocData (n : Nat) : Prog (Option Nat) :=
  match calloc n with
  | none => return none
  | some _ => do
    let p ← malloc
    return some p

/-- `analysis_message` -/
def analysisMessage (valueForKey : Int → Option Command) (originalMsg : Option (List UInt8))
    (nbytes : Nat) : Prog (Option Batch) :=
  match originalMsg with
  | none => return none
  | some msg =>
    if nbytes = 0 then return none
    else do
      let len := sizeT ((nbytes : Int) - headSize)
      let podata ← callocData len
      let crc ← need (reverseCrcData (some (msg.drop headSize)) (toInt32 len) (calloc len))
      if crc.1 ≠ 0 then do
        freeSome podata
        return none
      else do
        let text ← need (cstr (padded crc.2 len))
        analysisJson valueForKey podata text

/-- The loop of `free_command`. -/
def freeEntries : List (Nat × ParsedCommand) → Prog Unit
  | [] => pure ()
  | entry :: entries => do
    free entry.1
    freeEntries entries

/-- `free_command` -/
def freeCommand (batch : Batch) : Prog Unit := do
  freeEntries batch.entries
  free batch.resp
  free batch.is2Pipe
  free batch.cmds

/-- A command is executed, with the way its exchange ends. -/
def executeOne (c : ParsedCommand) (x : Exchange) : Prog Unit :=
  if c.is2Pipe then AnswerMem.writePipeOrSock c.needRsp x else return ()

/-- The commands of a message are executed, from the one with number `k` of the job on. -/
def execute (exchange : Nat → Exchange) : Nat → List ParsedCommand → Prog Unit
  | _, [] => pure ()
  | k, c :: cmds => do
    executeOne c (exchange k)
    execute exchange (k + 1) cmds

section Job

variable {σ : Type} (sock : ClientSock σ) (valueForKey : Int → Option Command)
  (exchange : Nat → Exchange)

/-- `read_normal_sock` allocates the buffer that it sets. -/
def readNormalSock (turns : Nat) (s : σ) : Prog (Int × Option (Nat × List UInt8) × σ) := do
  let r ← need (WowProxy.readNormalSock sock turns s)
  match r.2.1 with
  | none => return (r.1, none, r.2.2)
  | some buf => do
    let p ← malloc
    return (r.1, some (p, buf), r.2.2)

/-- The loop of `read_sock_func` -/
def readSockLoop (turns : Nat) : Nat → ReadJob σ → Prog (ReadJob σ)
  | 0, _ => failure
  | fuel + 1, job => do
    let (nbytes, pszBuf, s) ← readNormalSock sock turns job.sock
    if nbytes < 0 then do
      freeSome (pszBuf.map Prod.fst)
      return { job with sock := s }
    else do
      let batch ← analysisMessage valueForKey (pszBuf.map Prod.snd) nbytes.toNat
      freeSome (pszBuf.map Prod.fst)
      let m : Message := ⟨pszBuf.map Prod.snd, nbytes⟩
      match batch with
      | none => return job.pass m [] s
      | some batch => do
        let cmds := batch.entries.map Prod.snd
        execute exchange job.executed.length cmds
        freeCommand batch
        readSockLoop turns fuel (job.pass m cmds s)

/-- `read_sock_func` with its `SOCKDATA` -/
def readSockFunc (turns fuel : Nat) (sockData : Nat) (s : σ) : Prog (ReadJob σ) := do
  let job ← readSockLoop sock valueForKey exchange turns fuel
    { messages := [], executed := [], sock := s }
  free sockData
  return job

end Job

/-! ## What is left behind -/

/-- The command with this number is accepted. -/
def accepted (d : Decoder) (cmdsArray keysArray : CJson) (i : Nat) : Bool :=
  (WowProxy.parseObject d (cmdsArray.getArrayItem i) (keysArray.getArrayItem i)).isOk

/-- How many commands are accepted from number `i` on, of `n`, before one is rejected. -/
def filled (d : Decoder) (cmdsArray keysArray : CJson) (i n : Nat) : Nat :=
  ((List.range' i n).takeWhile (accepted d cmdsArray keysArray)).length

/-- How many commands in front of a rejected one are abandoned. -/
def abandoned (d : Decoder) (tree : CJson) : Nat :=
  match tree.getObjectItem (some (ascii "values")), tree.getObjectItem (some (ascii "keys")) with
  | some cmdsArray, some keysArray =>
    let keySize := min keysArray.getArraySize cmdsArray.getArraySize
    let n := filled d cmdsArray keysArray 0 keySize
    if n < keySize then n else 0
  | _, _ => 0

/-- The text in the body of a message, if its checksum is right. -/
def bodyText (msg : List UInt8) (len : Nat) : Option (List UInt8) :=
  match reverseCrcData (some (msg.drop headSize)) (toInt32 len) (calloc len) with
  | none => none
  | some (ret, data) => if ret ≠ 0 then none else cstr (padded data len)

/-- What `cJSON_Parse` gets of a message. -/
def jsonText (m : Message) : Option (List UInt8) :=
  m.buf.bind fun msg =>
    if m.nbytes.toNat = 0 then none
    else bodyText msg (sizeT ((m.nbytes.toNat : Int) - headSize))

/-- How many commands of a text are abandoned. -/
def abandonedText (valueForKey : Int → Option Command) (text : List UInt8) : Nat :=
  ((CJson.cJsonParse text).map (abandoned (cJsonDecoder valueForKey))).getD 0

/-- How many blocks a message leaves behind. -/
def leaked (valueForKey : Int → Option Command) (m : Message) : Nat :=
  ((jsonText m).map (abandonedText valueForKey)).getD 0

/-- How many blocks a command leaves behind. -/
def leftBlocks (c : ParsedCommand) (x : Exchange) : Nat :=
  if c.is2Pipe then AnswerMem.leftBlocks c.needRsp x else 0

/-- How many blocks the commands leave behind, from the one with number `k` on. -/
def allLeft (exchange : Nat → Exchange) : Nat → List ParsedCommand → Nat
  | _, [] => 0
  | k, c :: cmds => leftBlocks c (exchange k) + allLeft exchange (k + 1) cmds

/-- How many blocks a job leaves behind. -/
def jobLeaked {σ : Type} (valueForKey : Int → Option Command) (exchange : Nat → Exchange)
    (job : ReadJob σ) : Nat :=
  (job.messages.map (leaked valueForKey)).sum + allLeft exchange 0 job.executed

/-- No command from the one with number `k` on leaves a buffer on the way to its reply. -/
def AllStay (exchange : Nat → Exchange) : Nat → List ParsedCommand → Prop
  | _, [] => True
  | k, c :: cmds =>
    (c.is2Pipe = true → AnswerMem.Stays c.needRsp (exchange k)) ∧ AllStay exchange (k + 1) cmds

/-- `cJSON_Parse` stays in the text of the message. -/
def Parses (m : Message) : Prop :=
  ∀ text, jsonText m = some text → CJson.parse (text ++ [0]) ≠ .fault

/-! ## One message -/

section Loop

variable (d : Decoder) (cmdsArray keysArray : CJson)

theorem filled_succ (i n : Nat) :
    filled d cmdsArray keysArray i (n + 1) =
      if accepted d cmdsArray keysArray i then filled d cmdsArray keysArray (i + 1) n + 1
      else 0 := by
  rw [filled, List.range'_succ, List.takeWhile_cons]
  split
  · rfl
  · rfl

/-- The loop fills in the commands up to the first that is rejected. -/
structure Fills (i n : Nat) (pre : List Nat) (r : List (Nat × ParsedCommand) × Bool)
    (own : List Nat) : Prop where
  blocks : own.Perm (r.1.map Prod.fst ++ pre)
  length : r.1.length = filled d cmdsArray keysArray i n
  all : r.2 = true → r.1.length = n ∧
    WowProxy.parseObjects d cmdsArray keysArray i n = .ok (r.1.map Prod.snd)
  some : r.2 = false → r.1.length < n ∧
    ∃ e, WowProxy.parseObjects d cmdsArray keysArray i n = .error e

/-- A command that is accepted gets its block. -/
theorem owns_parseObject (cmds keys : Option CJson) (pre : List Nat) :
    Owns pre (parseObject d cmds keys) fun r own =>
      (∃ e, WowProxy.parseObject d cmds keys = .error e ∧ r = .error e ∧ own = pre) ∨
        ∃ cmd value, WowProxy.parseObject d cmds keys = .ok cmd ∧ r = .ok (value, cmd) ∧
          own = value :: pre := by
  rw [parseObject]
  cases WowProxy.parseObject d cmds keys with
  | error e => exact .pure (.inl ⟨e, rfl, rfl, rfl⟩)
  | ok cmd =>
    apply (Owns.malloc pre).bind
    intro value own hown
    exact .pure (.inr ⟨cmd, value, rfl, rfl, hown⟩)

theorem owns_parseObjects (n : Nat) : ∀ (i : Nat) (pre : List Nat),
    Owns pre (parseObjects d cmdsArray keysArray i n) (Fills d cmdsArray keysArray i n pre) := by
  induction n with
  | zero =>
    intro i pre
    exact .pure
      { blocks := .refl _
        length := rfl
        all := fun _ => ⟨rfl, rfl⟩
        some := fun h => absurd h (by simp) }
  | succ n ih =>
    intro i pre
    have hfilled := filled_succ d cmdsArray keysArray i n
    rw [accepted] at hfilled
    rw [parseObjects]
    apply (owns_parseObject d _ _ pre).bind
    rintro r own (⟨e, hcmd, rfl, rfl⟩ | ⟨cmd, value, hcmd, rfl, rfl⟩)
    · rw [hcmd] at hfilled
      exact .pure
        { blocks := .refl _
          length := hfilled.symm
          all := fun h => absurd h (by simp)
          some := fun _ => ⟨Nat.succ_pos n, e, by rw [WowProxy.parseObjects, hcmd]⟩ }
    · rw [hcmd] at hfilled
      apply (ih (i + 1) (value :: pre)).bind
      intro r own hr
      refine .pure
        { blocks := hr.blocks.trans List.perm_middle
          length := ?_
          all := fun h => ⟨?_, ?_⟩
          some := fun h => ?_ }
      · rw [List.length_cons, hr.length]
        exact hfilled.symm
      · rw [List.length_cons, (hr.all h).1]
      · rw [WowProxy.parseObjects, hcmd]
        dsimp only
        rw [(hr.all h).2, List.map_cons]
      · obtain ⟨hlength, e, he⟩ := hr.some h
        refine ⟨Nat.succ_lt_succ hlength, e, ?_⟩
        rw [WowProxy.parseObjects, hcmd]
        dsimp only
        rw [he]

end Loop

/-- The blocks of a batch. -/
def Batch.blocks (batch : Batch) : List Nat :=
  batch.entries.map Prod.fst ++ [batch.resp, batch.is2Pipe, batch.cmds]

/-- A message has been analysed to these commands, and `leak` blocks are left beside those
of the batch. -/
structure Keeps (cmds : List ParsedCommand) (leak : Nat) (pre : List Nat) (r : Option Batch)
    (own : List Nat) : Prop where
  commands : (r.map fun batch => batch.entries.map Prod.snd).getD [] = cmds
  rejected : r = none ↔ cmds = []
  kept : r ≠ none → leak = 0
  blocks : ∃ left, left.length = leak ∧
    own.Perm ((r.map Batch.blocks).getD [] ++ (left ++ pre))

theorem Keeps.none {leak : Nat} {pre own : List Nat}
    (h : ∃ left, left.length = leak ∧ own.Perm (left ++ pre)) : Keeps [] leak pre none own :=
  ⟨rfl, ⟨fun _ => rfl, fun _ => rfl⟩, fun hne => absurd rfl hne, h⟩

theorem owns_analysisRoot (d : Decoder) (root : MemItem) (tree : CJson) (text : List UInt8)
    (htree : d.cJsonParse text = some tree) (pre : List Nat) :
    Owns (root.blocks ++ pre) (analysisRoot d root tree)
      (Keeps (WowProxy.analysisJson d text) (abandoned d tree) pre) := by
  have hdelete (rest : List Nat) : Owns (root.blocks ++ rest) (cJsonDelete [root]) fun _ own =>
      own = rest := by
    rw [← blocksAll_singleton]
    exact owns_cJsonDelete [root] rest
  have hgiveUp : Owns (root.blocks ++ pre)
      (do cJsonDelete [root]; return none) (Keeps [] 0 pre) := by
    apply (hdelete pre).bind
    rintro _ own rfl
    exact .pure (.none ⟨[], rfl, .refl _⟩)
  rw [analysisRoot, WowProxy.analysisJson, abandoned, htree]
  dsimp only
  cases hvalues : tree.getObjectItem (some (ascii "values")) with
  | none => exact hgiveUp
  | some cmdsArray =>
    cases hkeys : tree.getObjectItem (some (ascii "keys")) with
    | none => exact hgiveUp
    | some keysArray =>
      dsimp only
      generalize min keysArray.getArraySize cmdsArray.getArraySize = keySize
      split
      · rename_i hzero
        subst hzero
        exact hgiveUp
      · rename_i hpos
        apply (Owns.malloc _).bind
        rintro rs own rfl
        apply (Owns.malloc _).bind
        rintro values own rfl
        apply (Owns.malloc _).bind
        rintro fs own rfl
        apply (owns_parseObjects d cmdsArray keysArray keySize 0 _).bind
        intro r own hr
        have hown : own.Perm (root.blocks ++
            (r.1.map Prod.fst ++ [rs, fs, values] ++ pre)) := by
          refine hr.blocks.trans (List.perm_iff_count.mpr fun x => ?_)
          simp only [List.count_append, List.count_cons, List.count_nil]
          omega
        apply ((hdelete _).perm hown).bind
        rintro _ own' rfl
        rw [← hr.length]
        cases hall : r.2 with
        | true =>
          obtain ⟨hlength, hcmds⟩ := hr.all hall
          rw [if_pos rfl, hcmds, if_neg (by omega)]
          refine .pure ⟨rfl, ?_, fun _ => rfl, [], rfl, .refl _⟩
          have hne : r.1.map Prod.snd ≠ [] := by
            rw [ne_eq, ← List.length_eq_zero_iff, List.length_map]
            omega
          exact ⟨fun h => absurd h (by simp), fun h => absurd h hne⟩
        | false =>
          obtain ⟨hlength, e, he⟩ := hr.some hall
          rw [if_neg Bool.false_ne_true, he, if_pos hlength]
          have hown : (r.1.map Prod.fst ++ [rs, fs, values] ++ pre).Perm
              (rs :: fs :: values :: (r.1.map Prod.fst ++ pre)) := by
            refine List.perm_iff_count.mpr fun x => ?_
            simp only [List.count_append, List.count_cons, List.count_nil]
            omega
          apply ((Owns.free rs _).perm hown).bind
          rintro _ own rfl
          apply (Owns.free fs _).bind
          rintro _ own rfl
          apply (Owns.free values _).bind
          rintro _ own rfl
          exact .pure (.none ⟨r.1.map Prod.fst, List.length_map .., .refl _⟩)

/-- `cJSON_Parse` of a text in which it stays. -/
theorem owns_parse {text : List UInt8} (hfault : CJson.parse text ≠ .fault) (pre : List Nat) :
    Owns pre (parseWithOpts text false) fun r own =>
      (CJson.parse text = .null ∧ r = (none, .null) ∧ own.Perm pre) ∨
        ∃ v ptr c, CJson.parse text = .item v ptr ∧ r = (some c, .item () ptr) ∧
          own.Perm (c.blocks ++ pre) := by
  refine (owns_parseWithOpts text false pre).weaken ?_
  rintro ⟨root, result⟩ own ⟨houtcome, hallocated, hreturned⟩
  change result = outcome (CJson.parse text) at houtcome
  dsimp only at hallocated hreturned
  subst houtcome
  cases hparse : CJson.parse text with
  | fault => exact absurd hparse hfault
  | null =>
    have hroot : root = none := by
      rw [← Option.not_isSome_iff_eq_none, hreturned, hparse]
      rintro ⟨ptr, hptr⟩
      cases hptr
    subst hroot
    rw [hparse] at hallocated
    exact .inl ⟨rfl, rfl, hallocated fun h => by cases h⟩
  | item v ptr =>
    rw [hparse] at hallocated hreturned
    obtain ⟨c, rfl⟩ := Option.isSome_iff_exists.mp (hreturned.mpr ⟨ptr, rfl⟩)
    exact .inr ⟨v, ptr, c, rfl, rfl, hallocated fun h => by cases h⟩

theorem owns_analysisJson {valueForKey : Int → Option Command} {text : List UInt8}
    (hfault : CJson.parse (text ++ [0]) ≠ .fault) (podata : Option Nat) (pre : List Nat) :
    Owns (podata.toList ++ pre) (analysisJson valueForKey podata text)
      (Keeps (WowProxy.analysisJson (cJsonDecoder valueForKey) text)
        (abandonedText valueForKey text) pre) := by
  rw [analysisJson]
  apply (owns_parse hfault _).bind
  rintro r own (⟨hparse, rfl, hown⟩ | ⟨v, ptr, root, hparse, rfl, hown⟩)
  · have htree : CJson.cJsonParse text = none := by rw [CJson.cJsonParse, hparse]
    have hcmds : WowProxy.analysisJson (cJsonDecoder valueForKey) text = [] := by
      rw [WowProxy.analysisJson,
        show (cJsonDecoder valueForKey).cJsonParse text = none from htree]
    rw [hcmds, abandonedText, htree]
    apply ((Owns.freeSome podata pre).perm hown).bind
    rintro _ own rfl
    exact .pure (.none ⟨[], rfl, .refl _⟩)
  · have htree : CJson.cJsonParse text = some (CJson.node none v) := by
      rw [CJson.cJsonParse, hparse]
    rw [abandonedText, htree]
    have hown' : own.Perm (podata.toList ++ (root.blocks ++ pre)) := by
      refine hown.trans ?_
      rw [← List.append_assoc, ← List.append_assoc]
      exact List.perm_append_comm.append_right pre
    apply ((Owns.freeSome podata _).perm hown').bind
    rintro _ own rfl
    apply (Owns.need rfl).bind
    rintro _ own ⟨rfl, rfl⟩
    exact owns_analysisRoot (cJsonDecoder valueForKey) root _ text htree pre

theorem owns_callocData (n : Nat) (pre : List Nat) :
    Owns pre (callocData n) fun podata own => own = podata.toList ++ pre := by
  rw [callocData]
  cases calloc n with
  | none => exact .pure rfl
  | some _ =>
    apply (Owns.malloc pre).bind
    rintro p own rfl
    exact .pure rfl

/-- `analysis_message` frees the text and the tree, and keeps the batch. -/
theorem owns_analysisMessage {valueForKey : Int → Option Command} {m : Message}
    {cmds : List ParsedCommand} (hparses : Parses m)
    (hcmds : WowProxy.analysisMessage (cJsonDecoder valueForKey) m.buf m.nbytes.toNat = some cmds)
    (pre : List Nat) :
    Owns pre (analysisMessage valueForKey m.buf m.nbytes.toNat)
      (Keeps cmds (leaked valueForKey m) pre) := by
  have hnothing : jsonText m = none → cmds = [] →
      ∀ pre, Keeps cmds (leaked valueForKey m) pre none pre := by
    rintro htext rfl pre
    rw [leaked, htext]
    exact .none ⟨[], rfl, .refl _⟩
  obtain ⟨buf, nbytes⟩ := m
  dsimp only at hcmds hparses hnothing ⊢
  cases buf with
  | none => exact .pure (hnothing rfl (Option.some.inj hcmds).symm pre)
  | some msg =>
    rw [WowProxy.analysisMessage] at hcmds
    rw [analysisMessage]
    dsimp only at hcmds ⊢
    by_cases hzero : nbytes.toNat = 0
    · rw [if_pos hzero] at hcmds ⊢
      refine .pure (hnothing ?_ (Option.some.inj hcmds).symm pre)
      rw [jsonText]
      exact if_pos hzero
    rw [if_neg hzero] at hcmds ⊢
    have htext : jsonText ⟨some msg, nbytes⟩ =
        bodyText msg (sizeT ((nbytes.toNat : Int) - headSize)) := by
      rw [jsonText, Option.bind_some]
      exact if_neg hzero
    generalize sizeT ((nbytes.toNat : Int) - headSize) = len at hcmds htext ⊢
    apply (owns_callocData len pre).bind
    rintro podata own rfl
    cases hcrc : reverseCrcData (some (msg.drop headSize)) (toInt32 len) (calloc len) with
    | none =>
      rw [hcrc] at hcmds
      exact absurd hcmds (by simp)
    | some crc =>
      obtain ⟨ret, data⟩ := crc
      rw [bodyText, hcrc] at htext
      rw [hcrc] at hcmds
      dsimp only at hcmds htext
      apply (Owns.need rfl).bind
      rintro _ own ⟨rfl, rfl⟩
      dsimp only
      by_cases hret : ret ≠ 0
      · rw [if_pos hret] at hcmds htext
        rw [if_pos hret]
        apply (Owns.freeSome podata pre).bind
        rintro _ own rfl
        exact .pure (hnothing htext (Option.some.inj hcmds).symm own)
      · rw [if_neg hret] at hcmds htext
        rw [if_neg hret]
        obtain ⟨text, hcstr, rfl⟩ := Option.map_eq_some_iff.mp hcmds
        rw [hcstr] at htext
        have hfault := hparses text htext
        apply (Owns.need hcstr).bind
        rintro text own ⟨rfl, rfl⟩
        have hleaked : leaked valueForKey ⟨some msg, nbytes⟩ = abandonedText valueForKey text := by
          rw [leaked, htext]
          rfl
        rw [hleaked]
        exact owns_analysisJson hfault podata pre

/-! ## The job -/

theorem owns_freeEntries (entries : List (Nat × ParsedCommand)) (pre : List Nat) :
    Owns (entries.map Prod.fst ++ pre) (freeEntries entries) fun _ own => own = pre := by
  induction entries with
  | nil => exact .pure rfl
  | cons entry entries ih =>
    rw [freeEntries, List.map_cons, List.cons_append]
    apply (Owns.free entry.1 _).bind
    rintro _ own rfl
    exact ih

/-- A batch is freed with all its blocks. -/
theorem owns_freeCommand (batch : Batch) (pre : List Nat) :
    Owns (batch.blocks ++ pre) (freeCommand batch) fun _ own => own = pre := by
  rw [Batch.blocks, freeCommand, List.append_assoc]
  apply (owns_freeEntries batch.entries _).bind
  rintro _ own rfl
  apply (Owns.free batch.resp _).bind
  rintro _ own rfl
  apply (Owns.free batch.is2Pipe _).bind
  rintro _ own rfl
  exact .free batch.cmds pre

section Execute

variable (exchange : Nat → Exchange)

theorem allLeft_append (cmds more : List ParsedCommand) : ∀ k : Nat,
    allLeft exchange k (cmds ++ more) =
      allLeft exchange k cmds + allLeft exchange (k + cmds.length) more := by
  induction cmds with
  | nil => exact fun k => (Nat.zero_add _).symm
  | cons c cmds ih =>
    intro k
    rw [List.cons_append, allLeft, allLeft, ih, List.length_cons, Nat.add_right_comm k,
      Nat.add_assoc k, Nat.add_assoc]

theorem allStay_append (cmds more : List ParsedCommand) : ∀ k : Nat,
    AllStay exchange k (cmds ++ more) ↔
      AllStay exchange k cmds ∧ AllStay exchange (k + cmds.length) more := by
  induction cmds with
  | nil => exact fun k => ⟨fun h => ⟨trivial, h⟩, fun h => h.2⟩
  | cons c cmds ih =>
    intro k
    rw [List.cons_append, AllStay, AllStay, ih, List.length_cons, and_assoc,
      Nat.add_right_comm k]
    rfl

theorem owns_executeOne {c : ParsedCommand} {x : Exchange}
    (hstays : c.is2Pipe = true → AnswerMem.Stays c.needRsp x) (pre : List Nat) :
    Owns pre (executeOne c x) fun _ own =>
      ∃ left, own.Perm (left ++ pre) ∧ left.length = leftBlocks c x := by
  rw [executeOne, leftBlocks]
  split
  · rename_i hpipe
    exact AnswerMem.owns_writePipeOrSock (hstays hpipe) pre
  · exact .pure ⟨[], .refl _, rfl⟩

theorem owns_execute (cmds : List ParsedCommand) : ∀ (k : Nat) (pre : List Nat),
    AllStay exchange k cmds →
    Owns pre (execute exchange k cmds) fun _ own =>
      ∃ left, own.Perm (left ++ pre) ∧ left.length = allLeft exchange k cmds := by
  induction cmds with
  | nil => exact fun _ _ _ => .pure ⟨[], .refl _, rfl⟩
  | cons c cmds ih =>
    rintro k pre ⟨hstays, hrest⟩
    rw [execute]
    apply (owns_executeOne hstays pre).bind
    rintro _ own ⟨left, hown, hleft⟩
    refine (ih (k + 1) own hrest).weaken ?_
    rintro _ own' ⟨left', hown', hleft'⟩
    refine ⟨left' ++ left, ?_, ?_⟩
    · rw [List.append_assoc]
      exact hown'.trans (hown.append_left left')
    · rw [List.length_append, hleft, hleft', Nat.add_comm]
      rfl

end Execute

section Job

variable {σ : Type} {sock : ClientSock σ} {valueForKey : Int → Option Command}
  {exchange : Nat → Exchange}

theorem owns_readNormalSock {turns : Nat} {s s' : σ} {m : Message}
    (hread : WowProxy.readNormalSock sock turns s = some (m.nbytes, m.buf, s')) (pre : List Nat) :
    Owns pre (readNormalSock sock turns s) fun r own =>
      r.1 = m.nbytes ∧ r.2.1.map Prod.snd = m.buf ∧ r.2.2 = s' ∧
        own = (r.2.1.map Prod.fst).toList ++ pre := by
  rw [readNormalSock]
  apply (Owns.need hread).bind
  rintro _ own ⟨rfl, rfl⟩
  dsimp only
  cases m.buf with
  | none => exact .pure ⟨rfl, rfl, rfl, rfl⟩
  | some buf =>
    apply (Owns.malloc own).bind
    rintro p own rfl
    exact .pure ⟨rfl, rfl, rfl, rfl⟩

theorem jobLeaked_pass (job : ReadJob σ) (m : Message) (cmds : List ParsedCommand) (s : σ) :
    jobLeaked valueForKey exchange (job.pass m cmds s) =
      jobLeaked valueForKey exchange job + leaked valueForKey m +
        allLeft exchange job.executed.length cmds := by
  simp only [jobLeaked, ReadJob.pass, List.map_append, List.map_cons, List.map_nil,
    List.sum_append, List.sum_cons, List.sum_nil, allLeft_append, Nat.zero_add]
  omega

/-- The message of a turn is one of the job. -/
theorem mem_messages {d : Decoder} {turns fuel : Nat} {job out : ReadJob σ} {m : Message}
    {cmds : List ParsedCommand} {s : σ}
    (h : cmds = [] ∧ out = job.pass m cmds s ∨
      cmds ≠ [] ∧ WowProxy.readSockLoop sock d turns fuel (job.pass m cmds s) = some out) :
    m ∈ out.messages := by
  rcases h with ⟨-, rfl⟩ | ⟨-, hmore⟩
  · exact List.mem_append_right _ (List.mem_singleton_self m)
  · rw [readSockLoop_messages_eq sock d turns fuel _ out hmore]
    exact List.mem_append_left _ (List.mem_append_right _ (List.mem_singleton_self m))

/-- What is executed stays executed. -/
theorem executed_prefix {d : Decoder} {turns : Nat} (fuel : Nat) : ∀ {job out : ReadJob σ},
    WowProxy.readSockLoop sock d turns fuel job = some out →
      ∃ more, out.executed = job.executed ++ more := by
  induction fuel with
  | zero => exact fun h => absurd h (by simp [WowProxy.readSockLoop])
  | succ fuel ih =>
    intro job out h
    obtain ⟨m, s, -, hcase⟩ := readSockLoop_cases sock h
    rcases hcase with ⟨-, rfl⟩ | ⟨cmds, -, -, hcase⟩
    · exact ⟨[], (List.append_nil _).symm⟩
    rcases hcase with ⟨-, rfl⟩ | ⟨-, hmore⟩
    · exact ⟨cmds, rfl⟩
    · obtain ⟨more, hmore⟩ := ih hmore
      exact ⟨cmds ++ more, hmore.trans (List.append_assoc _ _ _)⟩

/-- The commands of a turn stay in the buffers where those of the job do. -/
theorem allStay_turn {d : Decoder} {turns fuel : Nat} {job out : ReadJob σ} {m : Message}
    {cmds : List ParsedCommand} {s : σ} (hstay : AllStay exchange 0 out.executed)
    (hmore : WowProxy.readSockLoop sock d turns fuel (job.pass m cmds s) = some out) :
    AllStay exchange job.executed.length cmds := by
  obtain ⟨more, hexecuted⟩ := executed_prefix fuel hmore
  rw [hexecuted, allStay_append, ReadJob.pass, allStay_append, Nat.zero_add] at hstay
  exact hstay.1.2

/-- From any turn on, the loop leaves behind what its messages and commands do. -/
theorem owns_readSockLoop {turns : Nat} {out : ReadJob σ}
    (hstay : AllStay exchange 0 out.executed)
    (hparses : ∀ m ∈ out.messages, Parses m) (fuel : Nat) :
    ∀ (job : ReadJob σ) (pre : List Nat),
      WowProxy.readSockLoop sock (cJsonDecoder valueForKey) turns fuel job = some out →
      Owns pre (readSockLoop sock valueForKey exchange turns fuel job) fun r own =>
        r = out ∧ ∃ left, own.Perm (left ++ pre) ∧
          jobLeaked valueForKey exchange out =
            jobLeaked valueForKey exchange job + left.length := by
  induction fuel with
  | zero => exact fun job pre h => absurd h (by simp [WowProxy.readSockLoop])
  | succ fuel ih =>
    intro job pre h
    obtain ⟨m, s, hread, hcase⟩ := readSockLoop_cases sock h
    rw [readSockLoop]
    apply (owns_readNormalSock hread pre).bind
    rintro ⟨nbytes, pszBuf, s'⟩ own ⟨hnbytes, hbuf, hs, rfl⟩
    dsimp only at hnbytes hbuf hs ⊢
    obtain rfl := hs
    obtain rfl := hnbytes
    rcases hcase with ⟨hneg, rfl⟩ | ⟨cmds, hnonneg, hanalysis, hcase⟩
    · rw [if_pos hneg]
      apply (Owns.freeSome _ pre).bind
      rintro _ own rfl
      exact .pure ⟨rfl, [], .refl _, rfl⟩
    · rw [if_neg hnonneg, hbuf]
      have hm : Parses m := hparses m (mem_messages hcase)
      apply (owns_analysisMessage hm hanalysis _).bind
      rintro batch own ⟨hcommands, hrejected, -, left, hleft, hown⟩
      have hown' : own.Perm ((pszBuf.map Prod.fst).toList ++
          ((batch.map Batch.blocks).getD [] ++ (left ++ pre))) := by
        refine hown.trans (List.perm_iff_count.mpr fun x => ?_)
        simp only [List.count_append]
        omega
      apply ((Owns.freeSome _ _).perm hown').bind
      rintro _ own'' rfl
      cases batch with
      | none =>
        obtain rfl := hrejected.mp rfl
        rcases hcase with ⟨-, rfl⟩ | ⟨hne, -⟩
        · refine .pure ⟨rfl, left, .refl _, ?_⟩
          rw [jobLeaked_pass, hleft]
          rfl
        · exact absurd rfl hne
      | some batch =>
        have hne : cmds ≠ [] := fun h => absurd (hrejected.mpr h) (by simp)
        obtain rfl : batch.entries.map Prod.snd = cmds := hcommands
        rcases hcase with ⟨hnil, -⟩ | ⟨-, hmore⟩
        · exact absurd hnil hne
        dsimp only
        apply (owns_execute exchange _ _ _ (allStay_turn hstay hmore)).bind
        rintro _ own₁ ⟨replies, hown₁, hreplies⟩
        have hown₂ : own₁.Perm (batch.blocks ++ (replies ++ (left ++ pre))) := by
          refine hown₁.trans (List.perm_iff_count.mpr fun x => ?_)
          simp only [List.count_append, Option.map_some, Option.getD_some]
          omega
        apply ((owns_freeCommand batch _).perm hown₂).bind
        rintro _ own₃ rfl
        refine (ih _ _ hmore).weaken ?_
        rintro r own₄ ⟨rfl, rest, hown₄, hrest⟩
        refine ⟨rfl, rest ++ (replies ++ left), ?_, ?_⟩
        · rw [List.append_assoc, List.append_assoc]
          exact hown₄
        · rw [hrest, jobLeaked_pass, List.length_append, List.length_append, hreplies, hleft]
          omega

end Job

/-- **`analysis_message` keeps the arrays and the commands of a message that it accepts, which
`free_command` frees, and nothing else; of one that it rejects, the commands that were
accepted before the rejected one stay allocated.** -/
theorem analysisMessage_leaves {valueForKey : Int → Option Command} {msg : Message}
    {cmds : List ParsedCommand} (hparses : Parses msg)
    (hcmds : WowProxy.analysisMessage (cJsonDecoder valueForKey) msg.buf msg.nbytes.toNat =
      some cmds) (m : Mem) :
    ∃ batch m₁, analysisMessage valueForKey msg.buf msg.nbytes.toNat m = some (batch, m₁) ∧
      (batch = none ↔ cmds = []) ∧
      (batch = none → ∃ left, m₁.live.Perm (left ++ m.live) ∧
        left.length = leaked valueForKey msg) ∧
      ∀ b, batch = some b → b.entries.map Prod.snd = cmds ∧
        m₁.live.Perm (b.blocks ++ m.live) ∧
        ∃ m₂, freeCommand b m₁ = some ((), m₂) ∧ m₂.live.Perm m.live := by
  obtain ⟨batch, m₁, own, hrun, hm₁, hcommands, hrejected, hkept, left, hleft, hown⟩ :=
    owns_analysisMessage hparses hcmds [] m m.live (.refl _)
  rw [List.append_nil] at hown
  have hlive := hm₁.trans (hown.append_right m.live)
  refine ⟨batch, m₁, hrun, hrejected, ?_, ?_⟩
  · rintro rfl
    exact ⟨left, hlive, hleft⟩
  · rintro batch rfl
    rw [hkept (by simp)] at hleft
    rw [List.length_eq_zero_iff.mp hleft, List.append_nil] at hlive
    obtain ⟨_, m₂, own', hfree, hm₂, rfl⟩ :=
      owns_freeCommand batch [] m₁ m.live (by rwa [List.append_nil])
    exact ⟨hcommands, hlive, m₂, hfree, hm₂⟩

/-- `cJSON_Parse` gets the payload of a frame up to its first NUL. -/
theorem jsonText_message (p : Payload) :
    jsonText p.message = some (p.bytes.takeWhile (· ≠ 0)) := by
  have hb := p.bounded
  have hlength := p.length_frame
  have hpos : (p.message.nbytes.toNat) ≠ 0 := by
    rw [Payload.message, Int.toNat_natCast]
    omega
  have hlen : sizeT ((p.message.nbytes.toNat : Int) - headSize) = p.bytes.length + 1 := by
    have hint : (p.message.nbytes.toNat : Int) - headSize = ((p.bytes.length + 1 : Nat) : Int) := by
      rw [Payload.message, Int.toNat_natCast, hlength]
      simp only [headSize]
      omega
    rw [hint, sizeT_of_nonneg (by omega) (by omega), Int.toNat_natCast]
  have hdrop : p.frame.drop headSize = p.body := List.drop_left' p.length_header
  have hint : toInt32 ((p.bytes.length + 1 : Nat) : Int) = (p.bytes.length : Int) + 1 := by
    rw [toInt32_of_small (by omega) (by omega), Int.natCast_add, Int.natCast_one]
  have hcalloc : calloc (p.bytes.length + 1) = some (p.bytes.length + 1) := by
    rw [calloc, if_pos (by omega)]
  have htext : jsonText p.message =
      bodyText p.frame (sizeT ((p.message.nbytes.toNat : Int) - headSize)) := by
    rw [jsonText, show p.message.buf = some p.frame from rfl, Option.bind_some, if_neg hpos]
  rw [htext, bodyText]
  simp only [hlen, hdrop, hint, hcalloc, p.reverseCrcData_body, ne_eq, not_true_eq_false,
    if_false, cstr_padded_succ]

theorem leaked_message (valueForKey : Int → Option Command) (p : Payload) :
    leaked valueForKey p.message = abandonedText valueForKey (p.bytes.takeWhile (· ≠ 0)) := by
  rw [leaked, jsonText_message]
  rfl

/-- Where there is a tree, the parser stays in the text. -/
theorem parses_message {p : Payload}
    (htree : (CJson.cJsonParse (p.bytes.takeWhile (· ≠ 0))).isSome = true) :
    Parses p.message := by
  intro text htext
  rw [jsonText_message] at htext
  obtain rfl := Option.some.inj htext
  intro hfault
  rw [CJson.cJsonParse, hfault] at htree
  cases htree

/-- A table with one command. -/
def oneCommand (key : Int) : Option Command :=
  if key = 1 then some ⟨ascii "%s", 1, true, false, true⟩ else none

/-- A request whose second command is not in the table. -/
def halfKnown : Payload where
  bytes := ascii "\x7b\"values\":[\x7b\"c\":\"1\",\"p\":\"x\"\x7d," ++
    ascii "\x7b\"c\":\"2\",\"p\":\"y\"\x7d]," ++
    ascii "\"keys\":[[\"c\",\"p\"],[\"c\",\"p\"]]\x7d"
  bounded := by decide

theorem takeWhile_halfKnown : halfKnown.bytes.takeWhile (· ≠ 0) = halfKnown.bytes := by decide

theorem commands_halfKnown : (cJsonDecoder oneCommand).commands halfKnown = [] := by
  rw [Decoder.commands, takeWhile_halfKnown]
  decide +kernel

theorem parses_halfKnown : Parses halfKnown.message := by
  refine parses_message ?_
  rw [takeWhile_halfKnown]
  decide +kernel

theorem leaked_halfKnown : leaked oneCommand halfKnown.message = 1 := by
  rw [leaked_message, takeWhile_halfKnown]
  decide +kernel

/-- The first command of the request stays allocated. -/
theorem analysisMessage_leaves_halfKnown :
    ∃ m₁ left, analysisMessage oneCommand halfKnown.message.buf halfKnown.message.nbytes.toNat
        Mem.empty = some (none, m₁) ∧
      m₁.live.Perm (left ++ Mem.empty.live) ∧ left.length = 1 := by
  have hcmds : WowProxy.analysisMessage (cJsonDecoder oneCommand) halfKnown.message.buf
      halfKnown.message.nbytes.toNat = some [] := by
    rw [← commands_halfKnown]
    exact analysisMessage_frame (cJsonDecoder oneCommand) halfKnown
  obtain ⟨batch, m₁, hrun, hrejected, hnone, -⟩ :=
    analysisMessage_leaves parses_halfKnown hcmds Mem.empty
  obtain rfl := hrejected.mpr rfl
  obtain ⟨left, hlive, hleft⟩ := hnone rfl
  exact ⟨m₁, left, hrun, hlive, hleft.trans leaked_halfKnown⟩

/-- The memory of a read job that starts. -/
def startMem : Mem := ⟨[0], 1, by decide, by decide⟩

/-- A request with the first command alone. -/
def known : Payload where
  bytes := ascii "\x7b\"values\":[\x7b\"c\":\"1\",\"p\":\"x\"\x7d]," ++
    ascii "\"keys\":[[\"c\",\"p\"]]\x7d"
  bounded := by decide

theorem takeWhile_known : known.bytes.takeWhile (· ≠ 0) = known.bytes := by decide

theorem commands_known :
    (cJsonDecoder oneCommand).commands known = [⟨ascii "x", true, true⟩] := by
  rw [Decoder.commands, takeWhile_known]
  decide +kernel

theorem parses_known : Parses known.message := by
  refine parses_message ?_
  rw [takeWhile_known]
  decide +kernel

theorem leaked_known : leaked oneCommand known.message = 0 := by
  rw [leaked_message, takeWhile_known]
  decide +kernel

/-- An answer whose document has a root and nothing in it. -/
def emptyAnswer : Exchange :=
  .answer 26 (ascii "HTTP/1.1 200 OK\r\n\r\n<a></a>" ++ [0])

theorem stays_emptyAnswer : AnswerMem.Stays true emptyAnswer := by
  refine ⟨some (true, []), by decide +kernel, ?_⟩
  intro isOpOk msg h
  obtain ⟨rfl, rfl⟩ := Prod.mk.inj (Option.some.inj h)
  obtain ⟨frame, hframe⟩ := (replyFrame_eq_some_iff true []).mpr (by decide)
  rw [hframe]
  simp

theorem leftBlocks_emptyAnswer : AnswerMem.leftBlocks true emptyAnswer = 4 := by decide +kernel

end WowProxy.RequestMem
