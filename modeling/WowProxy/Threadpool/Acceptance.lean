/-
  Threadpool/Acceptance.lean --- which trees `analysis_message` accepts, and what it
  hands out.

  The criterion is stated over a lookup of members, once for keys that are strings
  and once for what `cJSON_GetObjectItem` does.  The two differ on a key that is not
  a string: its `valuestring` is `NULL`, and cJSON takes two `NULL` names for equal,
  so that such a key finds the first entry of an array.
-/
import WowProxy.Threadpool.Render

set_option autoImplicit false

namespace WowProxy

open WowProxy.Lib.CString

/-! ## The out-parameters -/

/-- `*cmds`, `*resp` and `*is2Pipe`. -/
structure Outputs where
  cmds : Option (List (List UInt8))
  resp : Option (List Bool)
  is2Pipe : Option (List Bool)
  deriving DecidableEq, Repr

/-- The arrays `values`, `rs` and `fs` of accepted commands. -/
def Outputs.ofCommands (cs : List ParsedCommand) : Outputs :=
  { cmds := some (cs.map ParsedCommand.cmd), resp := some (cs.map ParsedCommand.needRsp),
    is2Pipe := some (cs.map ParsedCommand.is2Pipe) }

/-- `analysis_message` behind `cJSON_Parse`. -/
def analysisTree (d : Decoder) (root : CJson) (out : Outputs) : Nat × Outputs :=
  match root.getObjectItem (some (ascii "values")), root.getObjectItem (some (ascii "keys")) with
  | some cmdsArray, some keysArray =>
    let cmdSize := cmdsArray.getArraySize
    let keySize := keysArray.getArraySize
    if keySize = 0 ∨ cmdSize = 0 then (0, out)
    else
      let keySize := if keySize > cmdSize then cmdSize else keySize
      match parseObjects d cmdsArray keysArray 0 keySize with
      | .error _ => (0, out)
      | .ok cs => (keySize, Outputs.ofCommands cs)
  | _, _ => (0, out)

/-- `analysis_message` from `cJSON_Parse` on. -/
def analysisText (d : Decoder) (podata : List UInt8) (out : Outputs) : Nat × Outputs :=
  match d.cJsonParse podata with
  | none => (0, out)
  | some root => analysisTree d root out

/-- `analysis_message(original_msg, nbytes, cmds, resp, is2Pipe)`. -/
def analysisMessageOut (d : Decoder) (originalMsg : Option (List UInt8)) (nbytes : Nat)
    (out : Outputs) : Option (Nat × Outputs) :=
  match originalMsg with
  | none => some (0, out)
  | some msg =>
    if nbytes = 0 then some (0, out)
    else
      let len := sizeT ((nbytes : Int) - headSize)
      match reverseCrcData (some (msg.drop headSize)) (toInt32 len) (calloc len) with
      | none => none
      | some (ret, data) =>
        if ret ≠ 0 then some (0, out)
        else (cstr (padded data len)).map fun podata => analysisText d podata out

theorem parseObjects_length {d : Decoder} {cmdsArray keysArray : CJson} {i n : Nat}
    {cs : List ParsedCommand} (h : parseObjects d cmdsArray keysArray i n = .ok cs) :
    cs.length = n := by
  induction n generalizing i cs with
  | zero =>
    cases h
    rfl
  | succ n ih =>
    simp only [parseObjects] at h
    split at h
    · cases h
    · split at h
      · cases h
      · rename_i rest hrest
        cases h
        rw [List.length_cons, ih hrest]

theorem smaller_eq_min (keySize cmdSize : Nat) :
    (if keySize > cmdSize then cmdSize else keySize) = min keySize cmdSize := by
  split <;> omega

/-- What a list of commands makes of the out-parameters. -/
def handOut (out : Outputs) (cs : List ParsedCommand) : Nat × Outputs :=
  if cs = [] then (0, out) else (cs.length, Outputs.ofCommands cs)

theorem analysisText_eq (d : Decoder) (podata : List UInt8) (out : Outputs) :
    analysisText d podata out = handOut out (analysisJson d podata) := by
  unfold analysisText analysisJson
  cases d.cJsonParse podata with
  | none => rfl
  | some root =>
    simp only [analysisTree]
    cases root.getObjectItem (some (ascii "values")) with
    | none => rfl
    | some cmdsArray =>
      cases root.getObjectItem (some (ascii "keys")) with
      | none => rfl
      | some keysArray =>
        simp only [smaller_eq_min]
        split
        · rename_i hzero
          have hnone : min keysArray.getArraySize cmdsArray.getArraySize = 0 := by omega
          rw [hnone]
          rfl
        · rename_i hpos
          cases hparse : parseObjects d cmdsArray keysArray 0
              (min keysArray.getArraySize cmdsArray.getArraySize) with
          | error e => rfl
          | ok cs =>
            have hlen := parseObjects_length hparse
            have hne : cs ≠ [] := by
              rintro rfl
              rw [List.length_nil] at hlen
              omega
            rw [handOut, if_neg hne, hlen]

/-- The out-parameters carry the commands of `analysisMessage`. -/
theorem analysisMessageOut_eq (d : Decoder) (originalMsg : Option (List UInt8)) (nbytes : Nat)
    (out : Outputs) :
    analysisMessageOut d originalMsg nbytes out =
      (analysisMessage d originalMsg nbytes).map (handOut out) := by
  cases originalMsg with
  | none => rfl
  | some msg =>
    simp only [analysisMessageOut, analysisMessage, analysisText_eq]
    by_cases hn : nbytes = 0
    · rw [if_pos hn, if_pos hn]
      rfl
    · rw [if_neg hn, if_neg hn]
      cases reverseCrcData (some (msg.drop headSize))
          (toInt32 (sizeT ((nbytes : Int) - headSize)))
          (calloc (sizeT ((nbytes : Int) - headSize))) with
      | none => rfl
      | some result =>
        by_cases hret : result.1 ≠ 0
        · simp only [if_pos hret]
          rfl
        · simp only [if_neg hret, Option.map_map]
          rfl

/-! ## The criterion -/

/-- The member of a command that an entry of its keys stands for. -/
abbrev MemberLookup : Type := CJson → CJson → Option CJson

/-- A string names the first member of that name; anything else names nothing. -/
def namedMember : MemberLookup := fun cmd entry =>
  entry.valuestring.bind fun key => cmd.getObjectItem (some key)

/-- What `vaild_item` finds for any entry. -/
def foundMember : MemberLookup := fun cmd entry => cmd.getObjectItem entry.valuestring

/-- A command and its keys are in order, for this row of the table. -/
structure Acceptable (find : MemberLookup) (d : Decoder) (cmd keys : CJson)
    (row : Command) : Prop where
  /-- two to five entries -/
  size : 2 ≤ keys.getArraySize ∧ keys.getArraySize ≤ 5
  /-- each entry stands for a member whose value is a string -/
  entries : ∀ entry ∈ keys.child, ∃ member value,
    find cmd entry = some member ∧ member.valuestring = some value
  /-- the first for the number of the command -/
  number : ∃ entry member op, keys.getArrayItem 0 = some entry ∧
    find cmd entry = some member ∧ member.valuestring = some op ∧
    d.valueForKey (atoi op) = some row
  notDeprecated : row.deprecated = false
  paramNum : row.paramNum = (keys.getArraySize : Int) - 1

/-- A tree holds a batch of `n` commands that are all in order. -/
def AcceptableBatch (find : MemberLookup) (d : Decoder) (root : CJson) (n : Nat) : Prop :=
  ∃ values keys, root.getObjectItem (some (ascii "values")) = some values ∧
    root.getObjectItem (some (ascii "keys")) = some keys ∧
    0 < values.getArraySize ∧ 0 < keys.getArraySize ∧
    n = min keys.getArraySize values.getArraySize ∧
    ∀ i < n, ∃ cmd key row, values.getArrayItem i = some cmd ∧
      keys.getArrayItem i = some key ∧ Acceptable find d cmd key row

/-- The first `n` entries of `keys` have only strings for entries. -/
def StringKeys (root : CJson) (n : Nat) : Prop :=
  ∀ keys, root.getObjectItem (some (ascii "keys")) = some keys →
    ∀ i < n, ∀ key, keys.getArrayItem i = some key →
      ∀ entry ∈ key.child, entry.valuestring ≠ none

theorem foundMember_of_named {cmd entry member : CJson}
    (h : namedMember cmd entry = some member) :
    foundMember cmd entry = some member ∧ entry.valuestring ≠ none := by
  obtain ⟨key, hkey, hfind⟩ := Option.bind_eq_some_iff.mp h
  refine ⟨?_, ?_⟩
  · rw [foundMember, hkey]
    exact hfind
  · rw [hkey]
    exact Option.some_ne_none key

theorem namedMember_of_string {cmd entry : CJson} (h : entry.valuestring ≠ none) :
    namedMember cmd entry = foundMember cmd entry := by
  obtain ⟨key, hkey⟩ := Option.ne_none_iff_exists'.mp h
  rw [namedMember, foundMember, hkey, Option.bind_some]

/-- Keys that are strings are the whole difference between the two lookups. -/
theorem acceptable_named_iff {d : Decoder} {cmd keys : CJson} {row : Command} :
    Acceptable namedMember d cmd keys row ↔
      Acceptable foundMember d cmd keys row ∧
        ∀ entry ∈ keys.child, entry.valuestring ≠ none := by
  constructor
  · intro h
    refine ⟨{ size := h.size, entries := fun entry hmem => ?_, number := ?_,
              notDeprecated := h.notDeprecated, paramNum := h.paramNum }, fun entry hmem => ?_⟩
    · obtain ⟨member, value, hmember, hvalue⟩ := h.entries entry hmem
      exact ⟨member, value, (foundMember_of_named hmember).1, hvalue⟩
    · obtain ⟨entry, member, op, hentry, hmember, hop, hrow⟩ := h.number
      exact ⟨entry, member, op, hentry, (foundMember_of_named hmember).1, hop, hrow⟩
    · obtain ⟨member, value, hmember, -⟩ := h.entries entry hmem
      exact (foundMember_of_named hmember).2
  · rintro ⟨h, hstring⟩
    refine { size := h.size, entries := fun entry hmem => ?_, number := ?_,
             notDeprecated := h.notDeprecated, paramNum := h.paramNum }
    · rw [namedMember_of_string (hstring entry hmem)]
      exact h.entries entry hmem
    · obtain ⟨entry, member, op, hentry, hmember, hop, hrow⟩ := h.number
      refine ⟨entry, member, op, hentry, ?_, hop, hrow⟩
      rw [namedMember_of_string (hstring entry (List.mem_of_getElem? hentry))]
      exact hmember

theorem acceptableBatch_named_iff {d : Decoder} {root : CJson} {n : Nat} :
    AcceptableBatch namedMember d root n ↔
      AcceptableBatch foundMember d root n ∧ StringKeys root n := by
  constructor
  · rintro ⟨values, keys, hvalues, hkeys, hvpos, hkpos, hn, hall⟩
    refine ⟨⟨values, keys, hvalues, hkeys, hvpos, hkpos, hn, fun i hi => ?_⟩, ?_⟩
    · obtain ⟨cmd, key, row, hcmd, hkey, hok⟩ := hall i hi
      exact ⟨cmd, key, row, hcmd, hkey, (acceptable_named_iff.mp hok).1⟩
    · intro keys' hkeys' i hi key' hkey'
      obtain rfl : keys = keys' := Option.some.inj (hkeys.symm.trans hkeys')
      obtain ⟨cmd, key, row, hcmd, hkey, hok⟩ := hall i hi
      obtain rfl : key = key' := Option.some.inj (hkey.symm.trans hkey')
      exact (acceptable_named_iff.mp hok).2
  · rintro ⟨⟨values, keys, hvalues, hkeys, hvpos, hkpos, hn, hall⟩, hstring⟩
    refine ⟨values, keys, hvalues, hkeys, hvpos, hkpos, hn, fun i hi => ?_⟩
    obtain ⟨cmd, key, row, hcmd, hkey, hok⟩ := hall i hi
    exact ⟨cmd, key, row, hcmd, hkey,
      acceptable_named_iff.mpr ⟨hok, hstring keys hkeys i hi key hkey⟩⟩

theorem AcceptableBatch.unique {find find' : MemberLookup} {d : Decoder} {root : CJson}
    {n n' : Nat} (h : AcceptableBatch find d root n) (h' : AcceptableBatch find' d root n') :
    n = n' := by
  obtain ⟨values, keys, hvalues, hkeys, -, -, hn, -⟩ := h
  obtain ⟨values', keys', hvalues', hkeys', -, -, hn', -⟩ := h'
  obtain rfl : values = values' := Option.some.inj (hvalues.symm.trans hvalues')
  obtain rfl : keys = keys' := Option.some.inj (hkeys.symm.trans hkeys')
  rw [hn, hn']

theorem AcceptableBatch.pos {find : MemberLookup} {d : Decoder} {root : CJson} {n : Nat}
    (h : AcceptableBatch find d root n) : 0 < n := by
  obtain ⟨values, keys, -, -, hvpos, hkpos, hn, -⟩ := h
  omega

/-- Where every member of every command has a name, only strings find one. -/
theorem stringKeys_of_objects {d : Decoder} {root : CJson} {n : Nat}
    (h : AcceptableBatch foundMember d root n)
    (hobjects : ∀ values, root.getObjectItem (some (ascii "values")) = some values →
      ∀ cmd ∈ values.child, ∀ member ∈ cmd.child, member.string ≠ none) :
    StringKeys root n := by
  obtain ⟨values, keys, hvalues, hkeys, -, -, -, hall⟩ := h
  intro keys' hkeys' i hi key' hkey' entry hentry hnull
  obtain rfl : keys = keys' := Option.some.inj (hkeys.symm.trans hkeys')
  obtain ⟨cmd, key, row, hcmd, hkey, hok⟩ := hall i hi
  obtain rfl : key = key' := Option.some.inj (hkey.symm.trans hkey')
  obtain ⟨member, -, hmember, -⟩ := hok.entries entry hentry
  rw [foundMember, hnull] at hmember
  have hmem : member ∈ cmd.child := List.mem_of_find?_eq_some hmember
  have hname : member.string ≠ none :=
    hobjects values hvalues cmd (List.mem_of_getElem? hcmd) member hmem
  have heq := List.find?_some hmember
  cases hstring : member.string with
  | none => exact hname hstring
  | some name =>
    rw [hstring] at heq
    exact absurd heq Bool.false_ne_true

/-! ## What the code accepts -/

theorem Parses.acceptable {d : Decoder} {cmd keys : CJson} {op : List UInt8} {row : Command}
    {parms : List (List UInt8)} (h : Parses d cmd keys op row parms) :
    Acceptable foundMember d cmd keys row := by
  have hsize := h.size
  refine { size := h.size, entries := fun entry hmem => ?_, number := ?_,
           notDeprecated := h.notDeprecated, paramNum := h.paramNum }
  · obtain ⟨k, hk⟩ := List.getElem?_of_mem hmem
    have hlt := (List.getElem?_eq_some_iff.mp hk).1
    have hvalue : ∃ value, NamedValue cmd keys k value := by
      cases k with
      | zero => exact ⟨op, h.opNamed⟩
      | succ k =>
        have hlen : k < parms.length := by
          rw [h.length]
          simp only [CJson.getArraySize]
          omega
        exact ⟨parms[k], h.parm k parms[k] (List.getElem?_eq_getElem hlen)⟩
    obtain ⟨value, entry', member, hentry, hmember, hvalue⟩ := hvalue
    obtain rfl : entry' = entry := Option.some.inj (hentry.symm.trans hk)
    exact ⟨member, value, hmember, hvalue⟩
  · obtain ⟨entry, member, hentry, hmember, hop⟩ := h.opNamed
    exact ⟨entry, member, op, hentry, hmember, hop, h.rowFound⟩

theorem Acceptable.parses {d : Decoder} {cmd keys : CJson} {row : Command}
    (h : Acceptable foundMember d cmd keys row) :
    ∃ op parms, Parses d cmd keys op row parms := by
  obtain ⟨entry, member, op, hentry, hmember, hop, hrow⟩ := h.number
  have hsize := h.size
  let valueOf (entry : CJson) : List UInt8 :=
    ((foundMember cmd entry).bind CJson.valuestring).getD []
  refine ⟨op, keys.child.tail.map valueOf,
    { size := h.size, opNamed := ⟨entry, member, hentry, hmember, hop⟩, rowFound := hrow,
      paramNum := h.paramNum, notDeprecated := h.notDeprecated,
      length := by rw [List.length_map, List.length_tail]; rfl, parm := ?_ }⟩
  intro k parm hk
  rw [List.getElem?_map, List.getElem?_tail] at hk
  obtain ⟨entry, hentry, rfl⟩ := Option.map_eq_some_iff.mp hk
  obtain ⟨member, value, hmember, hvalue⟩ := h.entries entry (List.mem_of_getElem? hentry)
  refine ⟨entry, member, hentry, hmember, ?_⟩
  simp only [valueOf, hmember, Option.bind_some, hvalue, Option.getD_some]

/-- `parse_object` accepts what is in order. -/
theorem parseObject_accepts {d : Decoder} {cmd keys : CJson} :
    (∃ c, parseObject d (some cmd) (some keys) = .ok c) ↔
      ∃ row, Acceptable foundMember d cmd keys row := by
  constructor
  · rintro ⟨c, hc⟩
    obtain ⟨op, row, parms, hparses, -⟩ := parseObject_eq_ok.mp hc
    exact ⟨row, hparses.acceptable⟩
  · rintro ⟨row, hok⟩
    obtain ⟨op, parms, hparses⟩ := hok.parses
    exact ⟨row.render parms, parseObject_eq_ok.mpr ⟨op, row, parms, hparses, rfl⟩⟩

/-- The loop accepts when every entry is accepted, and keeps them in order. -/
theorem parseObjects_eq_ok {d : Decoder} {values keys : CJson} {i n : Nat}
    {cs : List ParsedCommand} :
    parseObjects d values keys i n = .ok cs ↔
      cs.length = n ∧ ∀ k c, cs[k]? = some c →
        parseObject d (values.getArrayItem (i + k)) (keys.getArrayItem (i + k)) = .ok c := by
  induction n generalizing i cs with
  | zero =>
    simp only [parseObjects, Except.ok.injEq, List.length_eq_zero_iff]
    constructor
    · rintro rfl
      exact ⟨rfl, fun k c hk => by simp at hk⟩
    · rintro ⟨rfl, -⟩
      rfl
  | succ n ih =>
    simp only [parseObjects]
    constructor
    · intro h
      split at h
      · cases h
      · rename_i c hc
        split at h
        · cases h
        · rename_i rest hrest
          cases h
          obtain ⟨hlen, hall⟩ := ih.mp hrest
          refine ⟨by rw [List.length_cons, hlen], fun k c' hk => ?_⟩
          cases k with
          | zero =>
            obtain rfl : c = c' := by simpa using hk
            exact hc
          | succ k =>
            rw [List.getElem?_cons_succ] at hk
            have hshift : i + (k + 1) = i + 1 + k := by omega
            rw [hshift]
            exact hall k c' hk
    · rintro ⟨hlen, hall⟩
      cases cs with
      | nil => simp at hlen
      | cons c rest =>
        have hc := hall 0 c rfl
        have hrest : parseObjects d values keys (i + 1) n = .ok rest :=
          ih.mpr ⟨by simpa using hlen, fun k c' hk => by
            have hshift : i + (k + 1) = i + 1 + k := by omega
            rw [← hshift]
            exact hall (k + 1) c' (by rw [List.getElem?_cons_succ]; exact hk)⟩
        rw [Nat.add_zero] at hc
        simp only [hc, hrest]

/-- Entry `i` of the out-parameters. -/
def Outputs.At (out : Outputs) (i : Nat) (c : ParsedCommand) : Prop :=
  out.cmds.bind (·[i]?) = some c.cmd ∧ out.resp.bind (·[i]?) = some c.needRsp ∧
    out.is2Pipe.bind (·[i]?) = some c.is2Pipe

/-- Entry `i` of the out-parameters is command `i` of the tree, for each `i < n`. -/
def HandsOut (d : Decoder) (root : CJson) (n : Nat) (out : Outputs) : Prop :=
  ∀ values keys, root.getObjectItem (some (ascii "values")) = some values →
    root.getObjectItem (some (ascii "keys")) = some keys →
    ∀ i < n, ∃ cmd key op row parms, values.getArrayItem i = some cmd ∧
      keys.getArrayItem i = some key ∧ Parses d cmd key op row parms ∧
      out.At i (row.render parms)

theorem Outputs.ofCommands_at {cs : List ParsedCommand} {i : Nat} {c : ParsedCommand}
    (h : cs[i]? = some c) : (Outputs.ofCommands cs).At i c := by
  refine ⟨?_, ?_, ?_⟩ <;>
    simp only [Outputs.ofCommands, Option.bind_some, List.getElem?_map, h, Option.map_some]

/-- The loop accepts exactly the batches whose commands are all in order. -/
theorem parseObjects_accepts {d : Decoder} {values keys : CJson} {n : Nat}
    (hn : n = min keys.getArraySize values.getArraySize) :
    (∃ cs, parseObjects d values keys 0 n = .ok cs) ↔
      ∀ i < n, ∃ cmd key row, values.getArrayItem i = some cmd ∧
        keys.getArrayItem i = some key ∧ Acceptable foundMember d cmd key row := by
  constructor
  · rintro ⟨cs, hcs⟩ i hi
    obtain ⟨hlen, hall⟩ := parseObjects_eq_ok.mp hcs
    obtain ⟨cmd, hcmd⟩ : ∃ cmd, values.getArrayItem i = some cmd :=
      ⟨_, List.getElem?_eq_getElem (show i < values.getArraySize by omega)⟩
    obtain ⟨key, hkey⟩ : ∃ key, keys.getArrayItem i = some key :=
      ⟨_, List.getElem?_eq_getElem (show i < keys.getArraySize by omega)⟩
    have hparse := hall i cs[i] (List.getElem?_eq_getElem (by omega))
    rw [Nat.zero_add, hcmd, hkey] at hparse
    obtain ⟨row, hrow⟩ := parseObject_accepts.mp ⟨_, hparse⟩
    exact ⟨cmd, key, row, hcmd, hkey, hrow⟩
  · intro hall
    have hone : ∀ i < n, ∃ c,
        parseObject d (values.getArrayItem i) (keys.getArrayItem i) = .ok c := by
      intro i hi
      obtain ⟨cmd, key, row, hcmd, hkey, hok⟩ := hall i hi
      rw [hcmd, hkey]
      exact parseObject_accepts.mpr ⟨row, hok⟩
    choose c hc using hone
    refine ⟨List.ofFn fun i : Fin n => c i i.isLt, parseObjects_eq_ok.mpr ⟨by simp, ?_⟩⟩
    intro k c' hk
    obtain ⟨hlt, rfl⟩ := List.getElem?_eq_some_iff.mp hk
    rw [List.length_ofFn] at hlt
    rw [Nat.zero_add, List.getElem_ofFn]
    exact hc k hlt

/-- What `analysis_message` does with a tree: it hands out an acceptable batch, and
touches nothing otherwise. -/
theorem analysisTree_cases (d : Decoder) (root : CJson) (out : Outputs) :
    (∃ n out', analysisTree d root out = (n, out') ∧ AcceptableBatch foundMember d root n ∧
      HandsOut d root n out') ∨
    (analysisTree d root out = (0, out) ∧ ∀ n, ¬ AcceptableBatch foundMember d root n) := by
  unfold analysisTree
  cases hvalues : root.getObjectItem (some (ascii "values")) with
  | none =>
    refine .inr ⟨rfl, fun n hbatch => ?_⟩
    obtain ⟨values, keys, hvalues', -⟩ := hbatch
    exact absurd (hvalues.symm.trans hvalues') (by simp)
  | some values =>
    cases hkeys : root.getObjectItem (some (ascii "keys")) with
    | none =>
      refine .inr ⟨rfl, fun n hbatch => ?_⟩
      obtain ⟨values, keys, -, hkeys', -⟩ := hbatch
      exact absurd (hkeys.symm.trans hkeys') (by simp)
    | some keys =>
      have hroot : ∀ {n}, AcceptableBatch foundMember d root n →
          0 < values.getArraySize ∧ 0 < keys.getArraySize ∧
            n = min keys.getArraySize values.getArraySize ∧
            ∃ cs, parseObjects d values keys 0 n = .ok cs := by
        rintro n ⟨values', keys', hvalues', hkeys', hvpos, hkpos, hn, hall⟩
        obtain rfl : values = values' := Option.some.inj (hvalues.symm.trans hvalues')
        obtain rfl : keys = keys' := Option.some.inj (hkeys.symm.trans hkeys')
        exact ⟨hvpos, hkpos, hn, (parseObjects_accepts hn).mpr hall⟩
      simp only [smaller_eq_min]
      by_cases hzero : keys.getArraySize = 0 ∨ values.getArraySize = 0
      · rw [if_pos hzero]
        refine .inr ⟨rfl, fun n hbatch => ?_⟩
        obtain ⟨hvpos, hkpos, -⟩ := hroot hbatch
        omega
      · rw [if_neg hzero]
        cases hparse : parseObjects d values keys 0
            (min keys.getArraySize values.getArraySize) with
        | error e =>
          refine .inr ⟨rfl, fun n hbatch => ?_⟩
          obtain ⟨-, -, rfl, cs, hcs⟩ := hroot hbatch
          exact absurd (hparse.symm.trans hcs) (by simp)
        | ok cs =>
          have hall := (parseObjects_accepts rfl).mp ⟨cs, hparse⟩
          refine .inl ⟨_, _, rfl, ⟨values, keys, hvalues, hkeys, by omega, by omega, rfl, hall⟩,
            ?_⟩
          intro values' keys' hvalues' hkeys' i hi
          obtain rfl : values = values' := Option.some.inj (hvalues.symm.trans hvalues')
          obtain rfl : keys = keys' := Option.some.inj (hkeys.symm.trans hkeys')
          obtain ⟨cmd, key, -, hcmd, hkey, -⟩ := hall i hi
          obtain ⟨hlen, hcs⟩ := parseObjects_eq_ok.mp hparse
          have hat : cs[i]? = some cs[i] := List.getElem?_eq_getElem (by omega)
          have hone := hcs i cs[i] hat
          rw [Nat.zero_add, hcmd, hkey] at hone
          obtain ⟨op, row, parms, hparses, hc⟩ := parseObject_eq_ok.mp hone
          exact ⟨cmd, key, op, row, parms, hcmd, hkey, hparses,
            hc ▸ Outputs.ofCommands_at hat⟩

/-! ## Acceptance -/

/-- `analysis_message` returned `n` and left `out'` in its out-parameters, as the
criterion for keys that are strings asks. -/
structure AcceptsNamed (d : Decoder) (root : CJson) (out : Outputs) (n : Nat)
    (out' : Outputs) : Prop where
  accepted : ∀ m, 0 < m → (n = m ↔ AcceptableBatch namedMember d root m)
  handsOut : ∀ m, AcceptableBatch namedMember d root m → HandsOut d root m out'
  untouched : (∀ m, ¬ AcceptableBatch namedMember d root m) → n = 0 ∧ out' = out

theorem acceptsNamed_tree_iff (d : Decoder) (root : CJson) (out : Outputs) :
    AcceptsNamed d root out (analysisTree d root out).1 (analysisTree d root out).2 ↔
      ¬ ∃ n, AcceptableBatch foundMember d root n ∧ ¬ StringKeys root n := by
  rcases analysisTree_cases d root out with ⟨n, out', heq, hbatch, hout⟩ | ⟨heq, hnone⟩
  · rw [heq]
    constructor
    · rintro h ⟨m, hm, hstring⟩
      obtain rfl : n = m := hbatch.unique hm
      have hnamed := (h.accepted n hbatch.pos).mp rfl
      exact hstring (acceptableBatch_named_iff.mp hnamed).2
    · intro h
      have hstring : StringKeys root n := by
        by_contra hstring
        exact h ⟨n, hbatch, hstring⟩
      have hnamed := acceptableBatch_named_iff.mpr ⟨hbatch, hstring⟩
      refine { accepted := fun m _ => ⟨?_, fun hm => hnamed.unique hm⟩,
               handsOut := fun m hm => ?_, untouched := fun hno => absurd hnamed (hno n) }
      · rintro rfl
        exact hnamed
      · exact hnamed.unique hm ▸ hout
  · rw [heq]
    have hno : ∀ m, ¬ AcceptableBatch namedMember d root m := fun m hm =>
      hnone m (acceptableBatch_named_iff.mp hm).1
    constructor
    · rintro - ⟨m, hm, -⟩
      exact hnone m hm
    · intro _
      exact { accepted := fun m hpos => ⟨fun h => by omega, fun hm => absurd hm (hno m)⟩,
              handsOut := fun m hm => absurd hm (hno m),
              untouched := fun _ => ⟨rfl, rfl⟩ }

theorem analysisMessageOut_frame (d : Decoder) (p : Payload) (out : Outputs) :
    analysisMessageOut d (some p.frame) p.frame.length out =
      some (analysisText d (p.bytes.takeWhile (· ≠ 0)) out) := by
  rw [analysisMessageOut_eq, analysisMessage_frame, Option.map_some, Decoder.commands,
    analysisText_eq]

/-- **A frame is accepted as the criterion for string keys asks exactly when it is not
one whose every entry finds a string, in commands that are otherwise in order, while
some entry is not a string itself.** -/
theorem analysisMessage_accepts_iff (d : Decoder) (p : Payload) (root : CJson) (out : Outputs)
    (hroot : d.cJsonParse (p.bytes.takeWhile (· ≠ 0)) = some root) :
    (∃ n out', analysisMessageOut d (some p.frame) p.frame.length out = some (n, out') ∧
      AcceptsNamed d root out n out') ↔
      ¬ ∃ n, AcceptableBatch foundMember d root n ∧ ¬ StringKeys root n := by
  have htree : analysisText d (p.bytes.takeWhile (· ≠ 0)) out = analysisTree d root out := by
    rw [analysisText, hroot]
  rw [analysisMessageOut_frame, htree, ← acceptsNamed_tree_iff d root out]
  constructor
  · rintro ⟨n, out', heq, h⟩
    obtain ⟨rfl, rfl⟩ := Prod.mk.inj (Option.some.inj heq)
    exact h
  · intro h
    exact ⟨_, _, rfl, h⟩

/-! ## Two messages -/

/-- A parser that knows the text of one payload, over the table of the announcement. -/
def knowing (p : Payload) (root : CJson) : Decoder :=
  { cJsonParse := fun text => if text = p.bytes then some root else none,
    valueForKey := announceDecoder.valueForKey }

theorem knowing_parses {p : Payload} {root : CJson}
    (h : p.bytes.takeWhile (· ≠ 0) = p.bytes) :
    (knowing p root).cJsonParse (p.bytes.takeWhile (· ≠ 0)) = some root := by
  rw [h]
  exact if_pos rfl

/-- The arrays of `read_sock_func` before its first message. -/
def noOutputs : Outputs := { cmds := none, resp := none, is2Pipe := none }

/-- The tree of `{"values":[{"op":"1","text":"hi"}],"keys":[["op","text"]]}`. -/
def announceRoot : CJson :=
  .item none none
    [.item none (some (ascii "values")) [announceCmds (ascii "hi")],
     .item none (some (ascii "keys")) [announceKeys]]

def announcePayload : Payload :=
  { bytes := ascii
      "\x7b\"values\":[\x7b\"op\":\"1\",\"text\":\"hi\"\x7d],\"keys\":[[\"op\",\"text\"]]\x7d",
    bounded := by decide }

/-- The tree of `{"values":[["1"]],"keys":[[0,0]]}`. -/
def numberedRoot : CJson :=
  .item none none
    [.item none (some (ascii "values"))
      [.item none none [.item (some (ascii "1")) none []]],
     .item none (some (ascii "keys"))
      [.item none none [.item none none [], .item none none []]]]

def numberedPayload : Payload :=
  { bytes := ascii "\x7b\"values\":[[\"1\"]],\"keys\":[[0,0]]\x7d", bounded := by decide }

/-- An array in place of an object, under keys that are numbers, is announced. -/
theorem analysisMessage_accepts_numbers : ¬ ∀ (d : Decoder) (p : Payload) (root : CJson)
    (out : Outputs), d.cJsonParse (p.bytes.takeWhile (· ≠ 0)) = some root →
    ∃ n out', analysisMessageOut d (some p.frame) p.frame.length out = some (n, out') ∧
      AcceptsNamed d root out n out' := by
  intro halways
  obtain ⟨n, out', heq, h⟩ := halways (knowing numberedPayload numberedRoot) numberedPayload
    numberedRoot noOutputs (knowing_parses (by decide))
  have hone : n = 1 := by
    rw [analysisMessageOut_frame, Option.some.injEq] at heq
    exact (congrArg Prod.fst heq).symm.trans (by decide)
  have hbatch := (h.accepted n (by omega)).mp rfl
  have hstring := (acceptableBatch_named_iff.mp hbatch).2
  exact hstring _ rfl 0 (by omega) _ rfl _ List.mem_cons_self rfl

/-- The announcement is accepted. -/
theorem announcement_accepted : ∃ n out',
    analysisMessageOut (knowing announcePayload announceRoot) (some announcePayload.frame)
      announcePayload.frame.length noOutputs = some (n, out') ∧
    AcceptsNamed (knowing announcePayload announceRoot) announceRoot noOutputs n out' := by
  refine (analysisMessage_accepts_iff (knowing announcePayload announceRoot) announcePayload
    announceRoot noOutputs (knowing_parses (by decide))).mpr ?_
  rintro ⟨n, hbatch, hstring⟩
  refine hstring (stringKeys_of_objects hbatch fun values hvalues => ?_)
  obtain rfl : CJson.item none (some (ascii "values")) [announceCmds (ascii "hi")] = values :=
    Option.some.inj hvalues
  intro cmd hcmd member hmember
  obtain rfl : cmd = announceCmds (ascii "hi") := List.mem_singleton.mp hcmd
  rcases List.mem_pair.mp hmember with rfl | rfl
  · exact Option.some_ne_none _
  · exact Option.some_ne_none _

end WowProxy
