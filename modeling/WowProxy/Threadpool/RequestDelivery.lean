/-
  Threadpool/RequestDelivery.lean --- what the proxy makes of the requests of the Python
  client.

  The parser is that of `cJSON.c`, and the table is any whose templates ask for nothing but
  strings, and for no more than there are.  `Client.intended` says what a command is meant to
  be without the JSON text, the tree, the lookups by name and `snprintf`.
-/
import Mathlib.Data.List.Nodup
import WowProxy.Common.CJsonAccepts
import WowProxy.Common.ClientRequest
import WowProxy.Threadpool.ReadSock
import WowProxy.Threadpool.Render

set_option autoImplicit false

namespace WowProxy

open WowProxy.Lib WowProxy.Lib.JsonText

/-! ## The tree that `cJSON_Parse` returns -/

namespace CJson

mutual

/-- The node of a value, with its name as a member. -/
def node (string : Option (List UInt8)) : Json Decimal → CJson
  | .null => .item none string []
  | .bool _ => .item none string []
  | .number _ => .item none string []
  | .string valuestring => .item (some valuestring) string []
  | .array items => .item none string (itemNodes items)
  | .object members => .item none string (memberNodes members)

/-- The chain of the elements of an array. -/
def itemNodes : List (Json Decimal) → List CJson
  | [] => []
  | v :: items => node none v :: itemNodes items

/-- The chain of the members of an object. -/
def memberNodes : List (List UInt8 × Json Decimal) → List CJson
  | [] => []
  | (string, v) :: members => node (some string) v :: memberNodes members

end

theorem itemNodes_eq (items : List (Json Decimal)) : itemNodes items = items.map (node none) := by
  induction items with
  | nil => rfl
  | cons v items ih => rw [itemNodes, ih, List.map_cons]

@[simp] theorem string_node (string : Option (List UInt8)) (v : Json Decimal) :
    (node string v).string = string := by
  cases v <;> rfl

@[simp] theorem valuestring_node_string (string : Option (List UInt8)) (s : List UInt8) :
    (node string (.string s)).valuestring = some s := rfl

@[simp] theorem getArraySize_node (string : Option (List UInt8)) (items : List (Json Decimal)) :
    (node string (.array items)).getArraySize = items.length := by
  show (itemNodes items).length = _
  rw [itemNodes_eq, List.length_map]

@[simp] theorem getArrayItem_node (string : Option (List UInt8)) (items : List (Json Decimal))
    (i : Nat) : (node string (.array items)).getArrayItem i = items[i]?.map (node none) := by
  show (itemNodes items)[i]? = _
  rw [itemNodes_eq, List.getElem?_map]

/-- A member is found by its name if no other member has it, in whatever case. -/
theorem getObjectItem_node {string : Option (List UInt8)}
    {members : List (List UInt8 × Json Decimal)}
    (hnodup : (members.map fun m => m.1.map tolower).Nodup) {m : List UInt8 × Json Decimal}
    (hm : m ∈ members) :
    (node string (.object members)).getObjectItem (some m.1) = some (node (some m.1) m.2) := by
  show (memberNodes members).find? _ = _
  induction members with
  | nil => exact absurd hm List.not_mem_nil
  | cons first members ih =>
    rw [List.map_cons, List.nodup_cons] at hnodup
    rw [memberNodes, List.find?_cons, string_node]
    rcases List.mem_cons.mp hm with rfl | hm
    · rw [show strcasecmpEq (some m.1) (some m.1) = true from beq_self_eq_true _]
    · have hne : m.1.map tolower ≠ first.1.map tolower := fun h =>
        hnodup.1 (h ▸ List.mem_map_of_mem hm)
      rw [show strcasecmpEq (some first.1) (some m.1) = false from
        beq_eq_false_iff_ne.mpr hne.symm]
      exact ih hnodup.2 hm

/-- `cJSON_Parse` of a C string.  Where the parser faults there is no tree to speak of. -/
def cJsonParse (text : List UInt8) : Option CJson :=
  match parse (text ++ [0]) with
  | .item v _ => some (node none v)
  | _ => none

theorem stops_nul : Stops [0] := ⟨0, [], rfl, rfl, by decide, by decide, by decide⟩

theorem cJsonParse_denotes {v : Json Decimal} {t : List UInt8} (h : Denotes v t)
    (hnul : v.Strings (0 ∉ ·)) : cJsonParse t = some (node none v) := by
  rw [cJsonParse, parse_denotes h hnul stops_nul]

end CJson

/-! ## What a request is meant to be -/

/-- The text of a row with parameters: its template filled with them, as far as `szBuf` has
room. -/
def Command.wording (row : Command) (parms : List (List UInt8)) : List UInt8 :=
  ((readTemplate row.value).elim [] fun t => t.fill parms).take (commandBufSize - 1)

theorem Command.Formats.snprintf_eq {row : Command} (h : row.Formats)
    {parms : List (List UInt8)} (hparms : (parms.length : Int) = row.paramNum) :
    snprintf commandBufSize row.value parms = row.wording parms := by
  obtain ⟨t, ht, hplaces⟩ := h
  have htext : formatStrings row.value parms = t.fill parms :=
    formatStrings_readTemplate ht (by omega)
  rw [snprintf, htext, Command.wording, ht, Option.elim_some]

/-- A table whose templates ask for nothing but strings, and for no more than there are. -/
def TableFormats (valueForKey : Int → Option Command) : Prop :=
  ∀ key row, valueForKey key = some row → row.Formats

namespace Client

/-- The keys of a dictionary in lower case. -/
def lowerKeys (d : Dict) : List (List UInt8) := d.map fun item => (utf8 item.1).map CJson.tolower

/-- The values of a dictionary. -/
def values (d : Dict) : List (List UInt8) := d.map fun item => utf8 item.2

/-- The command a dictionary stands for: its first value is the code and the others are the
parameters, of which there are as many as the table says and not more than four. -/
def intended (valueForKey : Int → Option Command) (d : Dict) : Except JsonError ParsedCommand :=
  match values d with
  | [] => .error .paramNumErr
  | op :: parms =>
    if parms = [] ∨ 4 < parms.length then .error .paramNumErr
    else
      match valueForKey (atoi op) with
      | none => .error .commandNoExist
      | some cmdObj =>
        if (parms.length : Int) ≠ cmdObj.paramNum then .error .paramNumErr
        else if cmdObj.deprecated then .error .deprecated
        else .ok ⟨cmdObj.wording parms, cmdObj.needRsp, cmdObj.is2Pipe⟩

/-- Commands are taken all or not at all. -/
def allOrNone : Except JsonError (List ParsedCommand) → List ParsedCommand
  | .error _ => []
  | .ok cmds => cmds

/-- The commands a request is meant to be. -/
def intendedAll (valueForKey : Int → Option Command) (cmds : List (List Dict)) :
    List ParsedCommand :=
  allOrNone ((cmds.map List.flatten).mapM (intended valueForKey))

/-- A command that C can be told: its keys differ, not only in their case, and no string has a
NUL. -/
structure Plain (cmd : List Dict) : Prop where
  distinct : (lowerKeys cmd.flatten).Nodup
  nulFree : ∀ item ∈ cmd.flatten, 0 ∉ utf8 item.1 ∧ 0 ∉ utf8 item.2

instance (cmd : List Dict) : Decidable (Plain cmd) :=
  decidable_of_iff
    ((lowerKeys cmd.flatten).Nodup ∧ ∀ item ∈ cmd.flatten, 0 ∉ utf8 item.1 ∧ 0 ∉ utf8 item.2)
    ⟨fun h => ⟨h.1, h.2⟩, fun h => ⟨h.distinct, h.nulFree⟩⟩

/-- A dictionary has the items of its command. -/
theorem Plain.foldl_update {cmd : List Dict} (h : Plain cmd) :
    cmd.foldl update [] = cmd.flatten := by
  have hkeys : (cmd.flatten.map Prod.fst).Nodup := by
    have hmap : lowerKeys cmd.flatten =
        (cmd.flatten.map Prod.fst).map fun k => (utf8 k).map CJson.tolower := by
      rw [List.map_map]
      rfl
    have hdistinct := h.distinct
    rw [hmap] at hdistinct
    exact List.Nodup.of_map _ hdistinct
  exact Client.foldl_update (d := []) hkeys

end Client

/-! ## One command -/

section Command

variable {d : Client.Dict}

/-- The tree of a dictionary. -/
abbrev dictNode (d : Client.Dict) : CJson := CJson.node none (Client.dictTree d)

/-- The tree of the list of its keys. -/
abbrev keysNode (d : Client.Dict) : CJson :=
  CJson.node none (Client.keysTree (d.map Prod.fst))

/-- The item at an index is found by its key. -/
theorem vaildItem_nodes (hdistinct : (Client.lowerKeys d).Nodup) {idx : Nat}
    {item : String × String} (hitem : d[idx]? = some item) :
    vaildItem (dictNode d) (keysNode d) idx = .ok (Client.utf8 item.2) := by
  have hkey : (keysNode d).getArrayItem idx =
      some (CJson.node none (.string (Client.utf8 item.1))) := by
    rw [keysNode, Client.keysTree, CJson.getArrayItem_node, List.getElem?_map, List.getElem?_map,
      hitem]
    rfl
  have hvalue : (dictNode d).getObjectItem (some (Client.utf8 item.1)) =
      some (CJson.node (some (Client.utf8 item.1)) (.string (Client.utf8 item.2))) := by
    refine CJson.getObjectItem_node (m := (Client.utf8 item.1, .string (Client.utf8 item.2))) ?_
      (List.mem_map.mpr ⟨item, List.mem_of_getElem? hitem, rfl⟩)
    rw [List.map_map]
    exact hdistinct
  simp only [vaildItem, hkey, CJson.valuestring_node_string, hvalue]

/-- The parameters are collected in the order of their keys. -/
theorem collectParms_nodes (hdistinct : (Client.lowerKeys d).Nodup) {n : Nat}
    (hn : n < d.length) (parms : List (List UInt8)) :
    collectParms (dictNode d) (keysNode d) n parms =
      .ok (((Client.values d).tail.take n) ++ parms) := by
  induction n generalizing parms with
  | zero => rfl
  | succ n ih =>
    have hitem : d[n + 1]? = some d[n + 1] := List.getElem?_eq_getElem hn
    have htail : (Client.values d).tail[n]? = some (Client.utf8 d[n + 1].2) := by
      rw [List.getElem?_tail, Client.values, List.getElem?_map, hitem]
      rfl
    rw [collectParms, vaildItem_nodes hdistinct hitem]
    dsimp only
    rw [ih (by omega), List.take_add_one, htail, List.append_assoc]
    rfl

/-- `parse_object` finds the command that a dictionary stands for. -/
theorem parseObject_nodes {dec : Decoder} (hformats : TableFormats dec.valueForKey)
    (hdistinct : (Client.lowerKeys d).Nodup) :
    parseObject dec (some (dictNode d)) (some (keysNode d)) =
      Client.intended dec.valueForKey d := by
  have hsize : (keysNode d).getArraySize = d.length := by
    rw [keysNode, Client.keysTree, CJson.getArraySize_node, List.length_map, List.length_map]
  cases d with
  | nil => rfl
  | cons op parms =>
    have hfirst := vaildItem_nodes hdistinct (show (op :: parms)[0]? = some op from rfl)
    have hrest := collectParms_nodes hdistinct
      (show parms.length < (op :: parms).length by simp) []
    have hvalues : Client.values (op :: parms) = Client.utf8 op.2 :: Client.values parms := rfl
    have hlength : (Client.values parms).length = parms.length := List.length_map _
    have hnil : Client.values parms = [] ↔ parms.length = 0 := by
      rw [← List.length_eq_zero_iff, hlength]
    rw [hvalues, List.tail_cons, List.append_nil, List.take_of_length_le (by omega)] at hrest
    rw [List.length_cons] at hsize
    rw [Client.intended, hvalues]
    simp only [parseObject, hsize, hfirst, hlength, hnil, Nat.add_sub_cancel, hrest,
      Int.natCast_add, Int.natCast_one, Int.add_sub_cancel]
    have hcond : (parms.length + 1 > 5 ∨ parms.length + 1 ≤ 1) ↔
        (parms.length = 0 ∨ 4 < parms.length) := by omega
    refine if_congr hcond rfl ?_
    cases hrow : dec.valueForKey (atoi (Client.utf8 op.2)) with
    | none => rfl
    | some row =>
      dsimp only
      split
      · rfl
      · rename_i hnum
        rw [(hformats _ row hrow).snprintf_eq (by omega)]

end Command

/-! ## One request -/

/-- The loop of `analysis_message` goes through the commands. -/
theorem parseObjects_nodes (dec : Decoder) (hformats : TableFormats dec.valueForKey)
    (name name' : Option (List UInt8)) {ds : List Client.Dict}
    (hdistinct : ∀ d ∈ ds, (Client.lowerKeys d).Nodup) :
    ∀ {n i : Nat}, i + n = ds.length →
      parseObjects dec (CJson.node name (.array (ds.map Client.dictTree)))
          (CJson.node name' (.array (ds.map fun d => Client.keysTree (d.map Prod.fst)))) i n =
        (ds.drop i).mapM (Client.intended dec.valueForKey) := by
  intro n
  induction n with
  | zero =>
    intro i hi
    rw [List.drop_of_length_le (by omega), parseObjects, List.mapM_nil]
    rfl
  | succ n ih =>
    intro i hi
    have hlt : i < ds.length := by omega
    have hcmds : (CJson.node name (.array (ds.map Client.dictTree))).getArrayItem i =
        some (dictNode ds[i]) := by
      rw [CJson.getArrayItem_node, List.getElem?_map, List.getElem?_eq_getElem hlt]
      rfl
    have hkeys : (CJson.node name'
        (.array (ds.map fun d => Client.keysTree (d.map Prod.fst)))).getArrayItem i =
        some (keysNode ds[i]) := by
      rw [CJson.getArrayItem_node, List.getElem?_map, List.getElem?_eq_getElem hlt]
      rfl
    rw [parseObjects, hcmds, hkeys, parseObject_nodes hformats (hdistinct _ (List.getElem_mem hlt)),
      List.drop_eq_getElem_cons hlt, List.mapM_cons, ih (by omega)]
    cases Client.intended dec.valueForKey ds[i] with
    | error e => rfl
    | ok cmd =>
      cases (ds.drop (i + 1)).mapM (Client.intended dec.valueForKey) with
      | error e => rfl
      | ok cmds => rfl

/-- The decoder with the parser of `cJSON.c`. -/
def cJsonDecoder (valueForKey : Int → Option Command) : Decoder :=
  ⟨CJson.cJsonParse, valueForKey⟩

theorem Client.assemblyRequest_plain {cmds : List (List Client.Dict)}
    (h : ∀ cmd ∈ cmds, Client.Plain cmd) :
    Client.assemblyRequest cmds =
      if cmds = [] then none
      else some ⟨cmds.map List.flatten, (cmds.map List.flatten).map fun d => d.map Prod.fst⟩ := by
  have hvals : (cmds.map fun cmd => cmd.foldl Client.update []) = cmds.map List.flatten :=
    List.map_congr_left fun cmd hcmd => (h cmd hcmd).foldl_update
  have hkeys : (cmds.map fun cmd => cmd.flatMap fun k => k.map Prod.fst) =
      (cmds.map List.flatten).map fun d => d.map Prod.fst := by
    rw [List.map_map]
    refine List.map_congr_left fun cmd _ => ?_
    show _ = cmd.flatten.map Prod.fst
    rw [List.map_flatten, List.flatMap_def]
  rw [Client.assemblyRequest, hvals, hkeys]
  simp only [List.length_map, List.length_eq_zero_iff, or_self]

/-- The tree of a request has no NUL if the request has none. -/
theorem Client.strings_requestTree {ds : List Client.Dict}
    (h : ∀ d ∈ ds, ∀ item ∈ d, 0 ∉ Client.utf8 item.1 ∧ 0 ∉ Client.utf8 item.2) :
    (Client.requestTree (some ⟨ds, ds.map fun d => d.map Prod.fst⟩)).Strings (0 ∉ ·) := by
  have hdict : ∀ d ∈ ds, (Client.dictTree d).Strings (0 ∉ ·) := by
    intro d hd
    refine memberStrings_iff.mpr fun m hm => ?_
    obtain ⟨item, hitem, rfl⟩ := List.mem_map.mp hm
    exact h d hd item hitem
  have hkeys : ∀ d ∈ ds, (Client.keysTree (d.map Prod.fst)).Strings (0 ∉ ·) := by
    intro d hd
    refine itemStrings_iff.mpr fun v hv => ?_
    obtain ⟨k, hk, rfl⟩ := List.mem_map.mp hv
    obtain ⟨item, hitem, rfl⟩ := List.mem_map.mp hk
    exact (h d hd item hitem).1
  have hnames : 0 ∉ ascii "values" ∧ 0 ∉ ascii "keys" := by decide
  refine memberStrings_iff.mpr fun m hm => ?_
  rcases List.mem_pair.mp hm with rfl | rfl
  · refine ⟨hnames.1, itemStrings_iff.mpr fun v hv => ?_⟩
    obtain ⟨d, hd, rfl⟩ := List.mem_map.mp hv
    exact hdict d hd
  · refine ⟨hnames.2, itemStrings_iff.mpr fun v hv => ?_⟩
    obtain ⟨ks, hks, rfl⟩ := List.mem_map.mp hv
    obtain ⟨d, hd, rfl⟩ := List.mem_map.mp hks
    exact hkeys d hd

/-- The commands of a parsed request. -/
theorem analysisJson_requestTree {valueForKey : Int → Option Command}
    (hformats : TableFormats valueForKey) {text : List UInt8} {ds : List Client.Dict}
    (hparse : CJson.cJsonParse text = some (CJson.node none
      (Client.requestTree (some ⟨ds, ds.map fun d => d.map Prod.fst⟩))))
    (hdistinct : ∀ d ∈ ds, (Client.lowerKeys d).Nodup) :
    analysisJson (cJsonDecoder valueForKey) text =
      Client.allOrNone (ds.mapM (Client.intended valueForKey)) := by
  let members : List (List UInt8 × Json Decimal) :=
    [(ascii "values", .array (ds.map Client.dictTree)),
      (ascii "keys", .array ((ds.map fun d => d.map Prod.fst).map Client.keysTree))]
  have hnames : (members.map fun m => m.1.map CJson.tolower).Nodup := by
    show [(ascii "values").map CJson.tolower, (ascii "keys").map CJson.tolower].Nodup
    decide
  have hmember : ∀ m ∈ members, (CJson.node none (.object members)).getObjectItem (some m.1) =
      some (CJson.node (some m.1) m.2) := fun m hm => CJson.getObjectItem_node hnames hm
  have hvalues := hmember _ List.mem_cons_self
  have hkeys := hmember _ (List.mem_cons_of_mem _ List.mem_cons_self)
  have hloop := parseObjects_nodes (cJsonDecoder valueForKey) hformats
    (some (ascii "values")) (some (ascii "keys")) hdistinct (Nat.zero_add _)
  have hkeysTree : (ds.map fun d => d.map Prod.fst).map Client.keysTree =
      ds.map fun d => Client.keysTree (d.map Prod.fst) := List.map_map
  rw [List.drop_zero] at hloop
  rw [hkeysTree] at hkeys
  unfold analysisJson
  rw [show (cJsonDecoder valueForKey).cJsonParse text =
    some (CJson.node none (.object members)) from hparse]
  dsimp only at hvalues hkeys ⊢
  rw [hvalues, hkeys]
  dsimp only
  rw [CJson.getArraySize_node, CJson.getArraySize_node, List.length_map, List.length_map,
    Nat.min_self, hloop]
  rfl

/-- A request is analysed to the commands it is meant to be. -/
theorem analysisJson_dumps {valueForKey : Int → Option Command}
    (hformats : TableFormats valueForKey) {cmds : List (List Client.Dict)}
    (h : ∀ cmd ∈ cmds, Client.Plain cmd) :
    analysisJson (cJsonDecoder valueForKey) (Client.dumps (Client.assemblyRequest cmds)) =
      Client.intendedAll valueForKey cmds := by
  have hdenotes := Client.denotes_dumps (Client.assemblyRequest cmds)
  rw [Client.assemblyRequest_plain h] at hdenotes ⊢
  split at hdenotes
  · rename_i hnil
    subst hnil
    have hparse := CJson.cJsonParse_denotes hdenotes trivial
    rw [if_pos rfl]
    simp only [analysisJson, cJsonDecoder, hparse]
    rfl
  · rename_i hne
    rw [if_neg hne]
    have hparse := CJson.cJsonParse_denotes hdenotes (Client.strings_requestTree fun d hd => by
      obtain ⟨cmd, hcmd, rfl⟩ := List.mem_map.mp hd
      exact (h cmd hcmd).nulFree)
    exact analysisJson_requestTree hformats hparse fun d hd => by
      obtain ⟨cmd, hcmd, rfl⟩ := List.mem_map.mp hd
      exact (h cmd hcmd).distinct

/-! ## Many requests -/

/-- What is sent for a request is a frame with the commands it is meant to be. -/
theorem commands_sendall {valueForKey : Int → Option Command}
    (hformats : TableFormats valueForKey) {cmds : List (List Client.Dict)} {frame : List UInt8}
    (h : ∀ cmd ∈ cmds, Client.Plain cmd)
    (hsent : Client.sendall cmds = some frame) :
    ∃ p : Payload, frame = p.frame ∧
      (cJsonDecoder valueForKey).commands p = Client.intendedAll valueForKey cmds := by
  obtain ⟨p, hbytes, hframe⟩ := Client.sendall_frame hsent
  have hnul : 0 ∉ p.bytes := hbytes ▸ (Client.denotes_dumps _).zero_notMem
  refine ⟨p, hframe, ?_⟩
  rw [Decoder.commands, List.takeWhile_eq_self_iff.mpr fun b hb => ?_, hbytes,
    analysisJson_dumps hformats h]
  exact decide_eq_true fun h0 => hnul (h0 ▸ hb)

theorem commands_mapM_sendall {valueForKey : Int → Option Command}
    (hformats : TableFormats valueForKey) {reqs : List (List (List Client.Dict))} :
    ∀ {frames : List (List UInt8)}, (∀ cmds ∈ reqs, ∀ cmd ∈ cmds, Client.Plain cmd) →
      reqs.mapM Client.sendall = some frames →
      ∃ group : List Payload, frames.flatten = frameBytes group ∧
        group.map (cJsonDecoder valueForKey).commands =
          reqs.map (Client.intendedAll valueForKey) := by
  induction reqs with
  | nil =>
    intro frames _ hsent
    obtain rfl : frames = [] := by simpa using hsent.symm
    exact ⟨[], rfl, rfl⟩
  | cons cmds reqs ih =>
    intro frames h hsent
    rw [List.mapM_cons] at hsent
    cases hfirst : Client.sendall cmds with
    | none => simp [hfirst] at hsent
    | some frame =>
      cases hrest : reqs.mapM Client.sendall with
      | none => simp [hfirst, hrest] at hsent
      | some rest =>
        obtain rfl : frame :: rest = frames := by simpa [hfirst, hrest] using hsent
        obtain ⟨p, hframe, hp⟩ := commands_sendall hformats (h _ List.mem_cons_self) hfirst
        obtain ⟨group, hgroup, hcommands⟩ :=
          ih (fun cmds hcmds => h cmds (List.mem_cons_of_mem _ hcmds)) hrest
        exact ⟨p :: group, by rw [List.flatten_cons, hframe, hgroup, frameBytes_cons],
          by rw [List.map_cons, hp, hcommands, List.map_cons]⟩

/-- The read job over the requests in the receive buffer. -/
theorem readSockFunc_requests {valueForKey : Int → Option Command}
    (hformats : TableFormats valueForKey) {turns fuel : Nat}
    {reqs : List (List (List Client.Dict))} {frames : List (List UInt8)} (hturns : 2 ≤ turns)
    (hfuel : reqs.length < fuel) (h : ∀ cmds ∈ reqs, ∀ cmd ∈ cmds, Client.Plain cmd)
    (hsent : reqs.mapM Client.sendall = some frames)
    (haccepted : ∀ cmds ∈ reqs.dropLast, Client.intendedAll valueForKey cmds ≠ []) :
    ∃ job, readSockFunc arrivedSock (cJsonDecoder valueForKey) turns fuel frames.flatten =
        some job ∧
      job.executed = reqs.flatMap (Client.intendedAll valueForKey) ∧ job.sock = [] := by
  obtain ⟨group, hgroup, hcommands⟩ := commands_mapM_sendall hformats h hsent
  have hlength : group.length = reqs.length := by
    rw [← List.length_map, hcommands, List.length_map]
  have haccept : ∀ p ∈ group.dropLast, (cJsonDecoder valueForKey).accepts p := by
    intro p hp
    have hmem : (cJsonDecoder valueForKey).commands p ∈
        (reqs.dropLast).map (Client.intendedAll valueForKey) := by
      rw [List.map_dropLast, ← hcommands, ← List.map_dropLast]
      exact List.mem_map_of_mem hp
    obtain ⟨cmds, hcmds, heq⟩ := List.mem_map.mp hmem
    rw [Decoder.accepts, ← heq]
    exact haccepted cmds hcmds
  have hstop : StopsAt (cJsonDecoder valueForKey) group [] :=
    Or.inl (Int.le_of_eq headerValue_nil)
  refine ⟨_, readSockLoop_frames (cJsonDecoder valueForKey) hturns group fuel _ [] (by omega)
    (by rw [List.append_nil]; exact hgroup) haccept hstop, ?_, rfl⟩
  show [] ++ group.flatMap _ = _
  rw [List.nil_append, List.flatMap_def, hcommands, List.flatMap_def]

/-- A table with a pipe command of two parameters and a database command of one. -/
def twoCommands (key : Int) : Option Command :=
  if key = 7 then some ⟨[67, 32, 37, 115, 32, 37, 115], 2, true, false, true⟩
  else if key = 8 then some ⟨[68, 32, 37, 115], 1, false, false, false⟩
  else none

theorem tableFormats_twoCommands : TableFormats twoCommands := by
  intro key row hrow
  rw [twoCommands] at hrow
  split at hrow
  · cases hrow
    decide
  split at hrow
  · cases hrow
    decide
  · cases hrow

/-- Two requests, the first of them with two commands. -/
def twoRequests : List (List (List Client.Dict)) :=
  [[[[("op", "7")], [("name", "é"), ("realm", "\"x\"")]], [[("op", "8"), ("id", "3")]]],
    [[[("op", "8")], [("id", "4")]]]]

end WowProxy
