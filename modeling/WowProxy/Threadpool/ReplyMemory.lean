/-
  Threadpool/ReplyMemory.lean --- what `write_sock_func` allocates for a reply.

  The tree of the reply is built, printed and deleted, and the printed text is freed once
  it is sent.  The way out for a text that is too long deletes the tree alone.
-/
import WowProxy.Common.CJsonMemory
import WowProxy.Common.CJsonPrintMemory
import WowProxy.Threadpool.ReplyBuffer
import WowProxy.Threadpool.ReplyDelivery

set_option autoImplicit false

namespace WowProxy

open WowProxy.Lib.Blocks
open WowProxy.Lib.JsonText

/-! ## Building a tree -/

namespace CJsonMem

/-- `cJSON_CreateObject` and `cJSON_CreateBool` -/
def createItem : Prog MemItem := do
  let addr ← malloc
  return .item addr none none []

/-- `cJSON_CreateString` -/
def createString : Prog MemItem := do
  let addr ← malloc
  let valuestring ← malloc
  return .item addr (some valuestring) none []

/-- `cJSON_AddItemToObject` -/
def addItemToObject : MemItem → MemItem → Prog MemItem
  | .item addr valuestring string child, .item addr' valuestring' string' child' => do
    freeSome string'
    let string' ← malloc
    return .item addr valuestring string
      (child ++ [.item addr' valuestring' (some string') child'])

theorem blocksAll_append (cs ds : List MemItem) :
    blocksAll (cs ++ ds) = blocksAll cs ++ blocksAll ds := by
  induction cs with
  | nil => rfl
  | cons c cs ih => rw [List.cons_append, blocksAll, ih, blocksAll, List.append_assoc]

theorem owns_createItem (pre : List Nat) :
    Owns pre createItem fun c own => own.Perm (c.blocks ++ pre) := by
  refine (Owns.malloc pre).bind fun addr own hown => ?_
  subst hown
  exact .pure (.refl _)

theorem owns_createString (pre : List Nat) :
    Owns pre createString fun c own => own.Perm (c.blocks ++ pre) := by
  refine (Owns.malloc pre).bind fun addr own hown => ?_
  subst hown
  refine (Owns.malloc _).bind fun valuestring own hown => ?_
  subst hown
  exact .pure (.refl _)

/-- The item gets a name and becomes a part of the object. -/
theorem owns_addItemToObject (object item : MemItem) (pre : List Nat) :
    Owns (item.blocks ++ (object.blocks ++ pre)) (addItemToObject object item)
      fun c own => own.Perm (c.blocks ++ pre) := by
  obtain ⟨addr, valuestring, string, child⟩ := object
  obtain ⟨addr', valuestring', string', child'⟩ := item
  have hitem : ((MemItem.item addr' valuestring' string' child').blocks ++
        ((MemItem.item addr valuestring string child).blocks ++ pre)).Perm
      (string'.toList ++ ((blocksAll child' ++ (valuestring'.toList ++ [addr'])) ++
        ((MemItem.item addr valuestring string child).blocks ++ pre))) := by
    simp only [MemItem.blocks]
    exact List.perm_iff_count.mpr fun x => by
      simp only [List.count_append]
      omega
  rw [addItemToObject]
  refine ((Owns.freeSome string' _).perm hitem).bind fun _ own hown => ?_
  subst hown
  refine (Owns.malloc _).bind fun name own hown => ?_
  subst hown
  refine .pure ?_
  simp only [MemItem.blocks, blocksAll_append, blocksAll, Option.toList_some]
  exact List.perm_iff_count.mpr fun x => by
    simp only [List.count_append, List.count_cons, List.count_nil]
    omega

end CJsonMem

/-! ## The reply -/

namespace ReplyMem

open WowProxy.CJsonMem

/-- The tree of a reply. -/
def createReply : Prog MemItem := do
  let root ← createItem
  let isOpOk ← createItem
  let root ← addItemToObject root isOpOk
  let msg ← createString
  addItemToObject root msg

/-- `write_sock_func`: the frame that it hands to `writen_fd`, if it does not give up. -/
def writeSockFunc (isOpOk : Bool) (msg : List UInt8) : Prog (Option (List UInt8)) := do
  let root ← createReply
  let jsonStr ← printValue true 0 (replyTree Int32 isOpOk msg)
  let size := jsonStr.2.length
  if size > replyBufSize then do
    cJsonDelete [root]
    return none
  else do
    let crc ← need (crcData (some jsonStr.2) size (replyBufSize - headSize))
    if crc.1 = -1 then do
      cJsonDelete [root]
      return none
    else do
      -- `writen_fd` is called here; it allocates nothing.
      free jsonStr.1
      cJsonDelete [root]
      return some ((convertIntToHex crc.1.toNat).getD [0, 0] ++ crc.2)

theorem owns_createReply (pre : List Nat) :
    Owns pre createReply fun c own => own.Perm (c.blocks ++ pre) := by
  refine (owns_createItem pre).bind fun root own hroot => ?_
  refine (owns_createItem own).bind fun isOpOk own' hisOpOk => ?_
  refine ((owns_addItemToObject root isOpOk pre).perm
    (hisOpOk.trans (hroot.append_left _))).bind fun root own hroot => ?_
  refine (owns_createString own).bind fun msg own' hmsg => ?_
  exact (owns_addItemToObject root msg pre).perm (hmsg.trans (hroot.append_left _))

/-- The blocks that a call leaves behind: the text that is too long. -/
def leaked (isOpOk : Bool) (msg : List UInt8) : Nat :=
  if replyBufSize < replyLength isOpOk msg then 1 else 0

/-- A call that does not overrun its buffer leaves one block behind if the text is too long,
and else nothing. -/
theorem owns_writeSockFunc {isOpOk : Bool} {msg : List UInt8} {frame : Option (List UInt8)}
    (hnul : 0 ∉ msg) (hframe : replyFrame isOpOk msg = some frame) (pre : List Nat) :
    Owns pre (writeSockFunc isOpOk msg) fun r own =>
      r = frame ∧ ∃ left, own.Perm (left ++ pre) ∧ left.length = leaked isOpOk msg := by
  have hlength := length_printReply isOpOk msg
  rw [replyFrame] at hframe
  rw [writeSockFunc]
  refine (owns_createReply pre).bind fun root own hroot => ?_
  refine (owns_printValue true 0 _ _ own (print_replyTree isOpOk hnul)).bind
    fun jsonStr own' hjson => ?_
  obtain ⟨htext, rfl⟩ := hjson
  have hdelete := (hroot.cons jsonStr.1).trans List.perm_middle.symm
  rw [← blocksAll_singleton] at hdelete
  dsimp only at hframe ⊢
  rw [htext]
  split at hframe
  · -- the text is too long, and its block is left
    rename_i hlong
    obtain rfl := Option.some.inj hframe
    rw [if_pos hlong]
    refine ((owns_cJsonDelete [root] _).perm hdelete).bind fun _ own hown => ?_
    subst hown
    refine .pure ⟨rfl, [jsonStr.1], .refl _, ?_⟩
    rw [leaked, if_pos (by omega)]
    rfl
  · rename_i hshort
    rw [if_neg hshort]
    split at hframe
    · exact absurd hframe (by simp)
    · rename_i len body hcrc
      refine (Owns.need hcrc).bind fun crc own hown => ?_
      obtain ⟨rfl, rfl⟩ := hown
      have hlen : len ≠ -1 := by
        have hsize : replyBufSize = 4096 := rfl
        obtain ⟨hlen, -⟩ := crcData_eq_some (by omega) hcrc
        omega
      rw [if_neg hlen] at hframe
      obtain rfl := Option.some.inj hframe
      dsimp only
      rw [if_neg hlen]
      refine (Owns.free jsonStr.1 own).bind fun _ own hown => ?_
      subst hown
      rw [← blocksAll_singleton] at hroot
      refine ((owns_cJsonDelete [root] pre).perm hroot).bind fun _ own hown => ?_
      subst hown
      refine .pure ⟨rfl, [], .refl _, ?_⟩
      rw [leaked, if_neg (by omega)]
      rfl

/-- **`write_sock_func` computes its frame and leaves its memory as it was, except for a
reply whose JSON text is longer than the buffer: the text stays allocated.** -/
theorem writeSockFunc_leaks_iff (isOpOk : Bool) {msg : List UInt8} (hnul : 0 ∉ msg) (m : Mem)
    {frame : Option (List UInt8)} (hframe : replyFrame isOpOk msg = some frame) :
    ∃ m', writeSockFunc isOpOk msg m = some (frame, m') ∧
      (¬ m'.live.Perm m.live ↔ replyBufSize < replyLength isOpOk msg) ∧
      m'.live.length ≤ m.live.length + 1 ∧
      ∃ left, m'.live.Perm (left ++ m.live) ∧ left.length = leaked isOpOk msg := by
  obtain ⟨r, m', own, hrun, hm', rfl, left, hown, hleft⟩ :=
    owns_writeSockFunc hnul hframe [] m m.live (.refl _)
  rw [List.append_nil] at hown
  have hlive : m'.live.Perm (left ++ m.live) := hm'.trans (hown.append_right _)
  have hlength := hlive.length_eq
  rw [List.length_append, hleft, leaked] at hlength
  refine ⟨m', hrun, ⟨fun hleaks => ?_, fun hlong hperm => ?_⟩, ?_, left, hlive, hleft⟩
  · by_contra hshort
    rw [leaked, if_neg hshort] at hleft
    rw [List.length_eq_zero_iff.mp hleft, List.nil_append] at hlive
    exact hleaks hlive
  · rw [if_pos hlong, hperm.length_eq] at hlength
    omega
  · split at hlength <;> omega

/-- A result that fills the buffer of the answer and brings the text beyond that of the
reply. -/
def longResult : List UInt8 := List.replicate 4095 97

theorem replyLength_longResult : replyLength true longResult = 4130 := by
  rw [replyLength, longResult, List.map_replicate, List.sum_replicate_nat]
  decide

/-- The text of such a reply is left behind. -/
theorem writeSockFunc_leaks_longResult :
    ∃ m', writeSockFunc true longResult Mem.empty = some (none, m') ∧
      (¬ m'.live.Perm Mem.empty.live ↔ replyBufSize < replyLength true longResult) ∧
      m'.live.length ≤ Mem.empty.live.length + 1 ∧
      ∃ left, m'.live.Perm (left ++ Mem.empty.live) ∧
        left.length = leaked true longResult := by
  have hnul : (0 : UInt8) ∉ longResult := by
    rw [longResult, List.mem_replicate]
    decide
  have hlong : (printReply true longResult).length > replyBufSize := by
    rw [length_printReply, replyLength_longResult]
    decide
  have hframe : replyFrame true longResult = some none := by
    rw [replyFrame]
    exact if_pos hlong
  exact writeSockFunc_leaks_iff true hnul Mem.empty hframe

end ReplyMem

end WowProxy
