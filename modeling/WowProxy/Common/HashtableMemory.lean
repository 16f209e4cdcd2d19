/-
  Common/HashtableMemory.lean --- what the hash table of `common/hashtable/hashtable.c`
  allocates, and what `table_free` frees.

  An element is the caller's until it is inserted and again when `table_insert` returns
  it; the table frees those that it has in the end.  The table, its array, every chain
  and every list element are blocks.
-/
import WowProxy.Common.Hashtable
import WowProxy.Lib.Blocks

set_option autoImplicit false

namespace WowProxy.HashtableMem

open WowProxy.Hashtable
open WowProxy.Lib.Blocks

/-! ## From the source -/

/-- `struct elem`: the block behind `word` has the key, and `info` may be `NULL`. -/
structure Elem where
  addr : Nat
  word : Nat
  info : Option Nat
  key : HtKey
  deriving DecidableEq

/-- `_elem_free` -/
def elemFree (e : Elem) : Prog Unit := do
  free e.word
  freeSome e.info
  free e.addr

/-- A list element: its address and its `data`. -/
abbrev ListElem := Nat × Elem

/-- `list_free` -/
def listFree : List ListElem → Prog Unit
  | [] => pure ()
  | p :: next => do
    elemFree p.2
    free p.1
    listFree next

/-- `struct chain` -/
structure Chain where
  addr : Nat
  list : List ListElem

/-- `chain_new` -/
def chainNew : Prog Chain := do
  let addr ← malloc
  return ⟨addr, []⟩

/-- `chain_insert`: the chain behind it, and the old entry. -/
def chainInsert (C : Chain) (e : Elem) : Prog (Chain × Option Elem) :=
  match chainFind Elem.key e.key (C.list.map Prod.snd) with
  | none => do
    let newItem ← malloc
    return ({ C with list := (newItem, e) :: C.list }, none)
  | some i => do
    let p ← need C.list[i]?
    return ({ C with list := C.list.set i (p.1, e) }, some p.2)

/-- `chain_free` -/
def chainFree (C : Chain) : Prog Unit := do
  listFree C.list
  free C.addr

/-- `struct table` -/
structure MemTable where
  addr : Nat
  arrayAddr : Nat
  size : Int32
  numElems : Nat
  array : List (Option Chain)

/-- The table without its blocks. -/
def MemTable.erase (H : MemTable) : Table Elem where
  size := H.size
  numElems := H.numElems
  array := H.array.map (Option.map fun C => C.list.map Prod.snd)

/-- `table_new` -/
def tableNew (initSize : Int32) : Prog MemTable := do
  let A ← malloc
  let H ← malloc
  return { addr := H, arrayAddr := A, size := initSize, numElems := 0,
           array := List.replicate initSize.toNatClampNeg none }

/-- `H->array[h]`, where that is an element of the array. -/
def MemTable.at (H : MemTable) (h : Int32) : Option (Option Chain) :=
  if 0 ≤ h then H.array[h.toNatClampNeg]? else none

/-- A chain where there is none yet. -/
def chainOrNew : Option Chain → Prog Chain
  | none => chainNew
  | some C => pure C

/-- `table_insert`: the table behind it, and the old entry. -/
def tableInsert (H : MemTable) (e : Elem) : Prog (MemTable × Option Elem) := do
  let h := hash e.key H.size
  let C ← need (H.at h)
  let C ← chainOrNew C
  let inserted ← chainInsert C e
  let array := H.array.set h.toNatClampNeg (some inserted.1)
  match inserted.2 with
  | some oldE => return ({ H with array }, some oldE)
  | none => return ({ H with array, numElems := H.numElems + 1 }, none)

/-- The loop of `table_free`. -/
def chainsFree : List (Option Chain) → Prog Unit
  | [] => pure ()
  | none :: array => chainsFree array
  | some C :: array => do
    chainFree C
    chainsFree array

/-- `table_free` -/
def tableFree (H : MemTable) : Prog Unit := do
  chainsFree H.array
  free H.arrayAddr
  free H.addr

/-- A sequence of calls of `table_insert`, and what they return. -/
def tableInserts : MemTable → List Elem → Prog (MemTable × List (Option Elem))
  | H, [] => return (H, [])
  | H, e :: es => do
    let inserted ← tableInsert H e
    let rest ← tableInserts inserted.1 es
    return (rest.1, inserted.2 :: rest.2)

/-! ## Blocks -/

/-- The blocks of an element, in the order they are freed. -/
def Elem.blocks (e : Elem) : List Nat := e.word :: (e.info.toList ++ [e.addr])

/-- The blocks of a list element. -/
def cellBlocks (p : ListElem) : List Nat := p.2.blocks ++ [p.1]

def Chain.blocks (C : Chain) : List Nat := C.list.flatMap cellBlocks ++ [C.addr]

/-- The blocks of what stands at an index of the array. -/
def slotBlocks (C : Option Chain) : List Nat := (C.map Chain.blocks).getD []

def MemTable.blocks (H : MemTable) : List Nat :=
  H.array.flatMap slotBlocks ++ [H.arrayAddr, H.addr]

/-! ## Freeing -/

theorem owns_elemFree (e : Elem) (pre : List Nat) :
    Owns (e.blocks ++ pre) (elemFree e) fun _ own => own = pre := by
  rw [Elem.blocks, elemFree, List.cons_append, List.append_assoc]
  apply (Owns.free e.word _).bind
  rintro _ own rfl
  apply (Owns.freeSome e.info _).bind
  rintro _ own rfl
  exact .free e.addr pre

theorem owns_listFree (list : List ListElem) (pre : List Nat) :
    Owns (list.flatMap cellBlocks ++ pre) (listFree list) fun _ own => own = pre := by
  induction list with
  | nil => exact .pure rfl
  | cons p next ih =>
    rw [List.flatMap_cons, cellBlocks, listFree, List.append_assoc, List.append_assoc]
    apply (owns_elemFree p.2 _).bind
    rintro _ own rfl
    apply (Owns.free p.1 _).bind
    rintro _ own rfl
    exact ih

theorem owns_chainFree (C : Chain) (pre : List Nat) :
    Owns (C.blocks ++ pre) (chainFree C) fun _ own => own = pre := by
  rw [Chain.blocks, chainFree, List.append_assoc]
  apply (owns_listFree C.list _).bind
  rintro _ own rfl
  exact .free C.addr pre

theorem owns_chainsFree (array : List (Option Chain)) (pre : List Nat) :
    Owns (array.flatMap slotBlocks ++ pre) (chainsFree array) fun _ own => own = pre := by
  induction array with
  | nil => exact .pure rfl
  | cons C array ih =>
    cases C with
    | none => exact ih
    | some C =>
      rw [List.flatMap_cons, chainsFree, List.append_assoc]
      apply (owns_chainFree C _).bind
      rintro _ own rfl
      exact ih

/-- A table is freed with all its blocks and those of its elements. -/
theorem owns_tableFree (H : MemTable) (pre : List Nat) :
    Owns (H.blocks ++ pre) (tableFree H) fun _ own => own = pre := by
  rw [MemTable.blocks, tableFree, List.append_assoc]
  apply (owns_chainsFree H.array _).bind
  rintro _ own rfl
  apply (Owns.free H.arrayAddr _).bind
  rintro _ own rfl
  exact .free H.addr pre

/-! ## Inserting -/

/-- What a list of blocks becomes when one entry is replaced. -/
theorem flatMap_set_perm {α : Type} (f : α → List Nat) {l : List α} {i : Nat} {a : α}
    (h : l[i]? = some a) :
    ∃ rest, (l.flatMap f).Perm (f a ++ rest) ∧
      ∀ b, ((l.set i b).flatMap f).Perm (f b ++ rest) := by
  obtain ⟨hi, rfl⟩ := List.getElem?_eq_some_iff.mp h
  refine ⟨(l.eraseIdx i).flatMap f, ?_, fun b => ?_⟩
  · exact ((List.getElem_cons_eraseIdx_perm hi).symm).flatMap_right f
  · exact (List.set_perm_cons_eraseIdx hi b).flatMap_right f

/-- The blocks of an element that has been handed back. -/
def oldBlocks (old : Option Elem) : List Nat := (old.map Elem.blocks).getD []

theorem chainFind_lt {k : HtKey} {chain : List Elem} {i : Nat}
    (h : chainFind Elem.key k chain = some i) : i < chain.length := by
  induction chain generalizing i with
  | nil => exact absurd h (by simp [chainFind])
  | cons e rest ih =>
    rw [chainFind] at h
    split at h
    · obtain rfl := Option.some.inj h
      exact Nat.succ_pos _
    · obtain ⟨j, hj, rfl⟩ := Option.map_eq_some_iff.mp h
      exact Nat.succ_lt_succ (ih hj)

/-- The element goes into the chain, and that of the same key comes out of it. -/
theorem owns_chainInsert (C : Chain) (e : Elem) (pre : List Nat) :
    Owns (e.blocks ++ (C.blocks ++ pre)) (chainInsert C e) fun r own =>
      own.Perm (r.1.blocks ++ (oldBlocks r.2 ++ pre)) ∧
        (r.1.list.map Prod.snd, r.2) =
          Hashtable.chainInsert Elem.key (C.list.map Prod.snd) e := by
  rw [chainInsert, Hashtable.chainInsert]
  cases hfind : chainFind Elem.key e.key (C.list.map Prod.snd) with
  | none =>
    apply (Owns.malloc _).bind
    rintro newItem own rfl
    refine .pure ⟨?_, rfl⟩
    simp only [Chain.blocks, List.flatMap_cons, cellBlocks, oldBlocks, Option.map_none,
      Option.getD_none, List.nil_append]
    exact List.perm_iff_count.mpr fun x => by
      simp only [List.count_append, List.count_cons, List.count_nil]
      omega
  | some i =>
    have hi : i < C.list.length := by
      have hlt := chainFind_lt hfind
      rwa [List.length_map] at hlt
    have hp : C.list[i]? = some C.list[i] := List.getElem?_eq_getElem hi
    apply (Owns.need hp).bind
    rintro p own ⟨rfl, rfl⟩
    obtain ⟨rest, hbefore, hbehind⟩ := flatMap_set_perm cellBlocks hp
    refine .pure ⟨?_, ?_⟩
    · have hown : (e.blocks ++ (C.blocks ++ pre)).Perm
          (e.blocks ++ (((cellBlocks C.list[i] ++ rest) ++ [C.addr]) ++ pre)) :=
        ((hbefore.append_right [C.addr]).append_right pre).append_left e.blocks
      have hown' : (((cellBlocks (C.list[i].1, e) ++ rest) ++ [C.addr]) ++
          (C.list[i].2.blocks ++ pre)).Perm
          ((({ C with list := C.list.set i (C.list[i].1, e) } : Chain).blocks) ++
            (oldBlocks (some C.list[i].2) ++ pre)) :=
        ((hbehind (C.list[i].1, e)).symm.append_right [C.addr]).append_right _
      refine (hown.trans ?_).trans hown'
      simp only [cellBlocks]
      exact List.perm_iff_count.mpr fun x => by
        simp only [List.count_append]
        omega
    · dsimp only
      rw [List.map_set, List.getElem?_map, hp]
      rfl

/-- The elements of a chain, where `NULL` is one without elements. -/
def slotElems (C : Option Chain) : Option (List Elem) := C.map fun C => C.list.map Prod.snd

theorem at_erase (H : MemTable) (h : Int32) : H.erase.at h = (H.at h).map slotElems := by
  rw [Table.at, MemTable.at]
  split
  · exact List.getElem?_map
  · rfl

theorem owns_chainOrNew (C : Option Chain) (pre : List Nat) :
    Owns (slotBlocks C ++ pre) (chainOrNew C) fun D own =>
      own.Perm (D.blocks ++ pre) ∧ D.list.map Prod.snd = (slotElems C).getD [] := by
  cases C with
  | none =>
    apply (Owns.malloc pre).bind
    rintro addr own rfl
    exact .pure ⟨.refl _, rfl⟩
  | some C => exact .pure ⟨.refl _, rfl⟩

/-- One insertion: the element belongs to the table, and the old entry to the caller. -/
theorem owns_tableInsert {H : MemTable} {e : Elem} {H' : Table Elem} {old : Option Elem}
    (hinsert : Hashtable.tableInsert Elem.key H.erase e = some (H', old)) (pre : List Nat) :
    Owns (e.blocks ++ (H.blocks ++ pre)) (tableInsert H e) fun r own =>
      r.1.erase = H' ∧ r.2 = old ∧ own.Perm (r.1.blocks ++ (oldBlocks old ++ pre)) := by
  rw [Hashtable.tableInsert] at hinsert
  obtain ⟨elems, hat, hout⟩ := Option.map_eq_some_iff.mp hinsert
  rw [at_erase] at hat
  obtain ⟨C, hC, rfl⟩ := Option.map_eq_some_iff.mp hat
  change H.at (hash e.key H.size) = some C at hC
  rw [tableInsert]
  apply (Owns.need hC).bind
  rintro C own ⟨rfl, rfl⟩
  have hslot : H.array[(hash e.key H.size).toNatClampNeg]? = some C := by
    rw [MemTable.at] at hC
    split at hC
    · exact hC
    · exact absurd hC (by simp)
  obtain ⟨rest, hbefore, hbehind⟩ := flatMap_set_perm slotBlocks hslot
  let others := e.blocks ++ (rest ++ ([H.arrayAddr, H.addr] ++ pre))
  have hown : (e.blocks ++ (H.blocks ++ pre)).Perm (slotBlocks C ++ others) := by
    refine (((hbefore.append_right _).append_right pre).append_left e.blocks).trans ?_
    exact List.perm_iff_count.mpr fun x => by
      simp only [others, List.count_append]
      omega
  apply ((owns_chainOrNew C others).perm hown).bind
  rintro D own ⟨hown, helems⟩
  have hown' : own.Perm (e.blocks ++ (D.blocks ++ (rest ++ ([H.arrayAddr, H.addr] ++ pre)))) := by
    refine hown.trans (List.perm_iff_count.mpr fun x => ?_)
    simp only [others, List.count_append]
    omega
  apply ((owns_chainInsert D e _).perm hown').bind
  rintro ⟨D', old'⟩ own₁ ⟨hown₁, heq⟩
  rw [helems] at heq
  change _ = Hashtable.chainInsert Elem.key ((slotElems C).getD []) e at heq
  rw [← heq] at hout
  have hblocks : own₁.Perm (((H.array.set (hash e.key H.size).toNatClampNeg
      (some D')).flatMap slotBlocks ++ [H.arrayAddr, H.addr]) ++ (oldBlocks old' ++ pre)) := by
    refine hown₁.trans (.trans ?_
      (((hbehind (some D')).symm.append_right _).append_right _))
    simp only [slotBlocks, Option.map_some, Option.getD_some]
    exact List.perm_iff_count.mpr fun x => by
      simp only [List.count_append]
      omega
  have herase : (H.array.set (hash e.key H.size).toNatClampNeg (some D')).map
      (Option.map fun C => C.list.map Prod.snd) =
      H.erase.array.set (hash e.key H.size).toNatClampNeg (some (D'.list.map Prod.snd)) := by
    rw [List.map_set]
    rfl
  dsimp only at hout ⊢
  cases old' with
  | none =>
    obtain ⟨rfl, rfl⟩ := Prod.mk.inj hout
    refine .pure ⟨?_, rfl, hblocks⟩
    rw [MemTable.erase]
    dsimp only
    rw [herase]
    rfl
  | some oldE =>
    obtain ⟨rfl, rfl⟩ := Prod.mk.inj hout
    refine .pure ⟨?_, rfl, hblocks⟩
    rw [MemTable.erase]
    dsimp only
    rw [herase]
    rfl

/-- Insertions one after the other. -/
theorem owns_tableInserts (es : List Elem) : ∀ {H : MemTable} {H' : Table Elem}
    {olds : List (Option Elem)} (pre : List Nat),
    Hashtable.tableInserts Elem.key H.erase es = some (H', olds) →
    Owns (es.flatMap Elem.blocks ++ (H.blocks ++ pre)) (tableInserts H es) fun r own =>
      r.1.erase = H' ∧ r.2 = olds ∧ own.Perm (r.1.blocks ++ (olds.flatMap oldBlocks ++ pre)) := by
  induction es with
  | nil =>
    intro H H' olds pre h
    obtain ⟨rfl, rfl⟩ := Prod.mk.inj (Option.some.inj h)
    exact .pure ⟨rfl, rfl, .refl _⟩
  | cons e es ih =>
    intro H H' olds pre h
    rw [Hashtable.tableInserts] at h
    obtain ⟨⟨H₁, old⟩, hinsert, hrest⟩ := Option.bind_eq_some_iff.mp h
    obtain ⟨⟨H₂, olds'⟩, hmore, heq⟩ := Option.map_eq_some_iff.mp hrest
    obtain ⟨rfl, rfl⟩ := Prod.mk.inj heq
    have hown : ((e :: es).flatMap Elem.blocks ++ (H.blocks ++ pre)).Perm
        (e.blocks ++ (H.blocks ++ (es.flatMap Elem.blocks ++ pre))) := by
      rw [List.flatMap_cons, List.append_assoc]
      refine .append_left _ ?_
      rw [← List.append_assoc, ← List.append_assoc]
      exact List.perm_append_comm.append_right pre
    rw [tableInserts]
    apply ((owns_tableInsert hinsert _).perm hown).bind
    rintro ⟨H₁', old'⟩ own ⟨herase, hold, hown⟩
    dsimp only at herase hold hown ⊢
    subst herase hold
    have hown' : own.Perm (es.flatMap Elem.blocks ++ (H₁'.blocks ++ (oldBlocks old' ++ pre))) := by
      refine hown.trans (List.perm_iff_count.mpr fun x => ?_)
      simp only [List.count_append]
      omega
    apply ((ih _ hmore).perm hown').bind
    rintro ⟨H₂', olds''⟩ own ⟨herase, hold, hown⟩
    dsimp only at herase hold hown ⊢
    subst herase hold
    refine .pure ⟨rfl, rfl, hown.trans (List.perm_iff_count.mpr fun x => ?_)⟩
    simp only [List.flatMap_cons, List.count_append]
    omega

/-! ## The life of a table -/

/-- A table is made, filled and freed, and the caller keeps what `table_insert` returned. -/
def tableLife (m : Int32) (es : List Elem) : Prog (List (Option Elem)) := do
  let H ← tableNew m
  let r ← tableInserts H es
  tableFree r.1
  return r.2

theorem owns_tableNew (m : Int32) (pre : List Nat) :
    Owns pre (tableNew m) fun H own =>
      H.erase = Hashtable.tableNew Elem m ∧ own.Perm (H.blocks ++ pre) := by
  apply (Owns.malloc pre).bind
  rintro A own rfl
  apply (Owns.malloc _).bind
  rintro H own rfl
  have hblocks (n : Nat) : (List.replicate n (none : Option Chain)).flatMap slotBlocks = [] := by
    rw [List.flatMap_eq_nil_iff]
    intro C hC
    rw [List.eq_of_mem_replicate hC]
    rfl
  refine .pure ⟨?_, ?_⟩
  · rw [MemTable.erase, Hashtable.tableNew, List.map_replicate]
    rfl
  · rw [MemTable.blocks, hblocks]
    exact List.Perm.swap A H pre

/-- **`table_free` frees the table with the elements that are in it in the end, each block
once, and leaves those alone that an insertion has displaced.** -/
theorem tableLife_leaves (m : Int32) (hm : 1 < m) (es : List Elem) {others : List Nat} (mem : Mem)
    (hmem : mem.live.Perm (es.flatMap Elem.blocks ++ others)) :
    ∃ olds mem', tableLife m es mem = some (olds, mem') ∧
      (∀ i e, es[i]? = some e →
        olds[i]? = some (Lib.KeyedList.latest Elem.key e.key (es.take i))) ∧
      mem'.live.Perm (olds.flatMap oldBlocks ++ others) := by
  have hpos : 0 < m := Int32.lt_trans (by decide) hm
  obtain ⟨H, olds, hinserts, -, -, holds⟩ :=
    Table.Holds.inserts hpos es Table.Holds.new
  have howns : Owns (es.flatMap Elem.blocks) (tableLife m es) fun r own =>
      r = olds ∧ own.Perm (olds.flatMap oldBlocks) := by
    apply (owns_tableNew m _).bind
    rintro H₀ own ⟨herase, hown⟩
    rw [← herase] at hinserts
    have hown' : own.Perm (es.flatMap Elem.blocks ++ (H₀.blocks ++ [])) := by
      rw [List.append_nil]
      exact hown.trans List.perm_append_comm
    apply ((owns_tableInserts es [] hinserts).perm hown').bind
    rintro ⟨H₁, olds'⟩ own ⟨-, rfl, hown⟩
    rw [List.append_nil] at hown
    apply ((owns_tableFree H₁ _).perm hown).bind
    rintro _ own rfl
    exact .pure ⟨rfl, .refl _⟩
  obtain ⟨r, mem', own, hrun, hmem', rfl, hown⟩ := howns mem others hmem
  refine ⟨r, mem', hrun, fun i e hi => ?_, hmem'.trans (hown.append_right others)⟩
  rw [holds i e hi, List.nil_append]

theorem zero_notMem_a : (0 : UInt8) ∉ [97] := by decide

theorem zero_notMem_b : (0 : UInt8) ∉ [98] := by decide

/-- Two elements with the key `a`, the first of them without an `info`, and one with `b`. -/
def sharedKey : List Elem :=
  [⟨0, 1, none, ⟨[97], zero_notMem_a⟩⟩, ⟨2, 3, some 4, ⟨[98], zero_notMem_b⟩⟩,
    ⟨5, 6, some 7, ⟨[97], zero_notMem_a⟩⟩]

/-- Their blocks, and one of somebody else. -/
def sharedKeyMem : Mem := ⟨[8, 7, 6, 5, 4, 3, 2, 1, 0], 9, by decide, by decide⟩

/-- The third insertion hands back the first element, which stays allocated. -/
theorem tableLife_leaves_sharedKey :
    ∃ olds mem', tableLife 2 sharedKey sharedKeyMem = some (olds, mem') ∧
      olds[2]? = some sharedKey[0]? ∧ mem'.live.Perm (olds.flatMap oldBlocks ++ [8]) := by
  have hmem : sharedKeyMem.live.Perm (sharedKey.flatMap Elem.blocks ++ [8]) := by decide
  obtain ⟨olds, mem', hrun, holds, hlive⟩ :=
    tableLife_leaves 2 (by decide) sharedKey sharedKeyMem hmem
  exact ⟨olds, mem', hrun, holds 2 _ rfl, hlive⟩

end WowProxy.HashtableMem
