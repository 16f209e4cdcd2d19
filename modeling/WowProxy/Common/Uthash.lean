/-
  Common/Uthash.lean --- the hash tables of `common/uthash/uthash.h`.

  The elements are on a heap with their `UT_hash_handle`, whose key is the field of the
  element it points to.  All handles of a table point to the same `UT_hash_table`, which
  is kept beside the heap and is there from the first element to the last.  `none` is an
  access to what is not allocated, a division by zero, or a chain without an end.  The
  counts are natural numbers, which are those of the source as long as `Table.InUnsigned`
  holds.  Every `malloc` succeeds, and there is no `HASH_BLOOM`.
-/
import Mathlib.Algebra.GroupWithZero.Nat
import WowProxy.Lib.LinkSplice

set_option autoImplicit false

namespace WowProxy

open WowProxy.Lib.LinkedList

namespace Uthash

/-! ## Memory -/

/-- What a table keeps of an element: the key, the rest of the element, and `hashv`. -/
structure Item (κ α : Type) where
  key : κ
  value : α
  hashv : UInt32
  deriving DecidableEq

/-- An element with the links of its `UT_hash_handle`. -/
structure Elem (κ α : Type) extends Item κ α where
  prev : Option Nat
  next : Option Nat
  hhPrev : Option Nat
  hhNext : Option Nat
  deriving DecidableEq

/-- `UT_hash_bucket` -/
structure Bucket where
  hhHead : Option Nat
  count : Nat
  expandMult : Nat
  deriving DecidableEq

/-- `UT_hash_table`, with the array of its buckets. -/
structure Table where
  buckets : List Bucket
  numBuckets : Nat
  log2NumBuckets : Nat
  numItems : Nat
  tail : Nat
  idealChainMaxlen : Nat
  nonidealItems : Nat
  ineffExpands : Nat
  noexpand : Bool
  deriving DecidableEq

/-- The elements that are allocated, by address. -/
abbrev Heap (κ α : Type) : Type := Nat → Option (Elem κ α)

/-- The pointer `head` with what it leads to. -/
structure Hash (κ α : Type) where
  heap : Heap κ α
  head : Option Nat
  tbl : Option Table

variable {κ α : Type}

/-- The memory before anything is allocated. -/
def Hash.empty : Hash κ α := ⟨fun _ => none, none, none⟩

/-- `(head)->hh.tbl` -/
def Hash.table (s : Hash κ α) : Option Table := do
  let head ← s.head
  let _ ← s.heap head
  s.tbl

def setNext (v : Option Nat) (e : Elem κ α) : Elem κ α := { e with next := v }

def setPrev (v : Option Nat) (e : Elem κ α) : Elem κ α := { e with prev := v }

def setHhNext (v : Option Nat) (e : Elem κ α) : Elem κ α := { e with hhNext := v }

def setHhPrev (v : Option Nat) (e : Elem κ α) : Elem κ α := { e with hhPrev := v }

/-- An element in application order. -/
def appCell (e : Elem κ α) : Cell (Item κ α) := ⟨e.toItem, e.prev, e.next⟩

/-- An element in the order of its bucket. -/
def hhCell (e : Elem κ α) : Cell (Item κ α) := ⟨e.toItem, e.hhPrev, e.hhNext⟩

/-! ## Buckets -/

/-- `HASH_TO_BKT(hashv, num_bkts, bkt)` -/
def hashToBkt (hashv : UInt32) (numBkts : Nat) : Nat := hashv.toNat &&& (numBkts - 1)

/-- An element becomes the first of a chain, as in `HASH_ADD_TO_BKT` and in
`HASH_EXPAND_BUCKETS`. -/
def linkFirst (heap : Heap κ α) (p : Nat) (hhHead : Option Nat) : Option (Heap κ α) := do
  let heap ← modify (fun e => { e with hhPrev := none, hhNext := hhHead }) heap (some p)
  modify (setHhPrev (some p)) heap hhHead

/-- What the loops of `HASH_EXPAND_BUCKETS` write. -/
structure Expansion (κ α : Type) where
  heap : Heap κ α
  newBuckets : List Bucket
  nonidealItems : Nat

/-- `nonideal_items` and `expand_mult` behind a move into a bucket that then has `count`
elements. -/
def countMove (idealChainMaxlen count nonidealItems expandMult : Nat) : Option (Nat × Nat) :=
  if count ≤ idealChainMaxlen then some (nonidealItems, expandMult)
  else if idealChainMaxlen = 0 then none
  else some (nonidealItems + 1, count / idealChainMaxlen)

/-- An element moves to its new bucket. -/
def moveItem (newNumBuckets idealChainMaxlen : Nat) (st : Expansion κ α) (thh : Nat) :
    Option (Expansion κ α) := do
  let e ← st.heap thh
  let bkt := hashToBkt e.hashv newNumBuckets
  let newbkt ← st.newBuckets[bkt]?
  let count := newbkt.count + 1
  let counts ← countMove idealChainMaxlen count st.nonidealItems newbkt.expandMult
  let heap ← linkFirst st.heap thh newbkt.hhHead
  return ⟨heap, st.newBuckets.set bkt ⟨some thh, count, counts.2⟩, counts.1⟩

/-- The inner loop, which reads `hh_next` before it moves the element. -/
def moveChain (newNumBuckets idealChainMaxlen : Nat) :
    Nat → Option Nat → Expansion κ α → Option (Expansion κ α)
  | _, none, st => some st
  | 0, some _, _ => none
  | fuel + 1, some thh, st => do
    let e ← st.heap thh
    let st ← moveItem newNumBuckets idealChainMaxlen st thh
    moveChain newNumBuckets idealChainMaxlen fuel e.hhNext st

/-- `ideal_chain_maxlen` for twice the buckets. -/
def Table.newIdealChainMaxlen (tbl : Table) : Nat :=
  (tbl.numItems >>> (tbl.log2NumBuckets + 1)) +
    if tbl.numItems &&& (tbl.numBuckets * 2 - 1) ≠ 0 then 1 else 0

/-- The table behind the loops. -/
def Table.expanded (tbl : Table) (st : Expansion κ α) : Table :=
  let ineffExpands := if st.nonidealItems > tbl.numItems >>> 1 then tbl.ineffExpands + 1 else 0
  { tbl with
    buckets := st.newBuckets
    numBuckets := tbl.numBuckets * 2
    log2NumBuckets := tbl.log2NumBuckets + 1
    idealChainMaxlen := tbl.newIdealChainMaxlen
    nonidealItems := st.nonidealItems
    ineffExpands
    noexpand := tbl.noexpand || decide (ineffExpands > 1) }

/-- `HASH_EXPAND_BUCKETS` -/
def expandBuckets (heap : Heap κ α) (tbl : Table) : Option (Heap κ α × Table) := do
  let newNumBuckets := tbl.numBuckets * 2
  let st ← tbl.buckets.foldlM
    (fun st bucket =>
      moveChain newNumBuckets tbl.newIdealChainMaxlen tbl.numItems bucket.hhHead st)
    ⟨heap, List.replicate newNumBuckets ⟨none, 0, 0⟩, 0⟩
  return (st.heap, tbl.expanded st)

/-- `HASH_BKT_CAPACITY_THRESH` -/
def bktCapacityThresh : Nat := 10

/-- `HASH_ADD_TO_BKT` -/
def addToBkt (heap : Heap κ α) (tbl : Table) (bkt p : Nat) : Option (Heap κ α × Table) := do
  let head ← tbl.buckets[bkt]?
  let count := head.count + 1
  let heap ← linkFirst heap p head.hhHead
  let tbl := { tbl with buckets := tbl.buckets.set bkt { head with hhHead := some p, count } }
  if count ≥ (head.expandMult + 1) * bktCapacityThresh ∧ tbl.noexpand = false then
    expandBuckets heap tbl
  else return (heap, tbl)

/-- `HASH_DEL_IN_BKT` -/
def delInBkt (heap : Heap κ α) (tbl : Table) (bkt del : Nat) : Option (Heap κ α × Table) := do
  let head ← tbl.buckets[bkt]?
  let e ← heap del
  let hhHead := if head.hhHead = some del then e.hhNext else head.hhHead
  let heap ← modify (setHhNext e.hhNext) heap e.hhPrev
  let heap ← modify (setHhPrev e.hhPrev) heap e.hhNext
  return (heap,
    { tbl with buckets := tbl.buckets.set bkt { head with hhHead, count := head.count - 1 } })

/-- `HASH_FIND_IN_BKT`, from `out` on. -/
def findInBkt [DecidableEq κ] (heap : Heap κ α) (hashv : UInt32) (key : κ) :
    Nat → Option Nat → Option (Option Nat)
  | _, none => some none
  | 0, some _ => none
  | fuel + 1, some out => do
    let e ← heap out
    if e.hashv = hashv ∧ e.key = key then return some out
    else findInBkt heap hashv key fuel e.hhNext

/-! ## `HASH_JEN` -/

/-- `HASH_JEN_MIX(a, b, c)` -/
def hashJenMix (a b c : UInt32) : UInt32 × UInt32 × UInt32 :=
  let a := (a - b - c) ^^^ (c >>> 13)
  let b := (b - c - a) ^^^ (a <<< 8)
  let c := (c - a - b) ^^^ (b >>> 13)
  let a := (a - b - c) ^^^ (c >>> 12)
  let b := (b - c - a) ^^^ (a <<< 16)
  let c := (c - a - b) ^^^ (b >>> 5)
  let a := (a - b - c) ^^^ (c >>> 3)
  let b := (b - c - a) ^^^ (a <<< 10)
  let c := (c - a - b) ^^^ (b >>> 15)
  (a, b, c)

/-- `_hj_key[i]`; the `switch` adds nothing for a byte behind the last. -/
def keyByte (key : List UInt8) (i : Nat) : UInt32 := (key.getD i 0).toUInt32

/-- Four bytes of the key. -/
def keyWord (key : List UInt8) (i : Nat) : UInt32 :=
  keyByte key i + (keyByte key (i + 1) <<< 8) + (keyByte key (i + 2) <<< 16) +
    (keyByte key (i + 3) <<< 24)

/-- `HASH_JEN`, from `key` on. -/
def hashJenFrom (keylen : UInt32) (key : List UInt8) (i j hashv : UInt32) : UInt32 :=
  if 12 ≤ key.length then
    let mixed := hashJenMix (i + keyWord key 0) (j + keyWord key 4) (hashv + keyWord key 8)
    hashJenFrom keylen (key.drop 12) mixed.1 mixed.2.1 mixed.2.2
  else
    -- The lowest byte of `hashv` is kept for the length.
    let last := (keyByte key 8 <<< 8) + (keyByte key 9 <<< 16) + (keyByte key 10 <<< 24)
    (hashJenMix (i + keyWord key 0) (j + keyWord key 4) (hashv + keylen + last)).2.2
  termination_by key.length
  decreasing_by rw [List.length_drop]; omega

/-- `HASH_JEN` -/
def hashJen (key : List UInt8) : UInt32 :=
  hashJenFrom key.length.toUInt32 key 0x9e3779b9 0x9e3779b9 0xfeedbeef

/-! ## The table -/

/-- `HASH_MAKE_TABLE`, for the first element. -/
def makeTable (p : Nat) : Table where
  buckets := List.replicate 32 ⟨none, 0, 0⟩
  numBuckets := 32
  log2NumBuckets := 5
  numItems := 0
  tail := p
  idealChainMaxlen := 0
  nonidealItems := 0
  ineffExpands := 0
  noexpand := false

/-- `HASH_APPEND_LIST` -/
def appendList (heap : Heap κ α) (tbl : Table) (p : Nat) : Option (Heap κ α × Table) := do
  let heap ← modify (fun e => { e with next := none, prev := some tbl.tail }) heap (some p)
  let heap ← modify (setNext (some p)) heap (some tbl.tail)
  return (heap, { tbl with tail := p })

/-- `HASH_ADD_TO_TABLE` -/
def addToTable (heap : Heap κ α) (tbl : Table) (hashv : UInt32) (p : Nat) :
    Option (Heap κ α × Table) :=
  let tbl := { tbl with numItems := tbl.numItems + 1 }
  addToBkt heap tbl (hashToBkt hashv tbl.numBuckets) p

/-- `HASH_ADD` of an element whose key is set, with the hash function `HASH_FCN`. -/
def add (hashFcn : κ → UInt32) (s : Hash κ α) (p : Nat) : Option (Hash κ α) := do
  let e ← s.heap p
  let hashv := hashFcn e.key
  let heap ← modify (fun e => { e with hashv }) s.heap (some p)
  match s.head with
  | none =>
    let heap ← modify (fun e => { e with next := none, prev := none }) heap (some p)
    let (heap, tbl) ← addToTable heap (makeTable p) hashv p
    return ⟨heap, some p, some tbl⟩
  | some head =>
    let tbl ← s.table
    let (heap, tbl) ← appendList heap tbl p
    let (heap, tbl) ← addToTable heap tbl hashv p
    return ⟨heap, some head, some tbl⟩

/-- `HASH_FIND` -/
def find [DecidableEq κ] (hashFcn : κ → UInt32) (s : Hash κ α) (key : κ) :
    Option (Option Nat) :=
  match s.head with
  | none => some none
  | some _ => do
    let tbl ← s.table
    let hashv := hashFcn key
    let bucket ← tbl.buckets[hashToBkt hashv tbl.numBuckets]?
    findInBkt s.heap hashv key tbl.numItems bucket.hhHead

/-- `tail` without `del`, the link of which leads back to `prev`. -/
def Table.newTail (tbl : Table) (del : Nat) (prev : Option Nat) : Option Nat :=
  if del = tbl.tail then prev else some tbl.tail

/-- `HASH_DELETE` -/
def delete (s : Hash κ α) (del : Nat) : Option (Hash κ α) := do
  let e ← s.heap del
  let tbl ← s.table
  if e.prev = none ∧ e.next = none then return { s with head := none, tbl := none }
  else
    let tail ← tbl.newTail del e.prev
    let heap ← modify (setNext e.next) s.heap e.prev
    let head := if e.prev = none then e.next else s.head
    let heap ← modify (setPrev e.prev) heap e.next
    let (heap, tbl) ← delInBkt heap { tbl with tail } (hashToBkt e.hashv tbl.numBuckets) del
    return ⟨heap, head, some { tbl with numItems := tbl.numItems - 1 }⟩

/-- No count of the table reaches 2^32, nor does what is computed of them.  In the source
`num_buckets` would be 0 behind the twenty-seventh expansion. -/
structure Table.InUnsigned (tbl : Table) : Prop where
  numBuckets : tbl.numBuckets < 2 ^ 32
  log2NumBuckets : tbl.log2NumBuckets < 2 ^ 32
  numItems : tbl.numItems < 2 ^ 32
  idealChainMaxlen : tbl.idealChainMaxlen < 2 ^ 32
  nonidealItems : tbl.nonidealItems < 2 ^ 32
  ineffExpands : tbl.ineffExpands < 2 ^ 32
  count : ∀ b ∈ tbl.buckets, b.count < 2 ^ 32
  /-- the count from which on a bucket makes the table expand -/
  thresh : ∀ b ∈ tbl.buckets, (b.expandMult + 1) * bktCapacityThresh < 2 ^ 32

/-! ## `HASH_FSCK` -/

/-- A loop of `HASH_FSCK` along the forward links: it counts, and fails where a link back
does not lead to the element before. -/
def fsckWalk {β : Type} (h : Nat → Option (Cell β)) : Nat → Option Nat → Option Nat → Option Nat
  | _, _, none => some 0
  | 0, _, some _ => none
  | fuel + 1, prev, some thh => do
    let c ← h thh
    if c.prev ≠ prev then none
    else
      let count ← fsckWalk h fuel (some thh) c.next
      return count + 1

/-- `HASH_FSCK`: whether it comes to its end without `HASH_OOPS`. -/
def fsck (s : Hash κ α) : Bool :=
  match s.head with
  | none => true
  | some head =>
    match s.table with
    | none => false
    | some tbl =>
      let bucketCounts := tbl.buckets.map fun bucket =>
        (fsckWalk (view hhCell s.heap) tbl.numItems none bucket.hhHead).filter (· = bucket.count)
      bucketCounts.all Option.isSome &&
        (bucketCounts.map fun count => count.getD 0).sum == tbl.numItems &&
        fsckWalk (view appCell s.heap) tbl.numItems none (some head) == some tbl.numItems

end Uthash

end WowProxy
