/-
  Common/UthashBuckets.lean --- the chains behind the buckets of a table.

  `Buckets` says that the buckets of an array hold the chains of a list, every element in
  the chain its hash leads to.  Each macro that writes buckets keeps it; the list in
  application order sees none of that.
-/
import Mathlib.Data.List.Forall2
import WowProxy.Common.Uthash

set_option autoImplicit false

namespace WowProxy.Uthash

open WowProxy.Lib.LinkedList

variable {κ α : Type}

/-! ## What the lists see -/

/-- The item of an element. -/
def itemOf (heap : Heap κ α) (p : Nat) : Option (Item κ α) := (heap p).map Elem.toItem

theorem itemOf_of_live {heap : Heap κ α} {p : Nat} {e : Elem κ α} (he : heap p = some e) :
    itemOf heap p = some e.toItem := by
  rw [itemOf, he, Option.map_some]

theorem live_of_itemOf {heap : Heap κ α} {p : Nat} {i : Item κ α} (hi : itemOf heap p = some i) :
    ∃ e, heap p = some e ∧ e.toItem = i :=
  Option.map_eq_some_iff.mp hi

/-- What is in an element shows in both of its cells. -/
theorem itemOf_eq_app (heap : Heap κ α) (p : Nat) :
    itemOf heap p = (view appCell heap p).map Cell.value := by
  rw [itemOf, view, Option.map_map]
  rfl

theorem itemOf_eq_hh (heap : Heap κ α) (p : Nat) :
    itemOf heap p = (view hhCell heap p).map Cell.value := by
  rw [itemOf, view, Option.map_map]
  rfl

theorem itemOf_congr_app {heap heap' : Heap κ α} (h : view appCell heap' = view appCell heap) :
    itemOf heap' = itemOf heap := by
  funext p
  rw [itemOf_eq_app, h, ← itemOf_eq_app]

theorem itemOf_congr_hh {heap heap' : Heap κ α} (h : view hhCell heap' = view hhCell heap) :
    itemOf heap' = itemOf heap := by
  funext p
  rw [itemOf_eq_hh, h, ← itemOf_eq_hh]

theorem app_setHhNext (v : Option Nat) (e : Elem κ α) : appCell (setHhNext v e) = appCell e := rfl

theorem app_setHhPrev (v : Option Nat) (e : Elem κ α) : appCell (setHhPrev v e) = appCell e := rfl

theorem hh_setNext (v : Option Nat) (e : Elem κ α) : hhCell (setNext v e) = hhCell e := rfl

theorem hh_setPrev (v : Option Nat) (e : Elem κ α) : hhCell (setPrev v e) = hhCell e := rfl

theorem hashToBkt_lt (hashv : UInt32) {numBkts : Nat} (h : 0 < numBkts) :
    hashToBkt hashv numBkts < numBkts :=
  Nat.lt_of_le_of_lt Nat.and_le_right (Nat.sub_lt h Nat.one_pos)

/-! ## The buckets of an array -/

/-- The buckets hold the chains. -/
structure Buckets (heap : Heap κ α) (buckets : List Bucket) (chains : List (List Nat)) :
    Prop where
  length_eq : chains.length = buckets.length
  bucket : ∀ (i : Nat) (b : Bucket) (c : List Nat), buckets[i]? = some b → chains[i]? = some c →
    b.hhHead = c.head? ∧ b.count = c.length ∧ Chain (view hhCell heap) none c
  placed : ∀ (i : Nat) (c : List Nat), chains[i]? = some c → ∀ p ∈ c,
    ∃ item, itemOf heap p = some item ∧ hashToBkt item.hashv buckets.length = i
  nodup : ∀ c ∈ chains, c.Nodup

/-- Buckets without elements. -/
theorem Buckets.replicate (heap : Heap κ α) (n : Nat) :
    Buckets heap (List.replicate n ⟨none, 0, 0⟩) (List.replicate n []) := by
  have hnil : ∀ c ∈ List.replicate n ([] : List Nat), c = [] :=
    fun c hc => List.eq_of_mem_replicate hc
  refine ⟨by rw [List.length_replicate, List.length_replicate], ?_, ?_, ?_⟩
  · intro i b c hb hc
    obtain rfl := List.eq_of_mem_replicate (List.mem_of_getElem? hb)
    obtain rfl := hnil c (List.mem_of_getElem? hc)
    exact ⟨rfl, rfl, trivial⟩
  · intro i c hc p hp
    obtain rfl := hnil c (List.mem_of_getElem? hc)
    exact absurd hp List.not_mem_nil
  · intro c hc
    rw [hnil c hc]
    exact List.nodup_nil

/-- Only the elements in the buckets matter. -/
theorem Buckets.congr {heap heap' : Heap κ α} {buckets : List Bucket} {chains : List (List Nat)}
    (hb : Buckets heap buckets chains)
    (h : ∀ p ∈ chains.flatten, view hhCell heap' p = view hhCell heap p) :
    Buckets heap' buckets chains := by
  have hmem : ∀ {i : Nat} {c : List Nat}, chains[i]? = some c → ∀ p ∈ c, p ∈ chains.flatten :=
    fun hc p hp => List.mem_flatten.mpr ⟨_, List.mem_of_getElem? hc, hp⟩
  refine ⟨hb.length_eq, fun i b c hbucket hc => ?_, fun i c hc p hp => ?_, hb.nodup⟩
  · obtain ⟨hhead, hcount, hchain⟩ := hb.bucket i b c hbucket hc
    exact ⟨hhead, hcount, hchain.congr fun p hp => h p (hmem hc p hp)⟩
  · rw [itemOf_eq_hh, h p (hmem hc p hp), ← itemOf_eq_hh]
    exact hb.placed i c hc p hp

/-- The chain an index leads to. -/
theorem Buckets.chain {heap : Heap κ α} {buckets : List Bucket} {chains : List (List Nat)}
    (hb : Buckets heap buckets chains) {i : Nat} (hi : i < buckets.length) :
    ∃ b c, buckets[i]? = some b ∧ chains[i]? = some c :=
  ⟨_, _, List.getElem?_eq_getElem hi, List.getElem?_eq_getElem (hb.length_eq ▸ hi)⟩

/-- Another chain has other elements. -/
theorem Buckets.apart {heap : Heap κ α} {buckets : List Bucket} {chains : List (List Nat)}
    (hb : Buckets heap buckets chains) {i j : Nat} {c d : List Nat} (hc : chains[i]? = some c)
    (hd : chains[j]? = some d) (hij : i ≠ j) {p : Nat} (hp : p ∈ c) : p ∉ d := by
  intro hmem
  obtain ⟨item, hitem, hi⟩ := hb.placed i c hc p hp
  obtain ⟨item', hitem', hj⟩ := hb.placed j d hd p hmem
  obtain rfl := Option.some.inj (hitem.symm.trans hitem')
  exact hij (hi.symm.trans hj)

/-- One bucket and its chain are written. -/
theorem Buckets.set {heap heap' : Heap κ α} {buckets : List Bucket} {chains : List (List Nat)}
    (hb : Buckets heap buckets chains) {i : Nat} {b : Bucket} {c d : List Nat}
    (hc : chains[i]? = some c) (hitem : itemOf heap' = itemOf heap) (hd : d.Nodup)
    (hhead : b.hhHead = d.head?) (hcount : b.count = d.length)
    (hchain : Chain (view hhCell heap') none d)
    (hplaced : ∀ p ∈ d,
      ∃ item, itemOf heap p = some item ∧ hashToBkt item.hashv buckets.length = i)
    (hframe : ∀ j c', chains[j]? = some c' → j ≠ i → ∀ q ∈ c',
      view hhCell heap' q = view hhCell heap q) :
    Buckets heap' (buckets.set i b) (chains.set i d) := by
  have hlt : i < chains.length := (List.getElem?_eq_some_iff.mp hc).1
  refine ⟨by rw [List.length_set, List.length_set, hb.length_eq], ?_, ?_, ?_⟩
  · intro j b' c' hb' hc'
    by_cases hij : i = j
    · subst hij
      rw [List.getElem?_set_self hlt] at hc'
      rw [List.getElem?_set_self (hb.length_eq ▸ hlt)] at hb'
      obtain rfl := Option.some.inj hc'
      obtain rfl := Option.some.inj hb'
      exact ⟨hhead, hcount, hchain⟩
    · rw [List.getElem?_set_ne hij] at hc' hb'
      obtain ⟨hhead', hcount', hchain'⟩ := hb.bucket j b' c' hb' hc'
      exact ⟨hhead', hcount', hchain'.congr (hframe j c' hc' (Ne.symm hij))⟩
  · intro j c' hc' p hp
    rw [hitem, List.length_set]
    by_cases hij : i = j
    · subst hij
      rw [List.getElem?_set_self hlt] at hc'
      obtain rfl := Option.some.inj hc'
      exact hplaced p hp
    · rw [List.getElem?_set_ne hij] at hc'
      exact hb.placed j c' hc' p hp
  · intro c' hc'
    rcases List.mem_or_eq_of_mem_set hc' with hmem | rfl
    · exact hb.nodup c' hmem
    · exact hd

theorem perm_flatten_set {chains : List (List Nat)} {i : Nat} {c d : List Nat}
    (hc : chains[i]? = some c) :
    ∃ others : List Nat, chains.flatten.Perm (c ++ others) ∧
      (chains.set i d).flatten.Perm (d ++ others) := by
  obtain ⟨hlt, rfl⟩ := List.getElem?_eq_some_iff.mp hc
  refine ⟨(chains.take i).flatten ++ (chains.drop (i + 1)).flatten, ?_, ?_⟩
  · conv_lhs => rw [← List.take_append_drop i chains, List.drop_eq_getElem_cons hlt]
    rw [List.flatten_append, List.flatten_cons, ← List.append_assoc, ← List.append_assoc]
    exact List.perm_append_comm.append_right _
  · rw [List.set_eq_take_append_cons_drop, if_pos hlt, List.flatten_append, List.flatten_cons,
      ← List.append_assoc, ← List.append_assoc]
    exact List.perm_append_comm.append_right _

/-- A bucket has no more elements than there are. -/
theorem Buckets.count_le {heap : Heap κ α} {buckets : List Bucket} {chains : List (List Nat)}
    (hb : Buckets heap buckets chains) {i : Nat} {b : Bucket} (hbucket : buckets[i]? = some b) :
    b.count ≤ chains.flatten.length := by
  obtain ⟨hlt, -⟩ := List.getElem?_eq_some_iff.mp hbucket
  obtain ⟨_, c, -, hc⟩ := hb.chain hlt
  rw [(hb.bucket i b c hbucket hc).2.1]
  exact (List.sublist_flatten_of_mem (List.mem_of_getElem? hc)).length_le

/-! ## The counts that no list sees -/

/-- What a table counts besides its elements and buckets, with `n` elements at most. -/
structure Table.Counted (tbl : Table) (n : Nat) : Prop where
  ideal : tbl.idealChainMaxlen ≤ n + 1
  nonideal : tbl.nonidealItems ≤ n
  mult : ∀ b ∈ tbl.buckets, b.expandMult ≤ n
  ineff : tbl.ineffExpands ≤ 2
  /-- until the table no longer expands -/
  ineff_of_expands : tbl.noexpand = false → tbl.ineffExpands ≤ 1

/-- What an operation may do to the number of the buckets and to these counts. -/
structure Table.Grows (tbl tbl' : Table) : Prop where
  numBuckets_le : tbl'.numBuckets ≤ 2 * tbl.numBuckets
  counted : ∀ n, tbl'.numItems ≤ n → tbl.Counted n → tbl'.Counted n

theorem Table.Counted.makeTable (p n : Nat) : (makeTable p).Counted n where
  ideal := Nat.zero_le _
  nonideal := Nat.zero_le _
  mult := fun b hb => by
    rw [List.eq_of_mem_replicate hb]
    exact Nat.zero_le n
  ineff := Nat.zero_le _
  ineff_of_expands := fun _ => Nat.zero_le _

/-- One bucket is written, its `expand_mult` not. -/
theorem Table.Counted.set {tbl : Table} {n i : Nat} {b : Bucket} (hc : tbl.Counted n)
    (hbucket : tbl.buckets[i]? = some b) (b' : Bucket) (hmult : b'.expandMult = b.expandMult) :
    ({ tbl with buckets := tbl.buckets.set i b' } : Table).Counted n := by
  refine { hc with mult := fun a ha => ?_ }
  rcases List.mem_or_eq_of_mem_set ha with ha | rfl
  · exact hc.mult a ha
  · rw [hmult]
    exact hc.mult b (List.mem_of_getElem? hbucket)

theorem countMove_le {idealChainMaxlen count nonidealItems expandMult : Nat} {counts : Nat × Nat}
    (h : countMove idealChainMaxlen count nonidealItems expandMult = some counts) :
    counts.1 ≤ nonidealItems + 1 ∧ counts.2 ≤ max count expandMult := by
  unfold countMove at h
  split at h
  · obtain rfl := Option.some.inj h
    exact ⟨Nat.le_succ _, Nat.le_max_right _ _⟩
  · split at h
    · exact absurd h (by simp)
    · obtain rfl := Option.some.inj h
      exact ⟨Nat.le_refl _, Nat.le_trans (Nat.div_le_self _ _) (Nat.le_max_left _ _)⟩

/-! ## Linking and unlinking in a bucket -/

theorem linkFirst_view {heap : Heap κ α} {p : Nat} {e : Elem κ α} (he : heap p = some e)
    {hhHead : Option Nat} {k : Lib.LinkedList.Heap (Item κ α)}
    (hk : modify (Cell.setPrev (some p)) ((view hhCell heap).write p ⟨e.toItem, none, hhHead⟩)
      hhHead = some k) :
    ∃ heap', linkFirst heap p hhHead = some heap' ∧ view hhCell heap' = k ∧
      view appCell heap' = view appCell heap := by
  let e' : Elem κ α := { e with hhPrev := none, hhNext := hhHead }
  have hfirst : modify (fun e : Elem κ α => { e with hhPrev := none, hhNext := hhHead }) heap
      (some p) = some (Function.update heap p (some e')) := modify_of_live _ he
  rw [show (view hhCell heap).write p ⟨e.toItem, none, hhHead⟩ =
    view hhCell (Function.update heap p (some e')) from (view_update hhCell heap p e').symm] at hk
  obtain ⟨heap', hheap', hview, happ⟩ := modify_view (f := setHhPrev (some p))
    (fun _ => rfl) (app_setHhPrev (some p)) hk
  refine ⟨heap', ?_, hview, happ.trans (view_update_same he rfl)⟩
  rw [linkFirst, hfirst, Option.bind_eq_bind, Option.bind_some, hheap']

/-- An element is linked into its bucket. -/
theorem Buckets.linkFirst {heap : Heap κ α} {buckets : List Bucket} {chains : List (List Nat)}
    (hb : Buckets heap buckets chains) {p : Nat} {e : Elem κ α} (he : heap p = some e)
    (hp : p ∉ chains.flatten) {b : Bucket}
    (hbucket : buckets[hashToBkt e.hashv buckets.length]? = some b) (expandMult : Nat) :
    ∃ heap' chains', Uthash.linkFirst heap p b.hhHead = some heap' ∧
      Buckets heap' (buckets.set (hashToBkt e.hashv buckets.length)
        ⟨some p, b.count + 1, expandMult⟩) chains' ∧
      chains'.flatten.Perm (p :: chains.flatten) ∧ view appCell heap' = view appCell heap ∧
      ∀ q, q ∉ p :: chains.flatten → view hhCell heap' q = view hhCell heap q := by
  have hlt : hashToBkt e.hashv buckets.length < buckets.length :=
    (List.getElem?_eq_some_iff.mp hbucket).1
  obtain ⟨_, c, _, hc⟩ := hb.chain hlt
  obtain ⟨hhead, hcount, hchain⟩ := hb.bucket _ b c hbucket hc
  have hmem : ∀ {j : Nat} {d : List Nat}, chains[j]? = some d → ∀ q ∈ d, q ∈ chains.flatten :=
    fun hd q hq => List.mem_flatten.mpr ⟨_, List.mem_of_getElem? hd, hq⟩
  have hpc : p ∉ c := fun h => hp (hmem hc p h)
  have hcnodup : c.Nodup := hb.nodup c (List.mem_of_getElem? hc)
  obtain ⟨k, hk, hchain', hframe⟩ := hchain.push hcnodup hpc e.toItem
  rw [← hhead] at hk
  obtain ⟨heap', hheap', rfl, happ⟩ := linkFirst_view he hk
  obtain ⟨others, hold, hnew⟩ := perm_flatten_set (d := p :: c) hc
  refine ⟨heap', _, hheap', hb.set hc (itemOf_congr_app happ) (List.nodup_cons.mpr ⟨hpc, hcnodup⟩)
    rfl (congrArg (· + 1) hcount) hchain' ?_ ?_, ?_, happ, ?_⟩
  · intro q hq
    rcases List.mem_cons.mp hq with rfl | hq
    · exact ⟨_, itemOf_of_live he, rfl⟩
    · exact hb.placed _ c hc q hq
  · intro j c' hc' hj q hq
    refine hframe q fun hmem' => ?_
    rcases List.mem_cons.mp hmem' with rfl | hqc
    · exact hp (hmem hc' _ hq)
    · exact hb.apart hc' hc hj hq hqc
  · exact hnew.trans (hold.symm.cons p)
  · intro q hq
    exact hframe q fun hmem' => hq ((List.mem_cons.mp hmem').elim
      (fun h => h ▸ List.mem_cons_self) fun h => List.mem_cons_of_mem _ (hmem hc q h))

/-- An element is unlinked from its bucket. -/
theorem Buckets.delInBkt {heap : Heap κ α} {tbl : Table} {chains : List (List Nat)}
    (hb : Buckets heap tbl.buckets chains) {p : Nat} {e : Elem κ α} (he : heap p = some e)
    (hp : p ∈ chains.flatten) :
    ∃ heap' buckets' chains',
      Uthash.delInBkt heap tbl (hashToBkt e.hashv tbl.buckets.length) p =
        some (heap', { tbl with buckets := buckets' }) ∧
      Buckets heap' buckets' chains' ∧ buckets'.length = tbl.buckets.length ∧
      chains.flatten.Perm (p :: chains'.flatten) ∧ view appCell heap' = view appCell heap ∧
      ∀ n, tbl.Counted n → ({ tbl with buckets := buckets' } : Table).Counted n := by
  obtain ⟨c, hcmem, hpc⟩ := List.mem_flatten.mp hp
  obtain ⟨i, hc⟩ := List.getElem?_of_mem hcmem
  obtain ⟨item, hitem, hi⟩ := hb.placed i c hc p hpc
  obtain rfl := Option.some.inj (hitem.symm.trans (itemOf_of_live he))
  have hlt : i < tbl.buckets.length := hb.length_eq ▸ (List.getElem?_eq_some_iff.mp hc).1
  obtain ⟨b, _, hbucket, _⟩ := hb.chain hlt
  obtain ⟨hhead, hcount, hchain⟩ := hb.bucket i b c hbucket hc
  have hcnodup : c.Nodup := hb.nodup c hcmem
  obtain ⟨left, right, rfl⟩ := List.append_of_mem hpc
  obtain ⟨cell, hcell, hprev, hnext⟩ := hchain.links
  obtain rfl := Option.some.inj (hcell.symm.trans (view_of_live he))
  obtain ⟨h₁, h', hm₁, hm', hchain', hframe⟩ := hchain.unlink hcnodup
  obtain ⟨heap₁, hheap₁, rfl, happ₁⟩ := modify_view (f := setHhNext right.head?)
    (fun _ => rfl) (app_setHhNext right.head?) hm₁
  obtain ⟨heap', hheap', rfl, happ'⟩ := modify_view (f := setHhPrev left.getLast?)
    (fun _ => rfl) (app_setHhPrev left.getLast?) hm'
  obtain ⟨others, hold, hnew⟩ := perm_flatten_set (d := left ++ right) hc
  let b' : Bucket :=
    { b with hhHead := if b.hhHead = some p then e.hhNext else b.hhHead, count := b.count - 1 }
  have hhead' : b'.hhHead = (left ++ right).head? := by
    show (if b.hhHead = some p then e.hhNext else b.hhHead) = _
    rw [hhead]
    cases left with
    | nil => exact (if_pos rfl).trans hnext
    | cons first left =>
      have hne : first ≠ p := fun h =>
        (List.nodup_cons.mp hcnodup).1 (h ▸ List.mem_append_right _ List.mem_cons_self)
      exact if_neg fun h => hne (Option.some.inj h)
  have hcount' : b'.count = (left ++ right).length := by
    show b.count - 1 = _
    rw [hcount, List.length_append, List.length_append, List.length_cons]
    rfl
  have happ := happ'.trans happ₁
  have hmoved : (left ++ p :: right).Perm (p :: (left ++ right)) := List.perm_middle
  refine ⟨heap', _, _, ?_, hb.set hc (itemOf_congr_app happ)
    (List.nodup_cons.mp (hmoved.nodup_iff.mp hcnodup)).2 hhead' hcount' hchain'
    (fun q hq => hb.placed _ _ hc q (hmoved.symm.mem_iff.mp (List.mem_cons_of_mem _ hq))) ?_,
    List.length_set, ?_, happ, fun n hc => hc.set hbucket b' rfl⟩
  · rw [← show e.hhPrev = left.getLast? from hprev, ← show e.hhNext = right.head? from hnext]
      at hheap₁ hheap'
    rw [Uthash.delInBkt, show hashToBkt e.hashv tbl.buckets.length = i from hi, hbucket]
    simp only [he, hheap₁, hheap', Option.bind_eq_bind, Option.bind_some, Option.pure_def]
    rfl
  · intro j c' hc' hj q hq
    exact hframe q fun hmem => hb.apart hc' hc hj hq
      (hmoved.symm.mem_iff.mp (List.mem_cons_of_mem _ hmem))
  · exact hold.trans ((hmoved.append_right others).trans (hnew.symm.cons p))

/-! ## Expanding the buckets -/

/-- The loops of `HASH_EXPAND_BUCKETS` have moved the elements `moved` and nothing else. -/
structure Moved (newNumBuckets : Nat) (heap₀ : Heap κ α) (st : Expansion κ α) (moved : List Nat) :
    Prop where
  chains : ∃ chains, Buckets st.heap st.newBuckets chains ∧ chains.flatten.Perm moved
  length_eq : st.newBuckets.length = newNumBuckets
  nonideal : st.nonidealItems ≤ moved.length
  mult : ∀ b ∈ st.newBuckets, b.expandMult ≤ moved.length
  app : view appCell st.heap = view appCell heap₀
  frame : ∀ q, q ∉ moved → view hhCell st.heap q = view hhCell heap₀ q

section Expand

variable {newNumBuckets idealChainMaxlen : Nat} {heap₀ : Heap κ α}

/-- One element moves. -/
theorem Moved.moveItem (hpos : 0 < newNumBuckets) (hideal : 0 < idealChainMaxlen)
    {st : Expansion κ α} {moved : List Nat} (hst : Moved newNumBuckets heap₀ st moved) {p : Nat}
    {e : Elem κ α} (he : st.heap p = some e) (hp : p ∉ moved) :
    ∃ st', Uthash.moveItem newNumBuckets idealChainMaxlen st p = some st' ∧
      Moved newNumBuckets heap₀ st' (p :: moved) := by
  obtain ⟨chains, hb, hperm⟩ := hst.chains
  have hlt : hashToBkt e.hashv st.newBuckets.length < st.newBuckets.length :=
    hashToBkt_lt e.hashv (hst.length_eq ▸ hpos)
  obtain ⟨b, _, hbucket, -⟩ := hb.chain hlt
  obtain ⟨counts, hcounts⟩ : ∃ counts,
      countMove idealChainMaxlen (b.count + 1) st.nonidealItems b.expandMult = some counts := by
    unfold countMove
    split
    · exact ⟨_, rfl⟩
    · exact ⟨_, if_neg (Nat.ne_of_gt hideal)⟩
  have hnotin : p ∉ chains.flatten := fun h => hp (hperm.mem_iff.mp h)
  obtain ⟨heap', chains', hlink, hb', hperm', happ, hframe⟩ :=
    hb.linkFirst he hnotin hbucket counts.2
  have hcount : b.count ≤ moved.length := hperm.length_eq ▸ hb.count_le hbucket
  have hmult : b.expandMult ≤ moved.length := hst.mult b (List.mem_of_getElem? hbucket)
  obtain ⟨hnonideal, hnew⟩ := countMove_le hcounts
  refine ⟨⟨heap', _, counts.1⟩, ?_, ⟨chains', hb', hperm'.trans (hperm.cons p)⟩, ?_, ?_, ?_,
    happ.trans hst.app, fun q hq => ?_⟩
  · rw [hst.length_eq] at hbucket ⊢
    simp only [Uthash.moveItem, he, hbucket, hcounts, hlink, Option.bind_eq_bind,
      Option.bind_some, Option.pure_def]
  · rw [List.length_set, hst.length_eq]
  · exact Nat.le_trans hnonideal (Nat.succ_le_succ hst.nonideal)
  · intro a ha
    rw [List.length_cons]
    rcases List.mem_or_eq_of_mem_set ha with ha | rfl
    · exact Nat.le_succ_of_le (hst.mult a ha)
    · show counts.2 ≤ _
      omega
  · rw [List.mem_cons, not_or] at hq
    rw [hframe q, hst.frame q hq.2]
    rw [List.mem_cons, not_or]
    exact ⟨hq.1, fun h => hq.2 (hperm.mem_iff.mp h)⟩

/-- The elements of a chain move, one after the other. -/
theorem Moved.moveChain (hpos : 0 < newNumBuckets) (hideal : 0 < idealChainMaxlen)
    {chain : List Nat} : ∀ {prev : Option Nat} {fuel : Nat} {st : Expansion κ α}
      {moved : List Nat}, Moved newNumBuckets heap₀ st moved →
      Chain (view hhCell heap₀) prev chain → chain.Nodup → (∀ p ∈ chain, p ∉ moved) →
      chain.length ≤ fuel →
      ∃ st', Uthash.moveChain newNumBuckets idealChainMaxlen fuel chain.head? st = some st' ∧
        Moved newNumBuckets heap₀ st' (chain.reverse ++ moved) := by
  induction chain with
  | nil =>
    intro prev fuel st moved hst _ _ _ _
    exact ⟨st, by cases fuel <;> rfl, hst⟩
  | cons p chain ih =>
    intro prev fuel st moved hst hchain hnodup hfresh hfuel
    obtain ⟨fuel, rfl⟩ := Nat.exists_eq_add_of_le' (Nat.one_le_of_lt hfuel)
    obtain ⟨⟨cell, hcell, -, hnext⟩, hrest⟩ := hchain
    rw [List.nodup_cons] at hnodup
    have hp : p ∉ moved := hfresh p List.mem_cons_self
    obtain ⟨e, he, rfl⟩ := view_eq_some ((hst.frame p hp).trans hcell)
    obtain ⟨st₁, hmove, hst₁⟩ := hst.moveItem hpos hideal he hp
    obtain ⟨st', hmoves, hst'⟩ := ih hst₁ hrest hnodup.2 (fun q hq hmem =>
      (List.mem_cons.mp hmem).elim (fun h => hnodup.1 (h ▸ hq))
        (hfresh q (List.mem_cons_of_mem _ hq))) (Nat.le_of_succ_le_succ hfuel)
    refine ⟨st', ?_, ?_⟩
    · rw [List.head?_cons, Uthash.moveChain, he, Option.bind_eq_bind, Option.bind_some, hmove,
        Option.bind_eq_bind, Option.bind_some, show e.hhNext = chain.head? from hnext, hmoves]
    · rw [List.reverse_cons, List.append_assoc]
      exact hst'

/-- The elements of all chains move. -/
theorem Moved.moveBuckets (hpos : 0 < newNumBuckets) (hideal : 0 < idealChainMaxlen) {fuel : Nat}
    {buckets : List Bucket} : ∀ {chains : List (List Nat)} {st : Expansion κ α}
      {moved : List Nat}, Moved newNumBuckets heap₀ st moved →
      List.Forall₂ (fun b c => b.hhHead = c.head? ∧ Chain (view hhCell heap₀) none c) buckets
        chains →
      chains.flatten.Nodup → (∀ p ∈ chains.flatten, p ∉ moved) → chains.flatten.length ≤ fuel →
      ∃ st', buckets.foldlM (fun st b =>
          Uthash.moveChain newNumBuckets idealChainMaxlen fuel b.hhHead st) st = some st' ∧
        ∃ moved', Moved newNumBuckets heap₀ st' moved' ∧
          moved'.Perm (chains.flatten ++ moved) := by
  induction buckets with
  | nil =>
    intro chains st moved hst hall _ _ _
    cases hall
    exact ⟨st, rfl, moved, hst, .refl _⟩
  | cons b buckets ih =>
    intro chains st moved hst hall hnodup hfresh hfuel
    obtain _ | ⟨⟨hhead, hchain⟩, hall⟩ := hall
    rename_i c chains
    rw [List.flatten_cons] at hnodup hfresh hfuel ⊢
    obtain ⟨hc, hchains, hdisjoint⟩ := List.nodup_append.mp hnodup
    rw [List.length_append] at hfuel
    obtain ⟨st₁, hmove, hst₁⟩ := hst.moveChain hpos hideal hchain hc
      (fun p hp => hfresh p (List.mem_append_left _ hp)) (show c.length ≤ fuel by omega)
    obtain ⟨st', hmoves, moved', hst', hperm⟩ := ih hst₁ hall hchains (fun p hp hmem =>
      (List.mem_append.mp hmem).elim (fun h => hdisjoint p (List.mem_reverse.mp h) p hp rfl)
        (hfresh p (List.mem_append_right _ hp))) (by omega)
    refine ⟨st', ?_, moved', hst', hperm.trans ?_⟩
    · rw [List.foldlM_cons, hhead, hmove, Option.bind_eq_bind, Option.bind_some, hmoves]
    · rw [← List.append_assoc]
      refine .append_right _ (List.perm_append_comm.trans ?_)
      exact (List.reverse_perm c).append_right _

end Expand

/-! ## The buckets of a table -/

/-- The buckets of the table hold the elements. -/
structure Filled (heap : Heap κ α) (tbl : Table) (ps : List Nat) : Prop where
  chains : ∃ chains, Buckets heap tbl.buckets chains ∧ chains.flatten.Perm ps
  length_eq : tbl.buckets.length = tbl.numBuckets
  numBuckets_eq : tbl.numBuckets = 2 ^ tbl.log2NumBuckets

theorem Filled.numBuckets_pos {heap : Heap κ α} {tbl : Table} {ps : List Nat}
    (hf : Filled heap tbl ps) : 0 < tbl.numBuckets := by
  rw [hf.numBuckets_eq]
  exact Nat.two_pow_pos _

theorem perm_flatten_replicate (n : Nat) :
    (List.replicate n ([] : List Nat)).flatten.Perm [] := by
  rw [List.flatten_eq_nil_iff.mpr fun c hc => List.eq_of_mem_replicate hc]

theorem Filled.makeTable (heap : Heap κ α) (p : Nat) : Filled heap (makeTable p) [] :=
  ⟨⟨_, .replicate heap 32, perm_flatten_replicate 32⟩, List.length_replicate, rfl⟩

/-- Only the buckets, their number and the elements in them matter. -/
theorem Filled.congr {heap heap' : Heap κ α} {tbl tbl' : Table} {ps : List Nat}
    (hf : Filled heap tbl ps) (h : ∀ p ∈ ps, view hhCell heap' p = view hhCell heap p)
    (hbuckets : tbl'.buckets = tbl.buckets) (hnum : tbl'.numBuckets = tbl.numBuckets)
    (hlog2 : tbl'.log2NumBuckets = tbl.log2NumBuckets) : Filled heap' tbl' ps := by
  obtain ⟨chains, hb, hperm⟩ := hf.chains
  exact ⟨⟨chains, hbuckets ▸ hb.congr fun p hp => h p (hperm.mem_iff.mp hp), hperm⟩,
    by rw [hbuckets, hnum, hf.length_eq], by rw [hnum, hlog2, hf.numBuckets_eq]⟩

/-- The divisor of `HASH_EXPAND_BUCKETS` is not zero where there are items. -/
theorem Filled.newIdealChainMaxlen_pos {heap : Heap κ α} {tbl : Table} {ps : List Nat}
    (hf : Filled heap tbl ps) (h : 0 < tbl.numItems) : 0 < tbl.newIdealChainMaxlen := by
  rw [Table.newIdealChainMaxlen, hf.numBuckets_eq, ← Nat.pow_succ,
    Nat.and_two_pow_sub_one_eq_mod, Nat.shiftRight_eq_div_pow]
  split
  · exact Nat.succ_pos _
  · rename_i hmod
    refine Nat.pos_of_ne_zero fun hdiv => ?_
    have hdecomposed := Nat.div_add_mod tbl.numItems (2 ^ (tbl.log2NumBuckets + 1))
    rw [not_not.mp hmod, (Nat.add_eq_zero_iff.mp hdiv).1] at hdecomposed
    omega

theorem Table.newIdealChainMaxlen_le (tbl : Table) :
    tbl.newIdealChainMaxlen ≤ tbl.numItems + 1 := by
  have hshift : tbl.numItems >>> (tbl.log2NumBuckets + 1) ≤ tbl.numItems := by
    rw [Nat.shiftRight_eq_div_pow]
    exact Nat.div_le_self _ _
  rw [Table.newIdealChainMaxlen]
  split <;> omega

/-- The counts behind an expansion, of which there are two at most that are ineffective. -/
theorem Table.grows_expanded (tbl : Table) {st : Expansion κ α} (hexpands : tbl.noexpand = false)
    (hnonideal : st.nonidealItems ≤ tbl.numItems)
    (hmult : ∀ b ∈ st.newBuckets, b.expandMult ≤ tbl.numItems) : tbl.Grows (tbl.expanded st) where
  numBuckets_le := Nat.le_of_eq (Nat.mul_comm _ _)
  counted n hn hc := by
    have hitems : tbl.numItems ≤ n := hn
    have hold := hc.ineff_of_expands hexpands
    have hineff : (tbl.expanded st).ineffExpands ≤ tbl.ineffExpands + 1 := by
      show (if st.nonidealItems > tbl.numItems >>> 1 then _ else 0) ≤ _
      split
      · exact Nat.le_refl _
      · exact Nat.zero_le _
    refine ⟨Nat.le_trans tbl.newIdealChainMaxlen_le (Nat.succ_le_succ hitems),
      Nat.le_trans hnonideal hitems, fun b hb => Nat.le_trans (hmult b hb) hitems,
      Nat.le_trans hineff (Nat.succ_le_succ hold), fun h => ?_⟩
    have hboth : tbl.noexpand = false ∧ ¬ (tbl.expanded st).ineffExpands > 1 := by
      simpa [Table.expanded] using h
    exact Nat.le_of_not_gt hboth.2

/-- An expansion keeps the elements. -/
theorem Filled.expandBuckets {heap : Heap κ α} {tbl : Table} {ps : List Nat}
    (hf : Filled heap tbl ps) (hnodup : ps.Nodup) (hne : ps ≠ [])
    (hitems : tbl.numItems = ps.length) :
    ∃ heap' tbl', Uthash.expandBuckets heap tbl = some (heap', tbl') ∧ Filled heap' tbl' ps ∧
      view appCell heap' = view appCell heap ∧ tbl'.tail = tbl.tail ∧
      tbl'.numItems = tbl.numItems ∧ (tbl.noexpand = false → tbl.Grows tbl') := by
  obtain ⟨chains, hb, hperm⟩ := hf.chains
  have hideal := hf.newIdealChainMaxlen_pos (hitems ▸ List.length_pos_iff.mpr hne)
  have hpos : 0 < tbl.numBuckets * 2 := Nat.mul_pos hf.numBuckets_pos Nat.two_pos
  have hstart : Moved (tbl.numBuckets * 2) heap
      ⟨heap, List.replicate (tbl.numBuckets * 2) ⟨none, 0, 0⟩, 0⟩ [] :=
    ⟨⟨_, .replicate heap _, perm_flatten_replicate _⟩, List.length_replicate, Nat.le_refl 0,
      fun b hb => by rw [List.eq_of_mem_replicate hb]; exact Nat.zero_le _, rfl, fun _ _ => rfl⟩
  have hall : List.Forall₂ (fun b c => b.hhHead = c.head? ∧ Chain (view hhCell heap) none c)
      tbl.buckets chains := by
    rw [List.forall₂_iff_get]
    refine ⟨hb.length_eq.symm, fun i h h' => ?_⟩
    obtain ⟨hhead, -, hchain⟩ := hb.bucket i _ _ (List.getElem?_eq_getElem h)
      (List.getElem?_eq_getElem h')
    exact ⟨hhead, hchain⟩
  obtain ⟨st, hmoves, moved, hst, hmoved⟩ := hstart.moveBuckets hpos hideal hall
    (hperm.nodup_iff.mpr hnodup) (fun _ _ => List.not_mem_nil)
    (show chains.flatten.length ≤ tbl.numItems from
      Nat.le_of_eq (hperm.length_eq.trans hitems.symm))
  rw [List.append_nil] at hmoved
  obtain ⟨chains', hb', hperm'⟩ := hst.chains
  refine ⟨st.heap, tbl.expanded st, ?_, ⟨⟨chains', hb', hperm'.trans (hmoved.trans hperm)⟩,
    hst.length_eq, ?_⟩, hst.app, rfl, rfl, fun hexpands => ?_⟩
  · simp only [Uthash.expandBuckets, hmoves, Option.bind_eq_bind, Option.bind_some,
      Option.pure_def]
  · show tbl.numBuckets * 2 = 2 ^ (tbl.log2NumBuckets + 1)
    rw [Nat.pow_succ, ← hf.numBuckets_eq]
  · have hall : moved.length = tbl.numItems :=
      (hmoved.trans hperm).length_eq.trans hitems.symm
    exact tbl.grows_expanded hexpands (hall ▸ hst.nonideal) (hall ▸ hst.mult)

/-- An element is added to its bucket, with or without an expansion. -/
theorem Filled.addToBkt {heap : Heap κ α} {tbl : Table} {ps : List Nat} (hf : Filled heap tbl ps)
    (hnodup : ps.Nodup) {p : Nat} {e : Elem κ α} (he : heap p = some e) (hp : p ∉ ps)
    (hitems : tbl.numItems = ps.length + 1) :
    ∃ heap' tbl', Uthash.addToBkt heap tbl (hashToBkt e.hashv tbl.numBuckets) p =
        some (heap', tbl') ∧
      Filled heap' tbl' (p :: ps) ∧ view appCell heap' = view appCell heap ∧
      tbl'.tail = tbl.tail ∧ tbl'.numItems = tbl.numItems ∧ tbl.Grows tbl' := by
  obtain ⟨chains, hb, hperm⟩ := hf.chains
  obtain ⟨b, _, hbucket, -⟩ := hb.chain
    (hashToBkt_lt e.hashv (hf.length_eq.symm ▸ hf.numBuckets_pos))
  obtain ⟨heap₁, chains', hlink, hb', hperm', happ, -⟩ :=
    hb.linkFirst he (fun h => hp (hperm.mem_iff.mp h)) hbucket b.expandMult
  rw [hf.length_eq] at hbucket hb'
  let tbl₁ : Table :=
    { tbl with
      buckets := tbl.buckets.set (hashToBkt e.hashv tbl.numBuckets)
        { b with hhHead := some p, count := b.count + 1 } }
  have hf₁ : Filled heap₁ tbl₁ (p :: ps) :=
    ⟨⟨chains', hb', hperm'.trans (hperm.cons p)⟩, List.length_set.trans hf.length_eq,
      hf.numBuckets_eq⟩
  have hcounted : ∀ n, tbl.Counted n → tbl₁.Counted n := fun n hc =>
    hc.set hbucket { b with hhHead := some p, count := b.count + 1 } rfl
  obtain ⟨heap', tbl', hexpand, hf', happ', htail, hitems', hgrows⟩ :=
    hf₁.expandBuckets (List.nodup_cons.mpr ⟨hp, hnodup⟩) (List.cons_ne_nil p ps) hitems
  have hstep : Uthash.addToBkt heap tbl (hashToBkt e.hashv tbl.numBuckets) p =
      if b.count + 1 ≥ (b.expandMult + 1) * bktCapacityThresh ∧ tbl.noexpand = false then
        Uthash.expandBuckets heap₁ tbl₁
      else some (heap₁, tbl₁) := by
    simp only [Uthash.addToBkt, hbucket, hlink, Option.bind_eq_bind, Option.bind_some,
      Option.pure_def]
    rfl
  rw [hstep]
  split
  · rename_i hfull
    obtain ⟨hnum, hcounts⟩ := hgrows hfull.2
    exact ⟨heap', tbl', hexpand, hf', happ'.trans happ, htail, hitems', hnum,
      fun n hn hc => hcounts n hn (hcounted n hc)⟩
  · exact ⟨heap₁, tbl₁, rfl, hf₁, happ, rfl, rfl, Nat.le_mul_of_pos_left _ Nat.two_pos,
      fun n _ hc => hcounted n hc⟩

/-- An element is deleted from its bucket. -/
theorem Filled.delInBkt {heap : Heap κ α} {tbl : Table} {ps qs : List Nat}
    (hf : Filled heap tbl ps) {p : Nat} {e : Elem κ α} (he : heap p = some e)
    (hp : ps.Perm (p :: qs)) :
    ∃ heap' tbl', Uthash.delInBkt heap tbl (hashToBkt e.hashv tbl.numBuckets) p =
        some (heap', tbl') ∧
      Filled heap' tbl' qs ∧ view appCell heap' = view appCell heap ∧ tbl'.tail = tbl.tail ∧
      tbl'.numItems = tbl.numItems ∧ tbl'.numBuckets = tbl.numBuckets ∧
      ∀ n, tbl.Counted n → tbl'.Counted n := by
  obtain ⟨chains, hb, hperm⟩ := hf.chains
  obtain ⟨heap', buckets', chains', hdel, hb', hlength, hperm', happ, hcounted⟩ :=
    hb.delInBkt he ((hperm.trans hp).mem_iff.mpr List.mem_cons_self)
  rw [hf.length_eq] at hdel hlength
  exact ⟨heap', _, hdel, ⟨⟨chains', hb', ((hperm'.symm.trans hperm).trans hp).cons_inv⟩, hlength,
    hf.numBuckets_eq⟩, happ, rfl, rfl, rfl, hcounted⟩

end WowProxy.Uthash
