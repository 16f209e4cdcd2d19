/-
  Common/UthashElements.lean --- the elements of a hash table in application order.

  A table stands for the list of its elements in application order.  `Represents` ties the
  list to the memory: to the links in application order, to the buckets, and to the
  counts.  Every operation on the memory is the one on the list.
-/
import WowProxy.Common.UthashBuckets

set_option autoImplicit false

namespace WowProxy.Uthash

open WowProxy.Lib.LinkedList

variable {κ α : Type}

/-- The addresses of elements. -/
abbrev addresses (es : List (Nat × κ × α)) : List Nat := es.map Prod.fst

/-- The memory holds the table of the elements, each with its address, its key and the
rest of it. -/
structure Represents (hashFcn : κ → UInt32) (s : Hash κ α) (es : List (Nat × κ × α)) : Prop where
  nodup : (addresses es).Nodup
  item : ∀ e ∈ es, itemOf s.heap e.1 = some ⟨e.2.1, e.2.2, hashFcn e.2.1⟩
  chain : Chain (view appCell s.heap) none (addresses es)
  head_eq : s.head = (addresses es).head?
  freed : es = [] → s.tbl = none
  table : es ≠ [] → ∃ tbl, s.tbl = some tbl ∧ Filled s.heap tbl (addresses es) ∧
    tbl.numItems = es.length ∧ some tbl.tail = (addresses es).getLast?

/-! ## The counts -/

/-- What the table, if there is one, counts besides its elements and buckets. -/
def Hash.Counted (s : Hash κ α) (n : Nat) : Prop := ∀ tbl, s.tbl = some tbl → tbl.Counted n

/-- The table, if there is one, has at most `n` buckets. -/
def Hash.BucketsLe (s : Hash κ α) (n : Nat) : Prop :=
  ∀ tbl, s.tbl = some tbl → tbl.numBuckets ≤ n

/-- What a step may do to the number of the buckets and to these counts. -/
structure Hash.Grows (s s' : Hash κ α) : Prop where
  bucketsLe : ∀ n, 32 ≤ n → s.BucketsLe n → s'.BucketsLe (2 * n)
  counted : ∀ n, (∀ tbl, s'.tbl = some tbl → tbl.numItems ≤ n) → s.Counted n → s'.Counted n

theorem Hash.Grows.of_table {s s' : Hash κ α} {tbl tbl' : Table} (htbl : s.tbl = some tbl)
    (htbl' : s'.tbl = some tbl') (h : tbl.Grows tbl') : s.Grows s' where
  bucketsLe n _ hn t ht := by
    obtain rfl := Option.some.inj (htbl'.symm.trans ht)
    exact Nat.le_trans h.numBuckets_le (Nat.mul_le_mul_left 2 (hn tbl htbl))
  counted n hn hc t ht := by
    obtain rfl := Option.some.inj (htbl'.symm.trans ht)
    exact h.counted n (hn _ htbl') (hc tbl htbl)

/-- The first element makes the table. -/
theorem Hash.Grows.of_makeTable {s s' : Hash κ α} {p : Nat} {tbl' : Table}
    (htbl' : s'.tbl = some tbl') (h : (makeTable p).Grows tbl') : s.Grows s' where
  bucketsLe n hpos _ t ht := by
    obtain rfl := Option.some.inj (htbl'.symm.trans ht)
    exact Nat.le_trans h.numBuckets_le (Nat.mul_le_mul_left 2 hpos)
  counted n hn _ t ht := by
    obtain rfl := Option.some.inj (htbl'.symm.trans ht)
    exact h.counted n (hn _ htbl') (.makeTable p n)

theorem Hash.Grows.of_none {s s' : Hash κ α} (htbl' : s'.tbl = none) : s.Grows s' where
  bucketsLe _ _ _ t ht := by
    rw [htbl'] at ht
    exact absurd ht (by simp)
  counted _ _ _ t ht := by
    rw [htbl'] at ht
    exact absurd ht (by simp)

section Operations

variable {hashFcn : κ → UInt32} {s : Hash κ α} {es : List (Nat × κ × α)}

theorem Represents.empty (hashFcn : κ → UInt32) :
    Represents hashFcn (Hash.empty : Hash κ α) [] :=
  ⟨List.nodup_nil, fun _ h => absurd h List.not_mem_nil, trivial, rfl, fun _ => rfl,
    fun h => absurd rfl h⟩

/-- Only the elements of the table matter. -/
theorem Represents.congr (hr : Represents hashFcn s es) {heap' : Heap κ α}
    (hsame : ∀ p ∈ addresses es, heap' p = s.heap p) :
    Represents hashFcn { s with heap := heap' } es := by
  refine ⟨hr.nodup, fun e he => ?_, hr.chain.congr fun p hp => ?_, hr.head_eq, hr.freed,
    fun hne => ?_⟩
  · exact (congrArg (Option.map Elem.toItem) (hsame e.1 (List.mem_map_of_mem he))).trans
      (hr.item e he)
  · exact view_congr appCell (hsame p hp)
  · obtain ⟨tbl, htbl, hf, hitems, htail⟩ := hr.table hne
    exact ⟨tbl, htbl, hf.congr (fun p hp => view_congr hhCell (hsame p hp)) rfl rfl rfl, hitems,
      htail⟩

/-- A table with elements is reached through its head. -/
theorem Represents.table_eq (hr : Represents hashFcn s es) {tbl : Table} (htbl : s.tbl = some tbl)
    {first : Nat × κ × α} {rest : List (Nat × κ × α)} (hes : es = first :: rest) :
    s.table = some tbl := by
  subst hes
  obtain ⟨e, he, -⟩ := live_of_itemOf (hr.item first List.mem_cons_self)
  rw [Hash.table, hr.head_eq]
  show (s.heap first.1).bind (fun _ => s.tbl) = _
  rw [he, Option.bind_some, htbl]

theorem addresses_append (es : List (Nat × κ × α)) (p : Nat) (key : κ) (value : α) :
    addresses (es ++ [(p, key, value)]) = addresses es ++ [p] := List.map_append

/-- What is left to do of an addition when the element is in the list. -/
theorem Represents.addToTable {heap : Heap κ α} {tbl : Table} {p : Nat} {e : Elem κ α}
    (hnodup : (addresses es).Nodup) (hp : p ∉ addresses es) (he : heap p = some e)
    (hhashv : e.hashv = hashFcn e.key)
    (hitem : ∀ e ∈ es, itemOf heap e.1 = some ⟨e.2.1, e.2.2, hashFcn e.2.1⟩)
    (hchain : Chain (view appCell heap) none (addresses es ++ [p]))
    (hf : Filled heap tbl (addresses es)) (hitems : tbl.numItems = es.length)
    (htail : tbl.tail = p) :
    ∃ heap' tbl', Uthash.addToTable heap tbl e.hashv p = some (heap', tbl') ∧
      Represents hashFcn ⟨heap', (addresses es ++ [p]).head?, some tbl'⟩
        (es ++ [(p, e.key, e.value)]) ∧
      itemOf heap' = itemOf heap ∧ tbl.Grows tbl' := by
  have hf₁ : Filled heap { tbl with numItems := tbl.numItems + 1 } (addresses es) :=
    hf.congr (fun _ _ => rfl) rfl rfl rfl
  obtain ⟨heap', tbl', hadd, hf', happ, htail', hitems', hnum, hcounts⟩ :=
    hf₁.addToBkt hnodup he hp (by show tbl.numItems + 1 = _; rw [hitems, List.length_map])
  have hsame := itemOf_congr_app happ
  refine ⟨heap', tbl', hadd, ?_, hsame, hnum, fun n hn hc => hcounts n hn { hc with }⟩
  constructor
  · rw [addresses_append]
    exact List.nodup_append.mpr ⟨hnodup, List.nodup_singleton p, fun a ha b hb heq =>
      hp (List.mem_singleton.mp hb ▸ heq ▸ ha)⟩
  · intro e' he'
    rw [hsame]
    rcases List.mem_append.mp he' with he' | he'
    · exact hitem e' he'
    · rw [List.mem_singleton.mp he', itemOf_of_live he]
      show some e.toItem = some ⟨e.key, e.value, hashFcn e.key⟩
      rw [← hhashv]
  · rw [addresses_append]
    exact happ ▸ hchain
  · rw [addresses_append]
  · intro h
    exact absurd h (List.append_ne_nil_of_right_ne_nil es (List.cons_ne_nil _ _))
  · intro _
    refine ⟨tbl', rfl, ?_, ?_, ?_⟩
    · obtain ⟨chains, hb, hperm⟩ := hf'.chains
      rw [addresses_append]
      exact ⟨⟨chains, hb, hperm.trans (List.perm_append_singleton p _).symm⟩, hf'.length_eq,
        hf'.numBuckets_eq⟩
    · rw [hitems', List.length_append, List.length_singleton]
      show tbl.numItems + 1 = _
      rw [hitems]
    · rw [addresses_append, List.getLast?_concat, htail']
      exact congrArg some htail

/-- `HASH_ADD` makes a table of the first element. -/
theorem Represents.add_first (hr : Represents hashFcn s []) {p : Nat} {e : Elem κ α}
    (he : s.heap p = some e) :
    ∃ s', Uthash.add hashFcn s p = some s' ∧
      Represents hashFcn s' [(p, e.key, e.value)] ∧
      (∀ q, q ≠ p → itemOf s'.heap q = itemOf s.heap q) ∧ s.Grows s' := by
  let e₁ : Elem κ α := { e with hashv := hashFcn e.key }
  let e₂ : Elem κ α := { e₁ with next := none, prev := none }
  let heap₁ : Heap κ α := Function.update s.heap p (some e₁)
  let heap₂ : Heap κ α := Function.update heap₁ p (some e₂)
  have hwrite₁ : modify (fun e' : Elem κ α => { e' with hashv := hashFcn e.key }) s.heap
      (some p) = some heap₁ := modify_of_live _ he
  have hwrite₂ : modify (fun e : Elem κ α => { e with next := none, prev := none }) heap₁
      (some p) = some heap₂ := modify_of_live _ (Function.update_self _ _ _)
  have he₂ : heap₂ p = some e₂ := Function.update_self _ _ _
  have hnil : (addresses ([] : List (Nat × κ × α))).Nodup := List.nodup_nil
  obtain ⟨heap', tbl', hadd, hr', hsame, hgrows⟩ :=
    Represents.addToTable hnil List.not_mem_nil he₂ rfl (fun _ h => absurd h List.not_mem_nil)
      ⟨⟨_, view_of_live he₂, rfl, rfl⟩, trivial⟩ (.makeTable heap₂ p) rfl rfl
  refine ⟨_, ?_, hr', fun q hq => ?_, .of_makeTable rfl hgrows⟩
  · simp only [Uthash.add, he, hwrite₁, hwrite₂, hr.head_eq, Option.bind_eq_bind,
      Option.bind_some, Option.pure_def]
    rw [show Uthash.addToTable heap₂ (Uthash.makeTable p) (hashFcn e.key) p =
      some (heap', tbl') from hadd]
    rfl
  · have hother : heap₂ q = s.heap q :=
      (Function.update_of_ne hq _ _).trans (Function.update_of_ne hq _ _)
    rw [hsame]
    exact congrArg (Option.map Elem.toItem) hother

/-- `HASH_ADD` puts an element behind all others. -/
theorem Represents.add_next (hr : Represents hashFcn s es) (hne : es ≠ []) {p : Nat}
    {e : Elem κ α} (he : s.heap p = some e) (hp : p ∉ addresses es) :
    ∃ s', Uthash.add hashFcn s p = some s' ∧
      Represents hashFcn s' (es ++ [(p, e.key, e.value)]) ∧
      (∀ q, q ≠ p → itemOf s'.heap q = itemOf s.heap q) ∧ s.Grows s' := by
  obtain ⟨first, rest, hes⟩ := List.exists_cons_of_ne_nil hne
  obtain ⟨tbl, htbl, hf, hitems, htail⟩ := hr.table hne
  let e₁ : Elem κ α := { e with hashv := hashFcn e.key }
  let e₂ : Elem κ α := { e₁ with next := none, prev := some tbl.tail }
  let heap₁ : Heap κ α := Function.update s.heap p (some e₁)
  let heap₂ : Heap κ α := Function.update heap₁ p (some e₂)
  have hwrite₁ : modify (fun e' : Elem κ α => { e' with hashv := hashFcn e.key }) s.heap
      (some p) = some heap₁ := modify_of_live _ he
  have hwrite₂ : modify (fun e : Elem κ α => { e with next := none, prev := some tbl.tail }) heap₁
      (some p) = some heap₂ := modify_of_live _ (Function.update_self _ _ _)
  have hother : ∀ q, q ≠ p → heap₂ q = s.heap q := fun q hq =>
    (Function.update_of_ne hq _ _).trans (Function.update_of_ne hq _ _)
  -- The element is linked behind the last, and the buckets do not see it.
  have hview : view appCell heap₂ = (view appCell heap₁).write p
      ⟨e₂.toItem, (addresses es).getLast?, none⟩ := by
    rw [← htail]
    exact view_update appCell heap₁ p e₂
  have hchain₁ : Chain (view appCell heap₁) none (addresses es) := hr.chain.congr fun q hq =>
    view_congr appCell (Function.update_of_ne (ne_of_mem_of_not_mem hq hp) _ _)
  obtain ⟨k, hk, hchain⟩ := hchain₁.append hr.nodup hp e₂.toItem
  rw [← hview] at hk
  obtain ⟨heap₃, hwrite₃, rfl, hhh⟩ := modify_view (f := setNext (some p))
    (fun _ => rfl) (hh_setNext (some p)) hk
  rw [← htail] at hwrite₃
  have hitem₃ := itemOf_congr_hh hhh
  obtain ⟨e₃, he₃, heq⟩ : ∃ e₃, heap₃ p = some e₃ ∧ e₃.toItem = e₂.toItem := by
    refine live_of_itemOf ?_
    rw [hitem₃]
    exact itemOf_of_live (Function.update_self _ _ _)
  have hf₃ : Filled heap₃ { tbl with tail := p } (addresses es) := hf.congr (fun q hq => by
    rw [hhh]
    exact view_congr hhCell (hother q (ne_of_mem_of_not_mem hq hp))) rfl rfl rfl
  have hkey : e₃.key = e.key := (congrArg Item.key heq : _)
  have hvalue : e₃.value = e.value := (congrArg Item.value heq : _)
  have hhashv : e₃.hashv = hashFcn e.key := (congrArg Item.hashv heq : _)
  have hhashv' : e₃.hashv = hashFcn e₃.key := by rw [hkey, hhashv]
  obtain ⟨heap', tbl', hadd, hr', hsame, hnum, hcounts⟩ :=
    Represents.addToTable hr.nodup hp he₃ hhashv' (fun e' he' => by
      rw [hitem₃]
      exact (congrArg (Option.map Elem.toItem) (hother e'.1
        (ne_of_mem_of_not_mem (List.mem_map_of_mem he') hp))).trans (hr.item e' he'))
    hchain hf₃ hitems rfl
  rw [hkey, hvalue] at hr'
  rw [hhashv] at hadd
  refine ⟨_, ?_, hr', fun q hq => ?_,
    .of_table htbl rfl ⟨hnum, fun n hn hc => hcounts n hn { hc with }⟩⟩
  · have htable : Hash.table s = some tbl := hr.table_eq htbl hes
    have hhead : s.head = some first.1 := by rw [hr.head_eq, hes]; rfl
    have hhead' : (addresses es ++ [p]).head? = some first.1 := by rw [hes]; rfl
    simp only [Uthash.add, he, hwrite₁, hhead, htable, appendList, hwrite₂, hwrite₃,
      Option.bind_eq_bind, Option.bind_some, Option.pure_def, hadd, hhead']
  · rw [hsame, hitem₃]
    exact congrArg (Option.map Elem.toItem) (hother q hq)

/-- `HASH_ADD` adds an element to the list. -/
theorem Represents.add (hr : Represents hashFcn s es) {p : Nat} {e : Elem κ α}
    (he : s.heap p = some e) (hp : p ∉ addresses es) :
    ∃ s', Uthash.add hashFcn s p = some s' ∧
      Represents hashFcn s' (es ++ [(p, e.key, e.value)]) ∧
      (∀ q, q ≠ p → itemOf s'.heap q = itemOf s.heap q) ∧ s.Grows s' := by
  cases es with
  | nil => exact hr.add_first he
  | cons first rest => exact hr.add_next (List.cons_ne_nil first rest) he hp

theorem addresses_middle (left right : List (Nat × κ × α)) (entry : Nat × κ × α) :
    addresses (left ++ entry :: right) = addresses left ++ entry.1 :: addresses right := by
  rw [addresses, List.map_append, List.map_cons]

/-- The new `tail` of `HASH_DELETE` is the last of the others. -/
theorem newTail_eq {ps qs : List Nat} {p : Nat} {tbl : Table} (hnodup : (ps ++ p :: qs).Nodup)
    (htail : some tbl.tail = (ps ++ p :: qs).getLast?) (hne : ps ++ qs ≠ []) :
    ∃ tail', tbl.newTail p ps.getLast? = some tail' ∧ some tail' = (ps ++ qs).getLast? := by
  rw [Table.newTail]
  cases qs with
  | nil =>
    rw [List.append_nil] at hne ⊢
    rw [List.getLast?_concat] at htail
    rw [if_pos (Option.some.inj htail).symm]
    exact ⟨_, List.getLast?_eq_getLast_of_ne_nil hne, (List.getLast?_eq_getLast_of_ne_nil hne).symm⟩
  | cons q qs =>
    rw [List.getLast?_append_of_ne_nil _ (List.cons_ne_nil _ _), List.getLast?_cons_cons] at htail
    have hmem : tbl.tail ∈ q :: qs := List.mem_of_getLast? htail.symm
    have hpq : p ∉ q :: qs := (List.nodup_cons.mp (List.nodup_append.mp hnodup).2.1).1
    rw [if_neg (ne_of_mem_of_not_mem hmem hpq).symm,
      List.getLast?_append_of_ne_nil _ (List.cons_ne_nil _ _)]
    exact ⟨tbl.tail, rfl, htail⟩

/-- `HASH_DELETE` gives the table back with the last element. -/
theorem Represents.delete_last {entry : Nat × κ × α} (hr : Represents hashFcn s [entry]) :
    Uthash.delete s entry.1 = some { s with head := none, tbl := none } := by
  obtain ⟨⟨cell, hcell, hprev, hnext⟩, -⟩ := hr.chain
  obtain ⟨e, he, rfl⟩ := view_eq_some hcell
  obtain ⟨tbl, htbl, -⟩ := hr.table (List.cons_ne_nil _ _)
  have hlinks : e.prev = none ∧ e.next = none := ⟨hprev, hnext⟩
  simp only [Uthash.delete, he, hr.table_eq htbl rfl, hlinks, and_self, if_true,
    Option.bind_eq_bind, Option.bind_some, Option.pure_def]

/-- `HASH_DELETE` takes an element out from among others. -/
theorem Represents.delete_among {left right : List (Nat × κ × α)} {entry : Nat × κ × α}
    (hr : Represents hashFcn s (left ++ entry :: right)) (hne : left ++ right ≠ []) :
    ∃ s', Uthash.delete s entry.1 = some s' ∧ Represents hashFcn s' (left ++ right) ∧
      itemOf s'.heap = itemOf s.heap ∧ s.Grows s' := by
  have haddr : addresses (left ++ right) = addresses left ++ addresses right := List.map_append
  have hne' : addresses left ++ addresses right ≠ [] := by
    rwa [← haddr, Ne, List.map_eq_nil_iff]
  have hchain := hr.chain
  have hnodup := hr.nodup
  rw [addresses_middle] at hchain hnodup
  obtain ⟨cell, hcell, hprev, hnext⟩ := hchain.links
  obtain ⟨e, he, rfl⟩ := view_eq_some hcell
  obtain ⟨tbl, htbl, hf, hitems, htail⟩ := hr.table (by simp)
  rw [addresses_middle] at htail
  have htable : s.table = some tbl := by
    cases left with
    | nil => exact hr.table_eq htbl rfl
    | cons first left => exact hr.table_eq htbl rfl
  have hlinks : ¬(e.prev = none ∧ e.next = none) := by
    rw [show e.prev = _ from hprev, show e.next = _ from hnext]
    rintro ⟨hleft, hright⟩
    rw [List.getLast?_eq_none_iff.mp hleft, List.head?_eq_none_iff.mp hright] at hne'
    exact hne' rfl
  obtain ⟨tail', htail', hlast⟩ := newTail_eq hnodup htail hne'
  rw [← show e.prev = _ from hprev] at htail'
  -- The element is unlinked, and the buckets do not see it.
  obtain ⟨k₁, k₂, hk₁, hk₂, hchain', -⟩ := hchain.unlink hnodup
  rw [← show e.prev = _ from hprev, ← show e.next = _ from hnext] at hk₁ hk₂
  obtain ⟨heap₁, hwrite₁, rfl, hhh₁⟩ := modify_view (f := setNext e.next)
    (fun _ => rfl) (hh_setNext e.next) hk₁
  obtain ⟨heap₂, hwrite₂, rfl, hhh₂⟩ := modify_view (f := setPrev e.prev)
    (fun _ => rfl) (hh_setPrev e.prev) hk₂
  have hhh : view hhCell heap₂ = view hhCell s.heap := hhh₂.trans hhh₁
  have hitem₂ : itemOf heap₂ = itemOf s.heap := itemOf_congr_hh hhh
  obtain ⟨e₂, he₂, heq⟩ : ∃ e₂, heap₂ entry.1 = some e₂ ∧ e₂.toItem = e.toItem := by
    refine live_of_itemOf ?_
    rw [hitem₂]
    exact itemOf_of_live he
  have hhashv : e₂.hashv = e.hashv := (congrArg Item.hashv heq : _)
  have hf₂ : Filled heap₂ { tbl with tail := tail' } (addresses (left ++ entry :: right)) :=
    hf.congr (fun q _ => by rw [hhh]) rfl rfl rfl
  have hperm : (addresses (left ++ entry :: right)).Perm
      (entry.1 :: addresses (left ++ right)) := by
    rw [addresses_middle, haddr]
    exact List.perm_middle
  obtain ⟨heap', tbl', hdel, hf', happ, htail'', hitems', hnum, hcounts⟩ :=
    hf₂.delInBkt he₂ hperm
  rw [hhashv] at hdel
  have hitem' : itemOf heap' = itemOf s.heap := (itemOf_congr_app happ).trans hitem₂
  refine ⟨⟨heap', (addresses (left ++ right)).head?,
    some { tbl' with numItems := tbl'.numItems - 1 }⟩, ?_, ?_, hitem',
    .of_table htbl rfl ⟨Nat.le_trans (Nat.le_of_eq hnum) (Nat.le_mul_of_pos_left _ Nat.two_pos),
      fun n _ hc => { hcounts n { hc with } with }⟩⟩
  · have hhead : (if e.prev = none then e.next else s.head) =
        (addresses (left ++ right)).head? := by
      rw [hr.head_eq, addresses_middle, haddr, show e.prev = _ from hprev,
        show e.next = _ from hnext]
      cases addresses left with
      | nil => rfl
      | cons first rest => exact if_neg (by simp)
    simp only [Uthash.delete, he, htable, hlinks, if_false, htail', hwrite₁, hhead, hwrite₂, hdel,
      Option.bind_eq_bind, Option.bind_some, Option.pure_def]
  · have hsublist : (left ++ right).Sublist (left ++ entry :: right) :=
      (List.sublist_cons_self entry right).append_left left
    constructor
    · exact hr.nodup.sublist (hsublist.map _)
    · intro e' he'
      show itemOf heap' e'.1 = _
      rw [hitem']
      exact hr.item e' (hsublist.subset he')
    · show Chain (view appCell heap') none _
      rw [happ, haddr]
      exact hchain'
    · rfl
    · intro h
      exact absurd h hne
    · intro _
      refine ⟨_, rfl, hf'.congr (fun _ _ => rfl) rfl rfl rfl, ?_, ?_⟩
      · show tbl'.numItems - 1 = _
        rw [hitems']
        show tbl.numItems - 1 = _
        rw [hitems, List.length_append, List.length_append, List.length_cons]
        rfl
      · show some tbl'.tail = _
        rw [htail'', haddr]
        exact hlast

/-- `HASH_DELETE` takes an element out of the list. -/
theorem Represents.delete {left right : List (Nat × κ × α)} {entry : Nat × κ × α}
    (hr : Represents hashFcn s (left ++ entry :: right)) :
    ∃ s', Uthash.delete s entry.1 = some s' ∧ Represents hashFcn s' (left ++ right) ∧
      itemOf s'.heap = itemOf s.heap ∧ s.Grows s' := by
  by_cases hne : left ++ right = []
  · obtain ⟨rfl, rfl⟩ := List.append_eq_nil_iff.mp hne
    exact ⟨_, hr.delete_last, ⟨List.nodup_nil, fun _ h => absurd h List.not_mem_nil, trivial, rfl,
      fun _ => rfl, fun h => absurd rfl h⟩, rfl, .of_none rfl⟩
  · exact hr.delete_among hne

/-! ## `HASH_FIND` -/

/-- The loop finds the first element of the chain with the key, if there is one. -/
theorem findInBkt_chain [DecidableEq κ] {heap : Heap κ α} (hashv : UInt32) (key : κ)
    {chain : List Nat} : ∀ {prev : Option Nat} {fuel : Nat}, Chain (view hhCell heap) prev chain →
      chain.length ≤ fuel → ∃ r, findInBkt heap hashv key fuel chain.head? = some r ∧
        (∀ p, r = some p → p ∈ chain ∧
          ∃ value, itemOf heap p = some ⟨key, value, hashv⟩) ∧
        (r = none → ∀ p ∈ chain, ∀ value, itemOf heap p ≠ some ⟨key, value, hashv⟩) := by
  induction chain with
  | nil =>
    intro prev fuel _ _
    exact ⟨none, by cases fuel <;> rfl, fun p hp => absurd hp (by simp),
      fun _ p hp => absurd hp List.not_mem_nil⟩
  | cons p chain ih =>
    intro prev fuel hchain hfuel
    obtain ⟨fuel, rfl⟩ := Nat.exists_eq_add_of_le' (Nat.one_le_of_lt hfuel)
    obtain ⟨⟨cell, hcell, -, hnext⟩, hrest⟩ := hchain
    obtain ⟨e, he, rfl⟩ := view_eq_some hcell
    rw [List.head?_cons, findInBkt, he, Option.bind_eq_bind, Option.bind_some]
    by_cases hfound : e.hashv = hashv ∧ e.key = key
    · obtain ⟨rfl, rfl⟩ := hfound
      rw [if_pos ⟨rfl, rfl⟩]
      refine ⟨some p, rfl, fun q hq => ?_, fun h => absurd h (by simp)⟩
      obtain rfl := Option.some.inj hq
      exact ⟨List.mem_cons_self, e.value, itemOf_of_live he⟩
    · rw [if_neg hfound, show e.hhNext = chain.head? from hnext]
      obtain ⟨r, hr, hsome, hnone⟩ := ih hrest (Nat.le_of_succ_le_succ hfuel)
      refine ⟨r, hr, fun q hq => ?_, fun h q hq value hitem => ?_⟩
      · obtain ⟨hmem, hitem⟩ := hsome q hq
        exact ⟨List.mem_cons_of_mem _ hmem, hitem⟩
      · rcases List.mem_cons.mp hq with rfl | hq
        · have heq := Option.some.inj ((itemOf_of_live he).symm.trans hitem)
          exact hfound ⟨congrArg Item.hashv heq, congrArg Item.key heq⟩
        · exact hnone h q hq value hitem

/-- A chain is not longer than the table has items. -/
theorem length_chain_le {tbl : Table} {ps : List Nat} {chains : List (List Nat)}
    (hperm : chains.flatten.Perm ps) (hitems : tbl.numItems = ps.length) {i : Nat} {c : List Nat}
    (hc : chains[i]? = some c) : c.length ≤ tbl.numItems := by
  rw [hitems, ← hperm.length_eq]
  exact (List.sublist_flatten_of_mem (List.mem_of_getElem? hc)).length_le

/-- `HASH_FIND` finds an element with the key exactly if there is one. -/
theorem Represents.find [DecidableEq κ] (hr : Represents hashFcn s es) (key : κ) :
    ∃ r, Uthash.find hashFcn s key = some r ∧
      (∀ p, r = some p → ∃ value, (p, key, value) ∈ es) ∧
      (r = none → ∀ e ∈ es, e.2.1 ≠ key) := by
  cases es with
  | nil =>
    refine ⟨none, ?_, fun p hp => absurd hp (by simp), fun _ e he => absurd he List.not_mem_nil⟩
    rw [Uthash.find, hr.head_eq]
    rfl
  | cons first rest =>
    obtain ⟨tbl, htbl, hf, hitems, -⟩ := hr.table (List.cons_ne_nil _ _)
    obtain ⟨chains, hb, hperm⟩ := hf.chains
    have hlt : hashToBkt (hashFcn key) tbl.numBuckets < tbl.buckets.length := by
      rw [hf.length_eq]
      exact hashToBkt_lt _ hf.numBuckets_pos
    obtain ⟨b, c, hbucket, hc⟩ := hb.chain hlt
    obtain ⟨hhead, -, hchain⟩ := hb.bucket _ b c hbucket hc
    have hitems' : tbl.numItems = (addresses (first :: rest)).length := by
      rw [hitems, List.length_map]
    obtain ⟨r, hfind, hsome, hnone⟩ := findInBkt_chain (hashFcn key) key hchain
      (length_chain_le hperm hitems' hc)
    refine ⟨r, ?_, fun p hp => ?_, fun h e he hkey => ?_⟩
    · rw [Uthash.find, hr.head_eq]
      show (s.table.bind fun tbl => _) = _
      rw [hr.table_eq htbl rfl, Option.bind_some]
      dsimp only
      rw [hbucket, Option.bind_eq_bind, Option.bind_some, hhead, hfind]
    · obtain ⟨hmem, value, hitem⟩ := hsome p hp
      obtain ⟨e, he, rfl⟩ := List.mem_map.mp (hperm.mem_iff.mp
        (List.mem_flatten.mpr ⟨c, List.mem_of_getElem? hc, hmem⟩))
      have heq := Option.some.inj ((hr.item e he).symm.trans hitem)
      have hkey : e.2.1 = key := congrArg Item.key heq
      exact ⟨e.2.2, hkey ▸ he⟩
    · -- The chain its hash leads to is the one the element is in.
      subst hkey
      obtain ⟨d, hd, hmem⟩ := List.mem_flatten.mp
        (hperm.mem_iff.mpr (List.mem_map_of_mem he))
      obtain ⟨j, hj⟩ := List.getElem?_of_mem hd
      obtain ⟨item, hitem, hindex⟩ := hb.placed j d hj e.1 hmem
      obtain rfl := Option.some.inj (hitem.symm.trans (hr.item e he))
      rw [hf.length_eq] at hindex
      rw [hindex, hj] at hc
      obtain rfl := Option.some.inj hc
      exact hnone h e.1 hmem e.2.2 (hr.item e he)

/-! ## `HASH_FSCK` -/

/-- The loop counts the cells of a chain. -/
theorem fsckWalk_chain {β : Type} {h : Lib.LinkedList.Heap β} {chain : List Nat} :
    ∀ {prev : Option Nat} {fuel : Nat}, Chain h prev chain → chain.length ≤ fuel →
      fsckWalk h fuel prev chain.head? = some chain.length := by
  induction chain with
  | nil => intro prev fuel _ _; cases fuel <;> rfl
  | cons p chain ih =>
    intro prev fuel hchain hfuel
    obtain ⟨fuel, rfl⟩ := Nat.exists_eq_add_of_le' (Nat.one_le_of_lt hfuel)
    obtain ⟨⟨c, hc, hprev, hnext⟩, hrest⟩ := hchain
    rw [List.head?_cons, fsckWalk, hc, Option.bind_eq_bind, Option.bind_some,
      if_neg (not_not.mpr hprev), hnext, ih hrest (Nat.le_of_succ_le_succ hfuel)]
    rfl

/-- `HASH_FSCK` finds nothing wrong. -/
theorem Represents.fsck (hr : Represents hashFcn s es) : Uthash.fsck s = true := by
  cases es with
  | nil => rw [Uthash.fsck, hr.head_eq]; rfl
  | cons first rest =>
    obtain ⟨tbl, htbl, hf, hitems, -⟩ := hr.table (List.cons_ne_nil _ _)
    obtain ⟨chains, hb, hperm⟩ := hf.chains
    have hitems' : tbl.numItems = (addresses (first :: rest)).length := by
      rw [hitems, List.length_map]
    have hcounts : (tbl.buckets.map fun bucket =>
        (fsckWalk (view hhCell s.heap) tbl.numItems none bucket.hhHead).filter
          (· = bucket.count)) = chains.map fun c => some c.length := by
      refine List.ext_getElem (by rw [List.length_map, List.length_map, hb.length_eq])
        fun i hi hi' => ?_
      rw [List.getElem_map, List.getElem_map]
      rw [List.length_map] at hi hi'
      have hc := List.getElem?_eq_getElem hi'
      obtain ⟨hhead, hcount, hchain⟩ := hb.bucket i _ _ (List.getElem?_eq_getElem hi) hc
      rw [hhead, fsckWalk_chain hchain (length_chain_le hperm hitems' hc),
        hcount, Option.filter_some]
      exact if_pos (decide_eq_true rfl)
    have hsum : ((chains.map fun c => some c.length).map fun count => count.getD 0).sum =
        tbl.numItems := by
      rw [List.map_map, hitems', ← hperm.length_eq, List.length_flatten]
      rfl
    have hwalk : fsckWalk (view appCell s.heap) tbl.numItems none (some first.1) =
        some tbl.numItems := by
      rw [hitems']
      exact fsckWalk_chain hr.chain (Nat.le_refl _)
    have hall : (chains.map fun c => some c.length).all Option.isSome = true := by
      rw [List.all_map]
      exact List.all_eq_true.mpr fun _ _ => rfl
    have hstart : s.head = some first.1 := hr.head_eq
    rw [Uthash.fsck, hstart, hr.table_eq htbl rfl]
    dsimp only
    rw [hcounts, hsum, hall, hwalk, beq_self_eq_true, beq_self_eq_true]
    rfl

end Operations

end WowProxy.Uthash
