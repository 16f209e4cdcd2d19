/-
  Common/Hashtable.lean --- the string-keyed hash table of
  `common/hashtable/hashtable.c`.

  The array holds chains, or `NULL` where no element has come yet.  An index outside of
  it has no value, so that `hash` has to stay in range for any call to have one.
  Elements are what `ht_elem` points to, and `elemKey` the string behind their `word`,
  which the callers leave alone.  `num_elems` is a number here and an `int` in the source;
  by `Table.Represents.numElems_le` the two agree below `2^31` insertions.
-/
import Mathlib.Data.Finset.Card
import WowProxy.Lib.CString
import WowProxy.Lib.KeyedList

set_option autoImplicit false

namespace WowProxy.Hashtable

open WowProxy.Lib.CString WowProxy.Lib.KeyedList

/-! ## Keys -/

/-- `ht_key`: the string it points to, without its terminator. -/
abbrev HtKey : Type := { s : List UInt8 // 0 ∉ s }

/-- `equal`. -/
def equal (s1 s2 : HtKey) : Bool := strcmp s1.1 s2.1 == 0

theorem equal_eq_true_iff {s1 s2 : HtKey} : equal s1 s2 = true ↔ s1 = s2 := by
  rw [equal, beq_iff_eq, strcmp_eq_zero_iff s1.2 s2.2]
  exact Subtype.ext_iff.symm

/-- The loop of `hash` over the characters, which are signed. -/
def hashLoop (a b : UInt32) : List UInt8 → (r h : UInt32) → UInt32
  | [], _, h => h
  | c :: s, r, h => hashLoop a b s (r * a + b) (r * h + c.toInt8.toInt32.toUInt32)

/-- `hash`.  The length is an `int`; nothing reads `h` behind the last correction. -/
def hash (s : HtKey) (m : Int32) : Int32 :=
  let len : Int32 := Int32.ofNat s.1.length
  let h := hashLoop 1664525 1013904223 (s.1.take len.toNatClampNeg) 0xdeadbeef 0
  let h := h % m.toUInt32
  h.toInt32

/-- **The hash is an index**, whatever the arithmetic makes of the characters. -/
theorem hash_range (s : HtKey) {m : Int32} (hm : 0 < m) :
    0 ≤ (hash s m).toInt ∧ (hash s m).toInt < m.toInt := by
  have hle : 0 ≤ m := Int32.le_of_lt hm
  have hpos : 0 < m.toInt := Int32.lt_iff_toInt_lt.mp hm
  have hsize := Int32.toNat_toUInt32_of_le hle
  have hclamp := Int32.cast_toNatClampNeg m hle
  have hbound := Int32.toNatClampNeg_lt m
  unfold hash
  dsimp only
  generalize hashLoop _ _ _ _ _ = h
  have hmod : (h % m.toUInt32).toNat < m.toUInt32.toNat := by
    rw [UInt32.toNat_mod]
    exact Nat.mod_lt _ (by omega)
  -- The remainder is below `m`, so that the conversion to `int` keeps it.
  have hint : (h % m.toUInt32).toInt32.toInt = (h % m.toUInt32).toNat := by
    rw [← Int32.toInt_toBitVec, UInt32.toBitVec_toInt32, BitVec.toInt_eq_toNat_of_lt,
      UInt32.toNat_toBitVec]
    rw [UInt32.toNat_toBitVec]
    omega
  omega

section Table

variable {ε : Type} (elemKey : ε → HtKey)

/-! ## Chains -/

/-- `chain_find`: the place of the list element. -/
def chainFind (k : HtKey) : List ε → Option Nat
  | [] => none
  | e :: rest => if equal k (elemKey e) then some 0 else (chainFind k rest).map (· + 1)

/-- `chain_insert`: the chain behind it, and the old entry. -/
def chainInsert (chain : List ε) (e : ε) : List ε × Option ε :=
  match chainFind elemKey (elemKey e) chain with
  | none => (e :: chain, none)
  | some p => (chain.set p e, chain[p]?)

/-- `chain_search`. -/
def chainSearch (chain : List ε) (k : HtKey) : Option ε :=
  match chainFind elemKey k chain with
  | none => none
  | some p => chain[p]?

/-! ## The table -/

/-- `struct table`, with the functions that `table_new` puts into it. -/
structure Table (ε : Type) where
  size : Int32
  numElems : Nat
  /-- the chains, or `NULL` -/
  array : List (Option (List ε))

/-- `table_new`. -/
def tableNew (ε : Type) (initSize : Int32) : Table ε :=
  { size := initSize, numElems := 0, array := List.replicate initSize.toNatClampNeg none }

/-- `H->array[h]`, where that is an element of the array. -/
def Table.at (H : Table ε) (h : Int32) : Option (Option (List ε)) :=
  if 0 ≤ h then H.array[h.toNatClampNeg]? else none

/-- `table_insert`: the table behind it, and the old entry. -/
def tableInsert (H : Table ε) (e : ε) : Option (Table ε × Option ε) :=
  let k := elemKey e
  let h := hash k H.size
  (H.at h).map fun chain =>
    let inserted := chainInsert elemKey (chain.getD []) e
    let array := H.array.set h.toNatClampNeg (some inserted.1)
    match inserted.2 with
    | some oldE => ({ H with array }, some oldE)
    | none => ({ H with array, numElems := H.numElems + 1 }, none)

/-- `table_search`. -/
def tableSearch (H : Table ε) (k : HtKey) : Option (Option ε) :=
  (H.at (hash k H.size)).map fun chain =>
    match chain with
    | none => none
    | some chain => chainSearch elemKey chain k

/-- A sequence of calls of `table_insert`, and what they return. -/
def tableInserts : Table ε → List ε → Option (Table ε × List (Option ε))
  | H, [] => some (H, [])
  | H, e :: es =>
    (tableInsert elemKey H e).bind fun inserted =>
      (tableInserts inserted.1 es).map fun rest => (rest.1, inserted.2 :: rest.2)

/-! ## Chains as keyed lists -/

theorem chainFind_eq (k : HtKey) (chain : List ε) :
    chainFind elemKey k chain = position elemKey k chain := by
  induction chain with
  | nil => rfl
  | cons e rest ih =>
    rw [chainFind, position_cons, ih]
    by_cases h : elemKey e = k
    · rw [if_pos h, if_pos (equal_eq_true_iff.mpr h.symm)]
    · rw [if_neg h, if_neg fun heq => h (equal_eq_true_iff.mp heq).symm]

theorem chainSearch_eq (k : HtKey) (chain : List ε) :
    chainSearch elemKey chain k = lookup elemKey k chain := by
  rw [chainSearch, chainFind_eq, lookup_eq_position]
  cases position elemKey k chain <;> rfl

theorem chainInsert_eq (chain : List ε) (e : ε) :
    chainInsert elemKey chain e = (put elemKey e chain, lookup elemKey (elemKey e) chain) := by
  rw [chainInsert, chainFind_eq, put, lookup_eq_position]
  cases position elemKey (elemKey e) chain <;> rfl

/-! ## What a table holds -/

/-- The index of a key. -/
def slot (m : Int32) (k : HtKey) : Nat := (hash k m).toNatClampNeg

/-- The chains, where `NULL` is one without elements. -/
def Table.chains (H : Table ε) : List (List ε) := H.array.map fun chain => chain.getD []

variable {elemKey} {m : Int32}

/-- A table of size `m` behind the insertion of `es`, one after the other. -/
structure Table.Holds (elemKey : ε → HtKey) (m : Int32) (es : List ε) (H : Table ε) : Prop where
  size_eq : H.size = m
  length_eq : H.array.length = m.toNatClampNeg
  addressed : Addressed elemKey (slot m) H.chains
  content : ∀ k chain, H.chains[slot m k]? = some chain →
    lookup elemKey k chain = latest elemKey k es
  numElems_eq : H.numElems = (es.map elemKey).toFinset.card

theorem slot_lt (hm : 0 < m) (k : HtKey) : slot m k < m.toNatClampNeg := by
  obtain ⟨hnonneg, hlt⟩ := hash_range k hm
  have hclamp := Int32.cast_toNatClampNeg m (Int32.le_of_lt hm)
  have hslot := Int32.cast_toNatClampNeg (hash k m) (Int32.le_iff_toInt_le.mpr hnonneg)
  unfold slot
  omega

theorem Table.Holds.new : (tableNew ε m).Holds elemKey m [] := by
  have hchains : (tableNew ε m).chains = List.replicate m.toNatClampNeg [] := by
    rw [Table.chains, tableNew, List.map_replicate]
    rfl
  refine ⟨rfl, List.length_replicate, ?_, ?_, rfl⟩
  · rw [hchains]
    exact Addressed.replicate _
  · intro k chain hchain
    rw [hchains] at hchain
    rw [List.eq_of_mem_replicate (List.mem_of_getElem? hchain)]
    rfl

variable {es : List ε} {H : Table ε}

/-- Every key leads into the array. -/
theorem Table.Holds.at_hash (h : H.Holds elemKey m es) (hm : 0 < m) (k : HtKey) :
    ∃ chain, H.at (hash k H.size) = some chain ∧
      H.chains[slot m k]? = some (chain.getD []) := by
  have hnonneg : 0 ≤ hash k H.size := by
    rw [h.size_eq]
    exact Int32.le_iff_toInt_le.mpr (hash_range k hm).1
  have hlt : slot m k < H.array.length := by
    rw [h.length_eq]
    exact slot_lt hm k
  refine ⟨H.array[slot m k], ?_, ?_⟩
  · rw [Table.at, if_pos hnonneg, h.size_eq]
    exact List.getElem?_eq_getElem hlt
  · rw [Table.chains, List.getElem?_map, List.getElem?_eq_getElem hlt]
    rfl

/-- `table_search` finds what was inserted last. -/
theorem Table.Holds.search (h : H.Holds elemKey m es) (hm : 0 < m) (k : HtKey) :
    tableSearch elemKey H k = some (latest elemKey k es) := by
  obtain ⟨chain, hat, hchain⟩ := h.at_hash hm k
  rw [tableSearch, hat, Option.map_some, ← h.content k _ hchain]
  cases chain with
  | none => rfl
  | some chain => exact congrArg some (chainSearch_eq elemKey k chain)

/-- A key that comes for the first time is counted. -/
theorem card_append (e : ε) : ((es ++ [e]).map elemKey).toFinset.card =
    (es.map elemKey).toFinset.card + if latest elemKey (elemKey e) es = none then 1 else 0 := by
  have hinsert : ((es ++ [e]).map elemKey).toFinset =
      insert (elemKey e) (es.map elemKey).toFinset := by
    ext k
    simp
  rw [hinsert]
  split
  · rename_i hnone
    rw [Finset.card_insert_of_notMem]
    rw [List.mem_toFinset]
    exact latest_eq_none_iff.mp hnone
  · rename_i hsome
    rw [Finset.insert_eq_of_mem, Nat.add_zero]
    rw [List.mem_toFinset]
    by_contra hnew
    exact hsome (latest_eq_none_iff.mpr hnew)

/-- **One insertion**: what is handed back is the element that was found under the key
before. -/
theorem Table.Holds.insert (h : H.Holds elemKey m es) (hm : 0 < m) (e : ε) :
    ∃ H', tableInsert elemKey H e = some (H', latest elemKey (elemKey e) es) ∧
      H'.Holds elemKey m (es ++ [e]) := by
  obtain ⟨chain, hat, hchain⟩ := h.at_hash hm (elemKey e)
  have hold := h.content _ _ hchain
  let array := H.array.set (slot m (elemKey e)) (some (put elemKey e (chain.getD [])))
  let numElems := H.numElems + if latest elemKey (elemKey e) es = none then 1 else 0
  have hchains : ({ H with array, numElems } : Table ε).chains =
      H.chains.set (slot m (elemKey e)) (put elemKey e (chain.getD [])) := by
    rw [Table.chains, Table.chains, List.map_set]
    rfl
  refine ⟨{ H with array, numElems }, ?_, h.size_eq, ?_, ?_, ?_, ?_⟩
  · rw [tableInsert, hat, Option.map_some, chainInsert_eq, hold, h.size_eq]
    cases hlatest : latest elemKey (elemKey e) es with
    | none => simp only [array, numElems, hlatest, if_true, slot]
    | some old => simp only [array, numElems, hlatest, reduceCtorEq, if_false, Nat.add_zero, slot]
  · rw [← h.length_eq]
    exact List.length_set
  · rw [hchains]
    exact h.addressed.put e hchain
  · intro k chain' hchain'
    obtain ⟨before, hat', hbefore⟩ := h.at_hash hm k
    obtain ⟨behind, hbehind, hlookup⟩ := lookup_chain_put e hchain hbefore
    rw [hchains, hbehind] at hchain'
    obtain rfl := Option.some.inj hchain'
    rw [hlookup, latest_append, h.content k _ hbefore]
  · rw [card_append, ← h.numElems_eq]

/-- A sequence of insertions. -/
theorem Table.Holds.inserts (hm : 0 < m) (new : List ε) :
    ∀ {es : List ε} {H : Table ε}, H.Holds elemKey m es →
      ∃ H' olds, tableInserts elemKey H new = some (H', olds) ∧
        H'.Holds elemKey m (es ++ new) ∧ olds.length = new.length ∧
        ∀ i e, new[i]? = some e →
          olds[i]? = some (latest elemKey (elemKey e) (es ++ new.take i)) := by
  induction new with
  | nil =>
    intro es H h
    refine ⟨H, [], rfl, ?_, rfl, fun i e hi => absurd hi (by simp)⟩
    rwa [List.append_nil]
  | cons e new ih =>
    intro es H h
    obtain ⟨H', hinsert, hholds⟩ := h.insert hm e
    obtain ⟨H'', olds, hinserts, hholds', hlength, holds⟩ := ih hholds
    refine ⟨H'', latest elemKey (elemKey e) es :: olds, ?_, ?_, ?_, ?_⟩
    · rw [tableInserts, hinsert, Option.bind_some, hinserts, Option.map_some]
    · rwa [List.append_assoc, List.singleton_append] at hholds'
    · rw [List.length_cons, List.length_cons, hlength]
    · intro i f hi
      cases i with
      | zero =>
        obtain rfl := Option.some.inj hi
        rw [List.take_zero, List.append_nil]
        rfl
      | succ i =>
        have hrest := holds i f hi
        rwa [List.append_assoc, List.singleton_append] at hrest

/-! ## Tables -/

/-- What a table of size `m` is promised to be behind the insertion of `es`. -/
structure Table.Represents (elemKey : ε → HtKey) (m : Int32) (es : List ε) (H : Table ε) :
    Prop where
  /-- the element inserted last under the key, and `NULL` if there is none -/
  search : ∀ k, tableSearch elemKey H k = some (latest elemKey k es)
  numElems : H.numElems = (es.map elemKey).toFinset.card
  length : (H.array.length : Int) = m.toInt
  placed : ∀ (i : Nat) chain, H.array[i]? = some (some chain) →
    ∀ e ∈ chain, (hash (elemKey e) m).toInt = i
  distinct : ∀ (i : Nat) chain, H.array[i]? = some (some chain) → (chain.map elemKey).Nodup

theorem Table.Holds.represents (h : H.Holds elemKey m es) (hm : 0 < m) :
    H.Represents elemKey m es := by
  have hchain : ∀ (i : Nat) chain, H.array[i]? = some (some chain) →
      H.chains[i]? = some chain := by
    intro i chain hi
    rw [Table.chains, List.getElem?_map, hi]
    rfl
  refine ⟨h.search hm, h.numElems_eq, ?_, ?_, ?_⟩
  · rw [h.length_eq]
    exact Int32.cast_toNatClampNeg m (Int32.le_of_lt hm)
  · intro i chain hi e he
    have hslot := h.addressed.placed i chain (hchain i chain hi) e he
    rw [← hslot]
    exact (Int32.cast_toNatClampNeg _
      (Int32.le_iff_toInt_le.mpr (hash_range (elemKey e) hm).1)).symm
  · intro i chain hi
    exact h.addressed.distinct i chain (hchain i chain hi)

/-- `num_elems` counts no more than the insertions, so that it does not leave `int` before
there are `2^31` of them. -/
theorem Table.Represents.numElems_le (h : H.Represents elemKey m es) :
    H.numElems ≤ es.length := by
  rw [h.numElems]
  exact (List.toFinset_card_le _).trans (Nat.le_of_eq (List.length_map elemKey))

/-- **The table is a map from keys to the elements inserted last.**  For every size and
every sequence of insertions all calls have a value, each returns the element that it
displaces, and the table represents the map. -/
theorem tableInserts_represents (elemKey : ε → HtKey) (m : Int32) (hm : 1 < m) (es : List ε) :
    ∃ H olds, tableInserts elemKey (tableNew ε m) es = some (H, olds) ∧
      H.Represents elemKey m es ∧ olds.length = es.length ∧
      (∀ i e, es[i]? = some e → olds[i]? = some (latest elemKey (elemKey e) (es.take i))) ∧
      ∀ k, 0 ≤ (hash k m).toInt ∧ (hash k m).toInt < m.toInt := by
  have hpos : 0 < m := Int32.lt_trans (by decide) hm
  obtain ⟨H, olds, hinserts, hholds, hlength, holds⟩ :=
    Table.Holds.inserts hpos es Table.Holds.new
  exact ⟨H, olds, hinserts, hholds.represents hpos, hlength, holds, fun k => hash_range k hpos⟩

/-- `a`, `b` and `a` again, in a table of size 2. -/
def sampleElems : List (HtKey × Nat) :=
  [(⟨[97], by decide⟩, 1), (⟨[98], by decide⟩, 2), (⟨[97], by decide⟩, 3)]

theorem sampleElems_represents :
    ∃ H olds, tableInserts Prod.fst (tableNew (HtKey × Nat) 2) sampleElems = some (H, olds) ∧
      H.Represents Prod.fst 2 sampleElems ∧ olds.length = sampleElems.length ∧
      (∀ i e, sampleElems[i]? = some e →
        olds[i]? = some (latest Prod.fst e.1 (sampleElems.take i))) ∧
      ∀ k, 0 ≤ (hash k 2).toInt ∧ (hash k 2).toInt < (2 : Int32).toInt :=
  tableInserts_represents Prod.fst 2 (by decide) sampleElems

end Table

end WowProxy.Hashtable
