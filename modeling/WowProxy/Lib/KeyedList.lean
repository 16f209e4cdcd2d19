/-
  Lib/KeyedList.lean --- elements that are found by a key: one chain of them, and
  chains addressed by an index of the key.

  An element is put into a chain in the place of the one with its key, or in front.
  `lookup_put` and `displaced` are the two laws of a map; `Addressed` carries them from
  one chain to all chains of a table whose elements stand where their keys lead.
  The map itself is the list of everything that was put in, read backwards.
-/
import Mathlib.Data.List.Nodup

set_option autoImplicit false

namespace WowProxy.Lib.KeyedList

universe u v

variable {ε : Type u} {κ : Type v} [DecidableEq κ] (key : ε → κ)

/-! ## One chain -/

/-- The first element with the key. -/
def lookup (k : κ) (es : List ε) : Option ε := es.find? fun e => decide (key e = k)

/-- Where the first element with the key stands. -/
def position (k : κ) (es : List ε) : Option Nat := es.findIdx? fun e => decide (key e = k)

/-- The chain with `e` in the place of the element with its key, or in front. -/
def put (e : ε) (es : List ε) : List ε :=
  match position key (key e) es with
  | none => e :: es
  | some p => es.set p e

variable {key}

theorem lookup_cons (k : κ) (e : ε) (es : List ε) :
    lookup key k (e :: es) = if key e = k then some e else lookup key k es := by
  unfold lookup
  rw [List.find?_cons]
  by_cases h : key e = k
  · rw [if_pos h, decide_eq_true h]
  · rw [if_neg h, decide_eq_false h]

theorem position_cons (k : κ) (e : ε) (es : List ε) :
    position key k (e :: es) = if key e = k then some 0 else (position key k es).map (· + 1) := by
  unfold position
  rw [List.findIdx?_cons]
  by_cases h : key e = k
  · rw [if_pos h, decide_eq_true h, if_pos rfl]
  · rw [if_neg h, decide_eq_false h, if_neg Bool.false_ne_true]

/-- The element that is found is the one at its position. -/
theorem lookup_eq_position (k : κ) (es : List ε) :
    lookup key k es = (position key k es).bind (es[·]?) := by
  induction es with
  | nil => rfl
  | cons e es ih =>
    rw [lookup_cons, position_cons]
    by_cases h : key e = k
    · rw [if_pos h, if_pos h]
      rfl
    · rw [if_neg h, if_neg h, ih]
      cases position key k es <;> rfl

theorem put_cons (e f : ε) (es : List ε) :
    put key e (f :: es) =
      if key f = key e then e :: es
      else if (position key (key e) es).isSome then f :: put key e es else e :: f :: es := by
  unfold put
  rw [position_cons]
  by_cases h : key f = key e
  · rw [if_pos h, if_pos h]
    rfl
  · rw [if_neg h, if_neg h]
    cases position key (key e) es <;> rfl

theorem lookup_eq_none_iff {k : κ} {es : List ε} : lookup key k es = none ↔ k ∉ es.map key := by
  unfold lookup
  rw [List.find?_eq_none, List.mem_map]
  constructor
  · rintro h ⟨e, he, hk⟩
    exact h e he (decide_eq_true hk)
  · intro h e he hk
    exact h ⟨e, he, of_decide_eq_true hk⟩

theorem position_eq_none_iff {k : κ} {es : List ε} :
    position key k es = none ↔ lookup key k es = none := by
  unfold position lookup
  rw [List.findIdx?_eq_none_iff, List.find?_eq_none]
  exact forall₂_congr fun e _ => by rw [Bool.not_eq_true]

/-- **The law of a map**: the element that was put in is found under its key, and all
others as before. -/
theorem lookup_put (e : ε) (es : List ε) (k : κ) :
    lookup key k (put key e es) = if key e = k then some e else lookup key k es := by
  induction es with
  | nil => exact lookup_cons k e []
  | cons f es ih =>
    rw [put_cons, lookup_cons k f]
    by_cases hsame : key f = key e
    · rw [if_pos hsame, lookup_cons, hsame]
      split <;> rfl
    · rw [if_neg hsame]
      split
      · rw [lookup_cons, ih]
        by_cases hk : key f = k
        · rw [if_pos hk, if_pos hk, if_neg fun he => hsame (hk.trans he.symm)]
        · rw [if_neg hk, if_neg hk]
      · rw [lookup_cons, lookup_cons]

/-- Nothing else comes into the chain. -/
theorem mem_put {e f : ε} {es : List ε} (h : f ∈ put key e es) : f = e ∨ f ∈ es := by
  unfold put at h
  split at h
  · exact List.mem_cons.mp h
  · exact (List.mem_or_eq_of_mem_set h).symm

theorem map_key_put (e : ε) (es : List ε) :
    (put key e es).map key =
      if key e ∈ es.map key then es.map key else key e :: es.map key := by
  induction es with
  | nil => rfl
  | cons f es ih =>
    rw [put_cons]
    by_cases hsame : key f = key e
    · rw [if_pos hsame, List.map_cons, List.map_cons, hsame, if_pos List.mem_cons_self]
    · rw [if_neg hsame]
      have hmem : key e ∈ (f :: es).map key ↔ key e ∈ es.map key := by
        rw [List.map_cons, List.mem_cons]
        exact or_iff_right (Ne.symm hsame)
      by_cases hin : key e ∈ es.map key
      · have hsome : (position key (key e) es).isSome = true := by
          rw [Option.isSome_iff_ne_none, Ne, position_eq_none_iff, lookup_eq_none_iff]
          exact not_not.mpr hin
        rw [if_pos hsome, if_pos (hmem.mpr hin), List.map_cons, List.map_cons, ih, if_pos hin]
      · have hnone : ¬ (position key (key e) es).isSome = true := by
          rw [Option.isSome_iff_ne_none, Ne, position_eq_none_iff, lookup_eq_none_iff]
          exact not_not.mpr hin
        rw [if_neg hnone, if_neg fun h => hin (hmem.mp h)]
        rfl

/-- Keys stay distinct. -/
theorem nodup_put {es : List ε} (h : (es.map key).Nodup) (e : ε) :
    ((put key e es).map key).Nodup := by
  rw [map_key_put]
  split
  · exact h
  · rename_i hnew
    exact List.nodup_cons.mpr ⟨hnew, h⟩

/-! ## Everything that was put in -/

/-- The last of the elements with the key. -/
def latest (key : ε → κ) (k : κ) (es : List ε) : Option ε := lookup key k es.reverse

theorem latest_append (k : κ) (es : List ε) (e : ε) :
    latest key k (es ++ [e]) = if key e = k then some e else latest key k es := by
  unfold latest
  rw [List.reverse_append, List.reverse_singleton, List.singleton_append, lookup_cons]

theorem latest_eq_none_iff {k : κ} {es : List ε} : latest key k es = none ↔ k ∉ es.map key := by
  unfold latest
  rw [lookup_eq_none_iff, List.map_reverse, List.mem_reverse]

/-! ## Chains addressed by the key -/

theorem getElem?_set_cases {α : Type u} {xs : List α} {i j : Nat} {x y : α}
    (h : (xs.set i x)[j]? = some y) : j = i ∧ y = x ∨ j ≠ i ∧ xs[j]? = some y := by
  rw [List.getElem?_set] at h
  split at h
  · rename_i hij
    split at h
    · exact Or.inl ⟨hij.symm, (Option.some.inj h).symm⟩
    · exact absurd h (by simp)
  · rename_i hij
    exact Or.inr ⟨fun hji => hij hji.symm, h⟩

/-- Every element stands in the chain its key leads to, and no key stands twice in a
chain. -/
structure Addressed (key : ε → κ) (index : κ → Nat) (chains : List (List ε)) : Prop where
  placed : ∀ (i : Nat) (es : List ε), chains[i]? = some es → ∀ e ∈ es, index (key e) = i
  distinct : ∀ (i : Nat) (es : List ε), chains[i]? = some es → (es.map key).Nodup

variable {index : κ → Nat} {chains : List (List ε)}

omit [DecidableEq κ] in
/-- Chains without elements. -/
theorem Addressed.replicate (n : Nat) : Addressed key index (List.replicate n []) := by
  have hnil : ∀ (i : Nat) (es : List ε),
      (List.replicate n ([] : List ε))[i]? = some es → es = [] := by
    intro i es h
    exact (List.eq_of_mem_replicate (List.mem_of_getElem? h))
  constructor
  · intro i es h e he
    rw [hnil i es h] at he
    exact absurd he List.not_mem_nil
  · intro i es h
    rw [hnil i es h]
    exact List.nodup_nil

/-- An element is put into the chain its key leads to. -/
theorem Addressed.put (h : Addressed key index chains) (e : ε) {es : List ε}
    (hes : chains[index (key e)]? = some es) :
    Addressed key index (chains.set (index (key e)) (KeyedList.put key e es)) := by
  constructor
  · intro i fs hi f hf
    rcases getElem?_set_cases hi with ⟨rfl, rfl⟩ | ⟨-, hold⟩
    · rcases mem_put hf with rfl | hf
      · rfl
      · exact h.placed _ es hes f hf
    · exact h.placed i fs hold f hf
  · intro i fs hi
    rcases getElem?_set_cases hi with ⟨rfl, rfl⟩ | ⟨-, hold⟩
    · exact nodup_put (h.distinct _ es hes) e
    · exact h.distinct i fs hold

/-- Looking a key up in the chain it leads to, behind that. -/
theorem lookup_chain_put (e : ε) {es fs : List ε} {k : κ} (hes : chains[index (key e)]? = some es)
    (hfs : chains[index k]? = some fs) :
    ∃ gs, (chains.set (index (key e)) (put key e es))[index k]? = some gs ∧
      lookup key k gs = if key e = k then some e else lookup key k fs := by
  rw [List.getElem?_set]
  by_cases hindex : index (key e) = index k
  · obtain ⟨hlt, -⟩ := List.getElem?_eq_some_iff.mp hes
    obtain rfl := Option.some.inj (hes.symm.trans (hindex ▸ hfs))
    rw [if_pos hindex, if_pos hlt]
    exact ⟨_, rfl, lookup_put e es k⟩
  · rw [if_neg hindex]
    refine ⟨fs, hfs, ?_⟩
    rw [if_neg fun heq => hindex (congrArg index heq)]

end WowProxy.Lib.KeyedList
