/-
  Common/CJsonPrintMemory.lean --- what `cJSON_Print` allocates.

  Every text is a block of its own.  The printer of an array or an object keeps those of
  its entries until they are copied, in arrays that are blocks too, and frees all of them.
  The texts are those of `Common/CJsonPrint`.
-/
import WowProxy.Common.CJsonPrint
import WowProxy.Lib.Blocks

set_option autoImplicit false

namespace WowProxy.CJsonMem

open WowProxy.CJson
open WowProxy.Lib.Blocks
open WowProxy.Lib.JsonText

/-! ## From the source -/

/-- A printed text and its block. -/
abbrev Text := Nat × List UInt8

/-- A text is written into a block of its own. -/
def allocated (text : Option (List UInt8)) : Prog Text := do
  let out ← malloc
  let text ← need text
  return (out, text)

/-- The loop of `print_array` that frees the entries. -/
def freeEntries : List Text → Prog Unit
  | [] => pure ()
  | ret :: entries => do
    free ret.1
    freeEntries entries

/-- The loop of `print_object` that frees the names and the entries. -/
def freeMembers : List (Text × Text) → Prog Unit
  | [] => pure ()
  | (str, ret) :: members => do
    free str.1
    free ret.1
    freeMembers members

mutual

/-- `print_value(item, depth, fmt, 0)`. -/
def printValue (fmt : Bool) (depth : Nat) : Json Int32 → Prog Text
  | .null => allocated (stored 5 (ascii "null"))
  | .bool b => allocated (if b then stored 5 (ascii "true") else stored 6 (ascii "false"))
  | .number n => allocated (printNumber n)
  | .string s => allocated (printString s)
  | .array [] => allocated (printArray fmt [])
  | .array (v :: items) => do
    let entries ← malloc
    let ret ← printValue fmt (depth + 1) v
    let rets ← printItems fmt (depth + 1) items
    let out ← allocated (printArray fmt ((ret :: rets).map Prod.snd))
    freeEntries (ret :: rets)
    free entries
    return out
  | .object [] => allocated (printMembers fmt depth [])
  | .object ((string, v) :: members) => do
    let entries ← malloc
    let names ← malloc
    let str ← allocated (printString string)
    let ret ← printValue fmt (depth + 1) v
    let rets ← printEntries fmt (depth + 1) members
    let out ← allocated (printMembers fmt depth
      (((str, ret) :: rets).map fun m => (m.1.2, m.2.2)))
    freeMembers ((str, ret) :: rets)
    free names
    free entries
    return out
termination_by structural v => v

/-- The loop of `print_array` over its children. -/
def printItems (fmt : Bool) (depth : Nat) : List (Json Int32) → Prog (List Text)
  | [] => return []
  | v :: items => do
    let ret ← printValue fmt depth v
    let rets ← printItems fmt depth items
    return ret :: rets
termination_by structural items => items

/-- The loop of `print_object` over its children. -/
def printEntries (fmt : Bool) (depth : Nat) :
    List (List UInt8 × Json Int32) → Prog (List (Text × Text))
  | [] => return []
  | (string, v) :: members => do
    let str ← allocated (printString string)
    let ret ← printValue fmt depth v
    let rets ← printEntries fmt depth members
    return (str, ret) :: rets
termination_by structural members => members

end

/-! ## What is left -/

section Blocks

variable {pre : List Nat}

theorem owns_allocated {text : Option (List UInt8)} {t : List UInt8} (h : text = some t) :
    Owns pre (allocated text) fun r own => r.2 = t ∧ own = r.1 :: pre := by
  refine (Owns.malloc pre).bind fun out own hown => ?_
  subst hown
  refine (Owns.need h).bind fun text own htext => ?_
  obtain ⟨rfl, rfl⟩ := htext
  exact .pure ⟨rfl, rfl⟩

theorem owns_freeEntries (rets : List Text) (pre : List Nat) :
    Owns (rets.map Prod.fst ++ pre) (freeEntries rets) fun _ own => own = pre := by
  induction rets with
  | nil => exact .pure rfl
  | cons ret rets ih =>
    rw [freeEntries, List.map_cons, List.cons_append]
    refine (Owns.free ret.1 _).bind fun _ own hown => ?_
    subst hown
    exact ih

/-- The blocks of the names and the entries. -/
def memberBlocks (rets : List (Text × Text)) : List Nat := rets.flatMap fun m => [m.1.1, m.2.1]

theorem owns_freeMembers (rets : List (Text × Text)) (pre : List Nat) :
    Owns (memberBlocks rets ++ pre) (freeMembers rets) fun _ own => own = pre := by
  induction rets with
  | nil => exact .pure rfl
  | cons m rets ih =>
    obtain ⟨str, ret⟩ := m
    show Owns (str.1 :: ret.1 :: (memberBlocks rets ++ pre)) _ _
    rw [freeMembers]
    refine (Owns.free str.1 _).bind fun _ own hown => ?_
    subst hown
    refine (Owns.free ret.1 _).bind fun _ own hown => ?_
    subst hown
    exact ih

end Blocks

/-- The printer has made this text, and holds its block beside `pre`. -/
def Prints (t : List UInt8) (pre : List Nat) (r : Text) (own : List Nat) : Prop :=
  r.2 = t ∧ own = r.1 :: pre

section Out

variable {fmt : Bool} {t : List UInt8} {pre own : List Nat}

/-- Behind its entries an array is printed, and they are freed. -/
theorem owns_arrayOut {rets : List Text} {entries : Nat}
    (h : printArray fmt (rets.map Prod.snd) = some t)
    (hown : own.Perm (rets.map Prod.fst ++ entries :: pre)) :
    Owns own
      (do
        let out ← allocated (printArray fmt (rets.map Prod.snd))
        freeEntries rets
        free entries
        return out)
      (Prints t pre) := by
  refine (owns_allocated h).bind fun out own' hout => ?_
  obtain ⟨hout, rfl⟩ := hout
  have hown' : (out.1 :: own).Perm (rets.map Prod.fst ++ entries :: out.1 :: pre) :=
    (hown.cons out.1).trans <| List.perm_iff_count.mpr fun x => by
      simp only [List.count_cons, List.count_append]
      omega
  refine ((owns_freeEntries rets _).perm hown').bind fun _ own hown => ?_
  subst hown
  refine (Owns.free entries _).bind fun _ own hown => ?_
  subst hown
  exact .pure ⟨hout, rfl⟩

/-- Behind its members an object is printed, and they are freed with their names. -/
theorem owns_objectOut {depth : Nat} {rets : List (Text × Text)} {names entries : Nat}
    (h : printMembers fmt depth (rets.map fun m => (m.1.2, m.2.2)) = some t)
    (hown : own.Perm (memberBlocks rets ++ names :: entries :: pre)) :
    Owns own
      (do
        let out ← allocated (printMembers fmt depth (rets.map fun m => (m.1.2, m.2.2)))
        freeMembers rets
        free names
        free entries
        return out)
      (Prints t pre) := by
  refine (owns_allocated h).bind fun out own' hout => ?_
  obtain ⟨hout, rfl⟩ := hout
  have hown' : (out.1 :: own).Perm (memberBlocks rets ++ names :: entries :: out.1 :: pre) :=
    (hown.cons out.1).trans <| List.perm_iff_count.mpr fun x => by
      simp only [List.count_cons, List.count_append]
      omega
  refine ((owns_freeMembers rets _).perm hown').bind fun _ own hown => ?_
  subst hown
  refine (Owns.free names _).bind fun _ own hown => ?_
  subst hown
  refine (Owns.free entries _).bind fun _ own hown => ?_
  subst hown
  exact .pure ⟨hout, rfl⟩

end Out

mutual

/-- A text that can be printed is printed, and its block is all that stays. -/
theorem owns_printValue (fmt : Bool) (depth : Nat) : ∀ (v : Json Int32) (t : List UInt8)
    (pre : List Nat), CJson.printValue fmt depth v = some t →
      Owns pre (printValue fmt depth v) (Prints t pre)
  | .null, t, pre, h => by
    rw [printValue]
    exact owns_allocated h
  | .bool b, t, pre, h => by
    rw [printValue]
    exact owns_allocated h
  | .number n, t, pre, h => by
    rw [printValue]
    exact owns_allocated h
  | .string s, t, pre, h => by
    rw [printValue]
    exact owns_allocated h
  | .array [], t, pre, h => by
    rw [printValue]
    exact owns_allocated h
  | .array (v :: items), t, pre, h => by
    rw [CJson.printValue, CJson.printItems] at h
    obtain ⟨texts, htexts, hout⟩ := Option.bind_eq_some_iff.mp h
    obtain ⟨first, hfirst, hrest⟩ := Option.bind_eq_some_iff.mp htexts
    obtain ⟨rest, hmore, rfl⟩ := Option.map_eq_some_iff.mp hrest
    rw [printValue]
    refine (Owns.malloc pre).bind fun entries own hown => ?_
    subst hown
    refine (owns_printValue fmt (depth + 1) v first _ hfirst).bind fun ret own hret => ?_
    obtain ⟨hret, rfl⟩ := hret
    refine (owns_printItems fmt (depth + 1) items rest _ hmore).bind fun rets own hrets => ?_
    obtain ⟨hrets, hown⟩ := hrets
    have htexts : (ret :: rets).map Prod.snd = first :: rest := by
      rw [List.map_cons, hret, hrets]
    exact owns_arrayOut (htexts ▸ hout) (hown.trans List.perm_middle)
  | .object [], t, pre, h => by
    rw [printValue]
    exact owns_allocated h
  | .object ((string, v) :: members), t, pre, h => by
    rw [CJson.printValue, CJson.printEntries] at h
    obtain ⟨texts, htexts, hout⟩ := Option.bind_eq_some_iff.mp h
    obtain ⟨name, hname, hvalue⟩ := Option.bind_eq_some_iff.mp htexts
    obtain ⟨first, hfirst, hrest⟩ := Option.bind_eq_some_iff.mp hvalue
    obtain ⟨rest, hmore, rfl⟩ := Option.map_eq_some_iff.mp hrest
    rw [printValue]
    refine (Owns.malloc pre).bind fun entries own hown => ?_
    subst hown
    refine (Owns.malloc _).bind fun names own hown => ?_
    subst hown
    refine (owns_allocated hname).bind fun str own hstr => ?_
    obtain ⟨hstr, rfl⟩ := hstr
    refine (owns_printValue fmt (depth + 1) v first _ hfirst).bind fun ret own hret => ?_
    obtain ⟨hret, rfl⟩ := hret
    refine (owns_printEntries fmt (depth + 1) members rest _ hmore).bind fun rets own hrets => ?_
    obtain ⟨hrets, hown⟩ := hrets
    have htexts : ((str, ret) :: rets).map (fun m => (m.1.2, m.2.2)) = (name, first) :: rest := by
      rw [List.map_cons, hrets]
      dsimp only
      rw [hstr, hret]
    have hown' : own.Perm (memberBlocks ((str, ret) :: rets) ++ names :: entries :: pre) := by
      refine hown.trans ?_
      show List.Perm _ (str.1 :: ret.1 :: (memberBlocks rets ++ _))
      exact List.perm_iff_count.mpr fun x => by
        simp only [List.count_cons, List.count_append]
        omega
    exact owns_objectOut (htexts ▸ hout) hown'

theorem owns_printItems (fmt : Bool) (depth : Nat) : ∀ (items : List (Json Int32))
    (texts : List (List UInt8)) (pre : List Nat), CJson.printItems fmt depth items = some texts →
      Owns pre (printItems fmt depth items) fun rets own =>
        rets.map Prod.snd = texts ∧ own.Perm (rets.map Prod.fst ++ pre)
  | [], texts, pre, h => by
    obtain rfl := Option.some.inj h
    exact .pure ⟨rfl, .refl _⟩
  | v :: items, texts, pre, h => by
    rw [CJson.printItems] at h
    obtain ⟨first, hfirst, hrest⟩ := Option.bind_eq_some_iff.mp h
    obtain ⟨rest, hmore, rfl⟩ := Option.map_eq_some_iff.mp hrest
    rw [printItems]
    refine (owns_printValue fmt depth v first pre hfirst).bind fun ret own hret => ?_
    obtain ⟨hret, rfl⟩ := hret
    refine (owns_printItems fmt depth items rest _ hmore).bind fun rets own hrets => ?_
    obtain ⟨hrets, hown⟩ := hrets
    exact .pure ⟨by rw [List.map_cons, hret, hrets], hown.trans List.perm_middle⟩

theorem owns_printEntries (fmt : Bool) (depth : Nat) :
    ∀ (members : List (List UInt8 × Json Int32)) (texts : List (List UInt8 × List UInt8))
      (pre : List Nat), CJson.printEntries fmt depth members = some texts →
      Owns pre (printEntries fmt depth members) fun rets own =>
        rets.map (fun m => (m.1.2, m.2.2)) = texts ∧ own.Perm (memberBlocks rets ++ pre)
  | [], texts, pre, h => by
    obtain rfl := Option.some.inj h
    exact .pure ⟨rfl, .refl _⟩
  | (string, v) :: members, texts, pre, h => by
    rw [CJson.printEntries] at h
    obtain ⟨name, hname, hvalue⟩ := Option.bind_eq_some_iff.mp h
    obtain ⟨first, hfirst, hrest⟩ := Option.bind_eq_some_iff.mp hvalue
    obtain ⟨rest, hmore, rfl⟩ := Option.map_eq_some_iff.mp hrest
    rw [printEntries]
    refine (owns_allocated hname).bind fun str own hstr => ?_
    obtain ⟨hstr, rfl⟩ := hstr
    refine (owns_printValue fmt depth v first _ hfirst).bind fun ret own hret => ?_
    obtain ⟨hret, rfl⟩ := hret
    refine (owns_printEntries fmt depth members rest _ hmore).bind fun rets own hrets => ?_
    obtain ⟨hrets, hown⟩ := hrets
    refine .pure ⟨?_, hown.trans ?_⟩
    · rw [List.map_cons, hrets]
      dsimp only
      rw [hstr, hret]
    · show List.Perm _ (str.1 :: ret.1 :: (memberBlocks rets ++ pre))
      exact List.perm_iff_count.mpr fun x => by
        simp only [List.count_cons, List.count_append]
        omega

end

/-- An array in an object. -/
def nestedItem : Json Int32 := .object [(ascii "a", .array [.number 7, .string (ascii "b")])]

end WowProxy.CJsonMem
