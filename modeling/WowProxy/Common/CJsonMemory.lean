/-
  Common/CJsonMemory.lean --- what `cJSON_Parse` allocates, and what `cJSON_Delete` frees.

  An item, its string and its `valuestring` are blocks.  A new item is linked into the
  tree before its text is parsed, so that what has been allocated when the parser gives up
  hangs on the root.  The functions are those of the parser; of the outcome of a
  call they keep all but the value, since a fault ends the program anyway.
-/
import WowProxy.Common.CJsonParse
import WowProxy.Lib.Blocks

set_option autoImplicit false

namespace WowProxy.CJsonMem

open WowProxy.CJson
open WowProxy.Lib.Blocks
open WowProxy.Lib.JsonText

/-! ## From the source -/

/-- A `cJSON` with the items behind `child`, which are linked to one another. -/
inductive MemItem where
  | item (addr : Nat) (valuestring string : Option Nat) (child : List MemItem)

mutual

/-- One round of `cJSON_Delete` -/
def deleteItem : MemItem → Prog Unit
  | .item addr valuestring string child => do
    cJsonDelete child
    freeSome valuestring
    freeSome string
    free addr

/-- `cJSON_Delete` -/
def cJsonDelete : List MemItem → Prog Unit
  | [] => pure ()
  | c :: next => do
    deleteItem c
    cJsonDelete next

end

/-- An item that is filled, and how the call ended. -/
abbrev Filling := MemItem × Parsed Unit

/-- What a call ended with, without its value. -/
def outcome {α : Type} (p : Parsed α) : Parsed Unit := p.map fun _ => ()

/-- `parse_string`: the block behind `valuestring`. -/
def parseString (value : List UInt8) : Prog (Option Nat × Parsed Unit) :=
  match CJson.parseString value with
  | .fault => return (none, .fault)
  | .null => return (none, .null)
  | .item _ ptr => do
    let out ← malloc
    return (some out, .item () ptr)

/-- A test of `parse_value` for a literal. -/
def parseLiteral (item : MemItem) (literal value : List UInt8) (otherwise : Prog Filling) :
    Prog Filling :=
  match strncmpEq value literal with
  | none => return (item, .fault)
  | some true => return (item, .item () (value.drop literal.length))
  | some false => otherwise

/-- The items that have been linked, and how the call ended. -/
abbrev Items := List MemItem × Parsed Unit

/-- What follows a call whose result is tested for `0`. -/
def andThen (linked : List MemItem) (r : Parsed Unit) (next : List UInt8 → Prog Items) :
    Prog Items :=
  match r with
  | .fault => return (linked, .fault)
  | .null => return (linked, .null)
  | .item _ value => next value

/-- What follows on the pointer that `skip` returns. -/
def skipThen (linked : List MemItem) (value : List UInt8) (next : List UInt8 → Prog Items) :
    Prog Items :=
  match skip value with
  | none => return (linked, .fault)
  | some value => next value

mutual

/-- `parse_value`, into the item at `addr`. -/
def parseValue : Nat → Nat → Option Nat → List UInt8 → Prog Filling
  | 0, addr, string, _ => return (.item addr none string [], .fault)
  | fuel + 1, addr, string, value =>
    let item : MemItem := .item addr none string []
    parseLiteral item (ascii "null") value <|
    parseLiteral item (ascii "false") value <|
    parseLiteral item (ascii "true") value <|
    match value with
    | [] => return (item, .fault)
    | b :: rest =>
      if b = 34 then do
        let r ← parseString (b :: rest)
        return (.item addr r.1 string [], r.2)
      else if b = 45 ∨ isDigit b = true then
        return (item, outcome (Parsed.ofRead (parseNumber (b :: rest))))
      else if b = 91 then do
        let r ← parseArray fuel (b :: rest)
        return (.item addr none string r.1, r.2)
      else if b = 123 then do
        let r ← parseObject fuel (b :: rest)
        return (.item addr none string r.1, r.2)
      else return (item, .null)

/-- `parse_array` -/
def parseArray : Nat → List UInt8 → Prog Items
  | 0, _ => return ([], .fault)
  | _ + 1, [] => return ([], .fault)
  | fuel + 1, b :: value =>
    if b ≠ 91 then return ([], .null)
    else
      skipThen [] value fun value =>
        if value.head? = some 93 then return ([], .item () value.tail)
        else parseItems fuel value

/-- `parse_array` from an item on. -/
def parseItems : Nat → List UInt8 → Prog Items
  | 0, _ => return ([], .fault)
  | fuel + 1, value => do
    let addr ← malloc
    skipThen [.item addr none none []] value fun value => do
      let child ← parseValue fuel addr none value
      andThen [child.1] child.2 fun value =>
        skipThen [child.1] value fun value =>
          if value.head? = some 44 then do
            let next ← parseItems fuel value.tail
            return (child.1 :: next.1, next.2)
          else if value.head? = some 93 then return ([child.1], .item () value.tail)
          else return ([child.1], .null)

/-- `parse_object` -/
def parseObject : Nat → List UInt8 → Prog Items
  | 0, _ => return ([], .fault)
  | _ + 1, [] => return ([], .fault)
  | fuel + 1, b :: value =>
    if b ≠ 123 then return ([], .null)
    else
      skipThen [] value fun value =>
        if value.head? = some 125 then return ([], .item () value.tail)
        else parseMembers fuel value

/-- `parse_object` from a member on: the `valuestring` becomes the `string`. -/
def parseMembers : Nat → List UInt8 → Prog Items
  | 0, _ => return ([], .fault)
  | fuel + 1, value => do
    let addr ← malloc
    skipThen [.item addr none none []] value fun value => do
      let string ← parseString value
      let named : MemItem := .item addr none string.1 []
      andThen [named] string.2 fun value =>
        skipThen [named] value fun value =>
          if value.head? ≠ some 58 then return ([named], .null)
          else
            skipThen [named] value.tail fun value => do
              let child ← parseValue fuel addr string.1 value
              andThen [child.1] child.2 fun value =>
                skipThen [child.1] value fun value =>
                  if value.head? = some 44 then do
                    let next ← parseMembers fuel value.tail
                    return (child.1 :: next.1, next.2)
                  else if value.head? = some 125 then return ([child.1], .item () value.tail)
                  else return ([child.1], .null)

end

/-- `cJSON_ParseWithOpts`: the root that is returned, and how the call ended. -/
def parseWithOpts (value : List UInt8) (requireNullTerminated : Bool) :
    Prog (Option MemItem × Parsed Unit) := do
  let addr ← malloc
  match skip value with
  | none => return (none, .fault)
  | some start => do
    let c ← parseValue (3 * value.length + 1) addr none start
    match c.2 with
    | .fault => return (none, .fault)
    | .null => do
      cJsonDelete [c.1]
      return (none, .null)
    | .item _ ptr =>
      if requireNullTerminated then
        match skip ptr with
        | none => return (none, .fault)
        | some ptr =>
          if ptr.head? = some 0 then return (some c.1, .item () ptr)
          else do
            cJsonDelete [c.1]
            return (none, .null)
      else return (some c.1, .item () ptr)

/-! ## Trees -/

mutual

/-- The blocks of an item, in the order they are freed. -/
def MemItem.blocks : MemItem → List Nat
  | .item addr valuestring string child =>
    blocksAll child ++ (valuestring.toList ++ (string.toList ++ [addr]))

def blocksAll : List MemItem → List Nat
  | [] => []
  | c :: next => c.blocks ++ blocksAll next

end

mutual

/-- An item is deleted with all its blocks. -/
theorem owns_deleteItem : ∀ (c : MemItem) (rest : List Nat),
    Owns (c.blocks ++ rest) (deleteItem c) fun _ own => own = rest
  | .item addr valuestring string child, rest => by
    rw [MemItem.blocks, deleteItem, List.append_assoc, List.append_assoc, List.append_assoc]
    refine (owns_cJsonDelete child _).bind fun _ own hown => ?_
    subst hown
    refine (Owns.freeSome valuestring _).bind fun _ own hown => ?_
    subst hown
    refine (Owns.freeSome string _).bind fun _ own hown => ?_
    subst hown
    exact .free addr rest

theorem owns_cJsonDelete : ∀ (cs : List MemItem) (rest : List Nat),
    Owns (blocksAll cs ++ rest) (cJsonDelete cs) fun _ own => own = rest
  | [], rest => .pure rfl
  | c :: cs, rest => by
    rw [blocksAll, cJsonDelete, List.append_assoc]
    refine (owns_deleteItem c _).bind fun _ own hown => ?_
    subst hown
    exact owns_cJsonDelete cs rest

end

/-! ## Parsing -/

/-- The item is as far as the parser came, and what is allocated beside `pre` is its
blocks. -/
def Fills {α : Type} (expected : Parsed α) (pre : List Nat) (r : Filling) (own : List Nat) :
    Prop :=
  r.2 = outcome expected ∧ own.Perm (r.1.blocks ++ pre)

/-- So are the items that have been linked. -/
def Links {α : Type} (expected : Parsed α) (pre : List Nat) (r : Items) (own : List Nat) : Prop :=
  r.2 = outcome expected ∧ own.Perm (blocksAll r.1 ++ pre)

section Steps

variable {α β : Type}

theorem outcome_map (f : α → β) (p : Parsed α) : outcome (p.map f) = outcome p := by
  cases p <;> rfl

theorem Links.map {p : Parsed α} {pre own : List Nat} {r : Items} (f : α → β)
    (h : Links p pre r own) : Links (p.map f) pre r own :=
  ⟨h.1.trans (outcome_map f p).symm, h.2⟩

theorem blocksAll_singleton (c : MemItem) : blocksAll [c] = c.blocks := by
  rw [blocksAll, blocksAll, List.append_nil]

/-- An item stands in front of those that are linked behind it. -/
theorem Links.cons {p : Parsed α} {pre own own' : List Nat} {child : MemItem} {next : Items}
    (h : Links p own next own') (hown : own.Perm (blocksAll [child] ++ pre)) :
    Links p pre (child :: next.1, next.2) own' := by
  refine ⟨h.1, (h.2.trans (hown.append_left _)).trans ?_⟩
  show List.Perm _ (blocksAll (child :: next.1) ++ pre)
  rw [blocksAll_singleton, blocksAll, ← List.append_assoc]
  exact .append_right _ List.perm_append_comm

/-- The items of a call hang on the item that it fills. -/
theorem Links.fills {p : Parsed α} {pre own : List Nat} {r : Items} {addr : Nat}
    {string : Option Nat} (h : Links p (addr :: (string.toList ++ pre)) r own) :
    Fills p pre (.item addr none string r.1, r.2) own := by
  refine ⟨h.1, h.2.trans ?_⟩
  show List.Perm _ (MemItem.blocks _ ++ pre)
  rw [MemItem.blocks, List.append_assoc]
  refine .append_left _ ?_
  show List.Perm _ (string.toList ++ [addr] ++ pre)
  rw [List.append_assoc]
  exact List.perm_middle.symm

variable {linked : List MemItem} {own pre : List Nat}

theorem owns_andThen {p : Parsed α} {f : α → List UInt8 → Parsed β} {r : Parsed Unit}
    {next : List UInt8 → Prog Items} (hr : r = outcome p)
    (hown : own.Perm (blocksAll linked ++ pre))
    (hnext : ∀ a value, Owns own (next value) (Links (f a value) pre)) :
    Owns own (andThen linked r next) (Links (p.bind f) pre) := by
  subst hr
  cases p with
  | fault => exact .pure ⟨rfl, hown⟩
  | null => exact .pure ⟨rfl, hown⟩
  | item a value => exact hnext a value

theorem owns_skipThen {f : List UInt8 → Parsed β} {value : List UInt8}
    {next : List UInt8 → Prog Items} (hown : own.Perm (blocksAll linked ++ pre))
    (hnext : ∀ value, Owns own (next value) (Links (f value) pre)) :
    Owns own (skipThen linked value next) (Links (CJson.skipThen value f) pre) := by
  rw [skipThen, CJson.skipThen]
  cases skip value with
  | none => exact .pure ⟨rfl, hown⟩
  | some value => exact hnext value

theorem owns_parseString (value : List UInt8) (pre : List Nat) :
    Owns pre (parseString value) fun r own =>
      r.2 = outcome (CJson.parseString value) ∧ own = r.1.toList ++ pre := by
  rw [parseString]
  cases CJson.parseString value with
  | fault => exact .pure ⟨rfl, rfl⟩
  | null => exact .pure ⟨rfl, rfl⟩
  | item s ptr =>
    refine (Owns.malloc pre).bind fun out own hown => ?_
    subst hown
    exact .pure ⟨rfl, rfl⟩

/-- The blocks of an item without children. -/
theorem blocks_leaf (addr : Nat) (valuestring string : Option Nat) :
    (MemItem.item addr valuestring string []).blocks =
      valuestring.toList ++ (string.toList ++ [addr]) := by
  rw [MemItem.blocks, blocksAll, List.nil_append]

theorem perm_leaf (addr : Nat) (valuestring string : Option Nat) (pre : List Nat) :
    (valuestring.toList ++ addr :: (string.toList ++ pre)).Perm
      ((MemItem.item addr valuestring string []).blocks ++ pre) := by
  rw [blocks_leaf, List.append_assoc, List.append_assoc]
  exact .append_left _ List.perm_middle.symm

theorem owns_parseLiteral {addr : Nat} {string : Option Nat} {literal value : List UInt8}
    {v : Json Decimal} {otherwise : Prog Filling} {expected : Parsed (Json Decimal)}
    (h : Owns (addr :: (string.toList ++ pre)) otherwise (Fills expected pre)) :
    Owns (addr :: (string.toList ++ pre))
      (parseLiteral (.item addr none string []) literal value otherwise)
      (Fills (CJson.parseLiteral literal v value expected) pre) := by
  have hleaf := perm_leaf addr none string pre
  rw [parseLiteral, CJson.parseLiteral]
  cases strncmpEq value literal with
  | none => exact .pure ⟨rfl, hleaf⟩
  | some found =>
    cases found with
    | true => exact .pure ⟨rfl, hleaf⟩
    | false => exact h

end Steps

/-- What the functions of the parser do with that much fuel. -/
structure Specs (fuel : Nat) : Prop where
  value : ∀ addr (string : Option Nat) value pre, Owns (addr :: (string.toList ++ pre))
    (parseValue fuel addr string value) (Fills (CJson.parseValue fuel value) pre)
  array : ∀ value pre,
    Owns pre (parseArray fuel value) (Links (CJson.parseArray fuel value) pre)
  items : ∀ value pre,
    Owns pre (parseItems fuel value) (Links (CJson.parseItems fuel value) pre)
  object : ∀ value pre,
    Owns pre (parseObject fuel value) (Links (CJson.parseObject fuel value) pre)
  members : ∀ value pre,
    Owns pre (parseMembers fuel value) (Links (CJson.parseMembers fuel value) pre)

theorem Specs.zero : Specs 0 where
  value addr string _ pre := .pure ⟨rfl, perm_leaf addr none string pre⟩
  array _ _ := .pure ⟨rfl, .refl _⟩
  items _ _ := .pure ⟨rfl, .refl _⟩
  object _ _ := .pure ⟨rfl, .refl _⟩
  members _ _ := .pure ⟨rfl, .refl _⟩

section Succ

variable {fuel : Nat} (ih : Specs fuel)

include ih

theorem Specs.succ_value (addr : Nat) (string : Option Nat) (value : List UInt8)
    (pre : List Nat) :
    Owns (addr :: (string.toList ++ pre)) (parseValue (fuel + 1) addr string value)
      (Fills (CJson.parseValue (fuel + 1) value) pre) := by
  have hleaf := perm_leaf addr none string pre
  cases value with
  | nil =>
    rw [parseValue, CJson.parseValue]
    exact owns_parseLiteral (owns_parseLiteral (owns_parseLiteral (.pure ⟨rfl, hleaf⟩)))
  | cons b rest =>
    rw [parseValue, CJson.parseValue]
    refine owns_parseLiteral (owns_parseLiteral (owns_parseLiteral ?_))
    split
    · refine (owns_parseString (b :: rest) _).bind fun r own hr => ?_
      obtain ⟨hout, rfl⟩ := hr
      exact .pure ⟨hout.trans (outcome_map _ _).symm, perm_leaf addr r.1 string pre⟩
    split
    · exact .pure ⟨(outcome_map _ _).symm, hleaf⟩
    split
    · refine (ih.array (b :: rest) _).bind fun r own hr => ?_
      exact .pure hr.fills
    split
    · refine (ih.object (b :: rest) _).bind fun r own hr => ?_
      exact .pure hr.fills
    · exact .pure ⟨rfl, hleaf⟩

theorem Specs.succ_array (value : List UInt8) (pre : List Nat) :
    Owns pre (parseArray (fuel + 1) value) (Links (CJson.parseArray (fuel + 1) value) pre) := by
  cases value with
  | nil => exact .pure ⟨rfl, .refl _⟩
  | cons b value =>
    rw [parseArray, CJson.parseArray]
    split
    · exact .pure ⟨rfl, .refl _⟩
    · refine owns_skipThen (.refl _) fun value => ?_
      split
      · exact .pure ⟨rfl, .refl _⟩
      · exact (ih.items value pre).weaken fun _ _ hr => hr.map _

theorem Specs.succ_object (value : List UInt8) (pre : List Nat) :
    Owns pre (parseObject (fuel + 1) value) (Links (CJson.parseObject (fuel + 1) value) pre) := by
  cases value with
  | nil => exact .pure ⟨rfl, .refl _⟩
  | cons b value =>
    rw [parseObject, CJson.parseObject]
    split
    · exact .pure ⟨rfl, .refl _⟩
    · refine owns_skipThen (.refl _) fun value => ?_
      split
      · exact .pure ⟨rfl, .refl _⟩
      · exact (ih.members value pre).weaken fun _ _ hr => hr.map _

theorem Specs.succ_items (value : List UInt8) (pre : List Nat) :
    Owns pre (parseItems (fuel + 1) value) (Links (CJson.parseItems (fuel + 1) value) pre) := by
  rw [parseItems, CJson.parseItems]
  refine (Owns.malloc pre).bind fun addr own hown => ?_
  subst hown
  have hleaf : (addr :: pre).Perm (blocksAll [.item addr none none []] ++ pre) := by
    rw [blocksAll_singleton]
    exact perm_leaf addr none none pre
  refine owns_skipThen hleaf fun value => ?_
  refine (ih.value addr none value pre).bind fun child own hchild => ?_
  obtain ⟨hout, hown⟩ := hchild
  rw [← blocksAll_singleton] at hown
  refine owns_andThen hout hown fun v value => owns_skipThen hown fun value => ?_
  split
  · refine (ih.items value.tail own).bind fun next own' hnext => ?_
    exact .pure ((hnext.cons hown).map _)
  split
  · exact .pure ⟨rfl, hown⟩
  · exact .pure ⟨rfl, hown⟩

theorem Specs.succ_members (value : List UInt8) (pre : List Nat) :
    Owns pre (parseMembers (fuel + 1) value)
      (Links (CJson.parseMembers (fuel + 1) value) pre) := by
  rw [parseMembers, CJson.parseMembers]
  refine (Owns.malloc pre).bind fun addr own hown => ?_
  subst hown
  have hleaf : ∀ string : Option Nat, (addr :: (string.toList ++ pre)).Perm
      (blocksAll [.item addr none string []] ++ pre) := by
    intro string
    rw [blocksAll_singleton]
    exact perm_leaf addr none string pre
  refine owns_skipThen (hleaf none) fun value => ?_
  refine (owns_parseString value _).bind fun string own hstring => ?_
  obtain ⟨hout, rfl⟩ := hstring
  have hnamed : (string.1.toList ++ addr :: pre).Perm
      (blocksAll [.item addr none string.1 []] ++ pre) := List.perm_middle.trans (hleaf string.1)
  refine owns_andThen hout hnamed fun s value => owns_skipThen hnamed fun value => ?_
  split
  · exact .pure ⟨rfl, hnamed⟩
  refine owns_skipThen hnamed fun value => ?_
  refine ((ih.value addr string.1 value pre).perm List.perm_middle).bind
    fun child own hchild => ?_
  obtain ⟨hout, hown⟩ := hchild
  rw [← blocksAll_singleton] at hown
  refine owns_andThen hout hown fun v value => owns_skipThen hown fun value => ?_
  split
  · refine (ih.members value.tail own).bind fun next own' hnext => ?_
    exact .pure ((hnext.cons hown).map _)
  split
  · exact .pure ⟨rfl, hown⟩
  · exact .pure ⟨rfl, hown⟩

end Succ

theorem specs (fuel : Nat) : Specs fuel := by
  induction fuel with
  | zero => exact .zero
  | succ fuel ih =>
    exact ⟨ih.succ_value, ih.succ_array, ih.succ_items, ih.succ_object, ih.succ_members⟩

/-! ## A whole text -/

/-- What `cJSON_ParseWithOpts` gives back and leaves allocated. -/
structure Leaves {α : Type} (expected : Parsed α) (pre : List Nat)
    (r : Option MemItem × Parsed Unit) (own : List Nat) : Prop where
  outcome_eq : r.2 = outcome expected
  allocated : r.2 ≠ .fault → own.Perm ((r.1.map MemItem.blocks).getD [] ++ pre)
  returned : r.1.isSome ↔ ∃ ptr, r.2 = .item () ptr

section Document

variable {α : Type} {pre own : List Nat}

theorem Leaves.fault : Leaves (.fault : Parsed α) pre (none, .fault) own :=
  ⟨rfl, fun h => absurd rfl h, by simp⟩

theorem Leaves.null : Leaves (.null : Parsed α) pre (none, .null) pre :=
  ⟨rfl, fun _ => .refl _, by simp⟩

theorem Leaves.item {a : α} {ptr : List UInt8} {c : MemItem} (hown : own.Perm (c.blocks ++ pre)) :
    Leaves (.item a ptr) pre (some c, .item () ptr) own :=
  ⟨rfl, fun _ => hown, by simp⟩

/-- The root is given up. -/
theorem owns_giveUp {c : MemItem} (hown : own.Perm (c.blocks ++ pre)) :
    Owns own (do cJsonDelete [c]; return (none, .null)) (Leaves (.null : Parsed α) pre) := by
  rw [← blocksAll_singleton] at hown
  refine ((owns_cJsonDelete [c] pre).perm hown).bind fun _ own hown => ?_
  subst hown
  exact .pure .null

end Document

theorem owns_parseWithOpts (value : List UInt8) (requireNullTerminated : Bool)
    (pre : List Nat) : Owns pre (parseWithOpts value requireNullTerminated)
      (Leaves (CJson.parseWithOpts value requireNullTerminated) pre) := by
  rw [parseWithOpts, CJson.parseWithOpts, CJson.skipThen]
  refine (Owns.malloc pre).bind fun addr own hown => ?_
  subst hown
  cases skip value with
  | none => exact .pure .fault
  | some start =>
    refine ((specs _).value addr none start pre).bind fun c own hc => ?_
    obtain ⟨hout, hown⟩ := hc
    dsimp only
    rw [hout]
    cases CJson.parseValue (3 * value.length + 1) start with
    | fault => exact .pure .fault
    | null => exact owns_giveUp hown
    | item v ptr =>
      rw [Parsed.bind_item]
      dsimp only [outcome, Parsed.map, Parsed.bind_item]
      split
      · rw [CJson.skipThen]
        cases skip ptr with
        | none => exact .pure .fault
        | some ptr =>
          dsimp only
          split
          · exact .pure (.item hown)
          · exact owns_giveUp hown
      · exact .pure (.item hown)

/-- **Where `cJSON_ParseWithOpts` stays in a text it leaks nothing: a text that is rejected,
wherever that is noticed, leaves nothing allocated, and of one that is accepted
`cJSON_Delete` frees every block once.** -/
theorem cJsonDelete_parseWithOpts {value : List UInt8} {requireNullTerminated : Bool}
    (hstays : CJson.parseWithOpts value requireNullTerminated ≠ .fault) (m : Mem) :
    ∃ root m₁, parseWithOpts value requireNullTerminated m =
        some ((root, outcome (CJson.parseWithOpts value requireNullTerminated)), m₁) ∧
      ((CJson.parseWithOpts value requireNullTerminated = .null ∧ root = none ∧
          m₁.live.Perm m.live) ∨
        ∃ v ptr c, CJson.parseWithOpts value requireNullTerminated = .item v ptr ∧
          root = some c ∧ m₁.live.Perm (c.blocks ++ m.live) ∧
          ∃ m₂, cJsonDelete [c] m₁ = some ((), m₂) ∧ m₂.live.Perm m.live) := by
  obtain ⟨⟨root, result⟩, m₁, own, hrun, hm₁, houtcome, hallocated, hreturned⟩ :=
    owns_parseWithOpts value requireNullTerminated [] m m.live (.refl _)
  dsimp only at houtcome hreturned
  subst houtcome
  refine ⟨root, m₁, hrun, ?_⟩
  cases hparse : CJson.parseWithOpts value requireNullTerminated with
  | fault => exact absurd hparse hstays
  | null =>
    have hnull : outcome (CJson.parseWithOpts value requireNullTerminated) = .null := by
      rw [hparse]
      rfl
    have hroot : root = none := by
      rw [← Option.not_isSome_iff_eq_none, hreturned]
      rintro ⟨ptr, hptr⟩
      exact absurd (hnull.symm.trans hptr) (by simp)
    have hown := hallocated (by rw [hnull]; simp)
    rw [hroot, List.append_nil] at hown
    exact .inl ⟨rfl, hroot, hm₁.trans (hown.append_right _)⟩
  | item v ptr =>
    have hitem : outcome (CJson.parseWithOpts value requireNullTerminated) = .item () ptr := by
      rw [hparse]
      rfl
    obtain ⟨c, hc⟩ := Option.isSome_iff_exists.mp (hreturned.mpr ⟨ptr, hitem⟩)
    obtain rfl : root = some c := hc
    have hown := hallocated (by rw [hitem]; simp)
    rw [List.append_nil] at hown
    have hlive : m₁.live.Perm (c.blocks ++ m.live) := hm₁.trans (hown.append_right _)
    rw [← blocksAll_singleton] at hlive
    obtain ⟨_, m₂, own', hdelete, hm₂, rfl⟩ := owns_cJsonDelete [c] [] m₁ m.live (by
      rwa [List.append_nil])
    rw [blocksAll_singleton] at hlive
    exact .inr ⟨v, ptr, c, rfl, rfl, hlive, m₂, hdelete, hm₂⟩

/-- `[1,{"a":"b"},x`: two items are in the tree when the third is rejected. -/
def rejectedText : List UInt8 :=
  [91, 49, 44, 123, 34, 97, 34, 58, 34, 98, 34, 125, 44, 120, 0]

/-- Nothing of the tree stays. -/
theorem parseWithOpts_rejectedText :
    ∃ m₁, parseWithOpts rejectedText true Mem.empty = some ((none, .null), m₁) ∧
      m₁.live.Perm Mem.empty.live := by
  have hnull : CJson.parseWithOpts rejectedText true = .null := rfl
  obtain ⟨root, m₁, hrun, ⟨-, rfl, hlive⟩ | ⟨v, ptr, c, hitem, -⟩⟩ :=
    cJsonDelete_parseWithOpts (by rw [hnull]; simp) Mem.empty
  · rw [hnull] at hrun
    exact ⟨m₁, hrun, hlive⟩
  · exact absurd (hnull.symm.trans hitem) (by simp)

end WowProxy.CJsonMem
