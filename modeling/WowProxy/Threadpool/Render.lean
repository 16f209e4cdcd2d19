/-
  Threadpool/Render.lean --- when `parse_object` accepts, and what it stores.

  The fall-through switch collects the parameters from the last to the first and
  `snprintf` writes the template of the command with them into a buffer of fixed
  size, whose result nobody looks at.  A command whose text does not fit is
  accepted with its text cut; the theorem of this file says for which templates
  and parameters that is.
-/
import Mathlib.Data.List.TakeDrop
import WowProxy.Lib.Template
import WowProxy.Threadpool.Message

set_option autoImplicit false

namespace WowProxy

open WowProxy.Lib

/-! ## What `parse_object` accepts -/

/-- The value of the member that the entry `k` of `keys` finds in `cmds`. -/
def NamedValue (cmds keys : CJson) (k : Nat) (value : List UInt8) : Prop :=
  ∃ entry member, keys.getArrayItem k = some entry ∧
    cmds.getObjectItem entry.valuestring = some member ∧ member.valuestring = some value

theorem vaildItem_eq_ok {cmds keys : CJson} {idx : Nat} {op : List UInt8} :
    vaildItem cmds keys idx = .ok op ↔ NamedValue cmds keys idx op := by
  unfold vaildItem
  constructor
  · intro h
    split at h
    · cases h
    · rename_i entry hentry
      split at h
      · cases h
      · rename_i member hmember
        split at h
        · cases h
        · rename_i value hvalue
          cases h
          exact ⟨entry, member, hentry, hmember, hvalue⟩
  · rintro ⟨entry, member, hentry, hmember, hvalue⟩
    simp only [hentry, hmember, hvalue]

theorem NamedValue.unique {cmds keys : CJson} {k : Nat} {value value' : List UInt8}
    (h : NamedValue cmds keys k value) (h' : NamedValue cmds keys k value') : value = value' := by
  have heq := (vaildItem_eq_ok.mpr h).symm.trans (vaildItem_eq_ok.mpr h')
  exact Except.ok.inj heq

/-- The switch puts the values named by the keys `1 .. n` in front of what it has
collected, in the order of the keys. -/
theorem collectParms_eq_ok {cmds keys : CJson} {n : Nat} {acc parms : List (List UInt8)} :
    collectParms cmds keys n acc = .ok parms ↔
      ∃ front, parms = front ++ acc ∧ front.length = n ∧
        ∀ k parm, front[k]? = some parm → NamedValue cmds keys (k + 1) parm := by
  induction n generalizing acc with
  | zero =>
    simp only [collectParms, Except.ok.injEq]
    constructor
    · rintro rfl
      exact ⟨[], rfl, rfl, fun k parm h => by simp at h⟩
    · rintro ⟨front, rfl, hlen, -⟩
      rw [List.length_eq_zero_iff.mp hlen, List.nil_append]
  | succ n ih =>
    simp only [collectParms]
    constructor
    · intro h
      split at h
      · cases h
      · rename_i parm hparm
        obtain ⟨front, rfl, hlen, hfront⟩ := ih.mp h
        refine ⟨front ++ [parm], by simp, by simp [hlen], fun k p hk => ?_⟩
        rw [List.getElem?_append] at hk
        split at hk
        · exact hfront k p hk
        · rename_i hge
          have hkn : k = n := by
            have hlt := (List.getElem?_eq_some_iff.mp hk).1
            simp only [List.length_singleton] at hlt
            omega
          subst hkn
          rw [hlen, Nat.sub_self, List.getElem?_cons_zero, Option.some.injEq] at hk
          exact hk ▸ vaildItem_eq_ok.mp hparm
    · rintro ⟨front, rfl, hlen, hfront⟩
      obtain ⟨init, parm, rfl⟩ : ∃ init parm, front = init ++ [parm] := by
        rcases List.eq_nil_or_concat front with rfl | ⟨init, parm, h⟩
        · simp at hlen
        · exact ⟨init, parm, by rw [h, List.concat_eq_append]⟩
      have hinit : init.length = n := by simpa using hlen
      have hlast : vaildItem cmds keys (n + 1) = .ok parm :=
        vaildItem_eq_ok.mpr (hfront n parm (by rw [← hinit]; simp))
      simp only [hlast]
      refine ih.mpr ⟨init, by simp, hinit, fun k p hk => hfront k p ?_⟩
      rw [List.getElem?_append_left (List.getElem?_eq_some_iff.mp hk).1]
      exact hk

/-- `parse_object` accepts, with this row of the table and these parameters. -/
structure Parses (d : Decoder) (cmds keys : CJson) (op : List UInt8) (row : Command)
    (parms : List (List UInt8)) : Prop where
  /-- two to five keys -/
  size : 2 ≤ keys.getArraySize ∧ keys.getArraySize ≤ 5
  /-- the first key names the number of the command -/
  opNamed : NamedValue cmds keys 0 op
  rowFound : d.valueForKey (atoi op) = some row
  paramNum : row.paramNum = (keys.getArraySize : Int) - 1
  notDeprecated : row.deprecated = false
  /-- the other keys name the parameters -/
  length : parms.length = keys.getArraySize - 1
  parm : ∀ k parm, parms[k]? = some parm → NamedValue cmds keys (k + 1) parm

/-- What `parse_object` hands out for a row and parameters. -/
def Command.render (row : Command) (parms : List (List UInt8)) : ParsedCommand :=
  { cmd := snprintf commandBufSize row.value parms,
    needRsp := row.needRsp, is2Pipe := row.is2Pipe }

/-- An accepted command has as many parameters as its row says. -/
theorem Parses.places {d : Decoder} {cmds keys : CJson} {op : List UInt8} {row : Command}
    {parms : List (List UInt8)} (h : Parses d cmds keys op row parms) {n : Nat}
    (hn : row.paramNum = n) : parms.length = n := by
  have hsize := h.size
  have hnum := h.paramNum
  have hlen := h.length
  omega

theorem parseObject_eq_ok {d : Decoder} {cmds keys : CJson} {c : ParsedCommand} :
    parseObject d (some cmds) (some keys) = .ok c ↔
      ∃ op row parms, Parses d cmds keys op row parms ∧ c = row.render parms := by
  simp only [parseObject]
  constructor
  · intro h
    split at h
    · cases h
    · rename_i hsize
      split at h
      · cases h
      · rename_i op hop
        split at h
        · cases h
        · rename_i row hrow
          split at h
          · cases h
          · rename_i hnum
            split at h
            · cases h
            · rename_i hdep
              split at h
              · cases h
              · rename_i parms hparms
                cases h
                obtain ⟨front, hfront, hlen, hnamed⟩ := collectParms_eq_ok.mp hparms
                obtain rfl : parms = front := by simpa using hfront
                exact ⟨op, row, parms,
                  { size := by omega, opNamed := vaildItem_eq_ok.mp hop, rowFound := hrow,
                    paramNum := by omega, notDeprecated := by simpa using hdep, length := hlen,
                    parm := hnamed }, rfl⟩
  · rintro ⟨op, row, parms, hp, rfl⟩
    have hsize := hp.size
    have hop := vaildItem_eq_ok.mpr hp.opNamed
    have hcollect : collectParms cmds keys (keys.getArraySize - 1) [] = .ok parms :=
      collectParms_eq_ok.mpr ⟨parms, by simp, hp.length, hp.parm⟩
    have hnum : ¬ ((keys.getArraySize : Int) - 1 ≠ row.paramNum) := by
      have := hp.paramNum
      omega
    rw [if_neg (by omega)]
    simp only [hop, hp.rowFound, hnum, if_false, hp.notDeprecated, hcollect, Bool.false_eq_true]
    rfl

/-! ## Templates -/

/-- `%s`. -/
def stringPlace : List UInt8 := ascii "%s"

/-- A template without any other conversion. -/
def Plain (t : Template UInt8) : Prop := ∀ lit ∈ t.literals, (37 : UInt8) ∉ lit

theorem formatStrings_append {lit : List UInt8} (h : (37 : UInt8) ∉ lit) (rest : List UInt8)
    (args : List (List UInt8)) :
    formatStrings (lit ++ rest) args = lit ++ formatStrings rest args := by
  induction lit with
  | nil => rfl
  | cons b lit ih =>
    have hb : b ≠ 37 := fun hb => h (hb ▸ List.mem_cons_self)
    have ih := ih fun hmem => h (List.mem_cons_of_mem _ hmem)
    rw [List.cons_append, List.cons_append, ← ih]
    cases hrest : lit ++ rest with
    | nil => simp [formatStrings, hb]
    | cons c more => simp [formatStrings, hb]

theorem formatStrings_place (rest arg : List UInt8) (args : List (List UInt8)) :
    formatStrings (stringPlace ++ rest) (arg :: args) = arg ++ formatStrings rest args := by
  have hplace : stringPlace = [37, 115] := by decide
  rw [hplace]
  simp [formatStrings]

theorem formatStrings_tails : ∀ (tails args : List (List UInt8)),
    (∀ tail ∈ tails, (37 : UInt8) ∉ tail) → args.length = tails.length →
    formatStrings (tails.flatMap fun tail => stringPlace ++ tail) args =
      (List.zipWith (fun arg tail => arg ++ tail) args tails).flatten
  | [], [], _, _ => rfl
  | tail :: tails, arg :: args, hplain, hlen => by
    have ih := formatStrings_tails tails args
      (fun tail' hmem => hplain tail' (List.mem_cons_of_mem _ hmem)) (by simpa using hlen)
    rw [List.flatMap_cons, List.append_assoc, formatStrings_place,
      formatStrings_append (hplain tail List.mem_cons_self), ih, List.zipWith_cons_cons,
      List.flatten_cons, List.append_assoc]

/-- `printf` fills the places of a plain template with its arguments. -/
theorem formatStrings_text {t : Template UInt8} (hplain : Plain t) {args : List (List UInt8)}
    (h : args.length = t.places) : formatStrings (t.text stringPlace) args = t.fill args := by
  rw [Template.text, formatStrings_append (hplain t.head List.mem_cons_self),
    formatStrings_tails t.tails args (fun tail hmem => hplain tail (List.mem_cons_of_mem _ hmem)) h,
    Template.fill]

/-- `snprintf` renders a plain template whole exactly when there is room for it and
its terminator. -/
theorem snprintf_text_iff {t : Template UInt8} (hplain : Plain t) {args : List (List UInt8)}
    (h : args.length = t.places) (size : Nat) (hsize : 0 < size) :
    snprintf size (t.text stringPlace) args = t.fill args ↔
      Template.totalLength t.literals + Template.totalLength args < size := by
  rw [snprintf, formatStrings_text hplain h, List.take_eq_self_iff, t.length_fill h]
  omega

/-! ## The templates that are meant -/

/-- The template that a text with no directives but `%s` and `%%` writes. -/
def readTemplate : List UInt8 → Option (Template UInt8)
  | [] => some ⟨[], []⟩
  | [b] => if b = 37 then none else some ⟨[b], []⟩
  | b :: c :: rest =>
    if b = 37 then
      if c = 115 then (readTemplate rest).map fun t => ⟨[], t.head :: t.tails⟩
      else if c = 37 then (readTemplate rest).map fun t => ⟨37 :: t.head, t.tails⟩
      else none
    else (readTemplate (c :: rest)).map fun t => ⟨b :: t.head, t.tails⟩

/-- A row whose template has no directives but `%s` and `%%`, and no more of the first
than the row has parameters. -/
def Command.Formats (row : Command) : Prop :=
  ∃ t, readTemplate row.value = some t ∧ (t.places : Int) ≤ row.paramNum

instance (row : Command) : Decidable row.Formats :=
  decidable_of_iff
    (((readTemplate row.value).any fun t => decide ((t.places : Int) ≤ row.paramNum)) = true)
    (by simp [Command.Formats, Option.any_eq_true])

/-- `printf` puts the arguments, as many as there are places, into such a template. -/
theorem formatStrings_readTemplate {template : List UInt8} {t : Template UInt8}
    {args : List (List UInt8)} (h : readTemplate template = some t)
    (hargs : t.places ≤ args.length) : formatStrings template args = t.fill args := by
  induction template, args using formatStrings.induct generalizing t with
  | case1 args =>
    obtain rfl : ⟨[], []⟩ = t := by simpa [readTemplate] using h
    simp [formatStrings, Template.fill]
  | case2 args => simp [readTemplate] at h
  | case3 b args hb =>
    obtain rfl : ⟨[b], []⟩ = t := by simpa [readTemplate, hb] using h
    simp [formatStrings, Template.fill, hb]
  | case4 rest args ih =>
    obtain ⟨t, ht, rfl⟩ := Option.map_eq_some_iff.mp
      (show (readTemplate rest).map (fun t => ⟨[], t.head :: t.tails⟩) = some t from h)
    cases args with
    | nil => exact absurd hargs (Nat.not_succ_le_zero _)
    | cons arg args =>
      have htext : formatStrings rest args = t.fill args := ih ht (Nat.le_of_succ_le_succ hargs)
      show arg ++ formatStrings rest args = _
      simp [htext, Template.fill]
  | case5 rest args _ ih =>
    obtain ⟨t, ht, rfl⟩ := Option.map_eq_some_iff.mp
      (show (readTemplate rest).map (fun t => ⟨37 :: t.head, t.tails⟩) = some t from h)
    show 37 :: formatStrings rest args = _
    rw [ih ht hargs, Template.fill, Template.fill, List.cons_append]
  | case6 c rest args hs hpercent ih => simp [readTemplate, hs, hpercent] at h
  | case7 b c rest args hb ih =>
    rw [readTemplate, if_neg hb] at h
    obtain ⟨t, ht, rfl⟩ := Option.map_eq_some_iff.mp h
    rw [formatStrings, if_neg hb, ih ht hargs, Template.fill, Template.fill, List.cons_append]

/-! ## Rendering -/

/-- A row of the table whose template has as many places as the row says. -/
structure Command.Renders (row : Command) (t : Template UInt8) : Prop where
  value : row.value = t.text stringPlace
  plain : Plain t
  paramNum : row.paramNum = t.places

/-- **An accepted command is its template filled with the parameters its keys name,
in the order of the keys, exactly when the texts of the template and the parameters
together are shorter than the buffer.** -/
theorem parseObject_renders_iff (d : Decoder) (cmds keys : CJson) (op : List UInt8)
    (row : Command) (t : Template UInt8) (hop : NamedValue cmds keys 0 op)
    (hrow : d.valueForKey (atoi op) = some row) (ht : row.Renders t) (c : ParsedCommand)
    (haccepts : parseObject d (some cmds) (some keys) = .ok c) :
    ∃ parms : List (List UInt8), parms.length = t.places ∧
      (∀ k parm, parms[k]? = some parm → NamedValue cmds keys (k + 1) parm) ∧
      (c.cmd = t.fill parms ↔
        Template.totalLength t.literals + Template.totalLength parms < commandBufSize) := by
  obtain ⟨op', row', parms, hparses, rfl⟩ := parseObject_eq_ok.mp haccepts
  obtain rfl : op' = op := hparses.opNamed.unique hop
  obtain rfl : row' = row := Option.some.inj (hparses.rowFound.symm.trans hrow)
  have hplaces : parms.length = t.places := hparses.places ht.paramNum
  refine ⟨parms, hplaces, hparses.parm, ?_⟩
  have hcmd : (row'.render parms).cmd = snprintf commandBufSize (t.text stringPlace) parms := by
    rw [← ht.value]
    rfl
  rw [hcmd]
  exact snprintf_text_iff ht.plain hplaces commandBufSize (by decide)

/-! ## An announcement -/

/-- `.announce %s`. -/
def announce : Template UInt8 := { head := ascii ".announce ", tails := [[]] }

/-- A table with that command under the number 1. -/
def announceRow : Command :=
  { value := ascii ".announce %s", paramNum := 1, needRsp := false, deprecated := false,
    is2Pipe := true }

def announceDecoder : Decoder :=
  { cJsonParse := fun _ => none,
    valueForKey := fun key => if key = 1 then some announceRow else none }

/-- `{"op": "1", "text": parm}`. -/
def announceCmds (parm : List UInt8) : CJson :=
  .item none none
    [.item (some (ascii "1")) (some (ascii "op")) [], .item (some parm) (some (ascii "text")) []]

/-- `["op", "text"]`. -/
def announceKeys : CJson :=
  .item none none [.item (some (ascii "op")) none [], .item (some (ascii "text")) none []]

theorem announceRow_renders : announceRow.Renders announce :=
  { value := by decide,
    plain := by
      unfold Plain
      decide,
    paramNum := by decide }

theorem announceCmds_op (parm : List UInt8) :
    NamedValue (announceCmds parm) announceKeys 0 (ascii "1") :=
  ⟨.item (some (ascii "op")) none [], .item (some (ascii "1")) (some (ascii "op")) [],
    rfl, rfl, rfl⟩

theorem announceCmds_text (parm : List UInt8) :
    NamedValue (announceCmds parm) announceKeys 1 parm :=
  ⟨.item (some (ascii "text")) none [], .item (some parm) (some (ascii "text")) [],
    rfl, rfl, rfl⟩

theorem announce_accepted (parm : List UInt8) :
    parseObject announceDecoder (some (announceCmds parm)) (some announceKeys) =
      .ok (announceRow.render [parm]) :=
  parseObject_eq_ok.mpr ⟨ascii "1", announceRow, [parm],
    { size := by decide, opNamed := announceCmds_op parm, rowFound := by decide,
      paramNum := by decide, notDeprecated := by decide, length := by rfl,
      parm := fun k p hk => by
        cases k with
        | zero =>
          rw [List.getElem?_cons_zero, Option.some.injEq] at hk
          exact hk ▸ announceCmds_text parm
        | succ k => simp at hk }, rfl⟩

/-- A text of 2048 bytes is accepted and announced without its end. -/
theorem parseObject_cuts : ¬ ∀ (d : Decoder) (cmds keys : CJson) (op : List UInt8)
    (row : Command) (t : Template UInt8), NamedValue cmds keys 0 op →
    d.valueForKey (atoi op) = some row → row.Renders t →
    Template.totalLength (cmds.child.filterMap CJson.valuestring) ≤ 65000 →
    ∀ c : ParsedCommand, parseObject d (some cmds) (some keys) = .ok c →
    ∃ parms : List (List UInt8), parms.length = t.places ∧
      (∀ k parm, parms[k]? = some parm → NamedValue cmds keys (k + 1) parm) ∧
      c.cmd = t.fill parms := by
  intro halways
  have hlong : (List.replicate 2048 (97 : UInt8)).length = 2048 := List.length_replicate
  generalize List.replicate 2048 (97 : UInt8) = parm at hlong
  have hcarried : Template.totalLength ((announceCmds parm).child.filterMap CJson.valuestring) ≤
      65000 := by
    have hsum : Template.totalLength ((announceCmds parm).child.filterMap CJson.valuestring) =
        1 + (parm.length + 0) := rfl
    omega
  obtain ⟨parms, hplaces, hparms, hcmd⟩ :=
    halways announceDecoder (announceCmds parm) announceKeys (ascii "1") announceRow announce
      (announceCmds_op parm) rfl announceRow_renders hcarried _ (announce_accepted parm)
  have hlen : (announceRow.render [parm]).cmd.length ≤ commandBufSize - 1 :=
    List.length_take_le _ _
  obtain ⟨arg, rfl⟩ : ∃ arg, parms = [arg] := List.length_eq_one_iff.mp hplaces
  obtain rfl : arg = parm := (hparms 0 arg rfl).unique (announceCmds_text parm)
  have hfill : (announce.fill [arg]).length =
      Template.totalLength announce.literals + (arg.length + 0) := announce.length_fill rfl
  have hbuf : commandBufSize = 2048 := rfl
  rw [hcmd] at hlen
  omega

theorem announce_renders :
    ∃ parms : List (List UInt8), parms.length = announce.places ∧
      (∀ k parm, parms[k]? = some parm →
        NamedValue (announceCmds (ascii "hi")) announceKeys (k + 1) parm) ∧
      ((announceRow.render [ascii "hi"]).cmd = announce.fill parms ↔
        Template.totalLength announce.literals + Template.totalLength parms < commandBufSize) :=
  parseObject_renders_iff announceDecoder (announceCmds (ascii "hi")) announceKeys (ascii "1")
    announceRow announce (announceCmds_op (ascii "hi")) (by decide) announceRow_renders
    (announceRow.render [ascii "hi"]) (announce_accepted (ascii "hi"))

end WowProxy
