/-
  Threadpool/SqlTokens.lean --- the statements `parse_object` makes of templates.

  The parameters of a client are put into the statement as they are, and `write_db`
  prepares the result, the text that `DbEvent.prepared` keeps.  The theorem of this
  file says for which parameters the statement is split into the tokens of its
  template, where every place of the template stands in a single-quoted literal.
-/
import WowProxy.Sqlite.Template
import WowProxy.Threadpool.Render

set_option autoImplicit false

namespace WowProxy

open WowProxy.Lib

/-! ## How a template is written -/

/-- A text in a format string, with `%%` for every percent sign. -/
def escape (s : List UInt8) : List UInt8 := s.flatMap fun b => if b = 37 then [37, 37] else [b]

/-- A format string with `%s` at the places. -/
def formatText (t : Template UInt8) : List UInt8 :=
  escape t.head ++ t.tails.flatMap fun tail => stringPlace ++ escape tail

/-- The format string of a statement. -/
def SqlTemplate.formatText : SqlTemplate → List UInt8
  | .last text _ => escape text
  | .literal front quoted rest =>
    escape front.text ++ 39 :: (WowProxy.formatText quoted.content ++ 39 :: rest.formatText)

/-- A row of the table that is this template, closed and with as many places as the
row says. -/
structure Command.Prepares (row : Command) (t : SqlTemplate) : Prop where
  value : row.value = t.formatText
  closed : t.Closed
  paramNum : row.paramNum = t.places

/-- What is compared of a token: a literal without what is in it. -/
def shape (t : SqlToken) : TokenType × List UInt8 :=
  (t.type, if t.type = .string then [] else t.text)

/-! ## Formatting -/

theorem formatStrings_escape (s rest : List UInt8) (args : List (List UInt8)) :
    formatStrings (escape s ++ rest) args = s ++ formatStrings rest args := by
  induction s with
  | nil => rfl
  | cons b s ih =>
    rw [escape, List.flatMap_cons, List.append_assoc, ← escape]
    split
    · rename_i hb
      show formatStrings (37 :: 37 :: (escape s ++ rest)) args = _
      rw [hb, formatStrings, if_pos rfl, if_neg (by decide), if_pos rfl, ih]
      rfl
    · rename_i hb
      have hplain : (37 : UInt8) ∉ [b] := by simpa using fun h => hb h.symm
      rw [formatStrings_append hplain, ih]
      rfl

theorem formatStrings_tails_append : ∀ (tails : List (List UInt8)) (rest : List UInt8)
    (args : List (List UInt8)), tails.length ≤ args.length →
    formatStrings ((tails.flatMap fun tail => stringPlace ++ escape tail) ++ rest) args =
      (List.zipWith (fun arg tail => arg ++ tail) (args.take tails.length) tails).flatten ++
        formatStrings rest (args.drop tails.length)
  | [], _, _, _ => rfl
  | tail :: tails, rest, arg :: args, h => by
    have ih := formatStrings_tails_append tails rest args (Nat.le_of_succ_le_succ h)
    rw [List.flatMap_cons, List.append_assoc, List.append_assoc, formatStrings_place,
      formatStrings_escape, ih, List.length_cons, List.take_succ_cons, List.drop_succ_cons,
      List.zipWith_cons_cons, List.flatten_cons, List.append_assoc, List.append_assoc]

/-- A literal takes the arguments of its places. -/
theorem formatStrings_formatText (t : Template UInt8) (rest : List UInt8)
    (args : List (List UInt8)) (h : t.places ≤ args.length) :
    formatStrings (formatText t ++ rest) args =
      t.fill (args.take t.places) ++ formatStrings rest (args.drop t.places) := by
  rw [formatText, List.append_assoc, formatStrings_escape,
    formatStrings_tails_append t.tails rest args h, Template.fill, List.append_assoc,
    Template.places]

theorem formatStrings_quote (rest : List UInt8) (args : List (List UInt8)) :
    formatStrings (39 :: rest) args = 39 :: formatStrings rest args :=
  formatStrings_append (by decide : (37 : UInt8) ∉ [39]) rest args

theorem formatStrings_template (t : SqlTemplate) {args : List (List UInt8)}
    (h : args.length = t.places) : formatStrings t.formatText args = t.fill args := by
  induction t generalizing args with
  | last text _ =>
    have hall := formatStrings_escape text [] args
    rw [List.append_nil] at hall
    rw [SqlTemplate.formatText, hall, SqlTemplate.fill]
    simp [formatStrings]
  | literal front quoted rest ih =>
    rw [SqlTemplate.places] at h
    have hdrop : (args.drop quoted.content.places).length = rest.places := by
      rw [List.length_drop]
      omega
    rw [SqlTemplate.formatText, formatStrings_escape, formatStrings_quote,
      formatStrings_formatText _ _ _ (by omega), formatStrings_quote, ih hdrop, SqlTemplate.fill]

/-! ## The tokens of a statement -/

/-- The tokens of a template differ in nothing but what is in its literals. -/
theorem shape_tokens (t : SqlTemplate) (args args' : List (List UInt8)) :
    (t.tokens args).map shape = (t.tokens args').map shape := by
  induction t generalizing args args' with
  | last text _ => rfl
  | literal front quoted rest ih =>
    have hliteral : ∀ content, shape (literalToken content) = (.string, []) := fun _ => rfl
    simp only [SqlTemplate.tokens, List.map_append, List.map_cons, hliteral]
    rw [ih]

/-- A statement that was cut has other tokens. -/
theorem whole_of_sqlTokens {t : SqlTemplate} {parms : List (List UInt8)} {statement : List UInt8}
    (hcut : statement <+: t.fill parms) (h : sqlTokens statement = t.tokens parms) :
    statement = t.fill parms := by
  have htexts := sqlite3GetToken.texts_prefix statement
  rw [show sqlite3GetToken.tokens statement = t.tokens parms from h, t.texts_tokens] at htexts
  exact hcut.eq_of_length_le htexts.length_le

/-- The statement of a row and its parameters. -/
theorem render_cmd {row : Command} {t : SqlTemplate} (hrow : row.Prepares t)
    {parms : List (List UInt8)} (h : parms.length = t.places) :
    (row.render parms).cmd = (t.fill parms).take (commandBufSize - 1) := by
  show (formatStrings row.value parms).take (commandBufSize - 1) = _
  rw [hrow.value, formatStrings_template t h]

theorem sqlTokens_render_iff {row : Command} {t : SqlTemplate} (hrow : row.Prepares t)
    {parms : List (List UInt8)} (h : parms.length = t.places) :
    sqlTokens (row.render parms).cmd = t.tokens parms ↔
      t.Quoted parms ∧ t.textLength + Template.totalLength parms < commandBufSize := by
  have hlength := t.length_fill h
  have hbuf : 0 < commandBufSize := by decide
  rw [render_cmd hrow h]
  constructor
  · intro htokens
    have hwhole := whole_of_sqlTokens (List.take_prefix _ _) htokens
    have hlt := (List.take_eq_self_iff _).mp hwhole
    rw [hwhole] at htokens
    exact ⟨SqlTemplate.quoted_of_sqlTokens htokens, by omega⟩
  · rintro ⟨hquoted, hlt⟩
    rw [List.take_of_length_le (by omega), SqlTemplate.sqlTokens_fill hrow.closed hquoted]

/-- **The statement of an accepted command is split into the tokens of its template
exactly when the quotes in every filled literal are in pairs and the whole of it fits
the buffer.**  The tokens of the template are the same for all parameters, but for
what is in the literals. -/
theorem parseObject_sqlTokens_iff (d : Decoder) (cmds keys : CJson) (op : List UInt8)
    (row : Command) (t : SqlTemplate) (hop : NamedValue cmds keys 0 op)
    (hrow : d.valueForKey (atoi op) = some row) (ht : row.Prepares t) (c : ParsedCommand)
    (haccepts : parseObject d (some cmds) (some keys) = .ok c) :
    ∃ parms : List (List UInt8), parms.length = t.places ∧
      (∀ k parm, parms[k]? = some parm → NamedValue cmds keys (k + 1) parm) ∧
      (sqlTokens c.cmd = t.tokens parms ↔
        t.Quoted parms ∧ t.textLength + Template.totalLength parms < commandBufSize) ∧
      ∀ parms', (t.tokens parms').map shape = (t.tokens parms).map shape := by
  obtain ⟨op', row', parms, hparses, rfl⟩ := parseObject_eq_ok.mp haccepts
  obtain rfl : op' = op := hparses.opNamed.unique hop
  obtain rfl : row' = row := Option.some.inj (hparses.rowFound.symm.trans hrow)
  have hplaces := hparses.places ht.paramNum
  exact ⟨parms, hplaces, hparses.parm, sqlTokens_render_iff ht hplaces,
    fun parms' => shape_tokens t parms' parms⟩

/-! ## A row of the table -/

/-- `REPLACE INTO permission (role, label, value)  VALUES ('%s', '%s', '%s');` -/
def permissionTemplate : SqlTemplate :=
  let place : SqlLiteral := { content := { head := [], tails := [[]] }, doubled := by decide }
  let comma : OuterText :=
    { text := ascii ", ", tokens := sqlTokens (ascii ", "),
      splits := ⟨by decide +kernel, by decide +kernel⟩ }
  .literal
    { text := ascii "REPLACE INTO permission (role, label, value)  VALUES (",
      tokens := sqlTokens (ascii "REPLACE INTO permission (role, label, value)  VALUES ("),
      splits := ⟨by decide +kernel, by decide +kernel⟩ }
    place (.literal comma place (.literal comma place (.last (ascii ");") (by decide))))

/-- The row 13 of the table of commands. -/
def permissionRow : Command :=
  { value := ascii "REPLACE INTO permission (role, label, value)  VALUES ('%s', '%s', '%s');",
    paramNum := 3, needRsp := true, deprecated := false, is2Pipe := false }

def permissionDecoder : Decoder :=
  { cJsonParse := fun _ => none,
    valueForKey := fun key => if key = 13 then some permissionRow else none }

/-- `{"op": "13", "role": "a", "label": label, "value": "1"}`. -/
def permissionCmds (label : List UInt8) : CJson :=
  .item none none
    [.item (some (ascii "13")) (some (ascii "op")) [],
      .item (some (ascii "a")) (some (ascii "role")) [],
      .item (some label) (some (ascii "label")) [],
      .item (some (ascii "1")) (some (ascii "value")) []]

/-- `["op", "role", "label", "value"]`. -/
def permissionKeys : CJson :=
  .item none none
    [.item (some (ascii "op")) none [], .item (some (ascii "role")) none [],
      .item (some (ascii "label")) none [], .item (some (ascii "value")) none []]

theorem permissionRow_prepares : permissionRow.Prepares permissionTemplate := by
  have hcomma : ascii ", " ≠ [] ∧ (ascii ", ").head? ≠ some 39 := by decide
  have hlast : (ascii ");").head? ≠ some 39 := by decide
  exact
    { value := by decide +kernel,
      closed := ⟨hcomma, hcomma, hlast, trivial⟩,
      paramNum := rfl }

theorem permissionCmds_op (label : List UInt8) :
    NamedValue (permissionCmds label) permissionKeys 0 (ascii "13") :=
  ⟨_, _, rfl, rfl, rfl⟩

theorem permissionCmds_parms (label : List UInt8) : ∀ k parm,
    [ascii "a", label, ascii "1"][k]? = some parm →
      NamedValue (permissionCmds label) permissionKeys (k + 1) parm
  | 0, _, h => ⟨_, _, rfl, rfl, h⟩
  | 1, _, h => ⟨_, _, rfl, rfl, h⟩
  | 2, _, h => ⟨_, _, rfl, rfl, h⟩
  | _ + 3, _, h => by cases h

theorem permission_accepted (label : List UInt8) :
    parseObject permissionDecoder (some (permissionCmds label)) (some permissionKeys) =
      .ok (permissionRow.render [ascii "a", label, ascii "1"]) :=
  parseObject_eq_ok.mpr ⟨ascii "13", permissionRow, [ascii "a", label, ascii "1"],
    { size := by decide, opNamed := permissionCmds_op label, rowFound := by decide,
      paramNum := by decide, notDeprecated := by decide, length := rfl,
      parm := permissionCmds_parms label }, rfl⟩

theorem permission_sqlTokens :
    ∃ parms : List (List UInt8), parms.length = permissionTemplate.places ∧
      (∀ k parm, parms[k]? = some parm →
        NamedValue (permissionCmds (ascii "b")) permissionKeys (k + 1) parm) ∧
      (sqlTokens (permissionRow.render [ascii "a", ascii "b", ascii "1"]).cmd =
          permissionTemplate.tokens parms ↔
        permissionTemplate.Quoted parms ∧
          permissionTemplate.textLength + Template.totalLength parms < commandBufSize) ∧
      ∀ parms', (permissionTemplate.tokens parms').map shape =
        (permissionTemplate.tokens parms).map shape :=
  parseObject_sqlTokens_iff permissionDecoder (permissionCmds (ascii "b")) permissionKeys
    (ascii "13") permissionRow permissionTemplate (permissionCmds_op _) (by decide)
    permissionRow_prepares _ (permission_accepted (ascii "b"))

/-- A label with a quote in it ends its literal, and what follows is split as a part of
the statement. -/
theorem parseObject_injects : ¬ ∀ (d : Decoder) (cmds keys : CJson) (op : List UInt8)
    (row : Command) (t : SqlTemplate), NamedValue cmds keys 0 op →
    d.valueForKey (atoi op) = some row → row.Prepares t →
    ∀ c : ParsedCommand, parseObject d (some cmds) (some keys) = .ok c →
    ∃ parms : List (List UInt8), parms.length = t.places ∧
      (∀ k parm, parms[k]? = some parm → NamedValue cmds keys (k + 1) parm) ∧
      sqlTokens c.cmd = t.tokens parms := by
  intro halways
  obtain ⟨parms, hplaces, hparms, htokens⟩ :=
    halways permissionDecoder (permissionCmds (ascii "O'Brien")) permissionKeys (ascii "13")
      permissionRow permissionTemplate (permissionCmds_op _) (by decide) permissionRow_prepares _
      (permission_accepted _)
  have hnamed := permissionCmds_parms (ascii "O'Brien")
  obtain ⟨role, label, value, rfl⟩ : ∃ role label value, parms = [role, label, value] :=
    List.length_eq_three.mp hplaces
  obtain rfl := (hparms 0 role rfl).unique (hnamed 0 _ rfl)
  obtain rfl := (hparms 1 label rfl).unique (hnamed 1 _ rfl)
  obtain rfl := (hparms 2 value rfl).unique (hnamed 2 _ rfl)
  have hquoted := ((sqlTokens_render_iff permissionRow_prepares hplaces).mp htokens).1
  exact absurd hquoted.2.1 (by decide)

end WowProxy
