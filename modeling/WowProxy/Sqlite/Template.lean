/-
  Sqlite/Template.lean --- statements with places inside their literals.

  A template of a statement is kept as the texts outside of the literals with places,
  each with the tokens it is split into, and the literals themselves, so that no place
  can stand anywhere else.  Filling the places keeps the tokens exactly when what is
  in every literal then has its quotes in pairs.
-/
import WowProxy.Lib.Template
import WowProxy.Sqlite.Tokenize

set_option autoImplicit false

namespace WowProxy

open Lib

/-! ## Texts of literals -/

/-- A quote has been read and needs another, or not. -/
def doubledFrom : Bool → List UInt8 → Bool
  | pending, [] => !pending
  | true, b :: s => b == 39 && doubledFrom false s
  | false, b :: s => if b = 39 then doubledFrom true s else b != 0 && doubledFrom false s

/-- A text that may stand in a literal: without a NUL, and every quote is followed by
another that belongs to it. -/
def Doubled (s : List UInt8) : Prop := doubledFrom false s = true

instance (s : List UInt8) : Decidable (Doubled s) := inferInstanceAs (Decidable (_ = true))

theorem doubledFrom_append {pending : Bool} {s : List UInt8} (h : doubledFrom pending s = true)
    (rest : List UInt8) : doubledFrom pending (s ++ rest) = doubledFrom false rest := by
  induction s generalizing pending with
  | nil =>
    cases pending with
    | false => rfl
    | true => cases h
  | cons b s ih =>
    cases pending with
    | true =>
      rw [doubledFrom, Bool.and_eq_true] at h
      rw [List.cons_append, doubledFrom, h.1, Bool.true_and, ih h.2]
    | false =>
      rw [doubledFrom] at h
      rw [List.cons_append, doubledFrom]
      split
      · rename_i hb
        rw [if_pos hb] at h
        exact ih h
      · rename_i hb
        rw [if_neg hb, Bool.and_eq_true] at h
        rw [h.1, Bool.true_and, ih h.2]

/-- Texts of a literal can be put one behind the other. -/
theorem Doubled.append {s rest : List UInt8} (h : Doubled s) (hrest : Doubled rest) :
    Doubled (s ++ rest) :=
  (doubledFrom_append h rest).trans hrest

theorem Doubled.fill {t : Template UInt8} (ht : ∀ text ∈ t.literals, Doubled text)
    {args : List (List UInt8)} (hargs : ∀ arg ∈ args, Doubled arg) : Doubled (t.fill args) := by
  have hflatten : ∀ texts : List (List UInt8), (∀ text ∈ texts, Doubled text) →
      Doubled texts.flatten := by
    intro texts htexts
    induction texts with
    | nil => rfl
    | cons text texts ih =>
      rw [List.forall_mem_cons] at htexts
      exact htexts.1.append (ih htexts.2)
  refine (ht t.head List.mem_cons_self).append (hflatten _ fun text htext => ?_)
  rw [← List.map_uncurry_zip_eq_zipWith, List.mem_map] at htext
  obtain ⟨⟨arg, tail⟩, hzip, rfl⟩ := htext
  have harg := (List.of_mem_zip hzip).1
  have htail := (List.of_mem_zip hzip).2
  exact (hargs arg harg).append (ht tail (List.mem_cons_of_mem _ htail))

/-! ## Scanning a literal -/

theorem quoteStep_ended {b next : UInt8} :
    quoteStep 39 true b next = if b = 39 then some false else none := rfl

theorem quoteStep_open {b next : UInt8} (hb : b ≠ 0) :
    quoteStep 39 false b next = some (b == 39) := if_neg hb

/-- The loop reads a text of a literal up to the closing quote. -/
theorem scanFrom_quote {ended : Bool} {s : List UInt8} (h : doubledFrom ended s = true)
    {rest : List UInt8} (hrest : rest.head? ≠ some 39) :
    Scanner.scanFrom (quoteStep 39) ended (s ++ 39 :: rest) = (true, rest) := by
  induction s generalizing ended with
  | nil =>
    cases ended with
    | true => cases h
    | false =>
      rw [List.nil_append, Scanner.scanFrom, quoteStep_open (by decide)]
      cases rest with
      | nil => rfl
      | cons b rest =>
        have hb : b ≠ 39 := fun hb => hrest (by rw [hb]; rfl)
        simp only [beq_self_eq_true, Scanner.scanFrom, quoteStep_ended, if_neg hb]
  | cons b s ih =>
    rw [List.cons_append, Scanner.scanFrom]
    cases ended with
    | true =>
      rw [doubledFrom, Bool.and_eq_true, beq_iff_eq] at h
      rw [quoteStep_ended, if_pos h.1]
      exact ih h.2
    | false =>
      by_cases hb : b = 39
      · rw [doubledFrom, if_pos hb] at h
        rw [quoteStep_open (by rw [hb]; decide), beq_iff_eq.mpr hb]
        exact ih h
      · rw [doubledFrom, if_neg hb, Bool.and_eq_true, bne_iff_ne] at h
        rw [quoteStep_open h.1, beq_eq_false_iff_ne.mpr hb]
        exact ih h.2

/-- The loop does not end a literal where it begins to read. -/
theorem scanFrom_quote_open {rest : List UInt8} :
    Scanner.scanFrom (quoteStep 39) false rest ≠ (true, rest) := by
  intro h
  cases rest with
  | nil => cases h
  | cons b rest =>
    rw [Scanner.scanFrom] at h
    split at h
    · cases h
    · rename_i st hst
      have hsuffix : (Scanner.scanFrom (quoteStep 39) st rest).2 <:+ rest :=
        Scanner.scanFrom_suffix st rest
      rw [h] at hsuffix
      exact absurd hsuffix.length_le (Nat.not_succ_le_self rest.length)

/-- What it reads up to a closing quote is a text of a literal. -/
theorem doubledFrom_of_scanFrom {ended : Bool} {s rest : List UInt8}
    (h : Scanner.scanFrom (quoteStep 39) ended (s ++ 39 :: rest) = (true, rest)) :
    doubledFrom ended s = true := by
  induction s generalizing ended with
  | nil =>
    cases ended with
    | false => rfl
    | true =>
      -- The closing quote would be the second of two.
      rw [List.nil_append, Scanner.scanFrom, quoteStep_ended, if_pos rfl] at h
      exact absurd h scanFrom_quote_open
  | cons b s ih =>
    rw [List.cons_append, Scanner.scanFrom] at h
    have hlonger : b :: (s ++ 39 :: rest) ≠ rest := fun heq => by
      have := congrArg List.length heq
      simp only [List.length_cons, List.length_append] at this
      omega
    cases ended with
    | true =>
      rw [quoteStep_ended] at h
      by_cases hb : b = 39
      · rw [if_pos hb] at h
        rw [doubledFrom, beq_iff_eq.mpr hb, Bool.true_and]
        exact ih h
      · rw [if_neg hb] at h
        exact absurd (Prod.mk.inj h).2 hlonger
    | false =>
      by_cases hnul : b = 0
      · rw [show quoteStep 39 false b _ = none from if_pos hnul] at h
        exact absurd (Prod.mk.inj h).2 hlonger
      · rw [quoteStep_open hnul] at h
        by_cases hb : b = 39
        · rw [beq_iff_eq.mpr hb] at h
          rw [doubledFrom, if_pos hb]
          exact ih h
        · rw [beq_eq_false_iff_ne.mpr hb] at h
          rw [doubledFrom, if_neg hb, bne_iff_ne.mpr hnul, Bool.true_and]
          exact ih h

/-- The token of a literal. -/
def literalToken (content : List UInt8) : SqlToken := ⟨.string, 39 :: (content ++ [39])⟩

theorem run_quote (s : List UInt8) :
    sqlite3GetToken.run (39 :: s) =
      ((if (Scanner.scanFrom (quoteStep 39) false s).1 then TokenType.string else .illegal),
        (Scanner.scanFrom (quoteStep 39) false s).2) := by
  have hclass : sqlite3GetToken.run (39 :: s) = (quoteToken 39).run s := rfl
  rw [hclass, quoteToken, Scanner.run_bind]
  show (if (Scanner.scanFrom (quoteStep 39) false s).1 = true then _ else _ :
    SqlScanner TokenType).run _ = _
  split <;> rfl

/-- A literal whose quotes are in pairs is one token. -/
theorem sqlTokens_literal {content rest : List UInt8} (h : Doubled content)
    (hrest : rest.head? ≠ some 39) :
    sqlTokens (39 :: (content ++ 39 :: rest)) = literalToken content :: sqlTokens rest := by
  have htext : 39 :: (content ++ 39 :: rest) = (literalToken content).text ++ rest := by
    simp [literalToken]
  have hrun : sqlite3GetToken.run ((literalToken content).text ++ rest) = (.string, rest) := by
    rw [← htext, run_quote, scanFrom_quote h hrest]
    rfl
  rw [htext]
  exact sqlite3GetToken.tokens_append (List.cons_ne_nil _ _) (by simp [literalToken]) hrun

/-- A literal that is one token has its quotes in pairs. -/
theorem doubled_of_sqlTokens {content rest : List UInt8} {toks : List SqlToken}
    (h : sqlTokens (39 :: (content ++ 39 :: rest)) = literalToken content :: toks) :
    Doubled content ∧ sqlTokens rest = toks := by
  obtain ⟨rest', htext, -, -, hrun, hrest⟩ := sqlite3GetToken.tokens_eq_cons h
  obtain rfl : rest = rest' := by simpa [literalToken] using htext
  obtain ⟨htype, hleft⟩ := Prod.mk.inj ((run_quote _).symm.trans hrun)
  have hended : (Scanner.scanFrom (quoteStep 39) false (content ++ 39 :: rest)).1 = true := by
    by_contra hopen
    rw [if_neg hopen] at htype
    cases htype
  exact ⟨doubledFrom_of_scanFrom (Prod.ext hended hleft), hrest⟩

/-! ## Templates -/

/-- A text in front of a literal: a quote behind it begins a token. -/
structure OuterText where
  text : List UInt8
  tokens : List SqlToken
  splits : sqlite3GetToken.Splits text tokens

/-- Wherever a quote begins a token of a statement, the text in front of it is one. -/
theorem splits_of_sqlTokens {u r : List UInt8} {toks : List SqlToken}
    (htexts : toks.flatMap Token.text = u)
    (h : sqlTokens (u ++ 39 :: r) = toks ++ sqlTokens (39 :: r)) :
    sqlite3GetToken.Splits u toks :=
  ⟨htexts, sqlite3GetToken.tokens_mark htexts h []⟩

/-- A single-quoted literal with places. -/
structure SqlLiteral where
  content : Template UInt8
  doubled : ∀ text ∈ content.literals, Doubled text

/-- A statement all of whose places stand in single-quoted literals. -/
inductive SqlTemplate where
  | last (text : List UInt8) (nul : 0 ∉ text)
  | literal (front : OuterText) (quoted : SqlLiteral) (rest : SqlTemplate)

namespace SqlTemplate

/-- The template does not begin with a quote, which would go on with a literal in front
of it. -/
def Apart : SqlTemplate → Prop
  | last text _ => text.head? ≠ some 39
  | literal front _ _ => front.text ≠ [] ∧ front.text.head? ≠ some 39

/-- Every literal ends at its closing quote. -/
def Closed : SqlTemplate → Prop
  | last _ _ => True
  | literal _ _ rest => rest.Apart ∧ rest.Closed

/-- How many places there are. -/
def places : SqlTemplate → Nat
  | last _ _ => 0
  | literal _ quoted rest => quoted.content.places + rest.places

/-- How long the template is without its places. -/
def textLength : SqlTemplate → Nat
  | last text _ => text.length
  | literal front quoted rest =>
    front.text.length + (Template.totalLength quoted.content.literals + 2) + rest.textLength

/-- The statement with the arguments at the places, in their order. -/
def fill : SqlTemplate → List (List UInt8) → List UInt8
  | last text _, _ => text
  | literal front quoted rest, args =>
    front.text ++ 39 :: (quoted.content.fill (args.take quoted.content.places) ++
      39 :: rest.fill (args.drop quoted.content.places))

/-- The tokens of the template, with what is then in the literals. -/
def tokens : SqlTemplate → List (List UInt8) → List SqlToken
  | last text _, _ => sqlTokens text
  | literal front quoted rest, args =>
    front.tokens ++ literalToken (quoted.content.fill (args.take quoted.content.places)) ::
      rest.tokens (args.drop quoted.content.places)

/-- What is then in every literal has its quotes in pairs. -/
def Quoted : SqlTemplate → List (List UInt8) → Prop
  | last _ _, _ => True
  | literal _ quoted rest, args =>
    Doubled (quoted.content.fill (args.take quoted.content.places)) ∧
      rest.Quoted (args.drop quoted.content.places)

/-- Arguments whose own quotes are in pairs keep those of the literals in pairs. -/
theorem quoted_of_doubled (t : SqlTemplate) {args : List (List UInt8)}
    (hargs : ∀ arg ∈ args, Doubled arg) : t.Quoted args := by
  induction t generalizing args with
  | last text _ => trivial
  | literal front quoted rest ih =>
    refine ⟨Doubled.fill quoted.doubled fun arg harg => hargs arg (List.mem_of_mem_take harg),
      ih fun arg harg => hargs arg (List.mem_of_mem_drop harg)⟩

theorem length_fill (t : SqlTemplate) {args : List (List UInt8)} (h : args.length = t.places) :
    (t.fill args).length = t.textLength + Template.totalLength args := by
  induction t generalizing args with
  | last text _ =>
    obtain rfl := List.eq_nil_of_length_eq_zero h
    rfl
  | literal front quoted rest ih =>
    rw [places] at h
    have htake : (args.take quoted.content.places).length = quoted.content.places := by
      rw [List.length_take]
      omega
    have hdrop : (args.drop quoted.content.places).length = rest.places := by
      rw [List.length_drop]
      omega
    have hargs : Template.totalLength args =
        Template.totalLength (args.take quoted.content.places) +
          Template.totalLength (args.drop quoted.content.places) := by
      rw [← Template.totalLength_append, List.take_append_drop]
    rw [fill, textLength, hargs]
    simp only [List.length_append, List.length_cons, ih hdrop, quoted.content.length_fill htake]
    omega

/-- The texts of the tokens are the statement. -/
theorem texts_tokens (t : SqlTemplate) (args : List (List UInt8)) :
    (t.tokens args).flatMap Token.text = t.fill args := by
  induction t generalizing args with
  | last text hnul => exact sqlite3GetToken.texts_eq hnul
  | literal front quoted rest ih =>
    rw [tokens, fill, List.flatMap_append, List.flatMap_cons, ih, front.splits.texts]
    simp [literalToken]

theorem Apart.head_fill {t : SqlTemplate} (h : t.Apart) (args : List (List UInt8)) :
    (t.fill args).head? ≠ some 39 := by
  cases t with
  | last text _ => exact h
  | literal front quoted rest =>
    obtain ⟨b, text, htext⟩ := List.exists_cons_of_ne_nil h.1
    have hhead := h.2
    rw [htext] at hhead
    rw [fill, htext]
    exact hhead

/-- **Places filled with quotes in pairs keep the tokens of the template.** -/
theorem sqlTokens_fill {t : SqlTemplate} (hclosed : t.Closed) {args : List (List UInt8)}
    (h : t.Quoted args) : sqlTokens (t.fill args) = t.tokens args := by
  induction t generalizing args with
  | last text _ => rfl
  | literal front quoted rest ih =>
    have hrest := hclosed.1.head_fill (args.drop quoted.content.places)
    rw [fill, tokens, sqlTokens, front.splits.tokens]
    exact congrArg (front.tokens ++ ·)
      ((sqlTokens_literal h.1 hrest).trans (congrArg _ (ih hclosed.2 h.2)))

/-- Where they are kept, the quotes are in pairs. -/
theorem quoted_of_sqlTokens {t : SqlTemplate} {args : List (List UInt8)}
    (h : sqlTokens (t.fill args) = t.tokens args) : t.Quoted args := by
  induction t generalizing args with
  | last text _ => trivial
  | literal front quoted rest ih =>
    rw [fill, tokens, sqlTokens, front.splits.tokens] at h
    obtain ⟨hdoubled, hrest⟩ := doubled_of_sqlTokens (List.append_cancel_left h)
    exact ⟨hdoubled, ih hrest⟩

end SqlTemplate

end WowProxy
