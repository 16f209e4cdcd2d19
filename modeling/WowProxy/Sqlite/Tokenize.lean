/-
  Sqlite/Tokenize.lean --- the tokenizer of `sqlite/sqlite3.c`.

  `sqlite3GetToken` is put together from scanners, with the single quote as the mark:
  the bytes it looks at are the ones it takes, and a few behind them, but none behind
  a quote it leaves.  `z[i]` at the end of the text is NUL.  `keywordCode` looks at
  nothing but the text of its token and is not embedded.
-/
import WowProxy.Lib.Scanner

set_option autoImplicit false

namespace WowProxy

open Lib Lib.Scanner

/-! ## Characters -/

/-- The `CC_` classes, in the order of their numbers. -/
inductive CharClass where
  | x | kywd | id | digit | dollar | varalpha | varnum | space | quote | quote2
  | pipe | minus | lt | gt | eq | bang | slash | lp | rp | semi
  | plus | star | percent | comma | and | tilda | dot | illegal
  deriving DecidableEq

/-- The classes by their numbers. -/
def charClasses : List CharClass :=
  [.x, .kywd, .id, .digit, .dollar, .varalpha, .varnum, .space, .quote, .quote2,
    .pipe, .minus, .lt, .gt, .eq, .bang, .slash, .lp, .rp, .semi,
    .plus, .star, .percent, .comma, .and, .tilda, .dot, .illegal]

/-- The lower half of `aiClass`. -/
def aiClassTable : List Nat :=
  [27, 27, 27, 27, 27, 27, 27, 27, 27,  7,  7, 27,  7,  7, 27, 27,
   27, 27, 27, 27, 27, 27, 27, 27, 27, 27, 27, 27, 27, 27, 27, 27,
    7, 15,  8,  5,  4, 22, 24,  8, 17, 18, 21, 20, 23, 11, 26, 16,
    3,  3,  3,  3,  3,  3,  3,  3,  3,  3,  5, 19, 12, 14, 13,  6,
    5,  1,  1,  1,  1,  1,  1,  1,  1,  1,  1,  1,  1,  1,  1,  1,
    1,  1,  1,  1,  1,  1,  1,  1,  0,  1,  1,  9, 27, 27, 27,  1,
    8,  1,  1,  1,  1,  1,  1,  1,  1,  1,  1,  1,  1,  1,  1,  1,
    1,  1,  1,  1,  1,  1,  1,  1,  0,  1,  1, 27, 10, 27, 25, 27]

/-- `aiClass[c]`; every byte of the upper half has the class 2. -/
def aiClass (c : UInt8) : CharClass := charClasses.getD (aiClassTable.getD c.toNat 2) .illegal

/-- The lower half of `sqlite3CtypeMap`. -/
def ctypeMapTable : List UInt8 :=
  [0x00, 0x00, 0x00, 0x00, 0x00, 0x00, 0x00, 0x00,
   0x00, 0x01, 0x01, 0x01, 0x01, 0x01, 0x00, 0x00,
   0x00, 0x00, 0x00, 0x00, 0x00, 0x00, 0x00, 0x00,
   0x00, 0x00, 0x00, 0x00, 0x00, 0x00, 0x00, 0x00,
   0x01, 0x00, 0x80, 0x00, 0x40, 0x00, 0x00, 0x80,
   0x00, 0x00, 0x00, 0x00, 0x00, 0x00, 0x00, 0x00,
   0x0c, 0x0c, 0x0c, 0x0c, 0x0c, 0x0c, 0x0c, 0x0c,
   0x0c, 0x0c, 0x00, 0x00, 0x00, 0x00, 0x00, 0x00,
   0x00, 0x0a, 0x0a, 0x0a, 0x0a, 0x0a, 0x0a, 0x02,
   0x02, 0x02, 0x02, 0x02, 0x02, 0x02, 0x02, 0x02,
   0x02, 0x02, 0x02, 0x02, 0x02, 0x02, 0x02, 0x02,
   0x02, 0x02, 0x02, 0x80, 0x00, 0x00, 0x00, 0x40,
   0x80, 0x2a, 0x2a, 0x2a, 0x2a, 0x2a, 0x2a, 0x22,
   0x22, 0x22, 0x22, 0x22, 0x22, 0x22, 0x22, 0x22,
   0x22, 0x22, 0x22, 0x22, 0x22, 0x22, 0x22, 0x22,
   0x22, 0x22, 0x22, 0x00, 0x00, 0x00, 0x00, 0x00]

/-- `sqlite3CtypeMap[c]`; every byte of the upper half has the value 0x40. -/
def sqlite3CtypeMap (c : UInt8) : UInt8 := ctypeMapTable.getD c.toNat 0x40

def sqlite3Isspace (c : UInt8) : Bool := sqlite3CtypeMap c &&& 0x01 != 0

def sqlite3Isdigit (c : UInt8) : Bool := sqlite3CtypeMap c &&& 0x04 != 0

def sqlite3Isxdigit (c : UInt8) : Bool := sqlite3CtypeMap c &&& 0x08 != 0

/-- `IdChar(c)` -/
def idChar (c : UInt8) : Bool := sqlite3CtypeMap c &&& 0x46 != 0

/-! ## Tokens -/

/-- The types `sqlite3GetToken` stores; `keywordCode` is what that function makes of
the text, a keyword or `TK_ID`. -/
inductive TokenType where
  | space | minus | lp | rp | semi | plus | star | slash | rem | eq | le | ne | lshift | lt
  | ge | rshift | gt | illegal | bitor | concat | comma | bitand | bitnot | string | id | dot
  | integer | float | variable | keywordCode | blob
  deriving DecidableEq

/-- A scanner of a token in a statement: none of them looks behind a single quote. -/
abbrev SqlScanner := Scanner 39

/-- `return 2` with the one type if `z[1]` is `c`, and `return 1` with the other. -/
def ifNext (c : UInt8) (two one : TokenType) : SqlScanner TokenType := do
  if (← peek) = c then
    skip
    return two
  else
    return one

/-- `CC_MINUS` -/
def minusToken : SqlScanner TokenType := do
  if (← peek) = 45 then
    skip
    skipWhile fun c => c != 0 && c != 10
    return .space
  else
    return .minus

/-- The loop of a comment, whose state is the byte before. -/
def commentStep (c b _ : UInt8) : Option UInt8 :=
  if (c = 42 ∧ b = 47) ∨ b = 0 then none else some b

/-- `CC_SLASH` -/
def slashToken : SqlScanner TokenType := do
  if (← isNext [(· == 42), (· != 0)] rfl) then
    skip
    let c ← next
    let _ ← scan commentStep (fun _ _ _ => rfl) c
    -- the `/` of the end
    if (← peek) ≠ 0 then
      skip
    return .space
  else
    return .slash

/-- `CC_LT` -/
def ltToken : SqlScanner TokenType := do
  let c ← peek
  if c = 61 then
    skip
    return .le
  else if c = 62 then
    skip
    return .ne
  else if c = 60 then
    skip
    return .lshift
  else
    return .lt

/-- `CC_GT` -/
def gtToken : SqlScanner TokenType := do
  let c ← peek
  if c = 61 then
    skip
    return .ge
  else if c = 62 then
    skip
    return .rshift
  else
    return .gt

/-- The loop of a quoted text.  The state says that a delimiter has been read, which
ends the text unless another follows. -/
def quoteStep (delim : UInt8) (ended : Bool) (b _ : UInt8) : Option Bool :=
  if ended then (if b = delim then some false else none)
  else if b = 0 then none
  else some (b == delim)

/-- `CC_QUOTE` -/
def quoteToken (delim : UInt8) : SqlScanner TokenType := do
  if (← scan (quoteStep delim) (fun _ _ _ => rfl) false) then
    return if delim = 39 then .string else .id
  else
    return .illegal

/-- The exponent of a number, if there is one. -/
def exponent (type : TokenType) : SqlScanner TokenType := do
  let isE : UInt8 → Bool := fun c => c == 101 || c == 69
  let isSign : UInt8 → Bool := fun c => c == 43 || c == 45
  if (← isNext [isE, sqlite3Isdigit] rfl) ||
      (← isNext [isE, isSign, sqlite3Isdigit] rfl) then
    skip
    skip
    skipWhile sqlite3Isdigit
    return .float
  else
    return type

/-- `CC_DIGIT`, and `CC_DOT` in front of a digit; `c` is `z[0]`. -/
def numberToken (c : UInt8) : SqlScanner TokenType := do
  if c = 48 && (← isNext [fun x => x == 120 || x == 88, sqlite3Isxdigit] rfl) then
    skip
    skipWhile sqlite3Isxdigit
    return .integer
  else
    let type ← fraction
    let type ← exponent type
    if idChar (← peek) then
      skipWhile idChar
      return .illegal
    else
      return type
where
  /-- The digits in front of the point, the point and the digits behind it. -/
  fraction : SqlScanner TokenType := do
    if c = 46 then
      skipWhile sqlite3Isdigit
      return .float
    else
      skipWhile sqlite3Isdigit
      if (← peek) = 46 then
        skip
        skipWhile sqlite3Isdigit
        return .float
      else
        return .integer

/-- `CC_DOT` -/
def dotToken : SqlScanner TokenType := do
  if !sqlite3Isdigit (← peek) then return .dot
  else numberToken 46

/-- The loop of `CC_QUOTE2`, whose state is the byte before. -/
def bracketStep (c b _ : UInt8) : Option UInt8 :=
  if c = 93 ∨ b = 0 then none else some b

/-- `CC_QUOTE2` -/
def bracketToken : SqlScanner TokenType := do
  let c ← scan bracketStep (fun _ _ _ => rfl) 91
  return if c = 93 then .id else .illegal

/-- `CC_VARNUM` -/
def varnumToken : SqlScanner TokenType := do
  skipWhile sqlite3Isdigit
  return .variable

/-- Where the loop of a variable is. -/
structure VariableState where
  /-- `n > 0` -/
  named : Bool
  /-- the second colon of two comes next -/
  colon : Bool

/-- The loop of a variable up to a byte it does not take. -/
def variableStep (st : VariableState) (c b : UInt8) : Option VariableState :=
  if st.colon then some { st with colon := false }
  else if idChar c then some { st with named := true }
  else if c = 58 ∧ b = 58 then some { st with colon := true }
  else none

theorem variableStep_quote (st : VariableState) (b b' : UInt8) :
    variableStep st 39 b = variableStep st 39 b' := rfl

/-- `CC_DOLLAR` and `CC_VARALPHA` -/
def variableToken : SqlScanner TokenType := do
  let st ← scan variableStep variableStep_quote ⟨false, false⟩
  if st.named && (← peek) = 40 then
    skip
    skipWhile fun c => c != 0 && !sqlite3Isspace c && c != 41
    if (← peek) = 41 then
      skip
      return .variable
    else
      return .illegal
  else
    return if st.named then .variable else .illegal

/-- The end of `sqlite3GetToken`: the rest of an identifier. -/
def idToken : SqlScanner TokenType := do
  skipWhile idChar
  return .id

/-- `CC_KYWD` -/
def kywdToken : SqlScanner TokenType := do
  skipWhile fun c => aiClass c == .x || aiClass c == .kywd
  if idChar (← peek) then
    skip
    idToken
  else
    return .keywordCode

/-- `CC_X` -/
def blobToken : SqlScanner TokenType := do
  if (← peek) = 39 then
    skip
    -- `i % 2`
    let odd ← scan (fun odd c _ => if sqlite3Isxdigit c then some !odd else none)
      (fun _ _ _ => rfl) false
    if (← peek) ≠ 39 || odd then
      skipWhile fun c => c != 0 && c != 39
      if (← peek) ≠ 0 then
        skip
      return .illegal
    else
      skip
      return .blob
  else
    idToken

/-- `sqlite3GetToken(z, &tokenType)` for a text that is not empty. -/
def sqlite3GetToken : Lexer 39 TokenType := .ofNext fun c =>
  match aiClass c with
  | .space => do
    skipWhile sqlite3Isspace
    return .space
  | .minus => minusToken
  | .lp => return .lp
  | .rp => return .rp
  | .semi => return .semi
  | .plus => return .plus
  | .star => return .star
  | .slash => slashToken
  | .percent => return .rem
  | .eq => ifNext 61 .eq .eq
  | .lt => ltToken
  | .gt => gtToken
  | .bang => ifNext 61 .ne .illegal
  | .pipe => ifNext 124 .concat .bitor
  | .comma => return .comma
  | .and => return .bitand
  | .tilda => return .bitnot
  | .quote => quoteToken c
  | .dot => dotToken
  | .digit => numberToken c
  | .quote2 => bracketToken
  | .varnum => varnumToken
  | .dollar | .varalpha => variableToken
  | .kywd => kywdToken
  | .x => blobToken
  | .id => idToken
  | .illegal => return .illegal

abbrev SqlToken := Token TokenType

/-- The loop of `sqlite3RunParser` over the statement. -/
def sqlTokens (zSql : List UInt8) : List SqlToken := sqlite3GetToken.tokens zSql

end WowProxy
