import Chronicle.Toml.Rule

/-!
# Quoted text

Text between double quotes may hold escapes, text between single quotes holds none. Tripled quotes
let text run over several lines; one or two quotes may then stand in the text, also right before the
closing ones.
-/
namespace Chronicle.Toml

/-- Whether a character may stand in quoted text: no control character but the tab. -/
def isTextChar (c : Char) : Bool := c = '\t' || (' ' ≤ c && c ≠ '\x7f')

/-- The character of a code point. -/
def charOfCode? (n : Nat) : Option Char := if n.isValidChar then some (Char.ofNat n) else none

/-- The character of `n` hexadecimal digits. -/
def codePoint (n : Nat) : Rule Char := do
  let ds ← Rule.times (digit 16) n
  match charOfCode? (digitsValue 16 ds) with
  | some c => pure c
  | none => failure

def escape : Rule Char := do
  discard (Rule.char '\\')
  let c ← Rule.satisfy fun _ => true
  match c with
  | 'b' => pure '\x08'
  | 't' => pure '\t'
  | 'n' => pure '\n'
  | 'f' => pure '\x0c'
  | 'r' => pure '\r'
  | '"' => pure '"'
  | '\\' => pure '\\'
  | 'u' => codePoint 4
  | 'U' => codePoint 8
  | _ => failure

def basicText : Rule (List Char) := do
  discard (Rule.char '"')
  let cs ← Rule.many (escape <|> Rule.satisfy fun c => isTextChar c && c ≠ '"' && c ≠ '\\')
  discard (Rule.char '"')
  pure cs

def literalText : Rule (List Char) := do
  discard (Rule.char '\'')
  let cs ← Rule.takeWhile fun c => isTextChar c && c ≠ '\''
  discard (Rule.char '\'')
  pure cs

/-- A backslash at the end of a line: it and the white space after it stand for nothing. -/
def lineJoin : Rule (List Char) := do
  discard (Rule.char '\\')
  blanks
  newline
  discard (Rule.many (discard (Rule.satisfy isBlank) <|> newline))
  pure []

/-- One or two quotes `q`, which do not close the text. -/
def innerQuotes (q : Char) : Rule (List Char) := do
  let qs ← Rule.takeWhile (· = q)
  if 1 ≤ qs.length ∧ qs.length ≤ 2 then pure qs else failure

/-- Three closing quotes `q`, and up to two before them that belong to the text. -/
def closingQuotes (q : Char) : Rule (List Char) := do
  let qs ← Rule.takeWhile (· = q)
  if 3 ≤ qs.length ∧ qs.length ≤ 5 then pure (qs.drop 3) else failure

/-- Text between tripled quotes `q`, made of pieces. -/
def multilineText (q : Char) (piece : Rule (List Char)) : Rule (List Char) := do
  Rule.word [q, q, q]
  discard (Rule.opt newline)
  let pieces ← Rule.many (piece <|> (newline *> pure ['\n']) <|> innerQuotes q)
  let last ← closingQuotes q
  pure (pieces.flatten ++ last)

def quotedText : Rule (List Char) :=
  let plain (q : Char) : Rule (List Char) :=
    Rule.many1 (Rule.satisfy fun c => isTextChar c && c ≠ q && (c ≠ '\\' || q ≠ '"'))
  multilineText '"' (plain '"' <|> lineJoin <|> (do pure [← escape]))
    <|> multilineText '\'' (plain '\'')
    <|> basicText
    <|> literalText

end Chronicle.Toml
