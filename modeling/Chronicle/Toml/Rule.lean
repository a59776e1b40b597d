/-!
# Grammar rules

A rule reads a value off the front of a text, or fails without a trace: `r <|> s` tries `s` where
`r` failed. Repetition is bounded by the length of the text, which is enough for rules that read at
least one character.
-/
namespace Chronicle.Toml

/-- Reads a value off the front of a text. -/
abbrev Rule (α : Type) := StateT (List Char) Option α

namespace Rule

variable {α β : Type}

def satisfy (p : Char → Bool) : Rule Char
  | [] => none
  | c :: cs => if p c then some (c, cs) else none

def char (c : Char) : Rule Char := satisfy (· = c)

def word : List Char → Rule Unit
  | [] => pure ()
  | c :: cs => do
    discard (char c)
    word cs

def finish : Rule Unit
  | [] => some ((), [])
  | _ :: _ => none

/-- The longest run of characters that satisfy `p`. -/
def takeWhile (p : Char → Bool) : Rule (List Char) := fun cs =>
  some (cs.takeWhile p, cs.dropWhile p)

def opt (r : Rule α) : Rule (Option α) := some <$> r <|> pure none

/-- What `r` reads again and again, at most `n` times. -/
def upTo (r : Rule α) : Nat → Rule (List α)
  | 0 => pure []
  | n + 1 => (do
      let a ← r
      let as ← upTo r n
      pure (a :: as)) <|> pure []

def many (r : Rule α) : Rule (List α) := fun cs => upTo r cs.length cs

def many1 (r : Rule α) : Rule (List α) := do
  let a ← r
  let as ← many r
  pure (a :: as)

/-- What `r` reads, at least once, with what `separator` reads in between. -/
def separated (r : Rule α) (separator : Rule β) : Rule (List α) := do
  let a ← r
  let as ← many (separator *> r)
  pure (a :: as)

def times (r : Rule α) : Nat → Rule (List α)
  | 0 => pure []
  | n + 1 => do
    let a ← r
    let as ← times r n
    pure (a :: as)

end Rule

/-! ## Blanks, comments and ends of lines -/

def isBlank (c : Char) : Bool := c = ' ' || c = '\t'

def blanks : Rule Unit := discard (Rule.takeWhile isBlank)

def newline : Rule Unit :=
  discard (Rule.char '\n') <|> Rule.word ['\r', '\n']

/-- Whether a character may stand in a comment: no control character but the tab. -/
def isCommentChar (c : Char) : Bool := c = '\t' || (' ' ≤ c && c ≠ '\x7f')

def comment : Rule Unit := do
  discard (Rule.char '#')
  discard (Rule.takeWhile isCommentChar)

/-- The rest of a line on which nothing may follow but a comment. -/
def lineEnd : Rule Unit := do
  blanks
  discard (Rule.opt comment)
  newline <|> Rule.finish

/-- Blanks, comments and ends of lines. -/
def filler : Rule Unit :=
  discard (Rule.many
    (discard (Rule.satisfy isBlank) <|> do
      discard (Rule.opt comment)
      newline))

/-! ## Digits -/

def digitValue (c : Char) : Nat :=
  if '0' ≤ c ∧ c ≤ '9' then c.toNat - '0'.toNat
  else if 'a' ≤ c ∧ c ≤ 'f' then c.toNat - 'a'.toNat + 10
  else c.toNat - 'A'.toNat + 10

/-- Whether a character is a digit of a base up to 16. -/
def isDigitOf (base : Nat) (c : Char) : Bool :=
  (c.isDigit || ('a' ≤ c && c ≤ 'f') || ('A' ≤ c && c ≤ 'F')) && digitValue c < base

def digitsValue (base : Nat) (digits : List Char) : Nat :=
  digits.foldl (fun n c => n * base + digitValue c) 0

def digit (base : Nat) : Rule Char := Rule.satisfy (isDigitOf base)

/-- Digits of a base, each of which but the first may follow an underscore. -/
def moreDigits (base : Nat) : Rule (List Char) :=
  Rule.many (digit base <|> Rule.char '_' *> digit base)

/-- At least one digit of a base; underscores only between two digits. -/
def digits (base : Nat) : Rule (List Char) := do
  let c ← digit base
  let cs ← moreDigits base
  pure (c :: cs)

end Chronicle.Toml
