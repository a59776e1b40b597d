import Chronicle.Toml.Quoted

/-!
# Numbers, dates and times

Integers have 64 bits and may be written in base 2, 8, 10 or 16. Dates follow the calendar, and
seconds may be 60. Of a decimal fraction only the text is kept, and one that rounds to positive
infinity in binary64 is refused.
-/
namespace Chronicle.Toml

/-- A sign; `true` is minus. -/
def sign : Rule Bool := (Rule.char '-' *> pure true) <|> (Rule.char '+' *> pure false) <|> pure false

/-- The digits of a decimal integer: no zero before other digits. -/
def decimalDigits : Rule (List Char) := do
  let c ← digit 10
  if c = '0' then pure [c]
  else
    let cs ← moreDigits 10
    pure (c :: cs)

def toInt64? (n : Int) : Option Int64 :=
  if Int64.minValue.toInt ≤ n ∧ n ≤ Int64.maxValue.toInt then some (Int64.ofInt n) else none

/-- The integer of 64 bits with a sign and a magnitude. -/
def signed (negative : Bool) (magnitude : Nat) : Rule Int64 :=
  match toInt64? (if negative then -(magnitude : Int) else magnitude) with
  | some n => pure n
  | none => failure

/-- An integer in a base with a mark of its own, which has no sign. -/
def markedInteger (mark : Char) (base : Nat) : Rule Int64 := do
  Rule.word ['0', mark]
  let ds ← digits base
  signed false (digitsValue base ds)

def integer : Rule Int64 :=
  markedInteger 'x' 16 <|> markedInteger 'o' 8 <|> markedInteger 'b' 2 <|> do
    let negative ← sign
    let ds ← decimalDigits
    signed negative (digitsValue 10 ds)

/-- Whether `m * 10 ^ e` rounds to a finite number of binary64: it is below the middle between the
largest finite one and the next power of two. -/
def isFinite (m : Nat) (e : Int) : Bool :=
  let bound := Nat.pow 2 1024 - Nat.pow 2 970
  if m = 0 then true
  else if 400 < e then false
  else if 0 ≤ e then m * Nat.pow 10 e.toNat < bound
  else
    let scale := e.natAbs
    if (Nat.toDigits 10 m).length ≤ scale then true else m < bound * Nat.pow 10 scale

def exponent : Rule Int := do
  discard (Rule.char 'e' <|> Rule.char 'E')
  let negative ← sign
  let ds ← digits 10
  let n : Int := digitsValue 10 ds
  pure (if negative then -n else n)

/-- A decimal fraction: digits after a point, an exponent, or both. -/
def fraction : Rule Unit := do
  let negative ← sign
  let whole ← decimalDigits
  let places ← Rule.opt (Rule.char '.' *> digits 10)
  let power ← Rule.opt exponent
  if places.isNone && power.isNone then failure
  let after := places.getD []
  if !negative && !isFinite (digitsValue 10 (whole ++ after)) (power.getD 0 - after.length) then
    failure

/-- A floating-point number: a fraction, or an infinity or NaN of any sign. -/
def float : Rule Unit :=
  fraction <|> do
    discard sign
    Rule.word ['i', 'n', 'f'] <|> Rule.word ['n', 'a', 'n']

def boolean : Rule Bool :=
  (Rule.word ['t', 'r', 'u', 'e'] *> pure true)
    <|> (Rule.word ['f', 'a', 'l', 's', 'e'] *> pure false)

/-! ## Dates and times -/

/-- A number of exactly `n` digits between two bounds. -/
def field (n min max : Nat) : Rule Nat := do
  let ds ← Rule.times (digit 10) n
  let v := digitsValue 10 ds
  if min ≤ v ∧ v ≤ max then pure v else failure

def daysIn (year month : Nat) : Nat :=
  if month = 2 then
    if year % 4 = 0 ∧ (year % 100 ≠ 0 ∨ year % 400 = 0) then 29 else 28
  else if month = 4 ∨ month = 6 ∨ month = 9 ∨ month = 11 then 30
  else 31

def date : Rule Unit := do
  let year ← field 4 0 9999
  discard (Rule.char '-')
  let month ← field 2 1 12
  discard (Rule.char '-')
  discard (field 2 1 (daysIn year month))

def time : Rule Unit := do
  discard (field 2 0 23)
  discard (Rule.char ':')
  discard (field 2 0 59)
  discard (Rule.char ':')
  discard (field 2 0 60)
  discard (Rule.opt (Rule.char '.' *> Rule.many1 (digit 10)))

def offset : Rule Unit :=
  discard (Rule.char 'Z' <|> Rule.char 'z') <|> do
    discard (Rule.char '+' <|> Rule.char '-')
    discard (field 2 0 23)
    discard (Rule.char ':')
    discard (field 2 0 59)

def moment : Rule Unit :=
  (do
    date
    discard (Rule.opt (do
      discard (Rule.char 'T' <|> Rule.char 't' <|> Rule.char ' ')
      time
      discard (Rule.opt offset))))
    <|> time

end Chronicle.Toml
