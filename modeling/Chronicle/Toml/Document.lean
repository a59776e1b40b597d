import Chronicle.Toml.Value

/-!
# Documents

TOML 1.0: a document is a sequence of lines, each of which defines a key or opens a table.
`Document.read` gives its table, or nothing for a text that is no document.
-/
namespace Chronicle.Toml

/-- Arrays and tables in braces nest at most this deep, and a key has at most so many parts. -/
def depthLimit : Nat := 79

/-! ## Keys and values -/

/-- Whether a character may stand in a key without quotes. -/
def isBareChar (c : Char) : Bool := c.isAlphanum || c = '_' || c = '-'

def simpleKey : Rule String :=
  String.ofList <$> (basicText <|> literalText <|> Rule.many1 (Rule.satisfy isBareChar))

/-- Keys with dots between them: those on the way, and the last one. -/
def key : Rule (List String × String) := do
  let ks ← Rule.separated (blanks *> simpleKey <* blanks) (Rule.char '.')
  match ks.getLast? with
  | some k => if ks.length ≤ depthLimit then pure (ks.dropLast, k) else failure
  | none => failure

def definition (value : Rule Value) : Rule (List String × String × Value) := do
  let (path, k) ← key
  discard (Rule.char '=')
  blanks
  let v ← value
  pure (path, k, v)

def scalar : Rule Value :=
  (Value.text ∘ String.ofList) <$> quotedText
    <|> Value.boolean <$> boolean
    <|> moment *> pure .moment
    <|> float *> pure .float
    <|> Value.integer <$> integer

/-- Values in brackets; they may go over several lines, and a comma may follow the last. -/
def array (value : Rule Value) : Rule Value := do
  discard (Rule.char '[')
  let items ← Rule.separated (filler *> value <* filler) (Rule.char ',') <|> pure []
  unless items.isEmpty do discard (Rule.opt (Rule.char ','))
  filler
  discard (Rule.char ']')
  pure (.array items)

/-- Definitions in braces, on one line. -/
def closedTable (value : Rule Value) : Rule Value := do
  discard (Rule.char '\x7b')
  let definitions ← Rule.separated (definition value <* blanks) (Rule.char ',') <|> pure []
  blanks
  discard (Rule.char '\x7d')
  let entries := definitions.foldlM (fun (t : Table) (path, k, v) => t.define k v path) []
  match entries with
  | some t => pure (.closed t)
  | none => failure

/-- A value in which arrays and tables nest at most `depth` deep. -/
def value : (depth : Nat) → Rule Value
  | 0 => scalar
  | depth + 1 => scalar <|> array (value depth) <|> closedTable (value depth)

/-! ## Lines -/

/-- What a line says. -/
inductive Statement where
  | define (path : List String) (key : String) (v : Value)
  | openTable (path : List String) (key : String)
  | openNext (path : List String) (key : String)

def statement : Rule Statement := do
  let s ←
    (do
      Rule.word ['[', '[']
      let (path, k) ← key
      Rule.word [']', ']']
      pure (Statement.openNext path k))
    <|> (do
      discard (Rule.char '[')
      let (path, k) ← key
      discard (Rule.char ']')
      pure (Statement.openTable path k))
    <|> (do
      let (path, k, v) ← definition (value depthLimit)
      pure (Statement.define path k v))
  lineEnd
  pure s

/-- A line; a blank one says nothing. -/
def line : Rule (Option Statement) := do
  blanks
  (discard (Rule.opt comment) *> newline *> pure none)
    <|> (comment *> Rule.finish *> pure none)
    <|> some <$> statement

/-- The lines of a text. A byte order mark may come first. -/
def statements : Rule (List Statement) := do
  discard (Rule.opt (Rule.char '\uFEFF'))
  let lines ← Rule.many line
  blanks
  Rule.finish
  pure (lines.filterMap id)

/-- A document in the making: its table, and the way to the table that the last header opened. -/
structure Document where
  root : Table
  current : List String

namespace Document

def add (d : Document) : Statement → Option Document
  | .define path k v => do
    return { d with root := ← d.root.within (·.define k v path) d.current }
  | .openTable path k => do
    return ⟨← d.root.within (·.openTable k) path, path ++ [k]⟩
  | .openNext path k => do
    return ⟨← d.root.within (·.openNext k) path, path ++ [k]⟩

/-- The table of a document. -/
def read (text : String) : Option Table := do
  let (lines, _) ← statements text.toList
  let d ← lines.foldlM add ⟨[], []⟩
  return d.root

end Document

end Chronicle.Toml
