import Chronicle.Toml.Scalar

/-!
# Values and tables

A document is a table of values. A table may come into being in four ways, and they limit what may
be added to it later: a header opens a table once, a longer header implies the tables on its path,
which a later header may still open; a dotted key makes tables that only dotted keys add to; and a
table in braces is closed.
-/
namespace Chronicle.Toml

/-- How a table came into being. -/
inductive Origin where
  /-- By its own header. -/
  | header
  /-- By the header of a table inside it. -/
  | implied
  /-- By a dotted key. -/
  | dotted
  deriving DecidableEq, Repr

inductive Value where
  | text (s : String)
  | integer (n : Int64)
  | float
  | boolean (b : Bool)
  | moment
  | array (items : List Value)
  /-- A table in braces. -/
  | closed (entries : List (String × Value))
  | table (origin : Origin) (entries : List (String × Value))
  /-- Tables that were opened one after the other by headers of one name. -/
  | tables (items : List (List (String × Value)))

abbrev Table := List (String × Value)

namespace Table

def replace (t : Table) (key : String) (v : Value) : Table :=
  t.map fun e => if e.1 = key then (key, v) else e

/-- Defines `key` in the table that a dotted path leads to. -/
def define (key : String) (v : Value) : List String → Table → Option Table
  | [], t => if (t.lookup key).isSome then none else some (t ++ [(key, v)])
  | k :: path, t =>
    match t.lookup k with
    | none => do
      let sub ← define key v path []
      return t ++ [(k, .table .dotted sub)]
    | some (.table origin sub) =>
      if origin = .header ∨ (path.isEmpty ∧ origin ≠ .dotted) then none
      else do
        let sub ← define key v path sub
        return t.replace k (.table origin sub)
    | some (.tables items) =>
      if path.isEmpty then none
      else do
        let sub ← define key v path (← items.getLast?)
        return t.replace k (.tables (items.dropLast ++ [sub]))
    | some _ => none

/-- Changes the table that the path of a header leads to. Tables on the path that are not there yet
are implied. -/
def within (f : Table → Option Table) : List String → Table → Option Table
  | [], t => f t
  | k :: path, t =>
    match t.lookup k with
    | none => do
      let sub ← within f path []
      return t ++ [(k, .table .implied sub)]
    | some (.table origin sub) => do
      let sub ← within f path sub
      return t.replace k (.table origin sub)
    | some (.tables items) => do
      let sub ← within f path (← items.getLast?)
      return t.replace k (.tables (items.dropLast ++ [sub]))
    | some _ => none

/-- Opens the table `key`, which nothing but a longer header may have mentioned before. -/
def openTable (key : String) (t : Table) : Option Table :=
  match t.lookup key with
  | none => some (t ++ [(key, .table .header [])])
  | some (.table .implied sub) => some (t.replace key (.table .header sub))
  | some _ => none

/-- Opens one more of the tables `key`. -/
def openNext (key : String) (t : Table) : Option Table :=
  match t.lookup key with
  | none => some (t ++ [(key, .tables [[]])])
  | some (.tables items) => some (t.replace key (.tables (items ++ [[]])))
  | some _ => none

end Table

end Chronicle.Toml
