import Chronicle.Config
import Chronicle.Toml.Document

/-!
# The configuration file

A configuration is written as a TOML document of five keys, each of which may be missing. Keys that
mean nothing here are ignored. `Config.standardText` is a file that says what holds anyway.
-/
namespace Chronicle.Config

/-- The lines of the file that is written where there is none. -/
def standardLines : List String := [
  "# History tree configuration",
  "",
  "# Maximum serialized size of one appended batch, in bytes",
  "transaction_size_limit = 4194304",
  "",
  "# Page size used when a read passes 0, and the cap applied to all pages",
  "default_page_size = 100",
  "max_page_size = 1000",
  "",
  "# Optional per-operation deadline in milliseconds",
  "# operation_timeout_ms = 5000",
  "",
  "# Maximum number of ancestor ranges a fork may produce",
  "max_ancestor_depth = 256"]

/-- `default_toml`: the file that is written where there is none. -/
def standardText : String := String.join (standardLines.map (· ++ "\n"))

/-- The count that a key of a document gives, if the key is there. -/
def countAt? (t : Toml.Table) (key : String) : Except ConfigError (Option UInt64) :=
  match t.lookup key with
  | none => .ok none
  | some (.integer n) =>
    if n < 0 then .error (.parse s!"{key} is negative") else .ok (some n.toUInt64)
  | some _ => .error (.parse s!"{key} is not an integer")

/-- The configuration that the table of a document gives. -/
def ofTable (t : Toml.Table) : Except ConfigError Config := do
  let size ← countAt? t "transaction_size_limit"
  let page ← countAt? t "default_page_size"
  let maxPage ← countAt? t "max_page_size"
  let timeout ← countAt? t "operation_timeout_ms"
  let depth ← countAt? t "max_ancestor_depth"
  return {
    transactionSizeLimit := size.getD standard.transactionSizeLimit
    defaultPageSize := page.getD standard.defaultPageSize
    maxPageSize := maxPage.getD standard.maxPageSize
    operationTimeoutMs := timeout
    maxAncestorDepth := depth.getD standard.maxAncestorDepth }

/-- `from_toml_str`: reads and checks the text of a file. -/
def ofText (text : String) : Except ConfigError Config := do
  match Toml.Document.read text with
  | none => .error (.parse "not a TOML document")
  | some t =>
    let c ← ofTable t
    c.check
    return c

/-- `from_file`: reads and checks the file at `path`, of which the content is given if it is there.
-/
def load (path : String) : Option Bytes → Except ConfigError Config
  | none => .error (.io path "no such file")
  | some content =>
    match Utf8.decode content with
    | .error fault => .error (.io path fault.message)
    | .ok text => ofText text

/-- `write_default_if_missing`: the content of the file after making sure that there is one. -/
def ensure : Option Bytes → Bytes
  | none => Utf8.encode standardText
  | some content => content

end Chronicle.Config
