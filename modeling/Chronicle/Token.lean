import Chronicle.Span
import Chronicle.Duration

/-!
# Branch tokens

A token is the handle by which callers hold a branch. It says whose history the branch is, which
tree and branch it is, from which branches it inherits its first nodes, and how long it is to be
kept. Callers only see the written form: a format version and the body, with nothing after it.

* `Token.spans` are the stretches of nodes that make up the branch, its own one last.
* `Token.encode` refuses a body of more than `Token.bodyLimit` bytes; `Token.decode` has no such
  limit, but demands a proper lineage.
-/
namespace Chronicle

/-- `BranchToken`: the handle of a branch. -/
structure Token where
  namespaceId : String
  workflowId : String
  runId : String
  tree : TreeId
  branch : BranchId
  /-- The spans inherited from other branches, from the first node on. -/
  lineage : List Span
  retention : Retention
  deriving DecidableEq, Repr

namespace Token

/-- Why bytes are no token, or a token has no written form. -/
inductive Fault where
  | empty
  | unsupportedVersion (found : UInt8)
  | body (fault : Wire.Fault)
  | lineage (fault : Lineage.Fault)
  | oversized
  deriving DecidableEq, Repr

def Fault.message : Fault → String
  | .empty => "empty branch token"
  | .unsupportedVersion found => s!"unsupported branch token version {found}"
  | .body fault => fault.message
  | .lineage fault => fault.message
  | .oversized => "the size limit has been reached"

/-- `TOKEN_FORMAT_VERSION`, the first byte of the written form. -/
def formatVersion : UInt8 := 1

/-- `MAX_TOKEN_SIZE`, the largest body that is written. -/
def bodyLimit : Nat := 65536

/-- `own_begin_node_id`: the node at which the branch's own nodes start. -/
def ownStart (t : Token) : NodeId := Lineage.stop t.lineage

/-- `own_range`: the branch's own nodes. -/
def ownSpan (t : Token) : Span := ⟨t.branch, t.ownStart, nodeLimit⟩

/-- `ranges_for_read`: the stretches of nodes that make up the branch: what it inherited, then its
own. -/
def spans (t : Token) : List Span := t.lineage ++ [t.ownSpan]

/-- `forked_ancestors`: the lineage of a branch that is forked from this one at `node`. -/
def lineageAt (t : Token) (node : NodeId) : List Span := Lineage.upTo t.lineage t.branch node

/-! ## The written form -/

/-- A span: owner, start, stop. -/
def readSpan : Wire.Reader Span := do
  let owner ← Wire.readId
  let start ← Wire.readInt64
  let stop ← Wire.readInt64
  pure ⟨owner, start, stop⟩

def writeSpan (s : Span) : Bytes :=
  Wire.writeId s.owner ++ Wire.writeInt64 s.start ++ Wire.writeInt64 s.stop

def readBody : Wire.Reader Token := do
  let namespaceId ← Wire.readText
  let workflowId ← Wire.readText
  let runId ← Wire.readText
  let tree ← Wire.readId
  let branch ← Wire.readId
  let lineage ← Wire.readList readSpan
  let retention ← Retention.read
  pure ⟨namespaceId, workflowId, runId, tree, branch, lineage, retention⟩

/-- The fields in the order of the type. -/
def writeBody (t : Token) : Bytes :=
  Wire.writeText t.namespaceId ++ Wire.writeText t.workflowId ++ Wire.writeText t.runId
    ++ Wire.writeId t.tree ++ Wire.writeId t.branch
    ++ Wire.writeList writeSpan t.lineage ++ t.retention.write

/-- `BranchToken::encode`: the written form of a token whose body keeps within the limit. -/
def encode (t : Token) : Except Fault Bytes :=
  let body := t.writeBody
  if body.length ≤ bodyLimit then .ok (formatVersion :: body) else .error .oversized

/-- `BranchToken::decode`: the token that bytes write. -/
def decode : Bytes → Except Fault Token
  | [] => .error .empty
  | version :: body =>
    if version ≠ formatVersion then .error (.unsupportedVersion version)
    else match readBody.whole body with
      | .error fault => .error (.body fault)
      | .ok t =>
        match Lineage.check t.lineage with
        | .error fault => .error (.lineage fault)
        | .ok () => .ok t

end Token

end Chronicle
