import Chronicle.Archive.Basic

/-!
# Listing branches

The branches of one tree at once, or those of all trees a page at a time, in the order of tree and
branch. The token of a page is the key of the last row before it, so rows that come and go between
two pages neither repeat nor hide others.
-/
namespace Chronicle

structure BranchEntry where
  tree : TreeId
  branch : BranchId
  token : Bytes
  info : String
  created : Timestamp
  deriving DecidableEq, Repr

/-- A page of a listing. -/
structure Listing where
  entries : List BranchEntry
  /-- Asks for the next page; empty if there is none. -/
  next : Bytes
  deriving DecidableEq, Repr

namespace Listing

/-- The key after which a page starts: tree, then branch. -/
def readKey : Wire.Reader (TreeId × BranchId) := do
  let tree ← Wire.readId
  let branch ← Wire.readId
  pure (tree, branch)

def writeKey (key : TreeId × BranchId) : Bytes := Wire.writeId key.1 ++ Wire.writeId key.2

/-- `decode_scan_token`: the key of a page token; the empty token stands for the start. -/
def resume (page : Bytes) : Except Error (Option (TreeId × BranchId)) :=
  if page.isEmpty then .ok none
  else match readKey.first page with
    | .error fault => .error (.invalidArgument (.pageToken fault))
    | .ok key => .ok (some key)

/-- The token of the page after `rows`. A page that is not full is the last. -/
def nextPage (rows : List BranchRow) (pageSize : UInt64) : Bytes :=
  match rows.getLast? with
  | some last => if rows.length = pageSize.toNat then writeKey (last.tree, last.branch) else []
  | none => []

end Listing

namespace Archive

variable {σ : Type} [Backend σ]

def entry (row : BranchRow) : Except Error BranchEntry := do
  return ⟨row.tree, row.branch, ← encodeToken row.token, row.info, row.created⟩

/-- `get_history_tree`: the tokens of the branches of a tree, by ascending branch. -/
def branches (a : Archive) (tree : TreeId) : Action σ (List Bytes) := do
  let rows ← Action.ask (a.deadline "get_history_tree") (Backend.treeBranches tree)
  Action.lift (rows.mapM fun row => encodeToken row.token)

/-- `get_all_history_tree_branches`: a page of the branches of all trees. -/
def scan (a : Archive) (pageSize : UInt64) (page : Bytes) : Action σ Listing := do
  let after ← Action.lift (Listing.resume page)
  let pageSize := a.config.effectivePageSize pageSize
  let rows ← Action.ask (a.deadline "get_all_history_tree_branches")
    (Backend.scanBranches after pageSize)
  let entries ← Action.lift (rows.mapM entry)
  return ⟨entries, Listing.nextPage rows pageSize⟩

end Archive

end Chronicle
