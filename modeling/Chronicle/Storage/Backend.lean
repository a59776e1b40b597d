import Chronicle.Storage.Version

/-!
# Backends

A backend keeps two tables: branch rows under tree and branch, and versions under tree, branch, node
and transaction. It only stores rows and answers range queries; which versions are current, what is
shared between branches and who may write is none of its business. Every call is one round trip,
which may fail.
-/
namespace Chronicle

/-- `StoreError`: a backend's failure, in its own words. -/
inductive BackendError where
  | timeout (during : String)
  | unavailable (reason : String)
  | corrupt (reason : String)
  deriving DecidableEq, Repr

def BackendError.message : BackendError → String
  | .timeout during => s!"Backend timeout during {during}"
  | .unavailable reason => s!"Backend unavailable: {reason}"
  | .corrupt reason => s!"Backend corruption: {reason}"

/-- A moment of the calendar, in nanoseconds since 1970. -/
abbrev Timestamp := Int

/-- The row of a branch, `BranchRecord`: its token, a remark of whoever created it, and when that
was. -/
structure BranchRow where
  token : Token
  info : String
  created : Timestamp
  deriving DecidableEq, Repr

namespace BranchRow

def tree (row : BranchRow) : TreeId := row.token.tree
def branch (row : BranchRow) : BranchId := row.token.branch

end BranchRow

/-- `NodeQuery`: a question for the versions of one branch. -/
structure RangeQuery where
  /-- The first node wanted. -/
  min : NodeId
  /-- The first node no longer wanted. -/
  max : NodeId
  /-- Only what comes after this place in read order. -/
  after : Option Position
  /-- At most this many versions. -/
  limit : UInt64
  deriving DecidableEq, Repr

/-- One round trip to a backend in state `σ`. -/
abbrev Call (σ α : Type) := EStateM BackendError σ α

/-- What a backend in state `σ` can be asked. -/
class Backend (σ : Type) where
  /-- Stores a row under its tree and branch, in place of an earlier one. -/
  upsertBranch : BranchRow → Call σ Unit
  getBranch : TreeId → BranchId → Call σ (Option BranchRow)
  /-- All rows of a tree, by ascending branch. -/
  treeBranches : TreeId → Call σ (List BranchRow)
  /-- Removes a row and says whether there was one. -/
  deleteBranch : TreeId → BranchId → Call σ Bool
  /-- The first rows after a key, by ascending tree and branch. -/
  scanBranches : Option (TreeId × BranchId) → (limit : UInt64) → Call σ (List BranchRow)
  /-- Stores a version unless there is one with its node and transaction. -/
  insertVersion : TreeId → BranchId → Version → Call σ Insertion
  getVersion : TreeId → BranchId → NodeId → TransactionId → Call σ (Option Version)
  /-- The largest transaction stored on a node from `min` on and before `before`. -/
  maxTransaction : TreeId → BranchId → (min before : NodeId) → Call σ (Option TransactionId)
  /-- Versions in read order. -/
  readVersions : TreeId → BranchId → RangeQuery → Call σ (List Version)
  /-- Removes all versions of all nodes from `start` on and says how many there were. -/
  deleteFrom : TreeId → BranchId → (start : NodeId) → Call σ Nat
  /-- Removes one version and says whether there was one. -/
  deleteVersion : TreeId → BranchId → NodeId → TransactionId → Call σ Bool
  /-- Forgets a tree that holds neither rows nor versions and says whether it did. -/
  dropTreeIfEmpty : TreeId → Call σ Bool

end Chronicle
