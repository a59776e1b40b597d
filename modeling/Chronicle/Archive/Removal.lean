import Chronicle.Archive.Basic

/-!
# Trimming and deleting

Trimming rolls a branch back to one stored version, the watermark: nothing at a later node and no
other version of the watermark's node stays. It is refused while another branch inherits a later
node.

Deleting removes the row of a branch and every version that no row reaches any more. Which versions
are still reached follows from the rows of the tree alone: a row reaches the nodes of its branch
without bound, and the nodes of another branch up to the end of the span in its lineage. The spans
of the deleted branch are collected from its own back to the first; at the first owner that is still
reached the collection stops, since everything before it is reached through that owner.
-/
namespace Chronicle

structure DeleteRequest where
  shard : ShardId
  lease : LeaseId
  token : Bytes
  deriving DecidableEq, Repr

structure TrimRequest where
  shard : ShardId
  lease : LeaseId
  token : Bytes
  node : NodeId
  transaction : TransactionId
  deriving DecidableEq, Repr

/-- `referenced_ends`: the node up to which the nodes of branch `b` are reached from rows, if they
are at all. -/
def reachedUpTo (rows : List BranchRow) (b : BranchId) : Option NodeId :=
  (((rows.flatMap (·.token.spans)).filter (·.owner = b)).map (·.stop)).max?

/-- Whether a row inherits nodes of branch `b` after `node`. -/
def BranchRow.inheritsBeyond (row : BranchRow) (b : BranchId) (node : NodeId) : Bool :=
  row.token.lineage.any fun s => s.owner = b && node < s.stop

namespace Archive

variable {σ : Type} [Backend σ]

/-- Removes the given versions and counts those that were there. -/
def removeVersions (d : Deadline) (tree : TreeId) (branch : BranchId) :
    List Version → Action σ Nat
  | [] => pure 0
  | v :: rest => do
    let removed ← Action.ask d (Backend.deleteVersion tree branch v.node v.transaction)
    let others ← removeVersions d tree branch rest
    return (if removed then 1 else 0) + others

/-- `trim_history_branch`: trims a branch and gives the number of versions removed. -/
def trim (a : Archive) (req : TrimRequest) : Action σ Nat := do
  let d := a.deadline "trim_history_branch"
  checkLease req.shard req.lease
  let requested ← Action.lift (decodeToken req.token)
  let token := (← requireRow d requested).token
  let tree := token.tree
  let branch := token.branch
  if req.node < token.ownStart ∨ nodeLimit ≤ req.node then
    throw (.invalidArgument (.watermarkOutside req.node token.ownStart))
  lock branch
  let watermark ← Action.ask d (Backend.getVersion tree branch req.node req.transaction)
  if watermark.isNone then
    throw (.invalidArgument (.watermarkMissing req.node req.transaction branch))
  let rows ← Action.ask d (Backend.treeBranches tree)
  if let some heir := rows.find? (·.inheritsBeyond branch req.node) then
    throw (.conflict (.inherited heir.branch branch req.node))
  let later ← Action.ask d (Backend.deleteFrom tree branch (req.node + 1))
  let versions ← Action.ask d (Backend.readVersions tree branch
    ⟨req.node, req.node + 1, none, UInt64.ofNat (UInt64.size - 1)⟩)
  let others ← removeVersions d tree branch (versions.filter (·.transaction ≠ req.transaction))
  Action.count (·.countTrim (later + others))
  return later + others

/-- Collects the given spans, from the last of the branch on, and counts the versions removed. -/
def collect (d : Deadline) (tree : TreeId) (rows : List BranchRow) : List Span → Action σ Nat
  | [] => pure 0
  | s :: rest => do
    match reachedUpTo rows s.owner with
    | some stop =>
      if stop < nodeLimit then
        let start := if stop < s.start then s.start else stop
        Action.ask d (Backend.deleteFrom tree s.owner start)
      else
        Action.check d
        return 0
    | none =>
      let removed ← Action.ask d (Backend.deleteFrom tree s.owner s.start)
      let others ← collect d tree rows rest
      return removed + others

/-- Deletes a branch and gives the number of versions removed. Deleting a branch that has no row
collects what its token reaches. -/
def delete (a : Archive) (req : DeleteRequest) : Action σ Nat := do
  let d := a.deadline "delete_history_branch"
  checkLease req.shard req.lease
  let requested ← Action.lift (decodeToken req.token)
  let tree := requested.tree
  let branch := requested.branch
  lock branch
  let row ← Action.ask d (Backend.getBranch tree branch)
  let token := (row.map (·.token)).getD requested
  discard (Action.ask d (Backend.deleteBranch tree branch))
  let rows ← Action.ask d (Backend.treeBranches tree)
  let removed ← collect d tree rows token.spans.reverse
  discard (Action.ask d (Backend.dropTreeIfEmpty tree))
  unlock branch
  Action.count (·.countDelete removed)
  return removed

end Archive

end Chronicle
