import Chronicle.Archive.Selection

/-!
# New branches

A branch starts out as a token; nothing is stored before its first append. Forking takes a batch
that a read of the branch shows: the new branch reads everything before that batch through its
lineage, and writes its own history from there on. A fork stores one row and copies no version.
-/
namespace Chronicle

structure ForkRequest where
  shard : ShardId
  lease : LeaseId
  namespaceId : String
  token : Bytes
  /-- The first node that is not inherited. -/
  node : NodeId
  info : String
  runId : String
  deriving DecidableEq, Repr

namespace Archive

variable {σ : Type}

/-- `new_history_branch`: the token of a new branch in a new tree. -/
def newBranch (a : Archive) (namespaceId workflowId runId : String) (retention : Retention) :
    Action σ Bytes := do
  let tree ← a.drawId
  let branch ← a.drawId
  Action.lift (encodeToken ⟨namespaceId, workflowId, runId, tree, branch, [], retention⟩)

/-- `fork_history_branch`: forks a branch and gives the token of the new one. -/
def fork [Backend σ] (a : Archive) (req : ForkRequest) : Action σ Bytes := do
  let d := a.deadline "fork_history_branch"
  checkLease req.shard req.lease
  if req.node ≤ firstEvent then throw (.invalidArgument (.forkAtFirst req.node))
  let requested ← Action.lift (decodeToken req.token)
  let source := (← requireRow d requested).token
  let visible ← a.lastVisible d source req.node.next
  if visible ≠ some req.node then
    throw (.invalidArgument (.forkInvisible req.node source.branch))
  let lineage := source.lineageAt req.node
  if a.config.maxAncestorDepth.toNat < lineage.length then
    throw (.invalidArgument (.forkTooDeep lineage.length a.config.maxAncestorDepth))
  let branch ← a.drawId
  let token : Token :=
    ⟨req.namespaceId, source.workflowId, req.runId, source.tree, branch, lineage, source.retention⟩
  let bytes ← Action.lift (encodeToken token)
  createRow d token req.info
  Action.count (·.countFork)
  return bytes

end Archive

end Chronicle
