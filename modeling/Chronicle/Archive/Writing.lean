import Chronicle.Archive.Basic

/-!
# Appending to a branch

An append stores one version and never changes another. The writer says after which transaction it
writes, and is refused unless that is the transaction of the batch that a read shows last before the
node. This is the largest transaction below the node on all spans of the branch: where the history
was written anew, the versions from before carry smaller transactions.

Appending a version that is stored already is a repetition and succeeds, if the blob is the same.
-/
namespace Chronicle

structure WriteRequest where
  shard : ShardId
  lease : LeaseId
  token : Bytes
  transaction : TransactionId
  /-- The transaction after which the writer writes. -/
  previous : TransactionId
  /-- Whether the branch may be created. -/
  isNewBranch : Bool
  /-- The remark for the row of a new branch. -/
  info : String
  deriving DecidableEq, Repr

structure Receipt where
  /-- The number of bytes of the blob. -/
  size : Nat
  node : NodeId
  deriving DecidableEq, Repr

namespace Archive

variable {σ : Type} [Backend σ]

/-- What is already stored under the node and transaction of an append: the same blob makes it a
repetition. -/
def repetition (existing : Version) (blob : Bytes) : Action σ Receipt := do
  if existing.blob = blob then
    return ⟨blob.length, existing.node⟩
  else
    Action.count (·.countConflict)
    throw (.conflict (.otherBatch existing.node existing.transaction))

def later (x y : TransactionId) : TransactionId := if x < y then y else x

/-- The largest transaction below `node` on the given spans, and `largest` if that is larger. -/
def precedingIn (d : Deadline) (tree : TreeId) (node : NodeId) (largest : TransactionId) :
    List Span → Action σ TransactionId
  | [] => pure largest
  | s :: rest => do
    let before := if node < s.stop then node else s.stop
    if s.start < before then
      let x ← Action.ask d (Backend.maxTransaction tree s.owner s.start before)
      precedingIn d tree node (x.elim largest (later largest)) rest
    else
      precedingIn d tree node largest rest

/-- `preceding_transaction_id`: the transaction of the batch before `node`. -/
def preceding (d : Deadline) (t : Token) (node : NodeId) : Action σ TransactionId :=
  precedingIn d t.tree node noTransaction t.spans

/-- Checks what can be said of a version without looking at the store. -/
def checkVersion (limit : UInt64) (v : Version) : Except Error Unit :=
  if nodeLimit ≤ v.node then .error (.invalidArgument (.nodeAtLimit v.node))
  else if v.transaction ≤ noTransaction then
    .error (.invalidArgument (.transactionNotPositive v.transaction))
  else if v.transaction ≤ v.previous then
    .error (.invalidArgument (.transactionNotLater v.transaction v.previous))
  else if limit.toNat < v.blob.length then .error (.transactionSize v.blob.length limit)
  else .ok ()

/-- `append_node`: stores a version of the branch that a token names. -/
def store (a : Archive) (d : Deadline) (req : WriteRequest) (requested : Token) (v : Version) :
    Action σ Receipt := do
  Action.lift (checkVersion a.config.transactionSizeLimit v)
  lock requested.branch
  let row ← Action.ask d (Backend.getBranch requested.tree requested.branch)
  let token ← match row with
    | some row => pure row.token
    | none =>
      if req.isNewBranch then pure requested
      else throw (.notFound (.branch requested.branch requested.tree))
  if v.node < token.ownStart then
    throw (.invalidArgument (.inheritedNode v.node token.ownStart))
  let tree := requested.tree
  let branch := requested.branch
  match ← Action.ask d (Backend.getVersion tree branch v.node v.transaction) with
  | some existing => repetition existing v.blob
  | none =>
    let expected ← preceding d token v.node
    if v.previous ≠ expected then
      Action.count (·.countConflict)
      throw (.conflict (.staleWriter v.previous expected v.node))
    if row.isNone then
      createRow d token req.info
    match ← Action.ask d (Backend.insertVersion tree branch v) with
    | .duplicate existing => repetition existing v.blob
    | .inserted =>
      Action.count (·.countAppend v.blob.length)
      return ⟨v.blob.length, v.node⟩

/-- `append_history_nodes`: appends a batch of events. It is stored at the node of its first event.
-/
def append (a : Archive) (req : WriteRequest) (events : List Event) : Action σ Receipt := do
  let d := a.deadline "append_history_nodes"
  checkLease req.shard req.lease
  match Batch.check events with
  | .error fault => throw (.invalidArgument (.notABatch fault))
  | .ok first =>
    let token ← Action.lift (decodeToken req.token)
    let blob ← Action.lift ((a.codec.encode events).mapError .ofCodec)
    a.store d req token ⟨first.id, req.transaction, req.previous, blob⟩

/-- `append_raw_history_nodes`: appends a blob that was encoded elsewhere. It is stored as it is. -/
def appendRaw (a : Archive) (req : WriteRequest) (node : NodeId) (blob : Bytes) :
    Action σ Receipt := do
  let d := a.deadline "append_raw_history_nodes"
  checkLease req.shard req.lease
  if blob.isEmpty then throw (.invalidArgument .emptyBlob)
  if node < firstEvent then throw (.invalidArgument (.nodeBelowFirst node))
  let token ← Action.lift (decodeToken req.token)
  a.store d req token ⟨node, req.transaction, req.previous, blob⟩

end Archive

end Chronicle
