import Chronicle.Config
import Chronicle.Event.Codec
import Chronicle.Storage.Backend

/-!
# Errors

Every failure that a caller sees, by kind and cause. The wording is in `Error.message`, and only
there; `Error.code` names the kind. Failures of the backend, of a codec and of the configuration
become errors through `ofBackend`, `ofCodec` and `ofConfig`.
-/
namespace Chronicle

/-- Why an operation does not fit what is stored. -/
inductive Conflict where
  /-- The writer has not seen the batch before `node`. -/
  | staleWriter (presented expected : TransactionId) (node : NodeId)
  /-- The version is stored with another blob. -/
  | otherBatch (node : NodeId) (transaction : TransactionId)
  /-- Branch `heir` inherits nodes of `branch` after `node`. -/
  | inherited (heir branch : BranchId) (node : NodeId)
  | other (reason : String)
  deriving DecidableEq, Repr

inductive Missing where
  | branch (branch : BranchId) (tree : TreeId)
  | events (min max : EventId) (branch : BranchId)
  | other (what : String)
  deriving DecidableEq, Repr

/-- What is wrong with the stored history. -/
inductive Damage where
  /-- Node `node` was read after node `last`. -/
  | notAdvancing (node : NodeId) (branch : BranchId) (last : NodeId)
  | notABatch (node : NodeId) (fault : Batch.Fault)
  | misplacedBatch (node : NodeId) (first : EventId)
  | gap (expected first : EventId)
  | other (reason : String)
  deriving DecidableEq, Repr

/-- Which bytes could not be read or written. -/
inductive Malformed where
  | token (fault : Token.Fault)
  | batch (error : CodecError)
  | other (reason : String)
  deriving DecidableEq, Repr

/-- What is wrong with a request. -/
inductive Misuse where
  | notABatch (fault : Batch.Fault)
  | emptyBlob
  | nodeBelowFirst (node : NodeId)
  | nodeAtLimit (node : NodeId)
  | transactionNotPositive (transaction : TransactionId)
  | transactionNotLater (transaction previous : TransactionId)
  | inheritedNode (node ownStart : NodeId)
  | window (min max : EventId)
  | pageToken (fault : Wire.Fault)
  | pageTokenMismatch
  | forkAtFirst (node : NodeId)
  | forkInvisible (node : NodeId) (branch : BranchId)
  | forkTooDeep (depth : Nat) (limit : UInt64)
  | watermarkOutside (node ownStart : NodeId)
  | watermarkMissing (node : NodeId) (transaction : TransactionId) (branch : BranchId)
  | leaseNotLater (lease : LeaseId) (shard : ShardId) (current : LeaseId)
  | config (error : ConfigError)
  | other (reason : String)
  deriving DecidableEq, Repr

/-- `HistoryError`: a failed operation. -/
inductive Error where
  /-- The caller's lease is not the current one of the shard. -/
  | ownershipLost (shard : ShardId) (presented : LeaseId) (current : Option LeaseId)
  | conflict (cause : Conflict)
  | notFound (what : Missing)
  | timeout (operation : String)
  | transactionSize (size : Nat) (limit : UInt64)
  | dataLoss (cause : Damage)
  | deserialization (cause : Malformed)
  | invalidArgument (cause : Misuse)
  | unavailable (reason : String)
  /-- A sum left the range of its type. This is no error that the operation answers: the program
  stops there. -/
  | overflow
  deriving DecidableEq, Repr

/-! ## Wording -/

def Conflict.message : Conflict → String
  | .staleWriter presented expected node =>
    s!"prev transaction id {presented} does not match {expected} preceding node {node}"
  | .otherBatch node transaction =>
    s!"node {node} already has a different batch at transaction {transaction}"
  | .inherited heir branch node =>
    s!"branch {heir} inherits nodes of branch {branch} beyond node {node}"
  | .other reason => reason

def Missing.message : Missing → String
  | .branch b t => s!"branch {b} of tree {t}"
  | .events min max b => s!"events [{min}, {max}) on branch {b}"
  | .other what => what

def Damage.message : Damage → String
  | .notAdvancing node branch last =>
    s!"node {node} on branch {branch} does not advance past node {last}"
  | .notABatch node fault => s!"node {node}: {fault.message}"
  | .misplacedBatch node first => s!"node {node} holds a batch starting at event {first}"
  | .gap expected first => s!"expected event {expected}, found batch starting at {first}"
  | .other reason => reason

def Malformed.message : Malformed → String
  | .token fault => fault.message
  | .batch error => error.message
  | .other reason => reason

def Misuse.message : Misuse → String
  | .notABatch fault => fault.message
  | .emptyBlob => "empty raw blob"
  | .nodeBelowFirst node => s!"node id {node} below {firstEvent}"
  | .nodeAtLimit node => s!"node id {node} must be below {nodeLimit}"
  | .transactionNotPositive transaction => s!"transaction id {transaction} must be positive"
  | .transactionNotLater transaction previous =>
    s!"transaction id {transaction} does not exceed previous {previous}"
  | .inheritedNode node ownStart =>
    s!"node {node} lies in an ancestor range; own range starts at {ownStart}"
  | .window min max => s!"invalid event window [{min}, {max})"
  | .pageToken fault => s!"malformed page token: {fault.message}"
  | .pageTokenMismatch => "page token does not match the requested window"
  | .forkAtFirst node => s!"fork node {node} must be greater than {firstEvent}"
  | .forkInvisible node branch => s!"no batch visible at node {node} on branch {branch}"
  | .forkTooDeep depth limit => s!"fork would create {depth} ancestor ranges, limit is {limit}"
  | .watermarkOutside node ownStart =>
    s!"watermark node {node} lies outside own range [{ownStart}, {nodeLimit})"
  | .watermarkMissing node transaction branch =>
    s!"watermark ({node}, {transaction}) not found on branch {branch}"
  | .leaseNotLater lease shard current =>
    s!"lease {lease} for shard {shard} does not advance past {current}"
  | .config error => error.message
  | .other reason => reason

namespace Error

/-- A lease as the message of a lost ownership shows it. -/
def leaseText : Option LeaseId → String
  | none => "None"
  | some lease => s!"Some({lease})"

def message : Error → String
  | .ownershipLost shard presented current =>
    let lost := s!"Shard {shard} ownership lost: request range id {presented}"
    s!"{lost}, current {leaseText current}"
  | .conflict cause => s!"Conflict: {cause.message}"
  | .notFound what => s!"Not found: {what.message}"
  | .timeout operation => s!"Operation {operation} timed out"
  | .transactionSize size limit => s!"Transaction size {size} exceeds limit {limit}"
  | .dataLoss cause => s!"Data loss: {cause.message}"
  | .deserialization cause => s!"Deserialization error: {cause.message}"
  | .invalidArgument cause => s!"Invalid argument: {cause.message}"
  | .unavailable reason => s!"Unavailable: {reason}"
  | .overflow => "attempt to add with overflow"

/-- `error_code`: the name of the kind. -/
def code : Error → String
  | .ownershipLost .. => "ShardOwnershipLost"
  | .conflict _ => "Conflict"
  | .notFound _ => "NotFound"
  | .timeout _ => "Timeout"
  | .transactionSize .. => "TransactionSizeLimit"
  | .dataLoss _ => "DataLoss"
  | .deserialization _ => "Deserialization"
  | .invalidArgument _ => "InvalidArgument"
  | .unavailable _ => "Unavailable"
  | .overflow => "Overflow"

/-- `is_retryable`: whether trying again may help. -/
def isRetryable : Error → Bool
  | .timeout _ | .unavailable _ => true
  | _ => false

/-- `is_conflict`: whether the request does not fit what is stored. -/
def isConflict : Error → Bool
  | .conflict _ => true
  | _ => false

/-- `is_corruption`: whether bytes or stored rows are damaged. -/
def isCorruption : Error → Bool
  | .dataLoss _ | .deserialization _ => true
  | _ => false

/-- A backend's failure, classified. -/
def ofBackend : BackendError → Error
  | .timeout _ => .timeout "storage"
  | .unavailable reason => .unavailable reason
  | .corrupt reason => .dataLoss (.other reason)

def ofCodec (error : CodecError) : Error := .deserialization (.batch error)

def ofToken (fault : Token.Fault) : Error := .deserialization (.token fault)

def ofConfig (error : ConfigError) : Error := .invalidArgument (.config error)

end Error

end Chronicle
