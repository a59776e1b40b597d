import Chronicle.Archive.Selection

/-!
# Reading a branch

A read asks for the batches of a window of events, a page at a time: as stored blobs, as batches, as
events in ascending order, or as events in descending order. Each page brings the token with which
the next one is asked for; the empty token asks for the first page and, in an answer, says that
there are no more.

Decoded reads refuse a history with a gap: each batch has to start where the one before it ended,
and the first one where the window starts.
-/
namespace Chronicle

/-- A request for a page of the events from `min` on and before `max`. -/
structure ReadRequest where
  token : Bytes
  min : EventId
  max : EventId
  /-- At most this many batches; 0 asks for the default. -/
  pageSize : UInt64
  page : Bytes
  deriving DecidableEq, Repr

structure Page (α : Type) where
  items : List α
  /-- Asks for the next page; empty if there is none. -/
  next : Bytes
  /-- The number of bytes of the blobs on the page. -/
  size : Nat
  deriving DecidableEq, Repr

/-- A decoded batch. -/
structure Batch where
  node : NodeId
  transaction : TransactionId
  events : List Event
  /-- The number of bytes of its blob. -/
  size : Nat
  deriving DecidableEq, Repr

namespace Batch

/-- Decodes a version whose batch has to continue after event `last`. One step of the loop of
`decode_batches`. -/
def decode (codec : Codec) (last : EventId) (v : Version) : Except Error Batch :=
  match codec.decode v.blob with
  | .error e => .error (.ofCodec e)
  | .ok events =>
    match check events with
    | .error fault => .error (.dataLoss (.notABatch v.node fault))
    | .ok first =>
      if first.id ≠ v.node then .error (.dataLoss (.misplacedBatch v.node first.id))
      else if last = Int64.maxValue then .error .overflow
      else if first.id ≠ last + 1 then .error (.dataLoss (.gap (last + 1) first.id))
      else .ok ⟨v.node, v.transaction, events, v.blob.length⟩

/-- The last event of a batch that continues after event `last`. -/
def lastEvent (b : Batch) (last : EventId) : EventId := (b.events.getLast?.map (·.id)).getD last

/-- Decodes versions, each of which has to continue the one before it, and says where the last one
ends. -/
def decodeAll (codec : Codec) (last : EventId) :
    List Version → Except Error (List Batch × EventId)
  | [] => .ok ([], last)
  | v :: rest => do
    let b ← decode codec last v
    let (bs, last) ← decodeAll codec (b.lastEvent last) rest
    return (b :: bs, last)

def totalSize (bs : List Batch) : Nat := bs.foldr (·.size + ·) 0

end Batch

namespace Archive

variable {σ : Type} [Backend σ]

/-- `plan_read`: checks the window of a request and finds what to go through. -/
def plan (d : Deadline) (req : ReadRequest) : Action σ Plan := do
  if req.min < firstEvent ∨ req.max ≤ req.min then
    throw (.invalidArgument (.window req.min req.max))
  let requested ← Action.lift (decodeToken req.token)
  let row ← requireRow d requested
  return .window row.token req.min req.max

def noEvents (req : ReadRequest) (plan : Plan) : Error :=
  .notFound (.events req.min req.max plan.branch)

/-- Selects the versions of the page that is asked for. -/
def selectPage (a : Archive) (d : Deadline) (req : ReadRequest) : Action σ Selection := do
  let plan ← plan d req
  let cursor ← Action.lift (Cursor.resume req.page req.min plan.spans.length)
  let selection ← Selection.page d plan cursor (a.config.effectivePageSize req.pageSize)
  if req.page.isEmpty && selection.versions.isEmpty then throw (noEvents req plan)
  return selection

/-- `next_token`: the token of the page that resumes at a cursor. -/
def nextPage (exhausted : Bool) (cursor : Cursor) : Bytes := if exhausted then [] else cursor.write

/-- `read_raw_history_branch`: reads a page of stored blobs. -/
def readRaw (a : Archive) (req : ReadRequest) : Action σ (Page Version) := do
  let selection ← selectPage a (a.deadline "read_raw_history_branch") req
  let versions := selection.versions
  Action.count (·.countRead versions.length)
  return ⟨versions, nextPage selection.exhausted selection.cursor,
    versions.foldr (·.blob.length + ·) 0⟩

/-- `read_by_batch`: reads a page of batches, as the operation that has the given name. -/
def readBatchesAs (a : Archive) (operation : String) (req : ReadRequest) :
    Action σ (Page Batch) := do
  let selection ← selectPage a (a.deadline operation) req
  let (batches, last) ←
    Action.lift (Batch.decodeAll a.codec selection.cursor.event selection.versions)
  let cursor := { selection.cursor with event := last }
  Action.count (·.countRead batches.length)
  return ⟨batches, nextPage selection.exhausted cursor, Batch.totalSize batches⟩

/-- `read_history_branch_by_batch`. -/
def readBatches (a : Archive) (req : ReadRequest) : Action σ (Page Batch) :=
  a.readBatchesAs "read_history_branch_by_batch" req

/-- `read_history_branch`: reads a page of events in ascending order. -/
def readEvents (a : Archive) (req : ReadRequest) : Action σ (Page Event) := do
  let page ← a.readBatchesAs "read_history_branch" req
  return ⟨page.items.flatMap (·.events), page.next, page.size⟩

/-! ## Backwards -/

/-- All batches of a window, from a cursor on. -/
def readWindow (a : Archive) (d : Deadline) (plan : Plan) :
    (fuel : Nat) → Cursor → Action σ (List Batch)
  | 0, _ => pure []
  | fuel + 1, cursor => do
    let selection ← Selection.page d plan cursor a.config.maxPageSize
    let (batches, last) ←
      Action.lift (Batch.decodeAll a.codec selection.cursor.event selection.versions)
    if selection.exhausted then return batches
    let rest ← readWindow a d plan fuel { selection.cursor with event := last }
    return batches ++ rest

/-- `ReverseCursor::resume`: the node below which a backward read resumes; the empty token stands
for the end. -/
def resumeBelow (page : Bytes) : Except Error NodeId :=
  if page.isEmpty then .ok nodeLimit
  else match Wire.readInt64.first page with
    | .error fault => .error (.invalidArgument (.pageToken fault))
    | .ok node => .ok node

/-- Reads a page of events in descending order. The whole window is decoded forward first, so a
backward read never disagrees with a forward one. -/
def readBackward (a : Archive) (req : ReadRequest) : Action σ (Page Event) := do
  let d := a.deadline "read_history_branch_reverse"
  let plan ← plan d req
  let below ← Action.lift (resumeBelow req.page)
  let window ← a.readWindow d plan Selection.pages (.start req.min)
  let left := window.reverse.filter (·.node < below)
  let pageSize := (a.config.effectivePageSize req.pageSize).toNat
  let batches := left.take pageSize
  if req.page.isEmpty && batches.isEmpty then throw (noEvents req plan)
  let last := (batches.getLast?.map (·.node)).getD below
  let next := if (left.drop pageSize).isEmpty then [] else Wire.writeInt64 last
  Action.count (·.countRead batches.length)
  return ⟨batches.flatMap (·.events.reverse), next, Batch.totalSize batches⟩

end Archive

end Chronicle
