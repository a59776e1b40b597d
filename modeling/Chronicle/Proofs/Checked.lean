import Chronicle.Proofs.Requests

/-!
# Reads with checked arithmetic

The numbers of a read have fixed widths, and a sum that does not fit is silently reduced. The reads
are written down here once more, with every sum formed as a whole number first and compared with the
range of its type: a sum that leaves the range ends the read in an `Overflow`. Additions that
saturate or that report that they overflow have no range to leave; the counters of the archive wrap
around by definition.

* `Quantity`: what a read computes by adding or subtracting, and the range that it has to keep to.
* `Checked`: an operation that may end in an overflow. `Checked.form` forms a quantity.
* `ReadForm.checked`: a read of any form, checked.
-/
namespace Chronicle

open Archive (State)

/-! ## Quantities -/

/-- What a read computes by adding or subtracting. -/
inductive Quantity where
  /-- The number of spans of a branch: its own, and those it inherits. -/
  | spanCount
  /-- The event before the window. -/
  | beforeWindow
  /-- The number of versions to fetch: one more than fit on a page. -/
  | fetchLimit
  /-- The span after one that is done with. -/
  | nextSpan
  /-- The event with which the next batch has to start. -/
  | nextEvent
  /-- The place of the last event of a batch. -/
  | lastPlace
  /-- The bytes of the blobs so far. -/
  | size
  /-- The batches of a backward read so far. -/
  | emitted
  deriving DecidableEq, Repr

namespace Quantity

def low : Quantity → Int
  | beforeWindow | nextEvent => Int64.minValue.toInt
  | spanCount | fetchLimit | nextSpan | lastPlace | size | emitted => 0

def bound : Quantity → Int
  | beforeWindow | nextEvent => Int64.maxValue.toInt + 1
  | nextSpan => UInt32.size
  | spanCount | fetchLimit | lastPlace | size | emitted => UInt64.size

/-- The value has a place in the type of the quantity. -/
def Fits (q : Quantity) (value : Int) : Prop := q.low ≤ value ∧ value < q.bound

instance (q : Quantity) (value : Int) : Decidable (q.Fits value) :=
  inferInstanceAs (Decidable (_ ∧ _))

end Quantity

structure Overflow where
  quantity : Quantity
  value : Int
  deriving DecidableEq, Repr

/-- An operation that may end in an overflow. -/
abbrev Checked (σ α : Type) := ExceptT Overflow (Action σ) α

namespace Checked

variable {σ α : Type}

/-- An operation that forms no quantity, or that guards the ones it forms. -/
def plain (act : Action σ α) : Checked σ α := ExceptT.lift act

/-- Forms a quantity. -/
def form (q : Quantity) (value : Int) : Checked σ Unit :=
  if q.Fits value then pure () else ExceptT.mk (pure (.error ⟨q, value⟩))

def formAll (q : Quantity) : List Int → Checked σ Unit
  | [] => pure ()
  | value :: rest => do
    form q value
    formAll q rest

/-- The totals that adding up leads to. -/
def totals (start : Nat) : List Nat → List Int
  | [] => []
  | n :: rest => ((start + n : Nat) : Int) :: totals (start + n) rest

/-- The overflow that the operation ends in, if it does. -/
def overflow? (x : Checked σ α) (s : State σ) : Option Overflow :=
  match x.run s with
  | .ok (.error o) _ => some o
  | .ok (.ok _) _ => none
  | .error _ _ => none

/-! ## Selecting -/

variable [Backend σ]

/-- `Selection.walk`, checked. -/
def walk (d : Deadline) (plan : Plan) (pageSize : UInt64) :
    List Span → (taken : List Version) → Cursor → Checked σ Selection
  | [], taken, cursor => pure ⟨taken, cursor, true⟩
  | s :: rest, taken, cursor => do
    let start := if s.start < cursor.node.next then cursor.node.next else s.start
    let progress ← plain
      (Selection.sweep d plan s start pageSize Selection.positions none taken cursor)
    if progress.full then
      pure ⟨progress.taken, progress.cursor, false⟩
    else do
      form .nextSpan (progress.cursor.span.toNat + 1)
      walk d plan pageSize rest progress.taken progress.cursor.nextSpan

def page (d : Deadline) (plan : Plan) (cursor : Cursor) (pageSize : UInt64) :
    Checked σ Selection := do
  form .fetchLimit (pageSize.toNat + 1)
  walk d plan pageSize (plan.spans.drop cursor.span.toNat) [] cursor

def plan (d : Deadline) (req : ReadRequest) : Checked σ Plan := do
  if req.min < firstEvent ∨ req.max ≤ req.min then
    plain (throw (.invalidArgument (.window req.min req.max)))
  let requested ← plain (Action.lift (Archive.decodeToken req.token))
  let row ← plain (Archive.requireRow d requested)
  form .spanCount (row.token.lineage.length + 1)
  return .window row.token req.min req.max

def resume (page : Bytes) (min : EventId) (spans : Nat) : Checked σ Cursor := do
  if page.isEmpty then form .beforeWindow (min.toInt - 1)
  plain (Action.lift (Cursor.resume page min spans))

def selectPage (a : Archive) (d : Deadline) (req : ReadRequest) : Checked σ Selection := do
  let plan ← plan d req
  let cursor ← resume req.page req.min plan.spans.length
  let selection ← page d plan cursor (a.config.effectivePageSize req.pageSize)
  if req.page.isEmpty && selection.versions.isEmpty then
    plain (throw (Archive.noEvents req plan))
  return selection

/-! ## Decoding -/

/-- `Batch.decode`, checked: the event after the last one is looked at last. -/
def decode (codec : Codec) (last : EventId) (v : Version) : Checked σ Batch := do
  match codec.decode v.blob with
  | .error _ => pure ()
  | .ok events =>
    match Batch.check events with
    | .error _ => pure ()
    | .ok first => if first.id = v.node then form .nextEvent (last.toInt + 1)
  plain (Action.lift (Batch.decode codec last v))

def decodeAll (codec : Codec) (last : EventId) :
    List Version → Checked σ (List Batch × EventId)
  | [] => pure ([], last)
  | v :: rest => do
    let b ← decode codec last v
    form .lastPlace (b.events.length - 1)
    let (bs, last) ← decodeAll codec (b.lastEvent last) rest
    return (b :: bs, last)

/-! ## Reads -/

def readRaw (a : Archive) (req : ReadRequest) : Checked σ (Page Version) := do
  let selection ← selectPage a (a.deadline "read_raw_history_branch") req
  let versions := selection.versions
  formAll .size (totals 0 (versions.map (·.blob.length)))
  plain (Action.count (·.countRead versions.length))
  return ⟨versions, Archive.nextPage selection.exhausted selection.cursor,
    versions.foldr (·.blob.length + ·) 0⟩

def readBatchesAs (a : Archive) (operation : String) (req : ReadRequest) :
    Checked σ (Page Batch) := do
  let selection ← selectPage a (a.deadline operation) req
  let (batches, last) ← decodeAll a.codec selection.cursor.event selection.versions
  let cursor := { selection.cursor with event := last }
  plain (Action.count (·.countRead batches.length))
  formAll .size (totals 0 (batches.map (·.size)))
  return ⟨batches, Archive.nextPage selection.exhausted cursor, Batch.totalSize batches⟩

def readEvents (a : Archive) (req : ReadRequest) : Checked σ (Page Event) := do
  let page ← readBatchesAs a "read_history_branch" req
  return ⟨page.items.flatMap (·.events), page.next, page.size⟩

def readWindow (a : Archive) (d : Deadline) (plan : Plan) :
    (fuel : Nat) → Cursor → Checked σ (List Batch)
  | 0, _ => pure []
  | fuel + 1, cursor => do
    let selection ← page d plan cursor a.config.maxPageSize
    let (batches, last) ← decodeAll a.codec selection.cursor.event selection.versions
    if selection.exhausted then return batches
    let rest ← readWindow a d plan fuel { selection.cursor with event := last }
    return batches ++ rest

def readBackward (a : Archive) (req : ReadRequest) : Checked σ (Page Event) := do
  let d := a.deadline "read_history_branch_reverse"
  let plan ← plan d req
  let below ← plain (Action.lift (Archive.resumeBelow req.page))
  form .beforeWindow (req.min.toInt - 1)
  let window ← readWindow a d plan Selection.pages (.start req.min)
  let left := window.reverse.filter (·.node < below)
  let pageSize := (a.config.effectivePageSize req.pageSize).toNat
  let batches := left.take pageSize
  formAll .size (totals 0 (batches.map (·.size)))
  formAll .emitted (totals 0 (batches.map fun _ => 1))
  if req.page.isEmpty && batches.isEmpty then plain (throw (Archive.noEvents req plan))
  let last := (batches.getLast?.map (·.node)).getD below
  let next := if (left.drop pageSize).isEmpty then [] else Wire.writeInt64 last
  plain (Action.count (·.countRead batches.length))
  return ⟨batches.flatMap (·.events.reverse), next, Batch.totalSize batches⟩

end Checked

/-- In what form a read answers. -/
inductive ReadForm where
  | raw
  | batches
  | events
  | backward
  deriving DecidableEq, Repr

namespace ReadForm

def request (req : ReadRequest) : ReadForm → Request
  | raw => .readRaw req
  | batches => .readBatches req
  | events => .readEvents req
  | backward => .readBackward req

def fetchSize (a : Archive) (req : ReadRequest) : ReadForm → UInt64
  | raw | batches | events => a.config.effectivePageSize req.pageSize
  | backward => a.config.maxPageSize

def checked {σ : Type} [Backend σ] (a : Archive) (req : ReadRequest) : ReadForm → Checked σ Reply
  | raw => .blobs <$> Checked.readRaw a req
  | batches => .batches <$> Checked.readBatchesAs a "read_history_branch_by_batch" req
  | events => .events <$> Checked.readEvents a req
  | backward => .events <$> Checked.readBackward a req

end ReadForm

end Chronicle
