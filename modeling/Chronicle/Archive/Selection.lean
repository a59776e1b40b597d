import Chronicle.Archive.Basic

/-!
# Which versions are read

A branch is read as the versions of its spans, in read order. Two things hide a version: a version
of its node with a larger transaction, and a version of an earlier node with a larger transaction,
which means that the history was written anew from there. So one pass suffices that remembers the
last version it took: what carries a smaller transaction than that one is skipped, and what is taken
has to be at a later node.

The pass is cut into pages. A cursor says where the next page resumes: in which span, and after
which version.
-/
namespace Chronicle

/-- `ReadCursor`: where a forward read resumes. -/
structure Cursor where
  /-- The number of spans that are done with. -/
  span : UInt32
  /-- The node that was taken last, 0 before the first one. -/
  node : NodeId
  /-- The transaction that was taken last. -/
  transaction : TransactionId
  /-- The last event of the batch that was taken last. -/
  event : EventId
  deriving DecidableEq, Repr

namespace Cursor

/-- `ReadCursor::start`: before the first page of a window that starts at event `min`. -/
def start (min : EventId) : Cursor := ⟨0, 0, noTransaction, min - 1⟩

def take (c : Cursor) (v : Version) : Cursor :=
  { c with node := v.node, transaction := v.transaction }

def nextSpan (c : Cursor) : Cursor := { c with span := c.span + 1 }

/-- The fields in the order of the type. -/
def read : Wire.Reader Cursor := do
  let span ← Wire.readUInt32
  let node ← Wire.readInt64
  let transaction ← Wire.readInt64
  let event ← Wire.readInt64
  pure ⟨span, node, transaction, event⟩

def write (c : Cursor) : Bytes :=
  Wire.writeUInt32 c.span ++ Wire.writeInt64 c.node ++ Wire.writeInt64 c.transaction
    ++ Wire.writeInt64 c.event

/-- The cursor of a page token; the empty token stands for the start. A cursor has to point at one
of the `spans` spans, or behind the last. -/
def resume (page : Bytes) (min : EventId) (spans : Nat) : Except Error Cursor :=
  if page.isEmpty then .ok (start min)
  else match read.first page with
    | .error fault => .error (.invalidArgument (.pageToken fault))
    | .ok c =>
      if spans < c.span.toNat then .error (.invalidArgument .pageTokenMismatch) else .ok c

end Cursor

/-- `ReadPlan`: what a read goes through. -/
structure Plan where
  tree : TreeId
  branch : BranchId
  spans : List Span
  deriving DecidableEq, Repr

/-- The spans of a branch inside a window. -/
def Plan.window (t : Token) (min max : NodeId) : Plan :=
  ⟨t.tree, t.branch, t.spans.filterMap (·.clip min max)⟩

/-- `SelectedPage`: a page of versions, and where the next one resumes. -/
structure Selection where
  versions : List Version
  cursor : Cursor
  /-- Whether the pass has come to its end. -/
  exhausted : Bool
  deriving DecidableEq, Repr

namespace Selection

/-- A page in the making: what was taken, and whether the page is full. -/
structure Progress where
  taken : List Version
  cursor : Cursor
  full : Bool
  deriving DecidableEq, Repr

/-- Goes through versions of branch `owner` in read order until the page is full. The inner loop of
`select_nodes`. -/
def sift (owner : BranchId) (pageSize : Nat) (taken : List Version) (cursor : Cursor) :
    List Version → Except Error Progress
  | [] => .ok ⟨taken, cursor, false⟩
  | v :: rest =>
    if v.transaction < cursor.transaction then sift owner pageSize taken cursor rest
    else if v.node ≤ cursor.node then
      .error (.dataLoss (.notAdvancing v.node owner cursor.node))
    else
      let taken := taken ++ [v]
      if taken.length = pageSize then .ok ⟨taken, cursor.take v, true⟩
      else sift owner pageSize taken (cursor.take v) rest

/-- How many versions are fetched at a time: one more than fit on the page, so that a smaller answer
shows that the span has no more. -/
def fetchLimit (pageSize : UInt64) : UInt64 := pageSize + 1

/-- The number of positions in read order. Fetching one answer after the other from a span moves
strictly forward, so this many fetches always suffice. -/
def positions : Nat := UInt64.size * UInt64.size

/-- The number of nodes. Every page but the last moves to a later node, so this many pages always
suffice. -/
def pages : Nat := UInt64.size

variable {σ : Type} [Backend σ]

/-- Goes through one span from node `start` on, fetching at most `fuel` times. -/
def sweep (d : Deadline) (plan : Plan) (s : Span) (start : NodeId) (pageSize : UInt64) :
    (fuel : Nat) → (after : Option Position) → (taken : List Version) → Cursor → Action σ Progress
  | 0, _, taken, cursor => pure ⟨taken, cursor, false⟩
  | fuel + 1, after, taken, cursor => do
    let limit := fetchLimit pageSize
    let rows ← Action.ask d (Backend.readVersions plan.tree s.owner ⟨start, s.stop, after, limit⟩)
    let progress ← Action.lift (sift s.owner pageSize.toNat taken cursor rows)
    if progress.full || rows.isEmpty || rows.length < limit.toNat then
      pure progress
    else
      let after := (rows.getLast?.map (·.position)).or after
      sweep d plan s start pageSize fuel after progress.taken progress.cursor

/-- Goes through spans one after the other until the page is full. -/
def walk (d : Deadline) (plan : Plan) (pageSize : UInt64) :
    List Span → (taken : List Version) → Cursor → Action σ Selection
  | [], taken, cursor => pure ⟨taken, cursor, true⟩
  | s :: rest, taken, cursor => do
    let start := if s.start < cursor.node.next then cursor.node.next else s.start
    let progress ← sweep d plan s start pageSize positions none taken cursor
    if progress.full then
      pure ⟨progress.taken, progress.cursor, false⟩
    else
      walk d plan pageSize rest progress.taken progress.cursor.nextSpan

/-- `select_nodes`: the next page from a cursor on. One more than the page size has to be a number.
-/
def page (d : Deadline) (plan : Plan) (cursor : Cursor) (pageSize : UInt64) :
    Action σ Selection := do
  if UInt64.size ≤ pageSize.toNat + 1 then throw .overflow
  walk d plan pageSize (plan.spans.drop cursor.span.toNat) [] cursor

theorem page_of_lt {d : Deadline} {plan : Plan} {cursor : Cursor} {pageSize : UInt64}
    (h : pageSize.toNat + 1 < UInt64.size) :
    (page d plan cursor pageSize : Action σ Selection) =
      walk d plan pageSize (plan.spans.drop cursor.span.toNat) [] cursor :=
  if_neg (Nat.not_le.2 h)

theorem page_of_le {d : Deadline} {plan : Plan} {cursor : Cursor} {pageSize : UInt64}
    (h : UInt64.size ≤ pageSize.toNat + 1) :
    (page d plan cursor pageSize : Action σ Selection) = throw .overflow :=
  if_pos h

/-- The cursor behind the last page. -/
def exhaust (d : Deadline) (plan : Plan) (pageSize : UInt64) :
    (fuel : Nat) → Cursor → Action σ Cursor
  | 0, cursor => pure cursor
  | fuel + 1, cursor => do
    let selection ← page d plan cursor pageSize
    if selection.exhausted then pure selection.cursor
    else exhaust d plan pageSize fuel selection.cursor

end Selection

namespace Archive

/-- `last_visible_node`: the last node below `before` that a read of the branch shows. -/
def lastVisible {σ : Type} [Backend σ] (a : Archive) (d : Deadline) (t : Token) (before : NodeId) :
    Action σ (Option NodeId) := do
  let plan := Plan.window t firstEvent before
  let cursor ← Selection.exhaust d plan a.config.maxPageSize Selection.pages (.start firstEvent)
  return if firstEvent ≤ cursor.node then some cursor.node else none

end Archive

end Chronicle
