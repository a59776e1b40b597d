/-!
# Counters

What an archive has done since it was opened, in 64-bit counters.
-/
namespace Chronicle

/-- `HistoryMetrics`: counts of finished operations. -/
structure Counters where
  /-- Appends that stored a version. -/
  appends : UInt64
  /-- Bytes that those appends stored. -/
  bytesAppended : UInt64
  /-- Appends refused because of what was stored before. -/
  conflicts : UInt64
  /-- Calls refused because of their lease. -/
  fencingRejections : UInt64
  /-- Pages read. -/
  reads : UInt64
  /-- Batches on those pages. -/
  batchesRead : UInt64
  forks : UInt64
  trims : UInt64
  /-- Versions that trims removed. -/
  nodesTrimmed : UInt64
  deletes : UInt64
  /-- Versions that deletes removed. -/
  nodesDeleted : UInt64
  deriving DecidableEq, Repr

namespace Counters

def zero : Counters := ⟨0, 0, 0, 0, 0, 0, 0, 0, 0, 0, 0⟩

def countAppend (c : Counters) (bytes : Nat) : Counters :=
  { c with appends := c.appends + 1, bytesAppended := c.bytesAppended + UInt64.ofNat bytes }

def countConflict (c : Counters) : Counters := { c with conflicts := c.conflicts + 1 }

def countRejection (c : Counters) : Counters :=
  { c with fencingRejections := c.fencingRejections + 1 }

def countRead (c : Counters) (batches : Nat) : Counters :=
  { c with reads := c.reads + 1, batchesRead := c.batchesRead + UInt64.ofNat batches }

def countFork (c : Counters) : Counters := { c with forks := c.forks + 1 }

def countTrim (c : Counters) (versions : Nat) : Counters :=
  { c with trims := c.trims + 1, nodesTrimmed := c.nodesTrimmed + UInt64.ofNat versions }

def countDelete (c : Counters) (versions : Nat) : Counters :=
  { c with deletes := c.deletes + 1, nodesDeleted := c.nodesDeleted + UInt64.ofNat versions }

/-- `batches_per_read`: the mean number of batches on a page, 0 before the first page. -/
def batchesPerRead (c : Counters) : Float :=
  if c.reads = 0 then 0 else c.batchesRead.toFloat / c.reads.toFloat

end Counters

end Chronicle
