import Chronicle.Storage.Tables

/-!
# The backend in memory

Tables, and possibly an armed fault: a number of calls that still succeed, and the failure of the
one after them. Every call counts towards it, and a call that fails changes no table. Without a
fault every call is the plain table operation.
-/
namespace Chronicle

/-- A failure that waits for `remaining` calls to pass. -/
structure ArmedFault where
  remaining : Nat
  failure : BackendError
  deriving DecidableEq, Repr

/-- `InMemoryHistoryStore`: a backend in memory. -/
structure MemoryStore where
  tables : Tables
  fault : Option ArmedFault
  deriving DecidableEq

namespace MemoryStore

def empty : MemoryStore := ⟨.empty, none⟩

/-- `inject_failure_after`: arms a fault in place of an earlier one. -/
def arm (s : MemoryStore) (fault : ArmedFault) : MemoryStore := { s with fault := some fault }

/-- One call: the table operation `f`, unless an armed fault is due. -/
def answer {α : Type} (f : Tables → α × Tables) : Call MemoryStore α := fun s =>
  match s.fault with
  | none => let (a, tables) := f s.tables; .ok a ⟨tables, none⟩
  | some ⟨0, failure⟩ => .error failure ⟨s.tables, none⟩
  | some ⟨n + 1, failure⟩ => let (a, tables) := f s.tables; .ok a ⟨tables, some ⟨n, failure⟩⟩

instance : Backend MemoryStore where
  upsertBranch row := answer fun ts => ((), ts.upsertRow row)
  getBranch t b := answer fun ts => (ts.row? t b, ts)
  treeBranches t := answer fun ts => (ts.rowsOf t, ts)
  deleteBranch t b := answer fun ts => ((ts.row? t b).isSome, ts.eraseRow t b)
  scanBranches after limit := answer fun ts => (ts.scan after limit, ts)
  insertVersion t b v := answer fun ts => ts.insertVersion t b v
  getVersion t b n x := answer fun ts => (ts.version? t b n x, ts)
  maxTransaction t b min before := answer fun ts => (ts.maxTransaction t b min before, ts)
  readVersions t b q := answer fun ts => (ts.read t b q, ts)
  deleteFrom t b start := answer fun ts => (ts.countFrom t b start, ts.eraseFrom t b start)
  deleteVersion t b n x := answer fun ts => ((ts.version? t b n x).isSome, ts.eraseVersion t b n x)
  dropTreeIfEmpty t := answer fun ts =>
    if ts.isEmptyTree t then (true, ts.eraseTree t) else (false, ts)

def summary (s : MemoryStore) : String :=
  let counts :=
    s!"tree_count: {s.tables.treeCount}, total_node_versions: {s.tables.versionCount}"
  s!"InMemoryHistoryStore \x7b {counts} \x7d"

end MemoryStore

end Chronicle
