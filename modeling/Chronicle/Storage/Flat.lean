import Chronicle.CompositeKey
import Chronicle.Storage.MemoryStore

/-!
# Flat tables

What a backend is asked to do, said of two flat tables: rows under tree and branch, and versions
under tree, branch, node and transaction, where the transactions of a node count downwards, so that
the order of the keys is the read order. A set of trees says which ones are known.

`FlatStore` is a backend that does just that, with the same armed faults as the one in memory.
-/
namespace Chronicle

abbrev RowKey := KeyPair TreeId BranchId

/-- The key under which a row is stored. -/
def BranchRow.key (row : BranchRow) : RowKey := ⟨row.tree, row.branch⟩

/-- The key of a version: its row's key, then its place in read order. -/
abbrev VersionKey := KeyPair RowKey (KeyPair NodeId (Descending TransactionId))

namespace VersionKey

def of (t : TreeId) (b : BranchId) (n : NodeId) (x : TransactionId) : VersionKey :=
  ⟨⟨t, b⟩, n, ⟨x⟩⟩

def tree (k : VersionKey) : TreeId := k.fst.fst
def branch (k : VersionKey) : BranchId := k.fst.snd
def node (k : VersionKey) : NodeId := k.snd.fst

/-- Whether the key is that of a version of the branch, on a node that satisfies `p`. -/
def isOn (t : TreeId) (b : BranchId) (p : NodeId → Bool) (k : VersionKey) : Bool :=
  k.tree = t && k.branch = b && p k.node

end VersionKey

/-- The content of a backend as flat tables. -/
structure FlatTables where
  trees : SortedMap TreeId Unit
  rows : SortedMap RowKey BranchRow
  versions : SortedMap VersionKey Version
  deriving DecidableEq

namespace FlatTables

def empty : FlatTables := ⟨.empty, .empty, .empty⟩

/-! ## Answers -/

def hasTree (fs : FlatTables) (t : TreeId) : Bool := fs.trees.contains t

def row? (fs : FlatTables) (t : TreeId) (b : BranchId) : Option BranchRow := fs.rows.get? ⟨t, b⟩

def version? (fs : FlatTables) (t : TreeId) (b : BranchId) (n : NodeId) (x : TransactionId) :
    Option Version :=
  fs.versions.get? (.of t b n x)

def rowsOf (fs : FlatTables) (t : TreeId) : List BranchRow :=
  (fs.rows.filterKeys (·.fst = t)).values

def scan (fs : FlatTables) (after : Option (TreeId × BranchId)) (limit : UInt64) : List BranchRow :=
  let isWanted (k : RowKey) : Bool := after.all fun key => (⟨key.1, key.2⟩ : RowKey) < k
  (fs.rows.filterKeys isWanted).values.take limit.toNat

/-- The versions of a branch on nodes that satisfy `p`. -/
def versionsOn (fs : FlatTables) (t : TreeId) (b : BranchId) (p : NodeId → Bool) :
    SortedMap VersionKey Version :=
  fs.versions.filterKeys (VersionKey.isOn t b p)

def read (fs : FlatTables) (t : TreeId) (b : BranchId) (q : RangeQuery) : List Version :=
  let isWanted (k : VersionKey) : Bool := q.after.all fun p => .of t b p.node p.transaction < k
  let versions := fs.versionsOn t b fun n => q.min ≤ n && n < q.max
  (versions.filterKeys isWanted).values.take q.limit.toNat

/-- The largest transaction on the nodes from `min` on and before `before`. -/
def maxTransaction (fs : FlatTables) (t : TreeId) (b : BranchId) (min before : NodeId) :
    Option TransactionId :=
  ((fs.versionsOn t b fun n => min ≤ n && n < before).values.map (·.transaction)).max?

/-- The number of versions of the nodes from `start` on. -/
def countFrom (fs : FlatTables) (t : TreeId) (b : BranchId) (start : NodeId) : Nat :=
  (fs.versionsOn t b (start ≤ ·)).size

/-- Whether the tree is known, and neither table mentions it. -/
def isEmptyTree (fs : FlatTables) (t : TreeId) : Bool :=
  fs.hasTree t && (fs.rows.filterKeys (·.fst = t)).isEmpty &&
    (fs.versions.filterKeys (·.tree = t)).isEmpty

/-! ## Changes -/

def upsertRow (fs : FlatTables) (row : BranchRow) : FlatTables :=
  { fs with
    trees := fs.trees.insert row.tree ()
    rows := fs.rows.insert ⟨row.tree, row.branch⟩ row }

def eraseRow (fs : FlatTables) (t : TreeId) (b : BranchId) : FlatTables :=
  { fs with rows := fs.rows.erase ⟨t, b⟩ }

/-- Stores a version, unless there is one under its key. -/
def insertVersion (fs : FlatTables) (t : TreeId) (b : BranchId) (v : Version) :
    Insertion × FlatTables :=
  let known := { fs with trees := fs.trees.insert t () }
  match fs.version? t b v.node v.transaction with
  | some existing => (.duplicate existing, known)
  | none =>
    let key := VersionKey.of t b v.node v.transaction
    (.inserted, { known with versions := fs.versions.insert key v })

def eraseFrom (fs : FlatTables) (t : TreeId) (b : BranchId) (start : NodeId) : FlatTables :=
  { fs with versions := fs.versions.filterKeys fun k => !VersionKey.isOn t b (start ≤ ·) k }

def eraseVersion (fs : FlatTables) (t : TreeId) (b : BranchId) (n : NodeId) (x : TransactionId) :
    FlatTables :=
  { fs with versions := fs.versions.erase (.of t b n x) }

def eraseTree (fs : FlatTables) (t : TreeId) : FlatTables := { fs with trees := fs.trees.erase t }

end FlatTables

/-- A backend with flat tables. -/
structure FlatStore where
  tables : FlatTables
  fault : Option ArmedFault
  deriving DecidableEq

namespace FlatStore

def empty : FlatStore := ⟨.empty, none⟩

def arm (s : FlatStore) (fault : ArmedFault) : FlatStore := { s with fault := some fault }

/-- One call: the table operation `f`, unless an armed fault is due. -/
def answer {α : Type} (f : FlatTables → α × FlatTables) : Call FlatStore α := fun s =>
  match s.fault with
  | none => let (a, tables) := f s.tables; .ok a ⟨tables, none⟩
  | some ⟨0, failure⟩ => .error failure ⟨s.tables, none⟩
  | some ⟨n + 1, failure⟩ => let (a, tables) := f s.tables; .ok a ⟨tables, some ⟨n, failure⟩⟩

instance : Backend FlatStore where
  upsertBranch row := answer fun fs => ((), fs.upsertRow row)
  getBranch t b := answer fun fs => (fs.row? t b, fs)
  treeBranches t := answer fun fs => (fs.rowsOf t, fs)
  deleteBranch t b := answer fun fs => ((fs.row? t b).isSome, fs.eraseRow t b)
  scanBranches after limit := answer fun fs => (fs.scan after limit, fs)
  insertVersion t b v := answer fun fs => fs.insertVersion t b v
  getVersion t b n x := answer fun fs => (fs.version? t b n x, fs)
  maxTransaction t b min before := answer fun fs => (fs.maxTransaction t b min before, fs)
  readVersions t b q := answer fun fs => (fs.read t b q, fs)
  deleteFrom t b start := answer fun fs => (fs.countFrom t b start, fs.eraseFrom t b start)
  deleteVersion t b n x := answer fun fs => ((fs.version? t b n x).isSome, fs.eraseVersion t b n x)
  dropTreeIfEmpty t := answer fun fs =>
    if fs.isEmptyTree t then (true, fs.eraseTree t) else (false, fs)

end FlatStore

end Chronicle
