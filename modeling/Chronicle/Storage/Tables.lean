import Chronicle.Storage.TreeTables

/-!
# Tables in memory

The content of a backend as nested maps: trees, in a tree the rows and the nodes of its branches. A
tree stays as long as it is not dropped, even if nothing is left in it. A row is listed under its
own tree.

The nested maps stand for two flat tables, `row?` and `version?`, and for the set of the known
trees, `hasTree`.
-/
namespace Chronicle

/-- The content of a backend. -/
structure Tables where
  trees : SortedMap TreeId TreeTables
  own : ∀ t tree, trees.get? t = some tree → tree.BelongsTo t
  deriving DecidableEq

namespace Tables

def empty : Tables := ⟨.empty, fun _ _ h => nomatch h⟩

instance : Inhabited Tables := ⟨empty⟩

def tree (ts : Tables) (t : TreeId) : TreeTables := (ts.trees.get? t).getD .empty

def hasTree (ts : Tables) (t : TreeId) : Bool := ts.trees.contains t

def row? (ts : Tables) (t : TreeId) (b : BranchId) : Option BranchRow := (ts.tree t).rows.get? b

def nodesOf (ts : Tables) (t : TreeId) (b : BranchId) : Nodes := (ts.tree t).nodesOf b

/-- The version of a node that a transaction wrote. -/
def version? (ts : Tables) (t : TreeId) (b : BranchId) (n : NodeId) (x : TransactionId) :
    Option Version :=
  (ts.nodesOf t b).get? n x

def rowsOf (ts : Tables) (t : TreeId) : List BranchRow := (ts.tree t).rows.values

/-- All rows, by ascending tree and branch. -/
def rows (ts : Tables) : List BranchRow := ts.trees.values.flatMap (·.rows.values)

def treeCount (ts : Tables) : Nat := ts.trees.size

def versionCount (ts : Tables) : Nat := ts.trees.values.foldr (·.versionCount + ·) 0

/-! ## Answers -/

def read (ts : Tables) (t : TreeId) (b : BranchId) (q : RangeQuery) : List Version :=
  let isWanted (v : Version) : Bool := q.after.all fun p => v.position.isAfter p
  let nodes := (ts.nodesOf t b).restrict fun n => q.min ≤ n && n < q.max
  (nodes.toList.filter isWanted).take q.limit.toNat

/-- `max_transaction_before`: the largest transaction on the nodes from `min` on and before
`before`. -/
def maxTransaction (ts : Tables) (t : TreeId) (b : BranchId) (min before : NodeId) :
    Option TransactionId :=
  ((ts.nodesOf t b).restrict fun n => min ≤ n && n < before).largest?

/-- The first rows after a key. -/
def scan (ts : Tables) (after : Option (TreeId × BranchId)) (limit : UInt64) : List BranchRow :=
  let isWanted (row : BranchRow) : Bool :=
    after.all fun key => key.1 < row.tree || (row.tree = key.1 && key.2 < row.branch)
  (ts.rows.filter isWanted).take limit.toNat

/-! ## Changes -/

/-- Changes what is stored of a tree; a tree that was not known becomes known. -/
def update (ts : Tables) (t : TreeId) (f : TreeTables → TreeTables)
    (hf : ∀ tree : TreeTables, tree.BelongsTo t → (f tree).BelongsTo t) : Tables where
  trees := ts.trees.alter t fun tree => some (f (tree.getD .empty))
  own u tree h := by
    rw [SortedMap.get?_alter] at h
    split at h
    · next hu =>
      cases h
      subst hu
      refine hf _ ?_
      cases ht : ts.trees.get? u with
      | none => exact TreeTables.belongsTo_empty u
      | some tree => exact ts.own u tree ht
    · exact ts.own u tree h

/-- Changes what is stored of a tree, if it is known. -/
def update? (ts : Tables) (t : TreeId) (f : TreeTables → TreeTables)
    (hf : ∀ tree : TreeTables, tree.BelongsTo t → (f tree).BelongsTo t) : Tables where
  trees := ts.trees.alter t (Option.map f)
  own u tree h := by
    rw [SortedMap.get?_alter] at h
    split at h
    · next hu =>
      subst hu
      obtain ⟨old, ho, rfl⟩ := Option.map_eq_some_iff.1 h
      exact hf _ (ts.own u old ho)
    · exact ts.own u tree h

/-- Stores a row in place of an earlier one. -/
def upsertRow (ts : Tables) (row : BranchRow) : Tables :=
  ts.update row.tree (·.upsertRow row) fun _ => TreeTables.belongsTo_upsertRow

def eraseRow (ts : Tables) (t : TreeId) (b : BranchId) : Tables :=
  ts.update? t (·.eraseRow b) fun _ h => TreeTables.belongsTo_eraseRow h b

/-- `insert_node`: stores a version unless there is one with its node and transaction. -/
def insertVersion (ts : Tables) (t : TreeId) (b : BranchId) (v : Version) : Insertion × Tables :=
  let outcome := (ts.nodesOf t b).insert v
  (outcome.1,
    ts.update t (·.setNodes b outcome.2) fun _ h => TreeTables.belongsTo_setNodes h b outcome.2)

/-- `delete_nodes_from`: removes the versions of all nodes from `start` on. -/
def eraseFrom (ts : Tables) (t : TreeId) (b : BranchId) (start : NodeId) : Tables :=
  ts.update? t (fun tree => tree.setNodes b ((tree.nodesOf b).restrict (· < start)))
    fun _ h => TreeTables.belongsTo_setNodes h b _

def eraseVersion (ts : Tables) (t : TreeId) (b : BranchId) (n : NodeId) (x : TransactionId) :
    Tables :=
  ts.update? t (fun tree => tree.setNodes b ((tree.nodesOf b).erase n x))
    fun _ h => TreeTables.belongsTo_setNodes h b _

def eraseTree (ts : Tables) (t : TreeId) : Tables where
  trees := ts.trees.erase t
  own u tree h := by
    rw [SortedMap.get?_erase] at h
    split at h
    · cases h
    · exact ts.own u tree h

/-- The number of versions of the nodes from `start` on. -/
def countFrom (ts : Tables) (t : TreeId) (b : BranchId) (start : NodeId) : Nat :=
  ((ts.nodesOf t b).restrict (start ≤ ·)).size

/-- Whether the tree is known and holds neither a row nor a version. -/
def isEmptyTree (ts : Tables) (t : TreeId) : Bool := (ts.trees.get? t).any (·.isEmpty)

end Tables

end Chronicle
