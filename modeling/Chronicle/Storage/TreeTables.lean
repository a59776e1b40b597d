import Chronicle.Storage.Backend
import Chronicle.Storage.Nodes

/-!
# What is stored of one tree

The rows and the nodes of a tree's branches. A branch without nodes leaves no entry behind, and a
row is listed under its own branch. `ext_views`: the rows and the versions determine the content.
-/
namespace Chronicle

/-- `TreeShard`: what is stored of one tree. -/
structure TreeTables where
  rows : SortedMap BranchId BranchRow
  nodes : SortedMap BranchId Nodes
  own : ∀ b row, rows.get? b = some row → row.branch = b
  inhabited : ∀ b ns, nodes.get? b = some ns → ns.isEmpty = false
  deriving DecidableEq

namespace TreeTables

def empty : TreeTables := ⟨.empty, .empty, (fun _ _ h => nomatch h), (fun _ _ h => nomatch h)⟩

instance : Inhabited TreeTables := ⟨empty⟩

def nodesOf (tree : TreeTables) (b : BranchId) : Nodes := (tree.nodes.get? b).getD .empty

def versionCount (tree : TreeTables) : Nat := tree.nodes.values.foldr (·.size + ·) 0

def isEmpty (tree : TreeTables) : Bool := tree.rows.isEmpty && tree.nodes.isEmpty

def upsertRow (tree : TreeTables) (row : BranchRow) : TreeTables where
  rows := tree.rows.insert row.branch row
  nodes := tree.nodes
  own b r h := by
    rw [SortedMap.get?_insert] at h
    split at h
    · next hb => cases h; exact hb.symm
    · exact tree.own b r h
  inhabited := tree.inhabited

def eraseRow (tree : TreeTables) (b : BranchId) : TreeTables where
  rows := tree.rows.erase b
  nodes := tree.nodes
  own c r h := by
    rw [SortedMap.get?_erase] at h
    split at h
    · cases h
    · exact tree.own c r h
  inhabited := tree.inhabited

/-- Makes `ns` the nodes of a branch; no nodes, no entry. -/
def setNodes (tree : TreeTables) (b : BranchId) (ns : Nodes) : TreeTables where
  rows := tree.rows
  nodes := tree.nodes.alter b fun _ => if ns.isEmpty then none else some ns
  own := tree.own
  inhabited c ms h := by
    rw [SortedMap.get?_alter] at h
    split at h
    · split at h
      · cases h
      · cases h; simpa using ‹¬ ns.isEmpty = true›
    · exact tree.inhabited c ms h

theorem nodesOf_setNodes (tree : TreeTables) (b c : BranchId) (ns : Nodes) :
    (tree.setNodes b ns).nodesOf c = if c = b then ns else tree.nodesOf c := by
  simp only [nodesOf, setNodes, SortedMap.get?_alter]
  split
  · by_cases h : ns.isEmpty = true
    · rw [if_pos h]
      exact Nodes.ext_get? fun n x => (Nodes.isEmpty_iff.1 h n x).symm
    · rw [if_neg h]; rfl
  · rfl

/-- A branch is listed if it has nodes, and with exactly those. -/
theorem get?_nodes (tree : TreeTables) (b : BranchId) :
    tree.nodes.get? b = if (tree.nodesOf b).isEmpty then none else some (tree.nodesOf b) := by
  unfold nodesOf
  cases h : tree.nodes.get? b with
  | none => rfl
  | some ns => simp [tree.inhabited b ns h]

theorem isEmpty_iff {tree : TreeTables} :
    tree.isEmpty = true ↔
      (∀ b, tree.rows.get? b = none) ∧ ∀ b n x, (tree.nodesOf b).get? n x = none := by
  rw [isEmpty, Bool.and_eq_true, SortedMap.isEmpty_iff, SortedMap.isEmpty_iff]
  refine and_congr_right fun _ => forall_congr' fun b => ?_
  rw [get?_nodes, ← Nodes.isEmpty_iff]
  cases (tree.nodesOf b).isEmpty <;> simp

theorem ext_views {s t : TreeTables} (hr : ∀ b, s.rows.get? b = t.rows.get? b)
    (hv : ∀ b n x, (s.nodesOf b).get? n x = (t.nodesOf b).get? n x) : s = t := by
  have h1 : s.rows = t.rows := SortedMap.ext_get? hr
  have h2 : s.nodes = t.nodes := SortedMap.ext_get? fun b => by
    rw [get?_nodes, get?_nodes, Nodes.ext_get? (hv b)]
  cases s
  cases t
  cases h1
  cases h2
  rfl

/-- Whether all rows are rows of tree `t`. -/
def BelongsTo (tree : TreeTables) (t : TreeId) : Prop :=
  ∀ b row, tree.rows.get? b = some row → row.tree = t

theorem belongsTo_empty (t : TreeId) : empty.BelongsTo t := fun _ _ h => nomatch h

theorem belongsTo_upsertRow {tree : TreeTables} {row : BranchRow} (h : tree.BelongsTo row.tree) :
    (tree.upsertRow row).BelongsTo row.tree := fun b r hr => by
  rw [upsertRow, SortedMap.get?_insert] at hr
  split at hr
  · cases hr; rfl
  · exact h b r hr

theorem belongsTo_eraseRow {tree : TreeTables} {t : TreeId} (h : tree.BelongsTo t) (b : BranchId) :
    (tree.eraseRow b).BelongsTo t := fun c r hr => by
  rw [eraseRow, SortedMap.get?_erase] at hr
  split at hr
  · cases hr
  · exact h c r hr

theorem belongsTo_setNodes {tree : TreeTables} {t : TreeId} (h : tree.BelongsTo t) (b : BranchId)
    (ns : Nodes) : (tree.setNodes b ns).BelongsTo t :=
  h

end TreeTables

end Chronicle
