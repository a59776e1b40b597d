import Chronicle.Storage.Tables

/-!
# The flat tables

Tables stand for two flat tables, `row?` under tree and branch and `version?` under tree, branch,
node and transaction, and for the set of the known trees, `hasTree`. What each change does to these
three is said by a lemma each: `row?_upsertRow`, `version?_insertVersion`, `version?_eraseFrom` and
so on.

* `row?_own`, `version?_own`: an entry carries the ids under which it is found.
* `ext_views`: contents that agree on the three views are the same content.
* `mem_rowsOf_iff`, `mem_rows_iff`: the listings hold exactly the stored rows, in the order of their
  ids.
-/
namespace Chronicle.Tables

theorem row?_own {ts : Tables} {t : TreeId} {b : BranchId} {row : BranchRow}
    (h : ts.row? t b = some row) : row.tree = t ∧ row.branch = b := by
  unfold row? tree at h
  cases ht : ts.trees.get? t with
  | none => rw [ht] at h; cases h
  | some tree =>
    rw [ht] at h
    exact ⟨ts.own t tree ht b row h, tree.own b row h⟩

theorem version?_own {ts : Tables} {t : TreeId} {b : BranchId} {n : NodeId} {x : TransactionId}
    {v : Version} (h : ts.version? t b n x = some v) : v.node = n ∧ v.transaction = x :=
  Nodes.get?_eq_some h

theorem tree_update (ts : Tables) (t u : TreeId) (f : TreeTables → TreeTables)
    (hf : ∀ tree : TreeTables, tree.BelongsTo t → (f tree).BelongsTo t) :
    (ts.update t f hf).tree u = if u = t then f (ts.tree t) else ts.tree u := by
  simp only [tree, update, SortedMap.get?_alter]
  split <;> rfl

/-- A tree that is not known holds nothing, so a change that makes nothing out of nothing may as
well be made to it. -/
theorem tree_update? (ts : Tables) (t u : TreeId) {f : TreeTables → TreeTables}
    (hf : ∀ tree : TreeTables, tree.BelongsTo t → (f tree).BelongsTo t)
    (h : f .empty = .empty) :
    (ts.update? t f hf).tree u = if u = t then f (ts.tree t) else ts.tree u := by
  simp only [tree, update?, SortedMap.get?_alter]
  split
  · cases ts.trees.get? t with
    | none => exact h.symm
    | some tree => rfl
  · rfl

theorem hasTree_update (ts : Tables) (t u : TreeId) (f : TreeTables → TreeTables)
    (hf : ∀ tree : TreeTables, tree.BelongsTo t → (f tree).BelongsTo t) :
    (ts.update t f hf).hasTree u = (u = t || ts.hasTree u) := by
  simp only [hasTree, SortedMap.contains, update, SortedMap.get?_alter]
  split <;> simp [*]

theorem hasTree_update? (ts : Tables) (t u : TreeId) (f : TreeTables → TreeTables)
    (hf : ∀ tree : TreeTables, tree.BelongsTo t → (f tree).BelongsTo t) :
    (ts.update? t f hf).hasTree u = ts.hasTree u := by
  simp only [hasTree, SortedMap.contains, update?, SortedMap.get?_alter]
  split
  · next h => subst h; cases ts.trees.get? u <;> rfl
  · rfl

/-! ## Storing a row -/

theorem hasTree_upsertRow (ts : Tables) (row : BranchRow) (t : TreeId) :
    (ts.upsertRow row).hasTree t = (t = row.tree || ts.hasTree t) :=
  hasTree_update ..

theorem row?_upsertRow (ts : Tables) (row : BranchRow) (t : TreeId) (b : BranchId) :
    (ts.upsertRow row).row? t b =
      if t = row.tree ∧ b = row.branch then some row else ts.row? t b := by
  rw [upsertRow, row?, tree_update]
  by_cases ht : t = row.tree
  · subst ht
    simp only [if_true, true_and, TreeTables.upsertRow, SortedMap.get?_insert, row?]
  · simp [ht, row?]

theorem version?_upsertRow (ts : Tables) (row : BranchRow) (t : TreeId) (b : BranchId)
    (n : NodeId) (x : TransactionId) :
    (ts.upsertRow row).version? t b n x = ts.version? t b n x := by
  rw [upsertRow, version?, nodesOf, tree_update]
  split
  · next h => subst h; rfl
  · rfl

/-! ## Removing a row -/

theorem hasTree_eraseRow (ts : Tables) (t u : TreeId) (b : BranchId) :
    (ts.eraseRow t b).hasTree u = ts.hasTree u :=
  hasTree_update? ..

theorem row?_eraseRow (ts : Tables) (t u : TreeId) (b c : BranchId) :
    (ts.eraseRow t b).row? u c = if u = t ∧ c = b then none else ts.row? u c := by
  rw [eraseRow, row?, tree_update? _ _ _ _ rfl]
  by_cases ht : u = t
  · subst ht
    simp only [if_true, true_and, TreeTables.eraseRow, SortedMap.get?_erase, row?]
  · simp [ht, row?]

theorem version?_eraseRow (ts : Tables) (t u : TreeId) (b c : BranchId) (n : NodeId)
    (x : TransactionId) : (ts.eraseRow t b).version? u c n x = ts.version? u c n x := by
  rw [eraseRow, version?, nodesOf, tree_update? _ _ _ _ rfl]
  split
  · next h => subst h; rfl
  · rfl

/-! ## Storing a version -/

theorem hasTree_insertVersion (ts : Tables) (t u : TreeId) (b : BranchId) (v : Version) :
    (ts.insertVersion t b v).2.hasTree u = (u = t || ts.hasTree u) :=
  hasTree_update ..

theorem row?_insertVersion (ts : Tables) (t u : TreeId) (b c : BranchId) (v : Version) :
    (ts.insertVersion t b v).2.row? u c = ts.row? u c := by
  simp only [insertVersion, row?, tree_update]
  split
  · next h => subst h; rfl
  · rfl

/-- What an insertion answers: the version that was there already, if there was one. -/
theorem insertVersion_fst (ts : Tables) (t : TreeId) (b : BranchId) (v : Version) :
    (ts.insertVersion t b v).1 =
      (ts.version? t b v.node v.transaction).elim .inserted .duplicate :=
  Nodes.insert_fst ..

theorem version?_insertVersion (ts : Tables) (t u : TreeId) (b c : BranchId) (v : Version)
    (n : NodeId) (x : TransactionId) :
    (ts.insertVersion t b v).2.version? u c n x =
      if u = t ∧ c = b ∧ n = v.node ∧ x = v.transaction then
        some ((ts.version? u c n x).getD v)
      else ts.version? u c n x := by
  simp only [insertVersion, version?, nodesOf, tree_update]
  by_cases ht : u = t
  · subst ht
    simp only [if_true, true_and, TreeTables.nodesOf_setNodes]
    by_cases hb : c = b
    · subst hb
      simp only [if_true, true_and, Nodes.get?_insert]
    · simp [hb]
  · simp [ht]

/-! ## Removing versions -/

theorem hasTree_eraseFrom (ts : Tables) (t u : TreeId) (b : BranchId) (start : NodeId) :
    (ts.eraseFrom t b start).hasTree u = ts.hasTree u :=
  hasTree_update? ..

theorem row?_eraseFrom (ts : Tables) (t u : TreeId) (b c : BranchId) (start : NodeId) :
    (ts.eraseFrom t b start).row? u c = ts.row? u c := by
  rw [eraseFrom, row?, tree_update? _ _ _ _ rfl]
  split
  · next h => subst h; rfl
  · rfl

theorem version?_eraseFrom (ts : Tables) (t u : TreeId) (b c : BranchId) (start n : NodeId)
    (x : TransactionId) :
    (ts.eraseFrom t b start).version? u c n x =
      if u = t ∧ c = b ∧ start ≤ n then none else ts.version? u c n x := by
  rw [eraseFrom, version?, nodesOf, tree_update? _ _ _ _ rfl]
  by_cases ht : u = t
  · subst ht
    simp only [if_true, true_and, TreeTables.nodesOf_setNodes]
    by_cases hb : c = b
    · subst hb
      simp only [if_true, true_and, Nodes.get?_restrict, decide_eq_true_eq]
      by_cases hn : start ≤ n
      · rw [if_neg (Int64.not_lt.2 hn), if_pos hn]
      · rw [if_pos (Int64.not_le.1 hn), if_neg hn]
        rfl
    · simp [hb, version?, nodesOf]
  · simp [ht, version?, nodesOf]

theorem hasTree_eraseVersion (ts : Tables) (t u : TreeId) (b : BranchId) (n : NodeId)
    (x : TransactionId) : (ts.eraseVersion t b n x).hasTree u = ts.hasTree u :=
  hasTree_update? ..

theorem row?_eraseVersion (ts : Tables) (t u : TreeId) (b c : BranchId) (n : NodeId)
    (x : TransactionId) : (ts.eraseVersion t b n x).row? u c = ts.row? u c := by
  rw [eraseVersion, row?, tree_update? _ _ _ _ rfl]
  split
  · next h => subst h; rfl
  · rfl

theorem version?_eraseVersion (ts : Tables) (t u : TreeId) (b c : BranchId) (n m : NodeId)
    (x y : TransactionId) :
    (ts.eraseVersion t b n x).version? u c m y =
      if u = t ∧ c = b ∧ m = n ∧ y = x then none else ts.version? u c m y := by
  rw [eraseVersion, version?, nodesOf, tree_update? _ _ _ _ rfl]
  by_cases ht : u = t
  · subst ht
    simp only [if_true, true_and, TreeTables.nodesOf_setNodes]
    by_cases hb : c = b
    · subst hb
      simp only [if_true, true_and, Nodes.get?_erase]
      rfl
    · simp [hb, version?, nodesOf]
  · simp [ht, version?, nodesOf]

/-! ## Forgetting a tree -/

theorem hasTree_eraseTree (ts : Tables) (t u : TreeId) :
    (ts.eraseTree t).hasTree u = (u ≠ t && ts.hasTree u) :=
  SortedMap.contains_erase ..

theorem tree_eraseTree (ts : Tables) (t u : TreeId) :
    (ts.eraseTree t).tree u = if u = t then .empty else ts.tree u := by
  simp only [tree, eraseTree, SortedMap.get?_erase]
  split <;> rfl

/-- A tree can be forgotten when it is known and neither table mentions it. -/
theorem isEmptyTree_iff {ts : Tables} {t : TreeId} :
    ts.isEmptyTree t = true ↔ ts.hasTree t = true ∧ (∀ b, ts.row? t b = none) ∧
      ∀ b n x, ts.version? t b n x = none := by
  simp only [isEmptyTree, hasTree, SortedMap.contains, row?, version?, nodesOf, tree]
  cases ts.trees.get? t with
  | none => simp
  | some tree => simp [TreeTables.isEmpty_iff]

/-- Contents with the same known trees, rows and versions are the same content. -/
theorem ext_views {ts us : Tables} (ht : ∀ t, ts.hasTree t = us.hasTree t)
    (hr : ∀ t b, ts.row? t b = us.row? t b)
    (hv : ∀ t b n x, ts.version? t b n x = us.version? t b n x) : ts = us := by
  have h : ts.trees = us.trees := SortedMap.ext_get? fun t => by
    have htree : ts.tree t = us.tree t := TreeTables.ext_views (hr t) (hv t)
    have hknown := ht t
    simp only [tree, hasTree, SortedMap.contains] at htree hknown
    cases h1 : ts.trees.get? t <;> cases h2 : us.trees.get? t <;> simp_all
  cases ts
  cases us
  cases h
  rfl

/-! ## Listing rows -/

theorem mem_rowsOf_iff {ts : Tables} {t : TreeId} {row : BranchRow} :
    row ∈ ts.rowsOf t ↔ ∃ b, ts.row? t b = some row :=
  SortedMap.mem_values_iff

theorem rowsOf_ascending (ts : Tables) (t : TreeId) :
    (ts.rowsOf t).Pairwise fun a b => a.branch < b.branch :=
  SortedMap.KeyedBy.values_ascending (ts.tree t).own

theorem mem_rows_iff {ts : Tables} {row : BranchRow} :
    row ∈ ts.rows ↔ ts.row? row.tree row.branch = some row := by
  simp only [rows, List.mem_flatMap, SortedMap.mem_values_iff]
  constructor
  · intro h
    obtain ⟨tree, ⟨t, ht⟩, b, hb⟩ := h
    rw [ts.own t tree ht b row hb, tree.own b row hb, row?, Tables.tree, ht]
    exact hb
  · intro h
    unfold row? Tables.tree at h
    cases ht : ts.trees.get? row.tree with
    | none =>
      rw [ht] at h
      cases h
    | some tree =>
      rw [ht] at h
      exact ⟨tree, ⟨row.tree, ht⟩, row.branch, h⟩

theorem rows_ascending (ts : Tables) : ts.rows.Pairwise fun a b =>
    a.tree < b.tree ∨ (a.tree = b.tree ∧ a.branch < b.branch) := by
  have htree : ∀ e ∈ ts.trees.toList, ts.tree e.1 = e.2 := by
    intro e he
    rw [Tables.tree, SortedMap.get?_eq_some_iff.2 he]
    rfl
  have hrows : ∀ e ∈ ts.trees.toList, ∀ row ∈ e.2.rows.values, row.tree = e.1 := by
    intro e he row hrow
    obtain ⟨b, hb⟩ := SortedMap.mem_values_iff.1 hrow
    exact ts.own e.1 e.2 (SortedMap.get?_eq_some_iff.2 he) b row hb
  rw [rows, SortedMap.values, List.flatMap_map, List.pairwise_flatMap]
  refine ⟨fun e he => ?_, ts.trees.ascending.imp_of_mem fun ha hb hlt row hrow other hother => ?_⟩
  · have hlist : ts.rowsOf e.1 = e.2.rows.values := by rw [rowsOf, htree e he]
    rw [← hlist]
    refine (rowsOf_ascending ts e.1).imp_of_mem fun {row other} hrow hother hlt => .inr ⟨?_, hlt⟩
    rw [hlist] at hrow hother
    rw [hrows e he row hrow, hrows e he other hother]
  · rw [hrows _ ha row hrow, hrows _ hb other hother]
    exact .inl hlt

theorem mem_scan {ts : Tables} {after : Option (TreeId × BranchId)} {limit : UInt64}
    {row : BranchRow} (h : row ∈ ts.scan after limit) :
    ts.row? row.tree row.branch = some row :=
  mem_rows_iff.1 (List.mem_filter.1 (List.mem_of_mem_take h)).1

end Chronicle.Tables
