import Chronicle.Storage.Tables.Views
import Mathlib.Data.List.Nodup

/-!
# All versions

The versions of all branches of all trees, in one list. It has no version twice, so how many there
are after a change follows from what the change does to `version?`.

* `mem_contents_iff`, `nodup_contents`, `length_contents`: the list holds every version once, and
  `versionCount` is its length.
* `versionCount_congr`, `versionCount_eraseFrom` and so on: what changes do to the count.
* `gained`: the versions that were not there before.
-/
namespace Chronicle

/-- A version, and where it is stored. -/
structure Record where
  tree : TreeId
  branch : BranchId
  version : Version
  deriving DecidableEq, Repr

/-- Whether the version is one of the branch, from the node on. -/
def Record.isFrom (t : TreeId) (b : BranchId) (start : NodeId) (r : Record) : Bool :=
  r.tree = t ∧ r.branch = b ∧ start ≤ r.version.node

namespace Tables

variable {ts us : Tables}

/-- What is stored under the place of the record. -/
def recorded (ts : Tables) (r : Record) : Option Version :=
  ts.version? r.tree r.branch r.version.node r.version.transaction

/-- All versions, by tree, branch and read order. -/
def contents (ts : Tables) : List Record :=
  ts.trees.toList.flatMap fun tree => tree.2.nodes.toList.flatMap fun branch =>
    branch.2.toList.map (Record.mk tree.1 branch.1)

theorem mem_contents_iff {r : Record} : r ∈ ts.contents ↔ ts.recorded r = some r.version := by
  obtain ⟨t, b, v⟩ := r
  simp only [contents, List.mem_flatMap, List.mem_map, Prod.exists, Record.mk.injEq,
    ← SortedMap.get?_eq_some_iff, Nodes.mem_toList_iff, recorded, version?, nodesOf, tree,
    TreeTables.nodesOf]
  constructor
  · rintro ⟨_, tree, htree, _, ns, hns, _, hv, rfl, rfl, rfl⟩
    rw [htree, Option.getD_some, hns]
    exact hv
  · intro h
    cases htree : ts.trees.get? t with
    | none =>
      rw [htree] at h
      cases h
    | some tree =>
      rw [htree, Option.getD_some] at h
      cases hns : tree.nodes.get? b with
      | none =>
        rw [hns] at h
        cases h
      | some ns =>
        rw [hns] at h
        exact ⟨t, tree, htree, b, ns, hns, v, h, rfl, rfl, rfl⟩

theorem nodup_records (t : TreeId) (b : BranchId) (ns : Nodes) :
    (ns.toList.map (Record.mk t b)).Nodup := by
  rw [List.Nodup, List.pairwise_map]
  refine ns.toList_ascending.imp fun hafter heq => ?_
  cases heq
  exact Position.not_isAfter_of_isAfter hafter hafter

theorem nodup_contents (ts : Tables) : ts.contents.Nodup := by
  refine List.pairwise_flatMap.2 ⟨fun tree _ => List.pairwise_flatMap.2
    ⟨fun branch _ => nodup_records tree.1 branch.1 branch.2, ?_⟩, ?_⟩
  · refine tree.2.nodes.ascending.imp fun hlt r hr r' hr' heq => ?_
    obtain ⟨v, -, rfl⟩ := List.mem_map.1 hr
    obtain ⟨w, -, rfl⟩ := List.mem_map.1 hr'
    rw [(Record.mk.inj heq).2.1] at hlt
    exact Std.lt_irrefl hlt
  · refine ts.trees.ascending.imp fun hlt r hr r' hr' heq => ?_
    obtain ⟨branch, -, hr⟩ := List.mem_flatMap.1 hr
    obtain ⟨branch', -, hr'⟩ := List.mem_flatMap.1 hr'
    obtain ⟨v, -, rfl⟩ := List.mem_map.1 hr
    obtain ⟨w, -, rfl⟩ := List.mem_map.1 hr'
    rw [(Record.mk.inj heq).1] at hlt
    exact Std.lt_irrefl hlt

theorem length_contents (ts : Tables) : ts.contents.length = ts.versionCount := by
  simp [contents, versionCount, List.length_flatMap, SortedMap.values, List.foldr_map, List.sum,
    TreeTables.versionCount, Nodes.size_eq_length]

/-! ## Counting -/

theorem versionCount_congr (h : ∀ u c n x, us.version? u c n x = ts.version? u c n x) :
    us.versionCount = ts.versionCount := by
  rw [← length_contents, ← length_contents]
  refine ((List.perm_ext_iff_of_nodup us.nodup_contents ts.nodup_contents).2 fun r => ?_).length_eq
  rw [mem_contents_iff, mem_contents_iff, recorded, recorded, h]

section Added

variable {t : TreeId} {b : BranchId} {v : Version}
  (hfresh : ts.version? t b v.node v.transaction = none)
  (h : ∀ u c n x, us.version? u c n x =
    if u = t ∧ c = b ∧ n = v.node ∧ x = v.transaction then some v else ts.version? u c n x)

include hfresh h

theorem contents_of_added : us.contents.Perm (⟨t, b, v⟩ :: ts.contents) := by
  have hnew : (⟨t, b, v⟩ : Record) ∉ ts.contents := by
    rw [mem_contents_iff, recorded, hfresh]
    nofun
  refine (List.perm_ext_iff_of_nodup us.nodup_contents
    (List.nodup_cons.2 ⟨hnew, ts.nodup_contents⟩)).2 fun r => ?_
  obtain ⟨u, c, w⟩ := r
  rw [List.mem_cons, mem_contents_iff, mem_contents_iff, recorded, recorded, h, Record.mk.injEq]
  split
  · next hkey =>
    obtain ⟨rfl, rfl, hnode, htransaction⟩ := hkey
    have hnone : ts.version? u c w.node w.transaction = none :=
      hnode ▸ htransaction ▸ hfresh
    simp [hnone, eq_comm]
  · next hkey =>
    refine (or_iff_right fun heq => hkey ?_).symm
    obtain ⟨rfl, rfl, rfl⟩ := heq
    exact ⟨rfl, rfl, rfl, rfl⟩

theorem versionCount_of_added : us.versionCount = ts.versionCount + 1 := by
  rw [← length_contents, ← length_contents, (contents_of_added hfresh h).length_eq,
    List.length_cons]

end Added

theorem versionCount_eraseVersion (ts : Tables) (t : TreeId) (b : BranchId) (n : NodeId)
    (x : TransactionId) :
    (ts.eraseVersion t b n x).versionCount + (if (ts.version? t b n x).isSome then 1 else 0) =
      ts.versionCount := by
  cases hv : ts.version? t b n x with
  | none =>
    refine versionCount_congr fun u c m y => ?_
    rw [version?_eraseVersion]
    split
    · next hkey => rw [hkey.1, hkey.2.1, hkey.2.2.1, hkey.2.2.2, hv]
    · rfl
  | some v =>
    obtain ⟨rfl, rfl⟩ := version?_own hv
    refine (versionCount_of_added (t := t) (b := b) (v := v) ?_ fun u c m y => ?_).symm
    · rw [version?_eraseVersion, if_pos ⟨rfl, rfl, rfl, rfl⟩]
    · rw [version?_eraseVersion]
      split
      · next hkey => rw [hkey.1, hkey.2.1, hkey.2.2.1, hkey.2.2.2, hv]
      · rfl

theorem contents_eraseFrom (ts : Tables) (t : TreeId) (b : BranchId) (start : NodeId) :
    (ts.eraseFrom t b start).contents.Perm
      (ts.contents.filter fun r => !r.isFrom t b start) := by
  refine (List.perm_ext_iff_of_nodup (nodup_contents _) ((nodup_contents _).filter _)).2
    fun r => ?_
  rw [List.mem_filter, mem_contents_iff, mem_contents_iff, recorded, recorded, version?_eraseFrom]
  split
  · next hkey => simp [Record.isFrom, hkey]
  · next hkey => simp only [Record.isFrom, hkey, decide_false, Bool.not_false, and_true]

/-- What is erased are the versions of the branch from the node on. -/
theorem contents_from (ts : Tables) (t : TreeId) (b : BranchId) (start : NodeId) :
    (ts.contents.filter (Record.isFrom t b start)).Perm
      (((ts.nodesOf t b).restrict (start ≤ ·)).toList.map (Record.mk t b)) := by
  refine (List.perm_ext_iff_of_nodup ((nodup_contents _).filter _) (nodup_records ..)).2
    fun r => ?_
  obtain ⟨u, c, v⟩ := r
  rw [List.mem_filter, mem_contents_iff, List.mem_map, Nodes.toList_restrict]
  constructor
  · rintro ⟨hv, hkey⟩
    obtain ⟨rfl, rfl, hstart⟩ := of_decide_eq_true hkey
    exact ⟨v, List.mem_filter.2 ⟨Nodes.mem_toList_iff.2 hv, decide_eq_true hstart⟩, rfl⟩
  · rintro ⟨w, hw, heq⟩
    cases heq
    obtain ⟨hw, hstart⟩ := List.mem_filter.1 hw
    exact ⟨Nodes.mem_toList_iff.1 hw, decide_eq_true ⟨rfl, rfl, of_decide_eq_true hstart⟩⟩

theorem versionCount_eraseFrom (ts : Tables) (t : TreeId) (b : BranchId) (start : NodeId) :
    (ts.eraseFrom t b start).versionCount + ts.countFrom t b start = ts.versionCount := by
  have hcount := List.length_eq_length_filter_add (l := ts.contents) (Record.isFrom t b start)
  rw [(contents_from ts t b start).length_eq, ← (contents_eraseFrom ts t b start).length_eq,
    List.length_map, ← Nodes.size_eq_length, length_contents, length_contents] at hcount
  rw [hcount, countFrom, Nat.add_comm]

/-! ## What was added -/

/-- The versions of `us` under whose place there was nothing in `ts`. -/
def gained (ts us : Tables) : List Record := us.contents.filter fun r => (ts.recorded r).isNone

theorem gained_eq_nil
    (h : ∀ u c n x, ts.version? u c n x = none → us.version? u c n x = none) :
    ts.gained us = [] := by
  refine List.filter_eq_nil_iff.2 fun r hr hnone => ?_
  rw [Option.isNone_iff_eq_none] at hnone
  cases (mem_contents_iff.1 hr).symm.trans (h _ _ _ _ hnone)

theorem gained_of_added {t : TreeId} {b : BranchId} {v : Version}
    (hfresh : ts.version? t b v.node v.transaction = none)
    (h : ∀ u c n x, us.version? u c n x =
      if u = t ∧ c = b ∧ n = v.node ∧ x = v.transaction then some v else ts.version? u c n x) :
    ts.gained us = [⟨t, b, v⟩] := by
  have hold : ts.contents.filter (fun r => (ts.recorded r).isNone) = [] :=
    gained_eq_nil fun _ _ _ _ => id
  have hnew : (ts.recorded ⟨t, b, v⟩).isNone = true := Option.isNone_iff_eq_none.2 hfresh
  have hperm := (contents_of_added hfresh h).filter fun r => (ts.recorded r).isNone
  rw [List.filter_cons, if_pos hnew, hold] at hperm
  exact List.perm_singleton.1 hperm

end Tables

end Chronicle
