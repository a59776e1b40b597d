import Chronicle.Proofs.Preceding
import Chronicle.Storage.Flat
import Chronicle.Storage.Tables.Views

/-!
# The store in memory against flat tables

The backend in memory nests its maps: trees, branches, nodes, versions. Asked for anything, in any
order and with any faults, it answers like a backend with two flat tables.

* `FlatTables.Represents`: flat tables and nested ones show the same entries. A lemma for each
  change says that it keeps this, and one for each answer that it is the same on both.
* `StoreCall`: the calls of a backend, as data.
* `Tables.Canonical`: every entry is listed under its own ids, and no level holds an empty one.
* `memory_refines_flat`: the result, for every sequence of calls and armed faults.
-/
namespace Chronicle

/-- The newest versions of the nodes are enough to find the largest transaction. -/
theorem Nodes.largest?_eq (ns : Nodes) :
    ns.largest? = (ns.toList.map (·.transaction)).max? := by
  cases hlargest : ns.largest? with
  | none =>
    rw [largest?_eq_none hlargest]
    rfl
  | some x =>
    obtain ⟨⟨v, hv, hx⟩, hle⟩ := largest?_eq_some hlargest
    refine (List.max?_eq_some_iff.2 ⟨List.mem_map.2 ⟨v, hv, hx⟩, fun y hy => ?_⟩).symm
    obtain ⟨w, hw, rfl⟩ := List.mem_map.1 hy
    exact hle w hw

def Version.key (t : TreeId) (b : BranchId) (v : Version) : VersionKey :=
  .of t b v.node v.transaction

namespace VersionKey

theorem of_inj {t u : TreeId} {b c : BranchId} {n m : NodeId} {x y : TransactionId} :
    of t b n x = of u c m y ↔ t = u ∧ b = c ∧ n = m ∧ x = y := by
  simp [of, and_assoc]

theorem isOn_of (t u : TreeId) (b c : BranchId) (p : NodeId → Bool) (n : NodeId)
    (x : TransactionId) : isOn t b p (of u c n x) = (u = t && c = b && p n) :=
  rfl

theorem of_lt_of_iff {t : TreeId} {b : BranchId} {n m : NodeId} {x y : TransactionId} :
    of t b n x < of t b m y ↔ Position.isAfter ⟨m, y⟩ ⟨n, x⟩ = true := by
  simp only [of, KeyPair.lt_def, Descending.lt_def, Std.lt_irrefl, false_or, true_and,
    Position.isAfter, Bool.or_eq_true, Bool.and_eq_true, decide_eq_true_eq]
  exact or_congr_right (and_congr_left fun _ => eq_comm)

end VersionKey

/-! ## The same content -/

namespace FlatTables

/-- The flat tables show what the nested ones store. -/
structure Represents (fs : FlatTables) (ts : Tables) : Prop where
  hasTree : ∀ t, fs.hasTree t = ts.hasTree t
  row? : ∀ t b, fs.row? t b = ts.row? t b
  version? : ∀ t b n x, fs.version? t b n x = ts.version? t b n x

namespace Represents

variable {fs : FlatTables} {ts : Tables}

theorem empty : FlatTables.empty.Represents Tables.empty :=
  ⟨fun _ => rfl, fun _ _ => rfl, fun _ _ _ _ => rfl⟩

theorem rows_keyed (h : fs.Represents ts) : fs.rows.KeyedBy BranchRow.key := by
  intro k row hk
  obtain ⟨htree, hbranch⟩ := Tables.row?_own ((h.row? k.fst k.snd).symm.trans hk)
  rw [BranchRow.key, htree, hbranch]

theorem versionsOn_keyed (h : fs.Represents ts) (t : TreeId) (b : BranchId) (p : NodeId → Bool) :
    (fs.versionsOn t b p).KeyedBy (Version.key t b) := by
  intro k v hk
  obtain ⟨⟨u, c⟩, n, ⟨x⟩⟩ := k
  change (fs.versionsOn t b p).get? (.of u c n x) = some v at hk
  rw [versionsOn, SortedMap.get?_filterKeys, VersionKey.isOn_of] at hk
  split at hk
  · next hon =>
    simp only [Bool.and_eq_true, decide_eq_true_eq] at hon
    obtain ⟨⟨rfl, rfl⟩, -⟩ := hon
    obtain ⟨rfl, rfl⟩ := Tables.version?_own ((h.version? u c n x).symm.trans hk)
    rfl
  · cases hk

/-! ## Changes -/

theorem upsertRow (h : fs.Represents ts) (row : BranchRow) :
    (fs.upsertRow row).Represents (ts.upsertRow row) where
  hasTree t := by
    rw [Tables.hasTree_upsertRow, ← h.hasTree]
    exact SortedMap.contains_insert ..
  row? t b := by
    rw [Tables.row?_upsertRow, ← h.row?, FlatTables.row?, FlatTables.upsertRow,
      SortedMap.get?_insert]
    simp only [KeyPair.mk.injEq, FlatTables.row?]
  version? t b n x := by
    rw [Tables.version?_upsertRow]
    exact h.version? t b n x

theorem eraseRow (h : fs.Represents ts) (t : TreeId) (b : BranchId) :
    (fs.eraseRow t b).Represents (ts.eraseRow t b) where
  hasTree u := by
    rw [Tables.hasTree_eraseRow]
    exact h.hasTree u
  row? u c := by
    rw [Tables.row?_eraseRow, ← h.row?, FlatTables.row?, FlatTables.eraseRow,
      SortedMap.get?_erase]
    simp only [KeyPair.mk.injEq, FlatTables.row?]
  version? u c n x := by
    rw [Tables.version?_eraseRow]
    exact h.version? u c n x

theorem insertVersion (h : fs.Represents ts) (t : TreeId) (b : BranchId) (v : Version) :
    (fs.insertVersion t b v).2.Represents (ts.insertVersion t b v).2 where
  hasTree u := by
    rw [Tables.hasTree_insertVersion, ← h.hasTree]
    unfold FlatTables.insertVersion
    split <;> exact SortedMap.contains_insert ..
  row? u c := by
    rw [Tables.row?_insertVersion, ← h.row?]
    unfold FlatTables.insertVersion
    split <;> rfl
  version? u c n x := by
    rw [Tables.version?_insertVersion, ← h.version?]
    unfold FlatTables.insertVersion
    split
    · next old hold =>
      -- the place is taken, and the table stays as it was
      change fs.version? u c n x = _
      split
      · next hplace =>
        obtain ⟨rfl, rfl, rfl, rfl⟩ := hplace
        rw [hold, Option.getD_some]
      · rfl
    · next hnone =>
      change (fs.versions.insert _ v).get? (.of u c n x) = _
      rw [SortedMap.get?_insert]
      simp only [VersionKey.of_inj]
      split
      · next hplace =>
        obtain ⟨rfl, rfl, rfl, rfl⟩ := hplace
        rw [hnone, Option.getD_none]
      · rfl

theorem insertVersion_fst (h : fs.Represents ts) (t : TreeId) (b : BranchId) (v : Version) :
    (fs.insertVersion t b v).1 = (ts.insertVersion t b v).1 := by
  rw [Tables.insertVersion_fst, ← h.version?]
  unfold FlatTables.insertVersion
  split <;> next hplace => rw [hplace]; rfl

theorem eraseFrom (h : fs.Represents ts) (t : TreeId) (b : BranchId) (start : NodeId) :
    (fs.eraseFrom t b start).Represents (ts.eraseFrom t b start) where
  hasTree u := by
    rw [Tables.hasTree_eraseFrom]
    exact h.hasTree u
  row? u c := by
    rw [Tables.row?_eraseFrom]
    exact h.row? u c
  version? u c n x := by
    rw [Tables.version?_eraseFrom, ← h.version?, FlatTables.version?, FlatTables.eraseFrom,
      SortedMap.get?_filterKeys, VersionKey.isOn_of]
    by_cases hon : u = t ∧ c = b ∧ start ≤ n
    · simp [hon]
    · rw [if_neg hon, if_pos]
      · rfl
      · simpa only [Bool.not_eq_true', ← Bool.not_eq_true, Bool.and_eq_true, decide_eq_true_eq,
          and_assoc] using hon

theorem eraseVersion (h : fs.Represents ts) (t : TreeId) (b : BranchId) (n : NodeId)
    (x : TransactionId) : (fs.eraseVersion t b n x).Represents (ts.eraseVersion t b n x) where
  hasTree u := by
    rw [Tables.hasTree_eraseVersion]
    exact h.hasTree u
  row? u c := by
    rw [Tables.row?_eraseVersion]
    exact h.row? u c
  version? u c m y := by
    rw [Tables.version?_eraseVersion, ← h.version?, FlatTables.version?, FlatTables.eraseVersion,
      SortedMap.get?_erase]
    simp only [VersionKey.of_inj, FlatTables.version?]

/-- A tree that is forgotten has to be empty, or its rows and versions would go with it. -/
theorem eraseTree (h : fs.Represents ts) {t : TreeId} (hempty : ts.isEmptyTree t = true) :
    (fs.eraseTree t).Represents (ts.eraseTree t) := by
  obtain ⟨-, hrows, hversions⟩ := Tables.isEmptyTree_iff.1 hempty
  refine ⟨fun u => ?_, fun u c => ?_, fun u c n x => ?_⟩
  · rw [Tables.hasTree_eraseTree, ← h.hasTree]
    exact SortedMap.contains_erase ..
  · change fs.row? u c = _
    rw [h.row?, Tables.row?, Tables.row?, Tables.tree_eraseTree]
    split
    · next hu =>
      subst hu
      exact hrows c
    · rfl
  · change fs.version? u c n x = _
    rw [h.version?, Tables.version?, Tables.version?, Tables.nodesOf, Tables.nodesOf,
      Tables.tree_eraseTree]
    split
    · next hu =>
      subst hu
      exact hversions c n x
    · rfl

/-! ## Answers -/

theorem rowsOf (h : fs.Represents ts) (t : TreeId) : fs.rowsOf t = ts.rowsOf t := by
  have htree : ∀ row ∈ ts.rowsOf t, row.tree = t := by
    intro row hrow
    obtain ⟨b, hb⟩ := Tables.mem_rowsOf_iff.1 hrow
    exact (Tables.row?_own hb).1
  refine (h.rows_keyed.filterKeys _).values_eq ?_ fun row => ?_
  · refine (Tables.rowsOf_ascending ts t).imp_of_mem fun {row other} hrow hother hlt => ?_
    exact .inr ⟨(htree row hrow).trans (htree other hother).symm, hlt⟩
  · rw [SortedMap.get?_filterKeys, Tables.mem_rowsOf_iff]
    constructor
    · intro hrow
      obtain ⟨b, hb⟩ := hrow
      obtain ⟨rfl, rfl⟩ := Tables.row?_own hb
      exact (if_pos (decide_eq_true rfl)).trans ((h.row? _ _).trans hb)
    · intro hrow
      split at hrow
      · next ht =>
        obtain rfl := of_decide_eq_true ht
        exact ⟨row.branch, (h.row? _ _).symm.trans hrow⟩
      · cases hrow

theorem rows (h : fs.Represents ts) : fs.rows.values = ts.rows :=
  h.rows_keyed.values_eq (Tables.rows_ascending ts) fun row => by
    rw [Tables.mem_rows_iff, ← h.row?]
    rfl

theorem scan (h : fs.Represents ts) (after : Option (TreeId × BranchId)) (limit : UInt64) :
    fs.scan after limit = ts.scan after limit := by
  have hafter : ∀ row : BranchRow, (after.all fun key => (⟨key.1, key.2⟩ : RowKey) < row.key) =
      after.all fun key => key.1 < row.tree || (row.tree = key.1 && key.2 < row.branch) := by
    intro row
    cases after with
    | none => rfl
    | some key => simp [KeyPair.lt_def, BranchRow.key, eq_comm]
  unfold FlatTables.scan Tables.scan
  dsimp only
  rw [h.rows_keyed.values_filterKeys, h.rows]
  simp only [hafter]

theorem versionsOn (h : fs.Represents ts) (t : TreeId) (b : BranchId) (p : NodeId → Bool) :
    (fs.versionsOn t b p).values = ((ts.nodesOf t b).restrict p).toList := by
  refine (h.versionsOn_keyed t b p).values_eq ?_ fun v => ?_
  · exact (Nodes.toList_ascending _).imp VersionKey.of_lt_of_iff.2
  · rw [Nodes.mem_toList_iff, Nodes.get?_restrict, FlatTables.versionsOn,
      SortedMap.get?_filterKeys, Version.key, VersionKey.isOn_of]
    simp only [decide_true, Bool.true_and]
    split
    · change ts.version? t b v.node v.transaction = _ ↔ fs.version? t b v.node v.transaction = _
      rw [h.version?]
    · rfl

theorem read (h : fs.Represents ts) (t : TreeId) (b : BranchId) (q : RangeQuery) :
    fs.read t b q = ts.read t b q := by
  have hafter : ∀ v : Version,
      (q.after.all fun p => VersionKey.of t b p.node p.transaction < v.key t b) =
        q.after.all fun p => v.position.isAfter p := by
    intro v
    cases q.after with
    | none => rfl
    | some p => simp [Version.key, VersionKey.of_lt_of_iff, Version.position]
  unfold FlatTables.read Tables.read
  dsimp only
  rw [(h.versionsOn_keyed t b _).values_filterKeys, h.versionsOn]
  simp only [hafter]

theorem countFrom (h : fs.Represents ts) (t : TreeId) (b : BranchId) (start : NodeId) :
    fs.countFrom t b start = ts.countFrom t b start := by
  rw [Tables.countFrom, Nodes.size_eq_length, ← h.versionsOn, SortedMap.values, List.length_map]
  rfl

theorem maxTransaction (h : fs.Represents ts) (t : TreeId) (b : BranchId) (min before : NodeId) :
    fs.maxTransaction t b min before = ts.maxTransaction t b min before := by
  rw [FlatTables.maxTransaction, h.versionsOn, Tables.maxTransaction, Nodes.largest?_eq]

theorem isEmptyTree (h : fs.Represents ts) (t : TreeId) :
    fs.isEmptyTree t = ts.isEmptyTree t := by
  rw [Bool.eq_iff_iff, Tables.isEmptyTree_iff, FlatTables.isEmptyTree, Bool.and_eq_true,
    Bool.and_eq_true, and_assoc, h.hasTree, SortedMap.isEmpty_filterKeys_iff,
    SortedMap.isEmpty_filterKeys_iff]
  refine and_congr_right fun _ => and_congr ⟨fun hrows b => ?_, fun hrows k hk => ?_⟩
    ⟨fun hversions b n x => ?_, fun hversions k hk => ?_⟩
  · exact (h.row? t b).symm.trans (hrows ⟨t, b⟩ (decide_eq_true rfl))
  · obtain rfl := of_decide_eq_true hk
    exact (h.row? k.fst k.snd).trans (hrows k.snd)
  · exact (h.version? t b n x).symm.trans (hversions (.of t b n x) (decide_eq_true rfl))
  · obtain rfl := of_decide_eq_true hk
    exact (h.version? k.tree k.branch k.node k.snd.snd.value).trans (hversions ..)

end Represents

end FlatTables

/-! ## Calls -/

inductive StoreCall where
  | upsertBranch (row : BranchRow)
  | getBranch (t : TreeId) (b : BranchId)
  | treeBranches (t : TreeId)
  | deleteBranch (t : TreeId) (b : BranchId)
  | scanBranches (after : Option (TreeId × BranchId)) (limit : UInt64)
  | insertVersion (t : TreeId) (b : BranchId) (v : Version)
  | getVersion (t : TreeId) (b : BranchId) (n : NodeId) (x : TransactionId)
  | maxTransaction (t : TreeId) (b : BranchId) (min before : NodeId)
  | readVersions (t : TreeId) (b : BranchId) (q : RangeQuery)
  | deleteFrom (t : TreeId) (b : BranchId) (start : NodeId)
  | deleteVersion (t : TreeId) (b : BranchId) (n : NodeId) (x : TransactionId)
  | dropTreeIfEmpty (t : TreeId)
  deriving DecidableEq, Repr

namespace StoreCall

abbrev Answer : StoreCall → Type
  | upsertBranch .. => Unit
  | getBranch .. => Option BranchRow
  | treeBranches .. => List BranchRow
  | deleteBranch .. => Bool
  | scanBranches .. => List BranchRow
  | insertVersion .. => Insertion
  | getVersion .. => Option Version
  | maxTransaction .. => Option TransactionId
  | readVersions .. => List Version
  | deleteFrom .. => Nat
  | deleteVersion .. => Bool
  | dropTreeIfEmpty .. => Bool

def perform {σ : Type} [Backend σ] : (c : StoreCall) → Call σ c.Answer
  | upsertBranch row => Backend.upsertBranch row
  | getBranch t b => Backend.getBranch t b
  | treeBranches t => Backend.treeBranches t
  | deleteBranch t b => Backend.deleteBranch t b
  | scanBranches after limit => Backend.scanBranches after limit
  | insertVersion t b v => Backend.insertVersion t b v
  | getVersion t b n x => Backend.getVersion t b n x
  | maxTransaction t b min before => Backend.maxTransaction t b min before
  | readVersions t b q => Backend.readVersions t b q
  | deleteFrom t b start => Backend.deleteFrom t b start
  | deleteVersion t b n x => Backend.deleteVersion t b n x
  | dropTreeIfEmpty t => Backend.dropTreeIfEmpty t

end StoreCall

/-- The answer of a call or its failure, and the state after it. -/
def Call.outcome {σ α : Type} (call : Call σ α) (s : σ) : Except BackendError α × σ :=
  match call s with
  | .ok a t => (.ok a, t)
  | .error e t => (.error e, t)

inductive StoreEvent where
  | call (c : StoreCall)
  /-- A fault is armed. -/
  | arm (fault : ArmedFault)
  deriving DecidableEq, Repr

/-- A call and what came of it. -/
abbrev Response := (c : StoreCall) × Except BackendError c.Answer

/-- What comes of the calls of a sequence, one after the other, and the state after them. -/
def StoreEvent.run {σ : Type} [Backend σ] (arm : σ → ArmedFault → σ) :
    List StoreEvent → σ → List Response × σ
  | [], s => ([], s)
  | .arm fault :: rest, s => run arm rest (arm s fault)
  | .call c :: rest, s =>
    let (answer, t) := c.perform.outcome s
    let (responses, u) := run arm rest t
    (⟨c, answer⟩ :: responses, u)

/-- A flat store shows what the one in memory stores, and waits for the same fault. -/
structure FlatStore.Represents (z : FlatStore) (s : MemoryStore) : Prop where
  tables : z.tables.Represents s.tables
  fault : z.fault = s.fault

/-- Table operations that answer alike and keep the same content do so behind any fault. -/
theorem FlatStore.Represents.answer {α : Type} {z : FlatStore} {s : MemoryStore}
    (h : z.Represents s) {f : FlatTables → α × FlatTables} {g : Tables → α × Tables}
    (hfst : (f z.tables).1 = (g s.tables).1)
    (hsnd : (f z.tables).2.Represents (g s.tables).2) :
    (Call.outcome (FlatStore.answer f) z).1 = (Call.outcome (MemoryStore.answer g) s).1 ∧
      (Call.outcome (FlatStore.answer f) z).2.Represents
        (Call.outcome (MemoryStore.answer g) s).2 := by
  obtain ⟨fs, fault⟩ := z
  obtain ⟨ts, _⟩ := s
  obtain ⟨htables, rfl⟩ := h
  unfold Call.outcome FlatStore.answer MemoryStore.answer
  match fault with
  | none => exact ⟨congrArg Except.ok hfst, hsnd, rfl⟩
  | some ⟨0, failure⟩ => exact ⟨rfl, htables, rfl⟩
  | some ⟨n + 1, failure⟩ => exact ⟨congrArg Except.ok hfst, hsnd, rfl⟩

namespace StoreCall

/-- Either store gives the same answer to a call, and they still store the same after it. -/
theorem perform_represents {z : FlatStore} {s : MemoryStore} (h : z.Represents s)
    (c : StoreCall) :
    (c.perform.outcome z).1 = (c.perform.outcome s).1 ∧
      (c.perform.outcome z).2.Represents (c.perform.outcome s).2 := by
  have ht := h.tables
  cases c <;> simp only [perform, Backend.upsertBranch, Backend.getBranch, Backend.treeBranches,
    Backend.deleteBranch, Backend.scanBranches, Backend.insertVersion, Backend.getVersion,
    Backend.maxTransaction, Backend.readVersions, Backend.deleteFrom, Backend.deleteVersion,
    Backend.dropTreeIfEmpty]
  case upsertBranch row => exact h.answer rfl (ht.upsertRow row)
  case getBranch t b => exact h.answer (ht.row? t b) ht
  case treeBranches t => exact h.answer (ht.rowsOf t) ht
  case deleteBranch t b =>
    exact h.answer (congrArg Option.isSome (ht.row? t b)) (ht.eraseRow t b)
  case scanBranches after limit => exact h.answer (ht.scan after limit) ht
  case insertVersion t b v => exact h.answer (ht.insertVersion_fst t b v) (ht.insertVersion t b v)
  case getVersion t b n x => exact h.answer (ht.version? t b n x) ht
  case maxTransaction t b min before => exact h.answer (ht.maxTransaction t b min before) ht
  case readVersions t b q => exact h.answer (ht.read t b q) ht
  case deleteFrom t b start => exact h.answer (ht.countFrom t b start) (ht.eraseFrom t b start)
  case deleteVersion t b n x =>
    exact h.answer (congrArg Option.isSome (ht.version? t b n x)) (ht.eraseVersion t b n x)
  case dropTreeIfEmpty t =>
    refine h.answer ?_ ?_
    · rw [ht.isEmptyTree]
      split <;> rfl
    · rw [ht.isEmptyTree]
      split
      · next hempty => exact ht.eraseTree hempty
      · exact ht

end StoreCall

/-! ## Canonical form -/

/-- Every entry is listed under its own ids, and no level lists an empty one. -/
structure Tables.Canonical (ts : Tables) : Prop where
  rows : ∀ t tree b row, ts.trees.get? t = some tree → tree.rows.get? b = some row →
    row.tree = t ∧ row.branch = b
  nodes : ∀ t tree b ns, ts.trees.get? t = some tree → tree.nodes.get? b = some ns →
    ns.isEmpty = false
  sets : ∀ t tree b ns n vs, ts.trees.get? t = some tree → tree.nodes.get? b = some ns →
    ns.sets.get? n = some vs → vs.isEmpty = false
  versions : ∀ t tree b ns n vs x v, ts.trees.get? t = some tree → tree.nodes.get? b = some ns →
    ns.sets.get? n = some vs → vs.get? x = some v → v.node = n ∧ v.transaction = x

/-- The types of the nested maps admit nothing else: every operation on them shows that it keeps
this. -/
theorem Tables.canonical (ts : Tables) : ts.Canonical where
  rows t tree b row ht hrow := ⟨ts.own t tree ht b row hrow, tree.own b row hrow⟩
  nodes _ tree b ns _ hns := tree.inhabited b ns hns
  sets _ _ _ ns n vs _ _ hvs := ns.inhabited n vs hvs
  versions t tree b ns n vs x v _ _ hvs hv := by
    obtain ⟨hmem, hx⟩ := VersionSet.get?_eq_some_iff.1 hv
    exact ⟨ns.own n vs hvs v hmem, hx⟩

/-! ## Sequences of calls -/

namespace StoreEvent

/-- Either store gives the same answers to a sequence of calls, and they still store the same after
it. -/
theorem run_represents (es : List StoreEvent) {z : FlatStore} {s : MemoryStore}
    (h : z.Represents s) :
    (run FlatStore.arm es z).1 = (run MemoryStore.arm es s).1 ∧
      (run FlatStore.arm es z).2.Represents (run MemoryStore.arm es s).2 := by
  induction es generalizing z s with
  | nil => exact ⟨rfl, h⟩
  | cons e rest ih =>
    cases e with
    | arm fault => exact ih ⟨h.tables, rfl⟩
    | call c =>
      obtain ⟨hanswer, hafter⟩ := StoreCall.perform_represents h c
      obtain ⟨hrest, hend⟩ := ih hafter
      exact ⟨List.cons_eq_cons.2 ⟨congrArg (Sigma.mk c) hanswer, hrest⟩, hend⟩

end StoreEvent

theorem StoreCall.outcome_of_due (c : StoreCall) (s : MemoryStore) (e : BackendError) :
    c.perform.outcome (s.arm ⟨0, e⟩) = (.error e, { s with fault := none }) := by
  cases c <;> rfl

/-- Whatever is asked of an empty store in memory and whenever calls fail, it answers like a store
with two flat tables and stays in canonical form, and a call that fails changes nothing. -/
theorem memory_refines_flat (es : List StoreEvent) :
    let memory := StoreEvent.run MemoryStore.arm es .empty
    let flat := StoreEvent.run FlatStore.arm es .empty
    memory.1 = flat.1 ∧ flat.2.Represents memory.2 ∧ memory.2.tables.Canonical ∧
      ∀ (c : StoreCall) (e : BackendError),
        c.perform.outcome (memory.2.arm ⟨0, e⟩) = (.error e, { memory.2 with fault := none }) := by
  intro memory flat
  have hempty : FlatStore.empty.Represents MemoryStore.empty := ⟨.empty, rfl⟩
  obtain ⟨hanswers, hend⟩ := StoreEvent.run_represents es hempty
  exact ⟨hanswers.symm, hend, memory.2.tables.canonical, fun c e => c.outcome_of_due memory.2 e⟩

end Chronicle
