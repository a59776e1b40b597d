import Chronicle.Proofs.Independence
import Chronicle.Proofs.Losses
import Chronicle.Proofs.Run
import Chronicle.Proofs.Storing

/-!
# Repeating interrupted operations

An append stores a row before it stores a version, a deletion removes a row before it collects
versions, and a removal takes several calls to remove its versions. A fault between two of these
calls leaves a content that no single call leaves. Whichever it is, repeating the request ends where
it would have ended without the fault.

* `writing`, `trimming`, `deleting`: the courses of the operations.
* `perform_converges`: the result.
-/
namespace Chronicle

open Archive (State)
open Chronicle.Action (Restarts Attempts)

/-! ## Courses -/

/-- The course of an append: the row of a new branch, then the version. -/
def writing (a : Archive) (d : Deadline) (isNew : Bool) (q : Token) (info : String) (v : Version) :
    Course where
  given _ := True
  ready ts := a.Accepts d isNew ts q v
  stage ts us := ∃ now, ts.Begins ⟨q, info, now⟩ v us
  done ts us := ∃ now, us = ts.written ⟨q, info, now⟩ v
  keep _ _ := trivial
  resume _ hready hstage :=
    have ⟨_, hbegins⟩ := hstage
    ⟨hready.version, hready.time, hbegins.admits hready.admits⟩
  advance _ hstage hlater := by
    obtain ⟨now, -, -, rfl⟩ := hstage
    obtain ⟨later, hbegins⟩ := hlater
    cases hbegins.absent.symm.trans (Tables.row?_upsertRow_self ..)
  finish _ hstage hdone := by
    obtain ⟨now, hbegins⟩ := hstage
    obtain ⟨later, rfl⟩ := hdone
    exact ⟨now, hbegins.written⟩
  unique _ h h' := by
    obtain ⟨now, rfl⟩ := h
    obtain ⟨later, rfl⟩ := h'
    exact Tables.sameButDates_written ..

/-- The course of a trim. A branch has fewer versions than a question may ask for. -/
def trimming (a : Archive) (leases : LeaseTable) (req : TrimRequest) (q : Token) : Course where
  given ts := (ts.nodesOf q.tree q.branch).toList.length < UInt64.size
  ready ts := a.AcceptsTrim leases req ts q
  stage ts us := ts.Loses q.tree (Beyond q.branch req.node req.transaction) us
  done ts us := ts.Trimmed q.tree q.branch req.node req.transaction us
  keep hgiven hstage := Nat.lt_of_le_of_lt (hstage.length_le ..) hgiven
  resume _ hready hstage := by
    obtain ⟨hlease, htoken, htime, ⟨row, hrow, hown⟩, hlimit, hwatermark, hheirs⟩ := hready
    refine ⟨hlease, htoken, htime, ⟨row, (hstage.rows ..).trans hrow, hown⟩, hlimit, ?_, ?_⟩
    · rw [hstage.version?_eq fun h => h.2.2 ⟨rfl, rfl⟩]
      exact hwatermark
    · rw [hstage.rowsOf]
      exact hheirs
  advance _ hstage hlater := hstage.trans hlater
  finish _ hstage hdone := hstage.trimmed hdone
  unique hgiven h h' := .of_eq ((h.all hgiven).unique (h'.all hgiven))

namespace Tables

variable {ts us : Tables} {q : Token}

theorem eraseRow_of_none {t : TreeId} {b : BranchId} (h : ts.row? t b = none) :
    ts.eraseRow t b = ts := by
  apply ext_views
  · intro u
    exact hasTree_eraseRow ..
  · intro u c
    rw [row?_eraseRow]
    split
    · next hc => rw [hc.1, hc.2, h]
    · rfl
  · intro u c n x
    exact version?_eraseRow ..

/-- The spans of the row are those of the token, if their lineages are the same. -/
theorem spansOf_of_lineage
    (h : ∀ row, ts.row? q.tree q.branch = some row → row.token.lineage = q.lineage) :
    ts.spansOf q = q.spans := by
  unfold spansOf
  cases hrow : ts.row? q.tree q.branch with
  | none => rfl
  | some row =>
    have hbranch : row.token.branch = q.branch := (row?_own hrow).2
    show row.token.spans = q.spans
    rw [Token.spans, Token.ownSpan, Token.ownStart, h row hrow, hbranch]
    rfl

/-- The row is removed, and some of the versions to be collected. -/
def Orphans (ts : Tables) (q : Token) (us : Tables) : Prop :=
  (ts.eraseRow q.tree q.branch).Loses q.tree (ts.Orphaned q) us

theorem Orphans.row? (h : ts.Orphans q us) : us.row? q.tree q.branch = none := by
  rw [Loses.rows h, row?_eraseRow, if_pos ⟨rfl, rfl⟩]

theorem Orphans.lineage (h : ts.Orphans q us) :
    ∀ row, us.row? q.tree q.branch = some row → row.token.lineage = q.lineage := by
  intro row hrow
  cases h.row?.symm.trans hrow

theorem Orphans.orphaned (h : ts.Orphans q us)
    (hlineage : ∀ row, ts.row? q.tree q.branch = some row → row.token.lineage = q.lineage) :
    us.Orphaned q = ts.Orphaned q := by
  rw [Orphaned, eraseRow_of_none h.row?, Loses.rowsOf h, spansOf_of_lineage h.lineage, Orphaned,
    spansOf_of_lineage hlineage]

end Tables

/-- The course of a deletion: the row, what no row reaches any more, and the tree if it is empty. -/
def deleting (a : Archive) (leases : LeaseTable) (req : DeleteRequest) (q : Token) : Course where
  given ts := ∀ row, ts.row? q.tree q.branch = some row → row.token.lineage = q.lineage
  ready _ := a.AcceptsDelete leases req q
  stage ts us := ts.Orphans q us
  done ts us := ∃ vs, (ts.eraseRow q.tree q.branch).LosesAll q.tree (ts.Orphaned q) vs ∧
    us = if vs.isEmptyTree q.tree then vs.eraseTree q.tree else vs
  keep _ hstage := hstage.lineage
  resume _ hready _ := hready
  advance hgiven hstage hlater := by
    rw [Tables.Orphans, hstage.orphaned hgiven, Tables.eraseRow_of_none hstage.row?] at hlater
    exact Tables.Loses.trans hstage hlater
  finish hgiven hstage hdone := by
    rw [hstage.orphaned hgiven, Tables.eraseRow_of_none hstage.row?] at hdone
    obtain ⟨vs, hvs, hdrop⟩ := hdone
    exact ⟨vs, Tables.Loses.all hstage hvs, hdrop⟩
  unique _ h h' := by
    obtain ⟨vs, hvs, rfl⟩ := h
    obtain ⟨ws, hws, rfl⟩ := h'
    rw [hvs.unique hws]
    exact .refl _

/-! ## Operations -/

namespace Archive

variable {leases : LeaseTable} {given : Tables → Prop}

theorem store_restarts (a : Archive) (d : Deadline) (req : WriteRequest) (q : Token) (v : Version) :
    Restarts leases (a.store d req q v) given := by
  refine ⟨writing a d req.isNewBranch q req.info v, fun _ _ => trivial, fun now ts _ => ?_⟩
  apply (store_settles a d req q v ts).imp
  · intro r us h
    exact ⟨h.1, now, h.2.1⟩
  · intro us h
    exact h.symm
  · intro us h
    exact h.imp_right fun h => ⟨h.1, now, h.2⟩

theorem append_restarts (a : Archive) (req : WriteRequest) (es : List Event) :
    Restarts leases (a.append req es) given := by
  refine .checkLease ?_
  split
  · exact .throw
  · exact .lift fun q _ => .lift fun blob _ => store_restarts ..

theorem appendRaw_restarts (a : Archive) (req : WriteRequest) (node : NodeId) (blob : Bytes) :
    Restarts leases (a.appendRaw req node blob) given := by
  refine .checkLease ?_
  dsimp only
  split
  · exact .throw_bind
  split
  · exact .throw_bind
  exact .lift fun q _ => store_restarts ..

theorem trim_restarts (a : Archive) (req : TrimRequest) :
    Restarts leases (a.trim req) fun ts => ∀ t b, (ts.nodesOf t b).toList.length < UInt64.size := by
  refine .of_unique (trimming a leases req) ?_ ?_ (fun now => trim_settles a req)
  · intro q p ts us h h'
    exact Except.ok.inj (h.token.symm.trans h'.token)
  · intro q ts us _ hsize
    exact hsize ..

theorem delete_restarts (a : Archive) (req : DeleteRequest) :
    Restarts leases (a.delete req) fun ts => ∀ q, Token.decode req.token = .ok q →
      ∀ row, ts.row? q.tree q.branch = some row → row.token.lineage = q.lineage := by
  refine .of_unique (deleting a leases req) ?_ ?_ (fun now => delete_settles a req)
  · intro q p ts us h h'
    exact Except.ok.inj (h.token.symm.trans h'.token)
  · intro q ts us h hlineage
    exact hlineage q h.token

end Archive

/-! ## Repetitions -/

/-- Repeating the operation asks for the same change, since it draws no id. -/
def Operation.IsRepeatable : Operation → Prop
  | newBranch .. => False
  | append .. => True
  | fork _ => False
  | remove _ => True

/-- The row of the branch, if there is one, has the lineage of the token that names the branch. -/
def Operation.NamesLineage (ts : Tables) (op : Operation) : Prop :=
  ∀ q ∈ op.target?, ∀ row, ts.row? q.tree q.branch = some row → row.token.lineage = q.lineage

namespace Tables

theorem le_foldr_add {α : Type} {f : α → Nat} {a : α} {l : List α} (h : a ∈ l) :
    f a ≤ l.foldr (f · + ·) 0 := by
  induction l with
  | nil => cases h
  | cons b l ih =>
    rw [List.foldr_cons]
    rcases List.mem_cons.1 h with rfl | h
    · exact Nat.le_add_right ..
    · exact Nat.le_trans (ih h) (Nat.le_add_left ..)

theorem length_le_versionCount (ts : Tables) (t : TreeId) (b : BranchId) :
    (ts.nodesOf t b).toList.length ≤ ts.versionCount := by
  rw [← Nodes.size_eq_length, nodesOf, tree]
  cases htree : ts.trees.get? t with
  | none => exact Nat.zero_le _
  | some tree =>
    have hsize : (tree.nodesOf b).size ≤ tree.versionCount := by
      rw [TreeTables.nodesOf]
      cases hnodes : tree.nodes.get? b with
      | none => exact Nat.zero_le _
      | some ns => exact le_foldr_add (SortedMap.mem_values_iff.2 ⟨b, hnodes⟩)
    exact Nat.le_trans hsize (le_foldr_add (SortedMap.mem_values_iff.2 ⟨t, htree⟩))

end Tables

namespace Archive

theorem perform_restarts (a : Archive) {leases : LeaseTable} {op : Operation}
    (hop : op.IsRepeatable) :
    Restarts leases (op.perform a) fun ts =>
      ts.versionCount < UInt64.size ∧ op.NamesLineage ts := by
  cases op with
  | newBranch namespaceId workflowId runId retention => exact hop.elim
  | append req payload =>
    cases payload with
    | events es => exact .map (append_restarts a req es)
    | raw node blob => exact .map (appendRaw_restarts a req node blob)
  | fork req => exact hop.elim
  | remove r =>
    cases r with
    | trim req =>
      refine .map ((trim_restarts a req).mono ?_)
      intro ts h t b
      exact Nat.lt_of_le_of_lt (ts.length_le_versionCount t b) h.1
    | delete req =>
      refine .map ((delete_restarts a req).mono ?_)
      intro ts h q hq
      exact h.2 q (Operation.target?_of_decode rfl hq)

theorem exists_namesOnly (bytes : Bytes) : ∃ t, Token.NamesOnly t bytes := by
  cases hdecode : Token.decode bytes with
  | ok q =>
    refine ⟨q.tree, fun p hp => ?_⟩
    cases hdecode.symm.trans hp
    rfl
  | error e =>
    refine ⟨⟨0⟩, fun p hp => ?_⟩
    cases hdecode.symm.trans hp

/-- What an operation that is repeated answers does not depend on the moment. -/
theorem perform_dateless (a : Archive) {op : Operation} (hop : op.IsRepeatable)
    {s : State MemoryStore} (hs : s.Unarmed) (now : Timestamp) :
    (op.perform a).answer (s.dated now) = (op.perform a).answer s := by
  cases op with
  | newBranch namespaceId workflowId runId retention => exact hop.elim
  | append req payload =>
    obtain ⟨t, ht⟩ := exists_namesOnly req.token
    exact (append_dating a ht payload).dateless s hs now
  | fork req => exact hop.elim
  | remove r =>
    obtain ⟨t, ht⟩ := exists_namesOnly r.token
    exact (removal_local a ht).map.dating.dateless s hs now

/-- **Interrupted operations converge.** Whatever is stored, as long as it can be counted, and at
whatever calls a fault or the deadline interrupts attempts at an append or a removal: the first
attempt that nothing interrupts, at whatever moment, succeeds exactly if the operation does without
interruptions from the start, fails in the same error otherwise, and leaves the same tables but for
the dates of rows. -/
theorem perform_converges (a : Archive) {op : Operation} (hop : op.IsRepeatable)
    {s t : State MemoryStore} (hs : s.Unarmed) (hsize : s.tables.versionCount < UInt64.size)
    (hlineage : op.NamesLineage s.tables) (ht : Attempts (op.perform a) s t)
    {fault : Option ArmedFault} {delay : Option Nat} {now : Timestamp}
    (hlast : ¬ (op.perform a).Interrupted ((t.armed fault delay).dated now)) :
    ((∃ ans, (op.perform a).answer ((t.armed fault delay).dated now) = .ok ans) ↔
        ∃ ans, (op.perform a).answer s = .ok ans) ∧
      (∀ e, (op.perform a).answer ((t.armed fault delay).dated now) = .error e ↔
        (op.perform a).answer s = .error e) ∧
      ((op.perform a).final s).tables.SameButDates
        ((op.perform a).final ((t.armed fault delay).dated now)).tables :=
  (perform_restarts a hop).converges (perform_dateless a hop hs) hs ⟨hsize, hlineage⟩ ht hlast

/-- A branch with a fork is deleted in three attempts. The first one removes the row, the second one
collects versions, and the third one ends where a single attempt does. -/
theorem perform_converges_delete :
    let op := Operation.remove (.delete ⟨1, 1, Forked.bytes Sample.root⟩)
    let delete : Action MemoryStore Answer := op.perform Sample.archive
    let cut (s : State MemoryStore) (calls : Nat) : State MemoryStore :=
      (s.armed (some ⟨calls, .unavailable "lost"⟩) none).dated 1
    let first := delete.final (cut Sample.state 2)
    let second := delete.final (cut first 4)
    let last := (second.armed none none).dated 2
    Sample.state.tables.rows.length = 2 ∧ first.tables.rows.length = 1 ∧
      first.tables.versionCount = 3 ∧ second.tables.versionCount = 2 ∧
      Attempts delete Sample.state second ∧
      (∃ ans, delete.answer last = .ok ans) ∧
      (delete.final Sample.state).tables.SameButDates (delete.final last).tables := by
  intro op delete cut first second last
  have hcounts : Sample.state.tables.rows.length = 2 ∧ first.tables.rows.length = 1 ∧
      first.tables.versionCount = 3 ∧ second.tables.versionCount = 2 := by decide +kernel
  have hcut : delete.Interrupted (cut Sample.state 2) ∧ delete.Interrupted (cut first 4) := by
    decide +kernel
  have hattempts : Attempts delete Sample.state second :=
    .interrupted (.interrupted .none _ _ _ hcut.1) _ _ _ hcut.2
  have hrow : Sample.state.tables.row? Sample.root.tree Sample.root.branch =
      some (Forked.row Sample.root) := by decide +kernel
  have hlineage : op.NamesLineage Sample.state.tables := by
    intro q hq row hsome
    cases hq
    cases hrow.symm.trans hsome
    rfl
  have hrepeatable : op.IsRepeatable := trivial
  have hlast : ¬ delete.Interrupted last := fun h => h.not_unarmed ⟨rfl, rfl⟩
  obtain ⟨hanswer, -, htables⟩ := perform_converges Sample.archive hrepeatable
    Sample.reaches.unarmed (by decide +kernel) hlineage hattempts hlast
  have hsingle : delete.answer Sample.state = .ok (.removed 1) := by decide +kernel
  exact ⟨hcounts.1, hcounts.2.1, hcounts.2.2.1, hcounts.2.2.2, hattempts, hanswer.2 ⟨_, hsingle⟩,
    htables⟩

end Archive

end Chronicle
