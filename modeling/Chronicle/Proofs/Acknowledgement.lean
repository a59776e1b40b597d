import Chronicle.Proofs.Appending
import Chronicle.Proofs.FullRead
import Chronicle.Proofs.Replay
import Chronicle.Proofs.Visits

/-!
# What a successful append promises

A successful append stored a version, or found it stored with the same blob. What its caller can
then rely on is less than one may think:

* `append_shows_iff`: a version that was inserted is read, unless a version with a larger
  transaction had been stored at its node before. A writer with a smaller transaction is not told.
* `append_stores`: the version is stored with the blob that was sent. The branch has a row, unless
  it had none and the version was found: a deleted branch may keep versions for its forks, and a
  repetition does not create it again.
-/
namespace Chronicle

open Archive (State)

namespace Tables

/-- A version with a larger transaction is stored at the node of `v`. -/
def Shadowed (ts : Tables) (q : Token) (v : Version) : Prop :=
  ∃ w, ts.version? q.tree q.branch v.node w.transaction = some w ∧ v.transaction < w.transaction

variable {ts us : Tables} {q : Token} {isNew : Bool} {row : BranchRow} {v : Version}

/-! ## Inserted versions -/

/-- The row under which a version was written is that of the branch. -/
theorem Writes.row_own (hw : ts.Writes q isNew row v us) :
    row.token.tree = q.tree ∧ row.token.branch = q.branch := by
  rcases hw.branch with hrow | ⟨-, -, rfl⟩
  · exact row?_own hrow
  · exact ⟨rfl, rfl⟩

/-- Whether a read shows what was written depends on the other versions of the node alone, because
the writer knew what precedes it. -/
theorem Writes.mem_own_log_iff (hw : ts.Writes q isNew row v us)
    (h : Lineage.Follows firstEvent row.token.lineage) :
    v ∈ us.log row.token ↔ ¬ ts.Shadowed q v := by
  obtain ⟨htree, hbranch⟩ := hw.row_own
  have hspan : row.token.ownSpan ∈ row.token.spans :=
    List.mem_append_right _ (List.mem_singleton_self _)
  have hown : v.node ∈ row.token.ownSpan := ⟨hw.own, hw.below⟩
  rw [Tables.mem_log_iff h]
  constructor
  · intro hlog hshadowed
    obtain ⟨w, hstored, hlt⟩ := hshadowed
    obtain ⟨hnode, -⟩ := version?_own hstored
    have hold : ts.Covers row.token.tree row.token.spans w := by
      refine ⟨row.token.ownSpan, hspan, hnode ▸ hown, ?_⟩
      rw [htree, show row.token.ownSpan.owner = row.token.branch from rfl, hbranch, hnode]
      exact hstored
    have hcovers := (covers_writes_iff hw _ _).2 (.inl hold)
    exact Int64.not_lt.2 (hlog.2.2 w hcovers (hnode ▸ Int64.le_refl _)) hlt
  · intro hnot
    have hself := (covers_writes_iff hw _ _).2 (.inr ⟨rfl, htree, _, hspan, hbranch, hown⟩)
    refine ⟨hself, Int64.le_of_lt hw.positive, ?_⟩
    intro w hcovers hle
    rcases (covers_writes_iff hw _ _).1 hcovers with hold | ⟨rfl, -⟩
    · by_cases hlt : w.node < v.node
      · exact Int64.le_trans (hw.preceded.largest w ⟨hold, hlt⟩) (Int64.le_of_lt hw.later)
      · have hnode : w.node = v.node := Int64.le_antisymm hle (Int64.not_lt.1 hlt)
        refine Int64.not_lt.1 fun hexceeds => hnot ⟨w, ?_, hexceeds⟩
        obtain ⟨s, hs, hn, hstored⟩ := hold
        rw [Token.eq_ownSpan h hs hn (hnode ▸ hw.own), htree, hnode] at hstored
        rwa [← hbranch]
    · exact Int64.le_refl _

theorem Writes.named (hw : ts.Writes q isNew row v us) :
    us.row? q.tree q.branch = some row := by
  rw [hw.rows, if_pos ⟨rfl, rfl⟩]

end Tables

namespace Archive

variable {a : Archive} {s : State MemoryStore}

/-! ## Stored versions -/

section Accepts

variable {ts : Tables} {q : Token} {isNew : Bool} {v : Version} {d : Deadline}
  (h : a.Accepts d isNew ts q v) (info : String) (now : Timestamp)

include h

theorem Accepts.stored :
    ∃ w, (ts.written ⟨q, info, now⟩ v).version? q.tree q.branch v.node v.transaction = some w ∧
      w.blob = v.blob := by
  rcases h.cases info now with ⟨existing, hexisting, hblob, hsame⟩ | ⟨row, hwrites⟩
  · refine ⟨existing, ?_, hblob⟩
    rw [hsame]
    exact hexisting
  · exact ⟨v, by rw [hwrites.versions, if_pos ⟨rfl, rfl, rfl, rfl⟩], rfl⟩

theorem Accepts.exists_row_iff :
    (∃ row, (ts.written ⟨q, info, now⟩ v).row? q.tree q.branch = some row) ↔
      (∃ row, ts.row? q.tree q.branch = some row) ∨
        ts.version? q.tree q.branch v.node v.transaction = none := by
  rcases h.cases info now with ⟨existing, hexisting, -, hsame⟩ | ⟨row, hwrites⟩
  · rw [hsame, hexisting]
    exact (or_iff_left nofun).symm
  · exact iff_of_true ⟨row, hwrites.named⟩ (.inr hwrites.fresh)

end Accepts

/-! ## What is read after an append -/

theorem readRaw_absent (htime : a.InTime) (hs : s.Unarmed) {req : ReadRequest} {q : Token}
    (hq : Token.decode req.token = .ok q) (hrow : s.tables.row? q.tree q.branch = none)
    (hmin : firstEvent ≤ req.min) (hmax : req.min < req.max) :
    (a.readRaw req).answer s = .error (.notFound (.branch q.branch q.tree)) := by
  have hrequire : requireRow (a.deadline "read_raw_history_branch") q s =
      .error (.notFound (.branch q.branch q.tree)) s := by
    have hask := Action.ask_question (htime.not_expired "read_raw_history_branch") hs fun ts =>
      ts.row? q.tree q.branch
    rw [hrow] at hask
    exact Action.bind_of_ok hask
  have hplan : plan (a.deadline "read_raw_history_branch") req s =
      .error (.notFound (.branch q.branch q.tree)) s :=
    (plan_of_decode hq hmin hmax).trans (Action.bind_of_error hrequire)
  have hread : a.readRaw req s = .error (.notFound (.branch q.branch q.tree)) s :=
    Action.bind_of_error (Action.bind_of_error hplan)
  rw [Action.answer, hread]

end Archive

namespace Sample

/-- The first node of a branch is written by transaction 10. -/
def raced : Run :=
  ⟨[write root 1 10 0 [10], .newBranch "" "" "" .unset], [Forked.bytes root], by decide +kernel,
    by decide +kernel⟩

/-- A branch is deleted after it was forked at its second node. -/
def orphaned : Run :=
  ⟨.remove (.delete ⟨1, 1, Forked.bytes root⟩) :: operations.drop 3, issued, by decide +kernel,
    by decide +kernel⟩

end Sample

namespace Archive

variable {a : Archive} {s : State MemoryStore}

/-- **Inserted versions.** Whatever was done before, by whom and with what tokens, after an append
that inserted a version a full read of the branch gives the version exactly if no version with a
larger transaction had been stored at its node. -/
theorem append_shows_iff (h : Visits a s) (hs : s.Unarmed) {req : WriteRequest} {payload : Payload}
    {ans : Answer} (hans : ((Operation.append req payload).perform a).answer s = .ok ans) :
    let u := ((Operation.append req payload).perform a).final s
    ∃ q v, Token.decode req.token = .ok q ∧ payload.version a.codec req = some v ∧
      (s.tables.Inserted u.tables q v → ∃ row shown, u.tables.Names req.token row ∧
        a.ReadsAll u req.token row.branch shown ∧ (v ∈ shown ↔ ¬ s.tables.Shadowed q v)) := by
  intro u
  obtain ⟨hu, q, v, hprepare, haccepts, htables, -⟩ := append_outcome hs hans
  obtain ⟨hq, hv⟩ := Payload.eq_of_prepare hprepare
  refine ⟨q, v, hq, hv, fun hinserted => ?_⟩
  rcases haccepts.cases req.info s.now with ⟨existing, hexisting, -⟩ | ⟨row, hwrites⟩
  · cases hinserted.1.symm.trans hexisting
  rw [← htables] at hwrites
  have hlineage : Lineage.Follows firstEvent row.token.lineage :=
    (h.call (.append req payload)).proper _ _ _ hwrites.named
  have hnames : u.tables.Names req.token row := ⟨q, hq, hwrites.named⟩
  have htime : a.InTime := .of_not_expired haccepts.time
  exact ⟨row, _, hnames, readsAll_log htime hu hnames hlineage, hwrites.mem_own_log_iff hlineage⟩

/-- A writer with a later transaction is read. -/
theorem append_shows_later :
    let s := Sample.raced.state
    let append := (Sample.write Sample.root 1 12 0 [12]).perform Sample.archive
    append.answer s = .ok (.receipt ⟨1, 1⟩) ∧
      ∃ row shown, (append.final s).tables.Names (Forked.bytes Sample.root) row ∧
        Sample.archive.ReadsAll (append.final s) (Forked.bytes Sample.root) row.branch shown ∧
        ⟨1, 12, 0, [12]⟩ ∈ shown := by
  intro s append
  have hans : append.answer s = .ok (.receipt ⟨1, 1⟩) := by decide +kernel
  have hinserted : s.tables.Inserted (append.final s).tables Sample.root ⟨1, 12, 0, [12]⟩ := by
    decide +kernel
  have hlatest : ∀ w ∈ s.tables.listing Sample.root.tree Sample.root.branch 1 2,
      w.transaction ≤ 12 := by decide +kernel
  obtain ⟨q, v, hq, hv, hshows⟩ :=
    append_shows_iff Sample.raced.reaches.visits Sample.raced.reaches.unarmed hans
  cases hq.symm.trans Sample.decode_root
  cases hv
  obtain ⟨row, shown, hnames, hreads, hmem⟩ := hshows hinserted
  refine ⟨hans, row, shown, hnames, hreads, hmem.2 fun hshadowed => ?_⟩
  obtain ⟨w, hstored, hlt⟩ := hshadowed
  have hnode : w.node = 1 := (Tables.version?_own hstored).1
  have hw : w ∈ s.tables.listing Sample.root.tree Sample.root.branch 1 2 := by
    rw [Tables.mem_listing_iff, hnode]
    exact ⟨by decide, hstored⟩
  exact Int64.not_lt.2 (hlatest w hw) hlt

/-- A writer with an earlier transaction is told that its batch was appended, and it is not read. -/
theorem append_shadowed :
    let s := Sample.raced.state
    let append := (Sample.write Sample.root 1 5 0 [5]).perform Sample.archive
    Reaches Sample.archive s [Forked.bytes Sample.root] ∧
      append.answer s = .ok (.receipt ⟨1, 1⟩) ∧
      s.tables.Inserted (append.final s).tables Sample.root ⟨1, 5, 0, [5]⟩ ∧
      Sample.archive.ReadsAll (append.final s) (Forked.bytes Sample.root) Sample.root.branch
        [⟨1, 10, 0, [10]⟩] := by
  intro s append
  have hrow : (append.final s).tables.row? Sample.root.tree Sample.root.branch =
      some (Forked.row Sample.root) := by decide +kernel
  have hlog : (append.final s).tables.log Sample.root = [⟨1, 10, 0, [10]⟩] := by decide +kernel
  have hunarmed : (append.final s).Unarmed := (perform_outcome _ Sample.raced.reaches.unarmed).1
  have hlineage : Lineage.Follows firstEvent (Forked.row Sample.root).token.lineage := trivial
  have hreads := readsAll_log (a := Sample.archive) (by decide) hunarmed
    ⟨Sample.root, Sample.decode_root, hrow⟩ hlineage
  rw [show (Forked.row Sample.root).token = Sample.root from rfl, hlog] at hreads
  exact ⟨Sample.raced.reaches, by decide +kernel, by decide +kernel, hreads⟩

/-- **Successful appends.** Whatever was done before, by whom and with what tokens, after a
successful append the version is stored with the blob that was sent. The branch has a row exactly if
it had one before or the version was not stored before; then it is read, and otherwise reads say
that there is no such branch. -/
theorem append_stores (h : Visits a s) (hs : s.Unarmed) {req : WriteRequest} {payload : Payload}
    {ans : Answer} (hans : ((Operation.append req payload).perform a).answer s = .ok ans) :
    let u := ((Operation.append req payload).perform a).final s
    ∃ q v, Token.decode req.token = .ok q ∧ payload.version a.codec req = some v ∧
      (∃ w, u.tables.version? q.tree q.branch v.node v.transaction = some w ∧ w.blob = v.blob) ∧
      ((∃ row, u.tables.row? q.tree q.branch = some row) ↔
        (∃ row, s.tables.row? q.tree q.branch = some row) ∨
          s.tables.version? q.tree q.branch v.node v.transaction = none) ∧
      (∀ row, u.tables.row? q.tree q.branch = some row →
        ∃ shown, a.ReadsAll u req.token row.branch shown) ∧
      (u.tables.row? q.tree q.branch = none → ∀ min max size page, firstEvent ≤ min → min < max →
        (a.readRaw ⟨req.token, min, max, size, page⟩).answer u =
          .error (.notFound (.branch q.branch q.tree))) := by
  intro u
  obtain ⟨hu, q, v, hprepare, haccepts, htables, -⟩ := append_outcome hs hans
  obtain ⟨hq, hv⟩ := Payload.eq_of_prepare hprepare
  have htime : a.InTime := .of_not_expired haccepts.time
  have hstored := haccepts.stored req.info s.now
  have hrow := haccepts.exists_row_iff req.info s.now
  rw [← htables] at hstored hrow
  refine ⟨q, v, hq, hv, hstored, hrow, ?_, ?_⟩
  · intro row hrow
    have hlineage := (h.call (.append req payload)).proper _ _ _ hrow
    exact ⟨_, readsAll_log htime hu ⟨q, hq, hrow⟩ hlineage⟩
  · intro hnone min max size page hmin hmax
    exact readRaw_absent htime hu hq hnone hmin hmax

/-- A repetition on a branch that is still there. -/
theorem append_stores_repeated :
    let s := Sample.raced.state
    let append := (Sample.write Sample.root 1 10 0 [10]).perform Sample.archive
    let u := append.final s
    append.answer s = .ok (.receipt ⟨1, 1⟩) ∧
      (∃ w, u.tables.version? Sample.root.tree Sample.root.branch 1 10 = some w ∧
        w.blob = [10]) ∧
      ∃ row shown, u.tables.row? Sample.root.tree Sample.root.branch = some row ∧
        Sample.archive.ReadsAll u (Forked.bytes Sample.root) row.branch shown := by
  intro s append u
  have hans : append.answer s = .ok (.receipt ⟨1, 1⟩) := by decide +kernel
  have hrow : s.tables.row? Sample.root.tree Sample.root.branch =
      some (Forked.row Sample.root) := by decide +kernel
  obtain ⟨q, v, hq, hv, hstored, hexists, hreads, -⟩ :=
    append_stores Sample.raced.reaches.visits Sample.raced.reaches.unarmed hans
  cases hq.symm.trans Sample.decode_root
  cases hv
  obtain ⟨row, hafter⟩ := hexists.2 (.inl ⟨_, hrow⟩)
  obtain ⟨shown, hshown⟩ := hreads row hafter
  exact ⟨hans, hstored, row, shown, hafter, hshown⟩

/-- A repetition on a deleted branch succeeds although it may create the branch and does not. -/
theorem append_orphaned :
    let s := Sample.orphaned.state
    let append := (Sample.write Sample.root 1 5 0 [1]).perform Sample.archive
    let read := Sample.archive.readRaw ⟨Forked.bytes Sample.root, firstEvent, nodeLimit, 1, []⟩
    Reaches Sample.archive s Sample.issued ∧
      append.answer s = .ok (.receipt ⟨1, 1⟩) ∧
      (append.final s).tables.row? Sample.root.tree Sample.root.branch = none ∧
      read.answer (append.final s) =
        .error (.notFound (.branch Sample.root.branch Sample.root.tree)) :=
  ⟨Sample.orphaned.reaches, by decide +kernel, by decide +kernel, by decide +kernel⟩

end Archive

end Chronicle
