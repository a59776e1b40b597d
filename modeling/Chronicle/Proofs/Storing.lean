import Chronicle.Proofs.Preceding

/-!
# What appends do

An append that does not repeat one stores a version, and before it the row of a branch that is new.
It is said here once from which contents an append is accepted, what it leaves at its end and what
where it is cut short.

* `Tables.Admits`: the version fits the branch, or repeats a batch; `Tables.written`: what an append
  leaves; `Tables.Begins`: what it leaves if it is cut after the row.
* `store_settles`: the operation.
-/
namespace Chronicle

open Chronicle.Action (Settles)

namespace Tables

/-- The token under which an append writes: that of the row, or the requested one if the branch is
to be created. -/
def writer? (ts : Tables) (q : Token) (isNew : Bool) : Option Token :=
  match ts.row? q.tree q.branch with
  | some row => some row.token
  | none => if isNew then some q else none

/-- The version can be stored under a token of the branch, or its batch is stored already. -/
def Fits (ts : Tables) (token : Token) (t : TreeId) (b : BranchId) (v : Version) : Prop :=
  token.ownStart ≤ v.node ∧
    match ts.version? t b v.node v.transaction with
    | some existing => existing.blob = v.blob
    | none => ts.Precedes token v.node v.previous

/-- The version can be appended to the branch that `q` names, or its batch was. -/
def Admits (ts : Tables) (q : Token) (isNew : Bool) (v : Version) : Prop :=
  ∃ token, ts.writer? q isNew = some token ∧ ts.Fits token q.tree q.branch v

/-- The tables after an append of `v` to the branch with this row, which is stored if there is none.
-/
def written (ts : Tables) (row : BranchRow) (v : Version) : Tables :=
  if (ts.version? row.tree row.branch v.node v.transaction).isSome then ts
  else
    let us := if (ts.row? row.tree row.branch).isNone then ts.upsertRow row else ts
    (us.insertVersion row.tree row.branch v).2

/-- The tables after the row of a new branch was stored, and the version was not. -/
structure Begins (ts : Tables) (row : BranchRow) (v : Version) (us : Tables) : Prop where
  absent : ts.row? row.tree row.branch = none
  fresh : ts.version? row.tree row.branch v.node v.transaction = none
  tables : us = ts.upsertRow row

variable {ts us : Tables} {row : BranchRow} {isNew : Bool} {v : Version}

theorem writer?_of_row {q : Token} (h : ts.row? q.tree q.branch = some row) :
    ts.writer? q isNew = some row.token := by
  rw [writer?, h]

/-- A branch without a row is written under the requested token, if it is to be created. -/
theorem writer?_eq_some_of_none {q token : Token} (h : ts.row? q.tree q.branch = none) :
    ts.writer? q isNew = some token ↔ isNew = true ∧ q = token := by
  rw [writer?, h, Option.ite_none_right_eq_some, Option.some.injEq]

/-- A branch without a row that can be appended to is to be created. -/
theorem Admits.created {q : Token} (h : ts.Admits q isNew v)
    (hrow : ts.row? q.tree q.branch = none) : isNew = true := by
  obtain ⟨token, htoken, -⟩ := h
  exact ((writer?_eq_some_of_none hrow).1 htoken).1

theorem written_of_some {existing : Version}
    (h : ts.version? row.tree row.branch v.node v.transaction = some existing) :
    ts.written row v = ts := by
  rw [written, h]
  rfl

theorem written_of_row {old : BranchRow}
    (hfresh : ts.version? row.tree row.branch v.node v.transaction = none)
    (hrow : ts.row? row.tree row.branch = some old) :
    ts.written row v = (ts.insertVersion row.tree row.branch v).2 := by
  rw [written, hfresh, hrow]
  rfl

theorem written_of_none
    (hfresh : ts.version? row.tree row.branch v.node v.transaction = none)
    (hrow : ts.row? row.tree row.branch = none) :
    ts.written row v = ((ts.upsertRow row).insertVersion row.tree row.branch v).2 := by
  rw [written, hfresh, hrow]
  rfl

theorem row?_upsertRow_self (ts : Tables) (row : BranchRow) :
    (ts.upsertRow row).row? row.tree row.branch = some row := by
  rw [row?_upsertRow, if_pos ⟨rfl, rfl⟩]

theorem Precedes.of_version? {token : Token} {node : NodeId} {x : TransactionId}
    (h : ts.Precedes token node x)
    (hversion : ∀ u c n y, us.version? u c n y = ts.version? u c n y) :
    us.Precedes token node x :=
  IsLargest.congr h fun v => by simp only [Below, Covers, hversion]

/-- Once the row is stored, the version can be appended as before. -/
theorem Begins.admits (h : ts.Begins row v us) (hadmits : ts.Admits row.token isNew v) :
    us.Admits row.token isNew v := by
  obtain ⟨habsent, hfresh, rfl⟩ := h
  obtain ⟨token, htoken, hown, hbatch⟩ := hadmits
  obtain ⟨-, rfl⟩ := (writer?_eq_some_of_none habsent).1 htoken
  have hfresh : ts.version? row.token.tree row.token.branch v.node v.transaction = none := hfresh
  rw [hfresh] at hbatch
  refine ⟨row.token, writer?_of_row (row?_upsertRow_self ts row), hown, ?_⟩
  rw [version?_upsertRow, hfresh]
  exact hbatch.of_version? fun u c n y => version?_upsertRow ..

/-- Once the row is stored, an append at any later moment leaves what it leaves from the start. -/
theorem Begins.written {q : Token} {info : String} {now later : Timestamp}
    (h : ts.Begins ⟨q, info, now⟩ v us) :
    us.written ⟨q, info, later⟩ v = ts.written ⟨q, info, now⟩ v := by
  obtain ⟨habsent, hfresh, rfl⟩ := h
  rw [written_of_none hfresh habsent]
  exact written_of_row ((version?_upsertRow ..).trans hfresh)
    (row?_upsertRow_self ts ⟨q, info, now⟩)

/-- At whatever moment a version is appended, only the date of the row may differ. -/
theorem sameButDates_written (ts : Tables) (q : Token) (info : String) (now later : Timestamp)
    (v : Version) : (ts.written ⟨q, info, now⟩ v).SameButDates (ts.written ⟨q, info, later⟩ v) := by
  cases hversion : ts.version? q.tree q.branch v.node v.transaction with
  | some existing =>
    have hwritten : ∀ moment, ts.written ⟨q, info, moment⟩ v = ts :=
      fun _ => written_of_some hversion
    rw [hwritten, hwritten]
    exact .refl ts
  | none =>
    cases hrow : ts.row? q.tree q.branch with
    | some row =>
      have hwritten : ∀ moment,
          ts.written ⟨q, info, moment⟩ v = (ts.insertVersion q.tree q.branch v).2 :=
        fun _ => written_of_row hversion hrow
      rw [hwritten, hwritten]
      exact .refl _
    | none =>
      have hwritten : ∀ moment, ts.written ⟨q, info, moment⟩ v =
          ((ts.upsertRow ⟨q, info, moment⟩).insertVersion q.tree q.branch v).2 :=
        fun _ => written_of_none hversion hrow
      rw [hwritten, hwritten]
      constructor
      · intro t
        rw [hasTree_insertVersion, hasTree_insertVersion, hasTree_upsertRow, hasTree_upsertRow]
        rfl
      · intro t b
        have hupsert : ∀ moment, (ts.upsertRow ⟨q, info, moment⟩).row? t b =
            if t = q.tree ∧ b = q.branch then some ⟨q, info, moment⟩ else ts.row? t b :=
          fun _ => row?_upsertRow ..
        rw [row?_insertVersion, row?_insertVersion, hupsert, hupsert]
        split <;> rfl
      · intro t b n x
        simp only [version?_insertVersion, version?_upsertRow]

end Tables

/-- A version is accepted: in time, if it passes its own check and fits the branch. -/
structure Archive.Accepts (a : Archive) (d : Deadline) (isNew : Bool) (ts : Tables) (q : Token)
    (v : Version) : Prop where
  version : checkVersion a.config.transactionSizeLimit v = .ok ()
  time : d.expired = false
  admits : ts.Admits q isNew v

namespace Archive

variable {env : Setting} {ts : Tables}

/-- Storing a version that is not there yet, and before it the row of a branch that is new. -/
theorem insert_settles {d : Deadline} (hd : d.expired = false) {q token : Token} {isNew : Bool}
    (info : String) {v : Version} (htoken : ts.writer? q isNew = some token)
    (hfresh : ts.version? q.tree q.branch v.node v.transaction = none)
    {ok : Receipt → Tables → Prop} {err cut : Tables → Prop}
    (hok : ok ⟨v.blob.length, v.node⟩ (ts.written ⟨q, info, env.now⟩ v)) (hcut : cut ts)
    (hbegins : ∀ us, ts.Begins ⟨q, info, env.now⟩ v us → cut us) :
    Settles env (do
        if (ts.row? q.tree q.branch).isNone then
          createRow d token info
        match ← Action.ask d (Backend.insertVersion q.tree q.branch v) with
        | .duplicate existing => repetition existing v.blob
        | .inserted =>
          Action.count (·.countAppend v.blob.length)
          return ⟨v.blob.length, v.node⟩) ts ok err cut := by
  cases hrow : ts.row? q.tree q.branch with
  | some row =>
    have hwritten : ts.written ⟨q, info, env.now⟩ v = (ts.insertVersion q.tree q.branch v).2 :=
      Tables.written_of_row hfresh hrow
    rw [hwritten] at hok
    refine .bind (.ask_inTime hd ?_ hcut)
    rw [Tables.insertVersion_fst, hfresh]
    exact .bind (.count (.pure hok))
  | none =>
    obtain ⟨-, rfl⟩ := (Tables.writer?_eq_some_of_none hrow).1 htoken
    have hwritten : ts.written ⟨q, info, env.now⟩ v =
        ((ts.upsertRow ⟨q, info, env.now⟩).insertVersion q.tree q.branch v).2 :=
      Tables.written_of_none hfresh hrow
    rw [hwritten] at hok
    refine .bind (.createRow_inTime hd ?_ hcut)
    refine .bind (.ask_inTime hd ?_ (hbegins _ ⟨hrow, hfresh, rfl⟩))
    rw [Tables.insertVersion_fst, Tables.version?_upsertRow, hfresh]
    exact .bind (.count (.pure hok))

/-- Writing under a known token, which is the same for a branch that has a row and for one that gets
it. -/
theorem write_settles {d : Deadline} (hd : d.expired = false) (req : WriteRequest) {q token : Token}
    {v : Version} (htoken : ts.writer? q req.isNewBranch = some token) :
    Settles env (do
        if v.node < token.ownStart then
          throw (.invalidArgument (.inheritedNode v.node token.ownStart))
        match ← Action.ask d (Backend.getVersion q.tree q.branch v.node v.transaction) with
        | some existing => repetition existing v.blob
        | none =>
          let expected ← preceding d token v.node
          if v.previous ≠ expected then
            Action.count (·.countConflict)
            throw (.conflict (.staleWriter v.previous expected v.node))
          if (ts.row? q.tree q.branch).isNone then
            createRow d token req.info
          match ← Action.ask d (Backend.insertVersion q.tree q.branch v) with
          | .duplicate existing => repetition existing v.blob
          | .inserted =>
            Action.count (·.countAppend v.blob.length)
            return ⟨v.blob.length, v.node⟩) ts
      (fun r us => ts.Admits q req.isNewBranch v ∧ us = ts.written ⟨q, req.info, env.now⟩ v ∧
        r = ⟨v.blob.length, v.node⟩)
      (fun us => us = ts ∧ ¬ ts.Admits q req.isNewBranch v)
      fun us => us = ts ∨
        ts.Admits q req.isNewBranch v ∧ ts.Begins ⟨q, req.info, env.now⟩ v us := by
  have hadmits : ts.Admits q req.isNewBranch v ↔ ts.Fits token q.tree q.branch v := by
    simp only [Tables.Admits, htoken, Option.some.injEq, exists_eq_left']
  simp only [hadmits]
  unfold Tables.Fits
  split
  · next hown => exact .throw_bind ⟨rfl, fun h => Int64.not_lt.2 h.1 hown⟩
  next hown =>
  rw [Int64.not_lt] at hown
  refine .bind (.ask_inTime hd ?_ (.inl rfl))
  dsimp only
  cases hexisting : ts.version? q.tree q.branch v.node v.transaction with
  | some existing =>
    have hwritten : ts.written ⟨q, req.info, env.now⟩ v = ts := Tables.written_of_some hexisting
    dsimp only [repetition]
    split
    · next hblob =>
      obtain ⟨hnode, -⟩ := Tables.version?_own hexisting
      exact .pure ⟨⟨hown, hblob⟩, hwritten.symm, by rw [hnode]⟩
    · next hblob => exact .bind (.count (.throw ⟨rfl, fun h => hblob h.2⟩))
  | none =>
    dsimp only
    refine .bind ((preceding_settles hd token v.node (.inl rfl)).imp
      (fun expected us h => ?_) (fun _ h => h) fun _ h => h)
    obtain ⟨hpreceded, rfl⟩ := h
    split
    · next hexpected =>
      exact .bind (.count (.throw_bind ⟨rfl, fun h => hexpected (h.2.unique hpreceded)⟩))
    next hexpected =>
    rw [← Decidable.not_not.1 hexpected] at hpreceded
    have hfits := And.intro hown hpreceded
    exact insert_settles hd req.info htoken hexisting ⟨hfits, rfl, rfl⟩ (.inl rfl)
      fun vs hbegins => .inr ⟨hfits, hbegins⟩

/-- **Appends.** -/
theorem store_settles (a : Archive) (d : Deadline) (req : WriteRequest) (q : Token) (v : Version)
    (ts : Tables) :
    Settles env (a.store d req q v) ts
      (fun r us => a.Accepts d req.isNewBranch ts q v ∧ us = ts.written ⟨q, req.info, env.now⟩ v ∧
        r = ⟨v.blob.length, v.node⟩)
      (fun us => us = ts ∧ ¬ a.Accepts d req.isNewBranch ts q v)
      fun us => us = ts ∨
        a.Accepts d req.isNewBranch ts q v ∧ ts.Begins ⟨q, req.info, env.now⟩ v us := by
  refine .bind (.lift (fun _ hcheck => ?_) fun e he => ⟨rfl, fun h => ?_⟩)
  · refine .bind (.lock (.bind (.ask (fun hd => ?_) (fun hd => ?_) (.inl rfl))))
    · have haccepts : a.Accepts d req.isNewBranch ts q v ↔ ts.Admits q req.isNewBranch v :=
        ⟨fun h => h.admits, fun h => ⟨hcheck, hd, h⟩⟩
      rw [haccepts]
      dsimp only
      split
      · next row hrow => exact .bind (.pure (write_settles hd req (Tables.writer?_of_row hrow)))
      next hrow =>
      split
      · next hnew =>
        exact .bind (.pure (write_settles hd req
          ((Tables.writer?_eq_some_of_none hrow).2 ⟨hnew, rfl⟩)))
      · next hnew =>
        refine .throw_bind ⟨rfl, fun h => ?_⟩
        obtain ⟨token, htoken, -⟩ := h
        exact hnew ((Tables.writer?_eq_some_of_none hrow).1 htoken).1
    · refine ⟨rfl, fun h => ?_⟩
      cases hd.symm.trans h.time
  · cases he.symm.trans h.version

end Archive

end Chronicle
