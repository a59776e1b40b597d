import Chronicle.Proofs.Appending

/-!
# All or nothing

An operation checks everything before it changes anything. So without a fault it either fails and
leaves no trace, or does all that it is to do; and all that an append does is to add one version,
and the row of its branch if there was none.

* `Tables.Adds`: what an append adds, said of the tables before and after it.
* `perform_atomic`: the result.
-/
namespace Chronicle

open Archive (State)

namespace Tables

/-- `us` is `ts` with one more version, `v`, of the branch that `q` names. It was not there before;
whatever else is stored stays as it is. If the branch had no row, it was to be created, and has a
row with its token now, created at this moment. -/
structure Adds (ts : Tables) (q : Token) (isNew : Bool) (info : String) (now : Timestamp)
    (v : Version) (us : Tables) : Prop where
  fresh : ts.version? q.tree q.branch v.node v.transaction = none
  versions : ∀ t b n x, us.version? t b n x =
    if t = q.tree ∧ b = q.branch ∧ n = v.node ∧ x = v.transaction then some v
    else ts.version? t b n x
  rows : ((∃ row, ts.row? q.tree q.branch = some row) ∧ ∀ t b, us.row? t b = ts.row? t b) ∨
    (ts.row? q.tree q.branch = none ∧ isNew = true ∧ ∀ t b, us.row? t b =
      if t = q.tree ∧ b = q.branch then some ⟨q, info, now⟩ else ts.row? t b)
  known : ∀ t, us.hasTree t = (t = q.tree || ts.hasTree t)

variable {ts us : Tables} {q : Token} {isNew : Bool} {v : Version}

/-- A version that is not there yet is inserted next to all others. -/
theorem version?_insertVersion_of_fresh {t : TreeId} {b : BranchId}
    (h : ts.version? t b v.node v.transaction = none) (u : TreeId) (c : BranchId) (n : NodeId)
    (x : TransactionId) :
    (ts.insertVersion t b v).2.version? u c n x =
      if u = t ∧ c = b ∧ n = v.node ∧ x = v.transaction then some v else ts.version? u c n x := by
  rw [version?_insertVersion]
  split
  · next hkey =>
    obtain ⟨rfl, rfl, rfl, rfl⟩ := hkey
    rw [h, Option.getD_none]
  · rfl

theorem adds_written (info : String) (now : Timestamp)
    (hfresh : ts.version? q.tree q.branch v.node v.transaction = none)
    (hcreated : ts.row? q.tree q.branch = none → isNew = true) :
    ts.Adds q isNew info now v (ts.written ⟨q, info, now⟩ v) := by
  cases hrow : ts.row? q.tree q.branch with
  | some row =>
    have hwritten : ts.written ⟨q, info, now⟩ v = (ts.insertVersion q.tree q.branch v).2 :=
      written_of_row hfresh hrow
    rw [hwritten]
    refine ⟨hfresh, version?_insertVersion_of_fresh hfresh, .inl ⟨⟨row, hrow⟩, ?_⟩, ?_⟩
    · exact fun t b => row?_insertVersion ..
    · exact fun t => hasTree_insertVersion ..
  | none =>
    have hwritten : ts.written ⟨q, info, now⟩ v =
        ((ts.upsertRow ⟨q, info, now⟩).insertVersion q.tree q.branch v).2 :=
      written_of_none hfresh hrow
    have hfresh' : (ts.upsertRow ⟨q, info, now⟩).version? q.tree q.branch v.node v.transaction =
        none :=
      (version?_upsertRow ..).trans hfresh
    rw [hwritten]
    refine ⟨hfresh, ?_, .inr ⟨hrow, hcreated hrow, ?_⟩, ?_⟩
    · intro t b n x
      rw [version?_insertVersion_of_fresh hfresh', version?_upsertRow]
    · intro t b
      rw [row?_insertVersion]
      exact row?_upsertRow ..
    · intro t
      rw [hasTree_insertVersion, hasTree_upsertRow, BranchRow.tree, ← Bool.or_assoc, Bool.or_self]

end Tables

namespace Archive

variable {a : Archive} {s : State MemoryStore}

/-- An accepted version is stored already with the same blob, or is added. -/
theorem Accepts.adds {d : Deadline} {isNew : Bool} {ts : Tables} {q : Token} {v : Version}
    (h : a.Accepts d isNew ts q v) (info : String) (now : Timestamp) :
    (ts.written ⟨q, info, now⟩ v = ts ∧ ∃ existing,
        ts.version? q.tree q.branch v.node v.transaction = some existing ∧
          existing.blob = v.blob) ∨
      ts.Adds q isNew info now v (ts.written ⟨q, info, now⟩ v) := by
  rcases h.cases info now with ⟨existing, hexisting, hblob, hsame⟩ | ⟨row, hwrites⟩
  · exact .inl ⟨hsame, existing, hexisting, hblob⟩
  · exact .inr (Tables.adds_written info now hwrites.fresh h.admits.created)

/-- **All or nothing.** Whatever is stored, whoever holds the leases and whatever is asked for: an
operation that fails changes no table. An append that succeeds changes nothing either, if its batch
was stored already; otherwise it adds its version, and the row of its branch if there was none and
it may create it. -/
theorem perform_atomic (hs : s.Unarmed) :
    (∀ (op : Operation) (e : Error), (op.perform a).answer s = .error e →
      ((op.perform a).final s).tables = s.tables) ∧
    ∀ (req : WriteRequest) (payload : Payload) (ans : Answer),
      ((Operation.append req payload).perform a).answer s = .ok ans →
        let us := (((Operation.append req payload).perform a).final s).tables
        ∃ q v, Token.decode req.token = .ok q ∧ payload.version a.codec req = some v ∧
          ((us = s.tables ∧ ∃ existing,
              s.tables.version? q.tree q.branch v.node v.transaction = some existing ∧
                existing.blob = v.blob) ∨
            s.tables.Adds q req.isNewBranch req.info s.now v us) := by
  constructor
  · intro op e he
    rcases (perform_outcome op hs).2 with ⟨ans, hans, -⟩ | ⟨-, -, hsame, -⟩
    · cases hans.symm.trans he
    · exact hsame
  · intro req payload ans hans us
    obtain ⟨-, q, v, hprepare, haccepts, htables, -⟩ := append_outcome hs hans
    obtain ⟨hq, hv⟩ := Payload.eq_of_prepare hprepare
    refine ⟨q, v, hq, hv, ?_⟩
    have hadds := haccepts.adds req.info s.now
    rw [← htables] at hadds
    exact hadds

/-- A writer that has not seen the last batch of the branch leaves no trace, one that has adds its
version to it. -/
theorem perform_atomic_next :
    let s := Sample.run.state
    let stale : Action MemoryStore Answer :=
      (Sample.write Sample.root 3 12 5 [6]).perform Sample.archive
    let next : Action MemoryStore Answer :=
      (Sample.write Sample.root 3 12 8 [6]).perform Sample.archive
    stale.answer s = .error (.conflict (.staleWriter 5 8 3)) ∧
      (stale.final s).tables = s.tables ∧
      next.answer s = .ok (.receipt ⟨1, 3⟩) ∧
      s.tables.Adds Sample.root true "" s.now ⟨3, 12, 8, [6]⟩ (next.final s).tables := by
  intro s stale next
  have hstale : stale.answer s = .error (.conflict (.staleWriter 5 8 3)) := by decide +kernel
  have hnext : next.answer s = .ok (.receipt ⟨1, 3⟩) := by decide +kernel
  have hfresh : s.tables.version? Sample.root.tree Sample.root.branch 3 12 = none := by
    decide +kernel
  have hroot : Token.decode (Forked.bytes Sample.root) = .ok Sample.root := rfl
  obtain ⟨hfails, hadds⟩ := perform_atomic (a := Sample.archive) Sample.run.reaches.unarmed
  refine ⟨hstale, hfails _ _ hstale, hnext, ?_⟩
  obtain ⟨q, v, hq, hv, ⟨-, existing, hexisting, -⟩ | hadded⟩ := hadds _ _ _ hnext
  · cases hq.symm.trans hroot
    cases hv
    cases hfresh.symm.trans hexisting
  · cases hq.symm.trans hroot
    cases hv
    exact hadded

end Archive

end Chronicle
