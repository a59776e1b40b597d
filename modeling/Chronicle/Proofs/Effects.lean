import Chronicle.Archive.Branching
import Chronicle.Proofs.Losses
import Chronicle.Proofs.Storing

/-!
# What operations do to the tables

Without faults every operation either leaves the tables alone or changes them in one way, which is
said here by what it does to the three views; an error leaves them alone. A new branch changes
nothing, an append adds a version (`Tables.Writes`), a fork adds a row, trimming (`Tables.Trims`)
and deleting (`Tables.Deletes`) remove versions.
-/
namespace Chronicle

open Chronicle.Action (Runs Settles)
open Archive (State)

/-! ## Appending -/

namespace Tables

/-- `us` is `ts` with the version `v` appended to the branch that `q` names, whose row is then
`row`. -/
structure Writes (ts : Tables) (q : Token) (isNew : Bool) (row : BranchRow) (v : Version)
    (us : Tables) : Prop where
  branch : ts.row? q.tree q.branch = some row ∨
    ts.row? q.tree q.branch = none ∧ isNew = true ∧ row.token = q
  own : row.token.ownStart ≤ v.node
  below : v.node < nodeLimit
  positive : noTransaction < v.transaction
  later : v.previous < v.transaction
  preceded : ts.Precedes row.token v.node v.previous
  fresh : ts.version? q.tree q.branch v.node v.transaction = none
  rows : ∀ u c, us.row? u c = if u = q.tree ∧ c = q.branch then some row else ts.row? u c
  versions : ∀ u c n x, us.version? u c n x =
    if u = q.tree ∧ c = q.branch ∧ n = v.node ∧ x = v.transaction then some v
    else ts.version? u c n x
  known : ∀ u, us.hasTree u = (u = q.tree || ts.hasTree u)

section Writes

variable {ts : Tables} {q : Token} {isNew : Bool} {row : BranchRow} {v : Version}
  (own : row.token.ownStart ≤ v.node) (below : v.node < nodeLimit)
  (positive : noTransaction < v.transaction) (later : v.previous < v.transaction)
  (preceded : ts.Precedes row.token v.node v.previous)
  (fresh : ts.version? q.tree q.branch v.node v.transaction = none)

include own below positive later preceded fresh

theorem writes_of_row (h : ts.row? q.tree q.branch = some row) :
    ts.Writes q isNew row v (ts.insertVersion q.tree q.branch v).2 where
  branch := .inl h
  own := own
  below := below
  positive := positive
  later := later
  preceded := preceded
  fresh := fresh
  rows u c := by
    rw [row?_insertVersion]
    split
    · next hc => rw [hc.1, hc.2, h]
    · rfl
  versions u c n x := by
    rw [version?_insertVersion]
    split
    · next hc =>
      rw [hc.1, hc.2.1, hc.2.2.1, hc.2.2.2, fresh]
      rfl
    · rfl
  known u := hasTree_insertVersion ..

theorem writes_of_none (h : ts.row? q.tree q.branch = none) (hnew : isNew = true)
    (htoken : row.token = q) :
    ts.Writes q isNew row v ((ts.upsertRow row).insertVersion q.tree q.branch v).2 where
  branch := .inr ⟨h, hnew, htoken⟩
  own := own
  below := below
  positive := positive
  later := later
  preceded := preceded
  fresh := fresh
  rows u c := by
    rw [row?_insertVersion, row?_upsertRow, BranchRow.tree, BranchRow.branch, htoken]
  versions u c n x := by
    rw [version?_insertVersion, version?_upsertRow]
    split
    · next hc =>
      rw [hc.1, hc.2.1, hc.2.2.1, hc.2.2.2, fresh]
      rfl
    · rfl
  known u := by
    rw [hasTree_insertVersion, hasTree_upsertRow, BranchRow.tree, htoken, ← Bool.or_assoc,
      Bool.or_self]

end Writes

/-- The version of the branch that a token names was stored on the way from `ts` to `us`. -/
def Inserted (ts us : Tables) (q : Token) (v : Version) : Prop :=
  ts.version? q.tree q.branch v.node v.transaction = none ∧
    us.version? q.tree q.branch v.node v.transaction = some v

instance (ts us : Tables) (q : Token) (v : Version) : Decidable (ts.Inserted us q v) :=
  inferInstanceAs (Decidable (_ ∧ _))

theorem not_inserted_self {ts : Tables} {q : Token} {v : Version} : ¬ ts.Inserted ts q v := by
  intro h
  rw [Inserted, h.1] at h
  cases h.2

theorem Writes.inserted {ts us : Tables} {q : Token} {isNew : Bool} {row : BranchRow}
    {v : Version} (hw : ts.Writes q isNew row v us) : ts.Inserted us q v :=
  ⟨hw.fresh, by rw [hw.versions, if_pos ⟨rfl, rfl, rfl, rfl⟩]⟩

end Tables

namespace Archive

variable {ts : Tables} {k : Nat}

theorem checkVersion_eq_ok {limit : UInt64} {v : Version} (h : checkVersion limit v = .ok ()) :
    v.node < nodeLimit ∧ noTransaction < v.transaction ∧ v.previous < v.transaction := by
  unfold checkVersion at h
  split at h
  · cases h
  split at h
  · cases h
  split at h
  · cases h
  next hnode htransaction hprevious =>
  exact ⟨Int64.not_le.1 hnode, Int64.not_le.1 htransaction, Int64.not_le.1 hprevious⟩

/-- The batch of an accepted version is stored already, or the version is added. -/
theorem Accepts.cases {a : Archive} {d : Deadline} {isNew : Bool} {q : Token} {v : Version}
    (h : a.Accepts d isNew ts q v) (info : String) (now : Timestamp) :
    (∃ existing, ts.version? q.tree q.branch v.node v.transaction = some existing ∧
        existing.blob = v.blob ∧ ts.written ⟨q, info, now⟩ v = ts) ∨
      ∃ row, ts.Writes q isNew row v (ts.written ⟨q, info, now⟩ v) := by
  obtain ⟨hcheck, -, token, htoken, hown, hbatch⟩ := h
  obtain ⟨hbelow, hpositive, hlater⟩ := checkVersion_eq_ok hcheck
  cases hversion : ts.version? q.tree q.branch v.node v.transaction with
  | some existing =>
    rw [hversion] at hbatch
    have hwritten : ts.written ⟨q, info, now⟩ v = ts := Tables.written_of_some hversion
    exact .inl ⟨existing, rfl, hbatch, hwritten⟩
  | none =>
    rw [hversion] at hbatch
    cases hrow : ts.row? q.tree q.branch with
    | some row =>
      have hwritten : ts.written ⟨q, info, now⟩ v = (ts.insertVersion q.tree q.branch v).2 :=
        Tables.written_of_row hversion hrow
      rw [Tables.writer?_of_row hrow, Option.some.injEq] at htoken
      subst htoken
      rw [hwritten]
      exact .inr ⟨row,
        Tables.writes_of_row hown hbelow hpositive hlater hbatch hversion hrow⟩
    | none =>
      have hwritten : ts.written ⟨q, info, now⟩ v =
          ((ts.upsertRow ⟨q, info, now⟩).insertVersion q.tree q.branch v).2 :=
        Tables.written_of_none hversion hrow
      obtain ⟨hnew, rfl⟩ := (Tables.writer?_eq_some_of_none hrow).1 htoken
      rw [hwritten]
      exact .inr ⟨⟨q, info, now⟩,
        Tables.writes_of_none hown hbelow hpositive hlater hbatch hversion hrow hnew rfl⟩

theorem store_runs (a : Archive) (d : Deadline) (req : WriteRequest) (q : Token) (v : Version) :
    Runs (a.store d req q v) ts k
      (fun _ us j => j = k ∧ d.expired = false ∧
        ((us = ts ∧ ∃ existing, ts.version? q.tree q.branch v.node v.transaction = some existing) ∨
          ∃ row, ts.Writes q req.isNewBranch row v us))
      fun us j => us = ts ∧ j = k := by
  have hstore : ∀ env, Settles env (a.store d req q v) ts
      (fun _ us => a.Accepts d req.isNewBranch ts q v ∧
        ∃ now, us = ts.written ⟨q, req.info, now⟩ v)
      (· = ts) fun _ => True := by
    intro env
    apply (store_settles a d req q v ts).imp
    · intro r us h
      exact ⟨h.1, env.now, h.2.1⟩
    · intro us h
      exact h.1
    · intro us _
      trivial
  apply (Settles.runs hstore).imp
  · intro r us j h
    obtain ⟨⟨haccepts, now, rfl⟩, rfl⟩ := h
    refine ⟨rfl, haccepts.time, ?_⟩
    rcases haccepts.cases req.info now with ⟨existing, hexisting, -, hsame⟩ | hwrites
    · exact .inl ⟨hsame, existing, hexisting⟩
    · exact .inr hwrites
  · intro us j h
    exact h

/-! ## Forking -/

theorem exhaust_keeps {P : Tables → Prop} (d : Deadline) (plan : Plan) (size : UInt64)
    (page : ∀ c, Action.Keeps P (Selection.page d plan c size : Action MemoryStore _) fun _ => True)
    (fuel : Nat) (c : Cursor) :
    Action.Keeps P (Selection.exhaust d plan size fuel c : Action MemoryStore _) fun _ => True := by
  induction fuel generalizing c with
  | zero => exact .pure trivial
  | succ fuel ih =>
    refine .bind (page c) ?_
    intro sel _
    split
    · exact .pure trivial
    · exact ih _

theorem lastVisible_keeps (a : Archive) (d : Deadline) (t : Token) (before : NodeId) :
    Action.Keeps (· = ts) (a.lastVisible d t before) fun _ => True := by
  have hsame : ∀ p : Plan, ts.SameAlong ts p.tree p.spans := fun _ _ _ _ _ _ => rfl
  refine .bind (exhaust_keeps _ _ _ ?_ _ _) ?_
  · intro c
    exact (Selection.page_lockstep (hsame _) c _).keeps
  · intro cursor _
    exact .pure trivial

theorem requireRow_keeps (d : Deadline) (q : Token) :
    Action.Keeps (· = ts) (requireRow d q) fun row => ts.row? q.tree q.branch = some row :=
  (requireRow_lockstep d ⟨rfl, fun _ _ _ _ _ _ _ => rfl⟩).keeps

def forkToken (a : Archive) (req : ForkRequest) (source : Token) (k : Nat) : Token :=
  ⟨req.namespaceId, source.workflowId, req.runId, source.tree, .random (a.source (k + 1)),
    source.lineageAt req.node, source.retention⟩

theorem fork_runs (a : Archive) (req : ForkRequest) :
    Runs (a.fork req) ts k
      (fun bytes us j => j = k + 1 ∧ a.InTime ∧ ∃ q row,
        Token.decode req.token = .ok q ∧ ts.row? q.tree q.branch = some row ∧
        (a.forkToken req row.token k).encode = .ok bytes ∧
        ∃ now, us = ts.upsertRow ⟨a.forkToken req row.token k, req.info, now⟩)
      fun us j => us = ts ∧ k ≤ j := by
  have hnone : ts = ts ∧ k ≤ k := ⟨rfl, Nat.le_refl _⟩
  refine .bind (.of_keeps .checkLease (fun _ _ => ?_) hnone)
  dsimp only
  split
  · exact .throw_bind hnone
  refine .bind (.lift (fun q hq => ?_) hnone)
  rw [decodeToken_eq_ok_iff] at hq
  refine .bind (.bind (.ask (fun hd => ?_) fun _ => hnone))
  dsimp only
  split
  · next row hrow =>
    refine .pure (.bind (.of_keeps (lastVisible_keeps _ _ _ _) (fun visible _ => ?_) hnone))
    split
    · exact .throw_bind hnone
    split
    · exact .throw_bind hnone
    refine .bind (.drawId ?_)
    refine .bind (.lift (fun bytes hbytes => ?_) ⟨rfl, Nat.le_succ k⟩)
    rw [encodeToken_eq_ok_iff] at hbytes
    refine .bind (.createRow_inTime hd fun now => ?_)
    refine .bind (.count ?_)
    exact .pure ⟨rfl, .of_not_expired hd, q, row, hq, hrow, hbytes, now, rfl⟩
  · exact .throw hnone

/-! ## New branches -/

def rootToken (a : Archive) (namespaceId workflowId runId : String) (retention : Retention)
    (k : Nat) : Token :=
  ⟨namespaceId, workflowId, runId, .random (a.source (k + 1)), .random (a.source (k + 2)), [],
    retention⟩

theorem newBranch_runs (a : Archive) (namespaceId workflowId runId : String)
    (retention : Retention) :
    Runs (a.newBranch namespaceId workflowId runId retention : Action MemoryStore _) ts k
      (fun bytes us j => us = ts ∧ j = k + 2 ∧
        (a.rootToken namespaceId workflowId runId retention k).encode = .ok bytes)
      fun us j => us = ts ∧ k ≤ j := by
  refine .bind (.drawId ?_)
  refine .bind (.drawId ?_)
  refine .lift (fun bytes hbytes => ?_) ⟨rfl, Nat.le_add_right k 2⟩
  exact ⟨rfl, rfl, encodeToken_eq_ok_iff.1 hbytes⟩

end Archive

/-! ## Trimming -/

/-- `us` is `ts` with branch `b` of tree `t` trimmed to the version of `node` that transaction `x`
wrote. -/
structure Tables.Trims (ts : Tables) (t : TreeId) (b : BranchId) (node : NodeId) (x : TransactionId)
    (us : Tables) : Prop where
  rows : ∀ u c, us.row? u c = ts.row? u c
  versions : ∀ u c n y, us.version? u c n y = ts.version? u c n y ∨
    us.version? u c n y = none ∧ u = t ∧ c = b ∧ node ≤ n ∧ ¬ (n = node ∧ y = x)
  known : ∀ u, us.hasTree u = ts.hasTree u

theorem Tables.Trimmed.trims {ts us : Tables} {t : TreeId} {b : BranchId} {node : NodeId}
    {x : TransactionId} (h : ts.Trimmed t b node x us) : ts.Trims t b node x us :=
  ⟨h.loses.rows, h.loses.versions, h.loses.known⟩

namespace Archive

variable {ts : Tables} {k : Nat}

/-- Trimming removes from the watermark's node on, without the watermark, and all later nodes. -/
theorem trim_runs (a : Archive) (req : TrimRequest) :
    Runs (a.trim req) ts k
      (fun _ us j => j = k ∧ ∃ q row, Token.decode req.token = .ok q ∧
        ts.row? q.tree q.branch = some row ∧ row.token.ownStart ≤ req.node ∧
        ts.Trims q.tree q.branch req.node req.transaction us ∧
        ∀ n x, req.node < n → us.version? q.tree q.branch n x = none)
      fun us j => us = ts ∧ j = k := by
  intro s hs hts hk
  subst hts hk
  apply ((trim_settles a req s.tables).meets hs).imp
  · intro removed t h
    obtain ⟨hunarmed, hdrawn, q, haccepts, htrimmed⟩ := h
    obtain ⟨row, hrow, hown⟩ := haccepts.row
    exact ⟨hunarmed, hdrawn, q, row, haccepts.token, hrow, hown, htrimmed.trims, htrimmed.later⟩
  · intro e t h
    exact ⟨h.1, h.2.2.1, h.2.1⟩

end Archive

/-! ## Deleting -/

/-- `us` is `ts` after deleting the branch that `q` names. -/
structure Tables.Deletes (ts : Tables) (q : Token) (us : Tables) : Prop where
  rows : ∀ u c, us.row? u c = if u = q.tree ∧ c = q.branch then none else ts.row? u c
  versions : ∀ u c n x, us.version? u c n x = ts.version? u c n x ∨ us.version? u c n x = none
  known : ∀ u, us.hasTree u = true ↔ ts.hasTree u = true ∧ (u = q.tree →
    (∃ c row, us.row? u c = some row) ∨ ∃ c n x v, us.version? u c n x = some v)
  swept : ∀ front s back,
    (((ts.row? q.tree q.branch).map (·.token)).getD q).spans.reverse = front ++ s :: back →
      ∀ n x v, us.version? q.tree s.owner n x = some v → s.start ≤ n → n < nodeLimit →
        (∃ stop, reachedUpTo ((ts.eraseRow q.tree q.branch).rowsOf q.tree) s.owner = some stop ∧
          n < stop) ∨
        ∃ s' ∈ front, (reachedUpTo ((ts.eraseRow q.tree q.branch).rowsOf q.tree) s'.owner).isSome

namespace Tables

theorem hasTree_dropIfEmpty {ts us : Tables} {t : TreeId}
    (hus : us = if ts.isEmptyTree t then ts.eraseTree t else ts) (u : TreeId) :
    us.hasTree u = true ↔ ts.hasTree u = true ∧ (u = t →
      (∃ c row, us.row? u c = some row) ∨ ∃ c n x v, us.version? u c n x = some v) := by
  by_cases hempty : ts.isEmptyTree t = true
  · obtain ⟨-, hnoRow, hnoVersion⟩ := isEmptyTree_iff.1 hempty
    rw [if_pos hempty] at hus
    rw [hus, hasTree_eraseTree, Bool.and_eq_true, decide_eq_true_eq]
    constructor
    · intro h
      exact ⟨h.2, fun hu => absurd hu h.1⟩
    · intro h
      refine ⟨fun hu => ?_, h.1⟩
      subst hu
      rcases h.2 rfl with ⟨c, row, hrow⟩ | ⟨c, n, x, v, hv⟩
      · rw [row?_eraseTree hempty, hnoRow] at hrow
        cases hrow
      · rw [version?_eraseTree hempty, hnoVersion] at hv
        cases hv
  · rw [if_neg hempty] at hus
    subst hus
    constructor
    · intro hknown
      refine ⟨hknown, fun hu => Classical.byContradiction fun hnone => hempty ?_⟩
      subst hu
      rw [not_or] at hnone
      refine isEmptyTree_iff.2 ⟨hknown, fun c => ?_, fun c n x => ?_⟩
      · exact Option.eq_none_iff_forall_ne_some.2 fun row hrow => hnone.1 ⟨c, row, hrow⟩
      · exact Option.eq_none_iff_forall_ne_some.2 fun v hv => hnone.2 ⟨c, n, x, v, hv⟩
    · intro h
      exact h.1

theorem row?_dropIfEmpty {ts us : Tables} {t : TreeId}
    (hus : us = if ts.isEmptyTree t then ts.eraseTree t else ts) (u : TreeId) (c : BranchId) :
    us.row? u c = ts.row? u c := by
  rw [hus]
  split
  · next hempty => exact row?_eraseTree hempty ..
  · rfl

theorem version?_dropIfEmpty {ts us : Tables} {t : TreeId}
    (hus : us = if ts.isEmptyTree t then ts.eraseTree t else ts) (u : TreeId) (c : BranchId)
    (n : NodeId) (x : TransactionId) : us.version? u c n x = ts.version? u c n x := by
  rw [hus]
  split
  · next hempty => exact version?_eraseTree hempty ..
  · rfl

/-- What is not collected on a span is reached directly, or the collection stopped before it. -/
theorem swept_of_not_collected {rows : List BranchRow} {front back : List Span} {s : Span}
    {n : NodeId} {x : TransactionId} (h : ¬ Collected rows (front ++ s :: back) s.owner n x)
    (hstart : s.start ≤ n) (hlimit : n < nodeLimit) :
    (∃ stop, reachedUpTo rows s.owner = some stop ∧ n < stop) ∨
      ∃ s' ∈ front, (reachedUpTo rows s'.owner).isSome := by
  induction front with
  | nil =>
    rw [List.nil_append] at h
    cases hreached : reachedUpTo rows s.owner with
    | some stop =>
      refine .inl ⟨stop, rfl, Int64.not_le.1 fun hle => h ?_⟩
      exact (collected_of_some hreached).2 ⟨Int64.lt_of_le_of_lt hle hlimit, rfl, hstart, hle⟩
    | none => exact absurd ((collected_of_none hreached).2 (.inl ⟨rfl, hstart⟩)) h
  | cons first front ih =>
    cases hreached : reachedUpTo rows first.owner with
    | some stop => exact .inr ⟨first, List.mem_cons_self .., hreached ▸ rfl⟩
    | none =>
      have hrest : ¬ Collected rows (front ++ s :: back) s.owner n x :=
        fun hp => h ((collected_of_none hreached).2 (.inr hp))
      rcases ih hrest with hstop | ⟨s', hs', hreached'⟩
      · exact .inl hstop
      · exact .inr ⟨s', List.mem_cons_of_mem _ hs', hreached'⟩

theorem deletes_of_losesAll {ts us vs : Tables} {q : Token}
    (h : (ts.eraseRow q.tree q.branch).LosesAll q.tree (ts.Orphaned q) us)
    (hvs : vs = if us.isEmptyTree q.tree then us.eraseTree q.tree else us) : ts.Deletes q vs where
  rows u c := by rw [row?_dropIfEmpty hvs, h.rows, row?_eraseRow]
  versions u c n x := by
    rw [version?_dropIfEmpty hvs, ← version?_eraseRow ts q.tree u q.branch c n x]
    exact (h.versions u c n x).imp_right fun hgone => hgone.1
  known u := by
    rw [hasTree_dropIfEmpty hvs, h.known, hasTree_eraseRow]
  swept front s back hsplit n x v hv hstart hlimit := by
    have hkept : ¬ ts.Orphaned q s.owner n x := by
      intro hp
      rw [version?_dropIfEmpty hvs, h.gone _ _ _ hp] at hv
      cases hv
    rw [Orphaned, spansOf, hsplit] at hkept
    exact swept_of_not_collected hkept hstart hlimit

end Tables

namespace Archive

/-- Deleting removes a row and what was reached from it alone. If it fails, then for one of three
reasons. -/
theorem delete_meets (a : Archive) (req : DeleteRequest) {s : State MemoryStore} (hs : s.Unarmed) :
    Action.Meets (a.delete req) s
      (fun _ t => t.Unarmed ∧ t.drawn = s.drawn ∧
        ∃ q, Token.decode req.token = .ok q ∧ s.tables.Deletes q t.tables)
      fun _ t => t.Unarmed ∧ t.drawn = s.drawn ∧ t.tables = s.tables ∧
        ¬ (a.InTime ∧ s.leases.current req.shard = some req.lease ∧
          ∃ q, Token.decode req.token = .ok q) := by
  apply ((delete_settles a req s.tables).meets hs).imp
  · intro removed t h
    obtain ⟨hunarmed, hdrawn, q, haccepts, us, hus, htables⟩ := h
    exact ⟨hunarmed, hdrawn, q, haccepts.token, Tables.deletes_of_losesAll hus htables⟩
  · intro e t h
    obtain ⟨hunarmed, hdrawn, htables, hrefused⟩ := h
    refine ⟨hunarmed, hdrawn, htables, fun hready => ?_⟩
    obtain ⟨htime, hlease, q, hq⟩ := hready
    exact hrefused q ⟨hlease, hq, htime⟩

theorem delete_runs (a : Archive) (req : DeleteRequest) {ts : Tables} {k : Nat} :
    Runs (a.delete req) ts k
      (fun _ us j => j = k ∧ ∃ q, Token.decode req.token = .ok q ∧ ts.Deletes q us)
      fun us j => us = ts ∧ j = k := by
  intro s hs hts hk
  subst hts hk
  apply (delete_meets a req hs).imp
  · intro removed t h
    exact h
  · intro e t h
    exact ⟨h.1, h.2.2.1, h.2.1⟩

end Archive

end Chronicle
