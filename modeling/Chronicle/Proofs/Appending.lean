import Chronicle.Proofs.Run

/-!
# Appends from the request to the answer

Both kinds of appends check the lease, make up a version out of the payload, and store it.

* `Payload.prepare`: what is made up, or why it cannot be; `perform_append`: the three steps.
* `append_outcome`: what a successful append did.
* `Fresh.append_answer`: a new version for a branch with a row, accepted in every other respect, is
  refused exactly if it does not name the transaction before its node.
-/
namespace Chronicle

open Archive (State)
open Chronicle.Action (Settles)

namespace Action

variable {σ α β : Type} {s : State σ}

theorem answer_bind_of_ok {x : Action σ β} {f : β → Action σ α} {b : β} {t : State σ}
    (h : x s = .ok b t) : (x >>= f).answer s = (f b).answer t := by
  rw [answer, bind_of_ok h, answer]

theorem ok_of_answer {act : Action σ α} {a : α} (h : act.answer s = .ok a) :
    ∃ t, act s = .ok a t := by
  unfold answer at h
  cases hact : act s with
  | ok b t =>
    rw [hact] at h
    cases h
    exact ⟨t, rfl⟩
  | error e t =>
    rw [hact] at h
    cases h

theorem answer_lift (r : Except Error α) (s : State σ) : (lift r).answer s = r := by
  cases r <;> rfl

/-- An operation that can only end in one way answers that. -/
theorem answer_of_meets {act : Action σ α} {r : Except Error α}
    (h : Meets act s (fun a _ => r = .ok a) fun e _ => r = .error e) : act.answer s = r := by
  rcases outcome_of_meets h with ⟨a, ha, rfl⟩ | ⟨e, he, rfl⟩
  · exact ha
  · exact he

end Action

/-! ## Preparing a version -/

namespace Payload

/-- The token of the branch, and the version that is to be stored there. -/
def prepare (codec : Codec) (req : WriteRequest) : Payload → Except Error (Token × Version)
  | events es =>
    match Batch.check es with
    | .error fault => .error (.invalidArgument (.notABatch fault))
    | .ok first => do
      let token ← Archive.decodeToken req.token
      let blob ← (codec.encode es).mapError .ofCodec
      return (token, ⟨first.id, req.transaction, req.previous, blob⟩)
  | raw node blob =>
    if blob.isEmpty then .error (.invalidArgument .emptyBlob)
    else if node < firstEvent then .error (.invalidArgument (.nodeBelowFirst node))
    else do
      let token ← Archive.decodeToken req.token
      return (token, ⟨node, req.transaction, req.previous, blob⟩)

def operation : Payload → String
  | events _ => "append_history_nodes"
  | raw .. => "append_raw_history_nodes"

/-- What is prepared is the version of the payload, for the branch that the request names. -/
theorem eq_of_prepare {codec : Codec} {req : WriteRequest} {payload : Payload} {q : Token}
    {v : Version} (h : payload.prepare codec req = .ok (q, v)) :
    Token.decode req.token = .ok q ∧ payload.version codec req = some v := by
  rw [← Archive.decodeToken_eq_ok_iff]
  cases payload with
  | events es =>
    simp only [prepare] at h
    cases hfirst : Batch.check es with
    | error fault =>
      rw [hfirst] at h
      cases h
    | ok first =>
      rw [hfirst] at h
      obtain ⟨token, htoken, h⟩ := Archive.bind_eq_ok_iff.1 h
      obtain ⟨blob, hblob, h⟩ := Archive.bind_eq_ok_iff.1 h
      cases h
      simp only [version, hfirst, Archive.mapError_eq_ok_iff.1 hblob, htoken, and_self]
  | raw node blob =>
    simp only [prepare] at h
    split at h
    · cases h
    split at h
    · cases h
    obtain ⟨token, htoken, h⟩ := Archive.bind_eq_ok_iff.1 h
    cases h
    exact ⟨htoken, rfl⟩

end Payload

namespace Archive

variable {a : Archive} {s : State MemoryStore} {env : Setting} {req : WriteRequest}
  {payload : Payload} {q : Token} {v : Version}

/-- An append checks the lease, prepares a version, and stores it. -/
theorem perform_append {σ : Type} [Backend σ] (a : Archive) (req : WriteRequest)
    (payload : Payload) : ((Operation.append req payload).perform a : Action σ Answer) = (do
      checkLease req.shard req.lease
      let target ← Action.lift (payload.prepare a.codec req)
      Answer.receipt <$> a.store (a.deadline payload.operation) req target.1 target.2) := by
  cases payload with
  | events es =>
    unfold Operation.perform append Payload.prepare
    simp only [map_bind]
    congr
    funext _
    cases Batch.check es with
    | error fault => rfl
    | ok first =>
      dsimp only
      cases decodeToken req.token <;> cases a.codec.encode es <;> rfl
  | raw node blob =>
    unfold Operation.perform appendRaw Payload.prepare
    simp only [map_bind]
    congr
    funext _
    by_cases hblob : blob.isEmpty = true
    · simp only [hblob]
      rfl
    by_cases hnode : node < firstEvent
    · simp only [hblob, hnode]
      rfl
    simp only [hblob, hnode]
    cases decodeToken req.token <;> rfl

theorem checkLease_of_current {σ : Type} {s : State σ} {shard : ShardId} {lease : LeaseId}
    (h : s.leases.current shard = some lease) : checkLease shard lease s = .ok () s := by
  have hget : (get : Action σ (State σ)) s = .ok s s := rfl
  have hcheck : s.leases.check shard lease = .ok () := if_pos h
  unfold checkLease
  rw [Action.bind_of_ok hget, hcheck]
  rfl

/-! ## Successful appends -/

/-- What an append does from given tables: if it succeeds, a version was prepared and accepted. -/
theorem append_settles (a : Archive) (req : WriteRequest) (payload : Payload) (ts : Tables) :
    Settles env ((Operation.append req payload).perform a) ts
      (fun ans us => ∃ q v, payload.prepare a.codec req = .ok (q, v) ∧
        a.Accepts (a.deadline payload.operation) req.isNewBranch ts q v ∧
        us = ts.written ⟨q, req.info, env.now⟩ v ∧ ans = .receipt ⟨v.blob.length, v.node⟩)
      (fun us => us = ts) fun _ => True := by
  rw [perform_append]
  refine .bind (.checkLease (fun _ => ?_) fun _ => rfl)
  refine .bind (.lift (fun target htarget => ?_) fun _ _ => rfl)
  obtain ⟨q, v⟩ := target
  apply Settles.map
  apply (store_settles a (a.deadline payload.operation) req q v ts).imp
  · intro r us h
    exact ⟨q, v, htarget, h.1, h.2.1, congrArg _ h.2.2⟩
  · intro us h
    exact h.1
  · intro us _
    trivial

/-- A successful append, said of its answer and of the state that it leaves. -/
theorem append_outcome (hs : s.Unarmed) {ans : Answer}
    (hans : ((Operation.append req payload).perform a).answer s = .ok ans) :
    let u := ((Operation.append req payload).perform a).final s
    u.Unarmed ∧ ∃ q v, payload.prepare a.codec req = .ok (q, v) ∧
      a.Accepts (a.deadline payload.operation) req.isNewBranch s.tables q v ∧
      u.tables = s.tables.written ⟨q, req.info, s.now⟩ v ∧
      ans = .receipt ⟨v.blob.length, v.node⟩ := by
  intro u
  rcases Action.outcome_of_meets ((append_settles a req payload s.tables).meets hs) with
    ⟨ans', hans', hu, -, hdone⟩ | ⟨e, he, -⟩
  · cases hans.symm.trans hans'
    exact ⟨hu, hdone⟩
  · cases hans.symm.trans he

/-- An append with a current lease whose version is accepted succeeds. -/
theorem append_of_accepts (hs : s.Unarmed) (hlease : s.leases.current req.shard = some req.lease)
    (hprepare : payload.prepare a.codec req = .ok (q, v))
    (haccepts : a.Accepts (a.deadline payload.operation) req.isNewBranch s.tables q v) :
    let op : Action MemoryStore Answer := (Operation.append req payload).perform a
    op.answer s = .ok (.receipt ⟨v.blob.length, v.node⟩) ∧ (op.final s).Unarmed ∧
      (op.final s).tables = s.tables.written ⟨q, req.info, s.now⟩ v := by
  intro op
  have hsettles : Settles s.setting op s.tables
      (fun ans us => ans = .receipt ⟨v.blob.length, v.node⟩ ∧
        us = s.tables.written ⟨q, req.info, s.now⟩ v) (fun _ => False) fun _ => True := by
    show Settles _ ((Operation.append req payload).perform a) _ _ _ _
    rw [perform_append]
    refine .bind (.checkLease (fun _ => ?_) fun hne => hne hlease)
    refine .bind (.lift (fun target htarget => ?_) fun e he => ?_)
    · cases hprepare.symm.trans htarget
      apply Settles.map
      apply (store_settles a (a.deadline payload.operation) req q v s.tables).imp
      · intro r us h
        exact ⟨congrArg _ h.2.2, h.2.1⟩
      · intro us h
        exact h.2 haccepts
      · intro us _
        trivial
    · cases hprepare.symm.trans he
  rcases Action.outcome_of_meets (hsettles.meets hs) with ⟨ans, hans, hu, -, rfl, htables⟩ | h
  · exact ⟨hans, hu, htables⟩
  · obtain ⟨-, -, -, -, hfalse⟩ := h
    exact hfalse.elim

/-! ## Refused appends -/

/-- A version passes all checks of a branch with this row, apart from naming the transaction before
its node: it passes its own check, lies on the branch's own nodes and is not stored yet. -/
structure Fresh (a : Archive) (ts : Tables) (q : Token) (row : BranchRow) (v : Version) :
    Prop where
  named : ts.row? q.tree q.branch = some row
  checked : checkVersion a.config.transactionSizeLimit v = .ok ()
  own : row.token.ownStart ≤ v.node
  absent : ts.version? q.tree q.branch v.node v.transaction = none

/-- What the archive finds before a node, as the outcome of a call. -/
theorem preceding_eq {d : Deadline} (hd : d.expired = false) (hs : s.Unarmed) {node : NodeId}
    {x : TransactionId} (hx : s.tables.Precedes q node x) :
    ∃ t, preceding d q node s = .ok x t ∧ t.Unarmed ∧ t.tables = s.tables := by
  have hsettles : Settles s.setting (preceding d q node) s.tables
      (fun y us => s.tables.Precedes q node y ∧ us = s.tables) (fun _ => False) fun _ => True :=
    preceding_settles hd q node trivial
  have hmeets := hsettles.meets hs
  unfold Action.Meets at hmeets
  cases hrun : preceding d q node s with
  | ok y t =>
    rw [hrun] at hmeets
    obtain ⟨ht, -, hy, htables⟩ := hmeets
    exact ⟨t, by rw [hy.unique hx], ht, htables⟩
  | error e t =>
    rw [hrun] at hmeets
    exact hmeets.2.2.elim

theorem Fresh.store_answer {row : BranchRow} (h : a.Fresh s.tables q row v) {d : Deadline}
    (hd : d.expired = false) (hs : s.Unarmed) {x : TransactionId}
    (hx : s.tables.Precedes row.token v.node x) :
    (a.store d req q v).answer s =
      if v.previous = x then .ok ⟨v.blob.length, v.node⟩
      else .error (.conflict (.staleWriter v.previous x v.node)) := by
  obtain ⟨hrow, hcheck, hown, habsent⟩ := h
  -- the commit lock is the only thing that changes on the way to the chain
  generalize hlocked : ({ s with locks := s.locks.insert q.branch } : State MemoryStore) = t
  have ht : t.Unarmed := hlocked ▸ hs
  have htables : t.tables = s.tables := hlocked ▸ rfl
  rw [← htables] at hrow habsent hx
  have hlift := Action.lift_of_ok hcheck s
  have hlock : lock q.branch s = .ok () t := hlocked ▸ rfl
  have hgetBranch := Action.ask_question hd ht fun ts => ts.row? q.tree q.branch
  have hgetVersion := Action.ask_question hd ht fun ts =>
    ts.version? q.tree q.branch v.node v.transaction
  rw [hrow] at hgetBranch
  rw [habsent] at hgetVersion
  unfold store
  refine (Action.answer_bind_of_ok hlift).trans ?_
  refine (Action.answer_bind_of_ok hlock).trans ?_
  refine (Action.answer_bind_of_ok hgetBranch).trans ?_
  dsimp -zeta only
  have hpure : (pure row.token : Action MemoryStore Token) t = .ok row.token t := rfl
  refine (Action.answer_bind_of_ok hpure).trans ?_
  dsimp only
  rw [if_neg (Int64.not_lt.2 hown)]
  refine (Action.answer_bind_of_ok hgetVersion).trans ?_
  obtain ⟨u, hpreceding, hu, hutables⟩ := preceding_eq hd ht hx
  refine (Action.answer_bind_of_ok hpreceding).trans ?_
  by_cases hprevious : v.previous = x
  · rw [if_pos hprevious, if_neg (not_not_intro hprevious)]
    rw [← hutables] at hrow habsent
    have hinsert := @insert_settles u.setting u.tables d hd q row.token req.isNewBranch req.info v
      (Tables.writer?_of_row hrow) habsent (fun r _ => r = ⟨v.blob.length, v.node⟩)
      (fun _ => False) (fun _ => True) rfl trivial fun _ _ => trivial
    rw [hrow] at hinsert
    apply Action.answer_of_meets
    apply (hinsert.meets hu).imp
    · intro r _ h
      exact congrArg Except.ok h.2.2.symm
    · intro e _ h
      exact h.2.2.elim
  · rw [if_neg hprevious, if_pos hprevious]
    rfl

/-- **Appends of new versions.** An append that passes every other check is refused exactly if it
does not name the transaction before its node, and says which one that is. -/
theorem Fresh.append_answer {row : BranchRow} (h : a.Fresh s.tables q row v) (htime : a.InTime)
    (hs : s.Unarmed) (hlease : s.leases.current req.shard = some req.lease)
    (hprepare : payload.prepare a.codec req = .ok (q, v)) {x : TransactionId}
    (hx : s.tables.Precedes row.token v.node x) :
    ((Operation.append req payload).perform a).answer s =
      if v.previous = x then .ok (.receipt ⟨v.blob.length, v.node⟩)
      else .error (.conflict (.staleWriter v.previous x v.node)) := by
  have hlift := Action.lift_of_ok hprepare s
  rw [perform_append]
  refine (Action.answer_bind_of_ok (checkLease_of_current hlease)).trans ?_
  refine (Action.answer_bind_of_ok hlift).trans ?_
  rw [Action.answer_map, h.store_answer (htime.not_expired _) hs hx]
  split <;> rfl

end Archive

end Chronicle
