import Chronicle.Proofs.Acknowledgement

/-!
# Repeating an append much later

A writer that got no answer repeats its request, and by then others may have written the branch,
forked it, trimmed and deleted its forks and the branches it was forked from. What it wrote is still
there, unless the branch itself was trimmed or deleted, and it is found before anything else of the
request is looked at.

* `Tables.Retains`: the branch has a row, and a version of its own nodes is stored;
  `Effect.retains`: an operation keeps this, `Archive.Later`: so do all until the branch is removed.
* `append_of_retains`: what an append of that version, or of another batch in its place, does.
* `append_repeatable`: the result, and `append_not_repeatable`: where it ends.
-/
namespace Chronicle

open Archive (State)

/-! ## What stays -/

namespace Tables

/-- The branch that `q` names has this row, and among its own nodes a version with the node, the
transaction and the blob of `v`. -/
structure Retains (ts : Tables) (q : Token) (row : BranchRow) (v : Version) : Prop where
  named : ts.row? q.tree q.branch = some row
  own : v.node ∈ row.token.ownSpan
  stored : ∃ existing, ts.version? q.tree q.branch v.node v.transaction = some existing ∧
    existing.blob = v.blob

variable {ts us : Tables} {q : Token} {row : BranchRow} {v : Version}

theorem Retains.congr (h : ts.Retains q row v)
    (hrow : us.row? q.tree q.branch = ts.row? q.tree q.branch)
    (hversion : us.version? q.tree q.branch v.node v.transaction =
      ts.version? q.tree q.branch v.node v.transaction) : us.Retains q row v where
  named := hrow.trans h.named
  own := h.own
  stored := hversion ▸ h.stored

theorem Retains.sameBranch (h : ts.Retains q row v) (hsame : ts.SameBranch us q.tree q.branch) :
    us.Retains q row v := by
  have hspan : row.token.ownSpan ∈ row.token.spans :=
    List.mem_append_right _ (List.mem_singleton_self _)
  have hversion := hsame.versions row h.named row.token.ownSpan hspan v.node h.own v.transaction
  have howner : row.token.ownSpan.owner = q.branch := (row?_own h.named).2
  rw [howner] at hversion
  exact h.congr hsame.row hversion

theorem Retains.writes (h : ts.Retains q row v) {p : Token} {isNew : Bool} {other : BranchRow}
    {w : Version} (hw : ts.Writes p isNew other w us) : us.Retains q row v := by
  obtain ⟨existing, hexisting, -⟩ := h.stored
  apply h.congr
  · rw [hw.rows]
    split
    · next hp =>
      obtain ⟨htree, hbranch⟩ := hp
      rcases hw.branch with hrow | ⟨hnone, -⟩
      · rw [htree, hbranch, hrow]
      · rw [← htree, ← hbranch, h.named] at hnone
        cases hnone
    · rfl
  · rw [hw.versions, if_neg]
    rintro ⟨htree, hbranch, hnode, htransaction⟩
    have hfresh := hw.fresh
    rw [← htree, ← hbranch, ← hnode, ← htransaction, hexisting] at hfresh
    cases hfresh

theorem Retains.upsertRow (h : ts.Retains q row v) {other : BranchRow}
    (hother : other.branch ≠ q.branch) : (ts.upsertRow other).Retains q row v := by
  apply h.congr
  · rw [row?_upsertRow, if_neg fun hsame => hother hsame.2.symm]
  · exact version?_upsertRow ..

end Tables

/-- The operation trims or deletes the branch that `q` names. -/
def Operation.Removes (q : Token) (op : Operation) : Prop :=
  ∃ r p, op = .remove r ∧ Token.decode r.token = .ok p ∧ p.tree = q.tree ∧ p.branch = q.branch

/-- Nothing is lost unless the branch is removed, or a fork gets its id. -/
theorem Effect.retains {a : Archive} {ts us : Tables} {k j : Nat} {op : Operation} {ans : Answer}
    (h : Effect a ts k op ans us j) {q : Token} {row : BranchRow} {v : Version}
    (hts : ts.Retains q row v) (hop : ¬ op.Removes q)
    (hdrawn : ∀ i, k < i → i ≤ j → (.random (a.source i) : BranchId) ≠ q.branch) :
    us.Retains q row v := by
  cases h with
  | newBranch => exact hts
  | repeated => exact hts
  | written _ _ _ hus => exact hts.writes hus
  | forked => exact hts.upsertRow (hdrawn (k + 1) (by omega) (by omega))
  | @trimmed req p _ _ _ hp _ _ _ _ hspares =>
    refine hts.sameBranch (hspares.branches _ _ fun hsame => hop ?_)
    exact ⟨.trim req, p, rfl, hp, hsame.1.symm, hsame.2.symm⟩
  | @deleted req p _ _ hp _ hspares =>
    refine hts.sameBranch (hspares.branches _ _ fun hsame => hop ?_)
    exact ⟨.delete req, p, rfl, hp, hsame.1.symm, hsame.2.symm⟩

namespace Archive

variable {a : Archive} {s t : State MemoryStore} {q : Token} {row : BranchRow} {v : Version}

/-- The states that follow `s` until the branch that `q` names is removed. -/
inductive Later (a : Archive) (q : Token) (s : State MemoryStore) : State MemoryStore → Prop
  | now : Later a q s s
  /-- Whatever does not touch the store and delays nothing: questions, leases. -/
  | aside {t u : State MemoryStore} (h : Later a q s t) (hstore : u.store = t.store)
      (hdrawn : u.drawn = t.drawn) (hdelay : u.delay = t.delay) : Later a q s u
  /-- Any operation; if it removes the branch, then not successfully. -/
  | call {t : State MemoryStore} (h : Later a q s t) (op : Operation)
      (hop : op.Removes q → ∃ e, (op.perform a).answer t = .error e) :
      Later a q s ((op.perform a).final t)

theorem drawn_le (op : Operation) (hs : s.Unarmed) : s.drawn ≤ ((op.perform a).final s).drawn := by
  rcases (perform_outcome op hs).2 with ⟨ans, -, heffect⟩ | ⟨e, -, -, hle⟩
  · exact heffect.le
  · exact hle

theorem Later.unarmed (h : Later a q s t) (hs : s.Unarmed) : t.Unarmed := by
  induction h with
  | now => exact hs
  | aside _ hstore _ hdelay ih =>
    exact ⟨(congrArg MemoryStore.fault hstore).trans ih.1, hdelay.trans ih.2⟩
  | call _ op _ ih => exact (perform_outcome op ih).1

theorem Later.drawn_le (h : Later a q s t) (hs : s.Unarmed) : s.drawn ≤ t.drawn := by
  induction h with
  | now => exact Nat.le_refl _
  | aside _ _ hdrawn _ ih => exact hdrawn ▸ ih
  | call h op _ ih => exact Nat.le_trans ih (Archive.drawn_le op (h.unarmed hs))

/-- **Until it is removed a branch retains what was written to it.** -/
theorem Later.retains (h : Later a q s t) (hs : s.Unarmed) (hts : s.tables.Retains q row v)
    (hdrawn : ∀ i, s.drawn < i → i ≤ t.drawn → (.random (a.source i) : BranchId) ≠ q.branch) :
    t.tables.Retains q row v := by
  induction h with
  | now => exact hts
  | @aside t u _ hstore hcount _ ih =>
    rw [hcount] at hdrawn
    rw [State.tables, hstore]
    exact ih hdrawn
  | @call t h op hop ih =>
    have ht := h.unarmed hs
    have hle := Archive.drawn_le (a := a) op ht
    have hlater := h.drawn_le hs
    have hretains := ih fun i hi hit => hdrawn i hi (Nat.le_trans hit hle)
    rcases (perform_outcome op ht).2 with ⟨ans, hans, heffect⟩ | ⟨e, -, htables, -⟩
    · refine heffect.retains hretains (fun hremoves => ?_) fun i hi => hdrawn i (by omega)
      obtain ⟨e, he⟩ := hop hremoves
      cases hans.symm.trans he
    · rwa [htables]

/-! ## Repetitions -/

/-- What is made of a version that is found: a repetition, or a conflict. -/
theorem repetition_apply {σ : Type} (existing : Version) (blob : Bytes) (s : State σ) :
    repetition existing blob s =
      if existing.blob = blob then .ok ⟨blob.length, existing.node⟩ s
      else .error (.conflict (.otherBatch existing.node existing.transaction))
        { s with counters := s.counters.countConflict } := by
  unfold repetition
  split <;> rfl

/-- Whatever else is stored by now, and whatever it says it was written after, a version that is
retained is found, and so is one with another blob in its place. -/
theorem store_of_retains (hs : s.Unarmed) (h : s.tables.Retains q row v) {d : Deadline}
    (hd : d.expired = false) {w : Version}
    (hcheck : checkVersion a.config.transactionSizeLimit w = .ok ()) (hnode : w.node = v.node)
    (htransaction : w.transaction = v.transaction) (req : WriteRequest) :
    let t : State MemoryStore := { s with locks := s.locks.insert q.branch }
    a.store d req q w s =
      if v.blob = w.blob then .ok ⟨w.blob.length, w.node⟩ t
      else .error (.conflict (.otherBatch w.node w.transaction))
        { t with counters := t.counters.countConflict } := by
  intro t
  obtain ⟨hrow, hown, existing, hexisting, hblob⟩ := h
  obtain ⟨hnode', htransaction'⟩ := Tables.version?_own hexisting
  have hstart : row.token.ownStart ≤ w.node := hnode ▸ hown.1
  rw [← hnode, ← htransaction] at hexisting
  have hlift := Action.lift_of_ok hcheck s
  have hlock : lock q.branch s = .ok () t := rfl
  have ht : t.Unarmed := hs
  have htables : t.tables = s.tables := rfl
  have hgetBranch := Action.ask_question hd ht fun ts => ts.row? q.tree q.branch
  have hgetVersion := Action.ask_question hd ht fun ts =>
    ts.version? q.tree q.branch w.node w.transaction
  rw [htables, hrow] at hgetBranch
  rw [htables, hexisting] at hgetVersion
  unfold store
  refine (Action.bind_of_ok hlift).trans ?_
  refine (Action.bind_of_ok hlock).trans ?_
  refine (Action.bind_of_ok hgetBranch).trans ?_
  dsimp -zeta only
  have hpure : (pure row.token : Action MemoryStore Token) t = .ok row.token t := rfl
  refine (Action.bind_of_ok hpure).trans ?_
  dsimp only
  rw [if_neg (Int64.not_lt.2 hstart)]
  refine (Action.bind_of_ok hgetVersion).trans ?_
  dsimp only
  rw [repetition_apply, hblob, hnode', htransaction', hnode, htransaction]

variable {req : WriteRequest} {payload : Payload}

/-- An append of a version that is retained, or of another batch in its place. -/
theorem append_of_retains (hs : s.Unarmed) (h : s.tables.Retains q row v) (htime : a.InTime)
    (hlease : s.leases.current req.shard = some req.lease) {w : Version}
    (hprepare : payload.prepare a.codec req = .ok (q, w))
    (hcheck : checkVersion a.config.transactionSizeLimit w = .ok ()) (hnode : w.node = v.node)
    (htransaction : w.transaction = v.transaction) :
    let t : State MemoryStore := { s with locks := s.locks.insert q.branch }
    (Operation.append req payload).perform a s =
      if v.blob = w.blob then .ok (.receipt ⟨w.blob.length, w.node⟩) t
      else .error (.conflict (.otherBatch w.node w.transaction))
        { t with counters := t.counters.countConflict } := by
  intro t
  have hlift := Action.lift_of_ok hprepare s
  rw [perform_append]
  refine (Action.bind_of_ok (checkLease_of_current hlease)).trans ?_
  refine (Action.bind_of_ok hlift).trans ?_
  rw [Action.map_apply,
    store_of_retains hs h (htime.not_expired payload.operation) hcheck hnode htransaction req]
  by_cases hblob : v.blob = w.blob
  · rw [if_pos hblob, if_pos hblob]
  · rw [if_neg hblob, if_neg hblob]

/-- What was accepted is retained, if the branch has a row then. -/
theorem Accepts.retains {ts : Tables} {d : Deadline} {isNew : Bool} {info : String}
    {now : Timestamp} (h : a.Accepts d isNew ts q v)
    (hrow : (ts.written ⟨q, info, now⟩ v).row? q.tree q.branch = some row) :
    (ts.written ⟨q, info, now⟩ v).Retains q row v := by
  have hbelow := (checkVersion_eq_ok h.version).1
  refine ⟨hrow, ⟨?_, hbelow⟩, h.stored info now⟩
  rcases h.cases info now with ⟨existing, -, -, hsame⟩ | ⟨other, hwrites⟩
  · obtain ⟨token, htoken, hown, -⟩ := h.admits
    rw [hsame] at hrow
    rw [Tables.writer?_of_row hrow] at htoken
    cases htoken
    exact hown
  · cases hwrites.named.symm.trans hrow
    exact hwrites.own

theorem prepare_lease (codec : Codec) (req : WriteRequest) (payload : Payload) (lease : LeaseId) :
    payload.prepare codec { req with lease } = payload.prepare codec req := by
  cases payload <;> rfl

theorem stamps_of_prepare {codec : Codec} (h : payload.prepare codec req = .ok (q, v)) :
    v.transaction = req.transaction ∧ v.previous = req.previous := by
  have hv := (Payload.eq_of_prepare h).2
  cases payload with
  | events es =>
    unfold Payload.version at hv
    dsimp only at hv
    split at hv
    · cases hv
      exact ⟨rfl, rfl⟩
    · cases hv
  | raw node blob =>
    cases hv
    exact ⟨rfl, rfl⟩

theorem checkVersion_of_length {limit : UInt64} {w : Version} (h : checkVersion limit v = .ok ())
    (hnode : w.node = v.node) (htransaction : w.transaction = v.transaction)
    (hprevious : w.previous = v.previous) (hlength : w.blob.length ≤ limit.toNat) :
    checkVersion limit w = .ok () := by
  obtain ⟨hbelow, hpositive, hlater⟩ := checkVersion_eq_ok h
  rw [← hnode] at hbelow
  rw [← htransaction] at hpositive hlater
  rw [← hprevious] at hlater
  unfold checkVersion
  rw [if_neg (Int64.not_le.2 hbelow), if_neg (Int64.not_le.2 hpositive),
    if_neg (Int64.not_le.2 hlater), if_neg (Nat.not_lt.2 hlength)]

/-- **Late repetitions.** After an append that succeeded, with a row of its branch, and until the
branch is trimmed or deleted, whatever is asked for in between and with whatever tokens, as long as
no id that is drawn is the id of the branch: the same request under the current lease gets the same
answer again and changes neither tables nor counters. With another blob, as long as a version can be
made up of it and it keeps within the limit, it is a conflict that changes no table. -/
theorem append_repeatable (hs : s.Unarmed) {ans : Answer}
    (hans : ((Operation.append req payload).perform a).answer s = .ok ans)
    (hq : Token.decode req.token = .ok q)
    (hrow : (((Operation.append req payload).perform a).final s).tables.row? q.tree q.branch =
      some row)
    (ht : Later a q (((Operation.append req payload).perform a).final s) t)
    (hdrawn : ∀ i, (((Operation.append req payload).perform a).final s).drawn < i → i ≤ t.drawn →
      (.random (a.source i) : BranchId) ≠ q.branch)
    {lease : LeaseId} (hlease : t.leases.current req.shard = some lease) :
    let again (p : Payload) : Action MemoryStore Answer :=
      (Operation.append { req with lease } p).perform a
    ((again payload).answer t = .ok ans ∧ ((again payload).final t).tables = t.tables ∧
      ((again payload).final t).counters = t.counters) ∧
    ∀ other v w, payload.prepare a.codec req = .ok (q, v) → other.prepare a.codec req = .ok (q, w) →
      w.node = v.node → w.blob ≠ v.blob → w.blob.length ≤ a.config.transactionSizeLimit.toNat →
      (again other).answer t = .error (.conflict (.otherBatch v.node req.transaction)) ∧
        ((again other).final t).tables = t.tables ∧
        ((again other).final t).counters = t.counters.countConflict := by
  intro again
  obtain ⟨hu, p, v, hprepare, haccepts, htables, rfl⟩ := append_outcome hs hans
  cases hq.symm.trans (Payload.eq_of_prepare hprepare).1
  rw [htables] at hrow
  have hretains : t.tables.Retains q row v := by
    refine ht.retains hu ?_ hdrawn
    rw [htables]
    exact haccepts.retains hrow
  have htime : a.InTime := .of_not_expired haccepts.time
  have hagain : ∀ other w, other.prepare a.codec req = .ok (q, w) →
      checkVersion a.config.transactionSizeLimit w = .ok () → w.node = v.node →
      again other t = if v.blob = w.blob then .ok (.receipt ⟨w.blob.length, w.node⟩)
          { t with locks := t.locks.insert q.branch }
        else .error (.conflict (.otherBatch w.node w.transaction))
          { t with locks := t.locks.insert q.branch, counters := t.counters.countConflict } := by
    intro other w hother hcheck hnode
    have htransaction : w.transaction = v.transaction :=
      (stamps_of_prepare hother).1.trans (stamps_of_prepare hprepare).1.symm
    rw [← prepare_lease a.codec req other lease] at hother
    exact append_of_retains (ht.unarmed hu) hretains htime hlease hother hcheck hnode htransaction
  constructor
  · have hsame := hagain payload v hprepare haccepts.version rfl
    rw [if_pos rfl] at hsame
    unfold Action.answer Action.final
    rw [hsame]
    exact ⟨rfl, rfl, rfl⟩
  · intro other v' w hv hother hnode hblob hlength
    cases hprepare.symm.trans hv
    obtain ⟨htransaction, hprevious⟩ := stamps_of_prepare hother
    obtain ⟨htransaction', hprevious'⟩ := stamps_of_prepare hprepare
    have hcheck := checkVersion_of_length haccepts.version hnode
      (htransaction.trans htransaction'.symm) (hprevious.trans hprevious'.symm) hlength
    have hconflict := hagain other w hother hcheck hnode
    rw [if_neg (Ne.symm hblob)] at hconflict
    unfold Action.answer Action.final
    rw [hconflict, hnode, htransaction]
    exact ⟨rfl, rfl, rfl⟩

end Archive

namespace Sample

def begun : Run :=
  ⟨[write root 1 5 0 [1], .newBranch "" "" "" .unset], [Forked.bytes root], by decide +kernel,
    by decide +kernel⟩

def secondWrite : Operation := write root 2 6 5 [2]
def continued : State MemoryStore := (secondWrite.perform archive).final begun.state

/-- The branch is forked, the fork written and deleted, and the first node written anew. -/
def meanwhile : List Operation :=
  [.fork (forkRequest (Forked.bytes root)), write fork 2 7 5 [3],
    .remove (.delete ⟨1, 1, Forked.bytes fork⟩), write root 1 9 0 [9]]

def changed : State MemoryStore :=
  meanwhile.foldl (fun t op => (op.perform archive).final t) continued

def busy : State MemoryStore := { changed with leases := ⟨leases.leases.insert 1 ⟨2, true⟩⟩ }

/-- A token with the id that the archive draws next. -/
def squatter : Token := ⟨"", "", "", ⟨7⟩, .random (archive.source 1), [], .unset⟩

end Sample

namespace Archive

theorem later_calls {a : Archive} {q : Token} {s t : State MemoryStore} {ops : List Operation}
    (h : Later a q s t) (hops : ∀ op ∈ ops, ¬ op.Removes q) :
    Later a q s (ops.foldl (fun t op => (op.perform a).final t) t) := by
  induction ops generalizing t with
  | nil => exact h
  | cons op ops ih =>
    refine ih (.call h op fun hremoves => ?_) fun op hop => hops op (List.mem_cons_of_mem _ hop)
    exact absurd hremoves (hops op (List.mem_cons_self ..))

/-- The second write is repeated under the new lease, though the transaction before its node is
another one by now. -/
theorem append_repeatable_busy :
    let again (blob : Bytes) : Action MemoryStore Answer :=
      (Operation.append ⟨1, 2, Forked.bytes Sample.root, 6, 5, true, ""⟩ (.raw 2 blob)).perform
        Sample.archive
    (Sample.secondWrite.perform Sample.archive).answer Sample.begun.state =
        .ok (.receipt ⟨1, 2⟩) ∧
      Later Sample.archive Sample.root Sample.continued Sample.busy ∧
      ((again [2]).answer Sample.busy = .ok (.receipt ⟨1, 2⟩) ∧
        ((again [2]).final Sample.busy).tables = Sample.busy.tables) ∧
      (again [7]).answer Sample.busy = .error (.conflict (.otherBatch 2 6)) := by
  intro again
  have hfirst : (Sample.secondWrite.perform Sample.archive).answer Sample.begun.state =
      .ok (.receipt ⟨1, 2⟩) := by decide +kernel
  have hroot : Token.decode (Forked.bytes Sample.root) = .ok Sample.root := rfl
  have hfork : Token.decode (Forked.bytes Sample.fork) = .ok Sample.fork := rfl
  have hrow : Sample.continued.tables.row? Sample.root.tree Sample.root.branch =
      some ⟨Sample.root, "", 0⟩ := by decide +kernel
  have hothers : ∀ op ∈ Sample.meanwhile, ¬ op.Removes Sample.root := by
    intro op hop hremoves
    obtain ⟨r, p, rfl, hp, -, hbranch⟩ := hremoves
    have hr : r = .delete ⟨1, 1, Forked.bytes Sample.fork⟩ := by
      simpa [Sample.meanwhile, Sample.write] using hop
    subst hr
    cases hfork.symm.trans hp
    exact absurd hbranch (by decide)
  have hchanged : Later Sample.archive Sample.root Sample.continued Sample.changed :=
    later_calls .now hothers
  have hlater : Later Sample.archive Sample.root Sample.continued Sample.busy :=
    .aside hchanged (by rw [Sample.busy]) (by rw [Sample.busy]) (by rw [Sample.busy])
  have hcount : Sample.continued.drawn = 2 ∧ Sample.busy.drawn = 3 := by decide +kernel
  have hdrawn : ∀ i, Sample.continued.drawn < i → i ≤ Sample.busy.drawn →
      (.random (Sample.archive.source i) : BranchId) ≠ Sample.root.branch := by
    intro i hi hle
    have hthree : i = 3 := by omega
    rw [hthree]
    decide
  have hlease : Sample.busy.leases.current 1 = some 2 := by decide +kernel
  obtain ⟨⟨hans, htables, -⟩, hother⟩ := append_repeatable Sample.begun.reaches.unarmed hfirst hroot
    hrow hlater hdrawn hlease
  have hlimit : 1 ≤ Sample.archive.config.transactionSizeLimit.toNat := by decide +kernel
  have hconflict :=
    hother (.raw 2 [7]) ⟨2, 6, 5, [2]⟩ ⟨2, 6, 5, [7]⟩ rfl rfl rfl (by decide) hlimit
  exact ⟨hfirst, hlater, ⟨hans, htables⟩, hconflict.1⟩

/-- Where repetitions end. Another blob that is empty is refused before it is compared. If a caller
made up the id of a branch, a fork may be given the same id and take the place of its row: then the
node of the repeated append is no longer one of the branch's own, though all ids that were drawn
differ. And a trim that is late, and fails, may have removed the version, which is stored again. -/
theorem append_not_repeatable :
    let first := Sample.write Sample.squatter 1 5 0 [1]
    let s : State MemoryStore := { State.fresh .empty with leases := Sample.leases }
    let u := (first.perform Sample.archive).final s
    let others := [Sample.write Sample.squatter 2 6 5 [2],
      .fork (Sample.forkRequest (Forked.bytes Sample.squatter))]
    let t := others.foldl (fun t op => (op.perform Sample.archive).final t) u
    let v := (Sample.hurried.after Sample.leases Sample.threeBatches).1
    let trim : Operation := .remove (.trim ⟨1, 1, Forked.bytes Sample.root, 1, 5⟩)
    let late : State MemoryStore := { v with delay := some 4 }
    let w := (trim.perform Sample.hurried).final late
    let second := Sample.write Sample.root 2 6 5 [2]
    (first.perform Sample.archive).answer s = .ok (.receipt ⟨1, 1⟩) ∧
      (u.tables.row? Sample.squatter.tree Sample.squatter.branch).isSome ∧
      Later Sample.archive Sample.squatter u t ∧ Sample.archive.DistinctDraws t.drawn ∧
      ((Sample.write Sample.squatter 1 5 0 []).perform Sample.archive).answer u =
        .error (.invalidArgument .emptyBlob) ∧
      (first.perform Sample.archive).answer t = .error (.invalidArgument (.inheritedNode 1 2)) ∧
      (trim.perform Sample.hurried).answer late = .error (.timeout "trim_history_branch") ∧
      w.tables.versionCount = 1 ∧
      ((second.perform Sample.hurried).final w).tables.versionCount = 2 := by
  intro first s u others t v trim late w second
  have hanswers : (first.perform Sample.archive).answer s = .ok (.receipt ⟨1, 1⟩) ∧
      (u.tables.row? Sample.squatter.tree Sample.squatter.branch).isSome ∧
      ((Sample.write Sample.squatter 1 5 0 []).perform Sample.archive).answer u =
        .error (.invalidArgument .emptyBlob) ∧
      (first.perform Sample.archive).answer t = .error (.invalidArgument (.inheritedNode 1 2)) := by
    decide +kernel
  obtain ⟨hfirst, hrow, hempty, hrepeated⟩ := hanswers
  have hothers : ∀ op ∈ others, ¬ op.Removes Sample.squatter := by
    rintro op hop ⟨r, p, rfl, -⟩
    simp [others, Sample.write] at hop
  have hcount : t.drawn = 1 := by decide +kernel
  have hdistinct : Sample.archive.DistinctDraws t.drawn := by
    rw [hcount]
    intro i j hi hij hj
    omega
  have hlate : (trim.perform Sample.hurried).answer late = .error (.timeout "trim_history_branch") ∧
      w.tables.versionCount = 1 ∧
      ((second.perform Sample.hurried).final w).tables.versionCount = 2 := by decide +kernel
  exact ⟨hfirst, hrow, later_calls .now hothers, hdistinct, hempty, hrepeated, hlate⟩

end Archive

end Chronicle
