import Chronicle.Proofs.Atomicity
import Chronicle.Proofs.Fencing
import Chronicle.Proofs.Requests
import Chronicle.Storage.Tables.Contents

/-!
# The counters account for the versions

An archive counts the versions that its appends stored and those that its trims and deletes removed.
Deletes also remove versions of other branches, that their forks left behind, and a trim asks for
each version by itself; but each counts what the backend says was there.

* `Tally`: the counters that matter here; `Action.Quiet`: what changes neither tables nor tally.
* `Tables.Sheds`: so many versions are gone; `Accounted`: tables and tally change together.
* `request_accounted`: one request; `Serves`: runs of requests; `Serves.accounts`: the result.
-/
namespace Chronicle

open Archive (State)
open Chronicle.Action (Meets meets_bind meets_map)

/-! ## Tallies -/

/-- What was counted of stored and removed versions. -/
structure Tally where
  appends : UInt64
  bytesAppended : UInt64
  nodesTrimmed : UInt64
  nodesDeleted : UInt64
  deriving DecidableEq, Repr

def Counters.tally (c : Counters) : Tally :=
  ⟨c.appends, c.bytesAppended, c.nodesTrimmed, c.nodesDeleted⟩

namespace Tally

def stored (c : Tally) : UInt64 := c.appends - c.nodesTrimmed - c.nodesDeleted

def append (c : Tally) (bytes : Nat) : Tally :=
  { c with appends := c.appends + 1, bytesAppended := c.bytesAppended + UInt64.ofNat bytes }

def trim (c : Tally) (versions : Nat) : Tally :=
  { c with nodesTrimmed := c.nodesTrimmed + UInt64.ofNat versions }

def delete (c : Tally) (versions : Nat) : Tally :=
  { c with nodesDeleted := c.nodesDeleted + UInt64.ofNat versions }

end Tally

namespace Counters

theorem tally_countAppend (bytes : Nat) (c : Counters) :
    (c.countAppend bytes).tally = c.tally.append bytes := rfl

theorem tally_countFork (c : Counters) : c.countFork.tally = c.tally := rfl

theorem tally_countTrim (n : Nat) (c : Counters) : (c.countTrim n).tally = c.tally.trim n := rfl

theorem tally_countDelete (n : Nat) (c : Counters) : (c.countDelete n).tally = c.tally.delete n :=
  rfl

end Counters

namespace Action

variable {α β : Type}

/-! ## What changes nothing -/

/-- From `s` to `t` neither the store nor the tally has changed. -/
structure Unmoved (s t : State MemoryStore) : Prop where
  store : t.store = s.store
  delay : t.delay = s.delay
  tally : t.counters.tally = s.counters.tally

theorem Unmoved.refl (s : State MemoryStore) : Unmoved s s := ⟨rfl, rfl, rfl⟩

theorem Unmoved.trans {s t u : State MemoryStore} (h : Unmoved s t) (h' : Unmoved t u) :
    Unmoved s u :=
  ⟨h'.store.trans h.store, h'.delay.trans h.delay, h'.tally.trans h.tally⟩

theorem Unmoved.unarmed {s t : State MemoryStore} (h : Unmoved s t) (hs : s.Unarmed) : t.Unarmed :=
  ⟨(congrArg MemoryStore.fault h.store).trans hs.1, h.delay.trans hs.2⟩

/-- Without a fault the operation changes neither the store nor the tally. -/
def Quiet (act : Action MemoryStore α) : Prop :=
  ∀ s : State MemoryStore, s.Unarmed → Meets act s (fun _ t => Unmoved s t) fun _ t => Unmoved s t

namespace Quiet

theorem pure {a : α} : Quiet (Pure.pure a) := fun s _ => meets_pure.2 (.refl s)

theorem throw {e : Error} : Quiet (MonadExcept.throw e : Action MemoryStore α) := fun s _ =>
  meets_throw.2 (.refl s)

theorem bind {x : Action MemoryStore β} {f : β → Action MemoryStore α} (hx : Quiet x)
    (hf : ∀ b, Quiet (f b)) : Quiet (x >>= f) := by
  intro s hs
  rw [meets_bind]
  apply (hx s hs).imp
  · intro b t h
    apply (hf b t (h.unarmed hs)).imp
    · intro a u h'
      exact h.trans h'
    · intro e u h'
      exact h.trans h'
  · intro e t h
    exact h

theorem map {x : Action MemoryStore β} {f : β → α} (hx : Quiet x) : Quiet (f <$> x) := fun s hs =>
  meets_map.2 (hx s hs)

theorem throw_bind {e : Error} {f : β → Action MemoryStore α} :
    Quiet (MonadExcept.throw e >>= f) := fun s _ => meets_bind.2 (meets_throw.2 (.refl s))

theorem lift {r : Except Error α} : Quiet (lift r) := by
  cases r with
  | ok a => exact pure
  | error e => exact throw

theorem question {d : Deadline} {g : Tables → α} :
    Quiet (ask d (MemoryStore.answer fun ts => (g ts, ts))) := by
  intro s hs
  rw [meets_ask_unarmed hs]
  exact ⟨fun _ => .refl s, fun _ => .refl s⟩

theorem count {f : Counters → Counters} (h : ∀ c, (f c).tally = c.tally) : Quiet (count f) :=
  fun s _ => meets_count.2 ⟨rfl, rfl, h s.counters⟩

theorem lock {b : BranchId} : Quiet (Archive.lock b) := fun _ _ => meets_lock.2 ⟨rfl, rfl, rfl⟩

theorem drawId {k : Kind} {a : Archive} : Quiet (a.drawId : Action MemoryStore (Id k)) :=
  fun _ _ => meets_drawId.2 ⟨rfl, rfl, rfl⟩

theorem checkLease {shard : ShardId} {lease : LeaseId} :
    Quiet (Archive.checkLease shard lease) := fun _ _ =>
  meets_checkLease.2 ⟨fun _ => ⟨rfl, rfl, rfl⟩, fun _ => ⟨rfl, rfl, rfl⟩⟩

end Quiet

/-! ## What changes tables and tally -/

/-- From every state without a fault, with the tables `ts` and the tally `c`, the operation ends in
a value, tables and a tally that satisfy `ok`, or in an error, tables and a tally that satisfy
`err`. -/
def Tallies (act : Action MemoryStore α) (ts : Tables) (c : Tally) (ok : α → Tables → Tally → Prop)
    (err : Tables → Tally → Prop) : Prop :=
  ∀ s : State MemoryStore, s.Unarmed → s.tables = ts → s.counters.tally = c →
    Meets act s (fun a t => t.Unarmed ∧ ok a t.tables t.counters.tally) fun _ t =>
      t.Unarmed ∧ err t.tables t.counters.tally

namespace Tallies

variable {ts : Tables} {c : Tally} {ok : α → Tables → Tally → Prop} {err : Tables → Tally → Prop}

theorem of_quiet {act : Action MemoryStore α} (h : Quiet act) (hok : ∀ a, ok a ts c)
    (herr : err ts c) : Tallies act ts c ok err := by
  rintro s hs rfl rfl
  apply (h s hs).imp
  · intro a t h
    refine ⟨h.unarmed hs, ?_⟩
    rw [State.tables, h.store, h.tally]
    exact hok a
  · intro e t h
    refine ⟨h.unarmed hs, ?_⟩
    rw [State.tables, h.store, h.tally]
    exact herr

theorem pure {a : α} (h : ok a ts c) : Tallies (Pure.pure a) ts c ok err := by
  rintro s hs rfl rfl
  exact meets_pure.2 ⟨hs, h⟩

theorem throw_bind {e : Error} {f : β → Action MemoryStore α} (h : err ts c) :
    Tallies (MonadExcept.throw e >>= f) ts c ok err := by
  rintro s hs rfl rfl
  exact meets_bind.2 (meets_throw.2 ⟨hs, h⟩)

theorem bind {x : Action MemoryStore β} {f : β → Action MemoryStore α}
    (h : Tallies x ts c (fun b us d => Tallies (f b) us d ok err) err) :
    Tallies (x >>= f) ts c ok err := by
  intro s hs hts hc
  rw [meets_bind]
  apply (h s hs hts hc).imp
  · intro b t ht
    exact ht.2 t ht.1 rfl rfl
  · intro e t ht
    exact ht

theorem after {x : Action MemoryStore β} {f : β → Action MemoryStore α} (hx : Quiet x)
    (herr : err ts c) (hf : ∀ b, Tallies (f b) ts c ok err) : Tallies (x >>= f) ts c ok err :=
  bind (of_quiet hx hf herr)

theorem map {x : Action MemoryStore β} {f : β → α}
    (h : Tallies x ts c (fun b => ok (f b)) err) : Tallies (f <$> x) ts c ok err := by
  intro s hs hts hc
  exact meets_map.2 (h s hs hts hc)

theorem imp {act : Action MemoryStore α} {ok' : α → Tables → Tally → Prop}
    (h : Tallies act ts c ok err) (hok : ∀ a us d, ok a us d → ok' a us d) :
    Tallies act ts c ok' err := by
  intro s hs hts hc
  apply (h s hs hts hc).imp
  · intro a t ht
    exact ⟨ht.1, hok _ _ _ ht.2⟩
  · intro e t ht
    exact ht

theorem ask {d : Deadline} {f : Tables → α × Tables}
    (hok : d.expired = false → ok (f ts).1 (f ts).2 c) (herr : err ts c) :
    Tallies (ask d (MemoryStore.answer f)) ts c ok err := by
  rintro s hs rfl rfl
  rw [meets_ask_unarmed hs]
  exact ⟨fun hd => ⟨hs, hok hd⟩, fun _ => ⟨hs, herr⟩⟩

theorem ask_inTime {d : Deadline} (hd : d.expired = false) {f : Tables → α × Tables}
    (hok : ok (f ts).1 (f ts).2 c) : Tallies (Action.ask d (MemoryStore.answer f)) ts c ok err := by
  rintro s hs rfl rfl
  rw [meets_ask_unarmed hs]
  refine ⟨fun _ => ⟨hs, hok⟩, fun hexpired => ?_⟩
  cases hd.symm.trans hexpired

theorem check_inTime {d : Deadline} (hd : d.expired = false) {ok : Unit → Tables → Tally → Prop}
    (hok : ok () ts c) : Tallies (Action.check d) ts c ok err := by
  rintro s hs rfl rfl
  rw [meets_check_unarmed hs]
  refine ⟨fun _ => ⟨hs, hok⟩, fun hexpired => ?_⟩
  cases hd.symm.trans hexpired

theorem createRow {d : Deadline} {token : Token} {info : String}
    {ok : Unit → Tables → Tally → Prop}
    (hok : d.expired = false → ∀ now, ok () (ts.upsertRow ⟨token, info, now⟩) c)
    (herr : d.expired = true → err ts c) :
    Tallies (Archive.createRow d token info) ts c ok err := by
  rintro s hs rfl rfl
  refine meets_bind.2 (meets_get.2 ((meets_ask_unarmed hs).2 ⟨?_, ?_⟩))
  · intro hd
    exact ⟨hs, hok hd s.now⟩
  · intro hd
    exact ⟨hs, herr hd⟩

theorem count {f : Counters → Counters} (g : Tally → Tally) (hf : ∀ c, (f c).tally = g c.tally)
    {ok : Unit → Tables → Tally → Prop} (h : ok () ts (g c)) :
    Tallies (Action.count f) ts c ok err := by
  rintro s hs rfl rfl
  rw [← hf] at h
  exact meets_count.2 ⟨hs, h⟩

theorem unlock {b : BranchId} {ok : Unit → Tables → Tally → Prop} (h : ok () ts c) :
    Tallies (Archive.unlock b) ts c ok err := by
  rintro s hs rfl rfl
  exact meets_unlock.2 ⟨hs, h⟩

theorem discard {x : Action MemoryStore β} {ok : Unit → Tables → Tally → Prop}
    (h : Tallies x ts c (fun _ => ok ()) err) : Tallies (Functor.discard x) ts c ok err :=
  map h

end Tallies

end Action

open Chronicle.Action (Quiet Tallies)

/-! ## Questions -/

namespace Selection

variable {d : Deadline} {plan : Plan}

theorem sweep_quiet (s : Span) (start : NodeId) (k : UInt64) (fuel : Nat)
    (after : Option Position) (taken : List Version) (c : Cursor) :
    Quiet (sweep d plan s start k fuel after taken c) := by
  induction fuel generalizing after taken c with
  | zero => exact .pure
  | succ fuel ih =>
    refine .bind .question fun rows => .bind .lift fun progress => ?_
    split
    · exact .pure
    · exact ih _ _ _

theorem walk_quiet (k : UInt64) (spans : List Span) (taken : List Version) (c : Cursor) :
    Quiet (walk d plan k spans taken c) := by
  induction spans generalizing taken c with
  | nil => exact .pure
  | cons s rest ih =>
    refine .bind (sweep_quiet _ _ _ _ _ _ _) fun progress => ?_
    split
    · exact .pure
    · exact ih _ _

theorem page_quiet (c : Cursor) (k : UInt64) : Quiet (page d plan c k) := by
  unfold page
  split
  · exact .throw
  · exact walk_quiet k _ _ c

theorem exhaust_quiet (k : UInt64) (fuel : Nat) (c : Cursor) : Quiet (exhaust d plan k fuel c) := by
  induction fuel generalizing c with
  | zero => exact .pure
  | succ fuel ih =>
    refine .bind (page_quiet c k) fun selection => ?_
    split
    · exact .pure
    · exact ih _

end Selection

namespace Archive

variable (a : Archive) (d : Deadline)

theorem requireRow_quiet (t : Token) : Quiet (requireRow d t) := by
  refine .bind .question fun row => ?_
  split
  · exact .pure
  · exact .throw

theorem plan_quiet (req : ReadRequest) : Quiet (plan d req) := by
  unfold plan
  dsimp only
  split
  · exact .throw_bind
  · exact .bind .lift fun t => .bind (requireRow_quiet d t) fun row => .pure

theorem selectPage_quiet (req : ReadRequest) : Quiet (a.selectPage d req) := by
  refine .bind (plan_quiet d req) fun p => .bind .lift fun c =>
    .bind (Selection.page_quiet c _) fun selection => ?_
  dsimp only
  split
  · exact .throw_bind
  · exact .pure

theorem readRaw_quiet (req : ReadRequest) : Quiet (a.readRaw req) :=
  .bind (selectPage_quiet a _ req) fun _ => .bind (.count fun _ => rfl) fun _ => .pure

theorem readBatchesAs_quiet (operation : String) (req : ReadRequest) :
    Quiet (a.readBatchesAs operation req) :=
  .bind (selectPage_quiet a _ req) fun _ => .bind .lift fun _ =>
    .bind (.count fun _ => rfl) fun _ => .pure

theorem readEvents_quiet (req : ReadRequest) : Quiet (a.readEvents req) :=
  .bind (readBatchesAs_quiet a _ req) fun _ => .pure

theorem readWindow_quiet (p : Plan) (fuel : Nat) (c : Cursor) :
    Quiet (a.readWindow d p fuel c) := by
  induction fuel generalizing c with
  | zero => exact .pure
  | succ fuel ih =>
    refine .bind (Selection.page_quiet c _) fun selection => .bind .lift fun decoded => ?_
    dsimp only
    split
    · exact .pure
    · exact .bind (ih _) fun rest => .pure

theorem readBackward_quiet (req : ReadRequest) : Quiet (a.readBackward req) := by
  refine .bind (plan_quiet _ req) fun p => .bind .lift fun below =>
    .bind (readWindow_quiet a _ p _ _) fun window => ?_
  dsimp only
  split
  · exact .throw_bind
  · exact .bind (.count fun _ => rfl) fun _ => .pure

theorem branches_quiet (tree : TreeId) : Quiet (a.branches tree) :=
  .bind .question fun _ => .lift

theorem scan_quiet (size : UInt64) (page : Bytes) : Quiet (a.scan size page) :=
  .bind .lift fun _ => .bind .question fun _ => .bind .lift fun _ => .pure

theorem newBranch_quiet (namespaceId workflowId runId : String) (retention : Retention) :
    Quiet (a.newBranch namespaceId workflowId runId retention) :=
  .bind .drawId fun _ => .bind .drawId fun _ => .lift

theorem precedingIn_quiet (tree : TreeId) (node : NodeId) (spans : List Span) (x : TransactionId) :
    Quiet (precedingIn d tree node x spans) := by
  induction spans generalizing x with
  | nil => exact .pure
  | cons s rest ih =>
    unfold precedingIn
    extract_lets before
    split
    · exact .bind .question fun y => ih _
    · exact ih _

theorem repetition_quiet (existing : Version) (blob : Bytes) :
    Quiet (repetition existing blob) := by
  unfold repetition
  split
  · exact .pure
  · exact .bind (.count fun _ => rfl) fun _ => .throw

end Archive

/-! ## Changes -/

/-- Of `ts`, so many versions are gone in `us`, and none was added. -/
structure Tables.Sheds (ts us : Tables) (n : Nat) : Prop where
  count : us.versionCount + n = ts.versionCount
  gains : ∀ t b m x, ts.version? t b m x = none → us.version? t b m x = none

namespace Tables.Sheds

variable {ts us vs : Tables} {m n : Nat}

theorem trans (h : ts.Sheds us m) (h' : us.Sheds vs n) : ts.Sheds vs (m + n) where
  count := by
    have := h.count
    have := h'.count
    omega
  gains t b k x hnone := h'.gains t b k x (h.gains t b k x hnone)

theorem of_same (h : ∀ t b m x, us.version? t b m x = ts.version? t b m x) : ts.Sheds us 0 :=
  ⟨versionCount_congr h, fun t b m x hnone => (h t b m x).trans hnone⟩

theorem refl : ts.Sheds ts 0 := of_same fun _ _ _ _ => rfl

theorem eraseFrom (ts : Tables) (t : TreeId) (b : BranchId) (start : NodeId) :
    ts.Sheds (ts.eraseFrom t b start) (ts.countFrom t b start) where
  count := versionCount_eraseFrom ..
  gains u c m x hnone := by
    rw [version?_eraseFrom, hnone, ite_self]

theorem eraseVersion (ts : Tables) (t : TreeId) (b : BranchId) (k : NodeId) (x : TransactionId) :
    ts.Sheds (ts.eraseVersion t b k x) (if (ts.version? t b k x).isSome then 1 else 0) where
  count := versionCount_eraseVersion ..
  gains u c m y hnone := by
    rw [version?_eraseVersion, hnone, ite_self]

end Tables.Sheds

namespace Archive

variable {ts : Tables} {c : Tally}

theorem removeVersions_tallies {d : Deadline} (hd : d.expired = false) (t : TreeId) (b : BranchId)
    (vs : List Version) (ts : Tables) {err : Tables → Tally → Prop} :
    Tallies (removeVersions d t b vs) ts c (fun n us c' => ts.Sheds us n ∧ c' = c) err := by
  induction vs generalizing ts with
  | nil => exact .pure ⟨.refl, rfl⟩
  | cons v rest ih =>
    refine .bind (.ask_inTime hd (.bind ((ih _).imp fun n us c' h => .pure ?_)))
    exact ⟨(Tables.Sheds.eraseVersion ..).trans h.1, h.2⟩

theorem trim_tallies (a : Archive) (req : TrimRequest) :
    Tallies (a.trim req) ts c (fun n us c' => ts.Sheds us n ∧ c' = c.trim n)
      fun us c' => us = ts ∧ c' = c := by
  have hnone : ts = ts ∧ c = c := ⟨rfl, rfl⟩
  refine .after .checkLease hnone fun _ => .after .lift hnone fun q =>
    .after (requireRow_quiet _ q) hnone fun row => ?_
  dsimp only
  split
  · exact .throw_bind hnone
  refine .after .lock hnone fun _ => .after .question hnone fun watermark => ?_
  split
  · exact .throw_bind hnone
  refine .after .question hnone fun rows => ?_
  split
  · exact .throw_bind hnone
  refine .bind (.ask (fun hd => ?_) hnone)
  refine .bind (.ask_inTime hd ?_)
  refine .bind ((removeVersions_tallies hd _ _ _ _).imp fun others us c' h => ?_)
  obtain ⟨hothers, rfl⟩ := h
  exact .bind (.count (·.trim _) (Counters.tally_countTrim _)
    (.pure ⟨(Tables.Sheds.eraseFrom ..).trans hothers, rfl⟩))

theorem collect_tallies {d : Deadline} (hd : d.expired = false) (t : TreeId)
    (rows : List BranchRow) (spans : List Span) (ts : Tables) {err : Tables → Tally → Prop} :
    Tallies (collect d t rows spans) ts c (fun n us c' => ts.Sheds us n ∧ c' = c) err := by
  induction spans generalizing ts with
  | nil => exact .pure ⟨.refl, rfl⟩
  | cons s rest ih =>
    unfold collect
    split
    · split
      · exact .ask_inTime hd ⟨.eraseFrom .., rfl⟩
      · exact .bind (.check_inTime hd (.pure ⟨.refl, rfl⟩))
    · refine .bind (.ask_inTime hd (.bind ((ih _).imp fun n us c' h => .pure ?_)))
      exact ⟨(Tables.Sheds.eraseFrom ..).trans h.1, h.2⟩

theorem delete_tallies (a : Archive) (req : DeleteRequest) :
    Tallies (a.delete req) ts c (fun n us c' => ts.Sheds us n ∧ c' = c.delete n)
      fun us c' => us = ts ∧ c' = c := by
  have hnone : ts = ts ∧ c = c := ⟨rfl, rfl⟩
  refine .after .checkLease hnone fun _ => .after .lift hnone fun q => ?_
  refine .after .lock hnone fun _ => .after .question hnone fun row => ?_
  refine .bind (.discard (.ask (fun hd => ?_) hnone))
  have herased : ts.Sheds (ts.eraseRow q.tree q.branch) 0 :=
    .of_same fun _ _ _ _ => Tables.version?_eraseRow ..
  refine .bind (.ask_inTime hd ?_)
  refine .bind ((collect_tallies hd q.tree _ _ _).imp fun n us c' h => ?_)
  obtain ⟨hus, rfl⟩ := h
  refine .bind (.discard (.ask_inTime hd (.bind (.unlock (.bind
    (.count (·.delete _) (Counters.tally_countDelete _) (.pure ⟨?_, rfl⟩)))))))
  have htotal := herased.trans hus
  rw [Nat.zero_add] at htotal
  split
  · next hempty => exact htotal.trans (.of_same fun _ _ _ _ => Tables.version?_eraseTree hempty ..)
  · exact htotal

theorem lastVisible_quiet (a : Archive) (d : Deadline) (t : Token) (before : NodeId) :
    Quiet (a.lastVisible d t before) :=
  .bind (Selection.exhaust_quiet _ _ _) fun _ => .pure

theorem fork_tallies (a : Archive) (req : ForkRequest) :
    Tallies (a.fork req) ts c (fun _ us c' => ts.Sheds us 0 ∧ c' = c)
      fun us c' => us = ts ∧ c' = c := by
  have hnone : ts = ts ∧ c = c := ⟨rfl, rfl⟩
  refine .after .checkLease hnone fun _ => ?_
  dsimp only
  split
  · exact .throw_bind hnone
  refine .after .lift hnone fun q => .after (requireRow_quiet _ q) hnone fun row =>
    .after (lastVisible_quiet a _ _ _) hnone fun visible => ?_
  split
  · exact .throw_bind hnone
  split
  · exact .throw_bind hnone
  refine .after .drawId hnone fun branch => .after .lift hnone fun bytes => ?_
  refine .bind (.createRow (fun _ now => ?_) fun _ => hnone)
  refine .bind (.count id Counters.tally_countFork (.pure ⟨.of_same fun _ _ _ _ => ?_, rfl⟩))
  exact Tables.version?_upsertRow ..

/-- Storing a version that is not there yet, and before it the row of a branch that is new. -/
theorem insert_tallies {d : Deadline} (hd : d.expired = false) {q token : Token} {isNew : Bool}
    (info : String) {v : Version} (htoken : ts.writer? q isNew = some token)
    (hfresh : ts.version? q.tree q.branch v.node v.transaction = none)
    {err : Tables → Tally → Prop} :
    Tallies (do
        if (ts.row? q.tree q.branch).isNone then
          createRow d token info
        match ← Action.ask d (Backend.insertVersion q.tree q.branch v) with
        | .duplicate existing => repetition existing v.blob
        | .inserted =>
          Action.count (·.countAppend v.blob.length)
          return (⟨v.blob.length, v.node⟩ : Receipt)) ts c
      (fun _ us c' => (∃ now, ts.Adds q isNew info now v us) ∧ c' = c.append v.blob.length)
      err := by
  have hadds : ∀ now, ts.Adds q isNew info now v (ts.written ⟨q, info, now⟩ v) := by
    intro now
    refine Tables.adds_written info now hfresh fun hrow => ?_
    exact ((Tables.writer?_eq_some_of_none hrow).1 htoken).1
  cases hrow : ts.row? q.tree q.branch with
  | some row =>
    have hwritten : ts.written ⟨q, info, 0⟩ v = (ts.insertVersion q.tree q.branch v).2 :=
      Tables.written_of_row hfresh hrow
    refine .bind (.ask_inTime hd ?_)
    rw [Tables.insertVersion_fst, hfresh]
    exact .bind (.count (·.append _) (Counters.tally_countAppend _)
      (.pure ⟨⟨0, hwritten ▸ hadds 0⟩, rfl⟩))
  | none =>
    obtain ⟨-, rfl⟩ := (Tables.writer?_eq_some_of_none hrow).1 htoken
    refine .bind (.createRow (fun _ now => .bind (.ask_inTime hd ?_)) ?_)
    · have hwritten : ts.written ⟨q, info, now⟩ v =
          ((ts.upsertRow ⟨q, info, now⟩).insertVersion q.tree q.branch v).2 :=
        Tables.written_of_none hfresh hrow
      rw [Tables.insertVersion_fst, Tables.version?_upsertRow, hfresh]
      exact .bind (.count (·.append _) (Counters.tally_countAppend _)
        (.pure ⟨⟨now, hwritten ▸ hadds now⟩, rfl⟩))
    · intro hexpired
      cases hd.symm.trans hexpired

theorem store_tallies (a : Archive) (d : Deadline) (req : WriteRequest) (q : Token) (v : Version) :
    Tallies (a.store d req q v) ts c
      (fun _ us c' => us = ts ∧ c' = c ∨
        (∃ now, ts.Adds q req.isNewBranch req.info now v us) ∧ c' = c.append v.blob.length)
      fun us c' => us = ts ∧ c' = c := by
  have hnone : ts = ts ∧ c = c := ⟨rfl, rfl⟩
  refine .after .lift hnone fun _ => .after .lock hnone fun _ => .bind (.ask (fun hd => ?_) hnone)
  dsimp -zeta only
  extract_lets tree branch insert rest
  have hrest : ∀ token, ts.writer? q req.isNewBranch = some token → Tallies (rest token) ts c
      (fun _ us c' => us = ts ∧ c' = c ∨
        (∃ now, ts.Adds q req.isNewBranch req.info now v us) ∧ c' = c.append v.blob.length)
      fun us c' => us = ts ∧ c' = c := by
    intro token htoken
    dsimp only [rest, insert, tree, branch]
    split
    · exact .throw_bind hnone
    refine .bind (.ask_inTime hd ?_)
    dsimp only
    cases hexisting : ts.version? q.tree q.branch v.node v.transaction with
    | some existing =>
      exact .of_quiet (repetition_quiet existing v.blob) (fun _ => .inl hnone) hnone
    | none =>
      refine .after (precedingIn_quiet d _ _ _ _) hnone fun expected => ?_
      split
      · exact .after (.count fun _ => rfl) hnone fun _ => .throw_bind hnone
      · exact (insert_tallies hd req.info htoken hexisting).imp fun _ _ _ => .inr
  split
  · next row hrow => exact .bind (.pure (hrest row.token (Tables.writer?_of_row hrow)))
  next hrow =>
  split
  · next hnew =>
    exact .bind (.pure (hrest q ((Tables.writer?_eq_some_of_none hrow).2 ⟨hnew, rfl⟩)))
  · exact .throw_bind hnone

theorem append_tallies (a : Archive) (req : WriteRequest) (payload : Payload) :
    Tallies ((Operation.append req payload).perform a) ts c
      (fun _ us c' => us = ts ∧ c' = c ∨
        ∃ q v, (∃ now, ts.Adds q req.isNewBranch req.info now v us) ∧
          c' = c.append v.blob.length)
      fun us c' => us = ts ∧ c' = c := by
  have hnone : ts = ts ∧ c = c := ⟨rfl, rfl⟩
  rw [perform_append]
  refine .after .checkLease hnone fun _ => .after .lift hnone fun target => .map ?_
  exact (store_tallies a _ req target.1 target.2).imp fun _ _ _ h =>
    h.imp_right fun hadds => ⟨target.1, target.2, hadds⟩

end Archive

/-! ## Requests -/

def Record.totalSize (rs : List Record) : Nat := rs.foldr (·.version.blob.length + ·) 0

theorem Record.totalSize_append (rs more : List Record) :
    totalSize (rs ++ more) = totalSize rs + totalSize more := by
  induction rs with
  | nil => exact (Nat.zero_add _).symm
  | cons r rest ih =>
    show r.version.blob.length + totalSize (rest ++ more) =
      r.version.blob.length + totalSize rest + totalSize more
    rw [ih, Nat.add_assoc]

/-- Tables and tally changed together: by as many versions and by as many bytes. -/
structure Accounted (ts : Tables) (c : Tally) (us : Tables) (c' : Tally) : Prop where
  versions : UInt64.ofNat us.versionCount - c'.stored = UInt64.ofNat ts.versionCount - c.stored
  bytes : c'.bytesAppended = c.bytesAppended + UInt64.ofNat (Record.totalSize (ts.gained us))

namespace Accounted

variable {ts us : Tables} {c : Tally} {n : Nat}

/-- Versions that are gone and counted as such, or as nothing if there are none. -/
theorem of_sheds (h : ts.Sheds us n) {c' : Tally}
    (hstored : c'.stored = c.stored - UInt64.ofNat n)
    (hbytes : c'.bytesAppended = c.bytesAppended) : Accounted ts c us c' where
  versions := by
    rw [hstored, ← h.count, UInt64.ofNat_add]
    grind
  bytes := by
    rw [Tables.gained_eq_nil h.gains, hbytes]
    exact (UInt64.add_zero _).symm

theorem of_same (h : ts.Sheds us 0) : Accounted ts c us c :=
  of_sheds h (UInt64.sub_zero _).symm rfl

theorem of_trim (h : ts.Sheds us n) : Accounted ts c us (c.trim n) :=
  of_sheds h (by simp only [Tally.stored, Tally.trim]; grind) rfl

theorem of_delete (h : ts.Sheds us n) : Accounted ts c us (c.delete n) :=
  of_sheds h (by simp only [Tally.stored, Tally.delete]; grind) rfl

theorem of_adds {q : Token} {isNew : Bool} {info : String} {now : Timestamp} {v : Version}
    (h : ts.Adds q isNew info now v us) : Accounted ts c us (c.append v.blob.length) where
  versions := by
    rw [Tables.versionCount_of_added h.fresh h.versions, UInt64.ofNat_add]
    simp only [Tally.stored, Tally.append]
    grind
  bytes := by
    rw [Tables.gained_of_added h.fresh h.versions]
    rfl

end Accounted

namespace Archive

variable {ts : Tables} {c : Tally}

theorem operation_tallies (a : Archive) (op : Operation) :
    Tallies (op.perform a) ts c (fun _ us c' => Accounted ts c us c')
      fun us c' => us = ts ∧ c' = c := by
  cases op with
  | newBranch namespaceId workflowId runId retention =>
    exact .map (.of_quiet (newBranch_quiet a _ _ _ _) (fun _ => .of_same .refl) ⟨rfl, rfl⟩)
  | append req payload =>
    refine (append_tallies a req payload).imp fun _ us c' h => ?_
    rcases h with ⟨rfl, rfl⟩ | ⟨q, v, ⟨now, hadds⟩, rfl⟩
    · exact .of_same .refl
    · exact .of_adds hadds
  | fork req =>
    refine .map ((fork_tallies a req).imp fun _ us c' h => ?_)
    obtain ⟨hus, rfl⟩ := h
    exact .of_same hus
  | remove r =>
    cases r with
    | trim req =>
      refine .map ((trim_tallies a req).imp fun n us c' h => ?_)
      obtain ⟨hus, rfl⟩ := h
      exact .of_trim hus
    | delete req =>
      refine .map ((delete_tallies a req).imp fun n us c' h => ?_)
      obtain ⟨hus, rfl⟩ := h
      exact .of_delete hus

/-- **Requests.** -/
theorem request_tallies (a : Archive) (r : Request) :
    Tallies (r.perform a) ts c (fun _ us c' => Accounted ts c us c')
      fun us c' => us = ts ∧ c' = c := by
  have hquiet : ∀ {α : Type} {act : Action MemoryStore α}, Quiet act →
      Tallies act ts c (fun _ us c' => Accounted ts c us c') fun us c' => us = ts ∧ c' = c :=
    fun h => .of_quiet h (fun _ => .of_same .refl) ⟨rfl, rfl⟩
  cases r with
  | change op => exact .map (operation_tallies a op)
  | readRaw req => exact hquiet (.map (readRaw_quiet a req))
  | readBatches req => exact hquiet (.map (readBatchesAs_quiet a _ req))
  | readEvents req => exact hquiet (.map (readEvents_quiet a req))
  | readBackward req => exact hquiet (.map (readBackward_quiet a req))
  | branches tree => exact hquiet (.map (branches_quiet a tree))
  | scan size page => exact hquiet (.map (scan_quiet a size page))

variable {a : Archive} {s : State MemoryStore}

/-- Whether it succeeds or not, a request leaves no fault and changes tables and tally together. -/
theorem request_accounted (hs : s.Unarmed) (r : Request) :
    ((r.perform a).final s).Unarmed ∧ Accounted s.tables s.counters.tally
      ((r.perform a).final s).tables ((r.perform a).final s).counters.tally := by
  rcases Action.outcome_of_meets (request_tallies a r s hs rfl rfl) with
    ⟨_, -, ht, haccounted⟩ | ⟨_, -, ht, htables, htally⟩
  · exact ⟨ht, haccounted⟩
  · rw [htables, htally]
    exact ⟨ht, .of_same .refl⟩

/-! ## Runs of requests -/

/-- The states of an archive that was opened on an empty store and serves requests, while time goes
by and the leases of shards change; and the versions inserted so far. -/
inductive Serves (a : Archive) : State MemoryStore → List Record → Prop
  | start : Serves a (.fresh .empty) []
  | later {s : State MemoryStore} {inserted : List Record} (h : Serves a s inserted)
      (now : Timestamp) : Serves a (s.dated now) inserted
  | lease {s : State MemoryStore} {inserted : List Record} (h : Serves a s inserted)
      (change : LeaseTable.Change) : Serves a { s with leases := change.apply s.leases } inserted
  | request {s : State MemoryStore} {inserted : List Record} (h : Serves a s inserted)
      (r : Request) :
      Serves a ((r.perform a).final s)
        (inserted ++ s.tables.gained ((r.perform a).final s).tables)

/-- **The counters account for the versions.** In every state that requests lead to, whatever they
ask for and whether they succeed: the number of stored versions is that of the counted appends
without the versions that were counted as trimmed and as deleted, and the appended bytes are those
of all versions ever inserted. -/
theorem Serves.accounts {inserted : List Record} (h : Serves a s inserted) :
    UInt64.ofNat s.tables.versionCount =
        s.counters.appends - s.counters.nodesTrimmed - s.counters.nodesDeleted ∧
      s.counters.bytesAppended = UInt64.ofNat (Record.totalSize inserted) := by
  have hinvariant : s.Unarmed ∧
      UInt64.ofNat s.tables.versionCount = s.counters.tally.stored ∧
      s.counters.tally.bytesAppended = UInt64.ofNat (Record.totalSize inserted) := by
    induction h with
    | start => exact ⟨⟨rfl, rfl⟩, rfl, rfl⟩
    | later _ _ ih => exact ih
    | lease _ _ ih => exact ih
    | @request s inserted _ r ih =>
      obtain ⟨hs, hversions, hbytes⟩ := ih
      obtain ⟨ht, haccounted⟩ := request_accounted (a := a) hs r
      refine ⟨ht, ?_, ?_⟩
      · have hchange := haccounted.versions
        rw [hversions] at hchange
        grind
      · rw [haccounted.bytes, hbytes, ← UInt64.ofNat_add, Record.totalSize_append]
  exact hinvariant.2

/-- A run with one more request: its state, and the versions inserted by then. -/
def serve (a : Archive) (run : State MemoryStore × List Record) (r : Request) :
    State MemoryStore × List Record :=
  let t := (r.perform a).final run.1
  (t, run.2 ++ run.1.tables.gained t.tables)

theorem Serves.requests {inserted : List Record} (h : Serves a s inserted) (rs : List Request) :
    Serves a (rs.foldl a.serve (s, inserted)).1 (rs.foldl a.serve (s, inserted)).2 := by
  induction rs generalizing s inserted with
  | nil => exact h
  | cons r rs ih => exact ih (.request h r)

end Archive

namespace Sample

/-- A branch is written, with one repetition, and forked at its second node; that node is written
anew in both, and trimmed in the first. A write to a node that the fork inherits is refused. Then
the first branch is deleted, but for the node that its fork still needs. -/
def requests : List Request :=
  [.change (.newBranch "" "" "" .unset), .change (write root 1 5 0 [1]),
    .change (write root 1 5 0 [1]), .change (write root 2 6 5 [2, 3]),
    .change (.fork (forkRequest (Forked.bytes root))), .change (write fork 2 7 5 [4]),
    .change (write root 2 8 5 [5]), .change (.remove (.trim ⟨1, 1, Forked.bytes root, 2, 8⟩)),
    .change (write fork 1 9 0 [6]), .change (.remove (.delete ⟨1, 1, Forked.bytes root⟩)),
    .readRaw ⟨Forked.bytes fork, 1, 4, 1, []⟩]

def served : State MemoryStore × List Record :=
  requests.foldl archive.serve ({ State.fresh .empty with leases }, [])

end Sample

/-- Of four versions one was trimmed and one deleted, and two are left. -/
theorem Archive.Serves.accounts_served :
    Sample.served.1.counters.tally = ⟨4, 5, 1, 1⟩ ∧
      UInt64.ofNat Sample.served.1.tables.versionCount = 2 ∧
      UInt64.ofNat (Record.totalSize Sample.served.2) = 5 := by
  have hserves : Serves Sample.archive Sample.served.1 Sample.served.2 :=
    .requests (.lease .start (.acquire 1)) Sample.requests
  obtain ⟨hversions, hbytes⟩ := Serves.accounts hserves
  have htally : Sample.served.1.counters.tally = ⟨4, 5, 1, 1⟩ := by decide +kernel
  obtain ⟨happends, happended, htrimmed, hdeleted⟩ := Tally.mk.inj htally
  refine ⟨htally, ?_, ?_⟩
  · rw [hversions, happends, htrimmed, hdeleted]
    rfl
  · rw [← hbytes, happended]

end Chronicle
