import Chronicle.Proofs.Locality
import Chronicle.Proofs.Requests

/-!
# Independent trees

A request that names a branch of one tree has nothing to do with the other trees, even if branches
have the same ids there.

* `Request.NamesOnly`: the trees that a request names, through the bytes of its token.
* `request_dating`: every such request sees and touches that tree only, program by program.
* `trees_independent`: what follows for answers, for what is left, and for the order of requests.
-/
namespace Chronicle

open Archive (State)
open Chronicle.Action (Local Dating)

/-! ## What a request names -/

/-- The bytes name no tree but `t`. -/
def Token.NamesOnly (t : TreeId) (bytes : Bytes) : Prop :=
  ∀ q, Token.decode bytes = .ok q → q.tree = t

def Removal.shard : Removal → ShardId
  | trim req => req.shard
  | delete req => req.shard

def Operation.shard? : Operation → Option ShardId
  | newBranch .. => none
  | append req _ => some req.shard
  | fork req => some req.shard
  | remove r => some r.shard

/-- The same state with `k` ids drawn, at another moment. -/
def Archive.State.drawing {σ : Type} (k : Nat) (now : Timestamp) (s : State σ) : State σ :=
  { s with drawn := k, now }

namespace Request

def shard? : Request → Option ShardId
  | change op => op.shard?
  | _ => none

/-- The request names no tree but `t`. A scan is about all trees. -/
def NamesOnly (t : TreeId) : Request → Prop
  | change op => ∀ bytes ∈ op.token?, Token.NamesOnly t bytes
  | readRaw req => Token.NamesOnly t req.token
  | readBatches req => Token.NamesOnly t req.token
  | readEvents req => Token.NamesOnly t req.token
  | readBackward req => Token.NamesOnly t req.token
  | branches tree => tree = t
  | scan .. => False

/-- The request, served with the ids that come after number `k`, at a moment. -/
def performFrom {σ : Type} [Backend σ] (a : Archive) (k : Nat) (now : Timestamp) (r : Request) :
    Action σ Reply := do
  modify (State.drawing k now)
  r.perform a

end Request

/-! ## Questions -/

variable {t : TreeId} {shard : Option ShardId}

namespace Selection

variable {d : Deadline} {plan : Plan} (hplan : plan.tree = t)

include hplan

theorem sweep_local (s : Span) (start : NodeId) (k : UInt64) (fuel : Nat)
    (after : Option Position) (taken : List Version) (c : Cursor) :
    Local t shard (sweep d plan s start k fuel after taken c) fun _ => True := by
  subst hplan
  induction fuel generalizing after taken c with
  | zero => exact .pure trivial
  | succ fuel ih =>
    refine .bind (.question_any fun h => Tables.read_tree_congr h _ _) fun rows _ =>
      .bind .lift_any fun progress _ => ?_
    split
    · exact .pure trivial
    · exact ih _ _ _

theorem walk_local (k : UInt64) (spans : List Span) (taken : List Version) (c : Cursor) :
    Local t shard (walk d plan k spans taken c) fun _ => True := by
  induction spans generalizing taken c with
  | nil => exact .pure trivial
  | cons s rest ih =>
    refine .bind (sweep_local hplan _ _ _ _ _ _ _) fun progress _ => ?_
    split
    · exact .pure trivial
    · exact ih _ _

theorem page_local (c : Cursor) (k : UInt64) :
    Local t shard (page d plan c k) fun _ => True := by
  unfold page
  split
  · exact .throw
  · exact walk_local hplan k _ _ c

theorem exhaust_local (k : UInt64) (fuel : Nat) (c : Cursor) :
    Local t shard (exhaust d plan k fuel c) fun _ => True := by
  induction fuel generalizing c with
  | zero => exact .pure trivial
  | succ fuel ih =>
    refine .bind (page_local hplan c k) fun selection _ => ?_
    split
    · exact .pure trivial
    · exact ih _

end Selection

namespace Archive

variable (a : Archive) (d : Deadline)

theorem requireRow_local {q : Token} (hq : q.tree = t) :
    Local t shard (requireRow d q) fun row => row.tree = t := by
  subst hq
  refine .bind (.question (R := fun row => ∀ r ∈ row, r.tree = q.tree)
    (fun h => Tables.row?_congr h _) fun ts r hr => (Tables.row?_own hr).1) fun row hrow => ?_
  split
  · exact .pure (hrow _ rfl)
  · exact .throw

theorem plan_local {req : ReadRequest} (hreq : Token.NamesOnly t req.token) :
    Local t shard (plan d req) fun p => p.tree = t := by
  unfold plan
  dsimp only
  split
  · exact .throw_bind
  · exact .bind (.decodeToken hreq) fun q hq =>
      .bind (requireRow_local d hq) fun row hrow => .pure hrow

theorem selectPage_local {req : ReadRequest} (hreq : Token.NamesOnly t req.token) :
    Local t shard (a.selectPage d req) fun _ => True := by
  refine .bind (plan_local d hreq) fun p hp => .bind .lift_any fun c _ =>
    .bind (Selection.page_local hp c _) fun selection _ => ?_
  dsimp only
  split
  · exact .throw_bind
  · exact .pure trivial

theorem readRaw_local {req : ReadRequest} (hreq : Token.NamesOnly t req.token) :
    Local t shard (a.readRaw req) fun _ => True :=
  .bind (selectPage_local a _ hreq) fun _ _ => .bind .count fun _ _ => .pure trivial

theorem readBatchesAs_local (operation : String) {req : ReadRequest}
    (hreq : Token.NamesOnly t req.token) :
    Local t shard (a.readBatchesAs operation req) fun _ => True :=
  .bind (selectPage_local a _ hreq) fun _ _ => .bind .lift_any fun _ _ =>
    .bind .count fun _ _ => .pure trivial

theorem readEvents_local {req : ReadRequest} (hreq : Token.NamesOnly t req.token) :
    Local t shard (a.readEvents req) fun _ => True :=
  .bind (readBatchesAs_local a _ hreq) fun _ _ => .pure trivial

theorem readWindow_local {p : Plan} (hp : p.tree = t) (fuel : Nat) (c : Cursor) :
    Local t shard (a.readWindow d p fuel c) fun _ => True := by
  induction fuel generalizing c with
  | zero => exact .pure trivial
  | succ fuel ih =>
    refine .bind (Selection.page_local hp c _) fun selection _ =>
      .bind .lift_any fun decoded _ => ?_
    dsimp only
    split
    · exact .pure trivial
    · exact .bind (ih _) fun rest _ => .pure trivial

theorem readBackward_local {req : ReadRequest} (hreq : Token.NamesOnly t req.token) :
    Local t shard (a.readBackward req) fun _ => True := by
  refine .bind (plan_local _ hreq) fun p hp => .bind .lift_any fun below _ =>
    .bind (readWindow_local a _ hp _ _) fun window _ => ?_
  dsimp only
  split
  · exact .throw_bind
  · exact .bind .count fun _ _ => .pure trivial

theorem branches_local : Local t shard (a.branches t) fun _ => True :=
  .bind (.question_any fun h => Tables.rowsOf_congr h) fun _ _ => .lift_any

/-! ## Changes -/

theorem newBranch_local (namespaceId workflowId runId : String) (retention : Retention) :
    Local t shard (a.newBranch namespaceId workflowId runId retention : Action MemoryStore Bytes)
      fun _ => True :=
  .bind .drawId fun _ _ => .bind .drawId fun _ _ => .lift_any

theorem precedingIn_local (node : NodeId) (spans : List Span) (x : TransactionId) :
    Local t shard (precedingIn d t node x spans) fun _ => True := by
  induction spans generalizing x with
  | nil => exact .pure trivial
  | cons s rest ih =>
    unfold precedingIn
    extract_lets before
    split
    · exact .bind (.question_any fun h => by rw [Tables.maxTransaction, Tables.nodesOf_congr h,
        Tables.maxTransaction]) fun y _ => ih _
    · exact ih _

theorem repetition_local (existing : Version) (blob : Bytes) :
    Local t shard (repetition existing blob : Action MemoryStore Receipt) fun _ => True := by
  unfold repetition
  split
  · exact .pure trivial
  · exact .bind .count fun _ _ => .throw

/-- Whether an append is a repetition is read off the version that is stored. -/
theorem repetition_answer (existing : Version) (blob : Bytes) (s u : State MemoryStore) :
    (repetition existing blob).answer s = (repetition existing blob).answer u := by
  unfold repetition
  split <;> rfl

theorem lastVisible_local {q : Token} (hq : q.tree = t) (before : NodeId) :
    Local t shard (a.lastVisible d q before) fun _ => True :=
  .bind (Selection.exhaust_local hq _ _ _) fun _ _ => .pure trivial

theorem fork_dating {req : ForkRequest} (hreq : Token.NamesOnly t req.token) :
    Dating t (some req.shard) (a.fork req) := by
  refine .bind .checkLease fun _ _ => ?_
  dsimp only
  split
  · exact .throw_bind
  refine .bind (.decodeToken hreq) fun q hq => .bind (requireRow_local _ hq) fun row hrow =>
    .bind (lastVisible_local a _ hrow _) fun visible _ => ?_
  split
  · exact .throw_bind
  split
  · exact .throw_bind
  refine .bind .drawId fun branch _ => .bind .lift_any fun bytes _ => ?_
  refine .createRow_bind ?_ ?_ ?_
  · exact hrow
  · exact .bind .count fun _ _ => (Local.pure (R := fun _ => True) trivial).dating
  · intro _ _ _ _ _
    rfl

theorem removeVersions_local (b : BranchId) (vs : List Version) :
    Local t shard (removeVersions d t b vs) fun _ => True := by
  induction vs with
  | nil => exact .pure trivial
  | cons v rest ih =>
    refine .bind (R := fun _ => True) (.ask (Tables.local_eraseVersion _ _ _)
      (fun h => congrArg Option.isSome (Tables.version?_congr h _ _ _)) fun _ => trivial)
      fun removed _ => .bind ih fun others _ => .pure trivial

theorem deleteFrom_local (b : BranchId) (start : NodeId) :
    Local t shard (Action.ask d (Backend.deleteFrom t b start : Call MemoryStore Nat))
      fun _ => True :=
  .ask (Tables.local_eraseFrom _ _)
    (fun h => by rw [Tables.countFrom, Tables.nodesOf_congr h, Tables.countFrom]) fun _ => trivial

theorem trim_local {req : TrimRequest} (hreq : Token.NamesOnly t req.token) :
    Local t (some req.shard) (a.trim req) fun _ => True := by
  refine .bind .checkLease fun _ _ => .bind (.decodeToken hreq) fun q hq =>
    .bind (requireRow_local _ hq) fun row hrow => ?_
  dsimp only
  have htree : row.token.tree = t := hrow
  rw [htree]
  split
  · exact .throw_bind
  refine .bind .lock fun _ _ =>
    .bind (.question_any fun h => Tables.version?_congr h _ _ _) fun watermark _ => ?_
  split
  · exact .throw_bind
  refine .bind (.question_any fun h => Tables.rowsOf_congr h) fun rows _ => ?_
  split
  · exact .throw_bind
  refine .bind (deleteFrom_local _ _ _) fun later _ =>
    .bind (.question_any fun h => Tables.read_tree_congr h _ _) fun versions _ =>
    .bind (removeVersions_local _ _ _) fun others _ => .bind .count fun _ _ => .pure trivial

theorem collect_local (rows : List BranchRow) (spans : List Span) :
    Local t shard (collect d t rows spans) fun _ => True := by
  induction spans with
  | nil => exact .pure trivial
  | cons s rest ih =>
    unfold collect
    split
    · split
      · exact deleteFrom_local _ _ _
      · exact .bind .check fun _ _ => .pure trivial
    · exact .bind (deleteFrom_local _ _ _) fun removed _ => .bind ih fun others _ => .pure trivial

theorem delete_local {req : DeleteRequest} (hreq : Token.NamesOnly t req.token) :
    Local t (some req.shard) (a.delete req) fun _ => True := by
  refine .bind .checkLease fun _ _ => .bind (.decodeToken hreq) fun q hq => ?_
  dsimp only
  rw [show q.tree = t from hq]
  refine .bind .lock fun _ _ =>
    .bind (.question_any fun h => Tables.row?_congr h _) fun row _ => ?_
  refine .bind (.discard_ask (Tables.local_eraseRow _)) fun _ _ =>
    .bind (.question_any fun h => Tables.rowsOf_congr h) fun rows _ =>
    .bind (collect_local _ _ _) fun removed _ => ?_
  refine .bind (.discard_ask ?_) fun _ _ => .bind .unlock fun _ _ => .bind .count fun _ _ =>
    .pure trivial
  simp only [apply_ite Prod.snd]
  exact Tables.local_dropIfEmpty

theorem insertVersion_local (b : BranchId) (v : Version) :
    Local t shard (do
        match ← (Action.ask d (Backend.insertVersion t b v) : Action MemoryStore Insertion) with
        | .duplicate existing => repetition existing v.blob
        | .inserted =>
          Action.count (·.countAppend v.blob.length)
          return (⟨v.blob.length, v.node⟩ : Receipt)) fun _ => True := by
  refine .bind (R := fun _ => True) (.ask (Tables.local_insertVersion _ _) (fun h => ?_)
    fun _ => trivial) fun outcome _ => ?_
  · rw [Tables.insertVersion_fst, Tables.insertVersion_fst, Tables.version?_congr h]
  · split
    · exact repetition_local _ _
    · exact .bind .count fun _ _ => .pure trivial

/-- What storing a version answers depends on the stored versions only. -/
theorem insertVersion_answer {s u : State MemoryStore} (hs : s.Unarmed) (hu : u.Unarmed)
    (h : ∀ c b n x, u.tables.version? c b n x = s.tables.version? c b n x) (b : BranchId)
    (v : Version) :
    let insert : Action MemoryStore Receipt := do
      match ← Action.ask d (Backend.insertVersion t b v) with
      | .duplicate existing => repetition existing v.blob
      | .inserted =>
        Action.count (·.countAppend v.blob.length)
        return ⟨v.blob.length, v.node⟩
    insert.answer u = insert.answer s := by
  refine Action.answer_ask_bind hs hu ?_ fun outcome w w' => ?_
  · rw [Tables.insertVersion_fst, Tables.insertVersion_fst, h]
  · cases outcome with
    | inserted => rfl
    | duplicate existing => exact repetition_answer existing v.blob w' w

/-- Storing a version of a branch of the tree, and before it the row of a branch that is new. -/
theorem insert_dating {b : BranchId} {token : Token} (htoken : token.tree = t) (isNew : Bool)
    (info : String) (v : Version) :
    Dating t shard (do
        if isNew then createRow d token info
        match ← Action.ask d (Backend.insertVersion t b v) with
        | .duplicate existing => repetition existing v.blob
        | .inserted =>
          Action.count (·.countAppend v.blob.length)
          return (⟨v.blob.length, v.node⟩ : Receipt)) := by
  split
  · exact .createRow_bind htoken (insertVersion_local d b v).dating
      fun s u hs hu h => insertVersion_answer d hs hu h b v
  · exact (insertVersion_local d b v).dating

theorem store_dating (req : WriteRequest) {q : Token} (hq : q.tree = t) (v : Version) :
    Dating t shard (a.store d req q v) := by
  subst hq
  refine .bind .lift_any fun _ _ => .bind .lock fun _ _ =>
    .bind (.question (R := fun row => ∀ r ∈ row, r.tree = q.tree)
      (fun h => Tables.row?_congr h _) fun ts r hr => (Tables.row?_own hr).1) fun row hrow => ?_
  extract_lets tree branch insert rest
  have hrest : ∀ token : Token, token.tree = q.tree → Dating q.tree shard (rest token) := by
    intro token htoken
    dsimp only [rest, insert, tree, branch]
    split
    · exact .throw_bind
    refine .bind (.question_any fun h => Tables.version?_congr h _ _ _) fun existing _ => ?_
    split
    · exact (repetition_local _ _).dating
    refine .bind (R := fun _ => True) ?_ fun expected _ => ?_
    · unfold preceding
      rw [htoken]
      exact precedingIn_local _ _ _ _
    split
    · exact .bind .count fun _ _ => .throw_bind
    · exact insert_dating d htoken _ _ _
  split
  · exact .bind (.pure (R := (·.tree = q.tree)) (hrow _ rfl)) hrest
  split
  · exact .bind (.pure (R := (·.tree = q.tree)) rfl) hrest
  · exact .throw_bind

theorem append_dating {req : WriteRequest} (hreq : Token.NamesOnly t req.token)
    (payload : Payload) :
    Dating t (some req.shard) ((Operation.append req payload).perform a) := by
  rw [perform_append]
  refine .bind .checkLease fun _ _ => .bind (R := fun target => target.1.tree = t)
    (.lift fun target htarget => hreq _ (Payload.eq_of_prepare htarget).1) fun target htarget => ?_
  exact .map (store_dating a _ req htarget target.2)

theorem removal_local {r : Removal} (hr : Token.NamesOnly t r.token) :
    Local t (some r.shard) (r.perform a) fun _ => True := by
  cases r with
  | trim req => exact trim_local a hr
  | delete req => exact delete_local a hr

end Archive

/-! ## Requests -/

namespace Archive

variable {a : Archive} {s s' : State MemoryStore} {r q : Request} {u : TreeId}

/-- **Requests.** A request that names no other tree sees and touches no other tree. -/
theorem request_dating (hr : r.NamesOnly t) : Dating t r.shard? (r.perform a) := by
  cases r with
  | change op =>
    refine .map ?_
    cases op with
    | newBranch namespaceId workflowId runId retention =>
      exact .map (newBranch_local a _ _ _ _).dating
    | append req payload => exact append_dating a (hr _ rfl) payload
    | fork req => exact .map (fork_dating a (hr _ rfl))
    | remove removal => exact .map (removal_local a (hr _ rfl)).dating
  | readRaw req => exact .map (readRaw_local a hr).dating
  | readBatches req => exact .map (readBatchesAs_local a _ hr).dating
  | readEvents req => exact .map (readEvents_local a hr).dating
  | readBackward req => exact .map (readBackward_local a hr).dating
  | branches tree =>
    cases hr
    exact .map (branches_local a).dating
  | scan size page => exact hr.elim

/-- Whatever was done in tree `t`, a request that names no tree but `u` takes no notice. -/
theorem performFrom_apart (hq : q.NamesOnly u) (hu : u ≠ t) {w : State MemoryStore}
    (hs : s.Unarmed) (hw : w.Unarmed) (h : State.Confined t s w) (k : Nat) (now : Timestamp) :
    (q.performFrom a k now).answer w = (q.performFrom a k now).answer s ∧
      Action.Abreast u q.shard? (s.drawing k now) (w.drawing k now)
        ((q.performFrom a k now).final s) ((q.performFrom a k now).final w) := by
  have halike : State.Alike u q.shard? (s.drawing k now) (w.drawing k now) :=
    ⟨⟨hs, hw⟩, h.tree u hu, fun k _ => congrArg (LeaseTable.current · k) h.leases, rfl, rfl⟩
  obtain ⟨hanswer, -, habreast⟩ := (request_dating (a := a) hq).parallel _ _ halike
  exact ⟨hanswer, habreast⟩

theorem performFrom_confined (hr : r.NamesOnly t) (hs : s.Unarmed) (k : Nat) (now : Timestamp) :
    ((r.performFrom a k now).final s).Unarmed ∧
      State.Confined t s ((r.performFrom a k now).final s) := by
  have hs' : (s.drawing k now).Unarmed := hs
  have haside : State.Confined t s (s.drawing k now) := .of_store rfl rfl
  have hrequest := (request_dating (a := a) hr).parallel
  exact ⟨hrequest.unarmed hs', haside.trans (hrequest.confined hs')⟩

/-- Outside tree `u`, a request that names no other tree may come before or after one that names no
tree but `t`. -/
theorem tree_swap (hr : r.NamesOnly t) (hq : q.NamesOnly u) (hu : u ≠ t) (hs : s.Unarmed)
    (j k : Nat) (now now' : Timestamp) {v : TreeId} (hv : v ≠ u) :
    let w := (q.performFrom a k now').final ((r.performFrom a j now).final s)
    let w' := (r.performFrom a j now).final ((q.performFrom a k now').final s)
    w'.tables.tree v = w.tables.tree v ∧ w'.tables.hasTree v = w.tables.hasTree v := by
  intro w w'
  obtain ⟨hunarmed, hconfined⟩ := performFrom_confined (a := a) hr hs j now
  obtain ⟨hunarmed', hconfined'⟩ := performFrom_confined (a := a) hq hs k now'
  have hlast := (performFrom_confined (a := a) hq hunarmed k now').2
  have htree : w.tables.tree v = ((r.performFrom a j now).final s).tables.tree v :=
    hlast.tree v hv
  have hknown : w.tables.hasTree v = ((r.performFrom a j now).final s).tables.hasTree v :=
    hlast.known v hv
  rw [htree, hknown]
  by_cases hvt : v = t
  · subst hvt
    have habreast := (performFrom_apart (a := a) hr hu.symm hs hunarmed' hconfined' j now).2
    exact ⟨habreast.alike.tree, habreast.known (hconfined'.known v hv)⟩
  · have hlast' := (performFrom_confined (a := a) hr hunarmed' j now).2
    exact ⟨((hlast'.tree v hvt).trans (hconfined'.tree v hv)).trans (hconfined.tree v hvt).symm,
      ((hlast'.known v hvt).trans (hconfined'.known v hv)).trans (hconfined.known v hvt).symm⟩

/-- **Independent trees.** Without faults, a request that names no tree but `t`

* answers the same in every other state with the same lease of its shard, the same ids to be drawn,
  and the same rows and versions of the tree, and leaves the same rows and versions of it, if it
  creates rows at the same moment;
* leaves the rows and the versions of every other tree as they are, and does not make it known or
  unknown;
* may change places with every request that names no tree but another one, if both are given their
  ids and their moments: both answer the same, and the store that they leave is the same.

The branch ids in the two trees may be the same. -/
theorem trees_independent (hr : r.NamesOnly t) (hs : s.Unarmed) :
    (∀ s' : State MemoryStore, s'.Unarmed → s'.drawn = s.drawn →
        (∀ k ∈ r.shard?, s'.leases.current k = s.leases.current k) →
        (∀ b, s'.tables.row? t b = s.tables.row? t b) →
        (∀ b n x, s'.tables.version? t b n x = s.tables.version? t b n x) →
        (r.perform a).answer s' = (r.perform a).answer s ∧
          (s'.now = s.now →
            ((r.perform a).final s').tables.tree t = ((r.perform a).final s).tables.tree t)) ∧
      (∀ u, u ≠ t → ((r.perform a).final s).tables.hasTree u = s.tables.hasTree u ∧
        (∀ b, ((r.perform a).final s).tables.row? u b = s.tables.row? u b) ∧
        ∀ b n x, ((r.perform a).final s).tables.version? u b n x = s.tables.version? u b n x) ∧
      ∀ u q, u ≠ t → Request.NamesOnly u q → ∀ j k now now',
        let first : Action MemoryStore Reply := r.performFrom a j now
        let second : Action MemoryStore Reply := q.performFrom a k now'
        second.answer (first.final s) = second.answer s ∧
          first.answer (second.final s) = first.answer s ∧
          (second.final (first.final s)).store = (first.final (second.final s)).store := by
  have hrequest := request_dating (a := a) hr
  refine ⟨?_, ?_, ?_⟩
  · intro s' hs' hdrawn hlease hrows hversions
    have htree : s'.tables.tree t = s.tables.tree t := TreeTables.ext_views hrows hversions
    -- the answer does not depend on the moment, so that of `s` will do
    have halike : State.Alike t r.shard? s (s'.dated s.now) :=
      ⟨⟨hs, hs'⟩, htree, hlease, hdrawn, rfl⟩
    refine ⟨?_, fun hnow => ?_⟩
    · rw [← hrequest.dateless s' hs' s.now]
      exact (hrequest.parallel _ _ halike).1
    · obtain ⟨-, -, habreast⟩ := hrequest.parallel s s' ⟨⟨hs, hs'⟩, htree, hlease, hdrawn, hnow⟩
      exact habreast.alike.tree
  · intro u hu
    have hconfined := hrequest.parallel.confined hs
    have htree := hconfined.tree u hu
    exact ⟨hconfined.known u hu, fun b => Tables.row?_congr htree b,
      fun b n x => Tables.version?_congr htree b n x⟩
  · intro u q hu hq j k now now' first second
    obtain ⟨hfirst, hconfined⟩ := performFrom_confined (a := a) hr hs j now
    obtain ⟨hsecond, hconfined'⟩ := performFrom_confined (a := a) hq hs k now'
    refine ⟨(performFrom_apart hq hu hs hfirst hconfined k now').1,
      (performFrom_apart hr hu.symm hs hsecond hconfined' j now).1, ?_⟩
    have hswap : ∀ v, (second.final (first.final s)).tables.tree v =
          (first.final (second.final s)).tables.tree v ∧
        (second.final (first.final s)).tables.hasTree v =
          (first.final (second.final s)).tables.hasTree v := by
      intro v
      by_cases hv : v = u
      · exact tree_swap hq hr hu.symm hs k j now' now (hv ▸ hu)
      · exact (tree_swap hr hq hu hs j k now now' hv).imp Eq.symm Eq.symm
    have htables : (second.final (first.final s)).tables = (first.final (second.final s)).tables :=
      Tables.ext_tree fun v => (hswap v).imp Eq.symm Eq.symm
    have hfault : (second.final (first.final s)).store.fault =
        (first.final (second.final s)).store.fault :=
      (performFrom_confined hq hfirst k now').1.1.trans
        (performFrom_confined hr hsecond j now).1.1.symm
    exact (MemoryStore.mk.injEq ..).mpr ⟨htables, hfault⟩

end Archive

namespace Sample

def twin : Token := { root with tree := ⟨7⟩ }

/-- A new branch is written under the same id, in another tree. -/
def twins : State MemoryStore := ((write twin 1 5 0 [9]).perform archive).final state

end Sample

/-- A branch is deleted, and the branch with its id in another tree is written. -/
theorem Archive.trees_independent_twins :
    let s := Sample.twins
    let delete : Action MemoryStore Reply :=
      (Request.change (.remove (.delete ⟨1, 1, Forked.bytes Sample.root⟩))).performFrom
        Sample.archive 0 0
    let write : Action MemoryStore Reply :=
      (Request.change (Sample.write Sample.twin 2 6 5 [8])).performFrom Sample.archive 0 0
    Sample.twin.branch = Sample.root.branch ∧ Sample.twin.tree ≠ Sample.root.tree ∧
      delete.answer s = .ok (.done (.removed 1)) ∧
      write.answer (delete.final s) = .ok (.done (.receipt ⟨1, 2⟩)) ∧
      (write.final (delete.final s)).store = (delete.final (write.final s)).store := by
  intro s delete write
  have htrees : Sample.twin.tree ≠ Sample.root.tree := by decide
  have hdelete : (Request.change (.remove (.delete ⟨1, 1, Forked.bytes Sample.root⟩))).NamesOnly
      Sample.root.tree := by
    intro bytes hbytes q hq
    cases hbytes
    cases Sample.decode_root.symm.trans hq
    rfl
  have hwrite : (Request.change (Sample.write Sample.twin 2 6 5 [8])).NamesOnly
      Sample.twin.tree := by
    intro bytes hbytes q hq
    cases hbytes
    cases (show Token.decode (Forked.bytes Sample.twin) = .ok Sample.twin from rfl).symm.trans hq
    rfl
  have hs : s.Unarmed := (perform_outcome _ Sample.reaches.unarmed).1
  obtain ⟨-, -, hswap⟩ := trees_independent (a := Sample.archive) hdelete hs
  obtain ⟨hanswer, -, hstore⟩ := hswap _ _ htrees hwrite 0 0 0 0
  refine ⟨rfl, htrees, by decide +kernel, ?_, hstore⟩
  rw [hanswer]
  decide +kernel

end Chronicle
