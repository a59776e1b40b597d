import Chronicle.Proofs.Appending

/-!
# Changes of one tree

Branch ids may be the same in different trees, and nothing but the tree that each call names keeps
the trees apart. So a program is followed in two runs at once, that start from states with the same
content of one tree and may differ in everything else that is stored.

* `Tables.Local`: a change of the tables that sees and touches one tree; one lemma per change.
* `Action.Local`: the same of a program, with a rule for each way of composing programs.
-/
namespace Chronicle

open Archive (State)

/-! ## Tables -/

namespace Tables

section Congr

variable {t : TreeId} {ts us : Tables}

theorem row?_congr (h : us.tree t = ts.tree t) (b : BranchId) : us.row? t b = ts.row? t b := by
  rw [row?, h, row?]

theorem nodesOf_congr (h : us.tree t = ts.tree t) (b : BranchId) :
    us.nodesOf t b = ts.nodesOf t b := by
  rw [nodesOf, h, nodesOf]

theorem version?_congr (h : us.tree t = ts.tree t) (b : BranchId) (n : NodeId)
    (x : TransactionId) : us.version? t b n x = ts.version? t b n x := by
  rw [version?, nodesOf_congr h, version?]

theorem rowsOf_congr (h : us.tree t = ts.tree t) : us.rowsOf t = ts.rowsOf t := by
  rw [rowsOf, h, rowsOf]

theorem read_tree_congr (h : us.tree t = ts.tree t) (b : BranchId) (q : RangeQuery) :
    us.read t b q = ts.read t b q := by
  rw [read, nodesOf_congr h, read]

end Congr

/-- The change of the tables sees nothing but what is stored of tree `t`, and touches nothing else.
It may also see whether the tree is known, but then tells only in whether the tree is known. -/
structure Local (t : TreeId) (f : Tables → Tables) : Prop where
  tree : ∀ {ts us : Tables}, us.tree t = ts.tree t → (f us).tree t = (f ts).tree t
  known : ∀ {ts us : Tables}, us.tree t = ts.tree t → us.hasTree t = ts.hasTree t →
    (f us).hasTree t = (f ts).hasTree t
  others : ∀ (ts : Tables) {u : TreeId}, u ≠ t → (f ts).tree u = ts.tree u
  othersKnown : ∀ (ts : Tables) {u : TreeId}, u ≠ t → (f ts).hasTree u = ts.hasTree u

variable {t : TreeId}

theorem Local.refl : Local t id := ⟨id, fun _ => id, fun _ _ _ => rfl, fun _ _ _ => rfl⟩

theorem local_update {f : Tables → TreeTables → TreeTables}
    (hf : ∀ ts (tree : TreeTables), tree.BelongsTo t → (f ts tree).BelongsTo t)
    (h : ∀ ts us : Tables, us.tree t = ts.tree t → f us = f ts) :
    Local t fun ts => ts.update t (f ts) (hf ts) where
  tree htree := by rw [tree_update, tree_update, htree, h _ _ htree]
  known _ hknown := by rw [hasTree_update, hasTree_update, hknown]
  others ts u hu := by rw [tree_update, if_neg hu]
  othersKnown ts u hu := by rw [hasTree_update, decide_eq_false hu, Bool.false_or]

theorem local_update? {f : TreeTables → TreeTables}
    (hf : ∀ tree : TreeTables, tree.BelongsTo t → (f tree).BelongsTo t) (h : f .empty = .empty) :
    Local t fun ts => ts.update? t f hf where
  tree htree := by rw [tree_update? _ _ _ _ h, tree_update? _ _ _ _ h, htree]
  known _ hknown := by rw [hasTree_update?, hasTree_update?, hknown]
  others ts u hu := by rw [tree_update? _ _ _ _ h, if_neg hu]
  othersKnown ts u _ := hasTree_update? ..

theorem local_upsertRow {row : BranchRow} (h : row.tree = t) : Local t (·.upsertRow row) := by
  subst h
  exact local_update (f := fun _ tree => tree.upsertRow row) _ fun _ _ _ => rfl

theorem local_eraseRow (b : BranchId) : Local t (·.eraseRow t b) := local_update? _ rfl

theorem local_insertVersion (b : BranchId) (v : Version) : Local t (·.insertVersion t b v |>.2) :=
  local_update (f := fun ts tree => tree.setNodes b ((ts.nodesOf t b).insert v).2)
    (fun _ _ h => TreeTables.belongsTo_setNodes h b _) fun ts us h => by rw [nodesOf, nodesOf, h]

theorem local_eraseFrom (b : BranchId) (start : NodeId) : Local t (·.eraseFrom t b start) :=
  local_update? _ rfl

theorem local_eraseVersion (b : BranchId) (n : NodeId) (x : TransactionId) :
    Local t (·.eraseVersion t b n x) := local_update? _ rfl

/-- Dropping a tree that is empty changes nothing that is stored of it. -/
theorem tree_dropIfEmpty (ts : Tables) (u : TreeId) :
    (if ts.isEmptyTree t then ts.eraseTree t else ts).tree u = ts.tree u := by
  split
  · next hempty =>
    exact TreeTables.ext_views (row?_eraseTree hempty u) (version?_eraseTree hempty u)
  · rfl

theorem isEmptyTree_congr {ts us : Tables} (htree : us.tree t = ts.tree t)
    (hknown : us.hasTree t = ts.hasTree t) : us.isEmptyTree t = ts.isEmptyTree t := by
  rw [Bool.eq_iff_iff, isEmptyTree_iff, isEmptyTree_iff]
  simp only [row?, version?, nodesOf, htree, hknown]

theorem local_dropIfEmpty :
    Local t fun ts => if ts.isEmptyTree t then ts.eraseTree t else ts where
  tree htree := by rw [tree_dropIfEmpty, tree_dropIfEmpty, htree]
  known htree hknown := by
    rw [isEmptyTree_congr htree hknown]
    split
    · rw [hasTree_eraseTree, hasTree_eraseTree, hknown]
    · exact hknown
  others ts u _ := tree_dropIfEmpty ts u
  othersKnown ts u hu := by
    split
    · rw [hasTree_eraseTree, decide_eq_true hu, Bool.true_and]
    · rfl

/-- What is stored of each tree, and which trees are known, determine the content. -/
theorem ext_tree {ts us : Tables}
    (h : ∀ v, us.tree v = ts.tree v ∧ us.hasTree v = ts.hasTree v) : ts = us :=
  ext_views (fun v => (h v).2.symm) (fun v b => by rw [row?, row?, (h v).1])
    fun v b n x => by rw [version?, version?, nodesOf, nodesOf, (h v).1]

end Tables

/-! ## Two runs -/

/-- Two states that look alike to a request about tree `t` that is made with a lease of `shard`: the
same is stored of the tree, the same lease is current, the same ids will be drawn, and it is the
same moment. -/
structure Archive.State.Alike (t : TreeId) (shard : Option ShardId) (s s' : State MemoryStore) :
    Prop where
  unarmed : s.Unarmed ∧ s'.Unarmed
  tree : s'.tables.tree t = s.tables.tree t
  lease : ∀ k ∈ shard, s'.leases.current k = s.leases.current k
  drawn : s'.drawn = s.drawn
  now : s'.now = s.now

/-- From `s` to `u` only counters, locks and the number of drawn ids have changed. -/
structure Archive.State.Aside (s u : State MemoryStore) : Prop where
  store : u.store = s.store
  leases : u.leases = s.leases
  delay : u.delay = s.delay
  now : u.now = s.now

/-- From `s` to `u` nothing has changed outside tree `t`, and no lease. -/
structure Archive.State.Confined (t : TreeId) (s u : State MemoryStore) : Prop where
  tree : ∀ v, v ≠ t → u.tables.tree v = s.tables.tree v
  known : ∀ v, v ≠ t → u.tables.hasTree v = s.tables.hasTree v
  leases : u.leases = s.leases

namespace Archive.State

variable {t : TreeId} {shard : Option ShardId} {s s' u w : State MemoryStore}

theorem Alike.refl (hs : s.Unarmed) : Alike t shard s s := ⟨⟨hs, hs⟩, rfl, fun _ _ => rfl, rfl, rfl⟩

theorem Confined.refl : Confined t s s := ⟨fun _ _ => rfl, fun _ _ => rfl, rfl⟩

theorem Confined.of_store (hstore : u.store = s.store) (hleases : u.leases = s.leases) :
    Confined t s u := by
  refine ⟨fun v _ => ?_, fun v _ => ?_, hleases⟩
  · rw [tables, hstore, tables]
  · rw [tables, hstore, tables]

theorem Aside.confined (h : Aside s u) : Confined t s u := .of_store h.store h.leases

theorem Aside.unarmed (h : Aside s u) (hs : s.Unarmed) : u.Unarmed :=
  ⟨(congrArg MemoryStore.fault h.store).trans hs.1, h.delay.trans hs.2⟩

theorem Confined.trans (h : Confined t s u) (h' : Confined t u w) : Confined t s w :=
  ⟨fun v hv => (h'.tree v hv).trans (h.tree v hv),
    fun v hv => (h'.known v hv).trans (h.known v hv), h'.leases.trans h.leases⟩

theorem Confined.withTables {f : Tables → Tables} (hf : Tables.Local t f) :
    Confined t s (s.withTables (f s.tables)) :=
  ⟨fun _ hv => hf.others _ hv, fun _ hv => hf.othersKnown _ hv, rfl⟩

end Archive.State

theorem Archive.checkLease_of_not_current {σ : Type} {s : State σ} {shard : ShardId}
    {lease : LeaseId} (h : s.leases.current shard ≠ some lease) :
    checkLease shard lease s = .error (.ownershipLost shard lease (s.leases.current shard))
      { s with counters := s.counters.countRejection } := by
  have hget : (get : Action σ (State σ)) s = .ok s s := rfl
  have hcheck : s.leases.check shard lease =
      .error (.ownershipLost shard lease (s.leases.current shard)) := if_neg h
  unfold checkLease
  rw [Action.bind_of_ok hget, hcheck]
  rfl

namespace Action

open Archive.State (Alike Confined)

variable {σ α β : Type}

theorem answer_bind (x : Action σ β) (f : β → Action σ α) (s : State σ) :
    (x >>= f).answer s = (x.answer s).bind fun b => (f b).answer (x.final s) := by
  unfold answer final
  rw [bind_apply]
  cases x s <;> rfl

theorem final_bind (x : Action σ β) (f : β → Action σ α) (s : State σ) :
    (x >>= f).final s = match x.answer s with
      | .ok b => (f b).final (x.final s)
      | .error _ => x.final s := by
  unfold answer final
  rw [bind_apply]
  cases x s <;> rfl

theorem final_map (f : β → α) (x : Action σ β) (s : State σ) :
    (f <$> x).final s = x.final s := by
  unfold final
  rw [map_apply]
  cases x s <;> rfl

/-- Two runs, from `s` to `u` and from `s'` to `u'`: neither has left tree `t`, and the states that
they left look alike. -/
structure Abreast (t : TreeId) (shard : Option ShardId) (s s' u u' : State MemoryStore) : Prop where
  alike : Alike t shard u u'
  known : s'.tables.hasTree t = s.tables.hasTree t → u'.tables.hasTree t = u.tables.hasTree t
  first : Confined t s u
  second : Confined t s' u'

/-- The operation sees and touches one tree only: from states that look alike it answers the same
and leaves states that look alike, and a value that it answers satisfies `R`. -/
def Parallel (t : TreeId) (shard : Option ShardId) (act : Action MemoryStore α) (R : α → Prop) :
    Prop :=
  ∀ s s', Alike t shard s s' →
    act.answer s' = act.answer s ∧ (∀ b, act.answer s = .ok b → R b) ∧
      Abreast t shard s s' (act.final s) (act.final s')

def onDate (now : Timestamp) :
    EStateM.Result Error (State MemoryStore) α → EStateM.Result Error (State MemoryStore) α
  | .ok a t => .ok a (t.dated now)
  | .error e t => .error e (t.dated now)

/-- The operation sees and touches one tree only, and does not look at the calendar. -/
structure Local (t : TreeId) (shard : Option ShardId) (act : Action MemoryStore α) (R : α → Prop) :
    Prop where
  parallel : Parallel t shard act R
  timeless : ∀ s : State MemoryStore, s.Unarmed → ∀ now, act (s.dated now) = onDate now (act s)

/-- The operation sees and touches one tree only, and looks at the calendar for the rows that it
creates, but not for its answer. -/
structure Dating (t : TreeId) (shard : Option ShardId) (act : Action MemoryStore α) : Prop where
  parallel : Parallel t shard act fun _ => True
  dateless : ∀ s : State MemoryStore, s.Unarmed → ∀ now, act.answer (s.dated now) = act.answer s

variable {t : TreeId} {shard : Option ShardId} {s s' : State MemoryStore}

theorem Abreast.refl (h : Alike t shard s s') : Abreast t shard s s' s s' :=
  ⟨h, id, .refl, .refl⟩

theorem Abreast.trans {u u' w w' : State MemoryStore} (h : Abreast t shard s s' u u')
    (h' : Abreast t shard u u' w w') : Abreast t shard s s' w w' :=
  ⟨h'.alike, fun hknown => h'.known (h.known hknown), h.first.trans h'.first,
    h.second.trans h'.second⟩

/-- In both runs only counters, locks and the number of drawn ids have changed. -/
theorem Abreast.aside {u u' : State MemoryStore} (h : Alike t shard s s') (hu : State.Aside s u)
    (hu' : State.Aside s' u') (hdrawn : u'.drawn = u.drawn) : Abreast t shard s s' u u' where
  alike := by
    refine ⟨⟨hu.unarmed h.unarmed.1, hu'.unarmed h.unarmed.2⟩, ?_, ?_, hdrawn, ?_⟩
    · rw [State.tables, State.tables, hu.store, hu'.store]
      exact h.tree
    · rw [hu.leases, hu'.leases]
      exact h.lease
    · rw [hu.now, hu'.now]
      exact h.now
  known := by
    rw [State.tables, State.tables, State.tables, State.tables, hu.store, hu'.store]
    exact id
  first := hu.confined
  second := hu'.confined

theorem Abreast.withTables {f : Tables → Tables} (hf : Tables.Local t f)
    (h : Alike t shard s s') :
    Abreast t shard s s' (s.withTables (f s.tables)) (s'.withTables (f s'.tables)) :=
  ⟨⟨h.unarmed, hf.tree h.tree, h.lease, h.drawn, h.now⟩, hf.known h.tree, .withTables hf,
    .withTables hf⟩

namespace Parallel

variable {R : α → Prop} {Q : β → Prop}

theorem unarmed {act : Action MemoryStore α} (h : Parallel t shard act R) (hs : s.Unarmed) :
    (act.final s).Unarmed :=
  (h s s (.refl hs)).2.2.alike.unarmed.1

theorem confined {act : Action MemoryStore α} (h : Parallel t shard act R) (hs : s.Unarmed) :
    Confined t s (act.final s) :=
  (h s s (.refl hs)).2.2.first

theorem bind {x : Action MemoryStore α} {f : α → Action MemoryStore β} (hx : Parallel t shard x R)
    (hf : ∀ a, R a → Parallel t shard (f a) Q) : Parallel t shard (x >>= f) Q := by
  intro s s' halike
  obtain ⟨hanswer, hR, habreast⟩ := hx s s' halike
  rw [answer_bind, answer_bind, final_bind, final_bind, hanswer]
  cases hxs : x.answer s with
  | error e =>
    refine ⟨rfl, fun b hb => ?_, habreast⟩
    cases hb
  | ok a =>
    obtain ⟨hanswer', hQ, habreast'⟩ := hf a (hR a hxs) _ _ habreast.alike
    exact ⟨hanswer', hQ, habreast.trans habreast'⟩

theorem map {x : Action MemoryStore α} {f : α → β} (hx : Parallel t shard x R) :
    Parallel t shard (f <$> x) fun _ => True := by
  intro s s' halike
  obtain ⟨hanswer, -, habreast⟩ := hx s s' halike
  rw [answer_map, answer_map, final_map, final_map, hanswer]
  exact ⟨rfl, fun _ _ => trivial, habreast⟩

theorem ask {d : Deadline} {f : Tables → α × Tables} (hf : Tables.Local t fun ts => (f ts).2)
    (hanswer : ∀ {ts us : Tables}, us.tree t = ts.tree t → (f us).1 = (f ts).1)
    (hR : ∀ ts, R (f ts).1) : Parallel t shard (ask d (MemoryStore.answer f)) R := by
  intro s s' halike
  unfold answer final
  cases hd : d.expired with
  | true =>
    rw [ask_of_expired hd, ask_of_expired hd]
    refine ⟨rfl, fun b hb => ?_, .refl halike⟩
    cases hb
  | false =>
    rw [ask_of_unarmed hd halike.unarmed.1, ask_of_unarmed hd halike.unarmed.2]
    refine ⟨congrArg Except.ok (hanswer halike.tree), fun b hb => ?_, .withTables hf halike⟩
    cases hb
    exact hR _

/-- Storing a row of the tree: both runs create it at the same moment. -/
theorem createRow {d : Deadline} {token : Token} {info : String} (htoken : token.tree = t) :
    Parallel t shard (Archive.createRow d token info) fun _ => True := by
  intro s s' halike
  have hask : Parallel t shard (Action.ask d (Backend.upsertBranch ⟨token, info, s.now⟩))
      fun _ => True :=
    ask (Tables.local_upsertRow htoken) (fun _ => rfl) fun _ => trivial
  have hfirst : Archive.createRow d token info s =
      Action.ask d (Backend.upsertBranch ⟨token, info, s.now⟩) s := rfl
  have hsecond : Archive.createRow d token info s' =
      Action.ask d (Backend.upsertBranch ⟨token, info, s.now⟩) s' := by
    rw [← halike.now]
    rfl
  have hrun := hask s s' halike
  unfold answer final at hrun ⊢
  rw [hfirst, hsecond]
  exact hrun

end Parallel

theorem ask_dated {d : Deadline} {f : Tables → α × Tables} (hs : s.Unarmed) (now : Timestamp) :
    ask d (MemoryStore.answer f) (s.dated now) = onDate now (ask d (MemoryStore.answer f) s) := by
  have hs' : (s.dated now).Unarmed := hs
  cases hd : d.expired with
  | true =>
    rw [ask_of_expired hd, ask_of_expired hd]
    rfl
  | false =>
    rw [ask_of_unarmed hd hs, ask_of_unarmed hd hs']
    rfl

/-- A call, and then something whose answer does not depend on the state: all that matters is what
the table operation answers. -/
theorem answer_ask_bind {d : Deadline} {f : Tables → β × Tables} {g : β → Action MemoryStore α}
    (hs : s.Unarmed) (hs' : s'.Unarmed) (hf : (f s'.tables).1 = (f s.tables).1)
    (hg : ∀ b u u', (g b).answer u' = (g b).answer u) :
    (ask d (MemoryStore.answer f) >>= g).answer s' =
      (ask d (MemoryStore.answer f) >>= g).answer s := by
  cases hd : d.expired with
  | true =>
    unfold answer
    rw [bind_of_error (ask_of_expired hd), bind_of_error (ask_of_expired hd)]
  | false =>
    rw [answer_bind_of_ok (ask_of_unarmed hd hs), answer_bind_of_ok (ask_of_unarmed hd hs'), hf]
    exact hg ..

namespace Local

variable {R : α → Prop} {Q : β → Prop}

theorem pure {a : α} (h : R a) : Local t shard (Pure.pure a) R := by
  refine ⟨fun s s' halike => ⟨rfl, fun b hb => ?_, .refl halike⟩, fun _ _ _ => rfl⟩
  cases hb
  exact h

theorem throw {e : Error} : Local t shard (MonadExcept.throw e) R := by
  refine ⟨fun s s' halike => ⟨rfl, fun b hb => ?_, .refl halike⟩, fun _ _ _ => rfl⟩
  cases hb

theorem bind {x : Action MemoryStore α} {f : α → Action MemoryStore β} (hx : Local t shard x R)
    (hf : ∀ a, R a → Local t shard (f a) Q) : Local t shard (x >>= f) Q where
  parallel := hx.parallel.bind fun a ha => (hf a ha).parallel
  timeless := by
    intro s hs now
    obtain ⟨-, hR, -⟩ := hx.parallel s s (.refl hs)
    have hunarmed := hx.parallel.unarmed hs
    rw [bind_apply, bind_apply, hx.timeless s hs now]
    unfold answer at hR
    unfold final at hunarmed
    cases hxs : x s with
    | ok a u =>
      rw [hxs] at hR hunarmed
      exact (hf a (hR a rfl)).timeless u hunarmed now
    | error e u => rfl

theorem throw_bind {e : Error} {f : β → Action MemoryStore α} :
    Local t shard (MonadExcept.throw e >>= f) R :=
  bind (R := fun _ => False) throw fun _ h => h.elim

theorem map {x : Action MemoryStore α} {f : α → β} (hx : Local t shard x R) :
    Local t shard (f <$> x) fun _ => True where
  parallel := hx.parallel.map
  timeless := by
    intro s hs now
    rw [map_apply, map_apply, hx.timeless s hs now]
    cases x s <;> rfl

theorem lift {r : Except Error α} (h : ∀ a, r = .ok a → R a) : Local t shard (lift r) R := by
  cases r with
  | ok a => exact pure (h a rfl)
  | error e => exact throw

/-- All that is known of a decoded token is what is known of every token that the bytes write. -/
theorem decodeToken {bytes : Bytes} {P : Token → Prop} (h : ∀ q, Token.decode bytes = .ok q → P q) :
    Local t shard (Action.lift (Archive.decodeToken bytes)) P :=
  lift fun q hq => h q (Archive.decodeToken_eq_ok_iff.1 hq)

theorem lift_any {r : Except Error α} : Local t shard (Action.lift r) fun _ => True :=
  lift fun _ _ => trivial

/-- Of the calls, all that matters is the table operation: it has to answer the same on the same
content of the tree. -/
theorem ask {d : Deadline} {f : Tables → α × Tables} (hf : Tables.Local t fun ts => (f ts).2)
    (hanswer : ∀ {ts us : Tables}, us.tree t = ts.tree t → (f us).1 = (f ts).1)
    (hR : ∀ ts, R (f ts).1) : Local t shard (ask d (MemoryStore.answer f)) R where
  parallel := .ask hf hanswer hR
  timeless _ hs now := ask_dated hs now

theorem discard_ask {d : Deadline} {f : Tables → α × Tables}
    (hf : Tables.Local t fun ts => (f ts).2) :
    Local t shard (discard (Action.ask d (MemoryStore.answer f))) fun _ => True := by
  rw [show discard (Action.ask d (MemoryStore.answer f)) =
    (fun _ => ()) <$> Action.ask d (MemoryStore.answer f) from rfl]
  constructor
  · intro s s' halike
    unfold answer final
    rw [map_apply, map_apply]
    cases hd : d.expired with
    | true =>
      rw [ask_of_expired hd, ask_of_expired hd]
      exact ⟨rfl, fun _ _ => trivial, .refl halike⟩
    | false =>
      rw [ask_of_unarmed hd halike.unarmed.1, ask_of_unarmed hd halike.unarmed.2]
      exact ⟨rfl, fun _ _ => trivial, .withTables hf halike⟩
  · intro s hs now
    rw [map_apply, map_apply, ask_dated hs now]
    cases Action.ask d (MemoryStore.answer f) s <;> rfl

theorem question {d : Deadline} {g : Tables → α}
    (hanswer : ∀ {ts us : Tables}, us.tree t = ts.tree t → g us = g ts) (hR : ∀ ts, R (g ts)) :
    Local t shard (Action.ask d (MemoryStore.answer fun ts => (g ts, ts))) R :=
  ask .refl hanswer hR

theorem question_any {d : Deadline} {g : Tables → α}
    (hanswer : ∀ {ts us : Tables}, us.tree t = ts.tree t → g us = g ts) :
    Local t shard (Action.ask d (MemoryStore.answer fun ts => (g ts, ts))) fun _ => True :=
  question hanswer fun _ => trivial

/-- What changes only counters, locks and the number of drawn ids, and answers the same whatever
else the state is. -/
theorem of_aside {act : Action MemoryStore α}
    (hanswer : ∀ s s', Alike t shard s s' → act.answer s' = act.answer s)
    (haside : ∀ s, State.Aside s (act.final s))
    (hdrawn : ∀ s s', Alike t shard s s' → (act.final s').drawn = (act.final s).drawn)
    (htimeless : ∀ s now, act (s.dated now) = onDate now (act s)) :
    Local t shard act fun _ => True where
  parallel s s' h :=
    ⟨hanswer s s' h, fun _ _ => trivial, .aside h (haside s) (haside s') (hdrawn s s' h)⟩
  timeless s _ now := htimeless s now

theorem count {f : Counters → Counters} : Local t shard (count f) fun _ => True :=
  of_aside (fun _ _ _ => rfl) (fun _ => ⟨rfl, rfl, rfl, rfl⟩) (fun _ _ h => h.drawn)
    fun _ _ => rfl

theorem check {d : Deadline} : Local t shard (Action.check d) fun _ => True := by
  have hrun : ∀ s : State MemoryStore, s.Unarmed → Action.check d s =
      if d.expired = true then .error (.timeout d.operation) s else .ok () s := by
    intro s hs
    split
    · next hd => exact check_of_expired hd s
    · next hd => exact check_of_not_expired (Bool.eq_false_iff.2 hd) hs.2
  constructor
  · intro s s' h
    unfold answer final
    rw [hrun s h.unarmed.1, hrun s' h.unarmed.2]
    cases d.expired <;> exact ⟨rfl, fun _ _ => trivial, .refl h⟩
  · intro s hs now
    have hs' : (s.dated now).Unarmed := hs
    rw [hrun s hs, hrun _ hs']
    cases d.expired <;> rfl

theorem lock {b : BranchId} : Local t shard (Archive.lock b) fun _ => True :=
  of_aside (fun _ _ _ => rfl) (fun _ => ⟨rfl, rfl, rfl, rfl⟩) (fun _ _ h => h.drawn)
    fun _ _ => rfl

theorem unlock {b : BranchId} : Local t shard (Archive.unlock b) fun _ => True :=
  of_aside (fun _ _ _ => rfl) (fun _ => ⟨rfl, rfl, rfl, rfl⟩) (fun _ _ h => h.drawn)
    fun _ _ => rfl

theorem drawId {k : Kind} {a : Archive} :
    Local t shard (a.drawId : Action MemoryStore (Id k)) fun _ => True :=
  of_aside (fun _ _ h => congrArg (fun n => Except.ok (Id.random (a.source (n + 1)))) h.drawn)
    (fun _ => ⟨rfl, rfl, rfl, rfl⟩) (fun _ _ h => congrArg (· + 1) h.drawn) fun _ _ => rfl

/-- The lease is compared with the current one of its own shard. -/
theorem checkLease {k : ShardId} {lease : LeaseId} :
    Local t (some k) (Archive.checkLease k lease) fun _ => True := by
  have hrun : ∀ s : State MemoryStore, Archive.checkLease k lease s =
      if s.leases.current k = some lease then .ok () s
      else .error (.ownershipLost k lease (s.leases.current k))
        { s with counters := s.counters.countRejection } := by
    intro s
    split
    · next hlease => exact Archive.checkLease_of_current hlease
    · next hlease => exact Archive.checkLease_of_not_current hlease
  apply of_aside
  · intro s s' h
    unfold answer
    rw [hrun, hrun, h.lease k rfl]
    by_cases hlease : s.leases.current k = some lease
    · rw [if_pos hlease, if_pos hlease]
    · rw [if_neg hlease, if_neg hlease]
  · intro s
    unfold final
    rw [hrun]
    by_cases hlease : s.leases.current k = some lease
    · rw [if_pos hlease]
      exact ⟨rfl, rfl, rfl, rfl⟩
    · rw [if_neg hlease]
      exact ⟨rfl, rfl, rfl, rfl⟩
  · intro s s' h
    unfold final
    rw [hrun, hrun, h.lease k rfl]
    by_cases hlease : s.leases.current k = some lease
    · rw [if_pos hlease, if_pos hlease]
      exact h.drawn
    · rw [if_neg hlease, if_neg hlease]
      exact h.drawn
  · intro s now
    have hleases : (s.dated now).leases = s.leases := rfl
    rw [hrun, hrun, hleases]
    by_cases hlease : s.leases.current k = some lease
    · rw [if_pos hlease, if_pos hlease]
      rfl
    · rw [if_neg hlease, if_neg hlease]
      rfl

/-- What does not look at the calendar does not look at it for its answer. -/
theorem dating {act : Action MemoryStore α} (h : Local t shard act R) : Dating t shard act where
  parallel s s' halike :=
    have hrun := h.parallel s s' halike
    ⟨hrun.1, fun _ _ => trivial, hrun.2.2⟩
  dateless s hs now := by
    unfold answer
    rw [h.timeless s hs now]
    cases act s <;> rfl

end Local

namespace Dating

variable {R : α → Prop}

theorem bind {x : Action MemoryStore α} {f : α → Action MemoryStore β} (hx : Local t shard x R)
    (hf : ∀ a, R a → Dating t shard (f a)) : Dating t shard (x >>= f) where
  parallel := hx.parallel.bind fun a ha => (hf a ha).parallel
  dateless := by
    intro s hs now
    obtain ⟨-, hR, -⟩ := hx.parallel s s (.refl hs)
    have hunarmed := hx.parallel.unarmed hs
    unfold answer at hR ⊢
    unfold final at hunarmed
    rw [bind_apply, bind_apply, hx.timeless s hs now]
    cases hxs : x s with
    | ok a u =>
      rw [hxs] at hR hunarmed
      exact (hf a (hR a rfl)).dateless u hunarmed now
    | error e u => rfl

theorem map {x : Action MemoryStore α} {f : α → β} (hx : Dating t shard x) :
    Dating t shard (f <$> x) where
  parallel := hx.parallel.map
  dateless s hs now := by
    rw [answer_map, answer_map, hx.dateless s hs now]

theorem throw_bind {e : Error} {f : β → Action MemoryStore α} :
    Dating t shard (MonadExcept.throw e >>= f) :=
  Local.throw_bind (R := fun _ => True) |>.dating

/-- Storing a row, and then something whose answer depends on the stored versions only. -/
theorem createRow_bind {d : Deadline} {token : Token} {info : String} (htoken : token.tree = t)
    {act : Action MemoryStore α} (hact : Dating t shard act)
    (hblind : ∀ s u : State MemoryStore, s.Unarmed → u.Unarmed →
      (∀ c b n x, u.tables.version? c b n x = s.tables.version? c b n x) →
        act.answer u = act.answer s) :
    Dating t shard (Archive.createRow d token info >>= fun _ => act) where
  parallel := Parallel.bind (.createRow htoken) fun _ _ => hact.parallel
  dateless := by
    intro s hs now
    have hs' : (s.dated now).Unarmed := hs
    cases hd : d.expired with
    | true =>
      have hfails : ∀ u : State MemoryStore,
          Archive.createRow d token info u = .error (.timeout d.operation) u :=
        fun u => ask_of_expired hd
      unfold answer
      rw [bind_of_error (hfails _), bind_of_error (hfails _)]
    | false =>
      have hfirst : Archive.createRow d token info s =
          .ok () (s.withTables (s.tables.upsertRow ⟨token, info, s.now⟩)) :=
        ask_of_unarmed hd hs
      have hsecond : Archive.createRow d token info (s.dated now) =
          .ok () ((s.dated now).withTables (s.tables.upsertRow ⟨token, info, now⟩)) :=
        ask_of_unarmed hd hs'
      rw [answer_bind_of_ok hfirst, answer_bind_of_ok hsecond]
      refine hblind (s.withTables _) ((s.dated now).withTables _) hs hs' ?_
      intro c b n x
      exact (Tables.version?_upsertRow ..).trans (Tables.version?_upsertRow ..).symm

end Dating

end Action

end Chronicle
