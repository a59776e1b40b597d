import Chronicle.Proofs.Agreement
import Chronicle.Proofs.Backward

/-!
# Forks

To see whether a branch can be forked at a node, the archive goes through the branch up to the node,
page after page, and looks at the last node that it took. No batch is read, and none is copied: the
new branch reads what its source has before the fork.

* `exhaust_eq`, `lastVisible_eq`: where going through a branch ends.
* `Forkable`: what can be forked, said by a full read of the branch; `fork_meets` says that this is
  what the archive asks for.
* `readsWindow_fork`: what is read of a new branch.
* `fork_inherits`: a fork, from request to reads.
-/
namespace Chronicle

open Archive (State)

/-! ## The last node of a branch -/

namespace Version

/-- The last version up to a node is at the node exactly if one is there. -/
theorem last_upTo_iff {l : List Version} (h : l.Pairwise fun v w => v.node < w.node) {n : NodeId} :
    (l.filter (·.node ≤ n)).getLast?.map (·.node) = some n ↔ ∃ v ∈ l, v.node = n := by
  constructor
  · intro hlast
    obtain ⟨v, hv, hn⟩ := Option.map_eq_some_iff.1 hlast
    exact ⟨v, (List.mem_filter.1 (List.mem_of_getLast? hv)).1, hn⟩
  · intro hmem
    obtain ⟨v, hv, rfl⟩ := hmem
    have hupTo : v ∈ l.filter (·.node ≤ v.node) :=
      List.mem_filter.2 ⟨hv, decide_eq_true (Int64.le_refl _)⟩
    obtain ⟨front, last, hfront⟩ :=
      (List.eq_nil_or_concat _).resolve_left (List.ne_nil_of_mem hupTo)
    rw [List.concat_eq_append] at hfront
    have hlast : last ∈ l.filter (·.node ≤ v.node) :=
      hfront ▸ List.mem_append_right _ (List.mem_singleton_self _)
    have hascending := h.filter (·.node ≤ v.node)
    rw [hfront] at hupTo hascending
    rw [hfront, List.getLast?_concat, Option.map_some, Option.some.injEq]
    rcases List.mem_append.1 hupTo with hv | hv
    · -- what stands before the last version is at an earlier node
      have hlt := (List.pairwise_append.1 hascending).2.2 v hv last (List.mem_singleton_self _)
      have hle := of_decide_eq_true (List.mem_filter.1 hlast).2
      exact absurd hlt (Int64.not_lt.2 hle)
    · rw [List.mem_singleton.1 hv]

end Version

/-- Up to a node is before the next one, since no version is at the largest node. -/
theorem Tables.history_next {ts : Tables} {t : Token} (h : Lineage.Follows firstEvent t.lineage)
    (node : NodeId) :
    ts.history (.window t firstEvent node.next) = (ts.log t).filter (·.node ≤ node) := by
  rw [history_below h]
  refine List.filter_congr fun v hv => ?_
  rw [decide_eq_decide]
  by_cases hlimit : node = nodeLimit
  · have hbelow := ((holds_iff h).2 ((mem_log_iff h).1 hv).1).2.2
    subst hlimit
    exact iff_of_true hbelow (Int64.le_of_lt hbelow)
  · rw [← Int64.not_le, NodeId.next_le_iff hlimit, Int64.not_lt]

section Last

variable {d : Deadline} (hd : d.expired = false) {s : State MemoryStore} (hs : s.Unarmed)

include hd hs

theorem Selection.exhaust_eq {k : UInt64} (hk : k.toNat + 1 < UInt64.size) (hpos : 0 < k.toNat)
    {p : Plan} (hp : Lineage.Ordered p.spans) {fuel : Nat} {c : Cursor} (hfits : c.Fits s.tables p)
    (hfuel : (s.tables.remaining p c).length < fuel) :
    ∃ c' : Cursor, c'.node = (c.takeAll (s.tables.remaining p c)).node ∧
      exhaust d p k fuel c s = .ok c' s := by
  induction fuel generalizing c with
  | zero => exact absurd hfuel (Nat.not_lt_zero _)
  | succ fuel ih =>
    obtain ⟨c', -, hnode, hpage, hnext⟩ := page_eq hd hs hk hpos hp hfits
    unfold exhaust
    rw [Action.bind_of_ok hpage]
    by_cases hlast : (s.tables.remaining p c).length < k.toNat
    · rw [if_pos (decide_eq_true hlast)]
      rw [List.take_of_length_le (Nat.le_of_lt hlast)] at hnode
      exact ⟨c', hnode, rfl⟩
    · rw [if_neg (by simpa using hlast)]
      obtain ⟨hfits', hremaining⟩ := hnext (Nat.not_lt.1 hlast)
      obtain ⟨c'', hnode', hrun⟩ := ih hfits' (by rw [hremaining, List.length_drop]; omega)
      refine ⟨c'', ?_, hrun⟩
      rw [hnode', Cursor.takeAll_node, hnode, ← Cursor.takeAll_node, ← Cursor.takeAll_append,
        hremaining, List.take_append_drop]

variable {a : Archive} (hk : a.config.maxPageSize.toNat + 1 < UInt64.size) {t : Token}
  (h : Lineage.Follows firstEvent t.lineage)

include hk h

theorem Archive.lastVisible_eq (before : NodeId) : a.lastVisible d t before s =
    .ok ((s.tables.history (.window t firstEvent before)).getLast?.map (·.node)) s := by
  have hordered := Plan.window_ordered h firstEvent before
  obtain ⟨c, hnode, hrun⟩ := Selection.exhaust_eq hd hs hk (maxPageSize_pos a) hordered
    (Cursor.fits_start s.tables _ firstEvent) (s.tables.length_remaining_lt hordered _)
  rw [Tables.remaining_start (Int64.le_refl _), Cursor.takeAll_node] at hnode
  refine (Action.bind_of_ok hrun).trans ?_
  rw [hnode]
  cases hlast : (s.tables.history (.window t firstEvent before)).getLast? with
  | none => rfl
  | some v =>
    have hshows := (Tables.mem_history_iff h).1 (List.mem_of_getLast? hlast)
    rw [Option.map_some, Option.getD_some, if_pos hshows.1.2.1]
    rfl

/-- What a branch shows last up to a node is at the node if a full read has a version there. -/
theorem Archive.lastVisible_next (node : NodeId) :
    ∃ visible, a.lastVisible d t node.next s = .ok visible s ∧
      (visible = some node ↔ ∃ v ∈ s.tables.log t, v.node = node) := by
  refine ⟨_, lastVisible_eq hd hs hk h node.next, ?_⟩
  rw [Tables.history_next h]
  exact Version.last_upTo_iff (Tables.log_ascending h)

end Last

/-! ## What can be forked -/

namespace Archive

/-- A branch can be forked at a node, with `t` as the token of the new branch, if the node is not
the first one and among the versions `vs` that the branch shows there is one at the node, and if
lineage and token of the new branch are not too large. -/
structure Forkable (a : Archive) (vs : List Version) (node : NodeId) (t : Token) : Prop where
  first : firstEvent < node
  shown : ∃ v ∈ vs, v.node = node
  depth : t.lineage.length ≤ a.config.maxAncestorDepth.toNat
  length : t.writeBody.length ≤ Token.bodyLimit

variable {a : Archive} {s : State MemoryStore}

section Fork

variable (htime : a.InTime) (hmaxPage : a.config.maxPageSize.toNat + 1 < UInt64.size)
  (hs : s.Unarmed) {req : ForkRequest} (hlease : s.leases.current req.shard = some req.lease)
  {row : BranchRow} (hrow : s.tables.Names req.token row)
  (hlineage : Lineage.Follows firstEvent row.token.lineage)

include htime hmaxPage hs hlease hrow hlineage

/-- What can be forked is forked, which adds a row, and nothing else is. -/
theorem fork_meets :
    Action.Meets (a.fork req) s
      (fun bytes u =>
        a.Forkable (s.tables.log row.token) req.node (a.forkToken req row.token s.drawn) ∧
        (a.forkToken req row.token s.drawn).encode = .ok bytes ∧ u.Unarmed ∧
        u.tables = s.tables.upsertRow ⟨a.forkToken req row.token s.drawn, req.info, s.now⟩)
      fun _ _ =>
        ¬ a.Forkable (s.tables.log row.token) req.node (a.forkToken req row.token s.drawn) := by
  have hd := htime.not_expired "fork_history_branch"
  obtain ⟨q, hq, hrow⟩ := hrow
  obtain ⟨visible, hvisible, hshown⟩ := lastVisible_next hd hs hmaxPage hlineage req.node
  unfold fork
  rw [Action.meets_bind, Action.meets_checkLease]
  refine ⟨fun _ => ?_, fun hlost => absurd hlease hlost⟩
  dsimp only
  split
  · next hfirst =>
    rw [Action.meets_bind, Action.meets_throw]
    exact fun h => Int64.not_lt.2 hfirst h.first
  next hfirst =>
  rw [Action.meets_bind]
  refine .of_ok (Action.lift_of_ok (decodeToken_eq_ok_iff.2 hq) s) ?_
  rw [Action.meets_bind]
  refine .of_ok (requireRow_eq hd hs hrow) ?_
  rw [Action.meets_bind]
  refine .of_ok hvisible ?_
  split
  · next hnone =>
    rw [Action.meets_bind, Action.meets_throw]
    exact fun h => hnone (hshown.2 h.shown)
  next hsome =>
  split
  · next hdeep =>
    rw [Action.meets_bind, Action.meets_throw]
    exact fun h => Nat.not_lt.2 h.depth hdeep
  next hdepth =>
  rw [Action.meets_bind, Action.meets_drawId, Action.meets_bind]
  change Action.Meets (Action.lift (encodeToken (a.forkToken req row.token s.drawn))) _ _ _
  rw [encodeToken, Token.encode_eq]
  split
  · next hlength =>
    refine .of_ok (Action.lift_of_ok rfl _) ?_
    have hdrawn : ({ s with drawn := s.drawn + 1 } : State MemoryStore).Unarmed := hs
    refine Action.meets_bind.2 (Action.meets_bind.2 (Action.meets_get.2
      ((Action.meets_ask_unarmed hdrawn).2 ⟨fun _ => ?_, ?_⟩)))
    · rw [Action.meets_bind, Action.meets_count, Action.meets_pure]
      have hshown := hshown.1 (Decidable.not_not.1 hsome)
      exact ⟨⟨Int64.not_le.1 hfirst, hshown, Nat.not_lt.1 hdepth, hlength⟩, rfl, hs, rfl⟩
    · intro hexpired
      cases hd.symm.trans hexpired
  · next hlength =>
    exact Action.meets_throw.2 fun h => hlength h.length

theorem fork_ok_iff : (∃ bytes, (a.fork req).answer s = .ok bytes) ↔
    a.Forkable (s.tables.log row.token) req.node (a.forkToken req row.token s.drawn) := by
  rcases Action.outcome_of_meets (fork_meets htime hmaxPage hs hlease hrow hlineage) with
    ⟨bytes, hans, hok⟩ | ⟨e, hans, hrefused⟩
  · exact iff_of_true ⟨bytes, hans⟩ hok.1
  · refine iff_of_false (fun h => ?_) hrefused
    obtain ⟨bytes, hok⟩ := h
    cases hans.symm.trans hok

theorem fork_final {bytes : Bytes} (hans : (a.fork req).answer s = .ok bytes) :
    a.Forkable (s.tables.log row.token) req.node (a.forkToken req row.token s.drawn) ∧
      (a.forkToken req row.token s.drawn).encode = .ok bytes ∧ ((a.fork req).final s).Unarmed ∧
      ((a.fork req).final s).tables =
        s.tables.upsertRow ⟨a.forkToken req row.token s.drawn, req.info, s.now⟩ := by
  rcases Action.outcome_of_meets (fork_meets htime hmaxPage hs hlease hrow hlineage) with
    ⟨_, hans', hok⟩ | ⟨e, hans', -⟩
  · cases hans.symm.trans hans'
    exact hok
  · cases hans.symm.trans hans'

end Fork

end Archive

/-! ## What a fork shows -/

namespace Tables

/-- No row and no version belongs to the branch. -/
structure Unused (ts : Tables) (t : TreeId) (b : BranchId) : Prop where
  row : ts.row? t b = none
  version : ∀ n x, ts.version? t b n x = none

theorem history_of_le {ts : Tables} {t : Token} (h : Lineage.Follows firstEvent t.lineage)
    {min max : NodeId} (hmax : max ≤ min) : ts.history (.window t min max) = [] := by
  refine List.eq_nil_iff_forall_not_mem.2 fun v hv => ?_
  obtain ⟨⟨-, hmin, hlt⟩, -⟩ := (mem_history_iff h).1 hv
  exact Int64.not_lt.2 (Int64.le_trans hmax hmin) hlt

end Tables

namespace Archive

variable {a : Archive} {s : State MemoryStore}

/-- What is read of a branch whose row was added as that of a fork. -/
theorem readsWindow_fork (htime : a.InTime) (hs : s.Unarmed) {bytes : Bytes} {row : BranchRow}
    (hrow : s.tables.Names bytes row) (hlineage : Lineage.Follows firstEvent row.token.lineage)
    {u : State MemoryStore} (hu : u.Unarmed) {fork : Token} {info : String}
    {now : Timestamp} (htables : u.tables = s.tables.upsertRow ⟨fork, info, now⟩) {forked : Bytes}
    (hdecode : Token.decode forked = .ok fork) (htree : fork.tree = row.token.tree) {node : NodeId}
    (hfork : fork.lineage = row.token.lineageAt node)
    (hunused : s.tables.Unused fork.tree fork.branch) {min max : EventId} (hmin : firstEvent ≤ min)
    (hmax : min < max) :
    ∃ ws, a.ReadsWindow u forked fork.branch min max ws ∧
      (min < Min.min max node →
        a.ReadsWindow s bytes row.branch min (Min.min max node) ws) ∧
      (node ≤ min → ws = []) := by
  have hnames : u.tables.Names forked ⟨fork, info, now⟩ := by
    refine ⟨fork, hdecode, ?_⟩
    rw [htables, Tables.row?_upsertRow, if_pos ⟨rfl, rfl⟩]
  have hversions : ∀ tree branch n x,
      u.tables.version? tree branch n x = s.tables.version? tree branch n x := by
    intro tree branch n x
    rw [htables, Tables.version?_upsertRow]
  have hown : ∀ n x, u.tables.version? row.token.tree fork.branch n x = none := by
    intro n x
    rw [hversions, ← htree, hunused.version]
  have hhistory := Tables.history_fork hlineage htree hfork hown hversions min max
  have hfollows : Lineage.Follows firstEvent fork.lineage :=
    hfork ▸ Token.lineageAt_follows hlineage node
  refine ⟨_, readsWindow_history htime hu hnames hfollows hmin hmax, ?_, ?_⟩
  · intro hpart
    rw [hhistory]
    exact readsWindow_history htime hs hrow hlineage hmin hpart
  · intro hbehind
    rw [hhistory]
    refine Tables.history_of_le hlineage (Int64.not_lt.1 fun hlt => ?_)
    exact Int64.not_lt.2 hbehind (NodeId.lt_min_iff.1 hlt).2

/-- **Forks.** A writer with the current lease forks a branch at a node exactly if a full read of
the branch gives a version at the node, which is not the first one, and lineage and token of the new
branch are not too large. Then one row was added and no version was touched, the bytes are the token
of the new branch, whose own nodes start at the node, and a read of any window of it gives what the
part of the window before the node gave of the source. -/
theorem fork_inherits (htime : a.InTime) (hmaxPage : a.config.maxPageSize.toNat + 1 < UInt64.size)
    (hs : s.Unarmed) {req : ForkRequest} (hlease : s.leases.current req.shard = some req.lease)
    {row : BranchRow} (hrow : s.tables.Names req.token row)
    (hlineage : Lineage.check row.token.lineage = .ok ())
    (hunused : s.tables.Unused (a.forkToken req row.token s.drawn).tree
      (a.forkToken req row.token s.drawn).branch) :
    let t := a.forkToken req row.token s.drawn
    let u := (a.fork req).final s
    ∃ vs, a.ReadsAll s req.token row.branch vs ∧
      ((∃ bytes, (a.fork req).answer s = .ok bytes) ↔ a.Forkable vs req.node t) ∧
      ∀ bytes, (a.fork req).answer s = .ok bytes →
        (∀ tree branch, u.tables.row? tree branch =
          if tree = t.tree ∧ branch = t.branch then some ⟨t, req.info, s.now⟩
          else s.tables.row? tree branch) ∧
        (∀ tree branch n x,
          u.tables.version? tree branch n x = s.tables.version? tree branch n x) ∧
        Token.decode bytes = .ok t ∧ Lineage.check t.lineage = .ok () ∧ t.ownStart = req.node ∧
        t.retention = row.token.retention ∧
        ∀ min max,
          (min < firstEvent ∨ max ≤ min → ∀ size page,
            (a.readRaw ⟨bytes, min, max, size, page⟩).answer u =
              .error (.invalidArgument (.window min max))) ∧
          (firstEvent ≤ min → min < max → ∃ ws, a.ReadsWindow u bytes t.branch min max ws ∧
            (min < Min.min max req.node →
              a.ReadsWindow s req.token row.branch min (Min.min max req.node) ws) ∧
            (req.node ≤ min → ws = [])) := by
  rw [Lineage.check_eq_ok_iff] at hlineage
  intro t u
  refine ⟨_, readsAll_log htime hs hrow hlineage,
    fork_ok_iff htime hmaxPage hs hlease hrow hlineage, ?_⟩
  intro bytes hans
  obtain ⟨hforkable, hencode, hu, htables⟩ :=
    fork_final htime hmaxPage hs hlease hrow hlineage hans
  have hfollows : Lineage.Follows firstEvent t.lineage :=
    Token.lineageAt_follows hlineage req.node
  have hdecode : Token.decode bytes = .ok t := Token.decode_encode hencode hfollows
  refine ⟨?_, ?_, hdecode, Lineage.check_eq_ok_iff.2 hfollows,
    Token.stop_lineageAt hlineage hforkable.first, rfl, fun min max => ⟨?_, ?_⟩⟩
  · intro tree branch
    rw [htables, Tables.row?_upsertRow]
    rfl
  · intro tree branch n x
    rw [htables, Tables.version?_upsertRow]
  · intro hwindow size page
    rw [Action.answer, readRaw_of_window hwindow size page u]
  · intro hmin hmax
    exact readsWindow_fork htime hs hrow hlineage hu htables hdecode rfl rfl hunused hmin hmax

/-- A branch with two nodes is forked at the second one. The new branch reads the first one. -/
theorem fork_inherits_first :
    let req := Sample.forkRequest (Forked.bytes Sample.root)
    let t := Sample.archive.forkToken req Sample.root 3
    (Sample.archive.fork req).answer Sample.state = .ok (Forked.bytes t) ∧
      Sample.archive.ReadsWindow ((Sample.archive.fork req).final Sample.state) (Forked.bytes t)
        t.branch firstEvent nodeLimit [⟨1, 5, 0, [1]⟩] := by
  intro req t
  have hdrawn : Sample.state.drawn = 3 := by decide +kernel
  have hnames : Sample.state.tables.Names req.token (Forked.row Sample.root) :=
    ⟨Sample.root, rfl, by decide +kernel⟩
  have hlease : Sample.state.leases.current req.shard = some req.lease := by decide +kernel
  have hlineage : Lineage.check (Forked.row Sample.root).token.lineage = .ok () := rfl
  have hans : (Sample.archive.fork req).answer Sample.state = .ok (Forked.bytes t) := by
    decide +kernel
  have hnew : ∀ u, Known Sample.issued u → u.branch ≠ t.branch := by
    intro u hu
    rcases Sample.known_iff.1 hu with rfl | rfl
    · decide
    · decide
  have htidy := (Sample.reaches.orderly Sample.distinctDraws).tidy
  have hunused : Sample.state.tables.Unused t.tree t.branch :=
    ⟨htidy.row?_eq_none hnew _, htidy.version?_eq_none hnew _⟩
  obtain ⟨vs, -, -, hforked⟩ := fork_inherits (a := Sample.archive) (by decide) (by decide)
    Sample.reaches.unarmed hlease hnames hlineage (hdrawn ▸ hunused)
  obtain ⟨-, -, -, -, -, -, hwindows⟩ := hforked _ hans
  obtain ⟨ws, hws, hsource, -⟩ := (hwindows firstEvent nodeLimit).2 (by decide) (by decide)
  have hhistory : Sample.state.tables.history (.window Sample.root firstEvent 2) =
      [⟨1, 5, 0, [1]⟩] := by decide +kernel
  have hfirst : Sample.archive.ReadsWindow Sample.state req.token Sample.root.branch firstEvent 2
      [⟨1, 5, 0, [1]⟩] := by
    rw [← hhistory]
    exact readsWindow_history (by decide) Sample.reaches.unarmed hnames
      (Lineage.check_eq_ok_iff.1 hlineage) (by decide) (by decide)
  rw [ReadsWindow.unique (hsource (by decide)) hfirst, hdrawn] at hws
  exact ⟨hans, hws⟩

end Archive

end Chronicle
