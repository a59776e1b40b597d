import Chronicle.Proofs.Losses
import Chronicle.Proofs.Sharing

/-!
# What a removal spares

Trimming and deleting remove versions of a branch that other branches may inherit. Neither takes
away what a row of another branch reaches: trimming refuses if a row inherits beyond the watermark,
and deleting collects no version below the stop of a span that a remaining row has.

* `reachedUpTo_eq_some` and `reachedUpTo_eq_none_iff`: what the rows of a tree reach.
* `Tables.Spares` is what losing versions that no other branch reaches preserves, so it holds at
  every end of a removal, with or without a fault.
* `removal_spares`: other branches and other trees are as they were.
-/
namespace Chronicle

open Archive (State)

/-! ## What rows reach -/

instance instLawfulOrderMaxInt64 : Std.LawfulOrderMax Int64 where
  max_eq_or a b := by
    show (if a ≤ b then b else a) = a ∨ (if a ≤ b then b else a) = b
    split
    · exact .inr rfl
    · exact .inl rfl
  max_le_iff a b c := by
    show (if a ≤ b then b else a) ≤ c ↔ a ≤ c ∧ b ≤ c
    split
    · next h =>
      constructor
      · intro hb
        exact ⟨Int64.le_trans h hb, hb⟩
      · intro hboth
        exact hboth.2
    · next h =>
      rw [Int64.not_le] at h
      constructor
      · intro ha
        exact ⟨ha, Int64.le_trans (Int64.le_of_lt h) ha⟩
      · intro hboth
        exact hboth.1

theorem mem_stops_iff {rows : List BranchRow} {b : BranchId} {stop : NodeId} :
    stop ∈ ((rows.flatMap (·.token.spans)).filter (·.owner = b)).map (·.stop) ↔
      ∃ row ∈ rows, ∃ s ∈ row.token.spans, s.owner = b ∧ s.stop = stop := by
  simp only [List.mem_map, List.mem_filter, List.mem_flatMap, decide_eq_true_eq]
  constructor
  · intro h
    obtain ⟨s, ⟨⟨row, hrow, hs⟩, howner⟩, hstop⟩ := h
    exact ⟨row, hrow, s, hs, howner, hstop⟩
  · intro h
    obtain ⟨row, hrow, s, hs, howner, hstop⟩ := h
    exact ⟨s, ⟨⟨row, hrow, hs⟩, howner⟩, hstop⟩

theorem reachedUpTo_eq_none_iff {rows : List BranchRow} {b : BranchId} :
    reachedUpTo rows b = none ↔ ∀ row ∈ rows, ∀ s ∈ row.token.spans, s.owner ≠ b := by
  rw [reachedUpTo, List.max?_eq_none_iff, List.eq_nil_iff_forall_not_mem]
  simp only [mem_stops_iff]
  constructor
  · intro h row hrow s hs howner
    exact h s.stop ⟨row, hrow, s, hs, howner, rfl⟩
  · intro h stop hstop
    obtain ⟨row, hrow, s, hs, howner, -⟩ := hstop
    exact h row hrow s hs howner

theorem reachedUpTo_eq_some {rows : List BranchRow} {b : BranchId} {stop : NodeId}
    (h : reachedUpTo rows b = some stop) :
    (∃ row ∈ rows, ∃ s ∈ row.token.spans, s.owner = b ∧ s.stop = stop) ∧
      ∀ row ∈ rows, ∀ s ∈ row.token.spans, s.owner = b → s.stop ≤ stop := by
  rw [reachedUpTo, List.max?_eq_some_iff] at h
  obtain ⟨hmem, hmax⟩ := h
  refine ⟨mem_stops_iff.1 hmem, ?_⟩
  intro row hrow s hs howner
  exact hmax s.stop (mem_stops_iff.2 ⟨row, hrow, s, hs, howner, rfl⟩)

namespace Tables

theorem row?_eraseTree {ts : Tables} {t : TreeId} (h : ts.isEmptyTree t = true) (u : TreeId)
    (c : BranchId) : (ts.eraseTree t).row? u c = ts.row? u c := by
  rw [row?, tree_eraseTree]
  split
  · next hu =>
    subst hu
    exact ((isEmptyTree_iff.1 h).2.1 c).symm
  · rfl

theorem version?_eraseTree {ts : Tables} {t : TreeId} (h : ts.isEmptyTree t = true) (u : TreeId)
    (c : BranchId) (n : NodeId) (x : TransactionId) :
    (ts.eraseTree t).version? u c n x = ts.version? u c n x := by
  rw [version?, nodesOf, tree_eraseTree]
  split
  · next hu =>
    subst hu
    exact ((isEmptyTree_iff.1 h).2.2 c n x).symm
  · rfl

/-! ## What is spared -/

/-- No row of the tree but that of branch `b` reaches node `n` of branch `o`. -/
def Unreached (ts : Tables) (t : TreeId) (b o : BranchId) (n : NodeId) : Prop :=
  ∀ c row, c ≠ b → ts.row? t c = some row → ∀ s ∈ row.token.spans, s.owner = o → n ∉ s

/-- The contents `us` differ from `ts` in branch `b` of tree `t` at most: other branches read the
same, and other trees are the same. -/
structure Spares (ts : Tables) (t : TreeId) (b : BranchId) (us : Tables) : Prop where
  branches : ∀ u c, ¬ (u = t ∧ c = b) → ts.SameBranch us u c
  versions : ∀ u c n x, u ≠ t → us.version? u c n x = ts.version? u c n x
  known : ∀ u, u ≠ t → us.hasTree u = ts.hasTree u

theorem Spares.refl (ts : Tables) (t : TreeId) (b : BranchId) : ts.Spares t b ts :=
  ⟨fun _ _ _ => ⟨rfl, fun _ _ _ _ _ _ _ => rfl⟩, fun _ _ _ _ _ => rfl, fun _ _ => rfl⟩

variable {ts us : Tables} {t : TreeId} {b : BranchId}

/-- The rows of the other branches are found among the rows of the tree. -/
theorem Spares.mem_rowsOf (h : ts.Spares t b us) {c : BranchId} (hc : c ≠ b) {row : BranchRow}
    (hrow : ts.row? t c = some row) : row ∈ us.rowsOf t :=
  mem_rowsOf_iff.2 ⟨c, (h.branches t c fun hb => hc hb.2).row.trans hrow⟩

theorem Spares.remove (h : ts.Spares t b us) {vs : Tables}
    (hrow : ∀ u c, ¬ (u = t ∧ c = b) → vs.row? u c = us.row? u c)
    (hversion : ∀ u c n x, vs.version? u c n x = us.version? u c n x ∨
      u = t ∧ ts.Unreached t b c n)
    (hknown : ∀ u, u ≠ t → vs.hasTree u = us.hasTree u) : ts.Spares t b vs where
  branches u c hne := by
    obtain ⟨hsame, hversions⟩ := h.branches u c hne
    refine ⟨(hrow u c hne).trans hsame, fun row hr s hs n hn x => ?_⟩
    rcases hversion u s.owner n x with heq | ⟨rfl, hfree⟩
    · exact heq.trans (hversions row hr s hs n hn x)
    · exact absurd hn (hfree c row (fun hc => hne ⟨rfl, hc⟩) hr s hs rfl)
  versions u c n x hu := by
    rcases hversion u c n x with heq | ⟨rfl, -⟩
    · exact heq.trans (h.versions u c n x hu)
    · exact absurd rfl hu
  known u hu := (hknown u hu).trans (h.known u hu)

theorem Spares.eraseRow (h : ts.Spares t b us) : ts.Spares t b (us.eraseRow t b) := by
  apply h.remove
  · intro u c hne
    rw [row?_eraseRow, if_neg hne]
  · intro u c n x
    exact .inl (version?_eraseRow ..)
  · intro u _
    exact hasTree_eraseRow ..

theorem Spares.loses (h : ts.Spares t b us) {p : BranchId → NodeId → TransactionId → Prop}
    {vs : Tables} (hvs : us.Loses t p vs) (hfree : ∀ c n x, p c n x → ts.Unreached t b c n) :
    ts.Spares t b vs := by
  apply h.remove
  · intro u c _
    exact hvs.rows u c
  · intro u c n x
    exact (hvs.versions u c n x).imp_right fun hgone => ⟨hgone.2.1, hfree c n x hgone.2.2⟩
  · intro u _
    exact hvs.known u

theorem Spares.eraseTree (h : ts.Spares t b us) (hempty : us.isEmptyTree t = true) :
    ts.Spares t b (us.eraseTree t) := by
  apply h.remove
  · intro u c _
    exact row?_eraseTree hempty ..
  · intro u c n x
    exact .inl (version?_eraseTree hempty ..)
  · intro u hu
    rw [hasTree_eraseTree, decide_eq_true hu, Bool.true_and]

end Tables

namespace Archive

variable {ts : Tables} {t : TreeId} {b : BranchId}

/-! ## Deleting -/

theorem unreached_of_none {rows : List BranchRow} {o : BranchId} (h : reachedUpTo rows o = none)
    (hrows : ∀ c row, c ≠ b → ts.row? t c = some row → row ∈ rows) (n : NodeId) :
    ts.Unreached t b o n := by
  intro c row hc hrow s hs howner
  exact absurd howner (reachedUpTo_eq_none_iff.1 h row (hrows c row hc hrow) s hs)

theorem unreached_of_some {rows : List BranchRow} {o : BranchId} {stop : NodeId}
    (h : reachedUpTo rows o = some stop)
    (hrows : ∀ c row, c ≠ b → ts.row? t c = some row → row ∈ rows) {n : NodeId} (hn : stop ≤ n) :
    ts.Unreached t b o n := by
  intro c row hc hrow s hs howner hmem
  have hstop := (reachedUpTo_eq_some h).2 row (hrows c row hc hrow) s hs howner
  exact Int64.not_lt.2 (Int64.le_trans hstop hn) hmem.2

theorem unreached_of_collected {rows : List BranchRow}
    (hrows : ∀ c row, c ≠ b → ts.row? t c = some row → row ∈ rows) {spans : List Span}
    {o : BranchId} {n : NodeId} {x : TransactionId} (h : Collected rows spans o n x) :
    ts.Unreached t b o n := by
  induction spans with
  | nil => exact h.elim
  | cons s rest ih =>
    cases hreached : reachedUpTo rows s.owner with
    | some stop =>
      obtain ⟨-, rfl, -, hn⟩ := (collected_of_some hreached).1 h
      exact unreached_of_some hreached hrows hn
    | none =>
      rcases (collected_of_none hreached).1 h with ⟨rfl, -⟩ | hrest
      · exact unreached_of_none hreached hrows n
      · exact ih hrest

theorem delete_keeps (a : Archive) {req : DeleteRequest} {q : Token}
    (hq : Token.decode req.token = .ok q) :
    Action.Keeps (ts.Spares q.tree q.branch) (a.delete req) fun _ => True := by
  apply Action.Settles.keeps
  intro env us hus
  have hfree : ∀ vs, (us.eraseRow q.tree q.branch).Loses q.tree (us.Orphaned q) vs →
      ts.Spares q.tree q.branch vs := by
    intro vs hvs
    apply hus.eraseRow.loses hvs
    intro c n x hcollected
    exact unreached_of_collected (fun c row hc hrow => hus.eraseRow.mem_rowsOf hc hrow) hcollected
  apply (delete_settles a req us).imp
  · intro removed ws h
    obtain ⟨p, hp, vs, hvs, rfl⟩ := h
    cases hq.symm.trans hp.token
    have hspares := hfree vs hvs.toLoses
    refine ⟨?_, trivial⟩
    split
    · next hempty => exact hspares.eraseTree hempty
    · exact hspares
  · intro ws h
    rw [h.1]
    exact hus
  · intro ws h
    rcases h with rfl | ⟨p, hp, hws⟩
    · exact hus
    · cases hq.symm.trans hp.token
      exact hfree ws hws

/-! ## Trimming -/

/-- What no row inherits beyond the watermark, no other branch reaches from there on. -/
theorem unreached_of_find?_eq_none {rows : List BranchRow} {node : NodeId}
    (h : rows.find? (·.inheritsBeyond b node) = none)
    (hrows : ∀ c row, c ≠ b → ts.row? t c = some row → row ∈ rows) {n : NodeId} (hn : node ≤ n) :
    ts.Unreached t b b n := by
  intro c row hc hrow s hs howner hmem
  rcases List.mem_append.1 hs with hs | hs
  · have hbeyond := List.find?_eq_none.1 h row (hrows c row hc hrow)
    refine hbeyond (List.any_eq_true.2 ⟨s, hs, ?_⟩)
    rw [Bool.and_eq_true, decide_eq_true_eq, decide_eq_true_eq]
    exact ⟨howner, Int64.lt_of_le_of_lt hn hmem.2⟩
  · rw [List.mem_singleton.1 hs] at howner
    exact hc ((Tables.row?_own hrow).2.symm.trans howner)

theorem trim_keeps (a : Archive) {req : TrimRequest} {q : Token}
    (hq : Token.decode req.token = .ok q) :
    Action.Keeps (ts.Spares q.tree q.branch) (a.trim req) fun _ => True := by
  apply Action.Settles.keeps
  intro env us hus
  have hfree : ∀ p vs, a.AcceptsTrim env.leases req us p →
      us.Loses p.tree (Beyond p.branch req.node req.transaction) vs →
        ts.Spares q.tree q.branch vs := by
    intro p vs hp hvs
    cases hq.symm.trans hp.token
    apply hus.loses hvs
    intro c n x hbeyond
    obtain ⟨rfl, hn, -⟩ := hbeyond
    exact unreached_of_find?_eq_none hp.heirs (fun c row hc hrow => hus.mem_rowsOf hc hrow) hn
  apply (trim_settles a req us).imp
  · intro removed vs h
    obtain ⟨p, hp, htrimmed⟩ := h
    exact ⟨hfree p vs hp htrimmed.loses, trivial⟩
  · intro vs h
    rw [h.1]
    exact hus
  · intro vs h
    rcases h with rfl | ⟨p, hp, hvs⟩
    · exact hus
    · exact hfree p vs hp hvs

end Archive

/-! ## Removals -/

inductive Removal where
  | delete (req : DeleteRequest)
  | trim (req : TrimRequest)
  deriving DecidableEq, Repr

namespace Removal

def token : Removal → Bytes
  | delete req => req.token
  | trim req => req.token

def perform {σ : Type} [Backend σ] (a : Archive) : Removal → Action σ Nat
  | delete req => a.delete req
  | trim req => a.trim req

variable {ts : Tables}

theorem keeps (a : Archive) {r : Removal} {q : Token} (hq : Token.decode r.token = .ok q) :
    Action.Keeps (ts.Spares q.tree q.branch) (r.perform a) fun _ => True := by
  cases r with
  | delete req => exact Archive.delete_keeps a hq
  | trim req => exact Archive.trim_keeps a hq

theorem keeps_of_error (a : Archive) {r : Removal} {fault : Token.Fault}
    (h : Token.decode r.token = .error fault) :
    Action.Keeps (· = ts) (r.perform a) fun _ => True := by
  have hlift : Action.Keeps (· = ts) (Action.lift (Archive.decodeToken r.token))
      fun _ => False := by
    apply Action.Keeps.lift
    intro u hu
    rw [Archive.decodeToken_eq_ok_iff, h] at hu
    cases hu
  cases r with
  | delete req =>
    refine .bind .checkLease ?_
    intro _ _
    exact .bind hlift fun _ hfalse => hfalse.elim
  | trim req =>
    refine .bind .checkLease ?_
    intro _ _
    exact .bind hlift fun _ hfalse => hfalse.elim

end Removal

namespace Archive

/-- **Removals are safe.** Whatever is stored, whatever bytes a removal is asked with and at
whatever call a fault ends it: every other branch keeps its row and every version that its spans
reach, so it reads the same, and other trees are the same. -/
theorem removal_spares (a : Archive) (r : Removal) (s : State MemoryStore) :
    (∀ u c row, (∀ q, Token.decode r.token = .ok q → ¬ (u = q.tree ∧ c = q.branch)) →
      s.tables.row? u c = some row →
        ((r.perform a).final s).tables.row? u c = some row ∧
        (∀ sp ∈ row.token.spans, ∀ n ∈ sp, ∀ x v, s.tables.version? u sp.owner n x = some v →
          ((r.perform a).final s).tables.version? u sp.owner n x = some v) ∧
        ∀ bytes l, Token.decode bytes = .ok l → l.tree = u → l.branch = c → ∀ t : State MemoryStore,
          SameReads (t.withTables ((r.perform a).final s).tables) (t.withTables s.tables) bytes) ∧
    ∀ u, (∀ q, Token.decode r.token = .ok q → u ≠ q.tree) →
      (∀ c, ((r.perform a).final s).tables.row? u c = s.tables.row? u c) ∧
      ∀ c n x, ((r.perform a).final s).tables.version? u c n x = s.tables.version? u c n x := by
  cases hq : Token.decode r.token with
  | error fault =>
    have hsame : ((r.perform a).final s).tables = s.tables :=
      (Removal.keeps_of_error a hq).final rfl
    rw [hsame]
    refine ⟨?_, ?_⟩
    · intro u c row _ hrow
      refine ⟨hrow, fun _ _ _ _ _ _ hv => hv, ?_⟩
      intro bytes l _ _ _ t
      exact ⟨fun _ _ _ => rfl, fun _ _ _ => rfl, fun _ _ _ => rfl, fun _ _ _ => rfl⟩
    · intro u _
      exact ⟨fun _ => rfl, fun _ _ _ => rfl⟩
  | ok q =>
    have hspares : s.tables.Spares q.tree q.branch ((r.perform a).final s).tables :=
      (Removal.keeps a hq).final (.refl ..)
    refine ⟨?_, ?_⟩
    · intro u c row hother hrow
      obtain ⟨hsame, hversions⟩ := hspares.branches u c (hother q rfl)
      refine ⟨hsame.trans hrow, ?_, ?_⟩
      · intro sp hsp n hn x v hv
        exact (hversions row hrow sp hsp n hn x).trans hv
      · intro bytes l hl htree hbranch t
        subst htree
        subst hbranch
        exact sameReads hl (hspares.branches _ _ (hother q rfl)) t
    · intro u hu
      refine ⟨?_, ?_⟩
      · intro c
        exact (hspares.branches u c fun h => hu q rfl h.1).row
      · intro c n x
        exact hspares.versions u c n x (hu q rfl)

/-- The root is deleted below its fork: what the fork inherits stays. -/
theorem removal_spares_fork :
    let s : State MemoryStore :=
      { State.fresh ⟨Forked.tables, none⟩ with leases := ⟨SortedMap.empty.insert 1 ⟨1, true⟩⟩ }
    let r : Removal := .delete ⟨1, 1, Forked.bytes Forked.root⟩
    ((r.perform (timed none)).answer s).toOption = some 3 ∧
      ((r.perform (timed none)).final s).tables.row? Forked.tree ⟨3⟩ =
        some (Forked.row Forked.fork) ∧
      ((r.perform (timed none)).final s).tables.version? Forked.tree ⟨2⟩ 1 5 =
        some ⟨1, 5, 0, [1]⟩ ∧
      ∀ t : State MemoryStore, SameReads (t.withTables ((r.perform (timed none)).final s).tables)
        (t.withTables Forked.tables) (Forked.bytes Forked.fork) := by
  intro s r
  have hother : ∀ q, Token.decode r.token = .ok q → ¬ (Forked.tree = q.tree ∧ ⟨3⟩ = q.branch) := by
    intro q hq h
    cases (show Token.decode r.token = .ok Forked.root from rfl).symm.trans hq
    exact absurd h.2 (by decide)
  obtain ⟨hrow, hversions, hreads⟩ := (removal_spares (timed none) r s).1 Forked.tree ⟨3⟩
    (Forked.row Forked.fork) hother (by decide +kernel)
  refine ⟨by decide +kernel, hrow, ?_, hreads _ Forked.fork rfl rfl rfl⟩
  exact hversions ⟨⟨2⟩, 1, 2⟩ (by decide +kernel) 1
    (Span.contains_iff.1 rfl) 5 _ (by decide +kernel)

end Archive

end Chronicle
