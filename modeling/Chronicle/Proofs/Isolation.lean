import Chronicle.Proofs.FullRead
import Chronicle.Proofs.Replay
import Chronicle.Proofs.Visits

/-!
# Appends and other branches

A fork reads the nodes before it where its source stored them. Nothing keeps the source from writing
such a node anew, and then the fork reads the new version, and loses what it exceeds behind.

It is said here when an append changes what a read of another branch gives, and to what.

* `Tables.Disturbs`: the version was inserted, lies on an inherited span, and nothing that the other
  branch reads up to it exceeds it.
* `append_isolation`: an append that does not disturb a branch leaves its full read as it is. One
  that does overwrites it.
-/
namespace Chronicle

open Archive (State)

/-- The append of `v` to the branch that `q` names, on the way from `ts` to `us`, shows on the
branch of `t`. -/
def Tables.Disturbs (ts us : Tables) (q : Token) (v : Version) (t : Token) : Prop :=
  ts.Inserted us q v ∧ ts.Surfaces q v t

namespace Tables

variable {ts us : Tables} {q : Token} {isNew : Bool} {row : BranchRow} {v : Version}
  (hw : ts.Writes q isNew row v us)

include hw

theorem Writes.row_other {t : TreeId} {b : BranchId} (hother : ¬ (t = q.tree ∧ b = q.branch)) :
    us.row? t b = ts.row? t b := by
  rw [hw.rows, if_neg hother]

theorem Writes.log_other {t : Token} (h : Lineage.Follows firstEvent t.lineage) :
    (ts.Disturbs us q v t → v ∉ ts.log t ∧ us.log t = v.overwrite (ts.log t)) ∧
      (¬ ts.Disturbs us q v t → us.log t = ts.log t) := by
  constructor
  · intro hdisturbs
    have hread := hdisturbs.2
    refine ⟨fun hv => ?_, log_writes h hw hread⟩
    exact hw.unread h hread.tree hread.span ((mem_log_iff h).1 hv).1 rfl rfl
  · intro hnot
    exact log_writes_unread h hw fun hread => hnot ⟨hw.inserted, hread⟩

end Tables

/-- What a successful append does to the rows and the logs of other branches. -/
theorem Effect.append_others {a : Archive} {ts us : Tables} {k j : Nat} {req : WriteRequest}
    {payload : Payload} {ans : Answer} (h : Effect a ts k (.append req payload) ans us j) :
    ∃ q v, a.InTime ∧ Token.decode req.token = .ok q ∧ payload.version a.codec req = some v ∧
      (∀ t b, ¬ (t = q.tree ∧ b = q.branch) → us.row? t b = ts.row? t b) ∧
      ∀ t : Token, Lineage.Follows firstEvent t.lineage →
        (ts.Disturbs us q v t → v ∉ ts.log t ∧ us.log t = v.overwrite (ts.log t)) ∧
          (¬ ts.Disturbs us q v t → us.log t = ts.log t) := by
  cases h with
  | repeated htime hq hv _ =>
    refine ⟨_, _, htime, hq, hv, fun _ _ _ => rfl, fun t _ => ⟨fun hdisturbs => ?_, fun _ => rfl⟩⟩
    exact absurd hdisturbs.1 Tables.not_inserted_self
  | written htime hq hv hus =>
    exact ⟨_, _, htime, hq, hv, fun t b => hus.row_other, fun t => hus.log_other⟩

namespace Archive

variable {a : Archive} {s : State MemoryStore}

/-- **Appends and other branches.** Whatever was done before, by whom and with what tokens, after a
successful append every other branch with a row still has it, and its full read gives what it gave
before, unless the append disturbs it: then the new version, which the read had not given, has taken
the place of what was at its node and of the smaller transactions behind it. -/
theorem append_isolation (h : Visits a s) (hs : s.Unarmed) {req : WriteRequest} {payload : Payload}
    {ans : Answer} (hans : ((Operation.append req payload).perform a).answer s = .ok ans) :
    let u := ((Operation.append req payload).perform a).final s
    ∃ q v, Token.decode req.token = .ok q ∧ payload.version a.codec req = some v ∧
      ∀ bytes row, s.tables.Names bytes row → ¬ (row.tree = q.tree ∧ row.branch = q.branch) →
        u.tables.Names bytes row ∧ ∃ before after,
          a.ReadsAll s bytes row.branch before ∧ a.ReadsAll u bytes row.branch after ∧
          (s.tables.Disturbs u.tables q v row.token →
            v ∉ before ∧ after = v.overwrite before) ∧
          (¬ s.tables.Disturbs u.tables q v row.token → after = before) := by
  intro u
  obtain ⟨hu, ⟨ans', -, heffect⟩ | ⟨e, he, -⟩⟩ := perform_outcome (a := a) (.append req payload) hs
  · obtain ⟨q, v, htime, hq, hv, hrows, hlog⟩ := heffect.append_others
    refine ⟨q, v, hq, hv, fun bytes row hnames hother => ?_⟩
    obtain ⟨t, ht, hrow⟩ := hnames
    have hlineage := h.proper _ _ _ hrow
    obtain ⟨htree, hbranch⟩ := Tables.row?_own hrow
    have hkept := (hrows _ _ (htree ▸ hbranch ▸ hother)).trans hrow
    exact ⟨⟨t, ht, hkept⟩, _, _, readsAll_log htime hs ⟨t, ht, hrow⟩ hlineage,
      readsAll_log htime hu ⟨t, ht, hkept⟩ hlineage, hlog row.token hlineage⟩
  · rw [hans] at he
    cases he

end Archive

namespace Sample

def forked : State MemoryStore := (archive.after leases (operations.drop 2)).1

def forkedRun : Run := ⟨operations.drop 2, issued, by decide +kernel, by decide +kernel⟩

theorem forked_reaches : archive.Reaches forked issued := forkedRun.reaches

theorem decode_fork : Token.decode (Forked.bytes fork) = .ok fork := rfl

theorem forked_names : forked.tables.Names (Forked.bytes fork) (Forked.row fork) := by
  have hrow : forked.tables.row? fork.tree fork.branch = some (Forked.row fork) := by
    decide +kernel
  exact ⟨fork, decode_fork, hrow⟩

def request (previous : TransactionId) : WriteRequest :=
  ⟨1, 1, Forked.bytes root, 8, previous, false, ""⟩

theorem fork_readsAll {s : State MemoryStore} (hs : s.Unarmed)
    (hnames : s.tables.Names (Forked.bytes fork) (Forked.row fork)) :
    archive.ReadsAll s (Forked.bytes fork) (Forked.row fork).branch
      (s.tables.log (Forked.row fork).token) :=
  Archive.readsAll_log (by decide) hs hnames (Token.follows_of_decode decode_fork)

end Sample

namespace Archive

/-- An append behind a fork leaves the fork as it is. -/
theorem append_isolation_behind :
    let append := (Operation.append (Sample.request 6) (.raw 3 [4])).perform Sample.archive
    Visits Sample.archive Sample.forked ∧ Sample.forked.Unarmed ∧
      append.answer Sample.forked = .ok (.receipt ⟨1, 3⟩) ∧
      ∃ vs, Sample.archive.ReadsAll Sample.forked (Forked.bytes Sample.fork) Sample.fork.branch vs ∧
        Sample.archive.ReadsAll (append.final Sample.forked) (Forked.bytes Sample.fork)
          Sample.fork.branch vs := by
  intro append
  have hvisits := Sample.forked_reaches.visits
  have hunarmed := Sample.forked_reaches.unarmed
  have hans : append.answer Sample.forked = .ok (.receipt ⟨1, 3⟩) := by decide +kernel
  refine ⟨hvisits, hunarmed, hans, ?_⟩
  obtain ⟨q, v, hq, hv, hothers⟩ := append_isolation hvisits hunarmed hans
  cases hq.symm.trans (show Token.decode (Forked.bytes Sample.root) = .ok Sample.root from rfl)
  cases hv
  obtain ⟨-, before, after, hbefore, hafter, -, hsame⟩ :=
    hothers _ _ Sample.forked_names (by decide)
  have hbehind : ∀ s ∈ Sample.fork.spans, s.owner = Sample.root.branch →
      ¬ (s.start ≤ 3 ∧ 3 < s.stop) := by decide
  refine ⟨before, hbefore, hsame ?_ ▸ hafter⟩
  intro hdisturbs
  obtain ⟨s, hs, howner, hn⟩ := hdisturbs.2.span
  exact hbehind s hs howner hn

/-- Writing a node that a fork inherits anew takes away what was written to the fork. -/
theorem append_disturbs_fork :
    let append := (Operation.append (Sample.request 0) (.raw 1 [4])).perform Sample.archive
    Reaches Sample.archive Sample.forked Sample.issued ∧
      append.answer Sample.forked = .ok (.receipt ⟨1, 1⟩) ∧
      Sample.archive.ReadsAll Sample.forked (Forked.bytes Sample.fork) Sample.fork.branch
        [⟨1, 5, 0, [1]⟩, ⟨2, 7, 5, [3]⟩] ∧
      Sample.archive.ReadsAll (append.final Sample.forked) (Forked.bytes Sample.fork)
        Sample.fork.branch [⟨1, 8, 0, [4]⟩] := by
  intro append
  have hlog : Sample.forked.tables.log Sample.fork = [⟨1, 5, 0, [1]⟩, ⟨2, 7, 5, [3]⟩] := by
    decide +kernel
  have hlog' : (append.final Sample.forked).tables.log Sample.fork = [⟨1, 8, 0, [4]⟩] := by
    decide +kernel
  have hrow : (append.final Sample.forked).tables.row? Sample.fork.tree Sample.fork.branch =
      some (Forked.row Sample.fork) := by decide +kernel
  refine ⟨Sample.forked_reaches, by decide +kernel, ?_, ?_⟩
  · have hreads := Sample.fork_readsAll Sample.forked_reaches.unarmed Sample.forked_names
    rwa [show (Forked.row Sample.fork).token = Sample.fork from rfl, hlog] at hreads
  · have hunarmed : (append.final Sample.forked).Unarmed :=
      (perform_outcome _ Sample.forked_reaches.unarmed).1
    have hreads := Sample.fork_readsAll hunarmed ⟨Sample.fork, Sample.decode_fork, hrow⟩
    rwa [show (Forked.row Sample.fork).token = Sample.fork from rfl, hlog'] at hreads

end Archive

end Chronicle
