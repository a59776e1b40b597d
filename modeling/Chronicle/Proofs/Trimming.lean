import Chronicle.Proofs.Accounting
import Chronicle.Proofs.Agreement
import Chronicle.Proofs.Retry
import Chronicle.Proofs.Visits

/-!
# What a trim accepts and leaves

A trim asks for nothing but that its watermark is stored on the branch's own nodes and that no
branch inherits a later node. It leaves the watermark as the last version that is stored. Whether a
read shows it is another question: where the history was written anew from an earlier node, the
version that was written there stays and hides the watermark.

* `trim_outcome`: one run without a fault; `acceptsTrim_iff`: what a trim with a lease asks for.
* `trim_exact`: when a trim succeeds, what it removes and counts, and what a second one does.
* `log_trimmed`, `trim_shows`: what a read shows then.
-/
namespace Chronicle

open Archive (State)

/-! ## What a trim asks for -/

/-- No branch of tree `t` inherits a node of branch `b` after `node`. -/
def Tables.NoHeirs (ts : Tables) (t : TreeId) (b : BranchId) (node : NodeId) : Prop :=
  ∀ c heir, ts.row? t c = some heir → ∀ s ∈ heir.token.lineage, s.owner = b → s.stop ≤ node

theorem Tables.noHeirs_iff {ts : Tables} {t : TreeId} {b : BranchId} {node : NodeId} :
    ts.NoHeirs t b node ↔ (ts.rowsOf t).find? (·.inheritsBeyond b node) = none := by
  simp only [NoHeirs, List.find?_eq_none, mem_rowsOf_iff, BranchRow.inheritsBeyond,
    List.any_eq_true, Bool.and_eq_true, decide_eq_true_eq, not_exists, not_and, Int64.not_lt, forall_exists_index]
  exact forall_comm

namespace Archive

variable {a : Archive} {s : State MemoryStore} {req : TrimRequest}

theorem acceptsTrim_iff {leases : LeaseTable} {ts : Tables} {q : Token} {row : BranchRow}
    (htime : a.InTime) (hlease : leases.current req.shard = some req.lease)
    (hq : Token.decode req.token = .ok q) (hrow : ts.row? q.tree q.branch = some row) :
    a.AcceptsTrim leases req ts q ↔ row.token.ownStart ≤ req.node ∧ req.node < nodeLimit ∧
      (∃ w, ts.version? q.tree q.branch req.node req.transaction = some w) ∧
      ts.NoHeirs q.tree q.branch req.node := by
  rw [Tables.noHeirs_iff, ← Option.isSome_iff_exists]
  constructor
  · intro h
    obtain ⟨row', hrow', hown⟩ := h.row
    cases hrow.symm.trans hrow'
    exact ⟨hown, h.limit, h.watermark, h.heirs⟩
  · intro h
    obtain ⟨hown, hlimit, hwatermark, hheirs⟩ := h
    exact ⟨hlease, hq, htime, ⟨row, hrow, hown⟩, hlimit, hwatermark, hheirs⟩

/-- Without a fault a trim is accepted, trims, and counts the versions that are gone; or it is
refused and changes no table. -/
theorem trim_outcome (a : Archive) (req : TrimRequest) (hs : s.Unarmed) :
    let u := (a.trim req).final s
    u.Unarmed ∧ u.leases = s.leases ∧
      ((∃ n q, (a.trim req).answer s = .ok n ∧ a.AcceptsTrim s.leases req s.tables q ∧
          s.tables.Trimmed q.tree q.branch req.node req.transaction u.tables ∧
          u.tables.versionCount + n = s.tables.versionCount) ∨
        (∃ e, (a.trim req).answer s = .error e) ∧
          ∀ q, ¬ a.AcceptsTrim s.leases req s.tables q) := by
  intro u
  obtain ⟨r, us, hr, hrun⟩ := (trim_settles a req s.tables).outcome
  obtain ⟨hleases, hsettled, -⟩ := hrun s rfl rfl
  obtain ⟨hanswer, htables⟩ := hsettled fun hcut => hcut.elim (·.1 hs.1) (·.1 hs.2)
  have hu : (a.trim req).final s = u := rfl
  rw [hu] at htables hleases
  subst htables
  rcases Action.outcome_of_meets (trim_tallies a req s hs rfl rfl) with
    ⟨n, hn, hunarmed, hsheds, -⟩ | ⟨e, he, hunarmed, -⟩
  · cases hanswer.symm.trans hn
    obtain ⟨q, haccepts, htrimmed⟩ := hr
    exact ⟨hunarmed, hleases, .inl ⟨n, q, hn, haccepts, htrimmed, hsheds.count⟩⟩
  · cases hanswer.symm.trans he
    exact ⟨hunarmed, hleases, .inr ⟨⟨e, he⟩, hr.2⟩⟩

end Archive

/-! ## What a trim leaves -/

namespace Tables

/-- `us` is `ts` with branch `b` of tree `t` ending at the version of `node` that transaction `x`
wrote, and nothing else is different. -/
structure EndsAt (ts : Tables) (t : TreeId) (b : BranchId) (node : NodeId) (x : TransactionId)
    (us : Tables) : Prop where
  earlier : ∀ n y, n < node → us.version? t b n y = ts.version? t b n y
  watermark : ∀ y, us.version? t b node y = if y = x then ts.version? t b node y else none
  later : ∀ n y, node < n → us.version? t b n y = none
  others : ∀ u c n y, ¬ (u = t ∧ c = b) → us.version? u c n y = ts.version? u c n y
  rows : ∀ u c, us.row? u c = ts.row? u c
  known : ∀ u, us.hasTree u = ts.hasTree u

theorem LosesAll.endsAt {ts us : Tables} {t : TreeId} {b : BranchId} {node : NodeId}
    {x : TransactionId} (h : ts.LosesAll t (Beyond b node x) us) : ts.EndsAt t b node x us where
  earlier n y hn := h.version?_eq fun hbeyond => Int64.not_lt.2 hbeyond.2.1 hn
  watermark y := by
    split
    · next hy => exact h.version?_eq fun hbeyond => hbeyond.2.2 ⟨rfl, hy⟩
    · next hy => exact h.gone b node y ⟨rfl, Int64.le_refl _, fun hsame => hy hsame.2⟩
  later n y hn :=
    h.gone b n y ⟨rfl, Int64.le_of_lt hn, fun hsame => Int64.ne_of_lt hn hsame.1.symm⟩
  others u c n y hother := (h.versions u c n y).resolve_right fun hgone =>
    hother ⟨hgone.2.1, hgone.2.2.1⟩
  rows := h.rows
  known := h.known

end Tables

namespace Sample

/-- Three nodes are written, and then the second one anew, which hides the third. -/
def stale : Run :=
  ⟨write root 2 8 5 [4] :: write root 3 7 6 [3] :: operations.drop 4, [Forked.bytes root],
    by decide +kernel, by decide +kernel⟩

def trim (node : NodeId) (x : TransactionId) : Action MemoryStore Nat :=
  archive.trim ⟨1, 1, Forked.bytes root, node, x⟩

theorem root_readsAll {s : State MemoryStore} (hs : s.Unarmed)
    (hrow : s.tables.row? root.tree root.branch = some (Forked.row root)) :
    archive.ReadsAll s (Forked.bytes root) (Forked.row root).branch
      (s.tables.log (Forked.row root).token) :=
  Archive.readsAll_log (by decide) hs ⟨root, decode_root, hrow⟩
    (Token.follows_of_decode decode_root)

end Sample

namespace Archive

variable {a : Archive} {s : State MemoryStore} {req : TrimRequest} {row : BranchRow}

/-- **Trims.** In time, with the current lease and for a branch with a row, a trim succeeds exactly
if the watermark lies on the branch's own nodes, is stored, and no branch inherits a later node. The
branch ends there then, and the answer is the number of versions that are gone. Repeated right away,
the trim succeeds, finds nothing and changes nothing. The versions of the branch are no more than
can be counted. -/
theorem trim_exact (htime : a.InTime) (hs : s.Unarmed)
    (hlease : s.leases.current req.shard = some req.lease) (hrow : s.tables.Names req.token row)
    (hfits : (s.tables.nodesOf row.tree row.branch).size < UInt64.size) :
    let trim : Action MemoryStore Nat := a.trim req
    ((∃ n, trim.answer s = .ok n) ↔ row.token.ownStart ≤ req.node ∧ req.node < nodeLimit ∧
        (∃ w, s.tables.version? row.tree row.branch req.node req.transaction = some w) ∧
        s.tables.NoHeirs row.tree row.branch req.node) ∧
      ∀ n, trim.answer s = .ok n →
        s.tables.EndsAt row.tree row.branch req.node req.transaction (trim.final s).tables ∧
        (trim.final s).tables.versionCount + n = s.tables.versionCount ∧
        trim.answer (trim.final s) = .ok 0 ∧
        (trim.final (trim.final s)).tables = (trim.final s).tables := by
  intro trim
  obtain ⟨q, hq, hqrow⟩ := hrow
  obtain ⟨htree, hbranch⟩ := Tables.row?_own hqrow
  rw [htree, hbranch, Nodes.size_eq_length] at hfits
  rw [htree, hbranch]
  have haccepts := acceptsTrim_iff htime hlease hq hqrow
  obtain ⟨hu, hleases, houtcome⟩ := trim_outcome a req hs
  rw [← haccepts]
  rcases houtcome with ⟨n, p, hn, hp, htrimmed, hcount⟩ | ⟨⟨e, he⟩, hrefused⟩
  · cases hq.symm.trans hp.token
    refine ⟨iff_of_true ⟨n, hn⟩ hp, fun m hm => ?_⟩
    cases hn.symm.trans hm
    have hall := htrimmed.all hfits
    refine ⟨hall.endsAt, hcount, ?_⟩
    -- the second trim is accepted as the first one was, and leaves the same content
    have hready : a.AcceptsTrim s.leases req (trim.final s).tables q :=
      (trimming a s.leases req q).resume hfits hp htrimmed.loses
    obtain ⟨-, -, houtcome'⟩ := trim_outcome a req hu
    rw [hleases] at houtcome'
    rcases houtcome' with ⟨k, p', hk, hp', htrimmed', hcount'⟩ | ⟨-, hrefused⟩
    · cases hq.symm.trans hp'.token
      have hsame : (trim.final (trim.final s)).tables = (trim.final s).tables :=
        ((htrimmed.loses.trimmed htrimmed').all hfits).unique hall
      rw [hsame] at hcount'
      exact ⟨Nat.add_eq_left.1 hcount' ▸ hk, hsame⟩
    · exact absurd hready (hrefused q)
  · refine ⟨iff_of_false ?_ (hrefused q), fun m hm => ?_⟩
    · rintro ⟨m, hm⟩
      cases hm.symm.trans he
    · cases hm.symm.trans he

/-- A node that was written anew is trimmed to its first version, and the node after it is gone. -/
theorem trim_exact_hidden :
    let s := Sample.stale.state
    let u := (Sample.trim 2 6).final s
    (Sample.trim 2 6).answer s = .ok 2 ∧
      s.tables.EndsAt Sample.root.tree Sample.root.branch 2 6 u.tables ∧
      u.tables.versionCount = 2 ∧ (Sample.trim 2 6).answer u = .ok 0 := by
  intro s u
  have hrow : s.tables.row? Sample.root.tree Sample.root.branch =
      some (Forked.row Sample.root) := by decide +kernel
  have hfits : (s.tables.nodesOf Sample.root.tree Sample.root.branch).size < UInt64.size := by
    decide +kernel
  have hversions : s.tables.versionCount = 4 := by decide +kernel
  have hans : (Sample.trim 2 6).answer s = .ok 2 := by decide +kernel
  have htime : Sample.archive.InTime := by decide
  have hnames : s.tables.Names (Forked.bytes Sample.root) (Forked.row Sample.root) :=
    ⟨Sample.root, Sample.decode_root, hrow⟩
  let req : TrimRequest := ⟨1, 1, Forked.bytes Sample.root, 2, 6⟩
  have hlease : s.leases.current req.shard = some req.lease := by decide +kernel
  obtain ⟨hends, hcount, hrepeated, -⟩ :=
    (trim_exact htime Sample.stale.reaches.unarmed hlease hnames hfits).2 2 hans
  exact ⟨hans, hends, Nat.add_right_cancel (hcount.trans hversions), hrepeated⟩

end Archive

/-! ## What is read after a trim -/

namespace Tables

variable {ts us : Tables} {t : Token} {node : NodeId} {x : TransactionId}

/-- From the start of its own nodes on, a branch covers its own versions only. -/
theorem Covers.own (h : Lineage.Follows firstEvent t.lineage) {v : Version}
    (hv : ts.Covers t.tree t.spans v) (hown : t.ownStart ≤ v.node) :
    ts.version? t.tree t.branch v.node v.transaction = some v := by
  obtain ⟨s, hs, hn, hv⟩ := hv
  rwa [Token.eq_ownSpan h hs hn hown] at hv

section Trimmed

variable (h : Lineage.Follows firstEvent t.lineage)
  (hus : ts.Trimmed t.tree t.branch node x us) (hown : t.ownStart ≤ node)

include h hus hown

/-- After a trim, what is covered was covered before, and nothing of it lies behind the watermark or
at its node with a larger transaction. -/
theorem covers_of_trimmed {v : Version} (hv : us.Covers t.tree t.spans v) :
    ts.Covers t.tree t.spans v ∧ (v.node < node ∨ v.node = node ∧ v.transaction ≤ x) := by
  obtain ⟨hold, hle⟩ := covers_of_trims h hus.trims hown hus.later hv
  refine ⟨hold, (Int64.lt_or_eq_of_le hle).imp_right fun hnode => ⟨hnode, ?_⟩⟩
  have hstored := hv.own h (hnode ▸ hown)
  rw [hnode] at hstored
  exact hus.latest _ _ hstored

/-- After a trim the log has what it had below the watermark, and the watermark if its transaction
is not exceeded there. -/
theorem mem_log_trimmed {w : Version} (hw : ts.Covers t.tree t.spans w) (hnode : w.node = node)
    (htransaction : w.transaction = x) {y : TransactionId} (hy : ts.Precedes t node y)
    {v : Version} :
    v ∈ us.log t ↔ (v ∈ ts.log t ∧ v.node < node) ∨ (y ≤ x ∧ v = w) := by
  have hkept := covers_trims hus.trims hw (.inr ⟨hnode, htransaction⟩)
  have hbelow : ∀ u, ts.Covers t.tree t.spans u → u.node < node → us.Covers t.tree t.spans u :=
    fun u hu hlt => covers_trims hus.trims hu (.inl hlt)
  rw [mem_log_iff h, mem_log_iff h]
  constructor
  · intro hlog
    obtain ⟨hv, hpos, hmax⟩ := hlog
    obtain ⟨hold, hlt | ⟨hvnode, hle⟩⟩ := covers_of_trimmed h hus hown hv
    · refine .inl ⟨⟨hold, hpos, fun u hu hle => ?_⟩, hlt⟩
      exact hmax u (hbelow u hu (Int64.lt_of_le_of_lt hle hlt)) hle
    · -- of the watermark's node only the watermark is read
      have hge : x ≤ v.transaction :=
        htransaction ▸ hmax w hkept (hnode.trans hvnode.symm ▸ Int64.le_refl _)
      have hsame : v.transaction = x := Int64.le_antisymm hle hge
      have hstored := hold.own h (hvnode ▸ hown)
      rw [hvnode, hsame, ← hnode, ← htransaction, hw.own h (hnode ▸ hown)] at hstored
      refine .inr ⟨?_, (Option.some.inj hstored).symm⟩
      rcases hy.attained with hnone | ⟨u, ⟨hu, hlt⟩, hlast⟩
      · exact hnone ▸ hsame ▸ hpos
      · exact hlast ▸ hsame ▸ hmax u (hbelow u hu hlt) (hvnode ▸ Int64.le_of_lt hlt)
  · intro hlog
    rcases hlog with ⟨⟨hold, hpos, hmax⟩, hlt⟩ | ⟨hle, rfl⟩
    · exact ⟨hbelow v hold hlt, hpos, fun u hu => hmax u (covers_of_trimmed h hus hown hu).1⟩
    · refine ⟨hkept, htransaction ▸ Int64.le_trans hy.least_le hle, fun u hu _ => ?_⟩
      rw [htransaction]
      obtain ⟨hold, hlt | ⟨-, hlatest⟩⟩ := covers_of_trimmed h hus hown hu
      · exact Int64.le_trans (hy.largest u ⟨hold, hlt⟩) hle
      · exact hlatest

/-- A trim leaves the log below the watermark. The watermark comes after it, unless a version of the
log carries a larger transaction. -/
theorem log_trimmed (hlimit : node < nodeLimit) {w : Version}
    (hw : ts.version? t.tree t.branch node x = some w) :
    let below := (ts.log t).filter fun v => v.node < node
    us.log t = below ++ if Version.lastTransaction below ≤ x then [w] else [] := by
  intro below
  obtain ⟨rfl, rfl⟩ := version?_own hw
  have hbelow : ∀ v, v ∈ below ↔ v ∈ ts.log t ∧ v.node < w.node := by
    intro v
    rw [List.mem_filter, decide_eq_true_eq]
  have hlast : ts.Precedes t w.node (Version.lastTransaction below) := by
    rw [show below = ts.history (.window t firstEvent w.node) from (history_below h w.node).symm]
    exact precedes_lastTransaction h w.node
  have hwatermark : ts.Covers t.tree t.spans w :=
    ⟨t.ownSpan, List.mem_append_right _ (List.mem_singleton_self _), ⟨hown, hlimit⟩, hw⟩
  apply log_eq_of_mem h
  · refine List.pairwise_append.2 ⟨(log_ascending h).filter _, ?_, fun v hv u hu => ?_⟩
    · split
      · exact List.pairwise_singleton _ _
      · exact List.Pairwise.nil
    · split at hu
      · rw [List.mem_singleton.1 hu]
        exact ((hbelow v).1 hv).2
      · cases hu
  · intro v
    rw [mem_log_trimmed h hus hown hwatermark rfl rfl hlast, List.mem_append, hbelow,
      List.mem_ite_nil_right, List.mem_singleton]

end Trimmed

end Tables

namespace Archive

variable {a : Archive} {s : State MemoryStore} {req : TrimRequest}

/-- **Reading after a trim.** Whatever was done before, by whom and with what tokens, after a
successful trim without a fault a full read of the branch gives what it gave below the watermark,
and after that the watermark, unless the last version below it carries a larger transaction. -/
theorem trim_shows (h : Visits a s) (hs : s.Unarmed) {n : Nat}
    (hans : (a.trim req).answer s = .ok n) :
    ∃ row w shown, s.tables.Names req.token row ∧ row.token.ownStart ≤ req.node ∧
      s.tables.version? row.tree row.branch req.node req.transaction = some w ∧
      a.ReadsAll s req.token row.branch shown ∧
      let below := shown.filter fun v => v.node < req.node
      a.ReadsAll ((a.trim req).final s) req.token row.branch
        (below ++ if Version.lastTransaction below ≤ req.transaction then [w] else []) := by
  obtain ⟨hu, -, ⟨-, q, -, haccepts, htrimmed, -⟩ | ⟨⟨e, he⟩, -⟩⟩ := trim_outcome a req hs
  · obtain ⟨row, hrow, hown⟩ := haccepts.row
    obtain ⟨htree, hbranch⟩ := Tables.row?_own hrow
    obtain ⟨w, hw⟩ := Option.isSome_iff_exists.1 haccepts.watermark
    have hlineage : Lineage.Follows firstEvent row.token.lineage := h.proper _ _ _ hrow
    have hafter : ((a.trim req).final s).tables.Names req.token row :=
      ⟨q, haccepts.token, (htrimmed.loses.rows ..).trans hrow⟩
    rw [← htree, ← hbranch] at htrimmed hw
    have hnames : s.tables.Names req.token row := ⟨q, haccepts.token, hrow⟩
    have hreads := readsAll_log haccepts.time hu hafter hlineage
    rw [Tables.log_trimmed hlineage htrimmed hown haccepts.limit hw] at hreads
    exact ⟨row, w, _, hnames, hown, hw, readsAll_log haccepts.time hs hnames hlineage, hreads⟩
  · cases hans.symm.trans he

/-- A trim to a version that another one of its node hides shows it again. -/
theorem trim_shows_hidden :
    let s := Sample.stale.state
    (Sample.trim 2 6).answer s = .ok 2 ∧
      Sample.archive.ReadsAll s (Forked.bytes Sample.root) Sample.root.branch
        [⟨1, 5, 0, [1]⟩, ⟨2, 8, 5, [4]⟩] ∧
      Sample.archive.ReadsAll ((Sample.trim 2 6).final s) (Forked.bytes Sample.root)
        Sample.root.branch [⟨1, 5, 0, [1]⟩, ⟨2, 6, 5, [2]⟩] := by
  intro s
  have hans : (Sample.trim 2 6).answer s = .ok 2 := by decide +kernel
  have hrow : s.tables.row? Sample.root.tree Sample.root.branch =
      some (Forked.row Sample.root) := by decide +kernel
  have hlog : s.tables.log Sample.root = [⟨1, 5, 0, [1]⟩, ⟨2, 8, 5, [4]⟩] := by decide +kernel
  have hwatermark : s.tables.version? Sample.root.tree Sample.root.branch 2 6 =
      some ⟨2, 6, 5, [2]⟩ := by decide +kernel
  have hreads := Sample.root_readsAll Sample.stale.reaches.unarmed hrow
  rw [show (Forked.row Sample.root).token = Sample.root from rfl, hlog] at hreads
  obtain ⟨row, w, shown, ⟨q, hq, hqrow⟩, -, hw, hbefore, hafter⟩ :=
    trim_shows Sample.stale.reaches.visits Sample.stale.reaches.unarmed hans
  cases hq.symm.trans Sample.decode_root
  cases hqrow.symm.trans hrow
  cases hw.symm.trans hwatermark
  cases hbefore.unique hreads
  exact ⟨hans, hreads, hafter⟩

/-- A trim to a version that was made stale by another one at an earlier node succeeds, and what is
read afterwards is what was read before: the watermark is not there. -/
theorem trim_hides_watermark :
    let s := Sample.stale.state
    let shown : List Version := [⟨1, 5, 0, [1]⟩, ⟨2, 8, 5, [4]⟩]
    Reaches Sample.archive s [Forked.bytes Sample.root] ∧
      (Sample.trim 3 7).answer s = .ok 0 ∧
      s.tables.version? Sample.root.tree Sample.root.branch 3 7 = some ⟨3, 7, 6, [3]⟩ ∧
      Sample.archive.ReadsAll s (Forked.bytes Sample.root) Sample.root.branch shown ∧
      Sample.archive.ReadsAll ((Sample.trim 3 7).final s) (Forked.bytes Sample.root)
        Sample.root.branch shown ∧
      ¬ Sample.archive.ReadsAll ((Sample.trim 3 7).final s) (Forked.bytes Sample.root)
        Sample.root.branch (shown ++ [⟨3, 7, 6, [3]⟩]) := by
  intro s shown
  have hrow : s.tables.row? Sample.root.tree Sample.root.branch =
      some (Forked.row Sample.root) := by decide +kernel
  have hrow' : ((Sample.trim 3 7).final s).tables.row? Sample.root.tree Sample.root.branch =
      some (Forked.row Sample.root) := by decide +kernel
  have hlog : s.tables.log Sample.root = shown := by decide +kernel
  have hlog' : ((Sample.trim 3 7).final s).tables.log Sample.root = shown := by decide +kernel
  have hbefore := Sample.root_readsAll Sample.stale.reaches.unarmed hrow
  have hunarmed : ((Sample.trim 3 7).final s).Unarmed :=
    (trim_outcome _ _ Sample.stale.reaches.unarmed).1
  have hafter := Sample.root_readsAll hunarmed hrow'
  rw [show (Forked.row Sample.root).token = Sample.root from rfl] at hbefore hafter
  rw [hlog] at hbefore
  rw [hlog'] at hafter
  refine ⟨Sample.stale.reaches, by decide +kernel, by decide +kernel, hbefore, hafter,
    fun hshown => ?_⟩
  exact List.cons_ne_nil _ _ (List.self_eq_append_right.1 (hafter.unique hshown))

end Archive

end Chronicle
