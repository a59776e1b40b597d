import Chronicle.Proofs.Tidy

/-!
# The log of a branch

The log of a branch is what a read of all its nodes shows. Without regard to what is stored beside
it, it is said here how operations change it.

* `mem_log_iff`: the log has the versions of the branch that no version at their node or before
  exceeds.
* `log_writes`, `log_writes_unread`: what an append to a branch does to the log of any branch.
* `log_write`: a version of a later transaction cuts the log at its node and is appended.
* `history_fork`, `log_fork`: a fork shows the part before the fork.
* `log_trim`: trimming to a version of the log leaves the part up to it.
-/
namespace Chronicle

namespace Token

theorem window_of_mem {t : Token} (h : Lineage.Follows firstEvent t.lineage) {s : Span}
    (hs : s ∈ t.spans) {n : NodeId} (hn : n ∈ s) : firstEvent ≤ n ∧ n < nodeLimit := by
  refine ⟨Int64.le_trans ?_ hn.1, Int64.lt_of_lt_of_le hn.2 (le_nodeLimit _)⟩
  rcases List.mem_append.1 hs with hs | hs
  · exact h.le_start s hs
  · rw [List.mem_singleton.1 hs]
    rcases List.eq_nil_or_concat t.lineage with hnil | ⟨front, last, hlast⟩
    · show firstEvent ≤ Lineage.stop t.lineage
      rw [hnil]
      exact Int64.le_refl _
    · have hmem : last ∈ t.lineage := by rw [hlast]; simp
      exact Int64.le_trans (h.le_start last hmem)
        (Int64.le_trans (Int64.le_of_lt (h.start_lt_stop last hmem)) (h.stop_le hmem))

/-- From the start of its own nodes on, a branch reads its own nodes only. -/
theorem eq_ownSpan {t : Token} (h : Lineage.Follows firstEvent t.lineage) {s : Span}
    (hs : s ∈ t.spans) {n : NodeId} (hn : n ∈ s) (hown : t.ownStart ≤ n) : s = t.ownSpan := by
  rcases List.mem_append.1 hs with hs | hs
  · exact absurd (Int64.lt_of_lt_of_le hn.2 (h.stop_le hs)) (Int64.not_lt.2 hown)
  · exact List.mem_singleton.1 hs

end Token

theorem Lineage.Ordered.eq_of_mem {spans : List Span} (h : Lineage.Ordered spans) {s o : Span}
    (hs : s ∈ spans) (ho : o ∈ spans) {n : NodeId} (hn : n ∈ s) (hm : n ∈ o) : s = o := by
  induction spans with
  | nil => cases hs
  | cons u rest ih =>
    obtain ⟨hu, hrest⟩ := List.pairwise_cons.1 h
    -- what is on the first one is on no later one
    have hfirst : ∀ v ∈ rest, n ∈ u → n ∉ v := by
      intro v hv hnu hnv
      exact Int64.not_lt.2 (Int64.le_trans (hu v hv) hnv.1) hnu.2
    rcases List.mem_cons.1 hs with rfl | hsRest
    · rcases List.mem_cons.1 ho with rfl | hoRest
      · rfl
      · exact absurd hm (hfirst o hoRest hn)
    · rcases List.mem_cons.1 ho with rfl | hoRest
      · exact absurd hn (hfirst s hsRest hm)
      · exact ih hrest hsRest hoRest

namespace Version

/-- A list of versions with `v` in the place of what is at its node and of what it exceeds behind.
-/
def overwrite (v : Version) (l : List Version) : List Version :=
  l.filter (fun w => w.node < v.node) ++
    v :: l.filter fun w => v.node < w.node ∧ v.transaction ≤ w.transaction

theorem mem_overwrite_iff {v w : Version} {l : List Version} :
    w ∈ v.overwrite l ↔ (w ∈ l ∧ w.node < v.node) ∨ w = v ∨
      w ∈ l ∧ v.node < w.node ∧ v.transaction ≤ w.transaction := by
  simp only [overwrite, List.mem_append, List.mem_cons, List.mem_filter, decide_eq_true_eq]

theorem overwrite_ascending (v : Version) {l : List Version}
    (h : l.Pairwise fun v w => v.node < w.node) :
    (v.overwrite l).Pairwise fun v w => v.node < w.node := by
  refine List.pairwise_append.2 ⟨h.filter _, List.pairwise_cons.2 ⟨?_, h.filter _⟩, ?_⟩
  · intro w hw
    exact (of_decide_eq_true (List.mem_filter.1 hw).2).1
  · intro w hw u hu
    have hlt := of_decide_eq_true (List.mem_filter.1 hw).2
    rcases List.mem_cons.1 hu with rfl | hu
    · exact hlt
    · exact Int64.lt_trans hlt (of_decide_eq_true (List.mem_filter.1 hu).2).1

end Version

namespace Tables

/-- What a read of all nodes of the branch shows. -/
def log (ts : Tables) (t : Token) : List Version := ts.history (.window t firstEvent nodeLimit)

variable {ts us : Tables} {t : Token} (h : Lineage.Follows firstEvent t.lineage)

include h

theorem holds_iff {v : Version} :
    ts.Holds t firstEvent nodeLimit v ↔ ts.Covers t.tree t.spans v := by
  constructor
  · intro hv
    exact hv.1
  · intro hv
    refine ⟨hv, ?_⟩
    obtain ⟨s, hs, hn, -⟩ := hv
    exact Token.window_of_mem h hs hn

theorem mem_log_iff {v : Version} : v ∈ ts.log t ↔ ts.Covers t.tree t.spans v ∧
    noTransaction ≤ v.transaction ∧
      ∀ w, ts.Covers t.tree t.spans w → w.node ≤ v.node → w.transaction ≤ v.transaction := by
  rw [log, mem_history_iff h, Shows]
  simp only [holds_iff h]

theorem log_ascending : (ts.log t).Pairwise fun v w => v.node < w.node :=
  history_ascending h firstEvent nodeLimit

theorem log_eq_of_mem {l : List Version} (hl : l.Pairwise fun v w => v.node < w.node)
    (hmem : ∀ v, v ∈ ts.log t ↔ v ∈ l) : ts.log t = l :=
  eq_of_sorted (fun _ _ => Int64.lt_asymm) (log_ascending h) hl hmem

/-- What the same versions are stored for has the same log. -/
theorem log_congr (hsame : ts.SameAlong us t.tree t.spans) : us.log t = ts.log t := by
  refine history_congr h h fun v => and_congr_left fun _ => ?_
  refine exists_congr fun s => and_congr_right fun hs => and_congr_right fun hn => ?_
  rw [hsame s hs v.node hn]

/-- The window below a node shows the part of the log below it: there is nothing before the first
event. -/
theorem history_below (node : NodeId) :
    ts.history (.window t firstEvent node) = (ts.log t).filter fun v => v.node < node := by
  have hholds : ∀ v, ts.Holds t firstEvent node v ↔ ts.Covers t.tree t.spans v ∧ v.node < node :=
    fun v => and_congr_right fun hv => and_iff_right ((holds_iff h).2 hv).2.1
  refine eq_of_sorted (fun _ _ => Int64.lt_asymm) (history_ascending h _ _)
    ((log_ascending h).filter _) fun v => ?_
  rw [mem_history_iff h, List.mem_filter, mem_log_iff h, decide_eq_true_eq, Shows]
  simp only [hholds]
  constructor
  · intro hshows
    obtain ⟨⟨hv, hlt⟩, hpos, hmax⟩ := hshows
    refine ⟨⟨hv, hpos, ?_⟩, hlt⟩
    intro w hw hle
    exact hmax w ⟨hw, Int64.lt_of_le_of_lt hle hlt⟩ hle
  · intro hlog
    obtain ⟨⟨hv, hpos, hmax⟩, hlt⟩ := hlog
    refine ⟨⟨hv, hlt⟩, hpos, ?_⟩
    intro w hw
    exact hmax w hw.1

/-! ## Forking -/

/-- What is stored on the nodes of the lineage of a fork is what is stored before the fork. -/
theorem covers_lineageAt_iff (node : NodeId) {v : Version} :
    ts.Covers t.tree (t.lineageAt node) v ↔ ts.Covers t.tree t.spans v ∧ v.node < node := by
  have howner : ∀ {spans : List Span}, ts.Covers t.tree spans v ↔
      ∃ b, (∃ s ∈ spans, s.owner = b ∧ v.node ∈ s) ∧
        ts.version? t.tree b v.node v.transaction = some v := by
    intro spans
    constructor
    · intro hcovers
      obtain ⟨s, hs, hn, hv⟩ := hcovers
      exact ⟨s.owner, ⟨s, hs, rfl, hn⟩, hv⟩
    · intro hcovers
      obtain ⟨b, ⟨s, hs, rfl, hn⟩, hv⟩ := hcovers
      exact ⟨s, hs, hn, hv⟩
  rw [Token.lineageAt_eq_cut h, howner, howner, ← exists_and_right]
  refine exists_congr fun b => ?_
  rw [Lineage.mem_cut_iff (Token.spans_starts h)]
  exact and_right_comm

section Fork

variable {node : NodeId} {fork : Token} (htree : fork.tree = t.tree)
  (hlineage : fork.lineage = t.lineageAt node)
  (hown : ∀ n x, us.version? t.tree fork.branch n x = none)
  (hsame : ∀ u c n x, us.version? u c n x = ts.version? u c n x)

include htree hlineage hown hsame

/-- As long as nothing is written to it, a fork has what its source has before the fork. -/
theorem covers_fork {v : Version} :
    us.Covers fork.tree fork.spans v ↔ ts.Covers t.tree t.spans v ∧ v.node < node := by
  rw [← covers_lineageAt_iff h, htree, Token.spans, hlineage]
  simp only [Covers, List.mem_append, or_and_right, exists_or, hsame, List.mem_singleton,
    exists_eq_left]
  refine or_iff_left fun hv => ?_
  rw [← hsame, show fork.ownSpan.owner = fork.branch from rfl, hown] at hv
  cases hv.2

/-- A window of a fork on which nothing was written shows what of the window lies before the fork.
-/
theorem history_fork (min max : NodeId) :
    us.history (.window fork min max) = ts.history (.window t min (Min.min max node)) := by
  have hfork : Lineage.Follows firstEvent fork.lineage :=
    hlineage ▸ Token.lineageAt_follows h node
  refine history_congr h hfork fun v => ?_
  rw [Holds, Holds, covers_fork h htree hlineage hown hsame, NodeId.lt_min_iff]
  constructor
  · intro hv
    obtain ⟨⟨hcovers, hnode⟩, hmin, hmax⟩ := hv
    exact ⟨hcovers, hmin, hmax, hnode⟩
  · intro hv
    obtain ⟨hcovers, hmin, hmax, hnode⟩ := hv
    exact ⟨⟨hcovers, hnode⟩, hmin, hmax⟩

/-- The log of a fork on which nothing was written is the part of the log before the fork. -/
theorem log_fork : us.log fork = (ts.log t).filter fun v => v.node < node := by
  have hmin : Min.min nodeLimit node = node := by
    rw [Std.min_eq_if]
    split
    · next hle => exact Int64.le_antisymm hle (Token.le_nodeLimit node)
    · rfl
  rw [log, history_fork h htree hlineage hown hsame, hmin, history_below h]

end Fork

/-! ## Appending -/

omit h in
/-- What is covered after an append was covered before, or is the new version. -/
theorem covers_writes_iff {isNew : Bool} {q : Token} {row : BranchRow} {v w : Version}
    (hw : ts.Writes q isNew row v us) (u : TreeId) (spans : List Span) :
    us.Covers u spans w ↔ ts.Covers u spans w ∨
      w = v ∧ u = q.tree ∧ ∃ s ∈ spans, s.owner = q.branch ∧ v.node ∈ s := by
  constructor
  · intro hcovers
    obtain ⟨s, hs, hn, hstored⟩ := hcovers
    rw [hw.versions] at hstored
    split at hstored
    · next hplace =>
      cases hstored
      exact .inr ⟨rfl, hplace.1, s, hs, hplace.2.1, hn⟩
    · exact .inl ⟨s, hs, hn, hstored⟩
  · intro hcovers
    rcases hcovers with ⟨s, hs, hn, hstored⟩ | ⟨rfl, rfl, s, hs, howner, hn⟩
    · refine ⟨s, hs, hn, ?_⟩
      rw [hw.versions]
      split
      · next hplace =>
        rw [hplace.1, hplace.2.1, hplace.2.2.1, hplace.2.2.2, hw.fresh] at hstored
        cases hstored
      · exact hstored
    · exact ⟨s, hs, hn, by rw [hw.versions, if_pos ⟨rfl, howner, rfl, rfl⟩]⟩

/-- The version `v`, stored for the branch that `q` names, is read on the branch of `t`: it lies on
a span, and nothing at its node or before exceeds it. -/
structure Surfaces (ts : Tables) (q : Token) (v : Version) (t : Token) : Prop where
  tree : t.tree = q.tree
  span : ∃ s ∈ t.spans, s.owner = q.branch ∧ v.node ∈ s
  largest : ∀ w, ts.Covers t.tree t.spans w → w.node ≤ v.node → w.transaction ≤ v.transaction

section Writing

variable {isNew : Bool} {q : Token} {row : BranchRow} {v : Version}
  (hw : ts.Writes q isNew row v us)

include hw

theorem Writes.unread (htree : t.tree = q.tree)
    (hspan : ∃ s ∈ t.spans, s.owner = q.branch ∧ v.node ∈ s) {w : Version}
    (hcovers : ts.Covers t.tree t.spans w) (hnode : w.node = v.node) :
    w.transaction ≠ v.transaction := by
  intro htransaction
  obtain ⟨s, hs, howner, hn⟩ := hspan
  obtain ⟨o, ho, hm, hstored⟩ := hcovers
  rw [hnode] at hm
  rw [(Token.spans_ordered h).eq_of_mem ho hs hm hn, htree, howner, hnode, htransaction,
    hw.fresh] at hstored
  cases hstored

/-- A version that is read takes the place of what is at its node and of what it exceeds behind. -/
theorem log_writes (hread : ts.Surfaces q v t) : us.log t = v.overwrite (ts.log t) := by
  obtain ⟨htree, hspan, hlargest⟩ := hread
  have hcovers : ∀ w, us.Covers t.tree t.spans w ↔ ts.Covers t.tree t.spans w ∨ w = v := by
    intro w
    rw [covers_writes_iff hw]
    exact or_congr_right (and_iff_left ⟨htree, hspan⟩)
  apply log_eq_of_mem h (Version.overwrite_ascending v (log_ascending h))
  intro w
  rw [Version.mem_overwrite_iff, mem_log_iff h, mem_log_iff h]
  simp only [hcovers]
  constructor
  · intro hlog
    obtain ⟨hold | rfl, hpos, hmax⟩ := hlog
    · have hwlog := And.intro hold (And.intro hpos fun u hu => hmax u (.inl hu))
      by_cases hlt : w.node < v.node
      · exact .inl ⟨hwlog, hlt⟩
      · have hle := Int64.not_lt.1 hlt
        have hexceeds := hmax v (.inr rfl) hle
        refine .inr (.inr ⟨hwlog, Int64.lt_of_le_of_ne hle fun hnode => ?_, hexceeds⟩)
        -- at the node of `v` it would be `v` itself
        have hbelow := hlargest w hold (hnode ▸ Int64.le_refl _)
        exact hw.unread h htree hspan hold hnode.symm (Int64.le_antisymm hbelow hexceeds)
    · exact .inr (.inl rfl)
  · intro hlog
    rcases hlog with ⟨⟨hold, hpos, hmax⟩, hlt⟩ | rfl | ⟨⟨hold, hpos, hmax⟩, -, hexceeds⟩
    · refine ⟨.inl hold, hpos, fun u hu hle => ?_⟩
      rcases hu with hu | rfl
      · exact hmax u hu hle
      · exact absurd hlt (Int64.not_lt.2 hle)
    · refine ⟨.inr rfl, Int64.le_of_lt hw.positive, fun u hu hle => ?_⟩
      rcases hu with hu | rfl
      · exact hlargest u hu hle
      · exact Int64.le_refl _
    · refine ⟨.inl hold, hpos, fun u hu hle => ?_⟩
      rcases hu with hu | rfl
      · exact hmax u hu hle
      · exact hexceeds

theorem log_writes_unread (hunread : ¬ ts.Surfaces q v t) : us.log t = ts.log t := by
  apply log_eq_of_mem h (log_ascending h)
  intro w
  rw [mem_log_iff h, mem_log_iff h]
  simp only [covers_writes_iff hw]
  by_cases hplace : t.tree = q.tree ∧ ∃ s ∈ t.spans, s.owner = q.branch ∧ v.node ∈ s
  · -- something at its node or before exceeds it
    have hexceeded : ∃ u, ts.Covers t.tree t.spans u ∧ u.node ≤ v.node ∧
        v.transaction < u.transaction := by
      refine Classical.byContradiction fun hnone => hunread ⟨hplace.1, hplace.2, ?_⟩
      intro u hu hle
      exact Int64.not_lt.1 fun hlt => hnone ⟨u, hu, hle, hlt⟩
    obtain ⟨u, hu, hle, hlt⟩ := hexceeded
    simp only [and_iff_left hplace]
    constructor
    · intro hlog
      obtain ⟨hold | rfl, hpos, hmax⟩ := hlog
      · exact ⟨hold, hpos, fun x hx => hmax x (.inl hx)⟩
      · exact absurd hlt (Int64.not_lt.2 (hmax u (.inl hu) hle))
    · intro hlog
      obtain ⟨hold, hpos, hmax⟩ := hlog
      refine ⟨.inl hold, hpos, fun x hx hxw => ?_⟩
      rcases hx with hx | rfl
      · exact hmax x hx hxw
      · exact Int64.le_of_lt (Int64.lt_of_lt_of_le hlt (hmax u hu (Int64.le_trans hle hxw)))
  · simp only [hplace, and_false, or_false]

end Writing

/-- A version of a later transaction cuts the log at its node and is appended. -/
theorem log_write {isNew : Bool} {row : BranchRow} {v : Version} (hrow : row.token = t)
    (hw : ts.Writes t isNew row v us)
    (hlater : ∀ w, ts.Covers t.tree t.spans w → w.transaction < v.transaction) :
    us.log t = (ts.log t).filter (fun w => w.node < v.node) ++ [v] := by
  have hown : v.node ∈ t.ownSpan := ⟨hrow ▸ hw.own, hw.below⟩
  have hread : ts.Surfaces t v t := by
    refine ⟨rfl, ⟨t.ownSpan, List.mem_append_right _ (List.mem_singleton_self _), rfl, hown⟩, ?_⟩
    intro w hw _
    exact Int64.le_of_lt (hlater w hw)
  have hbehind : (ts.log t).filter (fun w => v.node < w.node ∧ v.transaction ≤ w.transaction) =
      [] := by
    refine List.filter_eq_nil_iff.2 fun w hw => ?_
    rw [decide_eq_true_eq, not_and]
    intro _
    exact Int64.not_le.2 (hlater w ((mem_log_iff h).1 hw).1)
  rw [log_writes h hw hread, Version.overwrite, hbehind]

/-! ## Trimming -/

section Trimming

variable {node : NodeId} {x : TransactionId} (htrims : ts.Trims t.tree t.branch node x us)

include htrims

/-- What is covered after a trim was covered before, and lies up to the watermark. -/
theorem covers_of_trims (hown : t.ownStart ≤ node)
    (hgone : ∀ n y, node < n → us.version? t.tree t.branch n y = none) {v : Version}
    (hv : us.Covers t.tree t.spans v) : ts.Covers t.tree t.spans v ∧ v.node ≤ node := by
  obtain ⟨s, hs, hn, hv⟩ := hv
  refine ⟨⟨s, hs, hn, ?_⟩, Int64.not_lt.1 ?_⟩
  · rcases htrims.versions t.tree s.owner v.node v.transaction with heq | ⟨hnone, -⟩
    · exact heq ▸ hv
    · rw [hnone] at hv
      cases hv
  · intro hlt
    have hspan := Token.eq_ownSpan h hs hn (Int64.le_trans hown (Int64.le_of_lt hlt))
    rw [hspan, show t.ownSpan.owner = t.branch from rfl, hgone _ _ hlt] at hv
    cases hv

omit h in
/-- What was covered before the watermark, and the watermark itself, is covered after a trim. -/
theorem covers_trims {v : Version} (hv : ts.Covers t.tree t.spans v)
    (hplace : v.node < node ∨ v.node = node ∧ v.transaction = x) :
    us.Covers t.tree t.spans v := by
  obtain ⟨s, hs, hn, hv⟩ := hv
  refine ⟨s, hs, hn, ?_⟩
  rcases htrims.versions t.tree s.owner v.node v.transaction with heq | ⟨-, -, -, hle, hne⟩
  · exact heq.trans hv
  · rcases hplace with hlt | hsame
    · exact absurd hlt (Int64.not_lt.2 hle)
    · exact absurd hsame hne

/-- Trimming to a version of the log leaves the part up to it. -/
theorem log_trim (hown : t.ownStart ≤ node)
    (hgone : ∀ n y, node < n → us.version? t.tree t.branch n y = none) {watermark : Version}
    (hmem : watermark ∈ ts.log t) (hnode : watermark.node = node)
    (htransaction : watermark.transaction = x) :
    us.log t = (ts.log t).filter fun v => v.node ≤ node := by
  rw [mem_log_iff h] at hmem
  obtain ⟨hstored, -, hlargest⟩ := hmem
  have hkept := covers_trims htrims hstored (.inr ⟨hnode, htransaction⟩)
  apply log_eq_of_mem h ((log_ascending h).filter _)
  intro v
  rw [mem_log_iff h, List.mem_filter, mem_log_iff h, decide_eq_true_eq]
  constructor
  · intro hlog
    obtain ⟨hv, hpos, hmax⟩ := hlog
    obtain ⟨hold, hle⟩ := covers_of_trims h htrims hown hgone hv
    refine ⟨⟨hold, hpos, ?_⟩, hle⟩
    intro w hw hwv
    by_cases hlt : w.node < node
    · exact hmax w (covers_trims htrims hw (.inl hlt)) hwv
    · -- `w` is at the node of the watermark, which exceeds it
      have hwnode : node ≤ w.node := Int64.not_lt.1 hlt
      have hwatermark := hmax watermark hkept (hnode ▸ Int64.le_trans hwnode hwv)
      refine Int64.le_trans (hlargest w hw ?_) hwatermark
      exact hnode ▸ Int64.le_trans hwv hle
  · intro hlog
    obtain ⟨⟨hold, hpos, hmax⟩, hle⟩ := hlog
    refine ⟨covers_trims htrims hold ?_, hpos, ?_⟩
    · rcases Int64.lt_or_eq_of_le hle with hlt | heq
      · exact .inl hlt
      · have hwatermark : watermark.node = v.node := hnode.trans heq.symm
        refine .inr ⟨heq, htransaction ▸ Int64.le_antisymm ?_ ?_⟩
        · exact hlargest v hold (hwatermark ▸ Int64.le_refl _)
        · exact hmax watermark hstored (hwatermark ▸ Int64.le_refl _)
    · intro w hw
      exact hmax w (covers_of_trims h htrims hown hgone hw).1

end Trimming

end Tables

end Chronicle
