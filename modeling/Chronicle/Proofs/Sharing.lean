import Chronicle.Archive.Reading
import Chronicle.Proofs.Action
import Chronicle.Proofs.Current

/-!
# What a read of a branch depends on

A read asks for the row of the branch and for the versions along the spans of its token, clipped to
the window. Contents that agree on these (`Tables.SameBranch`) give the same answers, one page or
another, forward or backward, with or without faults.
-/
namespace Chronicle

open Archive (State)

namespace Tables

/-- The same versions are stored along the spans. -/
def SameAlong (ts us : Tables) (t : TreeId) (spans : List Span) : Prop :=
  ∀ s ∈ spans, ∀ n ∈ s, ∀ x, us.version? t s.owner n x = ts.version? t s.owner n x

/-- The branch has the same row, and the same versions along its spans. -/
structure SameBranch (ts us : Tables) (t : TreeId) (b : BranchId) : Prop where
  row : us.row? t b = ts.row? t b
  versions : ∀ row, ts.row? t b = some row → ts.SameAlong us t row.token.spans

theorem SameAlong.window {ts us : Tables} {t : Token} (h : ts.SameAlong us t.tree t.spans)
    (min max : NodeId) : ts.SameAlong us t.tree (Plan.window t min max).spans := by
  intro c hc n hn x
  obtain ⟨s, hs, hclip⟩ := List.mem_filterMap.1 hc
  obtain ⟨howner, hmem⟩ := Span.clip_eq_some hclip
  rw [howner]
  exact h s hs n ((hmem n).1 hn).1 x

theorem read_congr {ts us : Tables} {t : TreeId} {b : BranchId} {q : RangeQuery}
    (h : ∀ n, q.min ≤ n → n < q.max → ∀ x, us.version? t b n x = ts.version? t b n x) :
    us.read t b q = ts.read t b q := by
  have hnodes : (us.nodesOf t b).restrict (fun n => q.min ≤ n && n < q.max) =
      (ts.nodesOf t b).restrict fun n => q.min ≤ n && n < q.max := by
    apply Nodes.ext_get?
    intro n x
    rw [Nodes.get?_restrict, Nodes.get?_restrict]
    split
    · next hn =>
      rw [Bool.and_eq_true, decide_eq_true_eq, decide_eq_true_eq] at hn
      exact h n hn.1 hn.2 x
    · rfl
  unfold read
  rw [hnodes]

end Tables

namespace Selection

variable {ts us : Tables} {d : Deadline} {plan : Plan}

theorem sweep_lockstep {s : Span} {start : NodeId} (hstart : s.start ≤ start)
    (h : ∀ n ∈ s, ∀ x, us.version? plan.tree s.owner n x = ts.version? plan.tree s.owner n x)
    (k : UInt64) (fuel : Nat) (after : Option Position) (taken : List Version) (c : Cursor) :
    Action.Lockstep ts us (sweep d plan s start k fuel after taken c) fun _ => True := by
  induction fuel generalizing after taken c with
  | zero => exact .pure trivial
  | succ fuel ih =>
    have hread : us.read plan.tree s.owner ⟨start, s.stop, after, fetchLimit k⟩ =
        ts.read plan.tree s.owner ⟨start, s.stop, after, fetchLimit k⟩ := by
      apply Tables.read_congr
      intro n hmin hmax
      exact h n ⟨Int64.le_trans hstart hmin, hmax⟩
    refine .bind (.ask (R := fun _ => True) hread trivial) ?_
    intro rows _
    refine .bind .lift_any ?_
    intro p _
    split
    · exact .pure trivial
    · exact ih ..

theorem walk_lockstep (k : UInt64) {spans : List Span} (h : ts.SameAlong us plan.tree spans)
    (taken : List Version) (c : Cursor) :
    Action.Lockstep ts us (walk d plan k spans taken c) fun _ => True := by
  induction spans generalizing taken c with
  | nil => exact .pure trivial
  | cons s rest ih =>
    have hstart : s.start ≤ if s.start < c.node.next then c.node.next else s.start := by
      split
      · next hlt => exact Int64.le_of_lt hlt
      · exact Int64.le_refl _
    refine .bind (sweep_lockstep hstart (h s (List.mem_cons_self ..)) ..) ?_
    intro p _
    split
    · exact .pure trivial
    · apply ih
      intro s hs
      exact h s (List.mem_cons_of_mem _ hs)

theorem page_lockstep (h : ts.SameAlong us plan.tree plan.spans) (c : Cursor) (k : UInt64) :
    Action.Lockstep ts us (page d plan c k) fun _ => True := by
  rcases Nat.lt_or_ge (k.toNat + 1) UInt64.size with hk | hk
  · rw [page_of_lt hk]
    apply walk_lockstep
    intro s hs
    exact h s (List.mem_of_mem_drop hs)
  · rw [page_of_le hk]
    exact .throw

end Selection

namespace Archive

section Reads

variable {ts us : Tables} (a : Archive) (d : Deadline) {req : ReadRequest} {t : Token}
  (ht : Token.decode req.token = .ok t) (h : ts.SameBranch us t.tree t.branch)

include h in
theorem requireRow_lockstep :
    Action.Lockstep ts us (requireRow d t) fun row => ts.row? t.tree t.branch = some row := by
  refine .bind (.ask (R := (· = ts.row? t.tree t.branch)) h.row rfl) ?_
  intro row hrow
  split
  · exact .pure (hrow ▸ rfl)
  · exact .throw

include ht h

theorem plan_lockstep :
    Action.Lockstep ts us (plan d req) fun p => ts.SameAlong us p.tree p.spans := by
  have hplan : Action.Lockstep ts us
      (do
        let requested ← Action.lift (decodeToken req.token)
        let row ← requireRow d requested
        return Plan.window row.token req.min req.max)
      fun p => ts.SameAlong us p.tree p.spans := by
    refine .bind (.decodeToken ht) ?_
    intro u hu
    subst hu
    refine .bind (requireRow_lockstep d h) ?_
    intro row hrow
    have htree : row.token.tree = u.tree := (Tables.row?_own hrow).1
    have hspans := h.versions row hrow
    rw [← htree] at hspans
    exact .pure (hspans.window req.min req.max)
  unfold plan
  dsimp only
  split
  · exact .throw_bind
  · exact hplan

theorem selectPage_lockstep : Action.Lockstep ts us (selectPage a d req) fun _ => True := by
  refine .bind (plan_lockstep d ht h) ?_
  intro p hp
  refine .bind .lift_any ?_
  intro c _
  refine .bind (Selection.page_lockstep hp c _) ?_
  intro sel _
  split
  · exact .throw_bind
  · exact .pure trivial

theorem readRaw_lockstep : Action.Lockstep ts us (readRaw a req) fun _ => True := by
  refine .bind (selectPage_lockstep a _ ht h) ?_
  intro sel _
  refine .bind .count ?_
  intro _ _
  exact .pure trivial

theorem readBatchesAs_lockstep (operation : String) :
    Action.Lockstep ts us (readBatchesAs a operation req) fun _ => True := by
  refine .bind (selectPage_lockstep a _ ht h) ?_
  intro sel _
  refine .bind .lift_any ?_
  intro decoded _
  refine .bind .count ?_
  intro _ _
  exact .pure trivial

theorem readEvents_lockstep : Action.Lockstep ts us (readEvents a req) fun _ => True := by
  refine .bind (readBatchesAs_lockstep a ht h _) ?_
  intro batches _
  exact .pure trivial

omit ht h in
theorem readWindow_lockstep {p : Plan} (hp : ts.SameAlong us p.tree p.spans) (fuel : Nat)
    (c : Cursor) : Action.Lockstep ts us (readWindow a d p fuel c) fun _ => True := by
  induction fuel generalizing c with
  | zero => exact .pure trivial
  | succ fuel ih =>
    refine .bind (Selection.page_lockstep hp c _) ?_
    intro sel _
    refine .bind .lift_any ?_
    intro decoded _
    obtain ⟨batches, last⟩ := decoded
    dsimp only
    split
    · exact .pure trivial
    · refine .bind (ih _) ?_
      intro rest _
      exact .pure trivial

theorem readBackward_lockstep : Action.Lockstep ts us (readBackward a req) fun _ => True := by
  refine .bind (plan_lockstep _ ht h) ?_
  intro p hp
  refine .bind .lift_any ?_
  intro below _
  refine .bind (readWindow_lockstep a _ hp ..) ?_
  intro window _
  dsimp only
  split
  · exact .throw_bind
  · refine .bind .count ?_
    intro _ _
    exact .pure trivial

end Reads

/-- Two states give the same answers to every read for which the bytes are a token. -/
structure SameReads (s t : State MemoryStore) (bytes : Bytes) : Prop where
  events : ∀ (a : Archive) (req : ReadRequest), req.token = bytes →
    (a.readEvents req).answer s = (a.readEvents req).answer t
  batches : ∀ (a : Archive) (req : ReadRequest), req.token = bytes →
    (a.readBatches req).answer s = (a.readBatches req).answer t
  raw : ∀ (a : Archive) (req : ReadRequest), req.token = bytes →
    (a.readRaw req).answer s = (a.readRaw req).answer t
  backward : ∀ (a : Archive) (req : ReadRequest), req.token = bytes →
    (a.readBackward req).answer s = (a.readBackward req).answer t

theorem sameReads {ts us : Tables} {bytes : Bytes} {t : Token} (ht : Token.decode bytes = .ok t)
    (h : ts.SameBranch us t.tree t.branch) (s : State MemoryStore) :
    SameReads (s.withTables us) (s.withTables ts) bytes where
  events a _ hreq := (readEvents_lockstep a (hreq ▸ ht) h).answer_eq s
  batches a _ hreq := (readBatchesAs_lockstep a (hreq ▸ ht) h _).answer_eq s
  raw a _ hreq := (readRaw_lockstep a (hreq ▸ ht) h).answer_eq s
  backward a _ hreq := (readBackward_lockstep a (hreq ▸ ht) h).answer_eq s

end Archive

end Chronicle
