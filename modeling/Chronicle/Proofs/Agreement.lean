import Chronicle.Proofs.Appending
import Chronicle.Proofs.Slices

/-!
# Writers and readers agree

To find the batch before a node a writer is asked for, the archive takes the largest transaction of
each span below the node, and the largest of these. A reader goes through all versions with a cursor
that passes over what is stale. Both find the same.

* `Selection.Exhausts`: page after page, until there is nothing left to read.
* `isLargest_lastTaken`: what a pass takes last carries the largest transaction.
* `preceding_agrees`: the result, for a branch that is read and written.
-/
namespace Chronicle

open Archive (State)

/-! ## Reading to the end -/

namespace Selection

/-- Asking for page after page from a cursor on, with `sizes i` as the size of the next page, until
a page says that it is the last one. -/
inductive Exhausts {σ : Type} [Backend σ] (d : Deadline) (p : Plan) (sizes : Nat → UInt64) :
    Nat → Cursor → State σ → List Version → State σ → Prop
  | last {i : Nat} {c : Cursor} {s t : State σ} {sel : Selection}
      (h : page d p c (sizes i) s = .ok sel t) (hlast : sel.exhausted = true) :
      Exhausts d p sizes i c s sel.versions t
  | more {i : Nat} {c : Cursor} {s t u : State σ} {sel : Selection} {vs : List Version}
      (h : page d p c (sizes i) s = .ok sel t) (hmore : sel.exhausted = false)
      (hrest : Exhausts d p sizes (i + 1) sel.cursor t vs u) :
      Exhausts d p sizes i c s (sel.versions ++ vs) u

/-- Every page has room, and leaves room for one more version in a fetch. -/
def Sized (sizes : Nat → UInt64) : Prop :=
  ∀ i, 0 < (sizes i).toNat ∧ (sizes i).toNat + 1 < UInt64.size

/-- Reading to the end gives all that is left, whatever the sizes of the pages. -/
theorem exhausts_remaining {d : Deadline} (hd : d.expired = false) {s : State MemoryStore}
    (hs : s.Unarmed) {p : Plan} (hp : Lineage.Ordered p.spans) {sizes : Nat → UInt64}
    (hsizes : Sized sizes) {c : Cursor} (hc : c.Fits s.tables p) (i : Nat) :
    Exhausts d p sizes i c s (s.tables.remaining p c) s := by
  induction hn : (s.tables.remaining p c).length using Nat.strongRecOn generalizing c i with
  | _ n ih =>
  obtain ⟨hpos, hk⟩ := hsizes i
  obtain ⟨c', -, -, hpage, hnext⟩ := page_eq hd hs hk hpos hp hc
  by_cases hlast : (s.tables.remaining p c).length < (sizes i).toNat
  · have hall := List.take_of_length_le (Nat.le_of_lt hlast)
    have hexhausts := Exhausts.last hpage (decide_eq_true hlast)
    rwa [hall] at hexhausts
  · obtain ⟨hfits, hdrop⟩ := hnext (Nat.not_lt.1 hlast)
    have hrest : Exhausts d p sizes (i + 1) c' s (s.tables.remaining p c') s := by
      apply ih _ _ hfits (i + 1) rfl
      rw [hdrop, List.length_drop]
      omega
    have hexhausts := Exhausts.more hpage (decide_eq_false hlast) hrest
    rwa [hdrop, List.take_append_drop] at hexhausts

/-! ## The last one taken -/

/-- What a pass takes last carries the largest transaction of all that it goes through, in whatever
order. -/
theorem isLargest_lastTaken (last : TransactionId) (l : List Version) :
    IsLargest last (· ∈ l) (lastTaken last l) := by
  induction l generalizing last with
  | nil => exact ⟨.inl rfl, Int64.le_refl _, fun _ hv => absurd hv List.not_mem_nil⟩
  | cons v rest ih =>
    by_cases hlt : v.transaction < last
    · -- `v` is passed over
      obtain ⟨hattained, hle, hlargest⟩ := ih last
      rw [lastTaken_cons_of_lt hlt]
      refine ⟨?_, hle, ?_⟩
      · rcases hattained with h | ⟨w, hw, h⟩
        · exact .inl h
        · exact .inr ⟨w, List.mem_cons_of_mem _ hw, h⟩
      · intro w hw
        rcases List.mem_cons.1 hw with rfl | hw
        · exact Int64.le_trans (Int64.le_of_lt hlt) hle
        · exact hlargest w hw
    · -- `v` is taken, and the others are compared with it
      obtain ⟨hattained, hle, hlargest⟩ := ih v.transaction
      rw [lastTaken_cons_of_not_lt hlt]
      refine ⟨.inr ?_, Int64.le_trans (Int64.not_lt.1 hlt) hle, ?_⟩
      · rcases hattained with h | ⟨w, hw, h⟩
        · exact ⟨v, List.mem_cons_self .., h.symm⟩
        · exact ⟨w, List.mem_cons_of_mem _ hw, h⟩
      · intro w hw
        rcases List.mem_cons.1 hw with rfl | hw
        · exact hle
        · exact hlargest w hw

end Selection

def Version.lastTransaction (vs : List Version) : TransactionId :=
  (vs.getLast?.map (·.transaction)).getD noTransaction

namespace Tables

variable {ts : Tables} {q : Token} (h : Lineage.Follows firstEvent q.lineage)

include h

/-- What a reader shows last below a node is what precedes it. -/
theorem precedes_lastTransaction (node : NodeId) :
    ts.Precedes q node (Version.lastTransaction (ts.history (.window q firstEvent node))) := by
  refine (Selection.isLargest_lastTaken noTransaction (ts.along q.tree _)).congr fun v => ?_
  rw [mem_along_iff, covers_window_iff, Holds, Below]
  constructor
  · intro hv
    exact ⟨hv.1, hv.2.2⟩
  · intro hv
    obtain ⟨⟨s, hs, hn, hstored⟩, hlt⟩ := hv
    exact ⟨⟨s, hs, hn, hstored⟩, (Token.window_of_mem h hs hn).1, hlt⟩

end Tables

namespace Archive

/-- **Writers and readers agree.** Whatever is stored, for every token with a proper lineage and
every node, the transaction that the archive finds before the node is that of the last version that
reading up to the node to the end takes, with pages of any sizes. If the token is that of a branch
with a row, then these versions are the ones below the node that a full read of the branch gives,
and an append of a new version at the node that passes every other check is refused exactly if it
does not name that transaction. -/
theorem preceding_agrees {a : Archive} (htime : a.InTime) {s : State MemoryStore} (hs : s.Unarmed)
    {q : Token} (hlineage : Lineage.check q.lineage = .ok ()) (node : NodeId) :
    ∃ shown : List Version,
      (∀ d : Deadline, d.expired = false →
        (∀ sizes, Selection.Sized sizes → Selection.Exhausts d (.window q firstEvent node) sizes 0
          (.start firstEvent) s shown s) ∧
        (preceding d q node).answer s = .ok (Version.lastTransaction shown)) ∧
      ∀ bytes row, s.tables.Names bytes row → row.token = q →
        (∃ vs, a.ReadsAll s bytes row.branch vs ∧ shown = vs.filter fun v => v.node < node) ∧
        ∀ req payload t v, s.leases.current req.shard = some req.lease →
          payload.prepare a.codec req = .ok (t, v) → a.Fresh s.tables t row v → v.node = node →
            ((Operation.append req payload).perform a).answer s =
              if v.previous = Version.lastTransaction shown then
                .ok (.receipt ⟨v.blob.length, v.node⟩)
              else .error (.conflict (.staleWriter v.previous (Version.lastTransaction shown)
                v.node)) := by
  rw [Lineage.check_eq_ok_iff] at hlineage
  have hprecedes := s.tables.precedes_lastTransaction hlineage node
  refine ⟨s.tables.history (.window q firstEvent node), ?_, ?_⟩
  · intro d hd
    constructor
    · intro sizes hsizes
      have hexhausts := Selection.exhausts_remaining hd hs (Plan.window_ordered hlineage _ _) hsizes
        (Cursor.fits_start s.tables (.window q firstEvent node) firstEvent) 0
      rwa [Tables.remaining_start (Int64.le_refl _)] at hexhausts
    · obtain ⟨t, hrun, -⟩ := preceding_eq hd hs hprecedes
      rw [Action.answer, hrun]
  · intro bytes row hnames hrow
    subst hrow
    constructor
    · exact ⟨_, readsAll_log htime hs hnames hlineage, Tables.history_below hlineage node⟩
    · intro req payload t v hlease hprepare hfresh hnode
      subst hnode
      exact hfresh.append_answer htime hs hlease hprepare hprecedes

/-- On a fork with the nodes 1 and 2 a third one has to name the transaction of the second, which
was written to the fork. -/
theorem preceding_agrees_fork :
    let append (previous : TransactionId) : Action MemoryStore Answer :=
      (Operation.append ⟨1, 1, Forked.bytes Sample.fork, 9, previous, false, ""⟩
        (.raw 3 [5])).perform Sample.archive
    (append 7).answer Sample.state = .ok (.receipt ⟨1, 3⟩) ∧
      ∀ previous < 9, previous ≠ 7 →
        (append previous).answer Sample.state =
          .error (.conflict (.staleWriter previous 7 3)) := by
  intro append
  have hdecode : Token.decode (Forked.bytes Sample.fork) = .ok Sample.fork := rfl
  have hrow : Sample.state.tables.row? Sample.fork.tree Sample.fork.branch =
      some (Forked.row Sample.fork) := by decide +kernel
  have hlast : (preceding (Sample.archive.deadline "") Sample.fork 3).answer Sample.state =
      .ok 7 := by decide +kernel
  have habsent : Sample.state.tables.version? Sample.fork.tree Sample.fork.branch 3 9 = none := by
    decide +kernel
  have hlease : Sample.state.leases.current 1 = some 1 := by decide +kernel
  have hlineage : Lineage.check Sample.fork.lineage = .ok () := rfl
  obtain ⟨shown, hread, happend⟩ := preceding_agrees (a := Sample.archive) (by decide)
    Sample.reaches.unarmed hlineage 3
  have hshown : Version.lastTransaction shown = 7 :=
    Except.ok.inj ((hread _ rfl).2.symm.trans hlast)
  have hanswer := (happend _ _ ⟨Sample.fork, hdecode, hrow⟩ rfl).2
  rw [hshown] at hanswer
  -- below transaction 9 the version passes its own check
  have hall : ∀ previous : TransactionId, previous < 9 → (append previous).answer Sample.state =
      if previous = 7 then .ok (.receipt ⟨1, 3⟩)
      else .error (.conflict (.staleWriter previous 7 3)) := by
    intro previous hprevious
    have hchecked : checkVersion Sample.archive.config.transactionSizeLimit
        ⟨3, 9, previous, [5]⟩ = .ok () := by
      have hbelow : ¬ nodeLimit ≤ (3 : NodeId) := by decide
      have hpositive : ¬ (9 : TransactionId) ≤ noTransaction := by decide
      have hsize : ¬ Sample.archive.config.transactionSizeLimit.toNat < 1 := by decide
      exact (if_neg hbelow).trans ((if_neg hpositive).trans
        ((if_neg (Int64.not_le.2 hprevious)).trans (if_neg hsize)))
    have hown : Sample.fork.ownStart ≤ 3 := by decide
    exact hanswer ⟨1, 1, Forked.bytes Sample.fork, 9, previous, false, ""⟩ (.raw 3 [5]) Sample.fork
      ⟨3, 9, previous, [5]⟩ hlease rfl ⟨hrow, hchecked, hown, habsent⟩ rfl
  constructor
  · exact (hall 7 (by decide)).trans (if_pos rfl)
  · intro previous hprevious hne
    exact (hall previous hprevious).trans (if_neg hne)

end Archive

end Chronicle
