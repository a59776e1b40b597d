import Chronicle.Proofs.Decoding
import Chronicle.Proofs.Visits

/-!
# Windows of a history

A read of a window selects and decodes as if there was nothing before the window. So what it gives
is the part of the full history in the window, unless something before the window matters:

* A version before the window may exceed what is stored in it. `Tables.Untouched` says that it does
  not, or that something in the window exceeds that too.
* The window may start inside a batch. The first batch of the window then does not start where the
  window starts, and the read complains of the gap.

`readBatches_slice` says that there is nothing else.
-/
namespace Chronicle

open Archive (State)

/-! ## Versions in a window -/

namespace Tables

/-- Whatever a version before the window exceeds in it, a version in the window at its node or
before exceeds as well. -/
def Untouched (ts : Tables) (t : Token) (min max : NodeId) : Prop :=
  ∀ v w, ts.Holds t min max v → ts.Covers t.tree t.spans w → w.node < min →
    v.transaction < w.transaction →
      ∃ u, ts.Holds t min max u ∧ u.node ≤ v.node ∧ v.transaction < u.transaction

/-- What an untouched window shows is the part of the log in the window. -/
theorem history_slice {ts : Tables} {t : Token} (h : Lineage.Follows firstEvent t.lineage)
    {min max : NodeId} (huntouched : ts.Untouched t min max) :
    ts.history (.window t min max) =
      (ts.log t).filter fun v => min ≤ v.node ∧ v.node < max := by
  apply eq_of_sorted (fun _ _ => Int64.lt_asymm) (history_ascending h min max)
    ((log_ascending h).filter _)
  intro v
  rw [mem_history_iff h, List.mem_filter, decide_eq_true_eq, mem_log_iff h]
  constructor
  · intro hshows
    obtain ⟨hholds, hpos, hmax⟩ := hshows
    refine ⟨⟨hholds.1, hpos, fun w hw hle => ?_⟩, hholds.2⟩
    by_cases hbefore : w.node < min
    · refine Int64.not_lt.1 fun hexceeds => ?_
      obtain ⟨u, hu, hun, hux⟩ := huntouched v w hholds hw hbefore hexceeds
      exact Int64.not_lt.2 (hmax u hu hun) hux
    · exact hmax w ⟨hw, Int64.not_lt.1 hbefore, Int64.lt_of_le_of_lt hle hholds.2.2⟩ hle
  · intro hlog
    obtain ⟨⟨hcovers, hpos, hmax⟩, hwindow⟩ := hlog
    exact ⟨⟨hcovers, hwindow⟩, hpos, fun w hw => hmax w hw.1⟩

end Tables

theorem Version.filter_append_filter {l : List Version} (h : l.Pairwise fun v w => v.node < w.node)
    (n : NodeId) : l.filter (fun v => v.node < n) ++ l.filter (fun v => n ≤ v.node) = l := by
  induction l with
  | nil => rfl
  | cons v rest ih =>
    obtain ⟨hv, hrest⟩ := List.pairwise_cons.1 h
    by_cases hlt : v.node < n
    · rw [List.filter_cons_of_pos (by simpa using hlt),
        List.filter_cons_of_neg (by simpa using hlt), List.cons_append, ih hrest]
    · have hall : (v :: rest).filter (fun v => n ≤ v.node) = v :: rest := by
        refine List.filter_eq_self.2 (List.forall_mem_cons.2 ⟨by simpa using hlt, fun w hw => ?_⟩)
        exact decide_eq_true (Int64.le_trans (Int64.not_lt.1 hlt) (Int64.le_of_lt (hv w hw)))
      have hnone : (v :: rest).filter (fun v => v.node < n) = [] := by
        refine List.filter_eq_nil_iff.2 fun w hw hbefore => ?_
        rw [← hall, List.mem_filter] at hw
        exact Int64.not_lt.2 (of_decide_eq_true hw.2) (of_decide_eq_true hbefore)
      rw [hall, hnone, List.nil_append]

/-- What lies before the node after another one does not lie behind that one. -/
theorem NodeId.le_of_lt_add_one {m n : NodeId} (h : m < n + 1) : m ≤ n := by
  by_cases hlimit : n = nodeLimit
  · rw [hlimit]
    exact Token.le_nodeLimit m
  · have hnext : n.next = n + 1 := if_neg hlimit
    rw [← hnext, ← Int64.not_le, NodeId.next_le_iff hlimit, Int64.not_lt] at h
    exact h

/-! ## Batches in a window -/

namespace Batch

variable {codec : Codec} {last : EventId} {l : List Version} {bs : List Batch} {stop : EventId}

/-- The last event of a batch is as many behind the first as the batch has others. -/
theorem IsBatch.lastEvent {b : Batch} {first : Event} (h : IsBatch first b.events)
    (last : EventId) :
    (b.lastEvent last).toInt + 1 = first.id.toInt + b.events.length := by
  have hhead := h.head
  cases hget : b.events.getLast? with
  | none =>
    rw [List.getLast?_eq_none_iff.1 hget] at hhead
    cases hhead
  | some e =>
    rw [Batch.lastEvent, hget, Option.map_some, Option.getD_some]
    rw [List.getLast?_eq_getElem?] at hget
    have hid := h.ids _ e hget
    have hlength := (List.getElem?_eq_some_iff.1 hget).1
    omega

theorem exists_event {b : Batch} {first : Event} (hcheck : check b.events = .ok first)
    {n : EventId} (hfirst : first.id ≤ n) (hlast : n ≤ b.lastEvent last) :
    ∃ e ∈ b.events, e.id = n := by
  have hbatch := check_eq_ok_iff.1 hcheck
  have hend := hbatch.lastEvent last
  rw [Int64.le_iff_toInt_le] at hfirst hlast
  have hbound : (n.toInt - first.id.toInt).toNat < b.events.length := by omega
  have hevent := hbatch.ids _ _ (List.getElem?_eq_getElem hbound)
  refine ⟨_, List.getElem_mem hbound, Int64.toInt_inj.1 ?_⟩
  omega

/-- The part of batches in a window is what the part of the versions in the window decodes to. -/
theorem Decodes.window (h : Decodes codec last l bs stop)
    (hl : l.Pairwise fun v w => v.node < w.node) (min max : NodeId) :
    ∃ start front stop', Decodes codec last (l.filter fun v => v.node < min) front start ∧
      (∀ b ∈ front, b ∈ bs) ∧
      Decodes codec start (l.filter fun v => min ≤ v.node ∧ v.node < max)
        (bs.filter fun b => min ≤ b.node ∧ b.node < max) stop' := by
  have hwindow : (l.filter fun v => min ≤ v.node).filter (fun v => v.node < max) =
      l.filter fun v => min ≤ v.node ∧ v.node < max := by
    rw [List.filter_filter]
    refine List.filter_congr fun v _ => ?_
    rw [Bool.and_comm, Bool.decide_and]
  rw [← Version.filter_append_filter hl min] at h
  obtain ⟨start, front, rest, rfl, hfront, hrest⟩ := h.split
  rw [← Version.filter_append_filter (hl.filter _) max, hwindow] at hrest
  obtain ⟨stop', slice, back, rfl, hslice, hback⟩ := hrest.split
  refine ⟨start, front, stop', hfront, fun b hb => List.mem_append_left _ hb, ?_⟩
  have hbefore : front.filter (fun b => min ≤ b.node ∧ b.node < max) = [] := by
    refine List.filter_eq_nil_iff.2 fun b hb hin => ?_
    obtain ⟨v, hv, hnode⟩ := hfront.mem_node b hb
    have hlt : v.node < min := of_decide_eq_true (List.mem_filter.1 hv).2
    exact Int64.not_lt.2 (of_decide_eq_true hin).1 (hnode ▸ hlt)
  have hinside : slice.filter (fun b => min ≤ b.node ∧ b.node < max) = slice := by
    refine List.filter_eq_self.2 fun b hb => ?_
    obtain ⟨v, hv, hnode⟩ := hslice.mem_node b hb
    rw [hnode]
    exact (List.mem_filter.1 hv).2
  have hbehind : back.filter (fun b => min ≤ b.node ∧ b.node < max) = [] := by
    refine List.filter_eq_nil_iff.2 fun b hb hin => ?_
    obtain ⟨v, hv, hnode⟩ := hback.mem_node b hb
    have hle : max ≤ v.node := of_decide_eq_true (List.mem_filter.1 hv).2
    exact Int64.not_lt.2 hle (hnode ▸ (of_decide_eq_true hin).2)
  rw [List.filter_append, List.filter_append, hbefore, hinside, hbehind, List.nil_append,
    List.append_nil]
  exact hslice

/-- Where a first batch does not start, an event of the batch before it is. -/
theorem Decodes.exists_straddling {v : Version} {rest : List Version} {start stop' : EventId}
    {front slice : List Batch} {min : EventId}
    (hfront : Decodes codec (firstEvent - 1) l front start)
    (hslice : Decodes codec start (v :: rest) slice stop') (hl : ∀ w ∈ l, w.node < min)
    (hmin : firstEvent ≤ min) (hv : min < v.node) :
    ∃ b ∈ front, b.node < min ∧ ∃ e ∈ b.events, e.id = min := by
  cases hslice with
  | cons hb _ =>
    have hnext := (decode_of_ok hb).2.1
    rcases List.eq_nil_or_concat l with rfl | ⟨before, w, rfl⟩
    · -- a history starts with the first event
      cases hfront
      rw [show firstEvent - 1 + 1 = firstEvent from rfl] at hnext
      exact absurd (hnext ▸ hv) (Int64.not_lt.2 hmin)
    · rw [List.concat_eq_append] at hfront hl
      obtain ⟨mid, others, final, rfl, -, hfinal⟩ := hfront.split
      cases hfinal with
      | @cons _ _ _ _ b _ hw hnil =>
        cases hnil
        obtain ⟨hnode, -, ⟨first, hfirst, hcheck⟩, -⟩ := decode_of_ok hw
        have hbefore : b.node < min := hnode ▸ hl w (by simp)
        rw [hnext] at hv
        have hle := NodeId.le_of_lt_add_one hv
        exact ⟨b, by simp, hbefore, exists_event hcheck (hfirst ▸ Int64.le_of_lt hbefore) hle⟩

end Batch

namespace Archive

variable {a : Archive} {s : State MemoryStore}

/-- If a full read by batch comes to its end, then what an untouched window shows decodes to the
batches that start in it, and what the branch has before the window to batches of the read. -/
theorem decodes_window {bytes : Bytes} {row : BranchRow} (hs : s.Unarmed) (htime : a.InTime)
    (hlineage : Lineage.Follows firstEvent row.token.lineage) (hrow : s.tables.Names bytes row)
    {sizes : Nat → UInt64} (hsizes : a.Countable sizes) {pages : List (Page Batch)}
    {t : State MemoryStore}
    (hfull : Paged (fun size page => a.readBatches ⟨bytes, firstEvent, nodeLimit, size, page⟩) sizes
      0 [] s pages t) {min max : EventId} (hmin : firstEvent ≤ min)
    (huntouched : s.tables.Untouched row.token min max) :
    let bs := pages.flatMap (·.items)
    ∃ start front stop,
      Batch.Decodes a.codec (firstEvent - 1)
        ((s.tables.log row.token).filter fun v => v.node < min) front start ∧
      (∀ b ∈ front, b ∈ bs) ∧
      Batch.Decodes a.codec start (s.tables.remaining (.window row.token min max) (.start min))
        (bs.filter fun b => min ≤ b.node ∧ b.node < max) stop := by
  intro bs
  -- the full read decodes the log, and the part of the log in the window is shown
  obtain ⟨-, stop, hdecodes⟩ := Paged.decodes htime (Int64.le_refl _) (by decide) hsizes hlineage
    rfl hfull hs hrow (Cursor.fits_start _ _ _) (Cursor.resume_start ..)
  have hlog : s.tables.remaining (.window row.token firstEvent nodeLimit) (.start firstEvent) =
      s.tables.log row.token := Tables.remaining_start (Int64.le_refl _)
  rw [hlog] at hdecodes
  rw [Tables.remaining_start hmin, Tables.history_slice hlineage huntouched]
  exact hdecodes.window (Tables.log_ascending hlineage) min max

/-- **A window is a slice.** In every state that calls lead to, if a full read by batch of a branch
comes to its end, then an untouched window reads as the batches that start in it. There are no
events exactly if there are none of these; they are read, page after page and with pages of any
sizes, if one of them starts where the window does. Otherwise the window starts inside an earlier
batch, and the read complains of the gap up to the first of them. -/
theorem readBatches_slice (h : Visits a s) (hs : s.Unarmed) {bytes : Bytes} {row : BranchRow}
    (hrow : s.tables.Names bytes row) {sizes : Nat → UInt64} (hsizes : a.Countable sizes)
    {pages : List (Page Batch)} {t : State MemoryStore}
    (hfull : Paged (fun size page => a.readBatches ⟨bytes, firstEvent, nodeLimit, size, page⟩) sizes
      0 [] s pages t) {min max : EventId} (hmin : firstEvent ≤ min) (hmax : min < max)
    (huntouched : s.tables.Untouched row.token min max) {sizes' : Nat → UInt64}
    (hsizes' : a.Countable sizes') :
    let bs := pages.flatMap (·.items)
    let slice := bs.filter fun b => min ≤ b.node ∧ b.node < max
    let read := fun size page => a.readBatches ⟨bytes, min, max, size, page⟩
    (slice = [] →
      (read (sizes' 0) []).answer s = .error (.notFound (.events min max row.branch))) ∧
    ∀ b rest, slice = b :: rest →
      (b.node = min → ∃ pages' u, Paged read sizes' 0 [] s pages' u ∧
        pages'.flatMap (·.items) = slice) ∧
      (b.node ≠ min → (read (sizes' 0) []).answer s = .error (.dataLoss (.gap min b.node)) ∧
        ∃ c ∈ bs, c.node < min ∧ ∃ e ∈ c.events, e.id = min) := by
  intro bs slice read
  have hlineage : Lineage.Follows firstEvent row.token.lineage := by
    obtain ⟨q, -, hrow⟩ := hrow
    exact h.proper _ _ _ hrow
  have htime : a.InTime := by
    cases hfull with
    | last hread => exact inTime_of_readBatches hread
    | more hread => exact inTime_of_readBatches hread
  obtain ⟨start, front, stop, hfront, hmem, hslice⟩ :=
    decodes_window hs htime hlineage hrow hsizes hfull hmin huntouched
  have hfits := Cursor.fits_start s.tables (.window row.token min max) min
  have hordered := Plan.window_ordered hlineage min max
  have hplan : plan (a.deadline "read_history_branch_by_batch") ⟨bytes, min, max, sizes' 0, []⟩ s =
      .ok (.window row.token min max) s := plan_eq (htime.not_expired _) hs hrow hmin hmax
  generalize hk : a.config.effectivePageSize (sizes' 0) = k
  constructor
  · intro hnone
    exact readBatchesAs_of_nil hs hk (hk ▸ hsizes' 0) hordered hfits (Cursor.resume_start ..) htime
      hplan rfl (hslice.eq_nil_iff.1 hnone)
  · intro b rest hcons
    have hall := hslice
    rw [show bs.filter _ = b :: rest from hcons] at hall
    cases hshown : s.tables.remaining (.window row.token min max) (.start min) with
    | nil =>
      rw [hshown] at hall
      cases hall
    | cons v shown =>
    rw [hshown] at hall
    cases hall with
    | cons hfirst _ =>
    obtain ⟨hnode, hnext, -, hgap⟩ := Batch.decode_of_ok hfirst
    constructor
    · intro hstart
      have hevent : start = (Cursor.start min).event := by
        show start = min - 1
        rw [← hstart, hnode, hnext, Int64.add_sub_cancel]
      rw [hevent] at hslice
      exact paged_of_decodes htime hmin hmax hsizes' hlineage rfl hs hrow hfits
        (Cursor.resume_start ..) (fun hnil => List.cons_ne_nil _ _ (hshown.symm.trans hnil.2))
        hslice 0
    · intro hne
      have hb : b ∈ slice := hcons ▸ List.mem_cons_self ..
      have hstarts : min ≤ b.node := (of_decide_eq_true (List.mem_filter.1 hb).2).1
      have hlt : min < v.node := hnode ▸ Int64.lt_of_le_of_ne hstarts (Ne.symm hne)
      constructor
      · have herror := hgap (min - 1) (Cursor.start_event_ne hmin)
        rw [Int64.sub_add_cancel, ← hnode] at herror
        have hpage : s.tables.remaining (.window row.token min max) (.start min) =
            [] ++ v :: shown := hshown
        exact readBatchesAs_of_error hs hk (hk ▸ hsizes' 0) hordered hfits (Cursor.resume_start ..)
          htime hplan hpage (pageSize_pos hk) .nil (herror hne)
      · rw [hshown] at hslice
        obtain ⟨c, hc, hbefore, hevent⟩ := hfront.exists_straddling hslice
          (fun w hw => of_decide_eq_true (List.mem_filter.1 hw).2) hmin hlt
        exact ⟨c, hmem c hc, hbefore, hevent⟩

end Archive

namespace Sample

def event (id : EventId) : Event := ⟨id, 0, "", []⟩

def batches : List Operation :=
  [.append ⟨1, 1, Forked.bytes root, 6, 5, false, ""⟩ (.events [event 3]),
    .append ⟨1, 1, Forked.bytes root, 5, 0, true, ""⟩ (.events [event 1, event 2]),
    .newBranch "" "" "" .unset]

def batched : State MemoryStore := (archive.after leases batches).1

def batchedRun : Run := ⟨batches, [Forked.bytes root], by decide +kernel, by decide +kernel⟩

theorem batched_reaches : archive.Reaches batched [Forked.bytes root] := batchedRun.reaches

theorem batched_names : batched.tables.Names (Forked.bytes root) (Forked.row root) := by
  have hrow : batched.tables.row? root.tree root.branch = some (Forked.row root) := by
    decide +kernel
  exact ⟨root, rfl, hrow⟩

/-- A read by batch, page after page, of the events from `min` on. -/
def readFrom (min : EventId) (size : UInt64) (page : Bytes) : Action MemoryStore (Page Batch) :=
  archive.readBatches ⟨Forked.bytes root, min, nodeLimit, size, page⟩

theorem batched_paged (operation : String) :
    ∃ pages t, Archive.Paged (fun size page =>
        archive.readBatchesAs operation ⟨Forked.bytes root, firstEvent, nodeLimit, size, page⟩)
        (fun _ => 1) 0 [] batched pages t ∧
      pages.flatMap (·.items) = [⟨1, 5, [event 1, event 2], 72⟩, ⟨3, 6, [event 3], 40⟩] := by
  have hlineage : Lineage.Follows firstEvent (Forked.row root).token.lineage := trivial
  have hsome : batched.tables.remaining (.window root firstEvent nodeLimit) (.start firstEvent) ≠
      [] := by decide +kernel
  have hdecodes : Batch.decodeAll archive.codec (Cursor.start firstEvent).event
      (batched.tables.remaining (.window root firstEvent nodeLimit) (.start firstEvent)) =
        .ok ([⟨1, 5, [event 1, event 2], 72⟩, ⟨3, 6, [event 3], 40⟩], 3) := by decide +kernel
  exact Archive.paged_of_decodes (by decide) (Int64.le_refl _) (by decide) archive.countable_one
    hlineage rfl batched_reaches.unarmed batched_names (Cursor.fits_start _ _ _)
    (Cursor.resume_start ..) (fun hnil => hsome hnil.2) (Batch.decodeAll_eq_ok_iff.1 hdecodes) 0

theorem batched_full :
    ∃ pages t, Archive.Paged (readFrom firstEvent) (fun _ => 1) 0 [] batched pages t ∧
      pages.flatMap (·.items) = [⟨1, 5, [event 1, event 2], 72⟩, ⟨3, 6, [event 3], 40⟩] :=
  batched_paged _

theorem batched_untouched : batched.tables.Untouched (Forked.row root).token 3 nodeLimit := by
  have hbefore : ∀ v ∈ batched.tables.along root.tree root.spans, 3 ≤ v.node →
      ∀ w ∈ batched.tables.along root.tree root.spans, w.transaction ≤ v.transaction := by
    decide +kernel
  intro v w hv hw _ hexceeds
  have hle := hbefore v (Tables.mem_along_iff.2 hv.1) hv.2.1 w (Tables.mem_along_iff.2 hw)
  exact absurd hexceeds (Int64.not_lt.2 hle)

end Sample

namespace Archive

/-- A window that starts with the second batch. -/
theorem readBatches_slice_second :
    ∃ pages t, Paged (Sample.readFrom 3) (fun _ => 1) 0 [] Sample.batched pages t ∧
      pages.flatMap (·.items) = [⟨3, 6, [Sample.event 3], 40⟩] := by
  obtain ⟨pages, t, hfull, hitems⟩ := Sample.batched_full
  have hslice := (readBatches_slice Sample.batched_reaches.visits Sample.batched_reaches.unarmed
    Sample.batched_names Sample.archive.countable_one hfull (by decide) (by decide)
    Sample.batched_untouched Sample.archive.countable_one).2
  rw [hitems] at hslice
  exact (hslice ⟨3, 6, [Sample.event 3], 40⟩ [] (by decide)).1 rfl

/-- A window that starts in the middle of a batch is not read, although the full history is. -/
theorem gap_inside_batch :
    Sample.archive.Reaches Sample.batched [Forked.bytes Sample.root] ∧
      (∃ pages t, Paged (Sample.readFrom firstEvent) (fun _ => 1) 0 [] Sample.batched pages t ∧
        pages.flatMap (·.items) =
          [⟨1, 5, [Sample.event 1, Sample.event 2], 72⟩, ⟨3, 6, [Sample.event 3], 40⟩]) ∧
      (Sample.readFrom 2 1 []).answer Sample.batched = .error (.dataLoss (.gap 2 3)) :=
  ⟨Sample.batched_reaches, Sample.batched_full, by decide +kernel⟩

end Archive

end Chronicle
