import Chronicle.Archive.Selection
import Chronicle.Storage.Tables.Views

/-!
# Current versions

A version is current among others if no version at its node or before has a larger transaction. One
pass in read order finds them all, because the last version it took carries the largest transaction
so far.

* `mem_current_iff`: the pass takes exactly the current versions; `current_ascending`: at most one
  of a node.
* `Tables.along` lists what is stored along spans, in read order if the spans follow each other.
* `Tables.history` is what a plan shows; `mem_history_iff` says it without a pass.
-/
namespace Chronicle

/-! ## Read order -/

/-- The node after `n` is the first that is larger, if there is one. -/
theorem NodeId.next_le_iff {n m : NodeId} (h : n ≠ nodeLimit) : NodeId.next n ≤ m ↔ n < m := by
  rw [NodeId.next, if_neg (show n ≠ Int64.maxValue from h), Int64.le_iff_toInt_le,
    Int64.lt_iff_toInt_lt, toInt_add_one h]
  exact Int.add_one_le_iff

theorem NodeId.add_one_le_iff {n m : NodeId} (h : n < nodeLimit) : n + 1 ≤ m ↔ n < m := by
  have hne : n ≠ nodeLimit := Int64.ne_of_lt h
  rw [← show NodeId.next n = n + 1 from if_neg hne, NodeId.next_le_iff hne]

theorem NodeId.lt_min_iff {n a b : NodeId} : n < Min.min a b ↔ n < a ∧ n < b := by
  rw [Std.min_eq_if]
  split
  · next hle => exact (and_iff_left_of_imp fun h => Int64.lt_of_lt_of_le h hle).symm
  · next hle =>
    have hlt := Int64.not_le.1 hle
    exact (and_iff_right_of_imp fun h => Int64.lt_trans h hlt).symm

theorem Position.isAfter_iff {p q : Position} :
    p.isAfter q = true ↔ q.node < p.node ∨ p.node = q.node ∧ p.transaction < q.transaction := by
  simp [isAfter]

namespace Version

def After (v w : Version) : Prop := v.position.isAfter w.position = true

theorem after_iff {v w : Version} :
    v.After w ↔ w.node < v.node ∨ v.node = w.node ∧ v.transaction < w.transaction :=
  Position.isAfter_iff

theorem After.node_le {v w : Version} (h : v.After w) : w.node ≤ v.node := by
  rcases after_iff.1 h with h | ⟨h, -⟩
  · exact Int64.le_of_lt h
  · exact h ▸ Int64.le_refl _

abbrev ReadOrder (l : List Version) : Prop := l.Pairwise fun v w => w.After v

theorem ReadOrder.asymm {v w : Version} (h : w.After v) : ¬ v.After w :=
  Position.not_isAfter_of_isAfter h

end Version

open Version (ReadOrder)

namespace Selection

/-! ## One pass -/

/-- The versions that a pass takes which took transaction `last` before. -/
def current (last : TransactionId) : List Version → List Version
  | [] => []
  | v :: rest =>
    if v.transaction < last then current last rest else v :: current v.transaction rest

def lastTaken (last : TransactionId) (l : List Version) : TransactionId :=
  ((current last l).getLast?.map (·.transaction)).getD last

theorem mem_of_mem_current {last : TransactionId} {l : List Version} {v : Version}
    (h : v ∈ current last l) : v ∈ l ∧ last ≤ v.transaction := by
  induction l generalizing last with
  | nil => cases h
  | cons u us ih =>
    unfold current at h
    split at h
    · exact ⟨List.mem_cons_of_mem _ (ih h).1, (ih h).2⟩
    · next hu =>
      rw [Int64.not_lt] at hu
      rcases List.mem_cons.1 h with rfl | h
      · exact ⟨List.mem_cons_self .., hu⟩
      · exact ⟨List.mem_cons_of_mem _ (ih h).1, Int64.le_trans hu (ih h).2⟩

/-- In read order a pass takes exactly the versions with no larger transaction at their node or
before. -/
theorem mem_current_iff {last : TransactionId} {l : List Version} (hl : ReadOrder l) {v : Version} :
    v ∈ current last l ↔ v ∈ l ∧ last ≤ v.transaction ∧
      ∀ w ∈ l, w.node ≤ v.node → w.transaction ≤ v.transaction := by
  induction l generalizing last with
  | nil => simp [current]
  | cons u us ih =>
    obtain ⟨hu, hus⟩ := List.pairwise_cons.1 hl
    unfold current
    split
    · next hlt =>
      rw [ih hus]
      constructor
      · intro h
        obtain ⟨hv, hlast, hmax⟩ := h
        refine ⟨List.mem_cons_of_mem _ hv, hlast, ?_⟩
        intro w hw hn
        rcases List.mem_cons.1 hw with rfl | hw
        · exact Int64.le_of_lt (Int64.lt_of_lt_of_le hlt hlast)
        · exact hmax w hw hn
      · intro h
        obtain ⟨hv, hlast, hmax⟩ := h
        rcases List.mem_cons.1 hv with rfl | hv
        · exact absurd hlt (Int64.not_lt.2 hlast)
        · exact ⟨hv, hlast, fun w hw => hmax w (List.mem_cons_of_mem _ hw)⟩
    · next hge =>
      rw [Int64.not_lt] at hge
      rw [List.mem_cons, ih hus]
      constructor
      · intro h
        rcases h with rfl | ⟨hv, hlast, hmax⟩
        · refine ⟨List.mem_cons_self .., hge, ?_⟩
          intro w hw hn
          rcases List.mem_cons.1 hw with rfl | hw
          · exact Int64.le_refl _
          · rcases Version.after_iff.1 (hu w hw) with h | ⟨-, h⟩
            · exact absurd h (Int64.not_lt.2 hn)
            · exact Int64.le_of_lt h
        · refine ⟨List.mem_cons_of_mem _ hv, Int64.le_trans hge hlast, ?_⟩
          intro w hw hn
          rcases List.mem_cons.1 hw with rfl | hw
          · exact hlast
          · exact hmax w hw hn
      · intro h
        obtain ⟨hv, -, hmax⟩ := h
        rcases List.mem_cons.1 hv with rfl | hv
        · exact .inl rfl
        · exact .inr ⟨hv, hmax u (List.mem_cons_self ..) (hu v hv).node_le,
            fun w hw => hmax w (List.mem_cons_of_mem _ hw)⟩

theorem current_ascending {last : TransactionId} {l : List Version} (hl : ReadOrder l) :
    (current last l).Pairwise fun v w => v.node < w.node := by
  induction l generalizing last with
  | nil => exact List.Pairwise.nil
  | cons u us ih =>
    obtain ⟨hu, hus⟩ := List.pairwise_cons.1 hl
    unfold current
    split
    · exact ih hus
    · refine List.pairwise_cons.2 ⟨?_, ih hus⟩
      intro v hv
      obtain ⟨hv, hle⟩ := mem_of_mem_current hv
      rcases Version.after_iff.1 (hu v hv) with h | ⟨-, h⟩
      · exact h
      · exact absurd h (Int64.not_lt.2 hle)

theorem lastTaken_cons_of_lt {last : TransactionId} {v : Version} (h : v.transaction < last)
    (l : List Version) : lastTaken last (v :: l) = lastTaken last l := by
  simp only [lastTaken, current, if_pos h]

theorem lastTaken_cons_of_not_lt {last : TransactionId} {v : Version} (h : ¬ v.transaction < last)
    (l : List Version) : lastTaken last (v :: l) = lastTaken v.transaction l := by
  simp only [lastTaken, current, if_neg h, List.getLast?_cons]
  cases (current v.transaction l).getLast? <;> rfl

/-- A pass over two listings is a pass over the first, and then one over the second. -/
theorem current_append (last : TransactionId) (l m : List Version) :
    current last (l ++ m) = current last l ++ current (lastTaken last l) m := by
  induction l generalizing last with
  | nil => rfl
  | cons v l ih =>
    rw [List.cons_append]
    by_cases h : v.transaction < last
    · rw [current, current, if_pos h, if_pos h, ih, lastTaken_cons_of_lt h]
    · rw [current, current, if_neg h, if_neg h, ih, lastTaken_cons_of_not_lt h, List.cons_append]

/-- Behind the `k`-th version that a pass takes stand those of later nodes. -/
theorem mem_drop_iff {c : List Version} (hc : c.Pairwise fun v w => v.node < w.node) {k : Nat}
    {v w : Version} (hv : (c.take k).getLast? = some v) :
    w ∈ c.drop k ↔ w ∈ c ∧ v.node < w.node := by
  rw [← List.take_append_drop k c, List.pairwise_append] at hc
  obtain ⟨htake, -, hcross⟩ := hc
  constructor
  · intro hw
    exact ⟨List.mem_of_mem_drop hw, hcross v (List.mem_of_getLast? hv) w hw⟩
  · intro h
    obtain ⟨hw, hlt⟩ := h
    rw [← List.take_append_drop k c, List.mem_append] at hw
    refine hw.resolve_left fun hw => ?_
    obtain ⟨front, hfront⟩ := List.getLast?_eq_some_iff.1 hv
    rw [hfront, List.pairwise_append] at htake
    rw [hfront, List.mem_append, List.mem_singleton] at hw
    rcases hw with hw | rfl
    · exact Int64.lt_asymm hlt (htake.2.2 w hw v (List.mem_singleton_self v))
    · exact Int64.lt_irrefl hlt

/-- What is left to take after the first versions is what a pass takes that resumes behind them. -/
theorem current_drop {last : TransactionId} {l : List Version} (hl : ReadOrder l) {k : Nat}
    {v : Version} (hv : ((current last l).take k).getLast? = some v) :
    current v.transaction (l.filter fun w => v.node < w.node) = (current last l).drop k := by
  have hasc : (current last l).Pairwise fun v w => v.node < w.node := current_ascending hl
  have hrest : ReadOrder (l.filter fun w => v.node < w.node) := hl.filter _
  have hcur := (mem_current_iff hl).1 (List.mem_of_mem_take (List.mem_of_getLast? hv))
  apply eq_of_sorted (fun a b => Int64.lt_asymm) (current_ascending hrest)
    (hasc.sublist (List.drop_sublist k _))
  intro w
  rw [mem_current_iff hrest, mem_drop_iff hasc hv, mem_current_iff hl]
  simp only [List.mem_filter, decide_eq_true_eq]
  constructor
  · intro h
    obtain ⟨⟨hw, hlt⟩, hle, hmax⟩ := h
    refine ⟨⟨hw, Int64.le_trans hcur.2.1 hle, ?_⟩, hlt⟩
    intro u hu hn
    -- what is not behind `v` does not exceed it, because `v` is current
    by_cases hvu : v.node < u.node
    · exact hmax u ⟨hu, hvu⟩ hn
    · exact Int64.le_trans (hcur.2.2 u hu (Int64.not_lt.1 hvu)) hle
  · intro h
    obtain ⟨⟨hw, hle, hmax⟩, hlt⟩ := h
    exact ⟨⟨hw, hlt⟩, hmax v hcur.1 (Int64.le_of_lt hlt), fun u hu => hmax u hu.1⟩

end Selection

/-! ## Spans that follow each other -/

namespace Lineage

/-- Each span ends before the later ones start. -/
abbrev Ordered (spans : List Span) : Prop := spans.Pairwise fun s t => s.stop ≤ t.start

theorem Follows.le_start {start : NodeId} {spans : List Span} (h : Follows start spans) :
    ∀ s ∈ spans, start ≤ s.start := by
  induction spans generalizing start with
  | nil =>
    intro s hs
    cases hs
  | cons s rest ih =>
    obtain ⟨rfl, hlt, hrest⟩ := h
    intro t ht
    rcases List.mem_cons.1 ht with rfl | ht
    · exact Int64.le_refl _
    · exact Int64.le_trans (Int64.le_of_lt hlt) (ih hrest t ht)

theorem Follows.start_lt_stop {start : NodeId} {spans : List Span} (h : Follows start spans) :
    ∀ s ∈ spans, s.start < s.stop := by
  induction spans generalizing start with
  | nil =>
    intro s hs
    cases hs
  | cons s rest ih =>
    intro t ht
    rcases List.mem_cons.1 ht with rfl | ht
    · exact h.2.1
    · exact ih h.2.2 t ht

theorem Follows.ordered {start : NodeId} {spans : List Span} (h : Follows start spans) :
    Ordered spans := by
  induction spans generalizing start with
  | nil => exact List.Pairwise.nil
  | cons s rest ih => exact List.pairwise_cons.2 ⟨h.2.2.le_start, ih h.2.2⟩

theorem stop_append (spans : List Span) (s : Span) : stop (spans ++ [s]) = s.stop := by
  simp [stop]

theorem Follows.stop_le {start : NodeId} {spans : List Span} (h : Follows start spans) {s : Span}
    (hs : s ∈ spans) : s.stop ≤ stop spans := by
  rcases List.eq_nil_or_concat spans with rfl | ⟨front, last, rfl⟩
  · cases hs
  · rw [List.concat_eq_append] at h hs ⊢
    rw [stop_append]
    rcases List.mem_append.1 hs with hs | hs
    · have hlast := List.mem_singleton_self last
      exact Int64.le_trans ((List.pairwise_append.1 h.ordered).2.2 s hs last hlast)
        (Int64.le_of_lt (h.start_lt_stop last (List.mem_append_right _ hlast)))
    · rw [List.mem_singleton.1 hs]
      exact Int64.le_refl _

end Lineage

/-- The stretches of a branch with a proper lineage follow each other. -/
theorem Token.spans_ordered {t : Token} (h : Lineage.Follows firstEvent t.lineage) :
    Lineage.Ordered t.spans := by
  refine List.pairwise_append.2 ⟨h.ordered, List.pairwise_singleton .., ?_⟩
  intro s hs o ho
  rw [List.mem_singleton.1 ho]
  exact h.stop_le hs

theorem Span.clip_bounds {s c : Span} {min max : NodeId} (h : s.clip min max = some c) :
    s.start ≤ c.start ∧ c.stop ≤ s.stop := by
  simp only [clip, Option.ite_none_left_eq_some, Option.some.injEq] at h
  obtain ⟨-, rfl⟩ := h
  dsimp only
  constructor
  · split
    · next hlt => exact Int64.le_of_lt hlt
    · exact Int64.le_refl _
  · split
    · next hlt => exact Int64.le_of_lt hlt
    · exact Int64.le_refl _

theorem Plan.window_ordered {t : Token} (h : Lineage.Follows firstEvent t.lineage)
    (min max : NodeId) : Lineage.Ordered (Plan.window t min max).spans := by
  refine List.Pairwise.filterMap _ ?_ (Token.spans_ordered h)
  intro s u hsu c hc d hd
  exact Int64.le_trans (Span.clip_bounds hc).2 (Int64.le_trans hsu (Span.clip_bounds hd).1)

/-! ## What is stored along spans -/

namespace Tables

/-- What is stored on the nodes of a branch from `start` on and before `stop`. -/
def listing (ts : Tables) (t : TreeId) (b : BranchId) (start stop : NodeId) : List Version :=
  ((ts.nodesOf t b).restrict fun n => start ≤ n && n < stop).toList

/-- What is stored along spans, one span after the other. -/
def along (ts : Tables) (t : TreeId) (spans : List Span) : List Version :=
  spans.flatMap fun s => ts.listing t s.owner s.start s.stop

/-- The version is stored on a node of one of the spans. -/
def Covers (ts : Tables) (t : TreeId) (spans : List Span) (v : Version) : Prop :=
  ∃ s ∈ spans, v.node ∈ s ∧ ts.version? t s.owner v.node v.transaction = some v

theorem mem_listing_iff {ts : Tables} {t : TreeId} {b : BranchId} {start stop : NodeId}
    {v : Version} : v ∈ ts.listing t b start stop ↔
      (start ≤ v.node ∧ v.node < stop) ∧ ts.version? t b v.node v.transaction = some v := by
  rw [listing, Nodes.toList_restrict, List.mem_filter, Nodes.mem_toList_iff, Bool.and_eq_true,
    decide_eq_true_eq, decide_eq_true_eq]
  exact and_comm

theorem listing_readOrder (ts : Tables) (t : TreeId) (b : BranchId) (start stop : NodeId) :
    ReadOrder (ts.listing t b start stop) :=
  Nodes.toList_ascending _

theorem mem_along_iff {ts : Tables} {t : TreeId} {spans : List Span} {v : Version} :
    v ∈ ts.along t spans ↔ ts.Covers t spans v := by
  simp only [along, Covers, List.mem_flatMap, mem_listing_iff, Span.mem_def]

theorem along_cons (ts : Tables) (t : TreeId) (s : Span) (rest : List Span) :
    ts.along t (s :: rest) = ts.listing t s.owner s.start s.stop ++ ts.along t rest := rfl

theorem along_append (ts : Tables) (t : TreeId) (spans more : List Span) :
    ts.along t (spans ++ more) = ts.along t spans ++ ts.along t more :=
  List.flatMap_append

/-- What is stored along a span comes before what is stored along the spans after it. -/
theorem node_lt_of_along {ts : Tables} {t : TreeId} {s : Span} {rest : List Span}
    (h : ∀ u ∈ rest, s.stop ≤ u.start) {v w : Version} (hv : v.node < s.stop)
    (hw : w ∈ ts.along t rest) : v.node < w.node := by
  obtain ⟨u, hu, hn, -⟩ := mem_along_iff.1 hw
  exact Int64.lt_of_lt_of_le hv (Int64.le_trans (h u hu) hn.1)

theorem along_readOrder (ts : Tables) (t : TreeId) {spans : List Span}
    (h : Lineage.Ordered spans) : ReadOrder (ts.along t spans) := by
  induction spans with
  | nil => exact List.Pairwise.nil
  | cons s rest ih =>
    obtain ⟨hs, hrest⟩ := List.pairwise_cons.1 h
    refine List.pairwise_append.2 ⟨listing_readOrder .., ih hrest, ?_⟩
    intro v hv w hw
    exact Version.after_iff.2 (.inl (node_lt_of_along hs (mem_listing_iff.1 hv).1.2 hw))

/-! ## What a plan shows -/

/-- The versions that a read of the plan shows. -/
def history (ts : Tables) (p : Plan) : List Version :=
  Selection.current noTransaction (ts.along p.tree p.spans)

/-- The version is stored on a node of the branch inside the window. -/
def Holds (ts : Tables) (t : Token) (min max : NodeId) (v : Version) : Prop :=
  ts.Covers t.tree t.spans v ∧ min ≤ v.node ∧ v.node < max

/-- The version is what a read of the branch has to show of its node: inside the window no version
of the branch at that node or before it carries a larger transaction. -/
def Shows (ts : Tables) (t : Token) (min max : NodeId) (v : Version) : Prop :=
  ts.Holds t min max v ∧ noTransaction ≤ v.transaction ∧
    ∀ w, ts.Holds t min max w → w.node ≤ v.node → w.transaction ≤ v.transaction

theorem covers_window_iff {ts : Tables} {t : Token} {min max : NodeId} {v : Version} :
    ts.Covers t.tree (Plan.window t min max).spans v ↔ ts.Holds t min max v := by
  simp only [Covers, Holds, Plan.window, List.mem_filterMap]
  constructor
  · intro h
    obtain ⟨c, ⟨s, hs, hc⟩, hn, hv⟩ := h
    obtain ⟨howner, hmem⟩ := Span.clip_eq_some hc
    exact ⟨⟨s, hs, ((hmem _).1 hn).1, howner ▸ hv⟩, ((hmem _).1 hn).2⟩
  · intro h
    obtain ⟨⟨s, hs, hn, hv⟩, hwindow⟩ := h
    obtain ⟨c, hc, hnc⟩ := Span.mem_clip.2 ⟨hn, hwindow⟩
    exact ⟨c, ⟨s, hs, hc⟩, hnc, (Span.clip_eq_some hc).1 ▸ hv⟩

theorem mem_history_iff {ts : Tables} {t : Token} (h : Lineage.Follows firstEvent t.lineage)
    {min max : NodeId} {v : Version} :
    v ∈ ts.history (.window t min max) ↔ ts.Shows t min max v := by
  have hcovers : ∀ w, ts.Covers (Plan.window t min max).tree (Plan.window t min max).spans w ↔
      ts.Holds t min max w := fun _ => covers_window_iff
  rw [history, Selection.mem_current_iff (along_readOrder _ _ (Plan.window_ordered h min max))]
  simp only [mem_along_iff, hcovers]
  rw [Shows]

theorem history_ascending {ts : Tables} {t : Token} (h : Lineage.Follows firstEvent t.lineage)
    (min max : NodeId) :
    (ts.history (.window t min max)).Pairwise fun v w => v.node < w.node :=
  Selection.current_ascending (along_readOrder _ _ (Plan.window_ordered h min max))

/-- A history is known by what is stored on the nodes of the branch inside the window. -/
theorem history_congr {ts us : Tables} {t q : Token} (h : Lineage.Follows firstEvent t.lineage)
    (hq : Lineage.Follows firstEvent q.lineage) {min max min' max' : NodeId}
    (hholds : ∀ v, us.Holds q min' max' v ↔ ts.Holds t min max v) :
    us.history (.window q min' max') = ts.history (.window t min max) := by
  refine eq_of_sorted (fun _ _ => Int64.lt_asymm) (history_ascending hq _ _)
    (history_ascending h _ _) fun v => ?_
  simp only [mem_history_iff hq, mem_history_iff h, Shows, hholds]

end Tables

/-! ## A branch and its fork

Contents to try things out on: the nodes 2 and 3 of a branch were written anew after node 2 had been
forked off. -/
namespace Forked

def tree : TreeId := ⟨1⟩
def root : Token := ⟨"", "", "", tree, ⟨2⟩, [], .unset⟩
def fork : Token := ⟨"", "", "", tree, ⟨3⟩, root.lineageAt 2, .unset⟩

def bytes (t : Token) : Bytes := Token.formatVersion :: t.writeBody

def row (t : Token) : BranchRow := ⟨t, "", 0⟩

def store (t : Token) (vs : List Version) (ts : Tables) : Tables :=
  vs.foldl (fun ts v => (ts.insertVersion t.tree t.branch v).2) ts

def tables : Tables :=
  store fork [⟨2, 9, 5, [4]⟩, ⟨4, 10, 9, [5]⟩]
    (store root [⟨1, 5, 0, [1]⟩, ⟨2, 6, 5, [2]⟩, ⟨3, 7, 6, [3]⟩, ⟨2, 8, 5, [6]⟩]
      ((Tables.empty.upsertRow (row root)).upsertRow (row fork)))

theorem fork_lineage : Lineage.check fork.lineage = .ok () := rfl

end Forked

example : Forked.tables.history (.window Forked.root 1 nodeLimit) =
    [⟨1, 5, 0, [1]⟩, ⟨2, 8, 5, [6]⟩] := by decide +kernel

end Chronicle
