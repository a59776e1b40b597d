import Chronicle.Proofs.Family

/-!
# Who owns a node

The stretches of a branch follow each other from the first node on, without a gap. So a node lies in
exactly one of them, and the branch that owns this one is the branch whose versions of the node are
read. Neither a window nor a fork changes the owner of a node that it leaves.

* `Lineage.Follows.countP_contains`: in how many spans of a lineage a node lies.
* `Lineage.Owns`: whose a node is. `Plan.owns_window`: in a window; `Token.owns_lineageAt`: forked.
* `Token.nodes_owned_once`: the result.
-/
namespace Chronicle

namespace Lineage

/-- One of the spans is a stretch of branch `b`, and node `n` lies in it. -/
def Owns (spans : List Span) (b : BranchId) (n : NodeId) : Prop :=
  ∃ s ∈ spans, s.owner = b ∧ n ∈ s

instance (spans : List Span) (b : BranchId) (n : NodeId) : Decidable (Owns spans b n) :=
  inferInstanceAs (Decidable (∃ s ∈ spans, s.owner = b ∧ s.start ≤ n ∧ n < s.stop))

theorem Follows.le_stopFrom {start : NodeId} {spans : List Span} (h : Follows start spans) :
    start ≤ stopFrom start spans := by
  induction spans generalizing start with
  | nil => exact Int64.le_refl _
  | cons s rest ih =>
    obtain ⟨rfl, hs, hrest⟩ := h
    rw [stopFrom_cons]
    exact Int64.le_trans (Int64.le_of_lt hs) (ih hrest)

/-- A node between the ends of spans that follow each other lies in one of them, and no other node
lies in any. -/
theorem Follows.countP_contains {start : NodeId} {spans : List Span} (h : Follows start spans)
    (n : NodeId) :
    spans.countP (·.contains n) = if start ≤ n ∧ n < stopFrom start spans then 1 else 0 := by
  induction spans generalizing start with
  | nil => exact (if_neg fun hn => Int64.not_lt.2 hn.1 hn.2).symm
  | cons s rest ih =>
    obtain ⟨rfl, hs, hrest⟩ := h
    have hstop := hrest.le_stopFrom
    rw [List.countP_cons, ih hrest, stopFrom_cons]
    simp only [Span.contains_iff, Span.mem_def]
    simp only [Int64.lt_iff_toInt_lt, Int64.le_iff_toInt_le] at hs hstop ⊢
    split <;> split <;> split <;> omega

end Lineage

namespace Token

variable {t : Token}

/-- A node lies in one stretch of a branch, if it is a node at all. -/
theorem countP_spans (h : Lineage.Follows firstEvent t.lineage) (n : NodeId) :
    t.spans.countP (·.contains n) = if firstEvent ≤ n ∧ n < nodeLimit then 1 else 0 := by
  have hstart : firstEvent ≤ t.ownStart := h.le_stopFrom
  have hlimit := le_nodeLimit t.ownStart
  rw [spans, List.countP_append, List.countP_singleton, h.countP_contains,
    show Lineage.stopFrom firstEvent t.lineage = t.ownStart from rfl]
  simp only [Span.contains_iff, Span.mem_def, ownSpan]
  simp only [Int64.lt_iff_toInt_lt, Int64.le_iff_toInt_le] at hstart hlimit ⊢
  split <;> split <;> split <;> omega

/-- A fork has one stretch more than its source, or less than that. -/
theorem length_lineageAt_le (t : Token) (node : NodeId) :
    (t.lineageAt node).length ≤ t.lineage.length + 1 := by
  unfold lineageAt Lineage.upTo
  split
  · rw [List.length_map]
    exact Nat.le_succ_of_le (List.takeWhile_prefix _).length_le
  · rw [List.length_append]
    exact Nat.le_refl _

/-- What a fork inherits has the owners that it has in the source. -/
theorem owns_lineageAt (h : Lineage.Follows firstEvent t.lineage) (node : NodeId) (b : BranchId)
    (n : NodeId) :
    Lineage.Owns (t.lineageAt node) b n ↔ Lineage.Owns t.spans b n ∧ n < node := by
  rw [lineageAt_eq_cut h]
  exact Lineage.mem_cut_iff (spans_starts h)

theorem getLast?_lineageAt (h : Lineage.Follows firstEvent t.lineage) {node : NodeId}
    (hnode : firstEvent < node) :
    ∃ last, (t.lineageAt node).getLast? = some last ∧ last.stop = node := by
  have hstop := stop_lineageAt h hnode
  unfold Lineage.stop at hstop
  cases hlast : (t.lineageAt node).getLast? with
  | none =>
    rw [hlast] at hstop
    exact absurd hnode (hstop ▸ Int64.lt_irrefl)
  | some last =>
    rw [hlast] at hstop
    exact ⟨last, rfl, hstop⟩

end Token

namespace Plan

/-- A node inside a window lies in as many spans of the window as of the branch, and a node outside
lies in none. -/
theorem countP_window (t : Token) (min max n : NodeId) :
    (window t min max).spans.countP (·.contains n) =
      if min ≤ n ∧ n < max then t.spans.countP (·.contains n) else 0 := by
  have hclip : ∀ s : Span, ((s.clip min max).any (·.contains n)) = true ↔
      s.contains n = true ∧ min ≤ n ∧ n < max := by
    intro s
    simp only [Option.any_eq_true, Span.contains_iff, Span.mem_clip]
  have hcount : (window t min max).spans.countP (·.contains n) =
      t.spans.countP fun s => (s.clip min max).any (·.contains n) := by
    rw [window, List.countP_filterMap]
    refine List.countP_congr fun s _ => ?_
    cases s.clip min max <;> exact Iff.rfl
  rw [hcount]
  split
  · next hn => exact List.countP_congr fun s _ => (hclip s).trans (and_iff_left hn)
  · next hn => exact List.countP_eq_zero.2 fun s _ h => hn ((hclip s).1 h).2

theorem owns_window (t : Token) (min max : NodeId) (b : BranchId) (n : NodeId) :
    Lineage.Owns (window t min max).spans b n ↔
      Lineage.Owns t.spans b n ∧ min ≤ n ∧ n < max := by
  simp only [Lineage.Owns, window, List.mem_filterMap]
  constructor
  · intro h
    obtain ⟨c, ⟨s, hs, hc⟩, hb, hn⟩ := h
    obtain ⟨howner, hmem⟩ := Span.clip_eq_some hc
    exact ⟨⟨s, hs, howner ▸ hb, ((hmem n).1 hn).1⟩, ((hmem n).1 hn).2⟩
  · intro h
    obtain ⟨⟨s, hs, hb, hn⟩, hwindow⟩ := h
    obtain ⟨c, hc, hmem⟩ := Span.mem_clip.2 ⟨hn, hwindow⟩
    exact ⟨c, ⟨s, hs, hc⟩, (Span.clip_eq_some hc).1.trans hb, hmem⟩

end Plan

/-- Every node of a branch lies in one of its stretches and in no other. A window leaves every node
inside it to its owner, and no other node. A fork behind the first node has a proper lineage, one
span longer than the lineage of its source at most, that ends at the fork; each node before the fork
lies in one of its spans, with the owner that the source has for it. -/
theorem Token.nodes_owned_once {t : Token} (h : Lineage.check t.lineage = .ok ()) :
    (∀ n, firstEvent ≤ n → n < nodeLimit → t.spans.countP (·.contains n) = 1) ∧
    (∀ min max n, firstEvent ≤ n → n < nodeLimit →
      (Plan.window t min max).spans.countP (·.contains n) =
        if min ≤ n ∧ n < max then 1 else 0) ∧
    (∀ min max b n, Lineage.Owns (Plan.window t min max).spans b n ↔
      Lineage.Owns t.spans b n ∧ min ≤ n ∧ n < max) ∧
    ∀ node, firstEvent < node →
      Lineage.check (t.lineageAt node) = .ok () ∧
      (∃ last, (t.lineageAt node).getLast? = some last ∧ last.stop = node) ∧
      (t.lineageAt node).length ≤ t.lineage.length + 1 ∧
      (∀ n, firstEvent ≤ n → n < node → (t.lineageAt node).countP (·.contains n) = 1) ∧
      ∀ b n, Lineage.Owns (t.lineageAt node) b n ↔ Lineage.Owns t.spans b n ∧ n < node := by
  have hfollows := Lineage.check_eq_ok_iff.1 h
  have honce : ∀ n, firstEvent ≤ n → n < nodeLimit → t.spans.countP (·.contains n) = 1 :=
    fun n hfirst hlimit => (Token.countP_spans hfollows n).trans (if_pos ⟨hfirst, hlimit⟩)
  refine ⟨honce, ?_, Plan.owns_window t, ?_⟩
  · intro min max n hfirst hlimit
    rw [Plan.countP_window, honce n hfirst hlimit]
  · intro node hnode
    have hfork := Token.lineageAt_follows hfollows node
    refine ⟨Lineage.check_eq_ok_iff.2 hfork, Token.getLast?_lineageAt hfollows hnode,
      t.length_lineageAt_le node, ?_, Token.owns_lineageAt hfollows node⟩
    intro n hfirst hn
    have hstop : Lineage.stopFrom firstEvent (t.lineageAt node) = node :=
      Token.stop_lineageAt hfollows hnode
    rw [hfork.countP_contains, hstop, if_pos ⟨hfirst, hn⟩]

/-- A branch that inherits from two others, forked inside the nodes of the second. -/
theorem Token.nodes_owned_once_third :
    ∃ t : Token, t.lineage = [⟨⟨1⟩, 1, 4⟩, ⟨⟨2⟩, 4, 9⟩] ∧
      t.lineageAt 6 = [⟨⟨1⟩, 1, 4⟩, ⟨⟨2⟩, 4, 6⟩] ∧
      Lineage.Owns t.spans ⟨2⟩ 5 ∧ Lineage.Owns (t.lineageAt 6) ⟨2⟩ 5 ∧
      (Plan.window t 2 5).spans.countP (·.contains 4) = 1 := by
  let t : Token := ⟨"", "", "", ⟨0⟩, ⟨3⟩, [⟨⟨1⟩, 1, 4⟩, ⟨⟨2⟩, 4, 9⟩],
    Retention.unset⟩
  have h := Token.nodes_owned_once (show Lineage.check t.lineage = .ok () from rfl)
  have howns : Lineage.Owns t.spans ⟨2⟩ 5 := by decide
  refine ⟨t, rfl, by decide, howns, ?_, ?_⟩
  · exact ((h.2.2.2 6 (by decide)).2.2.2.2 ⟨2⟩ 5).2 ⟨howns, by decide⟩
  · exact h.2.1 2 5 4 (by decide) (by decide)

end Chronicle
