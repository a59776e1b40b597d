import Chronicle.Token
import Chronicle.Wire.RoundTrip
import Chronicle.Proofs.Current

/-!
# Families of tokens

The tokens of the branches that are forked from each other belong together: the spans before a span
of a lineage are the lineage of the span's owner. So two branches that inherit from the same branch
inherit the same nodes before it.

* `Token.decode_encode`: what is written as a token is read back.
* `Token.lineageAt_eq_cut`: a fork inherits the spans of its source, cut at the fork.
* `Family`: the tokens of a store. `Family.root` and `Family.fork` add one.
-/
namespace Chronicle

/-! ## The written form is read back -/

theorem Duration.reads (d : Duration) : Wire.Reads Duration.read d.write d :=
  (Wire.reads_uint64 _).bind ((Wire.reads_uint32 _).bind_pure (by rw [Duration.ofParts?_self]))

theorem Retention.reads (r : Retention) : Wire.Reads Retention.read r.write r := by
  unfold Retention.write
  rw [List.append_assoc]
  exact (Wire.reads_option fun d _ => d.reads).bind ((Wire.reads_option fun d _ => d.reads).bind
    ((Wire.reads_option fun d _ => d.reads).bind_pure rfl))

namespace Token

theorem reads_span (s : Span) : Wire.Reads readSpan (writeSpan s) s := by
  unfold writeSpan
  rw [List.append_assoc]
  exact (Wire.reads_id _).bind ((Wire.reads_int64 _).bind ((Wire.reads_int64 _).bind_pure rfl))

theorem length_writeText (s : String) :
    (Wire.writeText s).length = 8 + (Utf8.encode s).length := by
  simp [Wire.writeText, Wire.writeBlock, Wire.writeCount]

theorem length_le_writeLineage (spans : List Span) :
    spans.length ≤ (Wire.writeList writeSpan spans).length := by
  unfold Wire.writeList
  rw [List.length_append]
  induction spans with
  | nil => exact Nat.zero_le _
  | cons s rest ih =>
    simp [writeSpan, Wire.writeId, Wire.writeBlock, Wire.writeCount] at ih ⊢
    omega

theorem reads_body {t : Token} (h : t.writeBody.length < UInt64.size) :
    Wire.Reads readBody t.writeBody t := by
  have hspans := length_le_writeLineage t.lineage
  have h1 := length_writeText t.namespaceId
  have h2 := length_writeText t.workflowId
  have h3 := length_writeText t.runId
  unfold writeBody at h ⊢
  simp only [List.length_append] at h
  simp only [List.append_assoc]
  exact (Wire.reads_text (by omega)).bind ((Wire.reads_text (by omega)).bind
    ((Wire.reads_text (by omega)).bind ((Wire.reads_id _).bind ((Wire.reads_id _).bind
      ((Wire.reads_list (by omega) fun s _ => reads_span s).bind
        (t.retention.reads.bind_pure rfl))))))

/-- Exactly a version byte, a body and a proper lineage make a token. -/
theorem decode_eq_ok_iff {bytes : Bytes} {t : Token} :
    decode bytes = .ok t ↔ ∃ body, bytes = formatVersion :: body ∧ readBody.whole body = .ok t ∧
      Lineage.Follows firstEvent t.lineage := by
  cases bytes with
  | nil => exact iff_of_false nofun nofun
  | cons version body =>
    simp only [List.cons.injEq, ← Lineage.check_eq_ok_iff]
    rw [decode]
    split
    · next hversion => exact iff_of_false nofun fun ⟨_, h, _⟩ => hversion h.1
    next hversion =>
    simp only [Decidable.not_not.1 hversion, true_and, exists_eq_left']
    cases hbody : readBody.whole body with
    | error fault => exact iff_of_false nofun nofun
    | ok u =>
      dsimp only
      cases hcheck : Lineage.check u.lineage with
      | error fault =>
        refine iff_of_false nofun fun h => ?_
        cases h.1
        rw [hcheck] at h
        cases h.2
      | ok _ =>
        simp only [Except.ok.injEq]
        constructor
        · intro h
          exact ⟨h, h ▸ hcheck⟩
        · intro h
          exact h.1

theorem encode_eq (t : Token) : t.encode =
    if t.writeBody.length ≤ bodyLimit then .ok (formatVersion :: t.writeBody)
    else .error .oversized := rfl

/-- The version byte and the body of a token with a proper lineage are read back as that token,
also when they are longer than what is written. -/
theorem decode_written {t : Token} (h : t.writeBody.length < UInt64.size)
    (hlineage : Lineage.Follows firstEvent t.lineage) :
    decode (formatVersion :: t.writeBody) = .ok t :=
  decode_eq_ok_iff.2 ⟨_, rfl, (reads_body h).whole, hlineage⟩

/-- What is written as a token with a proper lineage is read back as that token. -/
theorem decode_encode {t : Token} {bytes : Bytes} (h : t.encode = .ok bytes)
    (hlineage : Lineage.Follows firstEvent t.lineage) : decode bytes = .ok t := by
  rw [encode_eq] at h
  split at h
  · next hlen =>
    cases h
    exact decode_written (Nat.lt_of_le_of_lt hlen (by decide)) hlineage
  · cases h

end Token

/-! ## Cutting spans -/

namespace Lineage

/-- The part of spans before `node`. -/
def cut (node : NodeId) (spans : List Span) : List Span :=
  (spans.takeWhile (fun s => s.start < node)).map fun s =>
    { s with stop := if node < s.stop then node else s.stop }

theorem cut_cons_of_lt {node : NodeId} {s : Span} (h : s.start < node) (rest : List Span) :
    cut node (s :: rest) =
      { s with stop := if node < s.stop then node else s.stop } :: cut node rest := by
  simp only [cut, List.takeWhile_cons, h, decide_true, if_true, List.map_cons]

theorem cut_cons_of_le {node : NodeId} {s : Span} (h : node ≤ s.start) (rest : List Span) :
    cut node (s :: rest) = [] := by
  simp only [cut, List.takeWhile_cons, Int64.not_lt.2 h, decide_false, Bool.false_eq_true, if_false,
    List.map_nil]

theorem cut_eq_append {node : NodeId} {spans front back : List Span} {s : Span}
    (hspans : Ordered spans) (h : cut node spans = front ++ s :: back) :
    ∃ o rest, spans = front ++ o :: rest ∧ o.owner = s.owner := by
  induction front generalizing spans with
  | nil =>
    cases spans with
    | nil => cases h
    | cons o rest =>
      by_cases ho : o.start < node
      · rw [cut_cons_of_lt ho] at h
        cases h
        exact ⟨o, rest, rfl, rfl⟩
      · rw [cut_cons_of_le (Int64.not_lt.1 ho)] at h
        cases h
  | cons f front ih =>
    cases spans with
    | nil => cases h
    | cons o rest =>
      obtain ⟨ho, hrest⟩ := List.pairwise_cons.1 hspans
      by_cases hlt : o.start < node
      · rw [cut_cons_of_lt hlt] at h
        rw [List.cons_append] at h
        obtain ⟨hf, h⟩ := List.cons.inj h
        obtain ⟨p, more, rfl, howner⟩ := ih hrest h
        refine ⟨p, more, ?_, howner⟩
        -- a later span is left, so this one ends before the cut
        have hstop : ¬ node < o.stop := by
          intro hnode
          cases hm : front ++ p :: more with
          | nil => simp at hm
          | cons r rs =>
            have hr := ho r (hm ▸ List.mem_cons_self ..)
            rw [hm, cut_cons_of_le (Int64.le_trans (Int64.le_of_lt hnode) hr)] at h
            simp at h
        rw [← hf, if_neg hstop]
        rfl
      · rw [cut_cons_of_le (Int64.not_lt.1 hlt)] at h
        cases h

/-- A node belongs to the part before `node` if it belongs to the spans and comes before `node`. -/
theorem mem_cut_iff {node n : NodeId} {b : BranchId} {spans : List Span}
    (hspans : spans.Pairwise fun s t => s.start ≤ t.start) :
    (∃ s ∈ cut node spans, s.owner = b ∧ n ∈ s) ↔
      (∃ s ∈ spans, s.owner = b ∧ n ∈ s) ∧ n < node := by
  induction spans with
  | nil => simp [cut]
  | cons s rest ih =>
    obtain ⟨hs, hrest⟩ := List.pairwise_cons.1 hspans
    by_cases hlt : s.start < node
    · rw [cut_cons_of_lt hlt]
      simp only [List.mem_cons, or_and_right, exists_or, exists_eq_left]
      refine or_congr ?_ (ih hrest)
      simp only [Span.mem_def]
      split
      · next hstop =>
        constructor
        · intro h
          obtain ⟨howner, hstart, hn⟩ := h
          exact ⟨⟨howner, hstart, Int64.lt_trans hn hstop⟩, hn⟩
        · intro h
          obtain ⟨⟨howner, hstart, -⟩, hn⟩ := h
          exact ⟨howner, hstart, hn⟩
      · next hstop =>
        rw [Int64.not_lt] at hstop
        constructor
        · intro h
          obtain ⟨howner, hstart, hn⟩ := h
          exact ⟨⟨howner, hstart, hn⟩, Int64.lt_of_lt_of_le hn hstop⟩
        · intro h
          exact h.1
    · rw [cut_cons_of_le (Int64.not_lt.1 hlt)]
      refine iff_of_false (by simp) ?_
      intro h
      obtain ⟨⟨u, hu, -, hn⟩, hlt'⟩ := h
      have hstart : s.start ≤ u.start := by
        rcases List.mem_cons.1 hu with rfl | hu
        · exact Int64.le_refl _
        · exact hs u hu
      exact hlt (Int64.lt_of_le_of_lt (Int64.le_trans hstart hn.1) hlt')

/-- Where the spans end that follow each other from `start` on. -/
def stopFrom (start : NodeId) (spans : List Span) : NodeId :=
  (spans.getLast?.map (·.stop)).getD start

theorem stopFrom_cons (start : NodeId) (s : Span) (rest : List Span) :
    stopFrom start (s :: rest) = stopFrom s.stop rest := by
  unfold stopFrom
  rw [List.getLast?_cons]
  cases rest.getLast? <;> rfl

theorem Follows.start_eq {start : NodeId} {front back : List Span} {s : Span}
    (h : Follows start (front ++ s :: back)) : s.start = stopFrom start front := by
  induction front generalizing start with
  | nil => exact h.1
  | cons f front ih =>
    rw [stopFrom_cons]
    exact ih h.2.2

/-- What is cut off a lineage with the owner's own nodes behind it is a lineage. -/
theorem Follows.cut_append {start node : NodeId} {spans : List Span} (h : Follows start spans)
    {o : Span} (ho : o.start = stopFrom start spans) (hnode : node ≤ o.stop) :
    Follows start (cut node (spans ++ [o])) := by
  induction spans generalizing start with
  | nil =>
    by_cases hlt : o.start < node
    · rw [List.nil_append, cut_cons_of_lt hlt]
      refine ⟨ho, ?_, trivial⟩
      dsimp only
      split
      · exact hlt
      · exact Int64.lt_of_lt_of_le hlt hnode
    · rw [List.nil_append, cut_cons_of_le (Int64.not_lt.1 hlt)]
      trivial
  | cons s rest ih =>
    obtain ⟨rfl, hs, hrest⟩ := h
    rw [stopFrom_cons] at ho
    rw [List.cons_append]
    by_cases hlt : s.start < node
    · rw [cut_cons_of_lt hlt]
      by_cases hstop : node < s.stop
      · rw [if_pos hstop]
        refine ⟨rfl, hlt, ?_⟩
        have hnil : cut node (rest ++ [o]) = [] := by
          cases rest with
          | nil => exact cut_cons_of_le (Int64.le_of_lt (ho ▸ hstop)) []
          | cons r rs => exact cut_cons_of_le (Int64.le_of_lt (hrest.1 ▸ hstop)) _
        rw [hnil]
        trivial
      · rw [if_neg hstop]
        exact ⟨rfl, hs, ih hrest ho⟩
    · rw [cut_cons_of_le (Int64.not_lt.1 hlt)]
      trivial

theorem Follows.cut_eq_nil {start node : NodeId} {spans : List Span} (h : Follows start spans)
    (hnode : node ≤ start) : cut node spans = [] := by
  cases spans with
  | nil => rfl
  | cons s rest => exact cut_cons_of_le (h.1 ▸ hnode) rest

theorem Follows.stopFrom_cut {start node : NodeId} {spans : List Span} (h : Follows start spans)
    (hstart : start < node) (hstop : node ≤ stopFrom start spans) :
    stopFrom start (cut node spans) = node := by
  induction spans generalizing start with
  | nil => exact absurd hstart (Int64.not_lt.2 hstop)
  | cons s rest ih =>
    obtain ⟨rfl, -, hrest⟩ := h
    rw [stopFrom_cons] at hstop
    rw [cut_cons_of_lt hstart, stopFrom_cons]
    by_cases hlt : s.stop < node
    · rw [if_neg (Int64.lt_asymm hlt)]
      exact ih hrest hlt hstop
    · rw [Int64.not_lt] at hlt
      rw [hrest.cut_eq_nil hlt]
      show (if node < s.stop then node else s.stop) = node
      split
      · rfl
      · next hle => exact Int64.le_antisymm (Int64.not_lt.1 hle) hlt

end Lineage

namespace Token

theorem le_nodeLimit (n : NodeId) : n ≤ nodeLimit := Int64.le_maxValue n

/-- A fork inherits the spans of its source, cut at the fork. -/
theorem lineageAt_eq_cut {t : Token} (h : Lineage.Follows firstEvent t.lineage) (node : NodeId) :
    t.lineageAt node = Lineage.cut node t.spans := by
  have hown : t.ownSpan.start = Lineage.stop t.lineage := rfl
  unfold lineageAt Lineage.upTo Lineage.cut spans
  split
  · next hle =>
    have hnil : [t.ownSpan].takeWhile (fun s => s.start < node) = [] := by
      rw [List.takeWhile_cons, hown, decide_eq_false (Int64.not_lt.2 hle)]
      rfl
    rw [List.takeWhile_append]
    split
    · next hlen =>
      rw [hnil, List.append_nil, (List.takeWhile_prefix _).eq_of_length hlen]
    · rfl
  · next hlt =>
    rw [Int64.not_le] at hlt
    have hbefore : ∀ s ∈ t.lineage, s.stop < node := by
      intro s hs
      exact Int64.lt_of_le_of_lt (h.stop_le hs) hlt
    have hstart : ∀ s ∈ t.lineage, decide (s.start < node) = true := by
      intro s hs
      exact decide_eq_true (Int64.lt_trans (h.start_lt_stop s hs) (hbefore s hs))
    have hsame : t.lineage.map
        (fun s => { s with stop := if node < s.stop then node else s.stop }) = t.lineage := by
      refine (List.map_congr_left fun s hs => ?_).trans (List.map_id _)
      rw [if_neg (Int64.lt_asymm (hbefore s hs))]
      rfl
    have hlimit : (if node < t.ownSpan.stop then node else t.ownSpan.stop) = node := by
      split
      · rfl
      · next h => exact Int64.le_antisymm (Int64.not_lt.1 h) (le_nodeLimit node)
    rw [List.takeWhile_append_of_pos hstart, List.takeWhile_cons, hown, decide_eq_true hlt,
      if_pos rfl, List.map_append, hsame, List.takeWhile_nil, List.map_singleton, hlimit]
    rfl

theorem spans_starts {t : Token} (h : Lineage.Follows firstEvent t.lineage) :
    t.spans.Pairwise fun s u => s.start ≤ u.start := by
  refine List.pairwise_append.2 ⟨?_, List.pairwise_singleton .., ?_⟩
  · apply h.ordered.imp_of_mem
    intro s u hs _ hle
    exact Int64.le_trans (Int64.le_of_lt (h.start_lt_stop s hs)) hle
  · intro s hs o ho
    rw [List.mem_singleton.1 ho]
    exact Int64.le_trans (Int64.le_of_lt (h.start_lt_stop s hs)) (h.stop_le hs)

/-- A span of a branch is its own, behind its lineage, or one of its lineage. -/
theorem spans_eq_append {t : Token} {front back : List Span} {s : Span}
    (h : t.spans = front ++ s :: back) :
    (t.lineage = front ∧ s = t.ownSpan) ∨ ∃ more, t.lineage = front ++ s :: more := by
  rcases List.eq_nil_or_concat back with rfl | ⟨more, last, rfl⟩
  · obtain ⟨hlineage, hs⟩ := List.append_inj' h rfl
    exact .inl ⟨hlineage, (List.cons.inj hs).1.symm⟩
  · rw [List.concat_eq_append, ← List.cons_append, ← List.append_assoc] at h
    exact .inr ⟨more, (List.append_inj' h rfl).1⟩

theorem start_eq_stop {t : Token} (h : Lineage.Follows firstEvent t.lineage)
    {front back : List Span} {s : Span} (hsplit : t.spans = front ++ s :: back) :
    s.start = Lineage.stop front := by
  rcases spans_eq_append hsplit with ⟨rfl, rfl⟩ | ⟨more, hlineage⟩
  · rfl
  · rw [hlineage] at h
    exact h.start_eq

theorem lineageAt_follows {t : Token} (h : Lineage.Follows firstEvent t.lineage) (node : NodeId) :
    Lineage.Follows firstEvent (t.lineageAt node) := by
  rw [lineageAt_eq_cut h]
  exact h.cut_append rfl (le_nodeLimit node)

theorem stop_lineageAt {t : Token} (h : Lineage.Follows firstEvent t.lineage) {node : NodeId}
    (hnode : firstEvent < node) : Lineage.stop (t.lineageAt node) = node := by
  unfold lineageAt Lineage.upTo
  split
  · next hle => exact h.stopFrom_cut hnode hle
  · rw [Lineage.stop, List.getLast?_concat]
    rfl

end Token

/-! ## Families -/

/-- The tokens of a store: a token is found by its branch, and what a branch inherits before it
inherits from another one is the lineage of that one. -/
structure Family (known : Token → Prop) : Prop where
  follows : ∀ t, known t → Lineage.Follows firstEvent t.lineage
  unique : ∀ t u, known t → known u → t.branch = u.branch → t = u
  ancestry : ∀ t, known t → ∀ front s back, t.lineage = front ++ s :: back →
    ∃ u, known u ∧ u.tree = t.tree ∧ u.branch = s.owner ∧ u.lineage = front

namespace Family

theorem empty : Family fun _ => False := ⟨nofun, nofun, nofun⟩

variable {known : Token → Prop}

theorem insert (h : Family known) {t : Token} (hfresh : ∀ u, known u → u.branch ≠ t.branch)
    (hfollows : Lineage.Follows firstEvent t.lineage)
    (hancestry : ∀ front s back, t.lineage = front ++ s :: back →
      ∃ u, known u ∧ u.tree = t.tree ∧ u.branch = s.owner ∧ u.lineage = front) :
    Family fun u => known u ∨ u = t where
  follows u hu := by
    rcases hu with hu | rfl
    · exact h.follows u hu
    · exact hfollows
  unique u w hu hw hbranch := by
    rcases hu with hu | rfl <;> rcases hw with hw | rfl
    · exact h.unique u w hu hw hbranch
    · exact absurd hbranch (hfresh u hu)
    · exact absurd hbranch.symm (hfresh w hw)
    · rfl
  ancestry u hu front s back hsplit := by
    rcases hu with hu | rfl
    · obtain ⟨w, hw, hrest⟩ := h.ancestry u hu front s back hsplit
      exact ⟨w, .inl hw, hrest⟩
    · obtain ⟨w, hw, hrest⟩ := hancestry front s back hsplit
      exact ⟨w, .inl hw, hrest⟩

theorem root (h : Family known) {t : Token} (hfresh : ∀ u, known u → u.branch ≠ t.branch)
    (hlineage : t.lineage = []) : Family fun u => known u ∨ u = t := by
  apply h.insert hfresh
  · rw [hlineage]
    trivial
  · intro front s back hsplit
    simp [hlineage] at hsplit

/-- What a branch reads before it reads a span is the lineage of the owner of the span. -/
theorem ancestry_spans (h : Family known) {t : Token} (ht : known t) {front back : List Span}
    {s : Span} (hsplit : t.spans = front ++ s :: back) :
    ∃ u, known u ∧ u.tree = t.tree ∧ u.branch = s.owner ∧ u.lineage = front := by
  rcases Token.spans_eq_append hsplit with ⟨hlineage, rfl⟩ | ⟨more, hlineage⟩
  · exact ⟨t, ht, rfl, rfl, hlineage⟩
  · exact h.ancestry t ht front s more hlineage

/-- What a fork inherits before it inherits from a branch is the lineage of that branch. -/
theorem ancestry_lineageAt (h : Family known) {t : Token} (ht : known t) (node : NodeId)
    {front back : List Span} {s : Span} (hsplit : t.lineageAt node = front ++ s :: back) :
    ∃ u, known u ∧ u.tree = t.tree ∧ u.branch = s.owner ∧ u.lineage = front := by
  have hfollows := h.follows t ht
  rw [Token.lineageAt_eq_cut hfollows] at hsplit
  obtain ⟨o, rest, hspans, howner⟩ := Lineage.cut_eq_append (Token.spans_ordered hfollows) hsplit
  obtain ⟨u, hu, htree, hbranch, hfront⟩ := h.ancestry_spans ht hspans
  exact ⟨u, hu, htree, hbranch.trans howner, hfront⟩

theorem fork (h : Family known) {source t : Token} (hsource : known source) {node : NodeId}
    (hfresh : ∀ u, known u → u.branch ≠ t.branch) (htree : t.tree = source.tree)
    (hlineage : t.lineage = source.lineageAt node) : Family fun u => known u ∨ u = t := by
  apply h.insert hfresh
  · rw [hlineage]
    exact Token.lineageAt_follows (h.follows source hsource) node
  · intro front s back hsplit
    rw [htree]
    exact h.ancestry_lineageAt hsource node (hlineage ▸ hsplit)

theorem start_eq (h : Family known) {t u : Token} (ht : known t) (hu : known u) {s : Span}
    (hs : s ∈ t.spans) (howner : u.branch = s.owner) : s.start = u.ownStart := by
  obtain ⟨front, back, hsplit⟩ := List.append_of_mem hs
  obtain ⟨w, hw, -, hbranch, rfl⟩ := h.ancestry_spans ht hsplit
  rw [h.unique u w hu hw (howner.trans hbranch.symm)]
  exact Token.start_eq_stop (h.follows t ht) hsplit

/-- A branch that reads nodes of another inherits what that one inherits. -/
theorem lineage_subset (h : Family known) {t u : Token} (ht : known t) (hu : known u) {s : Span}
    (hs : s ∈ t.spans) (howner : u.branch = s.owner) : u.lineage ⊆ t.lineage := by
  obtain ⟨front, back, hsplit⟩ := List.append_of_mem hs
  obtain ⟨w, hw, -, hbranch, rfl⟩ := h.ancestry_spans ht hsplit
  rw [h.unique u w hu hw (howner.trans hbranch.symm)]
  rcases Token.spans_eq_append hsplit with ⟨hlineage, -⟩ | ⟨more, hlineage⟩
  · exact hlineage ▸ List.Subset.refl _
  · exact hlineage ▸ List.subset_append_left _ _

end Family

end Chronicle
