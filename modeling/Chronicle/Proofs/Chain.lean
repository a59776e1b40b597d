import Chronicle.Proofs.FullRead
import Chronicle.Proofs.Replay

/-!
# The causal chain

Every append names the transaction of the batch before it, and this is checked once, when it is
written. Here it is shown that what a read shows is such a chain at any later time, whatever was
written anew, forked, trimmed or deleted since.

What carries over is said of every stored version on the branch it was written to: unless something
below its node exceeds it, it names the largest transaction below its node (`Chained`). An append
below it exceeds it. A removal below it is impossible as long as a row refers to the version, since
whoever refers to it reads all that it was written after (`Tidy.reads_below`).

* `Causal`: each version names the one before it.
* `Advances`: runs whose insertions carry later and later transactions.
* `Advances.reads_causal`: what they leave reads as a chain.
-/
namespace Chronicle

open Archive (State)
open Version (ReadOrder)

/-! ## Chains -/

/-- Each version names the transaction of the one before it, and the first one names `x`. -/
def Causal : TransactionId → List Version → Prop
  | _, [] => True
  | x, v :: rest => v.previous = x ∧ Causal v.transaction rest

theorem Causal.ascending {x : TransactionId} {l : List Version} (h : Causal x l)
    (hlater : ∀ v ∈ l, v.previous < v.transaction) :
    (∀ v ∈ l, x < v.transaction) ∧ l.Pairwise fun v w => v.transaction < w.transaction := by
  induction l generalizing x with
  | nil => exact ⟨nofun, List.Pairwise.nil⟩
  | cons v rest ih =>
    obtain ⟨rfl, hrest⟩ := h
    obtain ⟨hv, hrestLater⟩ := List.forall_mem_cons.1 hlater
    obtain ⟨habove, hpairwise⟩ := ih hrest hrestLater
    refine ⟨List.forall_mem_cons.2 ⟨hv, ?_⟩, List.pairwise_cons.2 ⟨habove, hpairwise⟩⟩
    intro w hw
    exact Int64.lt_trans hv (habove w hw)

/-- What a pass takes is a chain, if everything that it takes names the largest transaction below
its node. -/
theorem Selection.causal_current {last : TransactionId} {l : List Version} (hl : ReadOrder l)
    (h : ∀ v ∈ current last l, IsLargest last (fun w => w ∈ l ∧ w.node < v.node) v.previous) :
    Causal last (current last l) := by
  induction l generalizing last with
  | nil => trivial
  | cons u us ih =>
    obtain ⟨hu, hus⟩ := List.pairwise_cons.1 hl
    unfold current at h ⊢
    split at h
    · next hlt =>
      rw [if_pos hlt]
      refine ih hus fun v hv => ?_
      -- what the pass skips is not the largest
      obtain ⟨hattained, hleast, hlargest⟩ := h v hv
      refine ⟨?_, hleast, fun w hw => hlargest w ⟨List.mem_cons_of_mem _ hw.1, hw.2⟩⟩
      rcases hattained with hx | ⟨w, ⟨hw, hn⟩, hx⟩
      · exact .inl hx
      · rcases List.mem_cons.1 hw with rfl | hw
        · exact absurd hlt (Int64.not_lt.2 (hx ▸ hleast))
        · exact .inr ⟨w, ⟨hw, hn⟩, hx⟩
    · next hge =>
      rw [if_neg hge]
      rw [Int64.not_lt] at hge
      obtain ⟨hfirst, hrest⟩ := List.forall_mem_cons.1 h
      constructor
      · -- nothing is below the first one
        rcases hfirst.attained with hx | ⟨w, ⟨hw, hn⟩, -⟩
        · exact hx
        · rcases List.mem_cons.1 hw with rfl | hw
          · exact absurd hn Int64.lt_irrefl
          · exact absurd hn (Int64.not_lt.2 (hu w hw).node_le)
      · refine ih hus fun v hv => ?_
        obtain ⟨hattained, hleast, hlargest⟩ := hrest v hv
        obtain ⟨hmem, hexceeds⟩ := mem_of_mem_current hv
        have hbelow : u.node < v.node := by
          rcases Version.after_iff.1 (hu v hmem) with hlt | ⟨-, hlt⟩
          · exact hlt
          · exact absurd hlt (Int64.not_lt.2 hexceeds)
        have hle := hlargest u ⟨List.mem_cons_self .., hbelow⟩
        refine ⟨?_, hle, fun w hw => hlargest w ⟨List.mem_cons_of_mem _ hw.1, hw.2⟩⟩
        rcases hattained with hx | ⟨w, ⟨hw, hn⟩, hx⟩
        · exact .inl (Int64.le_antisymm (hx ▸ hge) hle)
        · rcases List.mem_cons.1 hw with rfl | hw
          · exact .inl hx.symm
          · exact .inr ⟨w, ⟨hw, hn⟩, hx⟩

/-! ## What is read below a node -/

namespace Family

variable {known : Token → Prop} (h : Family known)

include h

theorem owner_ne {t : Token} (ht : known t) {s : Span} (hs : s ∈ t.lineage) :
    s.owner ≠ t.branch := by
  intro howner
  obtain ⟨front, back, hsplit⟩ := List.append_of_mem hs
  obtain ⟨u, hu, -, hbranch, hlineage⟩ := h.ancestry t ht front s back hsplit
  have hut := h.unique u t hu ht (hbranch.trans howner)
  rw [← hlineage, hut] at hsplit
  have hlength := congrArg List.length hsplit
  simp at hlength

/-- Below a node of a span a branch reads what the owner of the span reads. -/
theorem below_iff {ts : Tables} {t : Token} (ht : known t) {front back : List Span} {s : Span}
    (hsplit : t.spans = front ++ s :: back) {u : Token} (htree : u.tree = t.tree)
    (hbranch : u.branch = s.owner) (hlineage : u.lineage = front) {n : NodeId} (hn : n ∈ s)
    {w : Version} : ts.Below u.tree u.spans n w ↔ ts.Below t.tree t.spans n w := by
  have hfollows := h.follows t ht
  have hstart : u.ownSpan.start = s.start := by
    rw [Token.start_eq_stop hfollows hsplit, ← hlineage]
    rfl
  have hordered := Token.spans_ordered hfollows
  rw [hsplit, Lineage.Ordered, List.pairwise_append, List.pairwise_cons] at hordered
  rw [Token.spans, hlineage, htree, hsplit]
  refine and_congr_left fun hlt => ?_
  rw [List.append_cons front s back, Tables.covers_append, Tables.covers_append,
    Tables.covers_append]
  -- what lies behind the span does not lie below the node
  have hback : ¬ ts.Covers t.tree back w := by
    intro hcovers
    obtain ⟨o, ho, hm, -⟩ := hcovers
    have hle := Int64.le_trans (hordered.2.1.1 o ho) hm.1
    exact Int64.lt_irrefl (Int64.lt_of_lt_of_le (Int64.lt_trans hlt hn.2) hle)
  rw [or_iff_left hback]
  refine or_congr_right ?_
  simp only [Tables.Covers, List.mem_singleton, exists_eq_left]
  refine and_congr ?_ (by rw [show u.ownSpan.owner = u.branch from rfl, hbranch])
  constructor
  · intro hm
    exact ⟨hstart ▸ hm.1, Int64.lt_trans hlt hn.2⟩
  · intro hm
    exact ⟨hstart ▸ hm.1, Int64.lt_of_lt_of_le (Int64.lt_trans hlt hn.2) (Token.le_nodeLimit _)⟩

end Family

/-- Whoever refers to a node of a branch reads all that the branch reads below the node. -/
theorem Tidy.reads_below {known : Token → Prop} {ts : Tables} (hf : Family known)
    (h : Tidy known ts) {p : Token} (hp : known p) {n : NodeId}
    (hn : ts.Referenced p.tree p.branch n) :
    ∃ c row, ts.row? p.tree c = some row ∧ p.lineage ⊆ row.token.lineage ∧
      ∀ s ∈ p.spans, ∀ m ∈ s, m < n → ∃ s' ∈ row.token.spans, s'.owner = s.owner ∧ m ∈ s' := by
  rcases hn with ⟨row, hrow⟩ | ⟨c, row, hrow, o, ho, howner, hlt⟩
  · have htoken := h.token_eq hf hp hrow
    rw [← htoken]
    exact ⟨_, row, htoken.symm ▸ hrow, List.Subset.refl _, fun s hs m hm _ => ⟨s, hs, rfl, hm⟩⟩
  · have hknown := h.row _ _ _ hrow
    have hspan : o ∈ row.token.spans := List.mem_append_left _ ho
    have hsubset := hf.lineage_subset hknown hp hspan howner.symm
    refine ⟨c, row, hrow, hsubset, fun s hs m hm hlow => ?_⟩
    rcases List.mem_append.1 hs with hs | hs
    · exact ⟨s, List.mem_append_left _ (hsubset hs), rfl, hm⟩
    · rw [List.mem_singleton.1 hs] at hm ⊢
      have hstart := hf.start_eq hknown hp hspan howner.symm
      exact ⟨o, hspan, howner, hstart ▸ hm.1, Int64.lt_trans hlow hlt⟩

/-! ## Stored versions -/

/-- Every stored version was inserted, by a later transaction than it names. Unless something below
its node on the spans of its branch exceeds it, it names the largest transaction there. -/
structure Chained (known : Token → Prop) (ts : Tables) (inserted : List TransactionId) : Prop where
  inserted : ∀ t b n x v, ts.version? t b n x = some v → x ∈ inserted
  later : ∀ t b n x v, ts.version? t b n x = some v → v.previous < x
  preceded : ∀ q, known q → ∀ n x v, ts.version? q.tree q.branch n x = some v →
    (∀ w, ts.Below q.tree q.spans n w → w.transaction ≤ x) → ts.Precedes q n v.previous

namespace Chained

variable {known : Token → Prop} {ts us : Tables} {inserted : List TransactionId}

theorem empty : Chained known .empty [] where
  inserted _ _ _ _ _ h := nomatch h
  later _ _ _ _ _ h := nomatch h
  preceded _ _ _ _ _ h := nomatch h

/-- A known branch of which nothing is stored makes no difference. -/
theorem insert (h : Chained known ts inserted) {t : Token}
    (hnone : ∀ n x, ts.version? t.tree t.branch n x = none) :
    Chained (fun u => known u ∨ u = t) ts inserted where
  inserted := h.inserted
  later := h.later
  preceded q hq n x v hv := by
    rcases hq with hq | rfl
    · exact h.preceded q hq n x v hv
    · rw [hnone] at hv
      cases hv

theorem congr (h : Chained known ts inserted)
    (hsame : ∀ t b n x, us.version? t b n x = ts.version? t b n x) :
    Chained known us inserted := by
  have hbelow : ∀ t spans n w, us.Below t spans n w ↔ ts.Below t spans n w := by
    intro t spans n w
    simp only [Tables.Below, Tables.Covers, hsame]
  refine ⟨?_, ?_, ?_⟩
  · intro t b n x v hv
    exact h.inserted t b n x v (hsame .. ▸ hv)
  · intro t b n x v hv
    exact h.later t b n x v (hsame .. ▸ hv)
  · intro q hq n x v hv hexceeds
    refine (h.preceded q hq n x v (hsame .. ▸ hv) fun w hw => ?_).congr fun w => (hbelow ..).symm
    exact hexceeds w ((hbelow ..).2 hw)

/-- A removal that leaves all that is read below what it leaves. -/
theorem remove (h : Chained known ts inserted)
    (hstored : ∀ t b n x v, us.version? t b n x = some v → ts.version? t b n x = some v)
    (hkept : ∀ q, known q → ∀ n x v, us.version? q.tree q.branch n x = some v →
      ∀ s ∈ q.spans, ∀ w, w.node ∈ s → w.node < n →
        ts.version? q.tree s.owner w.node w.transaction = some w →
        us.version? q.tree s.owner w.node w.transaction = some w) :
    Chained known us inserted where
  inserted t b n x v hv := h.inserted t b n x v (hstored t b n x v hv)
  later t b n x v hv := h.later t b n x v (hstored t b n x v hv)
  preceded q hq n x v hv hexceeds := by
    have hbelow : ∀ w, ts.Below q.tree q.spans n w ↔ us.Below q.tree q.spans n w := by
      intro w
      refine and_congr_left fun hlt => exists_congr fun s => and_congr_right fun hs =>
        and_congr_right fun hm => ?_
      exact ⟨hkept q hq n x v hv s hs w hm hlt, hstored _ _ _ _ _⟩
    refine (h.preceded q hq n x v (hstored _ _ _ _ _ hv) fun w hw => ?_).congr hbelow
    exact hexceeds w ((hbelow w).1 hw)

/-- An append of a later transaction. What it writes below exceeds what is above. -/
theorem writes (hf : Family known) (ht : Tidy known ts) (h : Chained known ts inserted) {q : Token}
    (hq : known q) {isNew : Bool} {row : BranchRow} {v : Version} (hw : ts.Writes q isNew row v us)
    (hlater : ∀ y ∈ inserted, y < v.transaction) :
    Chained known us (v.transaction :: inserted) where
  inserted t b n x w hstored := by
    rw [hw.versions] at hstored
    split at hstored
    · next hplace => exact hplace.2.2.2 ▸ List.mem_cons_self ..
    · exact List.mem_cons_of_mem _ (h.inserted t b n x w hstored)
  later t b n x w hstored := by
    rw [hw.versions] at hstored
    split at hstored
    · next hplace =>
      cases hstored
      exact hplace.2.2.2 ▸ hw.later
    · exact h.later t b n x w hstored
  preceded p hp n x w hstored hexceeds := by
    have hbelow : ∀ {n u}, ts.Below p.tree p.spans n u → us.Below p.tree p.spans n u := by
      intro n u hu
      exact ⟨(Tables.covers_writes_iff hw _ _).2 (.inl hu.1), hu.2⟩
    -- unless the new version is below, the same is read below
    have hsame : ∀ n, ¬ us.Below p.tree p.spans n v → ∀ u, ts.Below p.tree p.spans n u ↔
        us.Below p.tree p.spans n u := by
      intro n hnot u
      refine ⟨hbelow, fun hu => ?_⟩
      rcases (Tables.covers_writes_iff hw _ _).1 hu.1 with hold | ⟨rfl, -⟩
      · exact ⟨hold, hu.2⟩
      · exact absurd hu hnot
    rw [hw.versions] at hstored
    split at hstored
    · next hplace =>
      obtain ⟨-, hbranch, rfl, rfl⟩ := hplace
      cases hstored
      have hpq := hf.unique p q hp hq hbranch
      have htoken : row.token = p := by
        rw [hpq]
        rcases hw.branch with hrow | ⟨-, -, htoken⟩
        · exact ht.token_eq hf hq hrow
        · exact htoken
      exact (htoken ▸ hw.preceded).congr (hsame _ fun hu => Int64.lt_irrefl hu.2)
    · have hnot : ¬ us.Below p.tree p.spans n v := by
        intro hu
        have hlt := hlater x (h.inserted _ _ _ _ _ hstored)
        exact Int64.not_lt.2 (hexceeds v hu) hlt
      exact (h.preceded p hp n x w hstored fun u hu => hexceeds u (hbelow hu)).congr (hsame n hnot)

/-- A trim. It is refused while a row reads what it would remove. -/
theorem trims (hf : Family known) (ht : Tidy known ts) (h : Chained known ts inserted) {q : Token}
    {node : NodeId} {x : TransactionId} (htrims : ts.Trims q.tree q.branch node x us)
    (hgone : ∀ n y, node < n → us.version? q.tree q.branch n y = none)
    (hspares : ts.Spares q.tree q.branch us) : Chained known us inserted := by
  refine h.remove (fun t b n y v hv => ?_) fun p hp n y v hv s hs w hm hlt hw => ?_
  · rcases htrims.versions t b n y with heq | ⟨hnone, -⟩
    · exact heq ▸ hv
    · rw [hnone] at hv
      cases hv
  · rcases htrims.versions p.tree s.owner w.node w.transaction with
      heq | ⟨hnone, htree, howner, hle, -⟩
    · exact heq.trans hw
    · exfalso
      by_cases hbranch : p.branch = q.branch
      · rw [htree, hbranch, hgone n y (Int64.lt_of_le_of_lt hle hlt)] at hv
        cases hv
      · have htidy := ht.trims htrims
        obtain ⟨c, row, hrow, hsubset, -⟩ :=
          htidy.reads_below hf hp (htidy.referenced _ _ _ _ _ hv)
        have hlineage : s ∈ p.lineage := by
          rcases List.mem_append.1 hs with hs | hs
          · exact hs
          · rw [List.mem_singleton.1 hs] at howner
            exact absurd howner hbranch
        have hc : c ≠ q.branch := by
          intro hc
          have hself := hf.owner_ne (htidy.row _ _ _ hrow) (hsubset hlineage)
          exact hself (howner.trans (hc.symm.trans (Tables.row?_own hrow).2.symm))
        have hother := hspares.branches p.tree c fun hsame => hc hsame.2
        have hkept := hother.versions row (hother.row ▸ hrow) s
          (List.mem_append_left _ (hsubset hlineage)) w.node hm w.transaction
        rw [hnone, hw] at hkept
        cases hkept

theorem deletes (hf : Family known) (ht : Tidy known ts) (h : Chained known ts inserted) {q : Token}
    (hq : known q) (hd : ts.Deletes q us) (hspares : ts.Spares q.tree q.branch us) :
    Chained known us inserted := by
  refine h.remove (fun t b n y v => Tidy.stored_of_deletes hd) ?_
  intro p hp n y v hv s hs w hm hlt hw
  have htidy := ht.deletes hf hq hd
  obtain ⟨c, row, hrow, -, hreads⟩ := htidy.reads_below hf hp (htidy.referenced _ _ _ _ _ hv)
  obtain ⟨o, ho, howner, hmo⟩ := hreads s hs w.node hm hlt
  rw [← howner] at hw ⊢
  exact ht.version_of_span hf hd hspares hrow ho hw hmo.2

theorem causal_log (hf : Family known) (h : Chained known ts inserted) {r : Token} (hr : known r) :
    Causal noTransaction (ts.log r) := by
  have hfollows := hf.follows r hr
  have hcovers : ∀ w, w ∈ ts.along r.tree (Plan.window r firstEvent nodeLimit).spans ↔
      ts.Covers r.tree r.spans w := by
    intro w
    rw [Tables.mem_along_iff, ← Tables.holds_iff hfollows, ← Tables.covers_window_iff]
  refine Selection.causal_current
    (Tables.along_readOrder _ _ (Plan.window_ordered hfollows _ _)) fun v hv => ?_
  obtain ⟨⟨s, hs, hn, hstored⟩, -, hlargest⟩ := (Tables.mem_log_iff hfollows).1 hv
  obtain ⟨front, back, hsplit⟩ := List.append_of_mem hs
  obtain ⟨p, hp, htree, hbranch, hlineage⟩ := hf.ancestry_spans hr hsplit
  have hbelow : ∀ {w}, ts.Below p.tree p.spans v.node w ↔ ts.Below r.tree r.spans v.node w :=
    hf.below_iff hr hsplit htree hbranch hlineage hn
  rw [← htree, ← hbranch] at hstored
  refine (h.preceded p hp v.node v.transaction v hstored fun w hw => ?_).congr fun w => ?_
  · obtain ⟨hw, hlt⟩ := hbelow.1 hw
    exact hlargest w hw (Int64.le_of_lt hlt)
  · rw [hbelow]
    exact and_congr_left fun _ => (hcovers w).symm

end Chained

/-! ## Runs -/

/-- The transactions of what an operation inserted on the way from `ts` to `us`. -/
def Operation.inserts (codec : Codec) (ts us : Tables) (op : Operation) : List TransactionId :=
  match op.target?, op.written? codec with
  | some q, some v => if ts.Inserted us q v then [v.transaction] else []
  | _, _ => []

namespace Operation

variable {codec : Codec} {ts us : Tables} {op : Operation}

theorem inserts_of_written?_eq_none (h : op.written? codec = none) :
    op.inserts codec ts us = [] := by
  unfold inserts
  rw [h]
  cases op.target? <;> rfl

theorem inserts_same : op.inserts codec ts ts = [] := by
  unfold inserts
  split
  · exact if_neg Tables.not_inserted_self
  · rfl

end Operation

theorem Chained.effect {a : Archive} {ts us : Tables} {k j : Nat} {issued : List Bytes}
    {inserted : List TransactionId} (ho : Archive.Orderly a ts k issued)
    (h : Chained (Known issued) ts inserted) {op : Operation} {ans : Answer}
    (heffect : Effect a ts k op ans us j) (hop : op.Genuine issued)
    (hlater : ∀ x ∈ op.inserts a.codec ts us, ∀ y ∈ inserted, y < x)
    (hdistinct : a.DistinctDraws j) :
    Chained (Known (issued ++ Answer.issued (.ok ans))) us
      (op.inserts a.codec ts us ++ inserted) := by
  have hnone : ∀ {i}, k < i → a.DistinctDraws i → ∀ t n x,
      ts.version? t (.random (a.source i)) n x = none := by
    intro i hi hd t n x
    exact ho.tidy.version?_eq_none (fun u hu => ho.enrolled.fresh hd hi hu) t n x
  cases heffect with
  | newBranch hbytes =>
    have ht := Token.decode_encode hbytes trivial
    rw [Operation.inserts_of_written?_eq_none rfl, Answer.issued, known_concat ht]
    exact h.insert (hnone (by omega) hdistinct _)
  | repeated =>
    rw [Operation.inserts_same, Answer.issued, List.append_nil]
    exact h
  | @written req payload r q v row us htime hq hv hus =>
    have htarget : (Operation.append req payload).target? = some q :=
      Operation.target?_of_decode rfl hq
    have hinserts : (Operation.append req payload).inserts a.codec ts us = [v.transaction] := by
      simp only [Operation.inserts, htarget, Operation.written?, hv, if_pos hus.inserted]
    rw [hinserts] at hlater ⊢
    rw [Answer.issued, List.append_nil]
    exact h.writes ho.family ho.tidy (hop q htarget) hus (hlater _ (List.mem_singleton_self _))
  | @forked req q row bytes now htime hq hrow hbytes =>
    have hknown : Known issued row.token := ho.tidy.row _ _ _ hrow
    have ht := Token.decode_encode hbytes
      (Token.lineageAt_follows (ho.family.follows _ hknown) req.node)
    rw [Operation.inserts_of_written?_eq_none rfl, Answer.issued, known_concat ht]
    refine (h.congr fun t b n x => Tables.version?_upsertRow ..).insert fun n x => ?_
    rw [Tables.version?_upsertRow]
    exact hnone (Nat.lt_succ_self k) hdistinct _ n x
  | trimmed hq hrow hown hus hgone hspares =>
    rw [Operation.inserts_of_written?_eq_none rfl, Answer.issued, List.append_nil]
    exact h.trims ho.family ho.tidy hus hgone hspares
  | deleted hq hus hspares =>
    rw [Operation.inserts_of_written?_eq_none rfl, Answer.issued, List.append_nil]
    exact h.deletes ho.family ho.tidy (hop _ (Operation.target?_of_decode rfl hq)) hus hspares

namespace Archive

/-- The states of runs in which every insertion carries a later transaction than those before it,
with the tokens issued and the transactions inserted so far. -/
inductive Advances (a : Archive) : State MemoryStore → List Bytes → List TransactionId → Prop
  | start : Advances a (.fresh .empty) [] []
  /-- Whatever does not touch the store and delays nothing; the calendar goes on. -/
  | aside {s t : State MemoryStore} {issued : List Bytes} {inserted : List TransactionId}
      (h : Advances a s issued inserted) (hstore : t.store = s.store) (hdrawn : t.drawn = s.drawn)
      (hdelay : t.delay = s.delay) : Advances a t issued inserted
  | call {s : State MemoryStore} {issued : List Bytes} {inserted : List TransactionId}
      (h : Advances a s issued inserted) (op : Operation) (hop : op.Genuine issued)
      (hlater : ∀ x ∈ op.inserts a.codec s.tables ((op.perform a).final s).tables,
        ∀ y ∈ inserted, y < x) :
      Advances a ((op.perform a).final s) (issued ++ Answer.issued ((op.perform a).answer s))
        (op.inserts a.codec s.tables ((op.perform a).final s).tables ++ inserted)

namespace Advances

variable {a : Archive} {s : State MemoryStore} {issued : List Bytes} {inserted : List TransactionId}

theorem reaches (h : Advances a s issued inserted) : Reaches a s issued := by
  induction h with
  | start => exact .start
  | aside _ hstore hdrawn hdelay ih => exact .aside ih hstore hdrawn hdelay
  | call _ op hop _ ih => exact .call ih op hop

/-- **Runs keep the chain.** -/
theorem chained (h : Advances a s issued inserted) (hdistinct : a.DistinctDraws s.drawn) :
    Chained (Known issued) s.tables inserted := by
  induction h with
  | start => exact known_nil ▸ .empty
  | @aside s t issued inserted _ hstore hdrawn _ ih =>
    rw [hdrawn] at hdistinct
    rw [State.tables, hstore]
    exact ih hdistinct
  | @call s issued inserted h op hop hlater ih =>
    rcases (perform_outcome op h.reaches.unarmed).2 with
      ⟨ans, hans, heffect⟩ | ⟨e, he, htables, hdrawn⟩
    · have hbefore := hdistinct.mono heffect.le
      rw [hans]
      exact (ih hbefore).effect (h.reaches.orderly hbefore) heffect hop hlater hdistinct
    · rw [he, htables, Operation.inserts_same, Answer.issued, List.append_nil]
      exact ih (hdistinct.mono hdrawn)

/-- **What is read is a chain.** In every run whose insertions carry later and later transactions,
whatever was written anew, forked, trimmed, deleted or created again on the way, every branch with a
row has an issued token, and whatever token of it is asked with, a read of all its nodes gives the
current versions that are stored, of which the first names no transaction and each other one that of
the version before it. So their transactions grow. -/
theorem reads_causal (h : Advances a s issued inserted) (hdistinct : a.DistinctDraws s.drawn)
    {t : TreeId} {b : BranchId} {row : BranchRow} (hrow : s.tables.row? t b = some row) :
    (∃ bytes ∈ issued, s.tables.Names bytes row) ∧
      ∃ vs, vs = s.tables.log row.token ∧
        (∀ bytes, s.tables.Names bytes row → a.ReadsAll s bytes b vs) ∧
        Causal noTransaction vs ∧ vs.Pairwise fun v w => v.transaction < w.transaction := by
  have ho := h.reaches.orderly hdistinct
  have hchained := h.chained hdistinct
  have hknown : Known issued row.token := ho.tidy.row _ _ _ hrow
  have hlineage := ho.family.follows _ hknown
  obtain ⟨htree, hbranch⟩ := Tables.row?_own hrow
  rw [BranchRow.tree] at htree
  rw [BranchRow.branch] at hbranch
  constructor
  · obtain ⟨bytes, hbytes, hdecode⟩ := hknown
    exact ⟨bytes, hbytes, row.token, hdecode, by rw [htree, hbranch, hrow]⟩
  · have hcausal := hchained.causal_log ho.family hknown
    refine ⟨s.tables.log row.token, rfl, fun bytes hnames => ?_, hcausal, (hcausal.ascending ?_).2⟩
    · rw [← hbranch]
      exact readsAll_log (ho.time _ _ _ hrow) h.reaches.unarmed hnames hlineage
    · intro v hv
      obtain ⟨⟨o, -, -, hstored⟩, -⟩ := (Tables.mem_log_iff hlineage).1 hv
      exact hchained.later _ _ _ _ _ hstored

end Advances

/-- The transactions inserted by operations, the latest first, with these leases. -/
def insertions (a : Archive) (leases : LeaseTable) : List Operation → List TransactionId
  | [] => []
  | op :: before =>
    let s := (a.after leases before).1
    op.inserts a.codec s.tables ((op.perform a).final s).tables ++ a.insertions leases before

/-- Every operation names its branch by an issued token and inserts a later transaction, if any. -/
def isAdvancing (a : Archive) (leases : LeaseTable) : List Operation → Bool
  | [] => true
  | op :: before =>
    let (s, issued) := a.after leases before
    a.isAdvancing leases before && decide (op.Genuine issued) &&
      (op.inserts a.codec s.tables ((op.perform a).final s).tables).all fun x =>
        (a.insertions leases before).all (· < x)

theorem advances_after {a : Archive} {leases : LeaseTable} {ops : List Operation}
    (h : a.isAdvancing leases ops = true) :
    Advances a (a.after leases ops).1 (a.after leases ops).2 (a.insertions leases ops) := by
  induction ops with
  | nil => exact .aside .start rfl rfl rfl
  | cons op before ih =>
    obtain ⟨hgenuine, hlater⟩ := Bool.and_eq_true_iff.1 h
    obtain ⟨hbefore, hop⟩ := Bool.and_eq_true_iff.1 hgenuine
    refine .call (ih hbefore) op (of_decide_eq_true hop) fun x hx y hy => ?_
    exact of_decide_eq_true (List.all_eq_true.1 (List.all_eq_true.1 hlater x hx) y hy)

end Archive

namespace Sample

def rewrites : List Operation :=
  write fork 2 9 8 [5] :: write root 1 8 0 [4] :: operations.drop 2

def rewritten : State MemoryStore := (archive.after leases rewrites).1

theorem rewritten_row : rewritten.tables.row? fork.tree fork.branch = some (Forked.row fork) := by
  decide +kernel

end Sample

namespace Archive

/-- After a node that a fork inherits was written anew below what was written to the fork, and the
fork was written on, the fork reads as a chain. -/
theorem reads_causal_rewritten :
    Sample.archive.Advances Sample.rewritten (Sample.archive.after Sample.leases Sample.rewrites).2
        (Sample.archive.insertions Sample.leases Sample.rewrites) ∧
      Sample.archive.DistinctDraws Sample.rewritten.drawn ∧
      Sample.rewritten.tables.log Sample.fork = [⟨1, 8, 0, [4]⟩, ⟨2, 9, 8, [5]⟩] ∧
      ∃ vs, vs = Sample.rewritten.tables.log Sample.fork ∧
        (∀ bytes, Sample.rewritten.tables.Names bytes (Forked.row Sample.fork) →
          Sample.archive.ReadsAll Sample.rewritten bytes Sample.fork.branch vs) ∧
        Causal noTransaction vs ∧ vs.Pairwise fun v w => v.transaction < w.transaction := by
  have hadvances : Sample.archive.Advances Sample.rewritten _ _ :=
    advances_after (by decide +kernel)
  have hdrawn : Sample.rewritten.drawn ≤ Sample.state.drawn := by decide +kernel
  have hdistinct : Sample.archive.DistinctDraws Sample.rewritten.drawn :=
    Sample.distinctDraws.mono hdrawn
  have hreads := (hadvances.reads_causal hdistinct Sample.rewritten_row).2
  exact ⟨hadvances, hdistinct, by decide +kernel, hreads⟩

/-- The deletion of a fork is late after it has removed the row, and the nodes of the fork stay.
Then its source is deleted, and the fork is created again behind its old node, which names a
transaction of the source. -/
theorem reads_causal_late :
    let s := (Sample.hurried.after Sample.leases (Sample.operations.drop 2)).1
    let deleteFork : Operation := .remove (.delete ⟨1, 1, Forked.bytes Sample.fork⟩)
    let deleteRoot : Operation := .remove (.delete ⟨1, 1, Forked.bytes Sample.root⟩)
    let create := Sample.write Sample.fork 3 8 7 [4]
    let late : State MemoryStore := { s with delay := some 2 }
    let t := (deleteFork.perform Sample.hurried).final late
    let u := (deleteRoot.perform Sample.hurried).final t
    let w := (create.perform Sample.hurried).final u
    Sample.hurried.Advances s (Sample.hurried.after Sample.leases (Sample.operations.drop 2)).2
        (Sample.hurried.insertions Sample.leases (Sample.operations.drop 2)) ∧
      (deleteFork.perform Sample.hurried).answer late = .error (.timeout "delete_history_branch") ∧
      (deleteRoot.perform Sample.hurried).answer t = .ok (.removed 2) ∧
      (create.perform Sample.hurried).answer u = .ok (.receipt ⟨1, 3⟩) ∧
      (Sample.hurried.readRaw ⟨Forked.bytes Sample.fork, firstEvent, nodeLimit, 10, []⟩).answer w =
        .ok ⟨[⟨2, 7, 5, [3]⟩, ⟨3, 8, 7, [4]⟩], [], 2⟩ ∧
      ¬ Causal noTransaction [⟨2, 7, 5, [3]⟩, ⟨3, 8, 7, [4]⟩] := by
  intro s deleteFork deleteRoot create late t u w
  refine ⟨advances_after (by decide +kernel), ?_, ?_, ?_, ?_, ?_⟩
  · decide +kernel
  · decide +kernel
  · decide +kernel
  · decide +kernel
  · intro hcausal
    cases hcausal.1

end Archive

end Chronicle
