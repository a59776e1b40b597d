import Chronicle.Archive.Writing
import Chronicle.Proofs.Interruption
import Chronicle.Proofs.Removal

/-!
# The transaction before a node

A writer has to name the transaction of the batch before its node. The archive finds it span by
span, as the largest of the largest transactions below the node.

* `IsLargest`: the largest transaction among versions, said without a pass.
* `preceding_settles`: what the archive finds is the largest among all versions that the branch
  covers below the node.
-/
namespace Chronicle

open Chronicle.Action (Settles)

/-- `x` is the largest among `least` and the transactions of the versions that satisfy `p`. -/
structure IsLargest (least : TransactionId) (p : Version → Prop) (x : TransactionId) : Prop where
  attained : x = least ∨ ∃ v, p v ∧ v.transaction = x
  least_le : least ≤ x
  largest : ∀ v, p v → v.transaction ≤ x

namespace IsLargest

variable {least : TransactionId} {p q : Version → Prop} {x y : TransactionId}

theorem congr (h : IsLargest least p x) (hpq : ∀ v, p v ↔ q v) : IsLargest least q x where
  attained := h.attained.imp_right fun ⟨v, hv, hx⟩ => ⟨v, (hpq v).1 hv, hx⟩
  least_le := h.least_le
  largest v hv := h.largest v ((hpq v).2 hv)

theorem unique (hx : IsLargest least p x) (hy : IsLargest least p y) : x = y := by
  have hle : ∀ {x y}, IsLargest least p x → IsLargest least p y → x ≤ y := by
    intro x y hx hy
    rcases hx.attained with rfl | ⟨v, hv, rfl⟩
    · exact hy.least_le
    · exact hy.largest v hv
  exact Int64.le_antisymm (hle hx hy) (hle hy hx)

theorem none : IsLargest least (fun _ => False) least where
  attained := .inl rfl
  least_le := Int64.le_refl _
  largest _ h := h.elim

/-- The later of two transactions is the largest of both parts. -/
theorem later (h : IsLargest least p x) (hy : ∃ v, q v ∧ v.transaction = y)
    (hq : ∀ v, q v → v.transaction ≤ y) :
    IsLargest least (fun v => p v ∨ q v) (Archive.later x y) := by
  unfold Archive.later
  split
  · next hlt =>
    refine ⟨.inr ?_, Int64.le_trans h.least_le (Int64.le_of_lt hlt), ?_⟩
    · obtain ⟨v, hv, hvy⟩ := hy
      exact ⟨v, .inr hv, hvy⟩
    · intro v hv
      rcases hv with hv | hv
      · exact Int64.le_trans (h.largest v hv) (Int64.le_of_lt hlt)
      · exact hq v hv
  · next hge =>
    rw [Int64.not_lt] at hge
    refine ⟨?_, h.least_le, ?_⟩
    · rcases h.attained with hx | ⟨v, hv, hx⟩
      · exact .inl hx
      · exact .inr ⟨v, .inl hv, hx⟩
    · intro v hv
      rcases hv with hv | hv
      · exact h.largest v hv
      · exact Int64.le_trans (hq v hv) hge

end IsLargest

/-! ## One span -/

theorem VersionSet.exists_latest? {vs : VersionSet} {w : Version} (h : w ∈ vs.toList) :
    ∃ v, vs.latest? = some v := by
  cases hlatest : vs.latest? with
  | none =>
    rw [latest?, List.head?_eq_none_iff] at hlatest
    rw [hlatest] at h
    cases h
  | some v => exact ⟨v, rfl⟩

namespace Nodes

theorem mem_toList_iff_exists {ns : Nodes} {v : Version} :
    v ∈ ns.toList ↔ ∃ vs ∈ ns.sets.values, v ∈ vs.toList := by
  rw [toList, List.mem_flatMap]

/-- The newest versions of the nodes stand for all versions. -/
theorem mem_newest_iff {ns : Nodes} {x : TransactionId} :
    x ∈ ns.sets.values.filterMap (fun vs => vs.latest?.map (·.transaction)) ↔
      ∃ vs ∈ ns.sets.values, ∃ v, vs.latest? = some v ∧ v.transaction = x := by
  simp only [List.mem_filterMap, Option.map_eq_some_iff]

theorem largest?_eq_some {ns : Nodes} {x : TransactionId} (h : ns.largest? = some x) :
    (∃ v ∈ ns.toList, v.transaction = x) ∧ ∀ v ∈ ns.toList, v.transaction ≤ x := by
  rw [largest?, List.max?_eq_some_iff] at h
  obtain ⟨hmem, hmax⟩ := h
  constructor
  · obtain ⟨vs, hvs, v, hv, hx⟩ := mem_newest_iff.1 hmem
    exact ⟨v, mem_toList_iff_exists.2 ⟨vs, hvs, List.mem_of_mem_head? hv⟩, hx⟩
  · intro w hw
    obtain ⟨vs, hvs, hw⟩ := mem_toList_iff_exists.1 hw
    obtain ⟨v, hlatest⟩ := VersionSet.exists_latest? hw
    exact Int64.le_trans (VersionSet.le_of_latest? hlatest w hw)
      (hmax _ (mem_newest_iff.2 ⟨vs, hvs, v, hlatest, rfl⟩))

theorem largest?_eq_none {ns : Nodes} (h : ns.largest? = none) : ns.toList = [] := by
  rw [largest?, List.max?_eq_none_iff] at h
  refine List.eq_nil_iff_forall_not_mem.2 fun w hw => ?_
  obtain ⟨vs, hvs, hw⟩ := mem_toList_iff_exists.1 hw
  obtain ⟨v, hlatest⟩ := VersionSet.exists_latest? hw
  have hmem := mem_newest_iff.2 ⟨vs, hvs, v, hlatest, rfl⟩
  rw [h] at hmem
  cases hmem

end Nodes

namespace Tables

variable {ts : Tables}

/-- The versions that a branch covers below a node. -/
def Below (ts : Tables) (t : TreeId) (spans : List Span) (node : NodeId) (v : Version) : Prop :=
  ts.Covers t spans v ∧ v.node < node

/-- `x` is the largest transaction of what the branch of the token covers below `node`. -/
def Precedes (ts : Tables) (q : Token) (node : NodeId) (x : TransactionId) : Prop :=
  IsLargest noTransaction (ts.Below q.tree q.spans node) x

theorem covers_append {t : TreeId} {spans more : List Span} {v : Version} :
    ts.Covers t (spans ++ more) v ↔ ts.Covers t spans v ∨ ts.Covers t more v := by
  simp only [Covers, List.mem_append, or_and_right, exists_or]

/-- What a span covers below a node is listed from its start up to the node. -/
theorem below_singleton_iff {t : TreeId} {s : Span} {node : NodeId} {v : Version} :
    ts.Below t [s] node v ↔
      v ∈ ts.listing t s.owner s.start (if node < s.stop then node else s.stop) := by
  rw [mem_listing_iff]
  simp only [Below, Covers, List.mem_singleton, exists_eq_left, Span.mem_def]
  split
  · next hlt =>
    constructor
    · intro h
      exact ⟨⟨h.1.1.1, h.2⟩, h.1.2⟩
    · intro h
      exact ⟨⟨⟨h.1.1, Int64.lt_trans h.1.2 hlt⟩, h.2⟩, h.1.2⟩
  · next hge =>
    constructor
    · intro h
      exact h.1
    · intro h
      exact ⟨h, Int64.lt_of_lt_of_le h.1.2 (Int64.not_lt.1 hge)⟩

theorem below_append {t : TreeId} {spans : List Span} {s : Span} {node : NodeId} {v : Version} :
    ts.Below t (spans ++ [s]) node v ↔ ts.Below t spans node v ∨ ts.Below t [s] node v := by
  simp only [Below, covers_append, or_and_right]

end Tables

/-! ## All spans -/

namespace Archive

variable {ts : Tables} {env : Setting}

/-- The largest transaction of the spans so far and of one more. -/
theorem isLargest_cons {t : TreeId} {node : NodeId} {done : List Span} {s : Span}
    {largest : TransactionId} (h : IsLargest noTransaction (ts.Below t done node) largest) :
    IsLargest noTransaction (ts.Below t (done ++ [s]) node)
      ((ts.maxTransaction t s.owner s.start (if node < s.stop then node else s.stop)).elim largest
        (later largest)) := by
  cases hmax : ts.maxTransaction t s.owner s.start (if node < s.stop then node else s.stop) with
  | none =>
    refine h.congr fun v => ?_
    have hlisting : ts.listing t s.owner s.start _ = [] := Nodes.largest?_eq_none hmax
    rw [Tables.below_append, Tables.below_singleton_iff, hlisting]
    simp
  | some x =>
    obtain ⟨⟨v, hv, hx⟩, hle⟩ := Nodes.largest?_eq_some hmax
    refine (h.later (q := ts.Below t [s] node) ⟨v, Tables.below_singleton_iff.2 hv, hx⟩ ?_).congr ?_
    · intro w hw
      exact hle w (Tables.below_singleton_iff.1 hw)
    · intro w
      exact Tables.below_append.symm

/-- A span that starts from the node on covers nothing below it. -/
theorem isLargest_skip {t : TreeId} {node : NodeId} {done : List Span} {s : Span}
    {largest : TransactionId} (h : IsLargest noTransaction (ts.Below t done node) largest)
    (hskip : ¬ s.start < if node < s.stop then node else s.stop) :
    IsLargest noTransaction (ts.Below t (done ++ [s]) node) largest := by
  refine h.congr fun v => ?_
  rw [Tables.below_append]
  refine (or_iff_left fun hv => hskip ?_).symm
  obtain ⟨⟨hstart, hlt⟩, -⟩ := Tables.mem_listing_iff.1 (Tables.below_singleton_iff.1 hv)
  exact Int64.lt_of_le_of_lt hstart hlt

theorem precedingIn_settles {d : Deadline} (hd : d.expired = false) (t : TreeId) (node : NodeId)
    {err cut : Tables → Prop} (hcut : cut ts) (spans done : List Span) {largest : TransactionId}
    (h : IsLargest noTransaction (ts.Below t done node) largest) :
    Settles env (precedingIn d t node largest spans) ts
      (fun x us => IsLargest noTransaction (ts.Below t (done ++ spans) node) x ∧ us = ts)
      err cut := by
  induction spans generalizing done largest with
  | nil =>
    rw [List.append_nil]
    exact .pure ⟨h, rfl⟩
  | cons s rest ih =>
    rw [List.append_cons]
    unfold precedingIn
    dsimp only
    by_cases hbefore : s.start < if node < s.stop then node else s.stop
    · rw [if_pos hbefore]
      exact .bind (.ask_inTime hd (ih (done ++ [s]) (isLargest_cons h)) hcut)
    · rw [if_neg hbefore]
      exact ih (done ++ [s]) (isLargest_skip h hbefore)

/-- What the archive finds before a node is the largest transaction below the node. -/
theorem preceding_settles {d : Deadline} (hd : d.expired = false) (q : Token) (node : NodeId)
    {err cut : Tables → Prop} (hcut : cut ts) :
    Settles env (preceding d q node) ts (fun x us => ts.Precedes q node x ∧ us = ts)
      err cut := by
  have hnone : IsLargest noTransaction (ts.Below q.tree [] node) noTransaction :=
    IsLargest.none.congr fun v => by simp [Tables.Below, Tables.Covers]
  exact precedingIn_settles hd q.tree node hcut q.spans [] hnone

end Archive

end Chronicle
