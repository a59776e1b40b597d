import Chronicle.Token
import Chronicle.SortedMap

/-!
# Stored versions

A node of a branch is stored in one or more versions, each the work of one append. The versions of a
node are kept newest first, that is in descending order of their transactions, so there is at most
one version to a transaction and the first one is the newest.

Versions of several nodes are listed in *read order*: by ascending node, and for one node newest
first.

* `VersionSet.get?` is the view; `get?_insert` and `get?_remove` say what writing and removing do,
  and `ext_get?` that sets with the same view are the same set.
-/
namespace Chronicle

/-- `NodeRecord`: one version of a node. -/
structure Version where
  /-- The id of the batch's first event. -/
  node : NodeId
  /-- The transaction that wrote the version. -/
  transaction : TransactionId
  /-- The transaction of the batch that the writer saw before this one. -/
  previous : TransactionId
  blob : Bytes
  deriving DecidableEq, Repr

/-- A place in read order. -/
structure Position where
  node : NodeId
  transaction : TransactionId
  deriving DecidableEq, Repr

def Version.position (v : Version) : Position := ⟨v.node, v.transaction⟩

/-- `is_after`: whether `p` comes after `q` in read order. -/
def Position.isAfter (p q : Position) : Bool :=
  q.node < p.node || (p.node = q.node && p.transaction < q.transaction)

theorem Position.not_isAfter_of_isAfter {p q : Position} (h : p.isAfter q = true) :
    ¬ q.isAfter p = true := by
  simp only [isAfter, Bool.or_eq_true, Bool.and_eq_true, decide_eq_true_eq] at *
  intro hq
  rcases h with h | ⟨hnode, h⟩
  · rcases hq with hq | ⟨hq, -⟩
    · exact Int64.lt_asymm h hq
    · exact Int64.lt_irrefl (hq ▸ h)
  · rcases hq with hq | ⟨-, hq⟩
    · exact Int64.lt_irrefl (hnode ▸ hq)
    · exact Int64.lt_asymm h hq

inductive Insertion where
  | inserted
  /-- There was a version with that transaction already; it stays. -/
  | duplicate (existing : Version)
  deriving DecidableEq, Repr

/-- `NodeVersions`: versions in descending order of their transactions. -/
structure VersionSet where
  toList : List Version
  descending : toList.Pairwise (fun a b => b.transaction < a.transaction)
  deriving DecidableEq

namespace VersionSet

def empty : VersionSet := ⟨[], List.Pairwise.nil⟩

instance : Inhabited VersionSet := ⟨empty⟩

def singleton (v : Version) : VersionSet := ⟨[v], List.pairwise_singleton ..⟩

/-- The version of the largest transaction. -/
def latest? (vs : VersionSet) : Option Version := vs.toList.head?

def get? (vs : VersionSet) (t : TransactionId) : Option Version :=
  vs.toList.find? (·.transaction = t)

def size (vs : VersionSet) : Nat := vs.toList.length

def isEmpty (vs : VersionSet) : Bool := vs.toList.isEmpty

/-- Puts `v` before the first version with a smaller transaction. -/
def place (v : Version) : List Version → List Version
  | [] => [v]
  | w :: ws => if w.transaction < v.transaction then v :: w :: ws else w :: place v ws

theorem mem_place {v w : Version} {ws : List Version} : w ∈ place v ws ↔ w = v ∨ w ∈ ws := by
  induction ws with
  | nil => simp [place]
  | cons u us ih =>
    unfold place
    split
    · exact List.mem_cons
    · rw [List.mem_cons, ih, List.mem_cons, or_left_comm]

theorem descending_place {v : Version} {ws : List Version}
    (h : ws.Pairwise (fun a b => b.transaction < a.transaction))
    (hne : ∀ w ∈ ws, w.transaction ≠ v.transaction) :
    (place v ws).Pairwise (fun a b => b.transaction < a.transaction) := by
  induction ws with
  | nil => simp [place]
  | cons u us ih =>
    rw [List.pairwise_cons] at h
    unfold place
    split
    · next hlt =>
      refine List.pairwise_cons.2 ⟨?_, List.pairwise_cons.2 h⟩
      intro w hw
      rcases List.mem_cons.1 hw with rfl | hw
      · exact hlt
      · exact Int64.lt_trans (h.1 w hw) hlt
    · next hge =>
      refine List.pairwise_cons.2 ⟨?_, ih h.2 fun w hw => hne w (List.mem_cons_of_mem _ hw)⟩
      intro w hw
      rcases mem_place.1 hw with rfl | hw
      · exact Int64.lt_of_le_of_ne (Int64.not_lt.1 hge) (hne u (List.mem_cons_self ..)).symm
      · exact h.1 w hw

theorem get?_eq_none_iff {vs : VersionSet} {t : TransactionId} :
    vs.get? t = none ↔ ∀ w ∈ vs.toList, w.transaction ≠ t := by
  simp [get?]

/-- Adds a version unless there is one with its transaction. -/
def insert (vs : VersionSet) (v : Version) : Insertion × VersionSet :=
  match h : vs.get? v.transaction with
  | some existing => (.duplicate existing, vs)
  | none => (.inserted, ⟨place v vs.toList, descending_place vs.descending (get?_eq_none_iff.1 h)⟩)

def remove (vs : VersionSet) (t : TransactionId) : VersionSet :=
  ⟨vs.toList.filter (·.transaction ≠ t), vs.descending.filter _⟩

theorem get?_eq_some_iff {vs : VersionSet} {t : TransactionId} {v : Version} :
    vs.get? t = some v ↔ v ∈ vs.toList ∧ v.transaction = t := by
  obtain ⟨ws, h⟩ := vs
  simp only [get?]
  induction ws with
  | nil => simp
  | cons u us ih =>
    rw [List.pairwise_cons] at h
    by_cases hu : u.transaction = t
    · simp only [List.find?_cons, hu, decide_true, Option.some.injEq, List.mem_cons]
      refine ⟨?_, ?_⟩
      · intro huv
        exact ⟨.inl huv.symm, huv ▸ hu⟩
      · intro hv
        obtain ⟨rfl | hmem, ht⟩ := hv
        · rfl
        · -- another version of the transaction would be earlier than itself
          exact absurd (h.1 v hmem) (by rw [ht, hu]; exact Int64.lt_irrefl)
    · simp only [List.find?_cons, hu, decide_false, ih h.2, List.mem_cons]
      refine ⟨fun hv => ⟨.inr hv.1, hv.2⟩, ?_⟩
      intro hv
      obtain ⟨rfl | hmem, ht⟩ := hv
      · exact absurd ht hu
      · exact ⟨hmem, ht⟩

theorem get?_remove (vs : VersionSet) (t u : TransactionId) :
    (vs.remove t).get? u = if u = t then none else vs.get? u := by
  apply Option.ext
  intro v
  rw [get?_eq_some_iff]
  split
  · next hu =>
    simp only [remove, List.mem_filter, decide_eq_true_eq]
    exact iff_of_false (fun hv => hv.1.2 (hv.2.trans hu)) nofun
  · next hu =>
    simp only [get?_eq_some_iff, remove, List.mem_filter, decide_eq_true_eq]
    refine ⟨fun hv => ⟨hv.1.1, hv.2⟩, ?_⟩
    intro hv
    exact ⟨⟨hv.1, hv.2 ▸ hu⟩, hv.2⟩

theorem get?_insert (vs : VersionSet) (v : Version) (t : TransactionId) :
    (vs.insert v).2.get? t =
      if t = v.transaction then some ((vs.get? t).getD v) else vs.get? t := by
  unfold insert
  split
  · next existing h => by_cases ht : t = v.transaction <;> simp [ht, h]
  · next h =>
    apply Option.ext
    intro w
    have hnone := get?_eq_none_iff.1 h
    rw [get?_eq_some_iff, mem_place]
    split
    · next ht =>
      rw [ht, h, Option.getD_none, Option.some.injEq]
      refine ⟨?_, ?_⟩
      · intro hw
        obtain ⟨rfl | hmem, hwt⟩ := hw
        · rfl
        · exact absurd hwt (hnone w hmem)
      · intro hvw
        exact ⟨.inl hvw.symm, hvw ▸ rfl⟩
    · next ht =>
      rw [get?_eq_some_iff]
      refine ⟨?_, fun hw => ⟨.inr hw.1, hw.2⟩⟩
      intro hw
      obtain ⟨rfl | hmem, hwt⟩ := hw
      · exact absurd hwt.symm ht
      · exact ⟨hmem, hwt⟩

/-- What an insertion answers: the version that was there already, if there was one. -/
theorem insert_fst (vs : VersionSet) (v : Version) :
    (vs.insert v).1 = (vs.get? v.transaction).elim .inserted .duplicate := by
  unfold insert
  split <;> next h => simp only [h, Option.elim]

theorem mem_insert {vs : VersionSet} {v w : Version} (h : w ∈ (vs.insert v).2.toList) :
    w = v ∨ w ∈ vs.toList := by
  unfold insert at h
  split at h
  · exact .inr h
  · exact mem_place.1 h

theorem get?_of_isEmpty {vs : VersionSet} (h : vs.isEmpty = true) (t : TransactionId) :
    vs.get? t = none := by
  simp only [isEmpty, List.isEmpty_iff] at h
  simp [get?, h]

theorem isEmpty_insert (vs : VersionSet) (v : Version) : (vs.insert v).2.isEmpty = false := by
  cases h : (vs.insert v).2.isEmpty with
  | false => rfl
  | true =>
    have := get?_insert vs v v.transaction
    rw [get?_of_isEmpty h, if_pos rfl] at this
    cases this

theorem ext_get? {vs ws : VersionSet} (h : ∀ t, vs.get? t = ws.get? t) : vs = ws := by
  obtain ⟨l, hl⟩ := vs
  obtain ⟨m, hm⟩ := ws
  congr
  refine eq_of_sorted ?_ hl hm ?_
  · intro a b hab hba
    exact Int64.lt_asymm hab hba
  · intro v
    have h1 := @get?_eq_some_iff ⟨l, hl⟩ v.transaction v
    have h2 := @get?_eq_some_iff ⟨m, hm⟩ v.transaction v
    rw [h] at h1
    simp only [and_true] at h1 h2
    exact h1.symm.trans h2

theorem le_of_latest? {vs : VersionSet} {v : Version} (h : vs.latest? = some v) :
    ∀ w ∈ vs.toList, w.transaction ≤ v.transaction := by
  obtain ⟨ws, hd⟩ := vs
  cases ws with
  | nil => simp
  | cons u us =>
    simp only [latest?, List.head?_cons, Option.some.injEq] at h
    subst h
    rw [List.pairwise_cons] at hd
    intro w hw
    rcases List.mem_cons.1 hw with rfl | hw
    · exact Int64.le_refl _
    · exact Int64.le_of_lt (hd.1 w hw)

end VersionSet

end Chronicle
