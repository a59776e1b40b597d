import Chronicle.SortedMap
import Chronicle.Storage.Version

/-!
# The nodes of a branch

What is stored of one branch: its nodes, ascending, and under each node the versions of it. A node
without versions is not listed, and every version is listed under its own node.

* `Nodes.get?` is the view; `get?_insert`, `get?_restrict` and `get?_erase` say what each operation
  does to it, and `ext_get?` that contents with the same view are the same content.
* `mem_toList_iff` and `toList_ascending`: the listing holds exactly the stored versions, in read
  order.
-/
namespace Chronicle

/-- The versions of the nodes of a branch. -/
structure Nodes where
  sets : SortedMap NodeId VersionSet
  inhabited : ∀ n vs, sets.get? n = some vs → vs.isEmpty = false
  own : ∀ n vs, sets.get? n = some vs → ∀ v ∈ vs.toList, v.node = n
  deriving DecidableEq

namespace Nodes

def empty : Nodes := ⟨.empty, (fun _ _ h => nomatch h), (fun _ _ h => nomatch h)⟩

instance : Inhabited Nodes := ⟨empty⟩

def isEmpty (ns : Nodes) : Bool := ns.sets.isEmpty

def versions (ns : Nodes) (n : NodeId) : VersionSet := (ns.sets.get? n).getD .empty

/-- The version of a node that a transaction wrote. -/
def get? (ns : Nodes) (n : NodeId) (x : TransactionId) : Option Version := (ns.versions n).get? x

/-- All versions, in read order. -/
def toList (ns : Nodes) : List Version := ns.sets.values.flatMap (·.toList)

def size (ns : Nodes) : Nat := ns.sets.values.foldr (·.size + ·) 0

/-- The largest transaction, which is that of the newest version of some node. -/
def largest? (ns : Nodes) : Option TransactionId :=
  (ns.sets.values.filterMap fun vs => vs.latest?.map (·.transaction)).max?

theorem versions_own {ns : Nodes} {n : NodeId} {v : Version} (h : v ∈ (ns.versions n).toList) :
    v.node = n := by
  unfold versions at h
  cases hs : ns.sets.get? n with
  | none => simp [hs, VersionSet.empty] at h
  | some vs => exact ns.own n vs hs v (by simpa [hs] using h)

def restrict (ns : Nodes) (p : NodeId → Bool) : Nodes where
  sets := ns.sets.filterKeys p
  inhabited n vs h := by
    rw [SortedMap.get?_filterKeys] at h
    split at h
    · exact ns.inhabited n vs h
    · cases h
  own n vs h := by
    rw [SortedMap.get?_filterKeys] at h
    split at h
    · exact ns.own n vs h
    · cases h

/-- Adds a version unless there is one with its node and transaction. -/
def insert (ns : Nodes) (v : Version) : Insertion × Nodes :=
  let outcome := (ns.versions v.node).insert v
  (outcome.1,
    { sets := ns.sets.insert v.node outcome.2
      inhabited := fun n vs h => by
        rw [SortedMap.get?_insert] at h
        split at h
        · cases h; exact VersionSet.isEmpty_insert ..
        · exact ns.inhabited n vs h
      own := fun n vs h w hw => by
        rw [SortedMap.get?_insert] at h
        split at h
        · next hn =>
          cases h
          rcases VersionSet.mem_insert hw with rfl | hw
          · exact hn.symm
          · exact hn ▸ versions_own hw
        · exact ns.own n vs h w hw })

def erase (ns : Nodes) (n : NodeId) (x : TransactionId) : Nodes where
  sets := ns.sets.alter n fun vs => (vs.map (·.remove x)).filter (!·.isEmpty)
  inhabited m vs h := by
    rw [SortedMap.get?_alter] at h
    split at h
    · simpa using (Option.filter_eq_some_iff.1 h).2
    · exact ns.inhabited m vs h
  own m vs h w hw := by
    rw [SortedMap.get?_alter] at h
    split at h
    · next hm =>
      obtain ⟨us, hu, rfl⟩ := Option.map_eq_some_iff.1 (Option.filter_eq_some_iff.1 h).1
      exact hm ▸ ns.own n us hu w ((List.mem_filter.1 hw).1)
    · exact ns.own m vs h w hw

/-! ## The view -/

@[simp] theorem get?_empty (n : NodeId) (x : TransactionId) : empty.get? n x = none := rfl

theorem get?_eq_some {ns : Nodes} {n : NodeId} {x : TransactionId} {v : Version}
    (h : ns.get? n x = some v) : v.node = n ∧ v.transaction = x :=
  have h := VersionSet.get?_eq_some_iff.1 h
  ⟨versions_own h.1, h.2⟩

theorem get?_restrict (ns : Nodes) (p : NodeId → Bool) (n : NodeId) (x : TransactionId) :
    (ns.restrict p).get? n x = if p n then ns.get? n x else none := by
  simp only [get?, versions, restrict, SortedMap.get?_filterKeys]
  split <;> rfl

/-- What an insertion answers: the version that was there already, if there was one. -/
theorem insert_fst (ns : Nodes) (v : Version) :
    (ns.insert v).1 = (ns.get? v.node v.transaction).elim .inserted .duplicate :=
  VersionSet.insert_fst ..

theorem get?_insert (ns : Nodes) (v : Version) (n : NodeId) (x : TransactionId) :
    (ns.insert v).2.get? n x =
      if n = v.node ∧ x = v.transaction then some ((ns.get? n x).getD v) else ns.get? n x := by
  simp only [get?, versions, insert, SortedMap.get?_insert]
  by_cases hn : n = v.node
  · subst hn
    simp only [if_true, true_and, Option.getD_some, VersionSet.get?_insert]
  · simp [hn]

theorem get?_erase (ns : Nodes) (n m : NodeId) (x y : TransactionId) :
    (ns.erase n x).get? m y = if m = n ∧ y = x then none else ns.get? m y := by
  simp only [get?, versions, erase, SortedMap.get?_alter]
  by_cases hm : m = n
  · subst hm
    cases ns.sets.get? m with
    | none => simp [VersionSet.empty, VersionSet.get?]
    | some vs =>
      simp only [if_true, true_and, Option.map_some, Option.getD_some]
      rw [← VersionSet.get?_remove]
      by_cases he : (vs.remove x).isEmpty = true
      · simp only [Option.filter, he, VersionSet.get?_of_isEmpty he]; rfl
      · simp [Option.filter, he]
  · simp [hm]

theorem mem_toList_iff {ns : Nodes} {v : Version} :
    v ∈ ns.toList ↔ ns.get? v.node v.transaction = some v := by
  simp only [toList, List.mem_flatMap, SortedMap.mem_values_iff]
  constructor
  · rintro ⟨vs, ⟨n, hn⟩, hv⟩
    have hvn := ns.own n vs hn v hv
    subst hvn
    rw [get?, versions, hn]
    exact VersionSet.get?_eq_some_iff.2 ⟨hv, rfl⟩
  · intro h
    have hv := (VersionSet.get?_eq_some_iff.1 h).1
    rw [versions] at hv
    cases hs : ns.sets.get? v.node with
    | none => simp [hs, VersionSet.empty] at hv
    | some vs => exact ⟨vs, ⟨v.node, hs⟩, by simpa [hs] using hv⟩

theorem isEmpty_iff {ns : Nodes} : ns.isEmpty = true ↔ ∀ n x, ns.get? n x = none := by
  rw [isEmpty, SortedMap.isEmpty_iff]
  constructor
  · intro h n x; rw [get?, versions, h]; rfl
  · intro h n
    cases hs : ns.sets.get? n with
    | none => rfl
    | some vs =>
      have hi := ns.inhabited n vs hs
      obtain ⟨l, hl⟩ := vs
      cases l with
      | nil => cases hi
      | cons v l =>
        have hv := h n v.transaction
        simp [get?, versions, hs, VersionSet.get?] at hv

/-- A node is listed if it has versions, and with exactly those. -/
theorem get?_sets (ns : Nodes) (n : NodeId) :
    ns.sets.get? n = if (ns.versions n).isEmpty then none else some (ns.versions n) := by
  unfold versions
  cases h : ns.sets.get? n with
  | none => rfl
  | some vs => simp [ns.inhabited n vs h]

theorem ext_get? {ns ms : Nodes} (h : ∀ n x, ns.get? n x = ms.get? n x) : ns = ms := by
  have hv : ∀ n, ns.versions n = ms.versions n := fun n => VersionSet.ext_get? (h n)
  have hs : ns.sets = ms.sets := SortedMap.ext_get? fun n => by rw [get?_sets, get?_sets, hv]
  cases ns
  cases ms
  cases hs
  rfl

/-! ## The listing -/

/-- The versions of entries in ascending order of their nodes are in read order. -/
theorem ascending_flatMap {es : List (NodeId × VersionSet)}
    (h : es.Pairwise (fun a b => a.1 < b.1)) (hown : ∀ e ∈ es, ∀ v ∈ e.2.toList, v.node = e.1) :
    (es.flatMap (·.2.toList)).Pairwise (fun a b => b.position.isAfter a.position = true) := by
  induction es with
  | nil => exact List.Pairwise.nil
  | cons e es ih =>
    rw [List.pairwise_cons] at h
    rw [List.flatMap_cons, List.pairwise_append]
    refine ⟨?_, ih h.2 fun d hd => hown d (List.mem_cons_of_mem _ hd), ?_⟩
    · refine e.2.descending.imp_of_mem fun ha hb hab => ?_
      have h1 := hown e (List.mem_cons_self ..) _ ha
      have h2 := hown e (List.mem_cons_self ..) _ hb
      simp [Position.isAfter, Version.position, h1, h2, hab]
    · intro v hv w hw
      obtain ⟨d, hd, hw⟩ := List.mem_flatMap.1 hw
      have h1 := hown e (List.mem_cons_self ..) _ hv
      have h2 := hown d (List.mem_cons_of_mem _ hd) _ hw
      have := h.1 d hd
      simp [Position.isAfter, Version.position, h1, h2, this]

theorem toList_ascending (ns : Nodes) :
    ns.toList.Pairwise (fun a b => b.position.isAfter a.position = true) := by
  have h := ascending_flatMap ns.sets.ascending fun e he =>
    ns.own e.1 e.2 (SortedMap.get?_eq_some_iff.2 he)
  rwa [toList, SortedMap.values, List.flatMap_map]

theorem toList_restrict (ns : Nodes) (p : NodeId → Bool) :
    (ns.restrict p).toList = ns.toList.filter fun v => p v.node := by
  refine eq_of_sorted (fun a b hab hba => Position.not_isAfter_of_isAfter hab hba)
    (toList_ascending _) ((toList_ascending ns).filter _) fun v => ?_
  rw [mem_toList_iff, get?_restrict, List.mem_filter, mem_toList_iff]
  split <;> simp_all

theorem size_eq_length (ns : Nodes) : ns.size = ns.toList.length := by
  simp [size, toList, List.length_flatMap, VersionSet.size, List.sum, List.foldr_map]

end Nodes

end Chronicle
