/-!
# Finite maps with keys in ascending order

A `SortedMap` is a list of entries whose keys strictly ascend, so a content has exactly one
representation and a listing is in key order without any sorting.

* `get?` is the view: `get?_alter`, `get?_insert`, `get?_erase` and `get?_filterKeys` say what each
  operation does to it.
* `ext_get?`: two maps with the same view are the same map.
* `mem_toList_iff`: the listing holds exactly the bindings that the view shows.
* `KeyedBy`: the keys can be read off the values, so the values alone are a listing in key order.
-/
namespace Chronicle

universe u v

/-- Lists that a strict order sorts are equal if they have the same members. -/
theorem eq_of_sorted {α : Type u} {r : α → α → Prop} (asymm : ∀ a b, r a b → ¬ r b a)
    {l m : List α} (hl : l.Pairwise r) (hm : m.Pairwise r) (h : ∀ a, a ∈ l ↔ a ∈ m) : l = m := by
  induction l generalizing m with
  | nil => exact (List.eq_nil_iff_forall_not_mem.2 fun a ha => by simpa using (h a).2 ha).symm
  | cons a l ih =>
    cases m with
    | nil => exact absurd ((h a).1 (List.mem_cons_self ..)) (by simp)
    | cons b m =>
      rw [List.pairwise_cons] at hl hm
      simp only [List.mem_cons] at h
      have hab : a = b := by
        rcases (h a).1 (.inl rfl) with hab | ha
        · exact hab
        · rcases (h b).2 (.inl rfl) with hab | hb
          · exact hab.symm
          · exact absurd (hl.1 b hb) (asymm _ _ (hm.1 a ha))
      subst hab
      rw [ih hl.2 hm.2 fun c => ?_]
      constructor
      · intro hc
        rcases (h c).1 (.inr hc) with rfl | hc'
        · exact absurd (hl.1 c hc) (asymm _ _ (hl.1 c hc))
        · exact hc'
      · intro hc
        rcases (h c).2 (.inr hc) with rfl | hc'
        · exact absurd (hm.1 c hc) (asymm _ _ (hm.1 c hc))
        · exact hc'

/-- Entries in strictly ascending order of their keys. -/
structure SortedMap (κ : Type u) (α : Type v) [LT κ] where
  toList : List (κ × α)
  ascending : toList.Pairwise (fun a b => a.1 < b.1)

namespace SortedMap

variable {κ : Type u} {α : Type v} [LT κ]

def empty : SortedMap κ α := ⟨[], List.Pairwise.nil⟩

instance : Inhabited (SortedMap κ α) := ⟨empty⟩

instance [DecidableEq κ] [DecidableEq α] : DecidableEq (SortedMap κ α) := fun m n =>
  if h : m.toList = n.toList then
    .isTrue (by cases m; cases n; cases h; rfl)
  else
    .isFalse (fun e => h (congrArg toList e))

def keys (m : SortedMap κ α) : List κ := m.toList.map (·.1)

def values (m : SortedMap κ α) : List α := m.toList.map (·.2)

def size (m : SortedMap κ α) : Nat := m.toList.length

def isEmpty (m : SortedMap κ α) : Bool := m.toList.isEmpty

theorem eq_empty_of_isEmpty {m : SortedMap κ α} (h : m.isEmpty = true) : m = empty := by
  obtain ⟨es, hes⟩ := m
  cases es with
  | nil => rfl
  | cons e es => cases h

variable [DecidableLT κ]

/-- The value of the first entry with key `k`; the search ends at the first larger key. -/
def find (k : κ) : List (κ × α) → Option α
  | [] => none
  | e :: es => if e.1 < k then find k es else if k < e.1 then none else some e.2

/-- The value stored under `k`. -/
def get? (m : SortedMap κ α) (k : κ) : Option α := find k m.toList

def contains (m : SortedMap κ α) (k : κ) : Bool := (m.get? k).isSome

/-- An ascending list of entries with the value under `k` replaced by what `f` makes of it. -/
def change (k : κ) (f : Option α → Option α) : List (κ × α) → List (κ × α)
  | [] => ((f none).map (k, ·)).toList
  | e :: es =>
    if e.1 < k then e :: change k f es
    else if k < e.1 then ((f none).map (k, ·)).toList ++ e :: es
    else ((f (some e.2)).map (k, ·)).toList ++ es

theorem mem_change {k : κ} {f : Option α → Option α} {e : κ × α} {es : List (κ × α)}
    (h : e ∈ change k f es) : e.1 = k ∨ e ∈ es := by
  induction es with
  | nil =>
    simp only [change, Option.mem_toList, Option.map_eq_some_iff] at h
    obtain ⟨a, -, rfl⟩ := h
    exact .inl rfl
  | cons d ds ih =>
    unfold change at h
    split at h
    · rcases List.mem_cons.1 h with rfl | h
      · exact .inr (List.mem_cons_self ..)
      · exact (ih h).imp_right (List.mem_cons_of_mem d)
    · split at h
      · simp only [List.mem_append, Option.mem_toList, Option.map_eq_some_iff] at h
        rcases h with ⟨a, -, rfl⟩ | h
        · exact .inl rfl
        · exact .inr h
      · simp only [List.mem_append, Option.mem_toList, Option.map_eq_some_iff] at h
        rcases h with ⟨a, -, rfl⟩ | h
        · exact .inl rfl
        · exact .inr (List.mem_cons_of_mem d h)

section Order

variable [LE κ] [Std.IsLinearOrder κ] [Std.LawfulOrderLT κ]

omit [DecidableLT κ] in
theorem eq_of_not_lt {k l : κ} (h : ¬ k < l) (h' : ¬ l < k) : k = l :=
  Std.le_antisymm (Std.not_lt.1 h') (Std.not_lt.1 h)

theorem ascending_change (k : κ) (f : Option α → Option α) {es : List (κ × α)}
    (h : es.Pairwise (fun a b => a.1 < b.1)) :
    (change k f es).Pairwise (fun a b => a.1 < b.1) := by
  induction es with
  | nil => cases hf : f none <;> simp [change, hf]
  | cons d ds ih =>
    rw [List.pairwise_cons] at h
    unfold change
    split
    · next hlt =>
      refine List.pairwise_cons.2 ⟨fun e he => ?_, ih h.2⟩
      rcases mem_change he with rfl | he
      · exact hlt
      · exact h.1 e he
    · split
      · next hlt =>
        cases hf : f none with
        | none => simpa [hf] using h
        | some a =>
          refine List.pairwise_cons.2 ⟨?_, List.pairwise_cons.2 h⟩
          intro e he
          rcases List.mem_cons.1 he with rfl | he
          · exact hlt
          · exact Std.lt_trans hlt (h.1 e he)
      · next h1 h2 =>
        have hk : d.1 = k := eq_of_not_lt h1 h2
        subst hk
        cases hf : f (some d.2) with
        | none => simpa [hf] using h.2
        | some a => simpa [hf] using h

/-- The map with the value under `k` replaced by what `f` makes of it; `none` is no entry. -/
def alter (m : SortedMap κ α) (k : κ) (f : Option α → Option α) : SortedMap κ α :=
  ⟨change k f m.toList, ascending_change k f m.ascending⟩

/-- Stores `a` under `k`, replacing what was there. -/
def insert (m : SortedMap κ α) (k : κ) (a : α) : SortedMap κ α := m.alter k fun _ => some a

def erase (m : SortedMap κ α) (k : κ) : SortedMap κ α := m.alter k fun _ => none

end Order

omit [DecidableLT κ] in
/-- The entries whose keys satisfy `p`. -/
def filterKeys (m : SortedMap κ α) (p : κ → Bool) : SortedMap κ α :=
  ⟨m.toList.filter (fun e => p e.1), m.ascending.filter _⟩

/-! ## The view -/

section View

variable [LE κ] [Std.IsLinearOrder κ] [Std.LawfulOrderLT κ]

theorem find_eq_none_of_lt {k : κ} {es : List (κ × α)} (h : ∀ e ∈ es, k < e.1) :
    find k es = none := by
  cases es with
  | nil => rfl
  | cons e es =>
    have hlt : k < e.1 := h e (List.mem_cons_self ..)
    rw [find, if_neg (Std.not_lt.2 (Std.le_of_lt hlt)), if_pos hlt]

theorem find_eq_some_iff {k : κ} {a : α} {es : List (κ × α)}
    (h : es.Pairwise (fun a b => a.1 < b.1)) : find k es = some a ↔ (k, a) ∈ es := by
  induction es with
  | nil => simp [find]
  | cons e es ih =>
    rw [List.pairwise_cons] at h
    unfold find
    rw [List.mem_cons]
    split
    · next hlt =>
      rw [ih h.2]
      refine (or_iff_right ?_).symm
      intro he
      subst he
      exact Std.lt_irrefl hlt
    · next hge =>
      have habsent : k ≤ e.1 → (k, a) ∉ es := by
        intro hle hmem
        exact Std.not_lt.2 hle (h.1 (k, a) hmem)
      split
      · next hlt =>
        refine iff_of_false nofun ?_
        intro hmem
        rcases hmem with he | hmem
        · subst he
          exact Std.lt_irrefl hlt
        · exact habsent (Std.le_of_lt hlt) hmem
      · next hgt =>
        have hk : e.1 = k := eq_of_not_lt hge hgt
        rw [or_iff_left (habsent (Std.not_lt.1 hge)), Option.some.injEq, Prod.ext_iff]
        exact ⟨fun ha => ⟨hk.symm, ha.symm⟩, fun he => he.2.symm⟩

theorem find_change_self {k : κ} {f : Option α → Option α} {es : List (κ × α)}
    (h : es.Pairwise (fun a b => a.1 < b.1)) : find k (change k f es) = f (find k es) := by
  induction es with
  | nil => cases hf : f none <;> simp [change, find, hf, Std.lt_irrefl]
  | cons e es ih =>
    rw [List.pairwise_cons] at h
    unfold change
    split
    · next hlt =>
      simp only [find, if_pos hlt]
      exact ih h.2
    · next hlt =>
      split
      · next hgt => cases hf : f none <;> simp [find, hlt, hgt, hf, Std.lt_irrefl]
      · next hgt =>
        have hk : e.1 = k := eq_of_not_lt hlt hgt
        cases hf : f (some e.2) with
        | none =>
          have hnone : find k es = none := find_eq_none_of_lt fun d hd => hk ▸ h.1 d hd
          simp [find, hlt, hgt, hf, hnone]
        | some a => simp [find, hlt, hgt, hf, Std.lt_irrefl]

/-- An entry of another key is passed, if no key behind it is smaller. -/
theorem find_skip {k l : κ} (hne : l ≠ k) (a : α) {es : List (κ × α)}
    (hnone : l < k → find l es = none) : find l ((k, a) :: es) = find l es := by
  rw [find]
  split
  · rfl
  · next hge =>
    split
    · next hlt => exact (hnone hlt).symm
    · next hgt => exact absurd (eq_of_not_lt hgt hge) hne

theorem find_change_of_ne {k l : κ} (hne : l ≠ k) {f : Option α → Option α} {es : List (κ × α)}
    (h : es.Pairwise (fun a b => a.1 < b.1)) : find l (change k f es) = find l es := by
  induction es with
  | nil =>
    cases hf : f none with
    | none => simp [change, hf]
    | some a => simpa [change, hf] using find_skip hne a fun _ => (rfl : find l [] = none)
  | cons e es ih =>
    rw [List.pairwise_cons] at h
    unfold change
    split
    · simp only [find, ih h.2]
    · next hlt =>
      split
      · next hgt =>
        cases hf : f none with
        | none => rfl
        | some a =>
          have hnone : l < k → find l (e :: es) = none := by
            intro hl
            apply find_eq_none_of_lt
            intro d hd
            rcases List.mem_cons.1 hd with rfl | hd
            · exact Std.lt_trans hl hgt
            · exact Std.lt_trans hl (Std.lt_trans hgt (h.1 d hd))
          exact find_skip hne a hnone
      · next hgt =>
        have hk : e.1 = k := eq_of_not_lt hlt hgt
        have hnone : l < k → find l es = none := by
          intro hl
          apply find_eq_none_of_lt
          intro d hd
          exact Std.lt_trans hl (hk ▸ h.1 d hd)
        have hskip : find l (e :: es) = find l es := find_skip (hk ▸ hne) e.2 (hk ▸ hnone)
        cases hf : f (some e.2) with
        | none => exact hskip.symm
        | some a => exact (find_skip hne a hnone).trans hskip.symm

omit [LE κ] [Std.IsLinearOrder κ] [Std.LawfulOrderLT κ] in
@[simp] theorem get?_empty (k : κ) : (empty : SortedMap κ α).get? k = none := rfl

theorem get?_eq_some_iff {m : SortedMap κ α} {k : κ} {a : α} :
    m.get? k = some a ↔ (k, a) ∈ m.toList :=
  find_eq_some_iff m.ascending

theorem mem_toList_iff {m : SortedMap κ α} {e : κ × α} :
    e ∈ m.toList ↔ m.get? e.1 = some e.2 :=
  get?_eq_some_iff.symm

@[simp] theorem get?_alter_self (m : SortedMap κ α) (k : κ) (f : Option α → Option α) :
    (m.alter k f).get? k = f (m.get? k) :=
  find_change_self m.ascending

theorem get?_alter_of_ne (m : SortedMap κ α) {k l : κ} (h : l ≠ k) (f : Option α → Option α) :
    (m.alter k f).get? l = m.get? l :=
  find_change_of_ne h m.ascending

theorem get?_alter [DecidableEq κ] (m : SortedMap κ α) (k l : κ) (f : Option α → Option α) :
    (m.alter k f).get? l = if l = k then f (m.get? k) else m.get? l := by
  by_cases h : l = k
  · subst h; simp
  · rw [if_neg h, get?_alter_of_ne m h]

theorem get?_insert [DecidableEq κ] (m : SortedMap κ α) (k l : κ) (a : α) :
    (m.insert k a).get? l = if l = k then some a else m.get? l :=
  get?_alter ..

theorem get?_erase [DecidableEq κ] (m : SortedMap κ α) (k l : κ) :
    (m.erase k).get? l = if l = k then none else m.get? l :=
  get?_alter ..

theorem get?_filterKeys (m : SortedMap κ α) (p : κ → Bool) (k : κ) :
    (m.filterKeys p).get? k = if p k then m.get? k else none := by
  apply Option.ext
  intro a
  rw [get?_eq_some_iff]
  simp only [filterKeys, List.mem_filter, mem_toList_iff]
  split
  · next hp => exact and_iff_left hp
  · next hp => exact iff_of_false (fun h => hp h.2) nofun

theorem contains_insert [DecidableEq κ] (m : SortedMap κ α) (k l : κ) (a : α) :
    (m.insert k a).contains l = (l = k || m.contains l) := by
  rw [contains, get?_insert]
  split <;> simp [*, contains]

theorem contains_erase [DecidableEq κ] (m : SortedMap κ α) (k l : κ) :
    (m.erase k).contains l = (l ≠ k && m.contains l) := by
  rw [contains, get?_erase]
  split <;> simp [*, contains]

theorem mem_values_iff {m : SortedMap κ α} {a : α} : a ∈ m.values ↔ ∃ k, m.get? k = some a := by
  simp only [values, List.mem_map, Prod.exists, exists_eq_right, get?_eq_some_iff]

theorem isEmpty_iff {m : SortedMap κ α} : m.isEmpty = true ↔ ∀ k, m.get? k = none := by
  constructor
  · intro h k; rw [eq_empty_of_isEmpty h]; rfl
  · intro h
    obtain ⟨es, hes⟩ := m
    cases es with
    | nil => rfl
    | cons e es =>
      have := get?_eq_some_iff (m := ⟨e :: es, hes⟩) (k := e.1) (a := e.2)
      rw [h] at this
      simp at this

theorem isEmpty_filterKeys_iff {m : SortedMap κ α} {p : κ → Bool} :
    (m.filterKeys p).isEmpty = true ↔ ∀ k, p k = true → m.get? k = none := by
  rw [isEmpty_iff]
  refine forall_congr' fun k => ?_
  rw [get?_filterKeys]
  split <;> simp [*]

theorem ext_get? {m n : SortedMap κ α} (h : ∀ k, m.get? k = n.get? k) : m = n := by
  obtain ⟨ms, hm⟩ := m
  obtain ⟨ns, hn⟩ := n
  congr
  refine eq_of_sorted ?_ hm hn ?_
  · intro a b hab hba
    exact Std.lt_irrefl (Std.lt_trans hab hba)
  · intro e
    rw [← get?_eq_some_iff (m := ⟨ms, hm⟩), ← get?_eq_some_iff (m := ⟨ns, hn⟩), h]

/-! ## Values that know their keys -/

/-- Every value is stored under the key that `key` reads off it. -/
def KeyedBy (m : SortedMap κ α) (key : α → κ) : Prop := ∀ k a, m.get? k = some a → key a = k

namespace KeyedBy

variable {m : SortedMap κ α} {key : α → κ}

theorem filterKeys (h : m.KeyedBy key) (p : κ → Bool) : (m.filterKeys p).KeyedBy key := by
  intro k a hk
  rw [get?_filterKeys] at hk
  split at hk
  · exact h k a hk
  · cases hk

theorem mem_values_iff (h : m.KeyedBy key) {a : α} : a ∈ m.values ↔ m.get? (key a) = some a := by
  rw [SortedMap.mem_values_iff]
  constructor
  · intro ha
    obtain ⟨k, hk⟩ := ha
    rwa [h k a hk]
  · intro ha
    exact ⟨key a, ha⟩

theorem values_ascending (h : m.KeyedBy key) :
    m.values.Pairwise fun a b => key a < key b := by
  rw [values, List.pairwise_map]
  refine m.ascending.imp_of_mem fun {d e} hd he hlt => ?_
  rw [h d.1 d.2 (get?_eq_some_iff.2 hd), h e.1 e.2 (get?_eq_some_iff.2 he)]
  exact hlt

/-- A list in the order of the keys that has the values for its members is the listing. -/
theorem values_eq (h : m.KeyedBy key) {l : List α} (hl : l.Pairwise fun a b => key a < key b)
    (hmem : ∀ a, a ∈ l ↔ m.get? (key a) = some a) : m.values = l := by
  refine eq_of_sorted ?_ h.values_ascending hl fun a => h.mem_values_iff.trans (hmem a).symm
  intro a b hab hba
  exact Std.lt_irrefl (Std.lt_trans hab hba)

theorem values_filterKeys (h : m.KeyedBy key) (p : κ → Bool) :
    (m.filterKeys p).values = m.values.filter fun a => p (key a) := by
  refine (h.filterKeys p).values_eq (h.values_ascending.filter _) fun a => ?_
  rw [List.mem_filter, h.mem_values_iff, get?_filterKeys]
  split <;> simp [*]

end KeyedBy

end View

end SortedMap

end Chronicle
