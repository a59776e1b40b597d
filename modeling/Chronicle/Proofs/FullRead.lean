import Chronicle.Proofs.Log
import Chronicle.Proofs.Paging

/-!
# Reading all of a branch

A read of a window of a branch, page after page and with pages of any sizes, gives the history of
the window (`readsWindow_history`), and nothing else (`ReadsWindow.unique`). A read of all nodes
gives the log of the branch (`readsAll_log`).
-/
namespace Chronicle.Archive

theorem Paged.unique {σ α : Type} {read : UInt64 → Bytes → Action σ (Page α)} {sizes : Nat → UInt64}
    {i : Nat} {token : Bytes} {s t u : State σ} {pages pages' : List (Page α)}
    (h : Paged read sizes i token s pages t) (h' : Paged read sizes i token s pages' u) :
    pages = pages' := by
  induction h generalizing pages' u with
  | last hread hnext =>
    cases h' with
    | last hread' _ =>
      rw [hread] at hread'
      cases hread'
      rfl
    | more hread' hnext' _ =>
      rw [hread] at hread'
      cases hread'
      exact absurd hnext hnext'
  | more hread hnext _ ih =>
    cases h' with
    | last hread' hnext' =>
      rw [hread] at hread'
      cases hread'
      exact absurd hnext' hnext
    | more hread' _ hrest' =>
      rw [hread] at hread'
      cases hread'
      rw [ih hrest']

/-- The first page of what is followed to its end is an answer. -/
theorem Paged.answer_ok {σ α : Type} {read : UInt64 → Bytes → Action σ (Page α)}
    {sizes : Nat → UInt64} {i : Nat} {token : Bytes} {s t : State σ} {pages : List (Page α)}
    (h : Paged read sizes i token s pages t) :
    ∃ page, (read (sizes i) token).answer s = .ok page := by
  cases h with
  | last hread _ => exact ⟨_, by rw [Action.answer, hread]⟩
  | more hread _ _ => exact ⟨_, by rw [Action.answer, hread]⟩

/-- Every page of these sizes leaves room for one more version in a fetch. -/
def Countable (a : Archive) (sizes : Nat → UInt64) : Prop :=
  ∀ i, (a.config.effectivePageSize (sizes i)).toNat + 1 < UInt64.size

theorem countable_one (a : Archive) : a.Countable fun _ => 1 := by
  intro i
  have h : (a.config.effectivePageSize 1).toNat ≤ 1 := by
    simp only [Config.effectivePageSize, if_neg (show ¬ (1 : UInt64) = 0 by decide)]
    split
    · next hlt => exact Nat.le_of_lt (UInt64.lt_iff_toNat_lt.1 hlt)
    · exact Nat.le_refl _
  exact Nat.lt_of_le_of_lt (Nat.succ_le_succ h) (by decide)

/-- Following a raw read of a window of branch `b` to its end, with pages of any sizes, gives `vs`.
If these are none, the read says so. -/
def ReadsWindow (a : Archive) (s : State MemoryStore) (bytes : Bytes) (b : BranchId)
    (min max : EventId) (vs : List Version) : Prop :=
  ∀ sizes, a.Countable sizes →
    (vs = [] → (a.readRaw ⟨bytes, min, max, sizes 0, []⟩).answer s =
      .error (.notFound (.events min max b))) ∧
    (vs ≠ [] → ∃ pages t,
      Paged (fun size page => a.readRaw ⟨bytes, min, max, size, page⟩) sizes 0 [] s pages t ∧
        pages.flatMap (·.items) = vs)

/-- Following a raw read of all nodes of branch `b` to its end, with pages of any sizes, gives `vs`.
If these are none, the read says so. -/
def ReadsAll (a : Archive) (s : State MemoryStore) (bytes : Bytes) (b : BranchId)
    (vs : List Version) : Prop :=
  ∀ sizes, a.Countable sizes →
    (vs = [] → (a.readRaw ⟨bytes, firstEvent, nodeLimit, sizes 0, []⟩).answer s =
      .error (.notFound (.events firstEvent nodeLimit b))) ∧
    (vs ≠ [] → ∃ pages t,
      Paged (fun size page => a.readRaw ⟨bytes, firstEvent, nodeLimit, size, page⟩) sizes 0 [] s
        pages t ∧ pages.flatMap (·.items) = vs)

variable {a : Archive} {s : State MemoryStore} {bytes : Bytes}

theorem readsWindow_history (htime : a.InTime) (hs : s.Unarmed) {row : BranchRow}
    (hrow : s.tables.Names bytes row) (hlineage : Lineage.Follows firstEvent row.token.lineage)
    {min max : EventId} (hmin : firstEvent ≤ min) (hmax : min < max) :
    a.ReadsWindow s bytes row.branch min max (s.tables.history (.window row.token min max)) := by
  intro sizes hsizes
  constructor
  · intro hempty
    exact (readRaw_notFound_iff htime hmin hmax hlineage (hsizes 0) hs hrow).2 hempty
  · intro hsome
    obtain ⟨pages, t, hpages, hitems, -⟩ :=
      readRaw_paged htime hmin hmax hsizes hlineage hs hrow hsome
    exact ⟨pages, t, hpages, hitems⟩

theorem readsAll_log (htime : a.InTime) (hs : s.Unarmed) {row : BranchRow}
    (hrow : s.tables.Names bytes row) (hlineage : Lineage.Follows firstEvent row.token.lineage) :
    a.ReadsAll s bytes row.branch (s.tables.log row.token) :=
  readsWindow_history htime hs hrow hlineage (Int64.le_refl _) (by decide)

theorem ReadsWindow.unique {b : BranchId} {min max : EventId} {vs ws : List Version}
    (h : a.ReadsWindow s bytes b min max vs) (h' : a.ReadsWindow s bytes b min max ws) :
    vs = ws := by
  obtain ⟨hnone, hsome⟩ := h _ a.countable_one
  obtain ⟨hnone', hsome'⟩ := h' _ a.countable_one
  by_cases hvs : vs = []
  · by_cases hws : ws = []
    · rw [hvs, hws]
    · obtain ⟨pages, t, hpages, -⟩ := hsome' hws
      obtain ⟨page, hpage⟩ := hpages.answer_ok
      rw [hnone hvs] at hpage
      cases hpage
  · obtain ⟨pages, t, hpages, hitems⟩ := hsome hvs
    by_cases hws : ws = []
    · obtain ⟨page, hpage⟩ := hpages.answer_ok
      rw [hnone' hws] at hpage
      cases hpage
    · obtain ⟨pages', t', hpages', hitems'⟩ := hsome' hws
      rw [← hitems, ← hitems', hpages.unique hpages']

theorem ReadsAll.unique {b : BranchId} {vs ws : List Version} (h : a.ReadsAll s bytes b vs)
    (h' : a.ReadsAll s bytes b ws) : vs = ws :=
  ReadsWindow.unique h h'

end Chronicle.Archive
