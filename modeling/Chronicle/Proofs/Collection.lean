import Chronicle.Proofs.Run

/-!
# Nothing is left behind

After every operation of a run each stored version is referenced, and a tree is known exactly if it
has a row. So what deletions leave is determined by the rows that remain (`Tables.Without`),
whatever the order of the deletions, and nothing is left once all branches are deleted.

* `delete_deletes`: a deletion with the current lease and an issued token of a branch with a row
  succeeds.
* `deleteAll_without`: what a sequence of deletions leaves.
* `Reaches.collected`: the results, for every run.
-/
namespace Chronicle

open Archive (State)
open Chronicle.Action (Meets)

/-! ## Contents without some branches -/

/-- `us` is `ts` without the rows of the branches `gone`, and without the versions that are
referenced no more then. -/
structure Tables.Without (ts : Tables) (gone : TreeId → BranchId → Prop) (us : Tables) : Prop where
  rows : ∀ t b row, us.row? t b = some row ↔ ts.row? t b = some row ∧ ¬ gone t b
  versions : ∀ t b n x v, us.version? t b n x = some v ↔
    ts.version? t b n x = some v ∧ us.Referenced t b n
  known : ∀ t, us.hasTree t = true ↔ ∃ b row, us.row? t b = some row

namespace Tables

variable {ts us vs : Tables} {gone more : TreeId → BranchId → Prop}

theorem referenced_congr (h : ∀ t b row, us.row? t b = some row ↔ vs.row? t b = some row)
    {t : TreeId} {b : BranchId} {n : NodeId} : us.Referenced t b n ↔ vs.Referenced t b n := by
  simp only [Referenced, h]

theorem Without.unique (h : ts.Without gone us) (h' : ts.Without gone vs) : us = vs := by
  have hrows : ∀ t b row, us.row? t b = some row ↔ vs.row? t b = some row := by
    intro t b row
    rw [h.rows, h'.rows]
  apply ext_views
  · intro t
    rw [Bool.eq_iff_iff, h.known, h'.known]
    simp only [hrows]
  · intro t b
    exact Option.ext (hrows t b)
  · intro t b n x
    apply Option.ext
    intro v
    rw [h.versions, h'.versions, referenced_congr hrows]

theorem Without.eq_empty (h : ts.Without gone us)
    (hgone : ∀ t b row, ts.row? t b = some row → gone t b) : us = .empty := by
  have hnone : ∀ t b row, us.row? t b ≠ some row := by
    intro t b row hrow
    obtain ⟨hold, hleft⟩ := (h.rows t b row).1 hrow
    exact hleft (hgone t b row hold)
  apply ext_views
  · intro t
    apply Bool.eq_false_iff.2
    intro hknown
    obtain ⟨b, row, hrow⟩ := (h.known t).1 hknown
    exact hnone t b row hrow
  · intro t b
    exact Option.eq_none_iff_forall_ne_some.2 (hnone t b)
  · intro t b n x
    apply Option.eq_none_iff_forall_ne_some.2
    intro v hv
    rcases ((h.versions t b n x v).1 hv).2 with ⟨row, hrow⟩ | ⟨c, row, hrow, -⟩
    · exact hnone t b row hrow
    · exact hnone t c row hrow

theorem Without.congr (h : ts.Without gone us) (hgone : ∀ t b, gone t b ↔ more t b) :
    ts.Without more us := by
  have heq : gone = more := by
    funext t b
    exact propext (hgone t b)
  exact heq ▸ h

variable {known : Token → Prop}

/-- Tidy contents are what they are without any branch gone. -/
theorem without_none (h : Tidy known ts) : ts.Without (fun _ _ => False) ts where
  rows t b row := by simp
  versions t b n x v := ⟨fun hv => ⟨hv, h.referenced t b n x v hv⟩, fun hv => hv.1⟩
  known := h.tree

theorem Without.delete (hf : Family known) (h : Tidy known us) (hus : ts.Without gone us)
    {q : Token} (hq : known q) (hd : us.Deletes q vs) (hspares : us.Spares q.tree q.branch vs) :
    ts.Without (fun t b => gone t b ∨ t = q.tree ∧ b = q.branch) vs where
  rows t b row := by
    rw [hd.rows, not_or, ← and_assoc, ← hus.rows]
    split
    · next hb => simp [hb]
    · next hb => simp [hb]
  versions t b n x v := by
    rw [Tidy.version_of_deletes hf h hq hd hspares, hus.versions]
    constructor
    · intro hv
      exact ⟨hv.1.1, hv.2⟩
    · intro hv
      exact ⟨⟨hv.1, hv.2.mono fun c row hrow => Tidy.row_of_deletes hd hrow⟩, hv.2⟩
  known := (h.deletes hf hq hd).tree

end Tables

/-! ## Deletions one after the other -/

namespace Archive

def deleteAll {σ : Type} [Backend σ] (a : Archive) : List DeleteRequest → Action σ (List Nat)
  | [] => return []
  | req :: rest => do
    let removed ← a.delete req
    return removed :: (← a.deleteAll rest)

/-- The requests ask to delete the branch. -/
def Targets (reqs : List DeleteRequest) (t : TreeId) (b : BranchId) : Prop :=
  ∃ req ∈ reqs, ∃ q, Token.decode req.token = .ok q ∧ t = q.tree ∧ b = q.branch

/-- The request comes with the current lease and an issued token of a branch that has a row. -/
structure Deletable (s : State MemoryStore) (issued : List Bytes) (req : DeleteRequest) : Prop where
  lease : s.leases.current req.shard = some req.lease
  branch : ∃ q row, Token.decode req.token = .ok q ∧ Known issued q ∧
    s.tables.row? q.tree q.branch = some row

variable {a : Archive} {s : State MemoryStore} {issued : List Bytes}

/-- A deletion in time with the current lease and a token succeeds. -/
theorem delete_deletes (hs : s.Unarmed) (htime : a.InTime) {req : DeleteRequest}
    (hlease : s.leases.current req.shard = some req.lease) {q : Token}
    (hq : Token.decode req.token = .ok q) :
    Meets (a.delete req) s
      (fun _ t => t.Unarmed ∧ t.leases = s.leases ∧ t.drawn = s.drawn ∧
        s.tables.Deletes q t.tables ∧ s.tables.Spares q.tree q.branch t.tables)
      fun _ _ => False := by
  apply ((delete_meets a req hs).and (delete_keeps a hq s (.refl ..))).imp
  · intro n t h
    obtain ⟨⟨ht, hdrawn, p, hp, hd⟩, hspares, hcalm, -⟩ := h
    cases hq.symm.trans hp
    exact ⟨ht, hcalm.leases, hdrawn, hd, hspares⟩
  · intro e t h
    obtain ⟨⟨-, -, -, hnone⟩, -⟩ := h
    exact hnone ⟨htime, hlease, q, hq⟩

theorem targets_cons {req : DeleteRequest} {rest : List DeleteRequest} {q : Token}
    (hq : Token.decode req.token = .ok q) {t : TreeId} {b : BranchId} :
    Targets (req :: rest) t b ↔ (t = q.tree ∧ b = q.branch) ∨ Targets rest t b := by
  simp only [Targets, List.mem_cons, or_and_right, exists_or, exists_eq_left, hq, Except.ok.injEq,
    exists_eq_left']

/-- **Deletions one after the other.** They succeed, and leave the contents without their branches.
-/
theorem deleteAll_without {ts : Tables} {gone : TreeId → BranchId → Prop} (htime : a.InTime)
    {reqs : List DeleteRequest} (hs : s.Unarmed) (h : Orderly a s.tables s.drawn issued)
    (hgone : ts.Without gone s.tables)
    (hreqs : ∀ req ∈ reqs, s.leases.current req.shard = some req.lease ∧
      ∃ q, Token.decode req.token = .ok q ∧ Known issued q) :
    Meets (a.deleteAll reqs) s
      (fun _ t => ts.Without (fun t b => gone t b ∨ Targets reqs t b) t.tables)
      fun _ _ => False := by
  induction reqs generalizing s gone with
  | nil => exact Action.meets_pure.2 (hgone.congr fun t b => by simp [Targets])
  | cons req rest ih =>
    obtain ⟨hlease, q, hq, hknown⟩ := hreqs req (List.mem_cons_self ..)
    unfold deleteAll
    rw [Action.meets_bind]
    refine (delete_deletes hs htime hlease hq).imp (fun n t ht => ?_) fun _ _ h => h
    obtain ⟨ht, hleases, hdrawn, hd, hspares⟩ := ht
    have horderly : Orderly a t.tables t.drawn issued := by
      rw [hdrawn]
      exact h.change (h.tidy.deletes h.family hknown hd) fun _ _ _ _ => htime
    have hrest := ih ht horderly (hgone.delete h.family h.tidy hknown hd hspares) fun r hr => by
      rw [hleases]
      exact hreqs r (List.mem_cons_of_mem _ hr)
    rw [Action.meets_bind]
    refine hrest.imp (fun counts u hu => ?_) fun _ _ h => h
    rw [Action.meets_pure]
    apply hu.congr
    intro t b
    rw [targets_cons hq, or_assoc]

theorem Reaches.deleteAll (h : Reaches a s issued) (hdistinct : a.DistinctDraws s.drawn)
    {reqs : List DeleteRequest} (hreqs : ∀ req ∈ reqs, Deletable s issued req) :
    (∃ counts, (a.deleteAll reqs).answer s = .ok counts) ∧
      s.tables.Without (Targets reqs) ((a.deleteAll reqs).final s).tables := by
  have horderly := h.orderly hdistinct
  have hnone := Tables.without_none horderly.tidy
  have hgenuine : ∀ req ∈ reqs, s.leases.current req.shard = some req.lease ∧
      ∃ q, Token.decode req.token = .ok q ∧ Known issued q := by
    intro req hreq
    obtain ⟨hlease, q, row, hq, hknown, -⟩ := hreqs req hreq
    exact ⟨hlease, q, hq, hknown⟩
  cases reqs with
  | nil => exact ⟨⟨[], rfl⟩, hnone.congr fun t b => by simp [Targets]⟩
  | cons first rest =>
    obtain ⟨-, q, row, -, -, hrow⟩ := hreqs first (List.mem_cons_self ..)
    have htime : a.InTime := horderly.time _ _ _ hrow
    rcases Action.outcome_of_meets (deleteAll_without htime h.unarmed horderly hnone hgenuine) with
      ⟨counts, hcounts, hwithout⟩ | ⟨_, _, hfalse⟩
    · exact ⟨⟨counts, hcounts⟩, hwithout.congr fun t b => by rw [false_or]⟩
    · exact hfalse.elim

/-- **Nothing is left behind.** After every run each stored version is referenced, and a tree is
known exactly if it has a row. Deletions of branches with a row succeed, and what they leave does
not depend on their order; nothing is left if all branches are deleted. -/
theorem Reaches.collected (h : Reaches a s issued) (hdistinct : a.DistinctDraws s.drawn) :
    (∀ t b n x v, s.tables.version? t b n x = some v → s.tables.Referenced t b n) ∧
      (∀ t, s.tables.hasTree t = true ↔ ∃ b row, s.tables.row? t b = some row) ∧
      ∀ reqs : List DeleteRequest, (∀ req ∈ reqs, Deletable s issued req) →
        (∃ counts, (a.deleteAll reqs).answer s = .ok counts) ∧
        (∀ others : List DeleteRequest, (∀ req ∈ others, Deletable s issued req) →
          (∀ t b, Targets others t b ↔ Targets reqs t b) →
            ((a.deleteAll others).final s).tables = ((a.deleteAll reqs).final s).tables) ∧
        ((∀ t b row, s.tables.row? t b = some row → Targets reqs t b) →
          ((a.deleteAll reqs).final s).tables = .empty) := by
  have horderly := h.orderly hdistinct
  refine ⟨horderly.tidy.referenced, horderly.tidy.tree, ?_⟩
  intro reqs hreqs
  obtain ⟨hcounts, hwithout⟩ := h.deleteAll hdistinct hreqs
  refine ⟨hcounts, ?_, ?_⟩
  · intro others hothers hsame
    exact ((h.deleteAll hdistinct hothers).2.congr hsame).unique hwithout
  · intro hall
    exact hwithout.eq_empty hall

/-- A branch and its fork are deleted, in either order. -/
theorem collected_sample :
    let delete (t : Token) : DeleteRequest := ⟨1, 1, Forked.bytes t⟩
    let both := [delete Sample.root, delete Sample.fork]
    Sample.state.tables.versionCount = 3 ∧
      (∃ counts, (Sample.archive.deleteAll both).answer Sample.state = .ok counts) ∧
      ((Sample.archive.deleteAll both.reverse).final Sample.state).tables =
        ((Sample.archive.deleteAll both).final Sample.state).tables ∧
      ((Sample.archive.deleteAll both).final Sample.state).tables = .empty := by
  intro delete both
  have hdeletable : ∀ req ∈ both, Deletable Sample.state Sample.issued req := by
    have hroot : Deletable Sample.state Sample.issued (delete Sample.root) :=
      ⟨by decide +kernel, Sample.root, Forked.row Sample.root, rfl, Sample.known_iff.2 (.inl rfl),
        by decide +kernel⟩
    have hfork : Deletable Sample.state Sample.issued (delete Sample.fork) :=
      ⟨by decide +kernel, Sample.fork, Forked.row Sample.fork, rfl, Sample.known_iff.2 (.inr rfl),
        by decide +kernel⟩
    exact List.forall_mem_cons.2 ⟨hroot, List.forall_mem_singleton.2 hfork⟩
  obtain ⟨-, -, hdelete⟩ := Sample.reaches.collected Sample.distinctDraws
  obtain ⟨hanswer, hsame, hempty⟩ := hdelete both hdeletable
  refine ⟨by decide +kernel, hanswer, hsame _ ?_ ?_, hempty ?_⟩
  · intro req hreq
    exact hdeletable req (List.mem_reverse.1 hreq)
  · intro t b
    simp only [Targets, List.mem_reverse]
  · intro t b row hrow
    obtain ⟨rfl, rfl⟩ := Tables.row?_own hrow
    have hknown := (Sample.reaches.orderly Sample.distinctDraws).tidy.row _ _ row hrow
    rcases Sample.known_iff.1 hknown with htoken | htoken
    · exact ⟨delete Sample.root, by simp [both], Sample.root, rfl, congrArg Token.tree htoken,
        congrArg Token.branch htoken⟩
    · exact ⟨delete Sample.fork, by simp [both], Sample.fork, rfl, congrArg Token.tree htoken,
        congrArg Token.branch htoken⟩

/-- The deletion of a branch is late after it has removed the row, and fails. Its three versions
stay, and nothing refers to them. -/
theorem collected_late :
    let s := (Sample.hurried.after Sample.leases Sample.threeBatches).1
    let issued := [Forked.bytes Sample.root]
    let req : DeleteRequest := ⟨1, 1, Forked.bytes Sample.root⟩
    let late : State MemoryStore := { s with delay := some 2 }
    let t := ((Sample.hurried.delete req).final late).tables
    Reaches Sample.hurried s issued ∧ Deletable late issued req ∧
      (Sample.hurried.delete req).answer late = .error (.timeout "delete_history_branch") ∧
      t.rowsOf Sample.root.tree = [] ∧ t.hasTree Sample.root.tree = true ∧
      t.versionCount = 3 ∧
      t.version? Sample.root.tree Sample.root.branch 1 5 = some ⟨1, 5, 0, [1]⟩ ∧
      ¬ t.Referenced Sample.root.tree Sample.root.branch 1 := by
  intro s issued req late t
  have hissued : (Sample.hurried.after Sample.leases Sample.threeBatches).2 = issued := by
    decide +kernel
  have hreaches : Reaches Sample.hurried s issued := hissued ▸ reaches_after (by decide +kernel)
  have hdeletable : Deletable late issued req :=
    ⟨by decide +kernel, Sample.root, Forked.row Sample.root, rfl,
      ⟨_, List.mem_singleton_self _, rfl⟩, by decide +kernel⟩
  have hlate : (Sample.hurried.delete req).answer late = .error (.timeout "delete_history_branch") ∧
      t.rowsOf Sample.root.tree = [] ∧ t.hasTree Sample.root.tree = true ∧ t.versionCount = 3 ∧
      t.version? Sample.root.tree Sample.root.branch 1 5 = some ⟨1, 5, 0, [1]⟩ := by decide +kernel
  obtain ⟨hanswer, hrows, htree, hcount, hversion⟩ := hlate
  have hnone : ∀ b row, t.row? Sample.root.tree b ≠ some row := by
    intro b row hrow
    have hmem := Tables.mem_rowsOf_iff.2 ⟨b, hrow⟩
    rw [hrows] at hmem
    exact List.not_mem_nil hmem
  refine ⟨hreaches, hdeletable, hanswer, hrows, htree, hcount, hversion, ?_⟩
  rintro (⟨row, hrow⟩ | ⟨c, row, hrow, -⟩)
  · exact hnone _ row hrow
  · exact hnone c row hrow

end Archive

end Chronicle
