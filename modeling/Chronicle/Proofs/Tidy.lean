import Chronicle.Proofs.Effects
import Chronicle.Proofs.Family

/-!
# Tidy contents

Contents are tidy when every version is referenced: its branch has a row, or a row inherits nodes of
the branch beyond the version. This survives every change that an operation makes (`Tidy.writes`,
`Tidy.fork`, `Tidy.trims`, `Tidy.deletes`), for contents whose rows carry the tokens of a family.

The collection of a deletion stops at the first branch that a row still reaches. Nothing is missed
before it: whoever reads that branch inherits all that it inherits (`Family.lineage_subset`).
-/
namespace Chronicle

/-- A row keeps the nodes of branch `b` up to `n`: the row of the branch, or one that inherits nodes
of it beyond `n`. -/
def Tables.Referenced (ts : Tables) (t : TreeId) (b : BranchId) (n : NodeId) : Prop :=
  (∃ row, ts.row? t b = some row) ∨
    ∃ c row, ts.row? t c = some row ∧ ∃ s ∈ row.token.lineage, s.owner = b ∧ n < s.stop

/-- What is stored is in order: rows carry known tokens, versions belong to known branches and are
referenced, and the trees are those that have a row. -/
structure Tidy (known : Token → Prop) (ts : Tables) : Prop where
  row : ∀ t b row, ts.row? t b = some row → known row.token
  version : ∀ t b n x v, ts.version? t b n x = some v → noTransaction < x ∧ n < nodeLimit ∧
    ∃ q, known q ∧ q.tree = t ∧ q.branch = b ∧ q.ownStart ≤ n
  referenced : ∀ t b n x v, ts.version? t b n x = some v → ts.Referenced t b n
  tree : ∀ t, ts.hasTree t = true ↔ ∃ b row, ts.row? t b = some row

namespace Tables

variable {ts us : Tables} {t : TreeId} {b : BranchId} {n : NodeId}

theorem Referenced.mono (h : ts.Referenced t b n)
    (hrows : ∀ c row, ts.row? t c = some row → us.row? t c = some row) : us.Referenced t b n := by
  rcases h with ⟨row, hrow⟩ | ⟨c, row, hrow, hspan⟩
  · exact .inl ⟨row, hrows b row hrow⟩
  · exact .inr ⟨c, row, hrows c row hrow, hspan⟩

theorem referenced_of_span {c : BranchId} {row : BranchRow} (hrow : ts.row? t c = some row)
    {s : Span} (hs : s ∈ row.token.spans) (howner : s.owner = b) (hn : n < s.stop) :
    ts.Referenced t b n := by
  rcases List.mem_append.1 hs with hs | hs
  · exact .inr ⟨c, row, hrow, s, hs, howner, hn⟩
  · rw [List.mem_singleton.1 hs] at howner
    have hc : c = b := (row?_own hrow).2.symm.trans howner
    exact .inl ⟨row, hc ▸ hrow⟩

end Tables

namespace Tidy

variable {known : Token → Prop} {ts us : Tables}

theorem empty : Tidy known .empty where
  row _ _ _ h := nomatch h
  version _ _ _ _ _ h := nomatch h
  referenced _ _ _ _ _ h := nomatch h
  tree _ := ⟨nofun, nofun⟩

theorem weaken (h : Tidy known ts) {more : Token → Prop} (hmore : ∀ t, known t → more t) :
    Tidy more ts where
  row t b row hrow := hmore _ (h.row t b row hrow)
  version t b n x v hv := by
    obtain ⟨hx, hn, q, hq, hrest⟩ := h.version t b n x v hv
    exact ⟨hx, hn, q, hmore q hq, hrest⟩
  referenced := h.referenced
  tree := h.tree

theorem token_eq (hf : Family known) (h : Tidy known ts) {q : Token} (hq : known q)
    {row : BranchRow} (hrow : ts.row? q.tree q.branch = some row) : row.token = q :=
  hf.unique _ _ (h.row _ _ _ hrow) hq (Tables.row?_own hrow).2

theorem row?_eq_none (h : Tidy known ts) {b : BranchId} (hfresh : ∀ q, known q → q.branch ≠ b)
    (t : TreeId) : ts.row? t b = none := by
  apply Option.eq_none_iff_forall_ne_some.2
  intro row hrow
  exact hfresh row.token (h.row t b row hrow) (Tables.row?_own hrow).2

theorem version?_eq_none (h : Tidy known ts) {b : BranchId} (hfresh : ∀ q, known q → q.branch ≠ b)
    (t : TreeId) (n : NodeId) (x : TransactionId) : ts.version? t b n x = none := by
  apply Option.eq_none_iff_forall_ne_some.2
  intro v hv
  obtain ⟨-, -, q, hq, -, hbranch, -⟩ := h.version t b n x v hv
  exact hfresh q hq hbranch

/-- Stored versions lie on the spans of those who read their branch, unless behind the end. -/
theorem start_le (hf : Family known) (h : Tidy known ts) {p : Token} (hp : known p) {s : Span}
    (hs : s ∈ p.spans) {t : TreeId} {n : NodeId} {x : TransactionId} {v : Version}
    (hv : ts.version? t s.owner n x = some v) : s.start ≤ n := by
  obtain ⟨-, -, q, hq, -, hbranch, hstart⟩ := h.version _ _ _ _ _ hv
  rw [hf.start_eq hp hq hs hbranch]
  exact hstart

/-! ## Changes -/

/-- An append stores a version of a branch that has a row then. -/
theorem writes (h : Tidy known ts) {q : Token} (hq : known q) {isNew : Bool} {row : BranchRow}
    {v : Version} (hw : ts.Writes q isNew row v us) : Tidy known us := by
  have hrow : us.row? q.tree q.branch = some row := by rw [hw.rows, if_pos ⟨rfl, rfl⟩]
  have hknown : known row.token := by
    rcases hw.branch with hold | ⟨-, -, htoken⟩
    · exact h.row _ _ _ hold
    · exact htoken ▸ hq
  have hmono : ∀ t c old, ts.row? t c = some old → us.row? t c = some old := by
    intro t c old hold
    rw [hw.rows]
    split
    · next hc =>
      obtain ⟨rfl, rfl⟩ := hc
      rcases hw.branch with hsame | ⟨hnone, -⟩
      · rw [← hsame, hold]
      · rw [hnone] at hold
        cases hold
    · exact hold
  refine ⟨?_, ?_, ?_, ?_⟩
  · intro t b r hr
    rw [hw.rows] at hr
    split at hr
    · cases hr
      exact hknown
    · exact h.row t b r hr
  · intro t b n x w hv
    rw [hw.versions] at hv
    split at hv
    · next hn =>
      obtain ⟨rfl, rfl, rfl, rfl⟩ := hn
      exact ⟨hw.positive, hw.below, row.token, hknown, (Tables.row?_own hrow).1,
        (Tables.row?_own hrow).2, hw.own⟩
    · exact h.version t b n x w hv
  · intro t b n x w hv
    rw [hw.versions] at hv
    split at hv
    · next hn =>
      obtain ⟨rfl, rfl, -⟩ := hn
      exact .inl ⟨row, hrow⟩
    · exact (h.referenced t b n x w hv).mono (hmono t)
  · intro t
    rw [hw.known, Bool.or_eq_true, decide_eq_true_eq, h.tree]
    constructor
    · intro hsome
      rcases hsome with rfl | ⟨b, r, hr⟩
      · exact ⟨q.branch, row, hrow⟩
      · exact ⟨b, r, hmono t b r hr⟩
    · intro hsome
      obtain ⟨b, r, hr⟩ := hsome
      rw [hw.rows] at hr
      split at hr
      · next hc => exact .inl hc.1
      · exact .inr ⟨b, r, hr⟩

theorem fork (h : Tidy known ts) {row : BranchRow} (hrow : known row.token)
    (hfresh : ts.row? row.tree row.branch = none) : Tidy known (ts.upsertRow row) := by
  have hmono : ∀ t c old, ts.row? t c = some old → (ts.upsertRow row).row? t c = some old := by
    intro t c old hold
    rw [Tables.row?_upsertRow]
    split
    · next hc =>
      rw [hc.1, hc.2, hfresh] at hold
      cases hold
    · exact hold
  refine ⟨?_, ?_, ?_, ?_⟩
  · intro t b r hr
    rw [Tables.row?_upsertRow] at hr
    split at hr
    · cases hr
      exact hrow
    · exact h.row t b r hr
  · intro t b n x w hv
    rw [Tables.version?_upsertRow] at hv
    exact h.version t b n x w hv
  · intro t b n x w hv
    rw [Tables.version?_upsertRow] at hv
    exact (h.referenced t b n x w hv).mono (hmono t)
  · intro t
    rw [Tables.hasTree_upsertRow, Bool.or_eq_true, decide_eq_true_eq, h.tree]
    constructor
    · intro hsome
      rcases hsome with rfl | ⟨b, r, hr⟩
      · exact ⟨row.branch, row, by rw [Tables.row?_upsertRow, if_pos ⟨rfl, rfl⟩]⟩
      · exact ⟨b, r, hmono t b r hr⟩
    · intro hsome
      obtain ⟨b, r, hr⟩ := hsome
      rw [Tables.row?_upsertRow] at hr
      split at hr
      · next hc => exact .inl hc.1
      · exact .inr ⟨b, r, hr⟩

theorem trims (h : Tidy known ts) {t : TreeId} {b : BranchId} {node : NodeId} {x : TransactionId}
    (ht : ts.Trims t b node x us) : Tidy known us := by
  have hstored : ∀ u c n y v, us.version? u c n y = some v → ts.version? u c n y = some v := by
    intro u c n y v hv
    rcases ht.versions u c n y with heq | ⟨hnone, -⟩
    · exact heq ▸ hv
    · rw [hnone] at hv
      cases hv
  refine ⟨?_, ?_, ?_, ?_⟩
  · intro u c r hr
    rw [ht.rows] at hr
    exact h.row u c r hr
  · intro u c n y v hv
    exact h.version u c n y v (hstored u c n y v hv)
  · intro u c n y v hv
    exact (h.referenced u c n y v (hstored u c n y v hv)).mono fun d r hr => (ht.rows u d).trans hr
  · intro u
    simp only [ht.known, ht.rows]
    exact h.tree u

section Deletes

variable (hf : Family known) (h : Tidy known ts) {q : Token} (hq : known q)
  (hd : ts.Deletes q us)

include hd in
theorem stored_of_deletes {t : TreeId} {b : BranchId} {n : NodeId} {x : TransactionId} {v : Version}
    (hv : us.version? t b n x = some v) : ts.version? t b n x = some v := by
  rcases hd.versions t b n x with heq | hnone
  · exact heq ▸ hv
  · rw [hnone] at hv
    cases hv

include hd in
theorem row_of_deletes {t : TreeId} {b : BranchId} {row : BranchRow}
    (hrow : us.row? t b = some row) : ts.row? t b = some row := by
  rw [hd.rows] at hrow
  split at hrow
  · cases hrow
  · exact hrow

include hd in
theorem row_of_mem_left {row : BranchRow}
    (hrow : row ∈ (ts.eraseRow q.tree q.branch).rowsOf q.tree) :
    us.row? q.tree row.branch = some row := by
  obtain ⟨c, hc⟩ := Tables.mem_rowsOf_iff.1 hrow
  have hbranch := (Tables.row?_own hc).2
  rw [Tables.row?_eraseRow] at hc
  rw [hd.rows, hbranch]
  exact hc

include hf h hq hd in
/-- What the deleted branch read and is left is still referenced. -/
theorem referenced_of_span {s : Span} (hs : s ∈ q.spans) {row : BranchRow}
    (hrow : ts.row? q.tree q.branch = some row) {n : NodeId} {x : TransactionId} {v : Version}
    (hv : us.version? q.tree s.owner n x = some v) (hn : n < s.stop) :
    us.Referenced q.tree s.owner n := by
  have hstored := stored_of_deletes hd hv
  obtain ⟨front, back, hsplit⟩ := List.append_of_mem hs
  have hspans : (((ts.row? q.tree q.branch).map (·.token)).getD q).spans.reverse =
      back.reverse ++ s :: front.reverse := by
    rw [hrow, Option.map_some, Option.getD_some, h.token_eq hf hq hrow, hsplit]
    simp
  rcases hd.swept _ _ _ hspans n x v hv (h.start_le hf hq hs hstored)
    (h.version _ _ _ _ _ hstored).2.1 with ⟨stop, hstop, hlt⟩ | ⟨s', hs', hreached⟩
  · obtain ⟨r, hr, u, hu, howner, rfl⟩ := (reachedUpTo_eq_some hstop).1
    exact Tables.referenced_of_span (row_of_mem_left hd hr) hu howner hlt
  · -- the collection stopped behind `s`, at a branch that a row reaches and that inherits `s`
    obtain ⟨stop, hstop⟩ := Option.isSome_iff_exists.1 hreached
    obtain ⟨r, hr, u, hu, howner, -⟩ := (reachedUpTo_eq_some hstop).1
    have hr := row_of_mem_left hd hr
    obtain ⟨more, rest, rfl⟩ := List.append_of_mem (List.mem_reverse.1 hs')
    rw [← List.cons_append, ← List.append_assoc] at hsplit
    obtain ⟨w, hw, -, hbranch, hlineage⟩ := hf.ancestry_spans hq hsplit
    have hmem : s ∈ w.lineage := by
      rw [hlineage]
      exact List.mem_append_right _ (List.mem_cons_self ..)
    have hknown : known r.token := h.row _ _ _ (row_of_deletes hd hr)
    exact .inr ⟨r.branch, r, hr, s,
      hf.lineage_subset hknown hw hu (hbranch.trans howner.symm) hmem, rfl, hn⟩

include hf h hq hd in
theorem deletes : Tidy known us := by
  have hreferenced : ∀ t b n x v, us.version? t b n x = some v → us.Referenced t b n := by
    intro t b n x v hv
    have hstored := stored_of_deletes hd hv
    by_cases ht : t = q.tree
    · subst ht
      rcases h.referenced _ _ _ _ _ hstored with ⟨row, hrow⟩ | ⟨c, row, hrow, s, hs, rfl, hn⟩
      · by_cases hb : b = q.branch
        · subst hb
          refine referenced_of_span hf h hq hd (s := q.ownSpan)
            (List.mem_append_right _ (List.mem_singleton_self _)) hrow hv ?_
          exact (h.version _ _ _ _ _ hstored).2.1
        · exact .inl ⟨row, by rw [hd.rows, if_neg fun hc => hb hc.2, hrow]⟩
      · by_cases hc : c = q.branch
        · subst hc
          rw [h.token_eq hf hq hrow] at hs
          exact referenced_of_span hf h hq hd (List.mem_append_left _ hs) hrow hv hn
        · exact .inr ⟨c, row, by rw [hd.rows, if_neg fun hc' => hc hc'.2, hrow], s, hs, rfl, hn⟩
    · apply (h.referenced _ _ _ _ _ hstored).mono
      intro c row hrow
      rw [hd.rows, if_neg fun hc => ht hc.1, hrow]
  refine ⟨?_, ?_, ?_, ?_⟩
  · intro t b row hrow
    exact h.row t b row (row_of_deletes hd hrow)
  · intro t b n x v hv
    exact h.version t b n x v (stored_of_deletes hd hv)
  · exact hreferenced
  · intro t
    rw [hd.known, h.tree]
    constructor
    · intro hleft
      obtain ⟨⟨b, row, hrow⟩, hsome⟩ := hleft
      by_cases ht : t = q.tree
      · rcases hsome ht with ⟨c, r, hr⟩ | ⟨c, n, x, v, hv⟩
        · exact ⟨c, r, hr⟩
        · rcases hreferenced t c n x v hv with ⟨r, hr⟩ | ⟨d, r, hr, -⟩
          · exact ⟨c, r, hr⟩
          · exact ⟨d, r, hr⟩
      · exact ⟨b, row, by rw [hd.rows, if_neg fun hc => ht hc.1, hrow]⟩
    · intro hsome
      obtain ⟨b, row, hrow⟩ := hsome
      exact ⟨⟨b, row, row_of_deletes hd hrow⟩, fun _ => .inl ⟨b, row, hrow⟩⟩

include hf h hd in
/-- A deletion that spares other branches keeps what their rows reach. -/
theorem version_of_span (hspares : ts.Spares q.tree q.branch us) {t : TreeId} {c : BranchId}
    {row : BranchRow} (hrow : us.row? t c = some row) {s : Span} (hs : s ∈ row.token.spans)
    {n : NodeId} {x : TransactionId} {v : Version} (hv : ts.version? t s.owner n x = some v)
    (hn : n < s.stop) : us.version? t s.owner n x = some v := by
  have hold := row_of_deletes hd hrow
  have hne : ¬ (t = q.tree ∧ c = q.branch) := by
    intro hc
    rw [hd.rows, if_pos hc] at hrow
    cases hrow
  have hstart := h.start_le hf (h.row t c row hold) hs hv
  exact ((hspares.branches t c hne).versions row hold s hs n ⟨hstart, hn⟩ x).trans hv

include hf h hq hd in
/-- What stays after a deletion that spares other branches is what is referenced still. -/
theorem version_of_deletes (hspares : ts.Spares q.tree q.branch us) {t : TreeId} {b : BranchId}
    {n : NodeId} {x : TransactionId} {v : Version} : us.version? t b n x = some v ↔
      ts.version? t b n x = some v ∧ us.Referenced t b n := by
  constructor
  · intro hv
    exact ⟨stored_of_deletes hd hv, (deletes hf h hq hd).referenced t b n x v hv⟩
  · intro hleft
    obtain ⟨hv, ⟨row, hrow⟩ | ⟨c, row, hrow, s, hs, rfl, hn⟩⟩ := hleft
    · have hown : row.token.ownSpan.owner = b := (Tables.row?_own hrow).2
      subst hown
      exact version_of_span hf h hd hspares hrow
        (List.mem_append_right _ (List.mem_singleton_self _)) hv (h.version _ _ _ _ _ hv).2.1
    · exact version_of_span hf h hd hspares hrow (List.mem_append_left _ hs) hv hn

end Deletes

end Tidy

end Chronicle
