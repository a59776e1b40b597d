import Chronicle.Proofs.Run

/-!
# States that calls lead to

Callers may ask with any tokens that decode, also with such as were never issued, and a fault may
end a call anywhere. What is then still true of every state an archive gets into is what each call
keeps to the backend.

* `Tables.Carries`: a property of the tokens that rows carry; `perform_carries`: an operation that
  stores only such tokens keeps it, wherever it fails.
* `Visits`: the states that calls lead to.
* `Visits.proper`: whatever is asked and wherever it fails, the lineage of every row is proper.
-/
namespace Chronicle

open Archive (State)
open Chronicle.Action (Keeps Settles)

namespace Tables

/-- Rows carry tokens with the property `Q`. -/
def Carries (Q : Token → Prop) (ts : Tables) : Prop :=
  ∀ t b row, ts.row? t b = some row → Q row.token

/-- Rows carry tokens with proper lineages. -/
def Proper (ts : Tables) : Prop :=
  ∀ t b row, ts.row? t b = some row → Lineage.Follows firstEvent row.token.lineage

variable {Q : Token → Prop} {ts us : Tables}

theorem carries_empty : Carries Q .empty := nofun

namespace Carries

theorem of_rows (h : ts.Carries Q)
    (hrows : ∀ t b row, us.row? t b = some row → ts.row? t b = some row) : us.Carries Q := by
  intro t b row hrow
  exact h t b row (hrows t b row hrow)

theorem upsertRow (h : ts.Carries Q) {row : BranchRow} (hrow : Q row.token) :
    (ts.upsertRow row).Carries Q := by
  intro t b row' hrow'
  rw [row?_upsertRow] at hrow'
  split at hrow'
  · cases hrow'
    exact hrow
  · exact h t b row' hrow'

theorem loses (h : ts.Carries Q) {t : TreeId} {p : BranchId → NodeId → TransactionId → Prop}
    (hus : ts.Loses t p us) : us.Carries Q :=
  h.of_rows fun u c _ hrow => (hus.rows u c).symm.trans hrow

theorem eraseRow (h : ts.Carries Q) (t : TreeId) (b : BranchId) : (ts.eraseRow t b).Carries Q :=
  h.of_rows fun u c row hrow => by
    rw [row?_eraseRow] at hrow
    split at hrow
    · cases hrow
    · exact hrow

/-- An append stores a row with its token, if there is none. -/
theorem written (h : ts.Carries Q) {row : BranchRow}
    (hrow : ts.row? row.tree row.branch = none → Q row.token) (v : Version) :
    (ts.written row v).Carries Q := by
  have hinsert : ∀ {us : Tables}, us.Carries Q →
      (us.insertVersion row.tree row.branch v).2.Carries Q := by
    intro us hus
    refine hus.of_rows fun u c r hr => ?_
    rwa [row?_insertVersion] at hr
  cases hversion : ts.version? row.tree row.branch v.node v.transaction with
  | some existing =>
    rw [written_of_some hversion]
    exact h
  | none =>
    cases hold : ts.row? row.tree row.branch with
    | some old =>
      rw [written_of_row hversion hold]
      exact hinsert h
    | none =>
      rw [written_of_none hversion hold]
      exact hinsert (h.upsertRow (hrow hold))

end Carries

end Tables

theorem Token.follows_of_decode {bytes : Bytes} {t : Token} (h : Token.decode bytes = .ok t) :
    Lineage.Follows firstEvent t.lineage := by
  obtain ⟨_, -, -, hlineage⟩ := Token.decode_eq_ok_iff.1 h
  exact hlineage

/-- A row that the operation may create carries a token with the property `Q`, if those that are
there do. -/
def Operation.Stores (Q : Token → Prop) : Operation → Prop
  | append req _ => req.isNewBranch = true → ∀ q, Token.decode req.token = .ok q → Q q
  | fork req => ∀ (source : Token) (branch : BranchId) (bytes : Bytes), Q source →
      let token : Token := ⟨req.namespaceId, source.workflowId, req.runId, source.tree, branch,
        source.lineageAt req.node, source.retention⟩
      token.encode = .ok bytes → Q token
  | newBranch .. => True
  | remove _ => True

theorem Operation.stores_follows (op : Operation) :
    op.Stores fun t => Lineage.Follows firstEvent t.lineage := by
  cases op with
  | newBranch => trivial
  | append req payload => exact fun _ q hq => Token.follows_of_decode hq
  | fork req => exact fun source _ _ hsource _ => Token.lineageAt_follows hsource req.node
  | remove => trivial

namespace Action

variable {α β : Type} {P : Tables → Prop} {act : Action MemoryStore α} {R : α → Prop}

theorem Keeps.of_same (h : ∀ ts, P ts → Keeps (· = ts) act R) : Keeps P act R := by
  intro s hs
  apply (h s.tables hs s rfl).imp
  · intro a t ht
    exact ⟨ht.1 ▸ hs, ht.2⟩
  · intro e t ht
    exact ⟨ht.1 ▸ hs, ht.2⟩

/-- The operation keeps the property `P` of the tables at every end, and a value that it ends in
satisfies `R`. In contrast to `Keeps` it may draw ids. -/
def Preserves (P : Tables → Prop) (act : Action MemoryStore α) (R : α → Prop) : Prop :=
  ∀ s, P s.tables → Meets act s (fun a t => P t.tables ∧ R a) fun _ t => P t.tables

namespace Preserves

theorem of_keeps (h : Keeps P act R) : Preserves P act R := by
  intro s hs
  apply (h s hs).imp
  · intro a t ht
    exact ⟨ht.1, ht.2.2⟩
  · intro e t ht
    exact ht.1

theorem bind {f : α → Action MemoryStore β} {Q : β → Prop} (h : Preserves P act R)
    (hf : ∀ a, R a → Preserves P (f a) Q) : Preserves P (act >>= f) Q := by
  intro s hs
  rw [meets_bind]
  apply (h s hs).imp
  · intro a t ht
    exact hf a ht.2 t ht.1
  · intro e t ht
    exact ht

theorem map {f : α → β} (h : Preserves P act R) : Preserves P (f <$> act) fun _ => True := by
  intro s hs
  apply meets_map.2
  apply (h s hs).imp
  · intro a t ht
    exact ⟨ht.1, trivial⟩
  · intro e t ht
    exact ht

theorem drawId {κ : Kind} {a : Archive} :
    Preserves P (a.drawId : Action MemoryStore (Id κ)) fun _ => True := by
  intro s hs
  exact meets_drawId.2 ⟨hs, trivial⟩

theorem final (h : Preserves P act R) {s : State MemoryStore} (hs : P s.tables) :
    P (act.final s).tables := by
  rcases outcome_of_meets (h s hs) with ⟨a, -, ha⟩ | ⟨e, -, he⟩
  · exact ha.1
  · exact he

end Preserves

end Action

open Chronicle.Action (Preserves)

namespace Archive

/-! ## What rows carry -/

variable {Q : Token → Prop}

theorem store_carries (a : Archive) (d : Deadline) (req : WriteRequest) {q : Token}
    (hq : req.isNewBranch = true → Q q) (v : Version) :
    Keeps (Tables.Carries Q) (a.store d req q v) fun _ => True := by
  refine Settles.keeps fun env ts hts => ?_
  apply (store_settles a d req q v ts).imp
  · intro r us h
    obtain ⟨haccepts, rfl, -⟩ := h
    let row : BranchRow := ⟨q, req.info, env.now⟩
    have hrow : ts.row? row.tree row.branch = none → Q row.token := fun hnone =>
      hq (haccepts.admits.created hnone)
    exact ⟨hts.written hrow v, trivial⟩
  · intro us h
    exact h.1 ▸ hts
  · intro us h
    rcases h with rfl | ⟨haccepts, habsent, -, rfl⟩
    · exact hts
    · exact hts.upsertRow (hq (haccepts.admits.created habsent))

theorem trim_carries (a : Archive) (req : TrimRequest) :
    Keeps (Tables.Carries Q) (a.trim req) fun _ => True := by
  refine Settles.keeps fun env ts hts => ?_
  apply (trim_settles a req ts).imp
  · intro _ us h
    obtain ⟨q, -, htrimmed⟩ := h
    exact ⟨hts.loses htrimmed.loses, trivial⟩
  · intro us h
    exact h.1 ▸ hts
  · intro us h
    rcases h with rfl | ⟨q, -, hloses⟩
    · exact hts
    · exact hts.loses hloses

theorem delete_carries (a : Archive) (req : DeleteRequest) :
    Keeps (Tables.Carries Q) (a.delete req) fun _ => True := by
  refine Settles.keeps fun env ts hts => ?_
  apply (delete_settles a req ts).imp
  · intro _ us h
    obtain ⟨q, -, vs, hvs, hus⟩ := h
    refine ⟨((hts.eraseRow _ _).loses hvs.toLoses).of_rows fun u c row hrow => ?_, trivial⟩
    rwa [Tables.row?_dropIfEmpty hus] at hrow
  · intro us h
    exact h.1 ▸ hts
  · intro us h
    rcases h with rfl | ⟨q, -, hloses⟩
    · exact hts
    · exact (hts.eraseRow _ _).loses hloses

theorem requireRow_carries {d : Deadline} (q : Token) :
    Keeps (Tables.Carries Q) (requireRow d q) fun row => Q row.token := by
  refine .bind (.question (R := fun row => ∀ r, row = some r → Q r.token)
    fun ts hts r hr => hts _ _ r hr) fun row hrow => ?_
  split
  · exact .pure (hrow _ rfl)
  · exact .throw

theorem fork_carries (a : Archive) {req : ForkRequest} (hstores : (Operation.fork req).Stores Q) :
    Preserves (Tables.Carries Q) (a.fork req) fun _ => True := by
  refine .bind (.of_keeps .checkLease) fun _ _ => ?_
  dsimp only
  split
  · exact .of_keeps .throw_bind
  refine .bind (.of_keeps (.lift fun _ _ => trivial)) fun q _ => ?_
  refine .bind (.of_keeps (requireRow_carries q)) fun row hrow => ?_
  refine .bind (.of_keeps (.of_same fun ts _ => lastVisible_keeps _ _ _ _)) fun visible _ => ?_
  split
  · exact .of_keeps .throw_bind
  split
  · exact .of_keeps .throw_bind
  refine .bind .drawId fun branch _ => .of_keeps ?_
  refine .bind (.lift fun bytes hbytes => encodeToken_eq_ok_iff.1 hbytes) fun bytes hbytes => ?_
  refine .bind (.createRow fun now ts hts => ?_) fun _ _ => ?_
  · exact hts.upsertRow (hstores _ branch bytes hrow hbytes)
  · exact .bind .count fun _ _ => .pure trivial

theorem newBranch_preserves {P : Tables → Prop} (a : Archive)
    (namespaceId workflowId runId : String) (retention : Retention) :
    Preserves P (a.newBranch namespaceId workflowId runId retention) fun _ => True := by
  refine .bind .drawId fun tree _ => ?_
  refine .bind .drawId fun branch _ => ?_
  exact .of_keeps (.lift fun _ _ => trivial)

section Append

variable {req : WriteRequest}
  (hstores : req.isNewBranch = true → ∀ q, Token.decode req.token = .ok q → Q q)
include hstores

theorem append_carries (a : Archive) (es : List Event) :
    Keeps (Tables.Carries Q) (a.append req es) fun _ => True := by
  refine .bind .checkLease fun _ _ => ?_
  split
  · exact .throw
  refine .bind (.lift fun q hq => decodeToken_eq_ok_iff.1 hq) fun q hq => ?_
  refine .bind (.lift fun _ _ => trivial) fun blob _ => ?_
  exact store_carries a _ req (fun hnew => hstores hnew q hq) _

theorem appendRaw_carries (a : Archive) (node : NodeId) (blob : Bytes) :
    Keeps (Tables.Carries Q) (a.appendRaw req node blob) fun _ => True := by
  refine .bind .checkLease fun _ _ => ?_
  dsimp only
  split
  · exact .throw_bind
  split
  · exact .throw_bind
  refine .bind (.lift fun q hq => decodeToken_eq_ok_iff.1 hq) fun q hq => ?_
  exact store_carries a _ req (fun hnew => hstores hnew q hq) _

end Append

/-- At whatever call an operation ends, rows carry tokens as they did before. -/
theorem perform_carries (a : Archive) {op : Operation} (hop : op.Stores Q) :
    Preserves (Tables.Carries Q) (op.perform a) fun _ => True := by
  cases op with
  | newBranch namespaceId workflowId runId retention =>
    exact .map (newBranch_preserves a namespaceId workflowId runId retention)
  | append req payload =>
    cases payload with
    | events es => exact .map (.of_keeps (append_carries hop a es))
    | raw node blob => exact .map (.of_keeps (appendRaw_carries hop a node blob))
  | fork req => exact .map (fork_carries a hop)
  | remove r =>
    cases r with
    | trim req => exact .map (.of_keeps (trim_carries a req))
    | delete req => exact .map (.of_keeps (delete_carries a req))

/-! ## States -/

/-- The states that calls lead to, with whatever tokens callers ask and wherever a fault or the
deadline ends a call. -/
inductive Visits (a : Archive) : State MemoryStore → Prop
  | start {s : State MemoryStore} (h : s.tables = .empty) : Visits a s
  /-- Whatever changes no table: reads, leases, an armed fault, a delay. -/
  | aside {s t : State MemoryStore} (h : Visits a s) (htables : t.tables = s.tables) : Visits a t
  | call {s : State MemoryStore} (h : Visits a s) (op : Operation) :
      Visits a ((op.perform a).final s)

/-- **Lineages are proper.** In every state that calls lead to the row of a branch carries a proper
lineage. -/
theorem Visits.proper {a : Archive} {s : State MemoryStore} (h : Visits a s) :
    s.tables.Proper := by
  show s.tables.Carries fun t => Lineage.Follows firstEvent t.lineage
  induction h with
  | start htables => exact htables ▸ Tables.carries_empty
  | aside _ htables ih => exact htables ▸ ih
  | call _ op ih => exact (perform_carries a op.stores_follows).final ih

theorem Reaches.visits {a : Archive} {s : State MemoryStore} {issued : List Bytes}
    (h : Reaches a s issued) : Visits a s := by
  induction h with
  | start => exact .start rfl
  | aside _ hstore _ _ ih => exact .aside ih (congrArg MemoryStore.tables hstore)
  | call _ op _ ih => exact .call ih op

end Archive

end Chronicle
