import Chronicle.Proofs.Visits

/-!
# Issued tokens

Tokens come from new branches and from forks alone. A fork inherits from branches whose tokens were
issued before its own was, and it inherits from each of them what that one inherits. Neither needs
the calls to succeed: a fork that a fault ends has stored no row and issues no token.

* `Issues`: the states of runs in which calls may fail anywhere, with the tokens issued so far.
* `fork_stores`: what a fork does, whatever happens to its calls.
* `Pedigree`: the invariant; `Issues.pedigree`: runs keep it.
* `Issues.one_family`: the result.
-/
namespace Chronicle

open Archive (State)
open Chronicle.Action (Keeps Meets Preserves)

namespace Archive

/-- The states of runs with issued tokens, wherever a fault or the deadline ends a call. -/
inductive Issues (a : Archive) : State MemoryStore → List Bytes → Prop
  | start {s : State MemoryStore} (h : s.tables = .empty) : Issues a s []
  /-- Whatever changes no table and draws no id: reads, leases, an armed fault, a delay. -/
  | aside {s t : State MemoryStore} {issued : List Bytes} (h : Issues a s issued)
      (htables : t.tables = s.tables) (hdrawn : t.drawn = s.drawn) : Issues a t issued
  | call {s : State MemoryStore} {issued : List Bytes} (h : Issues a s issued) (op : Operation)
      (hop : op.Genuine issued) :
      Issues a ((op.perform a).final s) (issued ++ Answer.issued ((op.perform a).answer s))

theorem Reaches.issues {a : Archive} {s : State MemoryStore} {issued : List Bytes}
    (h : Reaches a s issued) : Issues a s issued := by
  induction h with
  | start => exact .start rfl
  | aside _ hstore hdrawn _ ih => exact .aside ih (congrArg MemoryStore.tables hstore) hdrawn
  | call _ op hop ih => exact .call ih op hop

/-! ## What issues tokens -/

section Calls

variable {α β : Type} {s : State MemoryStore} {ok : α → State MemoryStore → Prop}
  {err : Error → State MemoryStore → Prop}

theorem meets_lift {r : Except Error α} (hok : ∀ b, r = .ok b → ok b s) (herr : ∀ e, err e s) :
    Meets (Action.lift r) s ok err := by
  cases r with
  | ok b => exact Action.meets_pure.2 (hok b rfl)
  | error e => exact Action.meets_throw.2 (herr e)

/-- What leaves the tables and the number of drawn ids alone, before something else. -/
theorem meets_bind_of_keeps {ts : Tables} {k : Nat} {x : Action MemoryStore β}
    {f : β → Action MemoryStore α} {R : β → Prop} (hs : s.tables = ts ∧ s.drawn = k)
    (hx : Keeps (· = ts) x R) (herr : ∀ e t, t.tables = ts ∧ t.drawn = k → err e t)
    (hf : ∀ b, R b → ∀ t, t.tables = ts ∧ t.drawn = k → Meets (f b) t ok err) :
    Meets (x >>= f) s ok err := by
  rw [Action.meets_bind]
  apply (hx s hs.1).imp
  · intro b t h
    obtain ⟨htables, hcalm, hb⟩ := h
    exact hf b hb t ⟨htables, hcalm.drawn.trans hs.2⟩
  · intro e t h
    exact herr e t ⟨h.1, h.2.drawn.trans hs.2⟩

end Calls

variable {s : State MemoryStore}

theorem newBranch_stores (a : Archive) (namespaceId workflowId runId : String)
    (retention : Retention) :
    Meets (a.newBranch namespaceId workflowId runId retention) s
      (fun bytes t => t.tables = s.tables ∧ t.drawn = s.drawn + 2 ∧
        (a.rootToken namespaceId workflowId runId retention s.drawn).encode = .ok bytes)
      fun _ t => t.tables = s.tables ∧ s.drawn ≤ t.drawn := by
  refine Action.meets_bind.2 (Action.meets_drawId.2 ?_)
  refine Action.meets_bind.2 (Action.meets_drawId.2 ?_)
  refine meets_lift (fun bytes hbytes => ?_) fun e => ⟨rfl, Nat.le_add_right _ 2⟩
  exact ⟨rfl, rfl, encodeToken_eq_ok_iff.1 hbytes⟩

/-- A fork that ends in an error has stored nothing, at whatever call it ends. -/
theorem fork_stores (a : Archive) (req : ForkRequest) :
    Meets (a.fork req) s
      (fun bytes t => t.drawn = s.drawn + 1 ∧ ∃ (q : Token) (row : BranchRow),
        s.tables.row? q.tree q.branch = some row ∧
        (a.forkToken req row.token s.drawn).encode = .ok bytes ∧
        ∃ now, t.tables = s.tables.upsertRow ⟨a.forkToken req row.token s.drawn, req.info, now⟩)
      fun _ t => t.tables = s.tables ∧ s.drawn ≤ t.drawn := by
  generalize hts : s.tables = ts
  generalize hk : s.drawn = k
  have herr : ∀ (_ : Error) (t : State MemoryStore), t.tables = ts ∧ t.drawn = k →
      t.tables = ts ∧ k ≤ t.drawn := fun _ _ h => ⟨h.1, Nat.le_of_eq h.2.symm⟩
  refine meets_bind_of_keeps ⟨hts, hk⟩ .checkLease herr fun _ _ t ht => ?_
  dsimp only
  split
  · exact meets_bind_of_keeps ht (.throw (R := fun _ => False)) herr fun _ h => h.elim
  refine meets_bind_of_keeps ht (.lift fun _ _ => trivial) herr fun q _ t ht => ?_
  refine meets_bind_of_keeps ht (requireRow_keeps _ q) herr fun row hrow t ht => ?_
  refine meets_bind_of_keeps ht (lastVisible_keeps _ _ _ _) herr fun _ _ t ht => ?_
  split
  · exact meets_bind_of_keeps ht (.throw (R := fun _ => False)) herr fun _ h => h.elim
  split
  · exact meets_bind_of_keeps ht (.throw (R := fun _ => False)) herr fun _ h => h.elim
  -- from here on the id is drawn, and only the call that stores the row can still fail
  obtain ⟨rfl, rfl⟩ := ht
  refine Action.meets_bind.2 (Action.meets_drawId.2 ?_)
  refine Action.meets_bind.2 (meets_lift (fun bytes hbytes => ?_) fun e => ⟨rfl, Nat.le_succ _⟩)
  rw [encodeToken_eq_ok_iff] at hbytes
  refine Action.meets_bind.2 (Action.meets_bind.2 (Action.meets_get.2 ?_))
  refine Action.meets_ask (fun u hu htables => ?_) fun e u hu htables => ?_
  · refine Action.meets_bind.2 (Action.meets_count.2 (Action.meets_pure.2 ?_))
    exact ⟨hu.drawn, q, row, hrow, hbytes, _, htables⟩
  · exact ⟨htables, Nat.le_trans (Nat.le_succ _) (Nat.le_of_eq hu.drawn.symm)⟩

theorem drawn_le_of_meets {α : Type} {act : Action MemoryStore α} {f : α → Answer}
    (h : Meets act s (fun _ t => s.drawn ≤ t.drawn) fun _ t => s.drawn ≤ t.drawn) :
    s.drawn ≤ ((f <$> act).final s).drawn := by
  have hmap : Meets (f <$> act) s (fun _ t => s.drawn ≤ t.drawn) fun _ t => s.drawn ≤ t.drawn :=
    Action.meets_map.2 h
  rcases Action.outcome_of_meets hmap with ⟨_, -, hle⟩ | ⟨_, -, hle⟩
  · exact hle
  · exact hle

theorem drawn_le_of_keeps {α : Type} {act : Action MemoryStore α} {f : α → Answer}
    (h : Keeps (Tables.Carries fun _ => True) act fun _ => True) :
    s.drawn ≤ ((f <$> act).final s).drawn := by
  refine drawn_le_of_meets ((h s fun _ _ _ _ => trivial).imp (fun _ t ht => ?_) fun _ t ht => ?_)
  · exact Nat.le_of_eq ht.2.1.drawn.symm
  · exact Nat.le_of_eq ht.2.drawn.symm

theorem perform_drawn (a : Archive) (op : Operation) (s : State MemoryStore) :
    s.drawn ≤ ((op.perform a).final s).drawn := by
  cases op with
  | newBranch namespaceId workflowId runId retention =>
    refine drawn_le_of_meets ((newBranch_stores a namespaceId workflowId runId retention).imp ?_ ?_)
    · exact fun _ t h => by omega
    · exact fun _ t h => h.2
  | append req payload =>
    cases payload with
    | events es => exact drawn_le_of_keeps (append_carries (fun _ _ _ => trivial) a es)
    | raw node blob =>
      exact drawn_le_of_keeps (appendRaw_carries (fun _ _ _ => trivial) a node blob)
  | fork req =>
    refine drawn_le_of_meets ((fork_stores a req).imp ?_ ?_)
    · exact fun _ t h => by omega
    · exact fun _ t h => h.2
  | remove r =>
    cases r with
    | trim req => exact drawn_le_of_keeps (trim_carries a req)
    | delete req => exact drawn_le_of_keeps (delete_carries a req)

/-! ## The invariant -/

/-- Issued bytes are tokens, and what a token inherits it inherits from branches of its tree whose
tokens were issued before. -/
def Descends (issued : List Bytes) : Prop :=
  ∀ before bytes after, issued = before ++ bytes :: after → ∃ t, Token.decode bytes = .ok t ∧
    ∀ s ∈ t.lineage, ∃ u, Known before u ∧ u.tree = t.tree ∧ u.branch = s.owner

theorem Descends.concat {issued : List Bytes} (h : Descends issued) {bytes : Bytes} {t : Token}
    (ht : Token.decode bytes = .ok t)
    (hlineage : ∀ s ∈ t.lineage, ∃ u, Known issued u ∧ u.tree = t.tree ∧ u.branch = s.owner) :
    Descends (issued ++ [bytes]) := by
  intro before bytes' after hsplit
  rcases List.eq_nil_or_concat after with rfl | ⟨more, last, rfl⟩
  · obtain ⟨rfl, hbytes⟩ := List.append_inj' hsplit rfl
    cases hbytes
    exact ⟨t, ht, hlineage⟩
  · rw [List.concat_eq_append, ← List.cons_append, ← List.append_assoc] at hsplit
    exact h before bytes' more (List.append_inj' hsplit rfl).1

structure Pedigree (a : Archive) (s : State MemoryStore) (issued : List Bytes) : Prop where
  enrolled : Enrolled a s.drawn issued
  descends : Descends issued
  rows : s.tables.Carries (Known issued)

namespace Pedigree

variable {a : Archive} {s t : State MemoryStore} {issued : List Bytes}

theorem start (a : Archive) {s : State MemoryStore} (hs : s.tables = .empty) :
    Pedigree a s [] where
  enrolled := .start a _
  descends before bytes after hsplit := by simp at hsplit
  rows := hs ▸ Tables.carries_empty

theorem aside (h : Pedigree a s issued) (htables : t.tables = s.tables)
    (hdrawn : s.drawn ≤ t.drawn) : Pedigree a t issued where
  enrolled := h.enrolled.later hdrawn
  descends := h.descends
  rows := htables ▸ h.rows

/-- What draws no id and stores known tokens only issues no token. -/
theorem keep (h : Pedigree a s issued) {α : Type} {act : Action MemoryStore α} {f : α → Answer}
    (hact : Keeps (Tables.Carries (Known issued)) act fun _ => True)
    (hf : ∀ b, Answer.issued (.ok (f b)) = []) :
    Pedigree a ((f <$> act).final s) (issued ++ Answer.issued ((f <$> act).answer s)) := by
  have hends : Meets (f <$> act) s
      (fun ans t => Answer.issued (.ok ans) = [] ∧ Pedigree a t issued)
      fun _ t => Pedigree a t issued := by
    refine Action.meets_map.2 ((hact s h.rows).imp (fun b t ht => ⟨hf b, ?_⟩) fun e t ht => ?_)
    · exact ⟨ht.2.1.drawn ▸ h.enrolled, h.descends, ht.1⟩
    · exact ⟨ht.2.drawn ▸ h.enrolled, h.descends, ht.1⟩
  rcases Action.outcome_of_meets hends with ⟨ans, hans, hnone, hkept⟩ | ⟨e, he, hkept⟩
  · rw [hans, hnone, List.append_nil]
    exact hkept
  · rw [he, Answer.issued, List.append_nil]
    exact hkept

/-- What issues a token if it succeeds, and else stores nothing. -/
theorem issue (h : Pedigree a s issued) {act : Action MemoryStore Bytes}
    {ok : Bytes → State MemoryStore → Prop}
    (hact : Meets act s ok fun _ t => t.tables = s.tables ∧ s.drawn ≤ t.drawn)
    (hok : ∀ bytes t, ok bytes t → a.DistinctDraws t.drawn → Pedigree a t (issued ++ [bytes]))
    (hdistinct : a.DistinctDraws ((Answer.token <$> act).final s).drawn) :
    Pedigree a ((Answer.token <$> act).final s)
      (issued ++ Answer.issued ((Answer.token <$> act).answer s)) := by
  have hends : Meets (Answer.token <$> act) s
      (fun ans t => ∃ bytes, ans = .token bytes ∧ ok bytes t)
      fun _ t => t.tables = s.tables ∧ s.drawn ≤ t.drawn :=
    Action.meets_map.2 (hact.imp (fun bytes t ht => ⟨bytes, rfl, ht⟩) fun _ _ ht => ht)
  rcases Action.outcome_of_meets hends with ⟨_, hans, bytes, rfl, ht⟩ | ⟨e, he, htables, hdrawn⟩
  · rw [hans]
    exact hok bytes _ ht hdistinct
  · rw [he, Answer.issued, List.append_nil]
    exact h.aside htables hdrawn

theorem newBranch (h : Pedigree a s issued) {namespaceId workflowId runId : String}
    {retention : Retention} {bytes : Bytes}
    (hbytes : (a.rootToken namespaceId workflowId runId retention s.drawn).encode = .ok bytes)
    (htables : t.tables = s.tables) (hdrawn : t.drawn = s.drawn + 2)
    (hdistinct : a.DistinctDraws t.drawn) : Pedigree a t (issued ++ [bytes]) := by
  have ht := Token.decode_encode hbytes trivial
  rw [hdrawn] at hdistinct
  exact {
    enrolled := hdrawn ▸ h.enrolled.root hdistinct (by omega) ht rfl rfl
    descends := h.descends.concat ht nofun
    rows := by
      rw [htables, known_concat ht]
      exact fun u b row hrow => .inl (h.rows u b row hrow) }

theorem fork (h : Pedigree a s issued) {req : ForkRequest} {source : Token} {info : String}
    {bytes : Bytes} (hsource : Known issued source)
    (hbytes : (a.forkToken req source s.drawn).encode = .ok bytes)
    {now : Timestamp}
    (htables : t.tables = s.tables.upsertRow ⟨a.forkToken req source s.drawn, info, now⟩)
    (hdrawn : t.drawn = s.drawn + 1) (hdistinct : a.DistinctDraws t.drawn) :
    Pedigree a t (issued ++ [bytes]) := by
  have hfollows := Token.lineageAt_follows (h.enrolled.family.follows _ hsource) req.node
  have ht := Token.decode_encode hbytes hfollows
  rw [hdrawn] at hdistinct
  exact {
    enrolled := hdrawn ▸ h.enrolled.fork hdistinct (by omega) ht rfl hsource rfl rfl
    descends := by
      refine h.descends.concat ht fun o ho => ?_
      obtain ⟨front, back, hsplit⟩ := List.append_of_mem ho
      obtain ⟨u, hu, htree, hbranch, -⟩ :=
        h.enrolled.family.ancestry_lineageAt hsource req.node hsplit
      exact ⟨u, hu, htree, hbranch⟩
    rows := by
      rw [htables, known_concat ht]
      exact Tables.Carries.upsertRow (fun u b row hrow => .inl (h.rows u b row hrow)) (.inr rfl) }

theorem perform (h : Pedigree a s issued) {op : Operation} (hop : op.Genuine issued)
    (hdistinct : a.DistinctDraws ((op.perform a).final s).drawn) :
    Pedigree a ((op.perform a).final s) (issued ++ Answer.issued ((op.perform a).answer s)) := by
  cases op with
  | newBranch namespaceId workflowId runId retention =>
    refine h.issue (newBranch_stores a namespaceId workflowId runId retention) ?_ hdistinct
    intro bytes t ht hdistinct
    obtain ⟨htables, hdrawn, hbytes⟩ := ht
    exact h.newBranch hbytes htables hdrawn hdistinct
  | append req payload =>
    have hknown : req.isNewBranch = true → ∀ q, Token.decode req.token = .ok q → Known issued q :=
      fun _ q hq => hop q (Operation.target?_of_decode rfl hq)
    cases payload with
    | events es => exact h.keep (append_carries hknown a es) fun _ => rfl
    | raw node blob => exact h.keep (appendRaw_carries hknown a node blob) fun _ => rfl
  | fork req =>
    refine h.issue (fork_stores a req) ?_ hdistinct
    intro bytes t ht hdistinct
    obtain ⟨hdrawn, q, row, hrow, hbytes, now, htables⟩ := ht
    exact h.fork (h.rows _ _ row hrow) hbytes htables hdrawn hdistinct
  | remove r =>
    cases r with
    | trim req => exact h.keep (trim_carries a req) fun _ => rfl
    | delete req => exact h.keep (delete_carries a req) fun _ => rfl

end Pedigree

/-- **Runs keep the pedigree.** -/
theorem Issues.pedigree {a : Archive} {s : State MemoryStore} {issued : List Bytes}
    (h : Issues a s issued) (hdistinct : a.DistinctDraws s.drawn) : Pedigree a s issued := by
  induction h with
  | start hs => exact .start a hs
  | aside _ htables hdrawn ih =>
    exact (ih (hdrawn ▸ hdistinct)).aside htables (Nat.le_of_eq hdrawn.symm)
  | @call s issued _ op hop ih =>
    exact (ih (hdistinct.mono (perform_drawn a op s))).perform hop hdistinct

end Archive

/-! ## What a family shares -/

namespace Family

variable {known : Token → Prop} {t u : Token} {front front' back back' : List Span} {f g : Span}

/-- Two branches that read nodes of one branch read the same before, and read it from the same node
on. -/
theorem shares (h : Family known) (ht : known t) (hu : known u)
    (hf : t.spans = front ++ f :: back) (hg : u.spans = front' ++ g :: back')
    (howner : f.owner = g.owner) : t.tree = u.tree ∧ front = front' ∧ f.start = g.start := by
  obtain ⟨v, hv, hvtree, hvbranch, hvlineage⟩ := h.ancestry_spans ht hf
  obtain ⟨w, hw, hwtree, hwbranch, hwlineage⟩ := h.ancestry_spans hu hg
  have hvw : v = w := h.unique v w hv hw (hvbranch.trans (howner.trans hwbranch.symm))
  have hfront : front = front' := by rw [← hvlineage, hvw, hwlineage]
  refine ⟨by rw [← hvtree, hvw, hwtree], hfront, ?_⟩
  rw [Token.start_eq_stop (h.follows t ht) hf, Token.start_eq_stop (h.follows u hu) hg, hfront]

theorem nodup_owners (h : Family known) (ht : known t) : (t.spans.map (·.owner)).Nodup := by
  have hbehind : ∀ front back, t.spans = front ++ back → (back.map (·.owner)).Nodup := by
    intro front back
    induction back generalizing front with
    | nil => exact fun _ => List.nodup_nil
    | cons f rest ih =>
      intro hsplit
      rw [List.map_cons, List.nodup_cons]
      refine ⟨fun hmem => ?_, ih (front ++ [f]) (by rw [hsplit, List.append_cons])⟩
      obtain ⟨g, hg, howner⟩ := List.mem_map.1 hmem
      obtain ⟨between, behind, rfl⟩ := List.append_of_mem hg
      have hagain : t.spans = (front ++ f :: between) ++ g :: behind := by
        rw [hsplit, List.append_assoc, List.cons_append]
      have hfront := (h.shares ht ht hsplit hagain howner.symm).2.1
      simpa using congrArg List.length hfront
  exact hbehind [] t.spans rfl

end Family

/-- **Issued tokens form one family tree.** Two tokens that name a branch, as their own or as the
owner of a span they inherit, are of one tree and agree on the spans before and on the first node of
that branch. No token names a branch twice. What a token inherits it inherits from branches whose
tokens were issued before it. Rows carry issued tokens. -/
theorem Archive.Issues.one_family {a : Archive} {s : State MemoryStore} {issued : List Bytes}
    (h : Issues a s issued) (hdistinct : a.DistinctDraws s.drawn) :
    (∀ t u, Known issued t → Known issued u → ∀ front f back front' g back',
      t.spans = front ++ f :: back → u.spans = front' ++ g :: back' → f.owner = g.owner →
        t.tree = u.tree ∧ front = front' ∧ f.start = g.start) ∧
    (∀ t, Known issued t → (t.spans.map (·.owner)).Nodup) ∧
    (∀ before bytes after, issued = before ++ bytes :: after →
      ∃ t, Token.decode bytes = .ok t ∧
        ∀ s ∈ t.lineage, ∃ u, Known before u ∧ u.tree = t.tree ∧ u.branch = s.owner) ∧
    ∀ t b row, s.tables.row? t b = some row → Known issued row.token := by
  have hpedigree := h.pedigree hdistinct
  have hfamily := hpedigree.enrolled.family
  refine ⟨?_, fun t ht => hfamily.nodup_owners ht, hpedigree.descends, hpedigree.rows⟩
  intro t u ht hu front f back front' g back' hf hg howner
  exact hfamily.shares ht hu hf hg howner

namespace Sample

def forkThird : ForkRequest := ⟨1, 1, "", Forked.bytes fork, 3, "", ""⟩

def third : Token := archive.forkToken forkThird fork 3

/-- A branch is forked, the fork is forked at its second own node, and the first branch deleted. -/
def descended : Run :=
  ⟨[.remove (.delete ⟨1, 1, Forked.bytes root⟩), .fork forkThird, write fork 3 8 7 [4]] ++
      operations.drop 2,
    issued ++ [Forked.bytes third], by decide +kernel, by decide +kernel⟩

end Sample

/-- A fork of a fork agrees with the deleted branch that both come from. -/
theorem Archive.Issues.one_family_third :
    Issues Sample.archive Sample.descended.state Sample.descended.issued ∧
      Sample.archive.DistinctDraws Sample.descended.state.drawn ∧
      Sample.descended.state.tables.row? Sample.root.tree Sample.root.branch = none ∧
      (Sample.third.lineage.map fun s => (s.owner, s.start, s.stop)) =
        [(Sample.root.branch, 1, 2), (Sample.fork.branch, 2, 3)] ∧
      (Sample.third.spans.map (·.owner)).Nodup ∧
      ∃ u, Known Sample.issued u ∧ u.branch = Sample.fork.branch := by
  have hissues := Sample.descended.reaches.issues
  have hdistinct : Sample.archive.DistinctDraws Sample.descended.state.drawn :=
    Sample.distinctDraws_four.mono (by decide +kernel)
  have h := Issues.one_family hissues hdistinct
  have hthird : Token.decode (Forked.bytes Sample.third) = .ok Sample.third := rfl
  have hknown : Known Sample.descended.issued Sample.third := ⟨Forked.bytes Sample.third,
    List.mem_append_right _ (List.mem_singleton_self _), hthird⟩
  refine ⟨hissues, hdistinct, by decide +kernel, by decide +kernel, h.2.1 _ hknown, ?_⟩
  obtain ⟨t, ht, hlineage⟩ := h.2.2.1 Sample.issued (Forked.bytes Sample.third) [] rfl
  cases hthird.symm.trans ht
  obtain ⟨u, hu, -, hbranch⟩ := hlineage ⟨Sample.fork.branch, 2, 3⟩ (by decide +kernel)
  exact ⟨u, hu, hbranch⟩

end Chronicle
