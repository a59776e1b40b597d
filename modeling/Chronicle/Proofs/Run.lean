import Chronicle.Proofs.Tidy

/-!
# Runs

A run starts from an empty store and performs operations one after the other, each with a token that
an earlier one answered; in between, anything may happen to leases, counters and locks.

* `Effect`: what an operation does when it succeeds; `perform_runs`: when it fails, nothing.
* `Reaches`: the states of runs. `Reaches.orderly`: with distinct ids their contents are tidy.
-/
namespace Chronicle

open Archive (State)
open Chronicle.Action (Meets Runs)

/-! ## Operations -/

inductive Payload where
  | events (events : List Event)
  | raw (node : NodeId) (blob : Bytes)
  deriving DecidableEq, Repr

/-- The version that an append stores. -/
def Payload.version (codec : Codec) (req : WriteRequest) : Payload → Option Version
  | raw node blob => some ⟨node, req.transaction, req.previous, blob⟩
  | events es =>
    match Batch.check es, codec.encode es with
    | .ok first, .ok blob => some ⟨first.id, req.transaction, req.previous, blob⟩
    | _, _ => none

/-- An operation that changes histories. -/
inductive Operation where
  | newBranch (namespaceId workflowId runId : String) (retention : Retention)
  | append (req : WriteRequest) (payload : Payload)
  | fork (req : ForkRequest)
  | remove (r : Removal)
  deriving DecidableEq, Repr

inductive Answer where
  | token (bytes : Bytes)
  | receipt (r : Receipt)
  | removed (count : Nat)
  deriving DecidableEq, Repr

namespace Operation

def token? : Operation → Option Bytes
  | newBranch .. => none
  | append req _ => some req.token
  | fork req => some req.token
  | remove r => some r.token

def target? (op : Operation) : Option Token :=
  op.token?.bind fun bytes => (Token.decode bytes).toOption

/-- The version that is to be stored, if the operation is an append. -/
def written? (codec : Codec) : Operation → Option Version
  | append req payload => payload.version codec req
  | _ => none

def isNewBranch : Operation → Bool
  | append req _ => req.isNewBranch
  | _ => false

/-- The version to trim to, if the operation is a trim. -/
def watermark? : Operation → Option Position
  | remove (.trim req) => some ⟨req.node, req.transaction⟩
  | _ => none

theorem target?_of_decode {op : Operation} {bytes : Bytes} (h : op.token? = some bytes) {q : Token}
    (hq : Token.decode bytes = .ok q) : op.target? = some q := by
  rw [target?, h, Option.bind_some, hq]
  rfl

def perform {σ : Type} [Backend σ] (a : Archive) : Operation → Action σ Answer
  | newBranch namespaceId workflowId runId retention =>
    .token <$> a.newBranch namespaceId workflowId runId retention
  | append req (.events es) => .receipt <$> a.append req es
  | append req (.raw node blob) => .receipt <$> a.appendRaw req node blob
  | fork req => .token <$> a.fork req
  | remove r => .removed <$> r.perform a

end Operation

/-- The tokens that an answer brings. -/
def Answer.issued : Except Error Answer → List Bytes
  | .ok (.token bytes) => [bytes]
  | .ok (.receipt _) => []
  | .ok (.removed _) => []
  | .error _ => []

/-! ## Effects -/

/-- What operations do to tables and to the number of drawn ids when they succeed. -/
inductive Effect (a : Archive) (ts : Tables) (k : Nat) :
    Operation → Answer → Tables → Nat → Prop
  | newBranch {namespaceId workflowId runId : String} {retention : Retention} {bytes : Bytes}
      (hbytes : (a.rootToken namespaceId workflowId runId retention k).encode = .ok bytes) :
      Effect a ts k (.newBranch namespaceId workflowId runId retention) (.token bytes) ts (k + 2)
  | repeated {req : WriteRequest} {payload : Payload} {r : Receipt} {q : Token} {v : Version}
      (htime : a.InTime) (hq : Token.decode req.token = .ok q)
      (hv : payload.version a.codec req = some v) {existing : Version}
      (hexisting : ts.version? q.tree q.branch v.node v.transaction = some existing) :
      Effect a ts k (.append req payload) (.receipt r) ts k
  | written {req : WriteRequest} {payload : Payload} {r : Receipt} {q : Token} {v : Version}
      {row : BranchRow} {us : Tables} (htime : a.InTime) (hq : Token.decode req.token = .ok q)
      (hv : payload.version a.codec req = some v)
      (hus : ts.Writes q req.isNewBranch row v us) :
      Effect a ts k (.append req payload) (.receipt r) us k
  | forked {req : ForkRequest} {q : Token} {row : BranchRow} {bytes : Bytes} {now : Timestamp}
      (htime : a.InTime)
      (hq : Token.decode req.token = .ok q) (hrow : ts.row? q.tree q.branch = some row)
      (hbytes : (a.forkToken req row.token k).encode = .ok bytes) :
      Effect a ts k (.fork req) (.token bytes)
        (ts.upsertRow ⟨a.forkToken req row.token k, req.info, now⟩) (k + 1)
  | trimmed {req : TrimRequest} {q : Token} {row : BranchRow} {n : Nat} {us : Tables}
      (hq : Token.decode req.token = .ok q) (hrow : ts.row? q.tree q.branch = some row)
      (hown : row.token.ownStart ≤ req.node)
      (hus : ts.Trims q.tree q.branch req.node req.transaction us)
      (hgone : ∀ n x, req.node < n → us.version? q.tree q.branch n x = none)
      (hspares : ts.Spares q.tree q.branch us) :
      Effect a ts k (.remove (.trim req)) (.removed n) us k
  | deleted {req : DeleteRequest} {q : Token} {n : Nat} {us : Tables}
      (hq : Token.decode req.token = .ok q) (hus : ts.Deletes q us)
      (hspares : ts.Spares q.tree q.branch us) :
      Effect a ts k (.remove (.delete req)) (.removed n) us k

namespace Archive

variable {ts : Tables} {k : Nat}

/-- What `store` does, as the effect of the append that it stores for. -/
theorem store_effect (a : Archive) {operation : String} {req : WriteRequest} {payload : Payload}
    {q : Token} {v : Version} (hq : Token.decode req.token = .ok q)
    (hv : payload.version a.codec req = some v) :
    Runs (a.store (a.deadline operation) req q v) ts k
      (fun r us j => Effect a ts k (.append req payload) (.receipt r) us j)
      fun us j => us = ts ∧ k ≤ j := by
  apply (store_runs a _ req q v).imp
  · intro r us j h
    obtain ⟨rfl, hd, ⟨rfl, existing, hexisting⟩ | ⟨row, hus⟩⟩ := h
    · exact .repeated (.of_not_expired hd) hq hv hexisting
    · exact .written (.of_not_expired hd) hq hv hus
  · intro us j h
    exact ⟨h.1, Nat.le_of_eq h.2.symm⟩

theorem append_runs (a : Archive) (req : WriteRequest) (es : List Event) :
    Runs (a.append req es) ts k
      (fun r us j => Effect a ts k (.append req (.events es)) (.receipt r) us j)
      fun us j => us = ts ∧ k ≤ j := by
  have hnone : ts = ts ∧ k ≤ k := ⟨rfl, Nat.le_refl k⟩
  refine .bind (.of_keeps .checkLease (fun _ _ => ?_) hnone)
  split
  · exact .throw hnone
  next first hfirst =>
  refine .bind (.lift (fun q hq => ?_) hnone)
  refine .bind (.lift (fun blob hblob => ?_) hnone)
  have hencode : a.codec.encode es = .ok blob := mapError_eq_ok_iff.1 hblob
  refine store_effect a (decodeToken_eq_ok_iff.1 hq) ?_
  simp only [Payload.version, hfirst, hencode]

theorem appendRaw_runs (a : Archive) (req : WriteRequest) (node : NodeId) (blob : Bytes) :
    Runs (a.appendRaw req node blob) ts k
      (fun r us j => Effect a ts k (.append req (.raw node blob)) (.receipt r) us j)
      fun us j => us = ts ∧ k ≤ j := by
  have hnone : ts = ts ∧ k ≤ k := ⟨rfl, Nat.le_refl k⟩
  refine .bind (.of_keeps .checkLease (fun _ _ => ?_) hnone)
  dsimp only
  split
  · exact .throw_bind hnone
  split
  · exact .throw_bind hnone
  refine .bind (.lift (fun q hq => ?_) hnone)
  exact store_effect a (decodeToken_eq_ok_iff.1 hq) rfl

theorem newBranch_effect (a : Archive) (namespaceId workflowId runId : String)
    (retention : Retention) :
    Runs (.token <$> a.newBranch namespaceId workflowId runId retention : Action MemoryStore _) ts k
      (Effect a ts k (.newBranch namespaceId workflowId runId retention))
      fun us j => us = ts ∧ k ≤ j := by
  apply Runs.map
  refine (newBranch_runs a namespaceId workflowId runId retention).imp (fun bytes us j h => ?_)
    fun _ _ h => h
  obtain ⟨rfl, rfl, hbytes⟩ := h
  exact .newBranch hbytes

theorem fork_effect (a : Archive) (req : ForkRequest) :
    Runs (.token <$> a.fork req) ts k (Effect a ts k (.fork req)) fun us j => us = ts ∧ k ≤ j := by
  apply Runs.map
  refine (fork_runs a req).imp (fun bytes us j h => ?_) fun _ _ h => h
  obtain ⟨rfl, htime, q, row, hq, hrow, hbytes, now, rfl⟩ := h
  exact .forked htime hq hrow hbytes

theorem trim_effect (a : Archive) (req : TrimRequest) :
    Runs (a.trim req) ts k (fun n => Effect a ts k (.remove (.trim req)) (.removed n))
      fun us j => us = ts ∧ k ≤ j := by
  by_cases hdecode : ∃ q, Token.decode req.token = .ok q
  · obtain ⟨q, hq⟩ := hdecode
    apply ((trim_runs a req).and_keeps (trim_keeps a hq) (.refl ..)).imp
    · intro n us j h
      obtain ⟨⟨rfl, p, row, hp, hrow, hown, hus, hgone⟩, hspares⟩ := h
      cases hq.symm.trans hp
      exact .trimmed hq hrow hown hus hgone hspares
    · intro us j h
      exact ⟨h.1, Nat.le_of_eq h.2.symm⟩
  · apply (trim_runs a req).imp
    · intro n us j h
      obtain ⟨-, q, -, hq, -⟩ := h
      exact absurd ⟨q, hq⟩ hdecode
    · intro us j h
      exact ⟨h.1, Nat.le_of_eq h.2.symm⟩

theorem delete_effect (a : Archive) (req : DeleteRequest) :
    Runs (a.delete req) ts k (fun n => Effect a ts k (.remove (.delete req)) (.removed n))
      fun us j => us = ts ∧ k ≤ j := by
  by_cases hdecode : ∃ q, Token.decode req.token = .ok q
  · obtain ⟨q, hq⟩ := hdecode
    apply ((delete_runs a req).and_keeps (delete_keeps a hq) (.refl ..)).imp
    · intro n us j h
      obtain ⟨⟨rfl, p, hp, hus⟩, hspares⟩ := h
      cases hq.symm.trans hp
      exact .deleted hq hus hspares
    · intro us j h
      exact ⟨h.1, Nat.le_of_eq h.2.symm⟩
  · apply (delete_runs a req).imp
    · intro n us j h
      obtain ⟨-, q, hq, -⟩ := h
      exact absurd ⟨q, hq⟩ hdecode
    · intro us j h
      exact ⟨h.1, Nat.le_of_eq h.2.symm⟩

/-- **Operations are effects.** Without faults and delays an operation that succeeds has its effect,
and one that fails leaves the tables as they are. -/
theorem perform_runs (a : Archive) (op : Operation) :
    Runs (op.perform a) ts k (Effect a ts k op) fun us j => us = ts ∧ k ≤ j := by
  cases op with
  | newBranch namespaceId workflowId runId retention =>
    exact newBranch_effect a namespaceId workflowId runId retention
  | append req payload =>
    cases payload with
    | events es => exact .map (append_runs a req es)
    | raw node blob => exact .map (appendRaw_runs a req node blob)
  | fork req => exact fork_effect a req
  | remove r =>
    cases r with
    | trim req => exact .map (trim_effect a req)
    | delete req => exact .map (delete_effect a req)

end Archive

theorem Effect.le {a : Archive} {ts us : Tables} {k j : Nat} {op : Operation} {ans : Answer}
    (h : Effect a ts k op ans us j) : k ≤ j := by
  cases h <;> omega

/-! ## Reachable states -/

def Known (issued : List Bytes) (t : Token) : Prop := ∃ bytes ∈ issued, Token.decode bytes = .ok t

instance (issued : List Bytes) (t : Token) : Decidable (Known issued t) :=
  decidable_of_iff (∃ bytes ∈ issued, (Token.decode bytes).toOption = some t) <|
    exists_congr fun bytes => and_congr_right fun _ => by
      cases Token.decode bytes <;> simp [Except.toOption]

/-- If the operation names a branch, then by an issued token. -/
def Operation.Genuine (issued : List Bytes) (op : Operation) : Prop :=
  ∀ q ∈ op.target?, Known issued q

instance (issued : List Bytes) (op : Operation) : Decidable (op.Genuine issued) :=
  inferInstanceAs (Decidable (∀ q ∈ op.target?, Known issued q))

namespace Archive

/-- The first `k` ids that the archive draws differ. -/
def DistinctDraws (a : Archive) (k : Nat) : Prop :=
  ∀ i j, 0 < i → i < j → j ≤ k → (.random (a.source i) : BranchId) ≠ .random (a.source j)

theorem DistinctDraws.mono {a : Archive} {j k : Nat} (h : a.DistinctDraws k) (hle : j ≤ k) :
    a.DistinctDraws j := by
  intro i l hi hil hlj
  exact h i l hi hil (Nat.le_trans hlj hle)

/-- The states of runs, with the tokens issued so far. -/
inductive Reaches (a : Archive) : State MemoryStore → List Bytes → Prop
  | start : Reaches a (.fresh .empty) []
  /-- Whatever does not touch the store and delays nothing; the calendar goes on. -/
  | aside {s t : State MemoryStore} {issued : List Bytes} (h : Reaches a s issued)
      (hstore : t.store = s.store) (hdrawn : t.drawn = s.drawn) (hdelay : t.delay = s.delay) :
      Reaches a t issued
  | call {s : State MemoryStore} {issued : List Bytes} (h : Reaches a s issued) (op : Operation)
      (hop : op.Genuine issued) :
      Reaches a ((op.perform a).final s) (issued ++ Answer.issued ((op.perform a).answer s))

/-- The issued tokens are a family, and their branches have ids among the first `k` drawn ones. -/
structure Enrolled (a : Archive) (k : Nat) (issued : List Bytes) : Prop where
  family : Family (Known issued)
  drawn : ∀ t, Known issued t → ∃ i, 0 < i ∧ i ≤ k ∧ t.branch = .random (a.source i)

/-- Tables as runs leave them: the issued tokens are a family with drawn ids, and the tables are
tidy for them. Without time there are no rows. -/
structure Orderly (a : Archive) (ts : Tables) (k : Nat) (issued : List Bytes) : Prop where
  family : Family (Known issued)
  drawn : ∀ t, Known issued t → ∃ i, 0 < i ∧ i ≤ k ∧ t.branch = .random (a.source i)
  tidy : Tidy (Known issued) ts
  time : ∀ t b row, ts.row? t b = some row → a.InTime

end Archive

theorem known_nil : Known [] = fun _ => False := by
  funext t
  simp [Known]

theorem known_concat {issued : List Bytes} {bytes : Bytes} {t : Token}
    (h : Token.decode bytes = .ok t) :
    Known (issued ++ [bytes]) = fun u => Known issued u ∨ u = t := by
  funext u
  simp only [Known, List.mem_append, List.mem_singleton, or_and_right, exists_or, exists_eq_left, h,
    Except.ok.injEq, eq_comm (a := t)]

namespace Archive

namespace Enrolled

variable {a : Archive} {k i : Nat} {issued : List Bytes} {bytes : Bytes} {t : Token}

theorem start (a : Archive) (k : Nat) : Enrolled a k [] where
  family := known_nil ▸ Family.empty
  drawn t h := by rw [known_nil] at h; exact h.elim

theorem later (h : Enrolled a k issued) (hle : k ≤ i) : Enrolled a i issued where
  family := h.family
  drawn t ht := by
    obtain ⟨l, hl, hlk, hbranch⟩ := h.drawn t ht
    exact ⟨l, hl, Nat.le_trans hlk hle, hbranch⟩

theorem fresh (h : Enrolled a k issued) (hdistinct : a.DistinctDraws i) (hi : k < i)
    (ht : Known issued t) : t.branch ≠ .random (a.source i) := by
  obtain ⟨l, hpos, hle, hbranch⟩ := h.drawn t ht
  rw [hbranch]
  exact hdistinct l i hpos (Nat.lt_of_le_of_lt hle hi) (Nat.le_refl i)

section Issue

variable (hdistinct : a.DistinctDraws i) (hi : k < i) (ht : Token.decode bytes = .ok t)
  (hbranch : t.branch = .random (a.source i))
include hdistinct hi ht hbranch

theorem issue (h : Enrolled a k issued)
    (hfamily : (∀ u, Known issued u → u.branch ≠ t.branch) →
      Family fun u => Known issued u ∨ u = t) : Enrolled a i (issued ++ [bytes]) where
  family := known_concat ht ▸ hfamily fun u hu => hbranch ▸ h.fresh hdistinct hi hu
  drawn u hu := by
    rw [known_concat ht] at hu
    rcases hu with hu | rfl
    · exact (h.later (Nat.le_of_lt hi)).drawn u hu
    · exact ⟨i, Nat.zero_lt_of_lt hi, Nat.le_refl i, hbranch⟩

theorem root (h : Enrolled a k issued) (hlineage : t.lineage = []) :
    Enrolled a i (issued ++ [bytes]) :=
  h.issue hdistinct hi ht hbranch fun hfresh => h.family.root hfresh hlineage

theorem fork (h : Enrolled a k issued) {source : Token} (hsource : Known issued source)
    {node : NodeId} (htree : t.tree = source.tree) (hlineage : t.lineage = source.lineageAt node) :
    Enrolled a i (issued ++ [bytes]) :=
  h.issue hdistinct hi ht hbranch fun hfresh => h.family.fork hsource hfresh htree hlineage

end Issue

end Enrolled

namespace Orderly

variable {a : Archive} {ts us : Tables} {k j : Nat} {issued : List Bytes}

theorem start (a : Archive) : Orderly a .empty 0 [] where
  family := (Enrolled.start a 0).family
  drawn := (Enrolled.start a 0).drawn
  tidy := .empty
  time _ _ _ h := nomatch h

theorem enrolled (h : Orderly a ts k issued) : Enrolled a k issued := ⟨h.family, h.drawn⟩

theorem issue (h : Orderly a ts k issued) {bytes : Bytes} {t : Token}
    (ht : Token.decode bytes = .ok t) (henrolled : Enrolled a j (issued ++ [bytes])) :
    Orderly a ts j (issued ++ [bytes]) where
  family := henrolled.family
  drawn := henrolled.drawn
  tidy := h.tidy.weaken fun u hu => by rw [known_concat ht]; exact .inl hu
  time := h.time

theorem change (h : Orderly a ts k issued) (htidy : Tidy (Known issued) us)
    (htime : ∀ t b row, us.row? t b = some row → a.InTime) : Orderly a us k issued :=
  ⟨h.family, h.drawn, htidy, htime⟩

theorem later (h : Orderly a ts k issued) (hle : k ≤ j) : Orderly a ts j issued where
  family := h.family
  drawn := (h.enrolled.later hle).drawn
  tidy := h.tidy
  time := h.time

theorem effect (h : Orderly a ts k issued) {op : Operation} {ans : Answer}
    (heffect : Effect a ts k op ans us j) (hop : op.Genuine issued)
    (hdistinct : a.DistinctDraws j) : Orderly a us j (issued ++ Answer.issued (.ok ans)) := by
  cases heffect with
  | newBranch hbytes =>
    have ht := Token.decode_encode hbytes trivial
    exact h.issue ht (h.enrolled.root hdistinct (by omega) ht rfl rfl)
  | repeated => rw [Answer.issued, List.append_nil]; exact h
  | written htime hq hv hus =>
    rw [Answer.issued, List.append_nil]
    have hknown := hop _ (Operation.target?_of_decode rfl hq)
    exact h.change (h.tidy.writes hknown hus) fun _ _ _ _ => htime
  | @forked req q row bytes now htime hq hrow hbytes =>
    have hknown : Known issued row.token := h.tidy.row _ _ _ hrow
    have hfollows := Token.lineageAt_follows (h.family.follows _ hknown) req.node
    have ht := Token.decode_encode hbytes hfollows
    have hissue := h.issue ht (h.enrolled.fork hdistinct (by omega) ht rfl hknown rfl rfl)
    have hnone := h.tidy.row?_eq_none
      (fun u hu => h.enrolled.fresh hdistinct (Nat.lt_succ_self k) hu) row.token.tree
    exact hissue.change (hissue.tidy.fork ⟨bytes, by simp, ht⟩ hnone) fun _ _ _ _ => htime
  | trimmed hq hrow hown hus hgone hspares =>
    rw [Answer.issued, List.append_nil]
    apply h.change (h.tidy.trims hus)
    intro t b row hr
    rw [hus.rows] at hr
    exact h.time t b row hr
  | deleted hq hus hspares =>
    rw [Answer.issued, List.append_nil]
    have hknown := hop _ (Operation.target?_of_decode rfl hq)
    apply h.change (h.tidy.deletes h.family hknown hus)
    intro t b row hr
    exact h.time t b row (Tidy.row_of_deletes hus hr)

end Orderly

variable {a : Archive} {s : State MemoryStore} {issued : List Bytes}

/-- What an operation does in a state without a fault or a delay. -/
theorem perform_outcome (op : Operation) (hs : s.Unarmed) :
    ((op.perform a).final s).Unarmed ∧
      ((∃ ans, (op.perform a).answer s = .ok ans ∧ Effect a s.tables s.drawn op ans
          ((op.perform a).final s).tables ((op.perform a).final s).drawn) ∨
        ∃ e, (op.perform a).answer s = .error e ∧
          ((op.perform a).final s).tables = s.tables ∧
          s.drawn ≤ ((op.perform a).final s).drawn) := by
  rcases Action.outcome_of_meets ((perform_runs a op).meets hs) with
    ⟨ans, hans, ht, heffect⟩ | ⟨e, he, ht, hsame⟩
  · exact ⟨ht, .inl ⟨ans, hans, heffect⟩⟩
  · exact ⟨ht, .inr ⟨e, he, hsame⟩⟩

theorem Reaches.unarmed (h : Reaches a s issued) : s.Unarmed := by
  induction h with
  | start => exact ⟨rfl, rfl⟩
  | aside _ hstore _ hdelay ih =>
    exact ⟨(congrArg MemoryStore.fault hstore).trans ih.1, hdelay.trans ih.2⟩
  | call _ op _ ih => exact (perform_outcome op ih).1

/-- **Runs keep order.** As long as the archive draws distinct ids, the tables of its runs are in
order. -/
theorem Reaches.orderly (h : Reaches a s issued) (hdistinct : a.DistinctDraws s.drawn) :
    Orderly a s.tables s.drawn issued := by
  induction h with
  | start => exact .start a
  | @aside s t issued _ hstore hdrawn _ ih =>
    rw [hdrawn] at hdistinct ⊢
    rw [State.tables, hstore]
    exact ih hdistinct
  | @call s issued h op hop ih =>
    rcases (perform_outcome op h.unarmed).2 with ⟨ans, hans, heffect⟩ | ⟨e, he, htables, hdrawn⟩
    · rw [hans]
      exact (ih (hdistinct.mono heffect.le)).effect heffect hop hdistinct
    · rw [he, htables, Answer.issued, List.append_nil]
      exact (ih (hdistinct.mono hdrawn)).later hdrawn

/-! ## A run -/

/-- The state after operations, the latest first, with these leases, and the tokens issued by then.
-/
def after (a : Archive) (leases : LeaseTable) : List Operation → State MemoryStore × List Bytes
  | [] => ({ State.fresh .empty with leases }, [])
  | op :: before =>
    let (s, issued) := a.after leases before
    ((op.perform a).final s, issued ++ Answer.issued ((op.perform a).answer s))

/-- Every operation names its branch, if at all, by a token that was issued before. -/
def isSound (a : Archive) (leases : LeaseTable) : List Operation → Bool
  | [] => true
  | op :: before => a.isSound leases before && decide (op.Genuine (a.after leases before).2)

theorem reaches_after {leases : LeaseTable} {ops : List Operation}
    (h : a.isSound leases ops = true) :
    Reaches a (a.after leases ops).1 (a.after leases ops).2 := by
  induction ops with
  | nil => exact .aside .start rfl rfl rfl
  | cons op before ih =>
    obtain ⟨hbefore, hgenuine⟩ := Bool.and_eq_true_iff.1 h
    exact .call (ih hbefore) op (of_decide_eq_true hgenuine)

end Archive

/-! A run that writes a branch with two nodes, forks it at the second, writes that node anew in both
branches, and trims the first branch to it. -/
namespace Sample

def archive : Archive := .timed none

/-- An archive whose operations have a second of time. -/
def hurried : Archive := .timed (some 1000)

def leases : LeaseTable := ⟨SortedMap.empty.insert 1 ⟨1, true⟩⟩
def forkRequest (source : Bytes) : ForkRequest := ⟨1, 1, "", source, 2, "", ""⟩

/-- Operations, the latest first, that name their branches by tokens issued before, and the tokens
issued by their end. -/
structure Run where
  operations : List Operation
  issued : List Bytes
  sound : archive.isSound leases operations = true
  issued_eq : (archive.after leases operations).2 = issued

def Run.state (r : Run) : State MemoryStore := (archive.after leases r.operations).1

theorem Run.reaches (r : Run) : archive.Reaches r.state r.issued :=
  r.issued_eq ▸ Archive.reaches_after r.sound

def root : Token := archive.rootToken "" "" "" .unset 0
def fork : Token := archive.forkToken (forkRequest (Forked.bytes root)) root 2

theorem decode_root : Token.decode (Forked.bytes root) = .ok root := rfl

def write (t : Token) (node : NodeId) (x previous : TransactionId) (blob : Bytes) : Operation :=
  .append ⟨1, 1, Forked.bytes t, x, previous, true, ""⟩ (.raw node blob)

def operations : List Operation :=
  [.remove (.trim ⟨1, 1, Forked.bytes root, 2, 8⟩), write root 2 8 5 [4], write fork 2 7 5 [3],
    .fork (forkRequest (Forked.bytes root)), write root 2 6 5 [2], write root 1 5 0 [1],
    .newBranch "" "" "" .unset]

def threeBatches : List Operation :=
  [write root 3 7 6 [3], write root 2 6 5 [2], write root 1 5 0 [1], .newBranch "" "" "" .unset]

def state : State MemoryStore := (archive.after leases operations).1
def issued : List Bytes := [Forked.bytes root, Forked.bytes fork]

def run : Run := ⟨operations, issued, by decide +kernel, by decide +kernel⟩

theorem issued_eq : (archive.after leases operations).2 = issued := run.issued_eq

theorem reaches : archive.Reaches state issued := run.reaches

theorem distinctDraws_four : archive.DistinctDraws 4 := by
  have h : ∀ j < 5, ∀ i < j, 0 < i →
      (.random (archive.source i) : BranchId) ≠ .random (archive.source j) := by decide +kernel
  exact fun i j hi hij hj => h j (Nat.lt_succ_of_le hj) i hij hi

theorem distinctDraws : archive.DistinctDraws state.drawn :=
  distinctDraws_four.mono (by decide +kernel)

theorem known_iff {t : Token} : Known issued t ↔ t = root ∨ t = fork := by
  have hroot : Token.decode (Forked.bytes root) = .ok root := rfl
  have hfork : Token.decode (Forked.bytes fork) = .ok fork := rfl
  simp only [Known, issued, List.mem_cons, List.not_mem_nil, or_false, or_and_right, exists_or,
    exists_eq_left, hroot, hfork, Except.ok.injEq, eq_comm]

end Sample

end Chronicle
