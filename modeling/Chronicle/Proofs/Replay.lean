import Chronicle.Proofs.Log
import Chronicle.Proofs.Paging
import Chronicle.Proofs.Run

/-!
# Runs and their logs

A ledger keeps a plain list of versions for every branch. Replaying a run on it needs no table: an
append cuts the list of its branch at its node and pushes its version, a fork copies the part before
its node, a trim leaves the part up to the watermark, a deletion closes the list.

If the callers of a run keep to `Disciplined`, then what the tables show of a branch is its list,
although the tables keep overwritten versions, inherited spans and the rests of deleted branches.

* `Tracks`: tables and a ledger agree. `Tracks.effect`: so they do after every operation.
* `Replays`: runs with their ledgers.
* `Replays.reads_log`: page after page a raw read gives the list.
-/
namespace Chronicle

open Archive (State)

/-! ## Ledgers -/

/-- The lists of the branches, the branches whose list was closed, and the transactions of all
versions that were inserted. -/
structure Ledger where
  log : TreeId → BranchId → Option (List Version)
  closed : List (TreeId × BranchId)
  inserted : List TransactionId

namespace Ledger

def empty : Ledger := ⟨fun _ _ => none, [], []⟩

def batches (l : Ledger) (q : Token) : List Version := (l.log q.tree q.branch).getD []

def enter (l : Ledger) (q : Token) (batches : List Version) : Ledger :=
  { l with log := fun t b => if t = q.tree ∧ b = q.branch then some batches else l.log t b }

/-- Cuts the list at the node of a version and pushes the version. -/
def append (l : Ledger) (q : Token) (v : Version) : Ledger :=
  { l.enter q ((l.batches q).filter (fun w => w.node < v.node) ++ [v]) with
    inserted := v.transaction :: l.inserted }

def fork (l : Ledger) (q new : Token) (node : NodeId) : Ledger :=
  l.enter new ((l.batches q).filter fun v => v.node < node)

/-- Leaves the part of a list up to a node. -/
def trim (l : Ledger) (q : Token) (node : NodeId) : Ledger :=
  l.enter q ((l.batches q).filter fun v => v.node ≤ node)

def close (l : Ledger) (q : Token) : Ledger :=
  match l.log q.tree q.branch with
  | some _ =>
    { l with
      log := fun t b => if t = q.tree ∧ b = q.branch then none else l.log t b
      closed := (q.tree, q.branch) :: l.closed }
  | none => l

theorem log_close (l : Ledger) (q : Token) (t : TreeId) (b : BranchId) :
    (l.close q).log t b = if t = q.tree ∧ b = q.branch then none else l.log t b := by
  unfold close
  cases hlog : l.log q.tree q.branch with
  | some batches => rfl
  | none =>
    dsimp only
    split
    · next hb => rw [hb.1, hb.2, hlog]
    · rfl

theorem mem_closed_close {l : Ledger} {q : Token} {key : TreeId × BranchId} :
    key ∈ (l.close q).closed ↔
      key ∈ l.closed ∨ key = (q.tree, q.branch) ∧ l.log q.tree q.branch ≠ none := by
  unfold close
  cases hlog : l.log q.tree q.branch with
  | some batches => simp [or_comm]
  | none => simp

theorem inserted_close (l : Ledger) (q : Token) : (l.close q).inserted = l.inserted := by
  unfold close
  cases l.log q.tree q.branch <;> rfl

end Ledger

/-- The transaction is later than all that were inserted. -/
def Ledger.IsLater (l : Ledger) (x : TransactionId) : Prop := ∀ y ∈ l.inserted, y < x

-- by the list, since transactions are finitely many
instance (l : Ledger) (x : TransactionId) : Decidable (l.IsLater x) :=
  List.decidableBAll (· < x) l.inserted

/-- An append that answers this on tables `ts` inserts the version, and repeats no stored one. -/
def Tables.Inserts (ts : Tables) (answer : Except Error Answer) (q : Token) (v : Version) : Prop :=
  answer.isOk = true ∧ ts.version? q.tree q.branch v.node v.transaction = none

instance (ts : Tables) (answer : Except Error Answer) (q : Token) (v : Version) :
    Decidable (ts.Inserts answer q v) :=
  inferInstanceAs (Decidable (_ ∧ _))

/-- The ledger after an operation on tables `ts`. -/
def Ledger.replay (l : Ledger) (codec : Codec) (ts : Tables) (op : Operation) :
    Except Error Answer → Ledger
  | .error _ => l
  | .ok answer =>
    match op, op.target?, answer with
    | .append req payload, some q, _ =>
      match payload.version codec req with
      | some v => if ts.Inserts (.ok answer) q v then l.append q v else l
      | none => l
    | .fork req, some q, .token bytes =>
      match Token.decode bytes with
      | .ok new => l.fork q new req.node
      | .error _ => l
    | .remove (.trim req), some q, _ => l.trim q req.node
    | .remove (.delete _), some q, _ => l.close q
    | _, _, _ => l

/-- What the callers of an operation keep to, that answers this on tables `ts`. -/
structure Disciplined (codec : Codec) (ts : Tables) (answer : Except Error Answer)
    (issued : List Bytes) (l : Ledger) (op : Operation) : Prop where
  genuine : op.Genuine issued
  /-- A branch whose list was closed is not created again. -/
  alive : op.isNewBranch = true → ∀ q ∈ op.target?, (q.tree, q.branch) ∉ l.closed
  /-- A version is inserted by a later transaction than all before. -/
  later : ∀ q ∈ op.target?, ∀ v ∈ op.written? codec, ts.Inserts answer q v →
    l.IsLater v.transaction
  /-- A version is inserted behind what other branches inherit. -/
  behind : ∀ q ∈ op.target?, ∀ v ∈ op.written? codec, ts.Inserts answer q v →
    ∀ row ∈ ts.rowsOf q.tree, row.branch ≠ q.branch →
      ∀ s ∈ row.token.lineage, s.owner = q.branch → s.stop ≤ v.node
  /-- The watermark is on the list. -/
  watermark : ∀ q ∈ op.target?, ∀ w ∈ op.watermark?, ∀ batches ∈ l.log q.tree q.branch,
    ∃ v ∈ batches, v.position = w

instance (codec : Codec) (ts : Tables) (answer : Except Error Answer) (issued : List Bytes)
    (l : Ledger) (op : Operation) : Decidable (Disciplined codec ts answer issued l op) :=
  decidable_of_iff (op.Genuine issued ∧
    (op.isNewBranch = true → ∀ q ∈ op.target?, (q.tree, q.branch) ∉ l.closed) ∧
    (∀ q ∈ op.target?, ∀ v ∈ op.written? codec, ts.Inserts answer q v →
      l.IsLater v.transaction) ∧
    (∀ q ∈ op.target?, ∀ v ∈ op.written? codec, ts.Inserts answer q v →
      ∀ row ∈ ts.rowsOf q.tree, row.branch ≠ q.branch →
        ∀ s ∈ row.token.lineage, s.owner = q.branch → s.stop ≤ v.node) ∧
    ∀ q ∈ op.target?, ∀ w ∈ op.watermark?, ∀ batches ∈ l.log q.tree q.branch,
      ∃ v ∈ batches, v.position = w)
    ⟨fun ⟨h1, h2, h3, h4, h5⟩ => ⟨h1, h2, h3, h4, h5⟩,
      fun ⟨h1, h2, h3, h4, h5⟩ => ⟨h1, h2, h3, h4, h5⟩⟩

/-! ## Tables and their ledger -/

/-- Tables and a ledger agree: a branch with a row has a list, which is its log, all stored versions
were put down, and nothing is stored of a branch that has not been created. -/
structure Tracks (issued : List Bytes) (ts : Tables) (l : Ledger) : Prop where
  log : ∀ t b, l.log t b = (ts.row? t b).map fun row => ts.log row.token
  inserted : ∀ t b n x v, ts.version? t b n x = some v → x ∈ l.inserted
  unwritten : ∀ q, Known issued q → ts.row? q.tree q.branch = none →
    (q.tree, q.branch) ∉ l.closed →
      q.lineage = [] ∧ ∀ n x, ts.version? q.tree q.branch n x = none

namespace Tracks

variable {a : Archive} {ts us : Tables} {k : Nat} {issued : List Bytes} {l : Ledger}

theorem empty : Tracks [] .empty .empty where
  log _ _ := rfl
  inserted _ _ _ _ _ h := nomatch h
  unwritten q h := by rw [known_nil] at h; exact h.elim

variable (ho : Archive.Orderly a ts k issued) (h : Tracks issued ts l)

include h

theorem batches_of_row {q : Token} {row : BranchRow}
    (hrow : ts.row? q.tree q.branch = some row) : l.batches q = ts.log row.token := by
  rw [Ledger.batches, h.log, hrow]
  rfl

include ho

/-- The list of a branch that an operation spares is its log afterwards. -/
theorem log_of_same {t : TreeId} {b : BranchId} (hsame : ts.SameBranch us t b) :
    l.log t b = (us.row? t b).map fun row => us.log row.token := by
  rw [h.log, hsame.row]
  apply Option.map_congr
  intro row hrow
  have hfollows := ho.family.follows _ (ho.tidy.row t b row hrow)
  have htree : row.token.tree = t := (Tables.row?_own hrow).1
  exact (Tables.log_congr hfollows (htree ▸ hsame.versions row hrow)).symm

/-- Nothing was put down for a branch before it is created. -/
theorem batches_eq {q : Token} (hq : Known issued q)
    (hcreated : ts.row? q.tree q.branch = none → (q.tree, q.branch) ∉ l.closed) :
    l.batches q = ts.log q := by
  cases hrow : ts.row? q.tree q.branch with
  | some row => rw [h.batches_of_row hrow, ho.tidy.token_eq ho.family hq hrow]
  | none =>
    obtain ⟨hlineage, hnone⟩ := h.unwritten q hq hrow (hcreated hrow)
    have hlog : ts.log q = [] := by
      apply List.eq_nil_iff_forall_not_mem.2
      intro v hv
      obtain ⟨⟨s, hs, -, hstored⟩, -⟩ := (Tables.mem_log_iff (ho.family.follows q hq)).1 hv
      rw [Token.spans, hlineage, List.nil_append, List.mem_singleton] at hs
      rw [hs, show q.ownSpan.owner = q.branch from rfl, hnone] at hstored
      cases hstored
    rw [hlog, Ledger.batches, h.log, hrow]
    rfl

/-! ### Changes -/

theorem newBranch {bytes : Bytes} {q : Token} (hq : Token.decode bytes = .ok q)
    (hlineage : q.lineage = []) (hfresh : ∀ u, Known issued u → u.branch ≠ q.branch) :
    Tracks (issued ++ [bytes]) ts l where
  log := h.log
  inserted := h.inserted
  unwritten u hu hnone hclosed := by
    rw [known_concat hq] at hu
    rcases hu with hu | rfl
    · exact h.unwritten u hu hnone hclosed
    · exact ⟨hlineage, ho.tidy.version?_eq_none hfresh u.tree⟩

theorem write {q : Token} (hq : Known issued q) {isNew : Bool} {row : BranchRow} {v : Version}
    (hw : ts.Writes q isNew row v us) (halive : isNew = true → (q.tree, q.branch) ∉ l.closed)
    (hlater : l.IsLater v.transaction)
    (hbehind : ∀ b row, b ≠ q.branch → ts.row? q.tree b = some row →
      ∀ s ∈ row.token.lineage, s.owner = q.branch → s.stop ≤ v.node) :
    Tracks issued us (l.append q v) where
  log t b := by
    have hrow : row.token = q := by
      rcases hw.branch with hold | ⟨-, -, htoken⟩
      · exact ho.tidy.token_eq ho.family hq hold
      · exact htoken
    by_cases hb : t = q.tree ∧ b = q.branch
    · obtain ⟨rfl, rfl⟩ := hb
      have hbatches : l.batches q = ts.log q := by
        refine h.batches_eq ho hq fun hnone => ?_
        rcases hw.branch with hold | ⟨-, hnew, -⟩
        · rw [hnone] at hold
          cases hold
        · exact halive hnew
      rw [hw.rows, if_pos ⟨rfl, rfl⟩, Option.map_some, hrow,
        Tables.log_write (ho.family.follows q hq) hrow hw, ← hbatches]
      · exact if_pos ⟨rfl, rfl⟩
      · intro w hw
        obtain ⟨s, -, -, hstored⟩ := hw
        exact hlater _ (h.inserted _ _ _ _ _ hstored)
    · refine (if_neg hb).trans (h.log_of_same ho ⟨?_, ?_⟩)
      · rw [hw.rows, if_neg hb]
      · intro old hold s hs n hn x
        rw [hw.versions, if_neg]
        intro hplace
        obtain ⟨rfl, howner, rfl, -⟩ := hplace
        rcases List.mem_append.1 hs with hs | hs
        · exact Int64.not_lt.2 (hbehind b old (fun hc => hb ⟨rfl, hc⟩) hold s hs howner) hn.2
        · rw [List.mem_singleton.1 hs] at howner
          exact hb ⟨rfl, (Tables.row?_own hold).2.symm.trans howner⟩
  inserted t b n x w hstored := by
    rw [hw.versions] at hstored
    split at hstored
    · next hplace =>
      rw [hplace.2.2.2]
      exact List.mem_cons_self ..
    · exact List.mem_cons_of_mem _ (h.inserted t b n x w hstored)
  unwritten u hu hnone hclosed := by
    rw [hw.rows] at hnone
    split at hnone
    · cases hnone
    · next hne =>
      obtain ⟨hlineage, hversions⟩ := h.unwritten u hu hnone hclosed
      refine ⟨hlineage, fun n x => ?_⟩
      rw [hw.versions, if_neg fun hplace => hne ⟨hplace.1, hplace.2.1⟩, hversions]

theorem fork {q new : Token} {row : BranchRow} (hq : ts.row? q.tree q.branch = some row)
    {bytes : Bytes} (hnew : Token.decode bytes = .ok new) {node : NodeId} {info : String}
    {now : Timestamp} (htree : new.tree = row.token.tree)
    (hlineage : new.lineage = row.token.lineageAt node)
    (hfresh : ∀ u, Known issued u → u.branch ≠ new.branch) :
    Tracks (issued ++ [bytes]) (ts.upsertRow ⟨new, info, now⟩) (l.fork q new node) where
  log t b := by
    have hknown := ho.tidy.row _ _ _ hq
    have hrow : (ts.upsertRow ⟨new, info, now⟩).row? t b =
        if t = new.tree ∧ b = new.branch then some ⟨new, info, now⟩ else ts.row? t b :=
      Tables.row?_upsertRow ..
    by_cases hb : t = new.tree ∧ b = new.branch
    · have hnone := ho.tidy.version?_eq_none hfresh row.token.tree
      have hlog : (ts.upsertRow ⟨new, info, now⟩).log new =
          (ts.log row.token).filter fun v => v.node < node := by
        apply Tables.log_fork (ho.family.follows _ hknown) htree hlineage
        · intro n x
          rw [Tables.version?_upsertRow, hnone]
        · intro u c n x
          exact Tables.version?_upsertRow ..
      rw [hrow, if_pos hb, Option.map_some, hlog, ← h.batches_of_row hq]
      exact if_pos hb
    · exact (if_neg hb).trans (h.log_of_same ho
        ⟨hrow.trans (if_neg hb), fun _ _ _ _ _ _ _ => Tables.version?_upsertRow ..⟩)
  inserted t b n x v hv := h.inserted t b n x v ((Tables.version?_upsertRow ..).symm.trans hv)
  unwritten u hu hnone hclosed := by
    rw [known_concat hnew] at hu
    rw [Tables.row?_upsertRow] at hnone
    split at hnone
    · cases hnone
    · next hne =>
      have hu : Known issued u := hu.resolve_right fun heq => hne (by rw [heq]; exact ⟨rfl, rfl⟩)
      simp only [Tables.version?_upsertRow]
      exact h.unwritten u hu hnone hclosed

theorem trim {q : Token} (hq : Known issued q) {row : BranchRow}
    (hrow : ts.row? q.tree q.branch = some row) {node : NodeId} {x : TransactionId}
    (hown : row.token.ownStart ≤ node) (htrims : ts.Trims q.tree q.branch node x us)
    (hgone : ∀ n y, node < n → us.version? q.tree q.branch n y = none)
    (hspares : ts.Spares q.tree q.branch us)
    (hwatermark : ∃ v ∈ l.batches q, v.node = node ∧ v.transaction = x) :
    Tracks issued us (l.trim q node) where
  log t b := by
    by_cases hb : t = q.tree ∧ b = q.branch
    · have htoken : row.token = q := ho.tidy.token_eq ho.family hq hrow
      have hbatches := h.batches_of_row hrow
      rw [htoken] at hbatches hown
      obtain ⟨v, hv, hnode, htransaction⟩ := hwatermark
      have hlog := Tables.log_trim (ho.family.follows q hq) htrims hown hgone (hbatches ▸ hv) hnode
        htransaction
      rw [htrims.rows, hb.1, hb.2, hrow, Option.map_some, htoken, hlog, ← hbatches]
      exact if_pos ⟨rfl, rfl⟩
    · exact (if_neg hb).trans (h.log_of_same ho (hspares.branches t b hb))
  inserted t b n y v hv := by
    rcases htrims.versions t b n y with heq | ⟨hnone, -⟩
    · exact h.inserted t b n y v (heq ▸ hv)
    · rw [hnone] at hv
      cases hv
  unwritten u hu hnone hclosed := by
    rw [htrims.rows] at hnone
    obtain ⟨hlineage, hversions⟩ := h.unwritten u hu hnone hclosed
    refine ⟨hlineage, fun n y => ?_⟩
    rcases htrims.versions u.tree u.branch n y with heq | ⟨hnone, -⟩
    · exact heq.trans (hversions n y)
    · exact hnone

theorem delete {q : Token} (hd : ts.Deletes q us) (hspares : ts.Spares q.tree q.branch us) :
    Tracks issued us (l.close q) where
  log t b := by
    rw [Ledger.log_close]
    by_cases hb : t = q.tree ∧ b = q.branch
    · rw [if_pos hb, hd.rows, if_pos hb]
      rfl
    · rw [if_neg hb]
      exact h.log_of_same ho (hspares.branches t b hb)
  inserted t b n x v hv := by
    rw [Ledger.inserted_close]
    exact h.inserted t b n x v (Tidy.stored_of_deletes hd hv)
  unwritten u hu hnone hclosed := by
    rw [Ledger.mem_closed_close, not_or] at hclosed
    have hold : ts.row? u.tree u.branch = none := by
      rw [hd.rows] at hnone
      split at hnone
      · next hb =>
        -- a branch that had a row is closed now
        rw [hb.1, hb.2, ← Option.map_eq_none_iff, ← h.log]
        exact Classical.byContradiction fun hlog => hclosed.2 ⟨by rw [hb.1, hb.2], hlog⟩
      · exact hnone
    obtain ⟨hlineage, hversions⟩ := h.unwritten u hu hold hclosed.1
    refine ⟨hlineage, fun n x => Option.eq_none_iff_forall_ne_some.2 fun v hv => ?_⟩
    exact Option.some_ne_none v ((Tidy.stored_of_deletes hd hv).symm.trans (hversions n x))

/-- **Ledgers keep up.** After an operation whose callers were disciplined the tables and the
replayed ledger agree. -/
theorem effect {op : Operation} {ans : Answer} {j : Nat} (heffect : Effect a ts k op ans us j)
    (hop : Disciplined a.codec ts (.ok ans) issued l op) (hdistinct : a.DistinctDraws j) :
    Tracks (issued ++ Answer.issued (.ok ans)) us (l.replay a.codec ts op (.ok ans)) := by
  cases heffect with
  | newBranch hbytes =>
    apply h.newBranch ho (Token.decode_encode hbytes trivial) rfl
    intro u hu
    exact ho.enrolled.fresh hdistinct (by omega) hu
  | @repeated req payload r q v htime hq hv existing hexisting =>
    have htarget : (Operation.append req payload).target? = some q :=
      Operation.target?_of_decode rfl hq
    have hrepeats : ¬ ts.Inserts (.ok (.receipt r)) q v := by
      intro hinserts
      cases hexisting.symm.trans hinserts.2
    simp only [Ledger.replay, htarget, hv, if_neg hrepeats, Answer.issued, List.append_nil]
    exact h
  | @written req payload r q v row us htime hq hv hus =>
    have htarget : (Operation.append req payload).target? = some q :=
      Operation.target?_of_decode rfl hq
    have hinserts : ts.Inserts (.ok (.receipt r)) q v := ⟨rfl, hus.fresh⟩
    simp only [Ledger.replay, htarget, hv, if_pos hinserts, Answer.issued, List.append_nil]
    apply h.write ho (hop.genuine q htarget) hus (fun hnew => hop.alive hnew q htarget)
      (hop.later q htarget v hv hinserts)
    intro b old hb hold
    refine hop.behind q htarget v hv hinserts old (Tables.mem_rowsOf_iff.2 ⟨b, hold⟩) ?_
    rw [(Tables.row?_own hold).2]
    exact hb
  | @forked req q row bytes now htime hq hrow hbytes =>
    have htarget : (Operation.fork req).target? = some q := Operation.target?_of_decode rfl hq
    have hfollows := ho.family.follows _ (ho.tidy.row _ _ _ hrow)
    have hnew := Token.decode_encode hbytes (Token.lineageAt_follows hfollows req.node)
    simp only [Ledger.replay, htarget, hnew]
    exact h.fork ho hrow hnew rfl rfl fun u hu =>
      ho.enrolled.fresh hdistinct (Nat.lt_succ_self k) hu
  | @trimmed req q row n us hq hrow hown hus hgone hspares =>
    have htarget : (Operation.remove (.trim req)).target? = some q :=
      Operation.target?_of_decode rfl hq
    have hlog : l.log q.tree q.branch = some (l.batches q) := by
      rw [Ledger.batches, h.log, hrow]
      rfl
    obtain ⟨v, hv, hposition⟩ := hop.watermark q htarget _ rfl _ hlog
    obtain ⟨hnode, htransaction⟩ := Position.mk.inj hposition
    simp only [Ledger.replay, htarget, Answer.issued, List.append_nil]
    exact h.trim ho (hop.genuine q htarget) hrow hown hus hgone hspares ⟨v, hv, hnode, htransaction⟩
  | @deleted req q n us hq hus hspares =>
    have htarget : (Operation.remove (.delete req)).target? = some q :=
      Operation.target?_of_decode rfl hq
    simp only [Ledger.replay, htarget, Answer.issued, List.append_nil]
    exact h.delete ho hus hspares

end Tracks

namespace Archive

/-- The states of runs whose callers are disciplined, with the tokens issued so far and the ledger.
-/
inductive Replays (a : Archive) : State MemoryStore → List Bytes → Ledger → Prop
  | start : Replays a (.fresh .empty) [] .empty
  /-- Whatever does not touch the store and delays nothing; the calendar goes on. -/
  | aside {s t : State MemoryStore} {issued : List Bytes} {l : Ledger} (h : Replays a s issued l)
      (hstore : t.store = s.store) (hdrawn : t.drawn = s.drawn) (hdelay : t.delay = s.delay) :
      Replays a t issued l
  | call {s : State MemoryStore} {issued : List Bytes} {l : Ledger} (h : Replays a s issued l)
      (op : Operation)
      (hop : Disciplined a.codec s.tables ((op.perform a).answer s) issued l op) :
      Replays a ((op.perform a).final s) (issued ++ Answer.issued ((op.perform a).answer s))
        (l.replay a.codec s.tables op ((op.perform a).answer s))

theorem Replays.reaches {a : Archive} {s : State MemoryStore} {issued : List Bytes} {l : Ledger}
    (h : Replays a s issued l) : Reaches a s issued := by
  induction h with
  | start => exact .start
  | aside _ hstore hdrawn hdelay ih => exact .aside ih hstore hdrawn hdelay
  | call _ op hop ih => exact .call ih op hop.genuine

variable {a : Archive} {s : State MemoryStore} {issued : List Bytes} {l : Ledger}

/-- **Runs keep their ledger.** The tables of a disciplined run and its ledger agree. -/
theorem Replays.tracks (h : Replays a s issued l) (hdistinct : a.DistinctDraws s.drawn) :
    Tracks issued s.tables l := by
  induction h with
  | start => exact .empty
  | @aside s t issued l _ hstore hdrawn _ ih =>
    rw [hdrawn] at hdistinct
    rw [State.tables, hstore]
    exact ih hdistinct
  | @call s issued l h op hop ih =>
    rcases (perform_outcome op h.reaches.unarmed).2 with
      ⟨ans, hans, heffect⟩ | ⟨e, he, htables, hdrawn⟩
    · have hprior := hdistinct.mono heffect.le
      rw [hans] at hop ⊢
      exact (ih hprior).effect (h.reaches.orderly hprior) heffect hop hdistinct
    · rw [he, htables, Answer.issued, List.append_nil]
      exact ih (hdistinct.mono hdrawn)

/-- **A read gives the log.** At every point of a disciplined run the branches with a row are those
with a list. Each has an issued token, and whatever token of it is asked with, following a raw read
of all its nodes, with pages of any sizes, gives exactly its list; if that is empty, there are no
events. -/
theorem Replays.reads_log (h : Replays a s issued l) (hdistinct : a.DistinctDraws s.drawn)
    (hmax : a.config.maxPageSize.toNat + 1 < UInt64.size) (t : TreeId) (b : BranchId) :
    (s.tables.row? t b = none ∧ l.log t b = none) ∨
      ∃ row batches, s.tables.row? t b = some row ∧ l.log t b = some batches ∧
        (∃ bytes ∈ issued, s.tables.Names bytes row) ∧
        ∀ bytes, s.tables.Names bytes row → ∀ sizes : Nat → UInt64,
          (batches = [] ↔ (a.readRaw ⟨bytes, firstEvent, nodeLimit, sizes 0, []⟩).answer s =
            .error (.notFound (.events firstEvent nodeLimit b))) ∧
          (batches ≠ [] → ∃ pages u,
            Paged (fun size page => a.readRaw ⟨bytes, firstEvent, nodeLimit, size, page⟩) sizes 0 []
              s pages u ∧ pages.flatMap (·.items) = batches) := by
  have horderly := h.reaches.orderly hdistinct
  have htracks := h.tracks hdistinct
  have hlog := htracks.log t b
  cases hrow : s.tables.row? t b with
  | none => exact .inl ⟨rfl, by rw [hlog, hrow]; rfl⟩
  | some row =>
    rw [hrow, Option.map_some] at hlog
    have hknown := horderly.tidy.row t b row hrow
    have hfollows := horderly.family.follows _ hknown
    have htime := horderly.time t b row hrow
    have hwindow : firstEvent < nodeLimit := by decide
    obtain ⟨rfl, rfl⟩ := Tables.row?_own hrow
    refine .inr ⟨row, _, rfl, hlog, ?_, ?_⟩
    · obtain ⟨bytes, hissued, hbytes⟩ := hknown
      exact ⟨bytes, hissued, row.token, hbytes, hrow⟩
    intro bytes hnames sizes
    have hsizes : ∀ i, (a.config.effectivePageSize (sizes i)).toNat + 1 < UInt64.size := by
      intro i
      have hle := (Config.effectivePageSize_bounds a.accepted (sizes i)).2
      rw [UInt64.le_iff_toNat_le] at hle
      omega
    constructor
    · exact (readRaw_notFound_iff htime (Int64.le_refl _) hwindow hfollows (hsizes 0)
        h.reaches.unarmed hnames).symm
    · intro hsome
      obtain ⟨pages, u, hpages, hitems, -⟩ := readRaw_paged htime (Int64.le_refl _) hwindow hsizes
        hfollows h.reaches.unarmed hnames hsome
      exact ⟨pages, u, hpages, hitems⟩

/-- The ledger of operations, the latest first, with these leases. -/
def books (a : Archive) (leases : LeaseTable) : List Operation → Ledger
  | [] => .empty
  | op :: before =>
    let s := (a.after leases before).1
    (a.books leases before).replay a.codec s.tables op ((op.perform a).answer s)

/-- The callers of the operations keep to their discipline. -/
def isDisciplined (a : Archive) (leases : LeaseTable) : List Operation → Bool
  | [] => true
  | op :: before =>
    let (s, issued) := a.after leases before
    a.isDisciplined leases before && decide (Disciplined a.codec s.tables
      ((op.perform a).answer s) issued (a.books leases before) op)

theorem replays_after {leases : LeaseTable} {ops : List Operation}
    (h : a.isDisciplined leases ops = true) :
    Replays a (a.after leases ops).1 (a.after leases ops).2 (a.books leases ops) := by
  induction ops with
  | nil => exact .aside .start rfl rfl rfl
  | cons op before ih =>
    obtain ⟨hbefore, hop⟩ := Bool.and_eq_true_iff.1 h
    exact .call (ih hbefore) op (of_decide_eq_true hop)

end Archive

namespace Sample

def ledger : Ledger := archive.books leases operations

theorem replays : archive.Replays state issued ledger :=
  issued_eq ▸ Archive.replays_after (by decide +kernel)

theorem log_fork : ledger.log fork.tree fork.branch = some [⟨1, 5, 0, [1]⟩, ⟨2, 7, 5, [3]⟩] := by
  decide +kernel

end Sample

namespace Archive

/-- After its source was written anew and trimmed, a fork reads as it was written, a node a page. -/
theorem reads_log_sample :
    let read := fun size page =>
      Sample.archive.readRaw ⟨Forked.bytes Sample.fork, firstEvent, nodeLimit, size, page⟩
    Sample.archive.Replays Sample.state Sample.issued Sample.ledger ∧
      ∃ pages t, Paged read (fun _ => 1) 0 [] Sample.state pages t ∧
        pages.flatMap (·.items) = [⟨1, 5, 0, [1]⟩, ⟨2, 7, 5, [3]⟩] := by
  intro read
  have hrow : Sample.state.tables.row? Sample.fork.tree Sample.fork.branch =
      some (Forked.row Sample.fork) := by decide +kernel
  refine ⟨Sample.replays, ?_⟩
  rcases Sample.replays.reads_log Sample.distinctDraws (by decide) Sample.fork.tree
    Sample.fork.branch with ⟨hnone, -⟩ | ⟨row, batches, hsome, hlog, -, hreads⟩
  · cases hrow.symm.trans hnone
  · rw [Sample.log_fork] at hlog
    cases hlog
    exact (hreads _ ⟨Sample.fork, rfl, hsome⟩ fun _ => 1).2 (List.cons_ne_nil _ _)

end Archive

/-- A trim to the first of three batches is late after it has removed the nodes behind it. So it
fails, and the list stays as it is; but the other batches are gone. -/
theorem Archive.log_outlives_trim :
    let s := (Sample.hurried.after Sample.leases Sample.threeBatches).1
    let issued := [Forked.bytes Sample.root]
    let ledger := Sample.hurried.books Sample.leases Sample.threeBatches
    let trim : Operation := .remove (.trim ⟨1, 1, Forked.bytes Sample.root, 1, 5⟩)
    let late : State MemoryStore := { s with delay := some 4 }
    let answer := (trim.perform Sample.hurried).answer late
    Sample.hurried.Replays s issued ledger ∧
      Disciplined Sample.hurried.codec late.tables answer issued ledger trim ∧
      answer = .error (.timeout "trim_history_branch") ∧
      (ledger.replay Sample.hurried.codec late.tables trim answer).log Sample.root.tree
        Sample.root.branch = some [⟨1, 5, 0, [1]⟩, ⟨2, 6, 5, [2]⟩, ⟨3, 7, 6, [3]⟩] ∧
      (Sample.hurried.readRaw ⟨Forked.bytes Sample.root, firstEvent, nodeLimit, 10, []⟩).answer
        ((trim.perform Sample.hurried).final late) = .ok ⟨[⟨1, 5, 0, [1]⟩], [], 1⟩ := by
  intro s issued ledger trim late answer
  have hissued : (Sample.hurried.after Sample.leases Sample.threeBatches).2 = issued := by
    decide +kernel
  refine ⟨hissued ▸ Archive.replays_after (by decide +kernel), ?_, ?_, ?_, ?_⟩
  · decide +kernel
  · decide +kernel
  · decide +kernel
  · decide +kernel

end Chronicle
