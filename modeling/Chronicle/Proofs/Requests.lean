import Chronicle.Archive.Listing
import Chronicle.Proofs.Appending

/-!
# Requests

A request is an operation or a question. Most requests carry a token, and anyone can write one: a
token names a branch by its tree and branch ids, and brings a lineage, a namespace and a retention
of its own along.

* `Request.perform_withToken`: of a branch with a row only the ids in the token count. What the rest
  of the token says changes neither the answer nor the state that is left.
-/
namespace Chronicle

open Archive (State)

inductive Request where
  | change (op : Operation)
  | readRaw (req : ReadRequest)
  | readBatches (req : ReadRequest)
  | readEvents (req : ReadRequest)
  | readBackward (req : ReadRequest)
  | branches (tree : TreeId)
  | scan (pageSize : UInt64) (page : Bytes)
  deriving DecidableEq, Repr

inductive Reply where
  | done (ans : Answer)
  | blobs (page : Page Version)
  | batches (page : Page Batch)
  | events (page : Page Event)
  | tokens (tokens : List Bytes)
  | listing (l : Listing)
  deriving DecidableEq, Repr

def Operation.withToken (bytes : Bytes) : Operation → Operation
  | newBranch namespaceId workflowId runId retention =>
    newBranch namespaceId workflowId runId retention
  | append req payload => append { req with token := bytes } payload
  | fork req => fork { req with token := bytes }
  | remove (.trim req) => remove (.trim { req with token := bytes })
  | remove (.delete req) => remove (.delete { req with token := bytes })

namespace Request

def withToken (bytes : Bytes) : Request → Request
  | change op => change (op.withToken bytes)
  | readRaw req => readRaw { req with token := bytes }
  | readBatches req => readBatches { req with token := bytes }
  | readEvents req => readEvents { req with token := bytes }
  | readBackward req => readBackward { req with token := bytes }
  | branches tree => branches tree
  | scan pageSize page => scan pageSize page

def perform {σ : Type} [Backend σ] (a : Archive) : Request → Action σ Reply
  | change op => .done <$> op.perform a
  | readRaw req => .blobs <$> a.readRaw req
  | readBatches req => .batches <$> a.readBatches req
  | readEvents req => .events <$> a.readEvents req
  | readBackward req => .events <$> a.readBackward req
  | branches tree => .tokens <$> a.branches tree
  | scan pageSize page => .listing <$> a.scan pageSize page

end Request

/-! ## Two programs on the same tables -/

namespace Action

variable {α β : Type}

/-- From every state with the tables `ts` the two programs end in the same. -/
def SameOn (ts : Tables) (x y : Action MemoryStore α) : Prop := ∀ s, s.tables = ts → x s = y s

namespace SameOn

variable {ts : Tables} {x y : Action MemoryStore α}

theorem of_eq (h : x = y) : SameOn ts x y := fun _ _ => h ▸ rfl

theorem refl : SameOn ts x x := .of_eq rfl

/-- What follows has to agree on what the first part can end in only. -/
theorem bind {z : Action MemoryStore β} {f g : β → Action MemoryStore α} {R : β → Prop}
    (hz : Keeps (· = ts) z R) (h : ∀ b, R b → SameOn ts (f b) (g b)) :
    SameOn ts (z >>= f) (z >>= g) := by
  intro s hs
  have hkeeps := hz s hs
  unfold Meets at hkeeps
  rw [bind_apply, bind_apply]
  cases hrun : z s with
  | ok b t =>
    rw [hrun] at hkeeps
    exact h b hkeeps.2.2 t hkeeps.1
  | error e t => rfl

theorem map {f : α → β} (h : SameOn ts x y) : SameOn ts (f <$> x) (f <$> y) := by
  intro s hs
  rw [map_apply, map_apply, h s hs]

end SameOn

end Action

/-! ## Forged tokens -/

namespace Archive

section Forged

variable {σ : Type} [Backend σ] (a : Archive) (d : Deadline) {bytes forged : Bytes} {q p : Token}

theorem requireRow_congr (htree : p.tree = q.tree) (hbranch : p.branch = q.branch) :
    (requireRow d p : Action σ BranchRow) = requireRow d q := by
  unfold requireRow
  rw [htree, hbranch]

variable (hq : Token.decode bytes = .ok q) (hp : Token.decode forged = .ok p)
  (htree : p.tree = q.tree) (hbranch : p.branch = q.branch)

include hq hp htree hbranch

/-- Whatever starts with looking up the row that the bytes name. -/
theorem lookup_congr {α : Type} (f : BranchRow → Action σ α) :
    (Action.lift (decodeToken forged) >>= fun t => requireRow d t >>= f) =
      Action.lift (decodeToken bytes) >>= fun t => requireRow d t >>= f := by
  rw [decodeToken_eq_ok_iff.2 hq, decodeToken_eq_ok_iff.2 hp]
  show requireRow d p >>= f = requireRow d q >>= f
  rw [requireRow_congr d htree hbranch]

theorem plan_withToken (req : ReadRequest) :
    (plan d { req with token := forged } : Action σ Plan) = plan d { req with token := bytes } := by
  unfold plan
  rw [lookup_congr d hq hp htree hbranch]

theorem selectPage_withToken (req : ReadRequest) :
    (a.selectPage d { req with token := forged } : Action σ Selection) =
      a.selectPage d { req with token := bytes } := by
  unfold selectPage noEvents
  rw [plan_withToken d hq hp htree hbranch]

theorem readBatchesAs_withToken (operation : String) (req : ReadRequest) :
    (a.readBatchesAs operation { req with token := forged } : Action σ (Page Batch)) =
      a.readBatchesAs operation { req with token := bytes } := by
  unfold readBatchesAs
  rw [selectPage_withToken a _ hq hp htree hbranch]

theorem readRaw_withToken (req : ReadRequest) :
    (a.readRaw { req with token := forged } : Action σ (Page Version)) =
      a.readRaw { req with token := bytes } := by
  unfold readRaw
  rw [selectPage_withToken a _ hq hp htree hbranch]

theorem readBackward_withToken (req : ReadRequest) :
    (a.readBackward { req with token := forged } : Action σ (Page Event)) =
      a.readBackward { req with token := bytes } := by
  unfold readBackward noEvents
  simp only [plan_withToken _ hq hp htree hbranch]

theorem fork_withToken (req : ForkRequest) :
    (a.fork { req with token := forged } : Action σ Bytes) =
      a.fork { req with token := bytes } := by
  unfold fork
  simp only [lookup_congr _ hq hp htree hbranch]

theorem trim_withToken (req : TrimRequest) :
    (a.trim { req with token := forged } : Action σ Nat) = a.trim { req with token := bytes } := by
  unfold trim
  simp only [lookup_congr _ hq hp htree hbranch]

end Forged

/-- What is prepared for the two tokens are the same versions, or it is refused alike. -/
theorem prepare_withToken {bytes forged : Bytes} {q p : Token} (hq : Token.decode bytes = .ok q)
    (hp : Token.decode forged = .ok p) (codec : Codec) (req : WriteRequest) (payload : Payload) :
    (∃ e, payload.prepare codec { req with token := bytes } = .error e ∧
        payload.prepare codec { req with token := forged } = .error e) ∨
      ∃ v, payload.prepare codec { req with token := bytes } = .ok (q, v) ∧
        payload.prepare codec { req with token := forged } = .ok (p, v) := by
  rw [← decodeToken_eq_ok_iff] at hq hp
  cases payload with
  | events es =>
    simp only [Payload.prepare, hq, hp]
    cases Batch.check es with
    | error fault => exact .inl ⟨_, rfl, rfl⟩
    | ok first =>
      cases codec.encode es with
      | error e => exact .inl ⟨_, rfl, rfl⟩
      | ok blob => exact .inr ⟨_, rfl, rfl⟩
  | raw node blob =>
    simp only [Payload.prepare, hq, hp]
    split
    · exact .inl ⟨_, rfl, rfl⟩
    split
    · exact .inl ⟨_, rfl, rfl⟩
    · exact .inr ⟨_, rfl, rfl⟩

section Stored

variable (a : Archive) {bytes forged : Bytes} {q p : Token} {ts : Tables} {row : BranchRow}
  (htree : p.tree = q.tree) (hbranch : p.branch = q.branch)
  (hrow : ts.row? q.tree q.branch = some row)

include htree hbranch hrow

/-- If there is a row, what a version is checked against is the token of the row. -/
theorem store_withToken (d : Deadline) (req : WriteRequest) (v : Version) :
    Action.SameOn ts (a.store d { req with token := forged } p v)
      (a.store d { req with token := bytes } q v) := by
  unfold store
  rw [htree, hbranch]
  refine .bind (.lift (R := fun _ => True) fun _ _ => trivial) fun _ _ => ?_
  refine .bind .lock fun _ _ => ?_
  refine .bind (.question (R := (· = some row)) fun us hus => ?_) fun found hfound => ?_
  · rw [hus, hrow]
  · subst hfound
    exact .refl

variable (hq : Token.decode bytes = .ok q) (hp : Token.decode forged = .ok p)

include hq hp

theorem append_withToken (req : WriteRequest) (payload : Payload) :
    Action.SameOn ts ((Operation.append { req with token := forged } payload).perform a)
      ((Operation.append { req with token := bytes } payload).perform a) := by
  rw [perform_append, perform_append]
  refine .bind .checkLease fun _ _ => ?_
  rcases prepare_withToken hq hp a.codec req payload with
    ⟨e, hbytes, hforged⟩ | ⟨v, hbytes, hforged⟩
  · rw [hbytes, hforged]
    exact .refl
  · rw [hbytes, hforged]
    exact .map (store_withToken a htree hbranch hrow _ req v)

/-- If there is a row, what is collected is what the token of the row reaches. -/
theorem delete_withToken (req : DeleteRequest) :
    Action.SameOn ts (a.delete { req with token := forged })
      (a.delete { req with token := bytes }) := by
  unfold delete
  rw [decodeToken_eq_ok_iff.2 hq, decodeToken_eq_ok_iff.2 hp]
  refine .bind .checkLease fun _ _ => ?_
  dsimp only [Action.lift]
  rw [pure_bind, pure_bind, htree, hbranch]
  refine .bind .lock fun _ _ => ?_
  refine .bind (.question (R := (· = some row)) fun us hus => ?_) fun found hfound => ?_
  · rw [hus, hrow]
  · subst hfound
    exact .refl

end Stored

end Archive

namespace Request

variable {a : Archive} {bytes forged : Bytes} {q p : Token} {s : State MemoryStore}
  {row : BranchRow}

/-- **Only the ids count.** Two byte strings that write tokens with the same tree and branch ids
are the same to every request, as long as the branch has a row: the answer and the state that is
left are the same, with or without faults. -/
theorem perform_withToken (hq : Token.decode bytes = .ok q) (hp : Token.decode forged = .ok p)
    (htree : p.tree = q.tree) (hbranch : p.branch = q.branch)
    (hrow : s.tables.row? q.tree q.branch = some row) (r : Request) :
    (r.withToken forged).perform a s = (r.withToken bytes).perform a s := by
  have hsame : Action.SameOn s.tables ((r.withToken forged).perform a)
      ((r.withToken bytes).perform a) := by
    cases r with
    | change op =>
      cases op with
      | newBranch namespaceId workflowId runId retention => exact .refl
      | append req payload =>
        exact .map (Archive.append_withToken a htree hbranch hrow hq hp req payload)
      | fork req =>
        exact .map (.map (.of_eq (Archive.fork_withToken a hq hp htree hbranch req)))
      | remove removal =>
        cases removal with
        | trim req => exact .map (.map (.of_eq (Archive.trim_withToken a hq hp htree hbranch req)))
        | delete req => exact .map (.map (Archive.delete_withToken a htree hbranch hrow hq hp req))
    | readRaw req => exact .map (.of_eq (Archive.readRaw_withToken a hq hp htree hbranch req))
    | readBatches req =>
      exact .map (.of_eq (Archive.readBatchesAs_withToken a hq hp htree hbranch _ req))
    | readEvents req =>
      refine .map (.of_eq ?_)
      unfold Archive.readEvents
      rw [Archive.readBatchesAs_withToken a hq hp htree hbranch]
    | readBackward req =>
      exact .map (.of_eq (Archive.readBackward_withToken a hq hp htree hbranch req))
    | branches tree => exact .refl
    | scan pageSize page => exact .refl
  exact hsame s rfl

end Request

/-- A token with the ids of a branch that has no ancestors, and an ancestor. -/
def Sample.forgery : Token := { Sample.root with lineage := [⟨Sample.fork.branch, 1, 2⟩] }

/-- With the forged token the branch is deleted just as with its own. -/
theorem Request.perform_forgery :
    let bytes := Forked.bytes Sample.root
    let forged := Forked.bytes Sample.forgery
    let delete : Request := .change (.remove (.delete ⟨1, 1, bytes⟩))
    Token.decode bytes = .ok Sample.root ∧ Token.decode forged = .ok Sample.forgery ∧
      Sample.state.tables.row? Sample.root.tree Sample.root.branch = some ⟨Sample.root, "", 0⟩ ∧
      ((delete.withToken forged).perform Sample.archive).answer Sample.state =
        .ok (.done (.removed 1)) ∧
      (delete.withToken forged).perform Sample.archive Sample.state =
        (delete.withToken bytes).perform Sample.archive Sample.state := by
  have hroot : Token.decode (Forked.bytes Sample.root) = .ok Sample.root := rfl
  have hforged : Token.decode (Forked.bytes Sample.forgery) = .ok Sample.forgery := rfl
  have hrow : Sample.state.tables.row? Sample.root.tree Sample.root.branch =
      some ⟨Sample.root, "", 0⟩ := by decide +kernel
  exact ⟨hroot, hforged, hrow, by decide +kernel,
    Request.perform_withToken hroot hforged rfl rfl hrow _⟩

end Chronicle
