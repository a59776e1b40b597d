import Chronicle.Deadline
import Chronicle.Lease
import Chronicle.Counters

/-!
# The archive

An archive is what callers talk to. It has a configuration that was checked, a codec and a source of
ids, none of which change. What changes is its state: the backend, the leases of the shards, the
counters, the branches that have a commit lock, and how many ids have been drawn. Two parts of the
state come from outside: how long the operations take, and what the calendar shows.

An operation is an `Action`: it changes the state and ends in a value or in an error, and the state
that an error leaves behind is part of the answer. Calls to the backend go through `ask` only, which
looks at the deadline first.
-/
namespace Chronicle

/-- What an archive is set up with. Stands for the fixed parts of `HistoryManager`. -/
structure Archive where
  config : Config
  codec : Codec
  /-- The random bits of the id that is drawn as number `k`. -/
  source : Nat → BitVec 128
  accepted : config.check = .ok ()

/-- What the operations of an archive work on. -/
structure Archive.State (σ : Type) where
  store : σ
  leases : LeaseTable
  counters : Counters
  /-- The branches with a commit lock. -/
  locks : List BranchId
  /-- The number of ids drawn so far. -/
  drawn : Nat
  /-- So many looks at a deadline still come in time, and the next one too late; none is no end of
  them. -/
  delay : Option Nat
  /-- What the calendar shows when the next row is stored. -/
  now : Timestamp

/-- An operation on an archive whose backend is in state `σ`. -/
abbrev Action (σ α : Type) := EStateM Error (Archive.State σ) α

namespace Action

variable {σ α : Type}

def lift : Except Error α → Action σ α
  | .ok a => pure a
  | .error e => throw e

/-- A look at the deadline, `Deadline::check`. -/
def check (d : Deadline) : Action σ Unit := fun s =>
  match d.check s.delay with
  | (.ok (), delay) => .ok () { s with delay }
  | (.error e, delay) => .error e { s with delay }

def onBackend (call : Call σ α) : Action σ α := fun s =>
  match call s.store with
  | .ok a store => .ok a { s with store }
  | .error e store => .error (.ofBackend e) { s with store }

/-- One call to the backend, unless the deadline has expired. -/
def ask (d : Deadline) (call : Call σ α) : Action σ α := do
  check d
  onBackend call

def count (f : Counters → Counters) : Action σ Unit :=
  modify fun s => { s with counters := f s.counters }

end Action

namespace Archive

variable {σ : Type}

namespace State

/-- The state of an archive that was just opened on a store. -/
def fresh (store : σ) : State σ := ⟨store, .empty, .zero, [], 0, none, 0⟩

/-- The state of another archive that is opened on the same store and the same leases. -/
def reopen (s : State σ) : State σ := { s with counters := .zero, locks := [] }

end State

/-- `HistoryManager::new`: sets up an archive, if the configuration is accepted. -/
def setUp (config : Config) (codec : Codec) (source : Nat → BitVec 128) : Except Error Archive :=
  match h : config.check with
  | .ok () => .ok ⟨config, codec, source, h⟩
  | .error e => .error (.ofConfig e)

/-- The deadline of an operation that starts now. -/
def deadline (a : Archive) (operation : String) : Deadline :=
  .after operation a.config.operationTimeout

/-- `check_lease`: refuses a lease that is not the current one, and counts the refusal. -/
def checkLease (shard : ShardId) (lease : LeaseId) : Action σ Unit := do
  match (← get).leases.check shard lease with
  | .ok () => pure ()
  | .error e =>
    Action.count (·.countRejection)
    throw e

def decodeToken (bytes : Bytes) : Except Error Token := (Token.decode bytes).mapError .ofToken

def encodeToken (t : Token) : Except Error Bytes := t.encode.mapError .ofToken

def drawId {k : Kind} (a : Archive) : Action σ (Id k) := do
  let drawn := (← get).drawn + 1
  modify fun s => { s with drawn }
  return .random (a.source drawn)

/-- `commit_lock`, of which only the entry in the map of locks counts here. -/
def lock (b : BranchId) : Action σ Unit := modify fun s => { s with locks := s.locks.insert b }

/-- `remove_commit_lock`. -/
def unlock (b : BranchId) : Action σ Unit := modify fun s => { s with locks := s.locks.erase b }

/-- Stores a row that is created now. -/
def createRow [Backend σ] (d : Deadline) (token : Token) (info : String) : Action σ Unit := do
  Action.ask d (Backend.upsertBranch ⟨token, info, (← get).now⟩)

/-- `require_branch`: the stored row of the branch that a token names. -/
def requireRow [Backend σ] (d : Deadline) (t : Token) : Action σ BranchRow := do
  match ← Action.ask d (Backend.getBranch t.tree t.branch) with
  | some row => pure row
  | none => throw (.notFound (.branch t.branch t.tree))

end Archive

end Chronicle
