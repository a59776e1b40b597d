import Chronicle.Identity
import Chronicle.Wire.LittleEndian

/-!
# Events and batches

Events are written in batches. A batch has at least one event, its ids count up by one from an id
that is at least 1, and all its events carry one version. `Batch.check_eq_ok_iff` says that the
check accepts exactly those lists.
-/
namespace Chronicle

/-- `HistoryEvent`: one thing that happened. -/
structure Event where
  id : EventId
  version : Int64
  kind : String
  payload : Bytes
  deriving DecidableEq, Repr

namespace Batch

/-- Why events are no batch. -/
inductive Fault where
  | empty
  | belowFirst (id : EventId)
  /-- The event at `offset` does not have the id that far after `first`. -/
  | gap (first id : EventId) (offset : Nat)
  | mixedVersions (first other : Int64)
  deriving DecidableEq, Repr

def Fault.message : Fault → String
  | .empty => "empty event batch"
  | .belowFirst id => s!"event id {id} below {firstEvent}"
  | .gap first id offset =>
    s!"event ids not contiguous after {first}: got {id} at offset {offset}"
  | .mixedVersions first other => s!"mixed versions in batch: {first} and {other}"

/-- Checks the events from `offset` on against the first one. -/
def checkFrom (first : Event) (offset : Nat) : List Event → Except Fault Unit
  | [] => .ok ()
  | e :: rest =>
    if e.id.toInt ≠ first.id.toInt + offset then .error (.gap first.id e.id offset)
    else if e.version ≠ first.version then .error (.mixedVersions first.version e.version)
    else checkFrom first (offset + 1) rest

/-- `validate_batch`: checks that the events are a batch, and gives its first event. -/
def check : List Event → Except Fault Event
  | [] => .error .empty
  | first :: rest =>
    if first.id < firstEvent then .error (.belowFirst first.id)
    else do
      checkFrom first 0 (first :: rest)
      return first

/-- The events are a batch that starts with `first`. -/
structure IsBatch (first : Event) (events : List Event) : Prop where
  head : events.head? = some first
  positive : firstEvent ≤ first.id
  ids : ∀ (i : Nat) (e : Event), events[i]? = some e → e.id.toInt = first.id.toInt + i
  versions : ∀ e ∈ events, e.version = first.version

theorem checkFrom_eq_ok_iff {first : Event} {offset : Nat} {events : List Event} :
    checkFrom first offset events = .ok () ↔
      (∀ (i : Nat) (e : Event), events[i]? = some e → e.id.toInt = first.id.toInt + offset + i) ∧
        ∀ e ∈ events, e.version = first.version := by
  induction events generalizing offset with
  | nil => simp [checkFrom]
  | cons e rest ih =>
    unfold checkFrom
    split
    · next h =>
      refine iff_of_false (by simp) fun hb => h ?_
      have := hb.1 0 e rfl
      omega
    · split
      · next hv => exact iff_of_false (by simp) fun hb => hv (hb.2 e (List.mem_cons_self ..))
      · next hi hv =>
        rw [ih]
        constructor
        · intro h
          obtain ⟨h1, h2⟩ := h
          refine ⟨fun i d hd => ?_, fun d hd => ?_⟩
          · cases i with
            | zero => simp at hd; subst hd; omega
            | succ i => have := h1 i d (by simpa using hd); omega
          · rcases List.mem_cons.1 hd with rfl | hd
            · exact Decidable.not_not.1 hv
            · exact h2 d hd
        · intro h
          obtain ⟨h1, h2⟩ := h
          refine ⟨fun i d hd => ?_, fun d hd => h2 d (List.mem_cons_of_mem _ hd)⟩
          have := h1 (i + 1) d (by simpa using hd)
          omega

theorem check_eq_ok_iff {first : Event} {events : List Event} :
    check events = .ok first ↔ IsBatch first events := by
  cases events with
  | nil => exact iff_of_false (by simp [check]) fun h => by simpa using h.head
  | cons e rest =>
    rw [check]
    split
    · next hlt =>
      refine iff_of_false (by simp) fun h => ?_
      have h1 := h.head
      have h2 := h.positive
      simp at h1
      subst h1
      exact Int64.not_lt.2 h2 hlt
    · next hlt =>
      cases hc : checkFrom e 0 (e :: rest) with
      | error f =>
        refine iff_of_false (by simp [bind, Except.bind]) fun h => ?_
        have h1 := h.head
        simp at h1
        subst h1
        have : checkFrom e 0 (e :: rest) = .ok () :=
          checkFrom_eq_ok_iff.2 ⟨fun i d hd => by have := h.ids i d hd; omega, h.versions⟩
        rw [hc] at this
        cases this
      | ok u =>
        have hb := checkFrom_eq_ok_iff.1 hc
        constructor
        · intro h
          have : e = first := by simpa [bind, Except.bind, pure, Except.pure] using h
          subst this
          refine ⟨rfl, Int64.not_lt.1 hlt, ?_, hb.2⟩
          intro i d hd
          have := hb.1 i d hd
          omega
        · intro h
          have h1 := h.head
          simp at h1
          subst h1
          rfl

end Batch

end Chronicle
