import Chronicle.Error

/-!
# Deadlines

An operation that has a time limit gives up once the limit is reached; it looks at its deadline
before each call to the backend. How long a call takes is not the archive's business: the looks at a
deadline that still come in time are counted from outside, like the calls that an armed fault lets
pass. A limit of zero is over before the first look, and without a limit every look is in time.
-/
namespace Chronicle

/-- When an operation gives up. Stands for `Deadline`, whose `expires_at` is the limit counted from
the start of the operation. -/
structure Deadline where
  operation : String
  limit : Option Duration
  deriving DecidableEq, Repr

namespace Deadline

/-- `Deadline::after`. -/
def after (operation : String) (limit : Option Duration) : Deadline := ⟨operation, limit⟩

/-- Whether the limit is over from the start. -/
def expired (d : Deadline) : Bool := d.limit.any (·.isZero)

/-- One look at the deadline, `Deadline::check`, after which `delay` counts one look less. The
look that comes too late uses the delay up. -/
def check (d : Deadline) (delay : Option Nat) : Except Error Unit × Option Nat :=
  if d.expired then (.error (.timeout d.operation), delay)
  else match d.limit, delay with
    | some _, some 0 => (.error (.timeout d.operation), none)
    | some _, some (n + 1) => (.ok (), some n)
    | _, _ => (.ok (), delay)

theorem check_of_expired {d : Deadline} (h : d.expired = true) (delay : Option Nat) :
    d.check delay = (.error (.timeout d.operation), delay) := by
  unfold check
  rw [if_pos h]

theorem check_of_not_expired {d : Deadline} (h : d.expired = false) :
    d.check none = (.ok (), none) := by
  unfold check
  rw [h]
  cases d.limit <;> rfl

/-- A look finds the limit over from the start, or comes in time, or is the one that comes too late.
-/
theorem check_cases (d : Deadline) (delay : Option Nat) :
    (d.expired = true ∧ d.check delay = (.error (.timeout d.operation), delay)) ∨
      (d.expired = false ∧
        ∃ later, d.check delay = (.ok (), later) ∧ (later = none ↔ delay = none)) ∨
      (d.expired = false ∧ delay = some 0 ∧
        d.check delay = (.error (.timeout d.operation), none)) := by
  cases hd : d.expired with
  | true => exact .inl ⟨rfl, check_of_expired hd delay⟩
  | false =>
    refine .inr ?_
    unfold check
    rw [hd]
    cases d.limit with
    | none => exact .inl ⟨rfl, delay, rfl, Iff.rfl⟩
    | some limit =>
      rcases delay with _ | _ | n
      · exact .inl ⟨rfl, none, rfl, Iff.rfl⟩
      · exact .inr ⟨rfl, rfl, rfl⟩
      · exact .inl ⟨rfl, some n, rfl, iff_of_false nofun nofun⟩

end Deadline

end Chronicle
