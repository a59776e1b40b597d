import Chronicle.Error
import Chronicle.SortedMap

/-!
# Leases

Whoever changes the histories of a shard has to present the shard's current lease. Lease numbers of
a shard only grow, also across a release, so a lease that was lost never becomes current again.
-/
namespace Chronicle

/-- `ShardLease`: the last lease of a shard, and whether someone still holds it. -/
structure Lease where
  number : LeaseId
  held : Bool
  deriving DecidableEq, Repr

/-- `InMemoryShardRegistry`: the leases of all shards. -/
structure LeaseTable where
  leases : SortedMap ShardId Lease
  deriving DecidableEq

namespace LeaseTable

def empty : LeaseTable := ⟨.empty⟩

instance : Inhabited LeaseTable := ⟨empty⟩

/-- The last lease of a shard; before the first one it is number 0, which nobody holds. -/
def last (leases : LeaseTable) (shard : ShardId) : Lease :=
  (leases.leases.get? shard).getD ⟨0, false⟩

/-- `current_lease`: the lease that owns the shard now. -/
def current (leases : LeaseTable) (shard : ShardId) : Option LeaseId :=
  let lease := leases.last shard
  if lease.held then some lease.number else none

/-- Gives out the next lease of a shard, which ends every earlier one. There is none after the
largest number. -/
def acquire (leases : LeaseTable) (shard : ShardId) : Except Error (LeaseId × LeaseTable) :=
  let last := (leases.last shard).number
  if last = Int64.maxValue then .error .overflow
  else .ok (last + 1, ⟨leases.leases.insert shard ⟨last + 1, true⟩⟩)

/-- Records a lease that was given out elsewhere. It must be later than every lease of the shard so
far; the lease that is held may be confirmed. -/
def assign (leases : LeaseTable) (shard : ShardId) (number : LeaseId) : Except Error LeaseTable :=
  let lease := leases.last shard
  if number < lease.number ∨ (number = lease.number ∧ lease.held = false) then
    .error (.invalidArgument (.leaseNotLater number shard lease.number))
  else .ok ⟨leases.leases.insert shard ⟨number, true⟩⟩

/-- `release`: ends the lease of a shard. -/
def release (leases : LeaseTable) (shard : ShardId) : LeaseTable :=
  ⟨leases.leases.alter shard (Option.map fun lease => { lease with held := false })⟩

/-- `LeaseFence::check`: refuses a lease that is not the current one. -/
def check (leases : LeaseTable) (shard : ShardId) (presented : LeaseId) : Except Error Unit :=
  if leases.current shard = some presented then .ok ()
  else .error (.ownershipLost shard presented (leases.current shard))

end LeaseTable

end Chronicle
