import Chronicle.Wire.Reader

/-!
# Durations

A duration counts whole seconds and the nanoseconds of the started one, of which there are fewer
than a billion: that bound is part of the type, so the two fields of a duration are determined by
its length. `ofParts?` carries an excess of nanoseconds into the seconds.
-/
namespace Chronicle

/-- A length of time. -/
structure Duration where
  seconds : UInt64
  nanos : UInt32
  nanos_lt : nanos.toNat < 1000000000
  deriving DecidableEq, Repr

namespace Duration

/-- The duration of `seconds` and `nanos`, unless the seconds leave 64 bits. -/
def ofParts? (seconds : UInt64) (nanos : UInt32) : Option Duration :=
  let total := seconds.toNat + nanos.toNat / 1000000000
  if total < UInt64.size then
    some ⟨UInt64.ofNat total, UInt32.ofNat (nanos.toNat % 1000000000), by
      have := UInt32.toNat_lt nanos
      rw [UInt32.toNat_ofNat']
      omega⟩
  else none

/-- The duration of `ms` milliseconds. -/
def ofMillis (ms : UInt64) : Duration :=
  ⟨ms / 1000, UInt32.ofNat (ms.toNat % 1000 * 1000000), by
    have h1 := Nat.mod_lt ms.toNat (show 0 < 1000 by decide)
    have h2 := Nat.mod_le (ms.toNat % 1000 * 1000000) (2 ^ 32)
    rw [UInt32.toNat_ofNat']
    omega⟩

def isZero (d : Duration) : Bool := d.seconds = 0 && d.nanos = 0

theorem ofParts?_self (d : Duration) : ofParts? d.seconds d.nanos = some d := by
  obtain ⟨s, n, h⟩ := d
  have := UInt64.toNat_lt s
  simp only [ofParts?, Nat.div_eq_of_lt h, Nat.mod_eq_of_lt h, Nat.add_zero, this, if_true]
  simp

/-- The written form: seconds, then nanoseconds. Excess nanoseconds are read as seconds. -/
def read : Wire.Reader Duration := do
  let seconds ← Wire.readUInt64
  let nanos ← Wire.readUInt32
  match ofParts? seconds nanos with
  | some d => pure d
  | none => throw .durationOverflow

def write (d : Duration) : Bytes := Wire.writeUInt64 d.seconds ++ Wire.writeUInt32 d.nanos

end Duration

/-- `RetentionHints`: how long a run and its history are to be kept; nothing here is enforced. -/
structure Retention where
  runTimeout : Option Duration
  executionTimeout : Option Duration
  retention : Option Duration
  deriving DecidableEq, Repr

namespace Retention

def unset : Retention := ⟨none, none, none⟩

/-- `with_retention`: only a retention time. -/
def keep (d : Duration) : Retention := ⟨none, none, some d⟩

def read : Wire.Reader Retention := do
  let runTimeout ← Wire.readOption Duration.read
  let executionTimeout ← Wire.readOption Duration.read
  let retention ← Wire.readOption Duration.read
  pure ⟨runTimeout, executionTimeout, retention⟩

def write (r : Retention) : Bytes :=
  Wire.writeOption Duration.write r.runTimeout
    ++ Wire.writeOption Duration.write r.executionTimeout
    ++ Wire.writeOption Duration.write r.retention

end Retention

end Chronicle
