import Chronicle.Duration

/-!
# Configuration

Limits of the library. Every field has a default; `Config.check` refuses values that no operation
could work with, and `Config.check_eq_ok_iff` says which are accepted.
-/
namespace Chronicle

/-- `HistoryConfig`: what can be configured. -/
structure Config where
  /-- Largest blob of one append, in bytes. -/
  transactionSizeLimit : UInt64
  /-- The page size of a request that names none. -/
  defaultPageSize : UInt64
  /-- No page is larger than this. -/
  maxPageSize : UInt64
  /-- Milliseconds after which an operation gives up, if it ever does. -/
  operationTimeoutMs : Option UInt64
  /-- The most spans that a fork may inherit. -/
  maxAncestorDepth : UInt64
  deriving DecidableEq, Repr

/-- Why a configuration cannot be used. -/
inductive ConfigError where
  /-- The file at `path` cannot be read or written. -/
  | io (path reason : String)
  /-- The text is no configuration. -/
  | parse (reason : String)
  | zeroTransactionSize
  | zeroDefaultPageSize
  | maxPageBelowDefault (max default : UInt64)
  | zeroAncestorDepth
  /-- A refusal in someone else's words. -/
  | invalid (reason : String)
  deriving DecidableEq, Repr

def ConfigError.message : ConfigError → String
  | .io path reason => s!"config file '{path}': {reason}"
  | .parse reason => s!"failed to parse config: {reason}"
  | .zeroTransactionSize => "invalid config: transaction_size_limit must be positive"
  | .zeroDefaultPageSize => "invalid config: default_page_size must be positive"
  | .maxPageBelowDefault max default =>
    s!"invalid config: max_page_size ({max}) is below default_page_size ({default})"
  | .zeroAncestorDepth => "invalid config: max_ancestor_depth must be positive"
  | .invalid reason => s!"invalid config: {reason}"

namespace Config

def standard : Config where
  transactionSizeLimit := 4194304
  defaultPageSize := 100
  maxPageSize := 1000
  operationTimeoutMs := none
  maxAncestorDepth := 256

/-- `validate`: checks the ranges of the values. -/
def check (c : Config) : Except ConfigError Unit :=
  if c.transactionSizeLimit = 0 then .error .zeroTransactionSize
  else if c.defaultPageSize = 0 then .error .zeroDefaultPageSize
  else if c.maxPageSize < c.defaultPageSize then
    .error (.maxPageBelowDefault c.maxPageSize c.defaultPageSize)
  else if c.maxAncestorDepth = 0 then .error .zeroAncestorDepth
  else .ok ()

/-- `operation_timeout`. -/
def operationTimeout (c : Config) : Option Duration := c.operationTimeoutMs.map Duration.ofMillis

/-- `effective_page_size`: 0 stands for the default, and no page is larger than the cap. -/
def effectivePageSize (c : Config) (requested : UInt64) : UInt64 :=
  let size := if requested = 0 then c.defaultPageSize else requested
  if c.maxPageSize < size then c.maxPageSize else size

theorem check_eq_ok_iff {c : Config} :
    c.check = .ok () ↔ 0 < c.transactionSizeLimit ∧ 0 < c.defaultPageSize ∧
      c.defaultPageSize ≤ c.maxPageSize ∧ 0 < c.maxAncestorDepth := by
  simp only [check, UInt64.lt_iff_toNat_lt, UInt64.le_iff_toNat_le, ← UInt64.toNat_inj,
    UInt64.toNat_zero]
  split
  · next h => simp [h]
  · split
    · next h => simp [h]
    · split
      · next h => exact iff_of_false nofun fun hc => by omega
      · split
        · next h => simp [h]
        · simp only [true_iff]
          omega

theorem check_standard : standard.check = .ok () := rfl

/-- Under an accepted configuration a page has room, and is at most the cap. -/
theorem effectivePageSize_bounds {c : Config} (h : c.check = .ok ()) (requested : UInt64) :
    0 < c.effectivePageSize requested ∧ c.effectivePageSize requested ≤ c.maxPageSize := by
  obtain ⟨-, hdefault, hle, -⟩ := check_eq_ok_iff.1 h
  simp only [effectivePageSize, UInt64.lt_iff_toNat_lt, UInt64.le_iff_toNat_le,
    ← UInt64.toNat_inj, UInt64.toNat_zero] at *
  split <;> split <;> omega

end Config

end Chronicle
